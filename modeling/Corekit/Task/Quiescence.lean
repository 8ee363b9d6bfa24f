import Corekit.Task.GraphOrder
import Corekit.Task.ParallelFor
import Corekit.Task.Rounds

/-! The two callers inside the library that hand closures to an executor and
then rely on `WaitBatch`: nothing of theirs runs after they return, as long as
the look-ups of `WaitBatch` are made in time. -/
namespace Corekit.Task
open Corekit.Api Corekit.Foundation

/-- `invoke` belongs to the inline branch and asks nothing of the executor. -/
def GraphOp.call : GraphOp → Call
  | .invoke _ => .readFlag
  | .submitEx _ _ options => .submitEx true options
  | .waitBatch ids => .waitBatch (some ids) 0
  | .failed _ => .readFlag

def GraphOp.read : (o : GraphOp) → Answer → o.Res
  | .invoke _ => Answer.asFlag
  | .submitEx _ _ _ => Answer.asTask
  | .waitBatch _ => Answer.asStatus
  | .failed _ => Answer.asFlag

/-- `RunInternal` as the calls of a client of the thread pool. -/
def GraphProgram.onExecutor (p : GraphProgram α) : Program α := p.embed GraphOp.call GraphOp.read

theorem GraphProgram.onExecutor_bind (p : GraphProgram α) (f : α → GraphProgram β) :
    GraphProgram.onExecutor (p.bind f) =
      (GraphProgram.onExecutor p).bind fun value => GraphProgram.onExecutor (f value) :=
  Cmd.embed_bind _ _ p f

theorem Covers.readFlag {post : α → List TaskId → Prop} {next : Answer → Program α}
    {pending : List TaskId} (hnext : ∀ result, Covers post (next result) pending) :
    Covers post (.op .readFlag next) pending := by
  refine ⟨fun ids heq => by simp at heq, fun result => ?_⟩
  exact hnext result

namespace SimpleTaskGraph

variable {g : SimpleTaskGraph}

theorem collect_covers (slots : List Nat) (stats : GraphRunStats) (levelFailed : Bool)
    {pending : List TaskId} :
    Covers (fun _ pending' => pending' = pending)
      (GraphProgram.onExecutor (collect slots stats levelFailed)) pending := by
  induction slots generalizing stats levelFailed with
  | nil => rfl
  | cons slot rest ih =>
    apply Covers.readFlag
    intro result
    simp only [GraphOp.read]
    cases result.asFlag with
    | true => exact ih _ _
    | false => exact ih _ _

/-- After the submissions of a level the pending tasks are its ids, and after a
refusal there is none. -/
theorem submitLevel_covers {level : List TaskId} (hlevel : ∀ id ∈ level, id ∈ g.nodes.keys)
    (slot : Nat) {ids pending : List TaskId} (hids : ∀ id, id ∈ ids ↔ id ∈ pending) :
    Covers (fun result pending' => match result with
        | .ok ids' => ∀ id, id ∈ ids' ↔ id ∈ pending'
        | .error _ => pending' = [])
      (GraphProgram.onExecutor (g.submitLevel slot level ids)) pending := by
  induction level generalizing slot ids pending with
  | nil => exact hids
  | cons node rest ih =>
    obtain ⟨options, hoptions⟩ := g.nodes.exists_find? (hlevel node (by simp))
    simp only [submitLevel, hoptions]
    apply Covers.submitEx
    · intro result id hresult
      simp only [GraphOp.read, hresult]
      exact ih (fun id hid => hlevel id (by simp [hid])) _ (mem_snoc_iff hids id)
    · intro result status hresult
      simp only [GraphOp.read, hresult, Cmd.ret_bind]
      by_cases hnil : ids = []
      · rw [if_neg (not_not.mpr hnil)]
        exact pending_nil hids hnil
      · rw [if_pos hnil]
        exact Covers.waitBatch hids fun _ => rfl

theorem runSubmitted_covers {level : List TaskId} (hlevel : ∀ id ∈ level, id ∈ g.nodes.keys)
    (stats : GraphRunStats) :
    Covers (fun _ pending => pending = [])
      (GraphProgram.onExecutor (g.runSubmitted level stats)) [] := by
  unfold runSubmitted
  simp only [Cmd.bind_eq_bind]
  rw [GraphProgram.onExecutor_bind]
  apply Covers.bind
  apply (submitLevel_covers hlevel 0 fun _ => Iff.rfl).mono
  intro result pending hpending
  cases result with
  | error status => exact hpending
  | ok ids =>
    apply Covers.waitBatch hpending
    intro answer
    simp only [GraphOp.read, Cmd.ret_bind]
    by_cases hok : answer.asStatus.ok = true
    · rw [if_pos hok]
      change Covers _ (GraphProgram.onExecutor ((collect _ _ _).bind _)) []
      rw [GraphProgram.onExecutor_bind]
      apply Covers.bind
      apply (collect_covers _ _ _).mono
      exact fun _ _ h => h
    · rw [if_neg hok]
      rfl

theorem runLoop_covers (options : GraphRunOptions) (fuel : Nat) {indegree : Indegree}
    {ready : List TaskId} (stats : GraphRunStats) (processed : Nat)
    (hkeys : ∀ id, id ∈ indegree.keys ↔ id ∈ g.nodes.keys)
    (hready : ∀ id ∈ ready, id ∈ g.nodes.keys) :
    Covers (fun _ pending => pending = [])
      (GraphProgram.onExecutor (g.runLoop false options fuel indegree ready stats processed))
      [] := by
  induction fuel generalizing indegree ready stats processed with
  | zero =>
    cases ready with
    | nil =>
      simp only [runLoop]
      split_ifs <;> rfl
    | cons first others => rfl
  | succ fuel ih =>
    cases ready with
    | nil =>
      simp only [runLoop]
      split_ifs <;> rfl
    | cons first others =>
      have hlevel : ∀ id ∈ (first :: others).take (levelCap options), id ∈ g.nodes.keys :=
        fun id hid => hready id (List.mem_of_mem_take hid)
      simp only [runLoop, Bool.false_eq_true, if_false, Cmd.bind_eq_bind]
      rw [GraphProgram.onExecutor_bind]
      apply Covers.bind
      apply (runSubmitted_covers hlevel stats).mono
      rintro result pending rfl
      cases result with
      | error status => rfl
      | ok result =>
        obtain ⟨stats', levelFailed⟩ := result
        dsimp only
        split_ifs with hstop
        · rfl
        · cases hrelax : g.relaxLevel ((first :: others).take (levelCap options)) indegree
              ((first :: others).drop (levelCap options)) with
          | error status => rfl
          | ok next =>
            obtain ⟨indegree', ready'⟩ := next
            obtain ⟨hkeys', hready'⟩ := relaxLevel_keys hrelax
            refine ih _ _ (fun id => by rw [hkeys']; exact hkeys id) fun id hid => ?_
            rcases hready' id hid with hid | hid
            · exact hready id (List.mem_of_mem_drop hid)
            · exact (hkeys id).mp hid

theorem runInternal_covers (g : SimpleTaskGraph) (options : GraphRunOptions) :
    Covers (fun _ pending => pending = [])
      (GraphProgram.onExecutor (g.runInternal false options)) [] := by
  unfold runInternal
  cases g.validate with
  | none => rfl
  | some status =>
    dsimp only
    split_ifs with hok
    · cases hbuild : g.buildIndegree with
      | error status => rfl
      | ok indegree =>
        refine runLoop_covers _ _ _ _ (fun id => mem_buildIndegree_keys hbuild) fun id hid => ?_
        exact (mem_buildIndegree_keys hbuild).mp (mem_keys_of_initialReady hid)
    · rfl

end SimpleTaskGraph

/-- The function of the task returned, threw or was skipped, and its closure is
neither queued nor on its way to that. -/
def Machine.Finished (m : Machine) (id : TaskId) : Prop :=
  id ∈ m.history.ended ∧ id ∉ m.queuedIds ∧ id ∉ m.openIds

theorem Machine.Known.finished {m : Machine} (hm : m.Known) {id : TaskId}
    (h : id ∈ m.history.ended) : m.Finished id := ⟨h, hm.ledger.ended_disjoint h⟩

/-- In every run with fewer than 2^64 calls of `SubmitEx` in which client `c` looks
its ids up before they are forgotten: when its `WaitBatch` of ids that `SubmitEx` had
returned is over, all of them have finished; and when its calls are those of a
`ParallelFor` or of a `RunInternal` up to their return, every task these have
submitted has. -/
theorem waitBatch_waits (options : ExecutorOptions) (hardwareConcurrency : Nat)
    (programs : Nat → Program Unit) {before after : List Label} {m₀ m : Machine} {c : Nat}
    (hbefore : runs Machine.step (Machine.init options hardwareConcurrency programs) before =
      some m₀)
    (hready : (m₀.clients c).pc = .ready) (hafter : runs Machine.step m₀ after = some m)
    (hlap : m.FirstLap) (hintime : Meets Machine.step (Machine.InTime c) m₀ after) :
    (∀ ids next, (m₀.clients c).program = .op (.waitBatch (some ids) 0) next →
      (∀ id ∈ ids, m₀.Returned id) → (m₀.clients c).log.length < (m.clients c).log.length →
      ∀ id ∈ ids, m.Finished id) ∧
    (∀ fuel hasFn start stop grain trace later status,
      (m.clients c).log = (m₀.clients c).log ++ (trace ++ later) →
      Follows (parallelFor fuel hasFn start stop grain).onExecutor trace (.ret (some status)) →
      ∀ id ∈ submittedIds trace, m.Finished id) ∧
    (∀ (g : SimpleTaskGraph) (runOptions : GraphRunOptions) trace later value,
      (m.clients c).log = (m₀.clients c).log ++ (trace ++ later) →
      Follows (GraphProgram.onExecutor (g.runInternal false runOptions)) trace (.ret value) →
      ∀ id ∈ submittedIds trace, m.Finished id) := by
  have hknown := Machine.Known.of_run hbefore (hlap.start hafter)
  have hfinal := hknown.run hafter hlap
  refine ⟨fun ids next hcall hreturned hreturns id hid => ?_,
    fun fuel hasFn start stop grain trace later status hlog hfollows id hid => ?_,
    fun g runOptions trace later value hlog hfollows id hid => ?_⟩
  · exact hfinal.finished
      (Machine.batch_over hknown hcall hready hreturned hafter hlap hintime hreturns id hid)
  · exact hfinal.finished (Machine.covered_over hknown hready (parallelFor_covers _ _ _ _ _)
      hintime hafter hlap hlog hfollows (fun pending h => h rfl) id hid)
  · exact hfinal.finished (Machine.covered_over hknown hready (g.runInternal_covers runOptions)
      hintime hafter hlap hlog hfollows (fun pending h => h) id hid)

def nextBatch : Program α → Option (List TaskId)
  | .op (.waitBatch (some ids) 0) _ => some ids
  | _ => none

theorem exists_of_nextBatch {p : Program α} {ids : List TaskId} (h : nextBatch p = some ids) :
    ∃ next, p = .op (.waitBatch (some ids) 0) next := by
  unfold nextBatch at h
  split at h
  · cases Option.some.inj h
    exact ⟨_, rfl⟩
  · cases h

/-- One worker, one task: the client starts to wait before the task does. -/
theorem waitBatch_waits_one :
    ∃ m₀ m, runs Machine.step (Machine.init { workerCount := 1 } 0 fun _ =>
        .op (.submitEx true {}) fun _ => .op (.waitBatch (some [1]) 0) fun _ => .ret ())
        (List.replicate 3 (.client 0 false)) = some m₀ ∧
      runs Machine.step m₀ (List.replicate 2 (.client 0 false) ++
        List.replicate 6 (.worker 0 false) ++ [.client 0 false]) = some m ∧
      ∀ id ∈ [1], m.Finished id := by
  obtain ⟨m, hm, hfinal⟩ := Option.map_eq_some_iff.mp (show (runs Machine.step
      (Machine.init { workerCount := 1 } 0 fun _ =>
        .op (.submitEx true {}) fun _ => .op (.waitBatch (some [1]) 0) fun _ => .ret ())
      (List.replicate 3 (.client 0 false) ++ (List.replicate 2 (.client 0 false) ++
        List.replicate 6 (.worker 0 false) ++ [.client 0 false]))).map
      (fun m => ((m.clients 0).log.length, m.pool.heapSize)) = some (2, 1) by decide +kernel)
  simp only [Prod.mk.injEq] at hfinal
  have hlap : m.FirstLap := by
    unfold Machine.FirstLap
    omega
  obtain ⟨m₀, hbefore, hafter⟩ := runs_append.mp hm
  obtain ⟨m₁, hm₁, hstart⟩ := Option.map_eq_some_iff.mp (show (runs Machine.step
      (Machine.init { workerCount := 1 } 0 fun _ =>
        .op (.submitEx true {}) fun _ => .op (.waitBatch (some [1]) 0) fun _ => .ret ())
      (List.replicate 3 (.client 0 false))).map
      (fun m => ((m.clients 0).pc, nextBatch (m.clients 0).program,
        (m.clients 0).log.map fun entry => entry.2.asTask.toOption,
        Nat.ble (m.history.marked.length + 9) m.pool.maxRetainedStates)) =
        some (.ready, some [1], [some 1], true) by decide +kernel)
  cases Option.some.inj (hbefore.symm.trans hm₁)
  simp only [Prod.mk.injEq] at hstart
  obtain ⟨hready, hbatch, hids, hroom⟩ := hstart
  have hlength := congrArg List.length hids
  rw [List.length_map] at hlength
  obtain ⟨next, hcall⟩ := exists_of_nextBatch hbatch
  have hreturned : m₀.Returned 1 := by
    obtain ⟨entry, hentry, hid⟩ := List.mem_map.mp
      (show some 1 ∈ (m₀.clients 0).log.map fun entry => entry.2.asTask.toOption by simp [hids])
    obtain ⟨call, result⟩ := entry
    refine ⟨0, call, ?_⟩
    rcases result with _ | (_ | _) | _ | _ | _ <;> simp_all [Answer.asTask, Except.toOption]
  refine ⟨m₀, m, hbefore, hafter, ?_⟩
  exact (waitBatch_waits _ _ _ hbefore hready hafter hlap
    (Machine.inTime_of_short (Nat.le_of_ble_eq_true hroom))).1 [1] next hcall
    (by simpa using hreturned) (by rw [hlength, hfinal.1]; decide)

/-! A batch that gives up early. Worker 0 stays inside task 1 while worker 1 runs
65537 further tasks, so that task 2 is forgotten. -/

/-- The batch of tasks 2 and 1 returns while task 1 is still running. -/
theorem waitBatch_returns_early :
    ∃ (before after : List Label) (m₀ m : Machine) (next : Answer → Program Unit),
      runs Machine.step (Machine.init { workerCount := 2 } 0 fun _ =>
        submitThen 65538 (.op (.waitBatch (some [2, 1]) 0) fun _ => .ret ())) before = some m₀ ∧
      (m₀.clients 0).pc = .ready ∧
      (m₀.clients 0).program = .op (.waitBatch (some [2, 1]) 0) next ∧
      (∀ id ∈ [2, 1], m₀.Returned id) ∧ runs Machine.step m₀ after = some m ∧
      (m₀.clients 0).log.length < (m.clients 0).log.length ∧ ¬m.Finished 1 := by
  obtain ⟨labels, m, hrun, hstart⟩ :=
    Round.start (.op (.waitBatch (some [2, 1]) 0) fun _ => .ret ()) 65537
  obtain ⟨labels', m₀, hrun', hround⟩ := hstart.iterate
  have hbefore := runs_append.mpr ⟨m, hrun, hrun'⟩
  have hreturned : ∀ id ∈ [2, 1], m₀.Returned id := by
    intro id hid
    obtain ⟨call, hmem⟩ := hround.returned id
      (by rcases List.mem_cons.mp hid with rfl | hid <;> simp_all)
      (by rcases List.mem_cons.mp hid with rfl | hid <;> simp_all)
    rw [Nat.mod_eq_of_lt (by rcases List.mem_cons.mp hid with rfl | hid <;> simp_all)] at hmem
    exact ⟨0, call, hmem⟩
  have hforgotten : 2 ∈ m₀.forgotten := by
    unfold Machine.forgotten
    rw [hround.marked, hround.limit, List.length_map, List.length_range', Nat.zero_add,
      List.range'_succ, List.map_cons, show 65537 - 65536 = 0 + 1 from rfl, List.take_succ_cons]
    exact List.mem_cons_self
  have hlap : m₀.FirstLap := by
    unfold Machine.FirstLap
    rw [hround.heapSize]
    decide
  have hknown := Machine.Known.of_run hbefore hlap
  have hmissing : m₀.pool.states 2 = none :=
    (hknown.table.present 2 (hknown.ledger.returned 2 (hreturned 2 (by simp)))).mpr hforgotten
  refine ⟨labels ++ labels', List.replicate 2 (.client 0 false), m₀, ?m, fun _ => .ret (), hbefore,
    hround.pc, hround.program, hreturned, ?hrun, ?_⟩
  case hrun =>
    simp only [List.replicate, runs, Machine.step, Machine.stepClient, hround.program, hround.pc,
      submitThen, Machine.beginCall, Machine.setPc, Function.update_self, Option.bind_some,
      Machine.continueCall, hmissing, Machine.answer]
    rfl
  · refine ⟨by simp, fun hfinished => ?_⟩
    have hended : 1 ∈ m₀.history.ended := hfinished.1
    rw [hround.ended, List.mem_map] at hended
    obtain ⟨i, hi, hid⟩ := hended
    have hid : i % 2 ^ 64 = 1 := hid
    rw [List.mem_range'_1] at hi
    omega

end Corekit.Task
