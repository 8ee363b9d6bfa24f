import Corekit.Task.Moves
import Corekit.Foundation.Dispatch
import Corekit.Foundation.Slots

/-! Every closure that `Enqueue` accepts is taken by one worker and called once.
The executor is a `Dispatch` system over the tickets of `Enqueue`: a closure is
performed when its worker calls it. -/
namespace Corekit.Task
open Corekit.Api Corekit.Foundation

def Worker.holding (i : Nat) : Worker → Multiset (Nat × Nat)
  | .taken entry => {(entry.ticket, i)}
  | _ => 0

namespace Machine

variable {m m' : Machine}

def tickets (m : Machine) : List Nat := m.pool.tasks.map TaskEntry.ticket

def dispatch (m : Machine) : Dispatch Nat Nat where
  queued := m.tickets
  held := slotSum Worker.holding m.workers
  accepted := m.history.accepted
  taken := m.history.taken
  performed := m.history.invoked

def takings (m : Machine) (t : Nat) : Nat := (m.history.taken.map Prod.fst).count t

def invocations (m : Machine) (t : Nat) : Nat := (m.history.invoked.map Prod.fst).count t

theorem coe_snoc {α : Type} (events : List α) (a : α) :
    (↑(events ++ [a]) : Multiset α) = a ::ₘ ↑events :=
  Multiset.coe_eq_coe.mpr (List.perm_append_singleton a events)

theorem dispatch_quiet (htasks : m'.pool.tasks = m.pool.tasks)
    (hheld : slotSum Worker.holding m'.workers = slotSum Worker.holding m.workers)
    (hhistory : m'.history.accepted = m.history.accepted ∧ m'.history.taken = m.history.taken ∧
      m'.history.invoked = m.history.invoked) : Dispatch.Step m.dispatch m'.dispatch := by
  have heq : m'.dispatch = m.dispatch := by
    simp only [dispatch, tickets, htasks, hheld, hhistory]
  rw [heq]
  exact .quiet _

theorem slotSum_holding_set {i : Nat} {old : Worker} (new : Worker) (hold : m.workers[i]? = some old)
    (h : old.holding i = new.holding i) :
    slotSum Worker.holding (m.workers.set i new) = slotSum Worker.holding m.workers := by
  have hsum := slotSum_set Worker.holding new hold
  rw [h] at hsum
  exact add_right_cancel hsum

theorem worker_dispatch {i : Nat} {threw : Bool} (h : m.stepWorker i threw = some m') :
    Dispatch.Step m.dispatch m'.dispatch := by
  obtain ⟨old, hold, move⟩ := stepWorker_cases h
  cases move with
  | exit empty stopping =>
    exact dispatch_quiet rfl (slotSum_holding_set .exited hold rfl) ⟨rfl, rfl, rfl⟩
  | take entry picked =>
    have hqueue : m.dispatch.queued =
        entry.ticket ::ₘ ↑((m.pool.tasks.eraseIdx m.pool.pickNextTaskIndexLocked).map
          TaskEntry.ticket) := by
      obtain ⟨hlt, rfl⟩ := List.getElem?_eq_some_iff.mp picked
      have hperm := List.getElem_cons_eraseIdx_perm hlt
      exact Multiset.coe_eq_coe.mpr (hperm.map TaskEntry.ticket).symm
    have hheld : slotSum Worker.holding (m.workers.set i (.taken entry)) =
        (entry.ticket, i) ::ₘ slotSum Worker.holding m.workers := by
      simpa [Worker.holding, add_comm] using slotSum_set Worker.holding (.taken entry) hold
    convert Dispatch.Step.take m.dispatch entry.ticket i _ hqueue using 1
    exact Dispatch.ext rfl hheld rfl (coe_snoc _ _) rfl
  | invoke entry =>
    have hheld : slotSum Worker.holding (m.invoke i entry).workers + {(entry.ticket, i)} =
        slotSum Worker.holding m.workers + 0 := slotSum_set Worker.holding _ hold
    have hsplit : m.dispatch.held =
        (entry.ticket, i) ::ₘ slotSum Worker.holding (m.invoke i entry).workers := by
      rw [← Multiset.singleton_add, add_comm, hheld, add_zero, dispatch]
    convert Dispatch.Step.perform m.dispatch entry.ticket i _ hsplit using 1
    exact Dispatch.ext rfl rfl rfl rfl (coe_snoc _ _)
  | stage entry stage next ended move quiet workers clients history =>
    apply dispatch_quiet quiet.tasks
    · rw [workers]
      apply slotSum_holding_set _ hold
      cases move <;> rfl
    · rw [history]
      exact ⟨rfl, rfl, rfl⟩
  | mark entry stage next executed failed fn marks next_eq =>
    apply dispatch_quiet (Pool.markTaskDone_tasks ..)
    · apply slotSum_holding_set _ hold
      rcases next_eq with rfl | rfl <;> rfl
    · exact ⟨rfl, rfl, rfl⟩
  | finish =>
    exact dispatch_quiet rfl (slotSum_holding_set .idle hold rfl) ⟨rfl, rfl, rfl⟩

theorem enqueue_dispatch (fn : Closure) (options : TaskSubmitOptions)
    (hfresh : ∀ t ∈ m.history.accepted, t < m.history.attempts) :
    Dispatch.Step m.dispatch (m.enqueue fn options).2.dispatch := by
  cases hok : (m.enqueue fn options).1.ok with
  | true =>
    have haccepts := Pool.enqueue_accepts hok
    have hnew : m.history.attempts ∉ m.dispatch.accepted := by
      intro hmem
      exact absurd (hfresh _ (Multiset.mem_coe.mp hmem)) (lt_irrefl _)
    convert Dispatch.Step.accept m.dispatch m.history.attempts hnew using 1
    simp only [enqueue] at hok
    simp only [dispatch, tickets, enqueue, hok, if_true, coe_snoc, haccepts.tasks,
      List.map_append, List.map_cons, List.map_nil]
  | false =>
    have hquiet := Pool.enqueue_refuses hok
    have hstep := @dispatch_quiet m (m.enqueue fn options).2 hquiet.tasks rfl
    apply hstep
    simp only [enqueue] at hok
    simp [enqueue, hok]

theorem client_dispatch {c : Nat} {choice : Bool}
    (hfresh : ∀ t ∈ m.history.accepted, t < m.history.attempts)
    (h : m.stepClient c choice = some m') : Dispatch.Step m.dispatch m'.dispatch := by
  obtain ⟨call, next, -, move⟩ := stepClient_cases h
  cases move with
  | reply pool result quiet keyHolder replies =>
    exact dispatch_quiet quiet.tasks rfl ⟨rfl, rfl, rfl⟩
  | goto pc goes => exact .quiet _
  | submit hpc hcall => exact enqueue_dispatch .plain {} hfresh
  | register options hpc => exact .quiet _
  | accept options id state hpc ok => exact enqueue_dispatch _ options hfresh
  | refuse options id state hpc refused => exact enqueue_dispatch _ options hfresh
  | undo id refused hpc => exact .quiet _

end Machine

/-- The serial-key mutex a worker owns. An exception has released it before
the outcome is recorded. -/
def Worker.key : Worker → Option Nat
  | .inside ⟨.tracked _ _ serialKey, _, _, _⟩ stage =>
    if serialKey = 0 ∨ stage = .locking ∨ stage = .recording true then none else some serialKey
  | _ => none

/-- Where a closure can be: that of `Submit` has two stages, and one without a
serial key neither locks nor unlocks. -/
def Worker.Placed : Worker → Prop
  | .inside ⟨.plain, _, _, _⟩ stage => stage = .running ∨ ∃ threw, stage = .recording threw
  | .inside ⟨.tracked _ _ serialKey, _, _, _⟩ stage =>
    stage = .locking ∨ stage = .unlocking → serialKey ≠ 0
  | _ => True

namespace Machine

variable {m m' : Machine}

structure Keyed (m : Machine) : Prop where
  owner : ∀ serialKey i, m.pool.keyHolder serialKey = some i →
    ∃ worker, m.workers[i]? = some worker ∧ worker.key = some serialKey
  placed : ∀ (i : Nat) (worker : Worker), m.workers[i]? = some worker → worker.Placed

theorem Keyed.set {i : Nat} {old new : Worker} (hm : m.Keyed) (hold : m.workers[i]? = some old)
    (hworkers : m'.workers = m.workers.set i new)
    (hkeys : ∀ serialKey j, m'.pool.keyHolder serialKey = some j →
      (j = i ∧ new.key = some serialKey) ∨
        (m.pool.keyHolder serialKey = some j ∧ (old.key = some serialKey → new.key = old.key)))
    (hplaced : new.Placed) : m'.Keyed := by
  refine ⟨fun serialKey j hj => ?_, ?_⟩
  · have hself : m'.workers[i]? = some new := by
      rw [hworkers, List.getElem?_set_self (List.getElem?_eq_some_iff.mp hold).1]
    rcases hkeys serialKey j hj with ⟨rfl, hnew⟩ | ⟨hbefore, hkeep⟩
    · exact ⟨new, hself, hnew⟩
    · obtain ⟨worker, hworker, hkey⟩ := hm.owner serialKey j hbefore
      by_cases hij : i = j
      · subst hij
        cases Option.some.inj (hold.symm.trans hworker)
        exact ⟨new, hself, (hkeep hkey).trans hkey⟩
      · exact ⟨worker, by rw [hworkers, List.getElem?_set_ne hij]; exact hworker, hkey⟩
  · rw [hworkers]
    exact forall_slots_set hm.placed hplaced

theorem Keyed.of_eq (hm : m.Keyed) (hworkers : m'.workers = m.workers)
    (hkeys : m'.pool.keyHolder = m.pool.keyHolder) : m'.Keyed := by
  refine ⟨?_, ?_⟩
  · rw [hworkers, hkeys]
    exact hm.owner
  · rw [hworkers]
    exact hm.placed

theorem releaseKey_keyHolder {p : Pool} {released serialKey i : Nat}
    (h : (releaseKey p released).keyHolder serialKey = some i) :
    p.keyHolder serialKey = some i ∧ (released = 0 ∨ serialKey ≠ released) := by
  unfold releaseKey at h
  split at h
  · next hzero => exact ⟨h, .inl hzero⟩
  · by_cases heq : serialKey = released
    · subst heq
      simp at h
    · exact ⟨by simpa [heq] using h, .inr heq⟩

theorem Keyed.stepTracked {i : Nat} {entry : TaskEntry} {id : TaskId} {state serialKey : Nat}
    {stage : Stage} {threw : Bool} (hm : m.Keyed)
    (hold : m.workers[i]? = some (.inside entry stage))
    (hfn : entry.fn = .tracked id state serialKey)
    (h : m.stepTracked i entry id state serialKey stage threw = some m') : m'.Keyed := by
  obtain ⟨fn, priority, seq, ticket⟩ := entry
  obtain rfl : fn = .tracked id state serialKey := hfn
  have hplaced := hm.placed i _ hold
  cases stage with
  | locking =>
    have hne : serialKey ≠ 0 := hplaced (.inl rfl)
    simp only [Machine.stepTracked] at h
    split at h
    · cases h
    · cases Option.some.inj h
      refine hm.set hold rfl (fun other j hj => ?_) (by simp [Worker.Placed])
      by_cases heq : other = serialKey
      · subst heq
        exact .inl ⟨by simpa [eq_comm] using hj, by simp [Worker.key, hne]⟩
      · exact .inr ⟨by simpa [heq] using hj, by simp [Worker.key]⟩
  | checking =>
    simp only [Machine.stepTracked] at h
    split_ifs at h <;> cases Option.some.inj h <;>
      exact hm.set hold rfl (fun other j hj => .inr ⟨hj, by simp [Worker.key]⟩)
        (by simp [Worker.Placed])
  | skipping =>
    cases Option.some.inj h
    refine hm.set hold rfl (fun other j hj => .inr ⟨by simpa using hj, ?_⟩) ?_ <;>
      by_cases hzero : serialKey = 0 <;> simp [Worker.key, Worker.Placed, hzero]
  | running =>
    cases Option.some.inj h
    refine hm.set hold rfl (fun other j hj => .inr ?_) (by simp [Worker.Placed])
    cases threw with
    | true =>
      obtain ⟨hbefore, hne⟩ := releaseKey_keyHolder hj
      refine ⟨hbefore, ?_⟩
      rcases hne with hzero | hne
      · simp [Worker.key, hzero]
      · simp [Worker.key, hne.symm]
    | false => exact ⟨hj, by simp [Worker.key]⟩
  | recording flag =>
    cases flag <;> cases Option.some.inj h
    · refine hm.set hold rfl (fun other j hj => .inr ⟨by simpa using hj, ?_⟩) ?_ <;>
        by_cases hzero : serialKey = 0 <;> simp [Worker.key, Worker.Placed, hzero]
    · exact hm.set hold rfl (fun other j hj => .inr ⟨by simpa using hj, by simp [Worker.key]⟩)
        trivial
  | unlocking =>
    cases Option.some.inj h
    refine hm.set hold rfl (fun other j hj => .inr ?_) trivial
    obtain ⟨hbefore, hne⟩ := releaseKey_keyHolder hj
    refine ⟨hbefore, ?_⟩
    rcases hne with hzero | hne
    · simp [Worker.key, hzero]
    · simp [Worker.key, hne.symm]

theorem Keyed.stepWorker {i : Nat} {threw : Bool} (hm : m.Keyed)
    (h : m.stepWorker i threw = some m') : m'.Keyed := by
  unfold Machine.stepWorker at h
  have hkeep : ∀ {old : Worker} (new : Worker), m.workers[i]? = some old → new.Placed → old.key = none →
      m'.workers = m.workers.set i new → m'.pool.keyHolder = m.pool.keyHolder → m'.Keyed := by
    intro old new hold hplaced hkey hworkers hholder
    refine hm.set hold hworkers (fun serialKey j hj => .inr ?_) hplaced
    exact ⟨by rw [← hholder]; exact hj, by simp [hkey]⟩
  cases hold : m.workers[i]? with
  | none => simp [hold] at h
  | some old =>
    cases old with
    | idle =>
      simp only [hold] at h
      cases takeTask_cases h with
      | exit empty stopping => exact hkeep .exited hold trivial rfl rfl rfl
      | take entry picked => exact hkeep (.taken entry) hold trivial rfl rfl rfl
    | taken entry =>
      simp only [hold] at h
      cases Option.some.inj h
      refine hkeep _ hold ?_ rfl rfl rfl
      obtain ⟨fn, priority, seq, ticket⟩ := entry
      cases fn with
      | plain => exact .inl rfl
      | tracked id state serialKey =>
        by_cases hzero : serialKey = 0 <;> simp [Worker.Placed, hzero]
    | inside entry stage =>
      simp only [hold] at h
      cases hfn : entry.fn with
      | plain =>
        simp only [hfn] at h
        obtain ⟨fn, priority, seq, ticket⟩ := entry
        obtain rfl : fn = .plain := hfn
        cases stage with
        | running =>
          cases Option.some.inj h
          refine hkeep _ hold ?_ rfl rfl rfl
          exact Or.inr ⟨threw, rfl⟩
        | recording flag =>
          cases flag <;> cases Option.some.inj h <;>
            exact hkeep .finishing hold trivial rfl rfl rfl
        | locking => cases h
        | checking => cases h
        | skipping => cases h
        | unlocking => cases h
      | tracked id state serialKey =>
        simp only [hfn] at h
        exact hm.stepTracked hold hfn h
    | finishing =>
      simp only [hold] at h
      cases Option.some.inj h
      exact hkeep .idle hold trivial rfl rfl rfl
    | exited => simp [hold] at h

theorem Keyed.stepClient {c : Nat} {choice : Bool} (hm : m.Keyed)
    (h : m.stepClient c choice = some m') : m'.Keyed := by
  obtain ⟨call, next, -, move⟩ := stepClient_cases h
  cases move with
  | reply pool result quiet keyHolder replies => exact hm.of_eq rfl keyHolder
  | goto pc goes => exact hm.of_eq rfl rfl
  | submit hpc hcall => exact hm.of_eq rfl Pool.enqueue_keyHolder
  | register options hpc => exact hm.of_eq rfl rfl
  | accept options id state hpc ok => exact hm.of_eq rfl Pool.enqueue_keyHolder
  | refuse options id state hpc refused => exact hm.of_eq rfl Pool.enqueue_keyHolder
  | undo id refused hpc => exact hm.of_eq rfl rfl

structure Sound (m : Machine) : Prop where
  balanced : m.dispatch.Balanced
  fresh : ∀ t ∈ m.history.accepted, t < m.history.attempts
  drained : ∀ (i : Nat) (worker : Worker), m.workers[i]? = some worker → worker = .exited →
    m.pool.stopping = true ∧ m.pool.tasks = []
  staffed : m.workers ≠ []
  keyed : m.Keyed

theorem Sound.init (options : ExecutorOptions) (hardwareConcurrency : Nat)
    (programs : Nat → Program Unit) : (init options hardwareConcurrency programs).Sound where
  balanced := by
    convert Dispatch.Balanced.empty using 1
    refine Dispatch.ext rfl (slotSum_eq_zero fun i worker hi => ?_) rfl rfl rfl
    obtain ⟨-, rfl⟩ := List.mem_replicate.mp (List.mem_of_getElem? hi)
    rfl
  fresh := by simp [Machine.init]
  drained i worker hi hexited := by
    obtain ⟨-, rfl⟩ := List.mem_replicate.mp (List.mem_of_getElem? hi)
    cases hexited
  staffed := by
    simp only [Machine.init, ne_eq, List.replicate_eq_nil_iff]
    unfold normalizeWorkerCount
    split_ifs with hcount hzero
    · exact Nat.pos_iff_ne_zero.mp hcount
    · simp
    · exact hzero
  keyed := by
    refine ⟨by simp [Machine.init], fun i worker hi => ?_⟩
    obtain ⟨-, rfl⟩ := List.mem_replicate.mp (List.mem_of_getElem? hi)
    trivial

theorem enqueue_fresh (fn : Closure) (options : TaskSubmitOptions)
    (hfresh : ∀ t ∈ m.history.accepted, t < m.history.attempts) :
    ∀ t ∈ (m.enqueue fn options).2.history.accepted,
      t < (m.enqueue fn options).2.history.attempts := by
  intro t ht
  simp only [enqueue] at ht ⊢
  split_ifs at ht
  · rcases List.mem_append.mp ht with ht | ht
    · exact Nat.lt_succ_of_lt (hfresh t ht)
    · cases List.mem_singleton.mp ht
      exact Nat.lt_succ_self _
  · exact Nat.lt_succ_of_lt (hfresh t ht)

theorem enqueue_drained (fn : Closure) (options : TaskSubmitOptions)
    (h : m.pool.stopping = true ∧ m.pool.tasks = []) :
    (m.enqueue fn options).2.pool.stopping = true ∧ (m.enqueue fn options).2.pool.tasks = [] := by
  cases hok : (m.enqueue fn options).1.ok with
  | true =>
    have := (Pool.enqueue_accepts hok).open_
    simp [h.1] at this
  | false =>
    have hquiet := Pool.enqueue_refuses hok
    exact ⟨hquiet.stopping.trans h.1, hquiet.tasks.trans h.2⟩

theorem worker_accepted {i : Nat} {threw : Bool} (h : m.stepWorker i threw = some m') :
    m'.history.accepted = m.history.accepted ∧ m'.history.attempts = m.history.attempts := by
  obtain ⟨old, hold, move⟩ := stepWorker_cases h
  cases move with
  | stage entry stage next ended move quiet workers clients history =>
    rw [history]
    exact ⟨rfl, rfl⟩
  | _ => exact ⟨rfl, rfl⟩

theorem Sound.stepWorker {i : Nat} {threw : Bool} (hm : m.Sound)
    (h : m.stepWorker i threw = some m') : m'.Sound := by
  have hframe : m'.workers ≠ [] ∧
      ∀ (j : Nat) (worker : Worker), m'.workers[j]? = some worker → worker = .exited →
        m'.pool.stopping = true ∧ m'.pool.tasks = [] := by
    obtain ⟨old, hold, move⟩ := stepWorker_cases h
    cases move with
    | exit empty stopping =>
      refine ⟨by simpa [setWorker] using hm.staffed, ?_⟩
      exact forall_slots_set hm.drained fun _ => ⟨stopping, empty⟩
    | take entry picked =>
      refine ⟨by simpa [setWorker] using hm.staffed, ?_⟩
      have hnone : ∀ (j : Nat) (worker : Worker), m.workers[j]? = some worker →
          worker ≠ .exited := by
        intro j worker hj hexited
        simp [(hm.drained j worker hj hexited).2] at picked
      intro j worker hj hexited
      exact absurd hexited (forall_slots_set hnone (by simp) j worker hj)
    | invoke entry =>
      refine ⟨by simpa [setWorker, invoke] using hm.staffed, ?_⟩
      exact forall_slots_set hm.drained (by simp)
    | stage entry stage next ended move quiet workers clients history =>
      rw [workers, quiet.stopping, quiet.tasks]
      refine ⟨by simpa using hm.staffed, ?_⟩
      apply forall_slots_set hm.drained
      cases move <;> simp
    | mark entry stage next executed failed fn marks next_eq =>
      refine ⟨by simpa [setWorker, markTaskDone] using hm.staffed, ?_⟩
      simp only [setWorker_pool, markTaskDone_pool, Pool.markTaskDone_stopping,
        Pool.markTaskDone_tasks]
      apply forall_slots_set hm.drained
      rcases next_eq with rfl | rfl <;> simp
    | finish =>
      refine ⟨by simpa [setWorker, finishTask] using hm.staffed, ?_⟩
      exact forall_slots_set hm.drained (by simp)
  refine ⟨(worker_dispatch h).balanced hm.balanced, ?_, hframe.2, hframe.1,
    hm.keyed.stepWorker h⟩
  rw [(worker_accepted h).1, (worker_accepted h).2]
  exact hm.fresh

theorem Sound.stepClient {c : Nat} {choice : Bool} (hm : m.Sound)
    (h : m.stepClient c choice = some m') : m'.Sound := by
  have hframe : m'.workers = m.workers ∧
      (∀ t ∈ m'.history.accepted, t < m'.history.attempts) ∧
      (m.pool.stopping = true ∧ m.pool.tasks = [] →
        m'.pool.stopping = true ∧ m'.pool.tasks = []) := by
    obtain ⟨call, next, -, move⟩ := stepClient_cases h
    cases move with
    | reply pool result quiet keyHolder replies =>
      refine ⟨rfl, hm.fresh, fun hd => ⟨quiet.stopping.trans hd.1, quiet.tasks.trans hd.2⟩⟩
    | goto pc goes => exact ⟨rfl, hm.fresh, id⟩
    | submit hpc hcall =>
      exact ⟨rfl, enqueue_fresh .plain {} hm.fresh, enqueue_drained .plain {}⟩
    | register options hpc => exact ⟨rfl, hm.fresh, id⟩
    | accept options id state hpc ok =>
      exact ⟨rfl, enqueue_fresh _ options hm.fresh, enqueue_drained _ options⟩
    | refuse options id state hpc refused =>
      exact ⟨rfl, enqueue_fresh _ options hm.fresh, enqueue_drained _ options⟩
    | undo id refused hpc => exact ⟨rfl, hm.fresh, fun hd => hd⟩
  obtain ⟨hworkers, hfresh, hdrained⟩ := hframe
  refine ⟨(client_dispatch hm.fresh h).balanced hm.balanced, hfresh, ?_, ?_,
    hm.keyed.stepClient h⟩
  · rw [hworkers]
    exact fun j worker hj hexited => hdrained (hm.drained j worker hj hexited)
  · rw [hworkers]
    exact hm.staffed

theorem Sound.step {label : Label} (hm : m.Sound) (h : m.step label = some m') : m'.Sound := by
  cases label with
  | worker i threw => exact hm.stepWorker h
  | client c choice => exact hm.stepClient h
  | stop =>
    cases Option.some.inj h
    refine ⟨hm.balanced, hm.fresh, fun j worker hj hexited => ?_, hm.staffed,
      hm.keyed.of_eq rfl rfl⟩
    exact ⟨rfl, (hm.drained j worker hj hexited).2⟩

theorem Sound.of_run {options : ExecutorOptions} {hardwareConcurrency : Nat}
    {programs : Nat → Program Unit} {labels : List Label}
    (h : runs Machine.step (Machine.init options hardwareConcurrency programs) labels = some m) : m.Sound :=
  runs_invariant (fun _ _ _ hm hstep => hm.step hstep) (.init _ _ _) h

end Machine

section Progress

theorem Pool.pickFrom_lt {n : Nat} (rest : List TaskEntry) {best bestScore bestSeq i : Nat}
    (hbest : best < n) (hi : i + rest.length ≤ n) :
    Pool.pickFrom best bestScore bestSeq rest i < n := by
  induction rest generalizing best bestScore bestSeq i with
  | nil => exact hbest
  | cons entry rest ih =>
    simp only [List.length_cons] at hi
    simp only [Pool.pickFrom]
    split_ifs
    · exact ih (by omega) (by omega)
    · exact ih hbest (by omega)

theorem Pool.pickNextTaskIndexLocked_lt {p : Pool} (h : p.tasks ≠ []) :
    p.pickNextTaskIndexLocked < p.tasks.length := by
  unfold Pool.pickNextTaskIndexLocked
  cases htasks : p.tasks with
  | nil => exact absurd htasks h
  | cons first rest =>
    dsimp only
    split_ifs
    · simp
    · exact Pool.pickFrom_lt rest (by simp) (by simp; omega)

/-- How many steps a worker still has in front of it, at most. -/
def Stage.weight : Stage → Nat
  | .locking => 7
  | .checking => 6
  | .running => 5
  | .recording _ => 4
  | .skipping => 4
  | .unlocking => 3

def Worker.weight : Worker → Nat
  | .idle => 1
  | .taken _ => 8
  | .inside _ stage => stage.weight
  | .finishing => 2
  | .exited => 0

namespace Machine

variable {m m' : Machine}

def work (m : Machine) : Nat :=
  8 * m.pool.tasks.length + slotSum (fun _ worker => worker.weight) m.workers

theorem work_lt_of_set {i : Nat} {old new : Worker} (hold : m.workers[i]? = some old)
    (hweight : new.weight < old.weight) (htasks : m'.pool.tasks = m.pool.tasks)
    (hworkers : m'.workers = m.workers.set i new) : m'.work < m.work := by
  have hsum := slotSum_set (fun _ worker => worker.weight) new hold
  unfold work
  rw [htasks, hworkers]
  omega

theorem worker_work {i : Nat} {threw : Bool} (h : m.stepWorker i threw = some m') :
    m'.work < m.work := by
  obtain ⟨old, hold, move⟩ := stepWorker_cases h
  cases move with
  | exit empty stopping => exact work_lt_of_set hold (by simp [Worker.weight]) rfl rfl
  | take entry picked =>
    have hsum : slotSum (fun _ worker => worker.weight) (m.workers.set i (.taken entry)) + 1 =
        slotSum (fun _ worker => worker.weight) m.workers + 8 := slotSum_set _ _ hold
    have hlt := (List.getElem?_eq_some_iff.mp picked).1
    simp only [work, setWorker, List.length_eraseIdx_of_lt hlt]
    omega
  | invoke entry =>
    refine work_lt_of_set hold ?_ rfl rfl
    cases entry.fn with
    | plain => simp [Worker.weight, Stage.weight]
    | tracked id state serialKey =>
      by_cases hzero : serialKey = 0 <;> simp [Worker.weight, Stage.weight, hzero]
  | stage entry stage next ended move quiet workers clients history =>
    refine work_lt_of_set hold ?_ quiet.tasks workers
    cases move <;> simp [Worker.weight, Stage.weight]
  | mark entry stage next executed failed fn marks next_eq =>
    refine work_lt_of_set hold ?_ (Pool.markTaskDone_tasks ..) rfl
    rcases next_eq with rfl | rfl <;> cases stage <;>
      simp_all [Worker.weight, Stage.weight, Stage.marks]
  | finish => exact work_lt_of_set hold (by simp [Worker.weight]) rfl rfl

theorem enabled_of_key {i serialKey : Nat} {worker : Worker}
    (hold : m.workers[i]? = some worker) (hkey : worker.key = some serialKey) :
    m.stepWorker i false ≠ none := by
  cases worker with
  | inside entry stage =>
    obtain ⟨fn, priority, seq, ticket⟩ := entry
    cases fn with
    | plain => simp [Worker.key] at hkey
    | tracked id state key =>
      cases stage with
      | locking => simp [Worker.key] at hkey
      | checking =>
        simp only [stepWorker, hold, stepTracked]
        split_ifs <;> simp
      | recording flag => cases flag <;> simp [stepWorker, hold, stepTracked]
      | _ => simp [stepWorker, hold, stepTracked]
  | _ => simp [Worker.key] at hkey

theorem idle_of_stuck (hm : m.Keyed) (hstuck : ∀ i, m.stepWorker i false = none) {i : Nat}
    {worker : Worker} (hold : m.workers[i]? = some worker) :
    worker = .idle ∨ worker = .exited := by
  have hi := hstuck i
  cases worker with
  | idle => exact .inl rfl
  | exited => exact .inr rfl
  | taken entry => simp [stepWorker, hold] at hi
  | finishing => simp [stepWorker, hold] at hi
  | inside entry stage =>
    have hplaced := hm.placed i _ hold
    obtain ⟨fn, priority, seq, ticket⟩ := entry
    cases fn with
    | plain =>
      rcases hplaced with rfl | ⟨threw, rfl⟩
      · simp [stepWorker, hold, stepPlain] at hi
      · cases threw <;> simp [stepWorker, hold, stepPlain] at hi
    | tracked id state serialKey =>
      cases stage with
      | locking =>
        cases hkey : m.pool.keyHolder serialKey with
        | none => simp [stepWorker, hold, stepTracked, hkey] at hi
        | some j =>
          obtain ⟨owner, howner, hown⟩ := hm.owner serialKey j hkey
          exact absurd (hstuck j) (enabled_of_key howner hown)
      | checking =>
        simp only [stepWorker, hold, stepTracked] at hi
        split_ifs at hi
      | recording flag => cases flag <;> simp [stepWorker, hold, stepTracked] at hi
      | _ => simp [stepWorker, hold, stepTracked] at hi

theorem empty_of_stuck (hm : m.Sound) (hstuck : ∀ i, m.stepWorker i false = none) :
    m.pool.tasks = [] := by
  by_contra hne
  obtain ⟨worker, rest, hworkers⟩ := List.exists_cons_of_ne_nil hm.staffed
  have hold : m.workers[0]? = some worker := by simp [hworkers]
  rcases idle_of_stuck hm.keyed hstuck hold with rfl | rfl
  · have htake := hstuck 0
    have hlt := Pool.pickNextTaskIndexLocked_lt hne
    simp only [stepWorker, hold, takeTask] at htake
    cases htasks : m.pool.tasks with
    | nil => exact hne htasks
    | cons first tail =>
      simp only [htasks] at htake
      rw [← htasks] at htake
      simp [List.getElem?_eq_getElem hlt] at htake
  · exact hne (hm.drained 0 _ hold rfl).2

theorem held_of_idle (h : ∀ (i : Nat) (worker : Worker), m.workers[i]? = some worker →
    worker = .idle ∨ worker = .exited) : m.dispatch.held = 0 := by
  apply slotSum_eq_zero
  intro i worker hi
  rcases h i worker hi with rfl | rfl <;> rfl

theorem Sound.places (hm : m.Sound) (t : Nat) :
    m.history.accepted.count t =
      m.tickets.count t + (m.dispatch.held.map Prod.fst).count t + m.invocations t := by
  have := congrArg (Multiset.count t) hm.balanced.places
  simpa [dispatch, invocations] using this

theorem Sound.takings_eq (hm : m.Sound) (t : Nat) :
    m.takings t = (m.dispatch.held.map Prod.fst).count t + m.invocations t := by
  have := congrArg (fun events => Multiset.count t (events.map Prod.fst)) hm.balanced.hands
  simpa [dispatch, invocations, takings] using this

theorem Sound.accepted_once (hm : m.Sound) {t : Nat} (ht : t ∈ m.history.accepted) :
    m.history.accepted.count t = 1 :=
  List.count_eq_one_of_mem (Multiset.coe_nodup.mp hm.balanced.nodup) ht

theorem Sound.all_invoked (hm : m.Sound) (htasks : m.pool.tasks = [])
    (hidle : ∀ (i : Nat) (worker : Worker), m.workers[i]? = some worker →
      worker = .idle ∨ worker = .exited) {t : Nat} (ht : t ∈ m.history.accepted) :
    m.takings t = 1 ∧ m.invocations t = 1 := by
  have hplaces := hm.places t
  have htakings := hm.takings_eq t
  rw [hm.accepted_once ht, held_of_idle hidle, tickets, htasks] at hplaces
  rw [held_of_idle hidle] at htakings
  simp at hplaces htakings
  omega

theorem Sound.worker_run {schedule : List (Nat × Bool)} {final : Machine} (hm : m.Sound)
    (hrun : runs Machine.step m (schedule.map fun turn => .worker turn.1 turn.2) = some final) :
    final.Sound ∧ final.history.accepted = m.history.accepted ∧
      schedule.length + final.work ≤ m.work := by
  induction schedule generalizing m with
  | nil =>
    cases Option.some.inj hrun
    exact ⟨hm, rfl, by simp⟩
  | cons turn rest ih =>
    obtain ⟨mid, hstep, hrest⟩ := runs_cons_some.mp hrun
    obtain ⟨hfinal, haccepted, hwork⟩ := ih (hm.stepWorker hstep) hrest
    have hless := worker_work hstep
    refine ⟨hfinal, haccepted.trans (worker_accepted hstep).1, ?_⟩
    simp only [List.length_cons]
    omega

end Machine

end Progress

/-- In every run, whatever the clients call and whenever the destructor starts:
an accepted closure is in the queue or was taken once, and then is in the hands
of that worker or was called once by it; a refused one is nowhere. When all
workers have left, and wherever the workers alone are let run until none of them
can move, which takes a bounded number of steps, every accepted closure has been
called once. -/
theorem accepted_runs_exactly_once (options : ExecutorOptions) (hardwareConcurrency : Nat)
    (programs : Nat → Program Unit) {labels : List Label} {m : Machine}
    (hrun : runs Machine.step (Machine.init options hardwareConcurrency programs) labels = some m) :
    (∀ t ∈ m.history.accepted, m.tickets.count t + m.takings t = 1 ∧
      m.invocations t ≤ m.takings t ∧
      (∀ i j, (t, i) ∈ m.history.taken → (t, j) ∈ m.history.invoked → i = j) ∧
      (m.invocations t < m.takings t →
        ∃ (i : Nat) (entry : TaskEntry), m.workers[i]? = some (.taken entry) ∧ entry.ticket = t)) ∧
    (∀ t, t ∉ m.history.accepted →
      m.tickets.count t = 0 ∧ m.takings t = 0 ∧ m.invocations t = 0) ∧
    (m.pool.stopping = true → (∀ worker ∈ m.workers, worker = .exited) →
      m.pool.tasks = [] ∧ ∀ t ∈ m.history.accepted, m.takings t = 1 ∧ m.invocations t = 1) ∧
    (∀ (schedule : List (Nat × Bool)) (final : Machine),
      runs Machine.step m (schedule.map fun turn => .worker turn.1 turn.2) = some final →
      schedule.length ≤ m.work ∧
      ((∀ i, final.stepWorker i false = none) → final.pool.tasks = [] ∧
        ∀ t ∈ m.history.accepted, final.takings t = 1 ∧ final.invocations t = 1)) := by
  have hm := Machine.Sound.of_run hrun
  refine ⟨fun t ht => ?_, fun t ht => ?_, fun hstop hexited => ?_, fun schedule final hfinal => ?_⟩
  · have hplaces := hm.places t
    have htakings := hm.takings_eq t
    rw [hm.accepted_once ht] at hplaces
    refine ⟨by omega, by omega, fun i j hi hj => ?_, fun hlt => ?_⟩
    · have htaken : (t, j) ∈ m.dispatch.taken :=
        Multiset.mem_of_le hm.balanced.performed_le_taken hj
      exact hm.balanced.taken_unique hi htaken
    · have hheld : t ∈ m.dispatch.held.map Prod.fst :=
        Multiset.count_pos.mp (by omega)
      obtain ⟨⟨_, i⟩, hmem, rfl⟩ := Multiset.mem_map.mp hheld
      obtain ⟨i, worker, hworker, hin⟩ := mem_slotSum.mp hmem
      cases worker with
      | taken entry =>
        refine ⟨i, entry, hworker, ?_⟩
        exact (congrArg Prod.fst (Multiset.mem_singleton.mp hin)).symm
      | _ => simp [Worker.holding] at hin
  · have hplaces := hm.places t
    have htakings := hm.takings_eq t
    rw [List.count_eq_zero_of_not_mem ht] at hplaces
    omega
  · have hleft : ∀ (i : Nat) (worker : Worker), m.workers[i]? = some worker →
        worker = .exited := fun i worker hi => hexited worker (List.mem_of_getElem? hi)
    obtain ⟨worker, rest, hworkers⟩ := List.exists_cons_of_ne_nil hm.staffed
    have hfirst : m.workers[0]? = some worker := by simp [hworkers]
    have hempty := (hm.drained 0 worker hfirst (hleft 0 worker hfirst)).2
    exact ⟨hempty, fun t ht => hm.all_invoked hempty
      (fun i worker hi => .inr (hleft i worker hi)) ht⟩
  · obtain ⟨hsound, haccepted, hwork⟩ := hm.worker_run hfinal
    refine ⟨by omega, fun hstuck => ?_⟩
    have hempty := Machine.empty_of_stuck hsound hstuck
    refine ⟨hempty, fun t ht => ?_⟩
    rw [← haccepted] at ht
    exact hsound.all_invoked hempty
      (fun i worker hi => Machine.idle_of_stuck hsound.keyed hstuck hi) ht

/-- One client submits a plain and a keyed closure, two workers run them, the
second one throws, and the destructor lets the workers leave. -/
theorem accepted_runs_exactly_once_shutdown :
    ∃ m, runs Machine.step
        (Machine.init { workerCount := 2 } 0 fun _ =>
          .op (.submit true) fun _ => .op (.submitEx true { serialKey := 7 }) fun _ => .ret ())
        (List.replicate 4 (.client 0 false) ++ [.worker 0 false, .worker 1 false] ++
          List.replicate 6 (.worker 1 true) ++ [.stop] ++ List.replicate 4 (.worker 0 false) ++
          [.worker 1 false, .worker 0 false]) = some m ∧
      m.history.accepted = [0, 1] ∧ m.pool.tasks = [] ∧
      ∀ t ∈ m.history.accepted, m.takings t = 1 ∧ m.invocations t = 1 := by
  obtain ⟨m, hm, hfinal⟩ := Option.map_eq_some_iff.mp (show (runs Machine.step
      (Machine.init { workerCount := 2 } 0 fun _ =>
        .op (.submit true) fun _ => .op (.submitEx true { serialKey := 7 }) fun _ => .ret ())
      (List.replicate 4 (.client 0 false) ++ [.worker 0 false, .worker 1 false] ++
        List.replicate 6 (.worker 1 true) ++ [.stop] ++ List.replicate 4 (.worker 0 false) ++
        [.worker 1 false, .worker 0 false])).map
      (fun m => (m.history.accepted, m.pool.stopping, m.workers)) =
        some ([0, 1], true, [.exited, .exited]) by decide +kernel)
  obtain ⟨haccepted, hstop, hworkers⟩ : m.history.accepted = [0, 1] ∧ m.pool.stopping = true ∧
      m.workers = [.exited, .exited] := by simpa using hfinal
  obtain ⟨hempty, hinvoked⟩ := (accepted_runs_exactly_once _ _ _ hm).2.2.1 hstop
    (by simp [hworkers])
  exact ⟨m, hm, haccepted, hempty, hinvoked⟩

end Corekit.Task
