import Corekit.Task.Retention

/-! One client submits task after task, and a worker runs each of them to its
end, while another worker stays inside the first: what such rounds leave behind,
however many there are. -/
namespace Corekit.Task
open Corekit.Api Corekit.Foundation

theorem Pool.markTaskDone_options (p : Pool) (id : TaskId) (executed failed : Bool) :
    (p.markTaskDone id executed failed).options = p.options := by
  unfold Pool.markTaskDone
  split
  · rfl
  · dsimp only
    split_ifs <;> rfl

namespace Machine

variable {m : Machine}

theorem submit_run {next : Answer → Program Unit}
    (hprogram : (m.clients 0).program = .op (.submitEx true {}) next)
    (hpc : (m.clients 0).pc = .ready) (hstop : m.pool.stopping = false)
    (hcapacity : m.pool.options.queueCapacity = 0) :
    ∃ m' entry, runs Machine.step m (List.replicate 3 (.client 0 false)) = some m' ∧
      m'.pool.tasks = m.pool.tasks ++ [entry] ∧
      entry.fn = .tracked m.pool.nextTaskId m.pool.heapSize 0 ∧
      m'.pool.states m.pool.nextTaskId = some m.pool.heapSize ∧
      m'.pool.heap m.pool.heapSize = {} ∧
      m'.clients 0 = ⟨next (.task (.ok m.pool.nextTaskId)), .ready,
        (m.clients 0).log ++ [(.submitEx true {}, .task (.ok m.pool.nextTaskId))]⟩ ∧
      m'.workers = m.workers ∧ m'.history.ended = m.history.ended ∧
      m'.history.marked = m.history.marked ∧ m'.pool.stopping = false ∧
      m'.pool.options = m.pool.options ∧
      m'.pool.nextTaskId = (m.pool.nextTaskId + 1) % 2 ^ 64 ∧
      m'.pool.heapSize = m.pool.heapSize + 1 ∧
      m'.pool.maxRetainedStates = m.pool.maxRetainedStates := by
  refine ⟨?m', ⟨.tracked m.pool.nextTaskId m.pool.heapSize 0, .kNormal,
    (m.pool.enqueueSeq + 1) % 2 ^ 64, m.history.attempts⟩, ?hrun, ?_⟩
  case hrun =>
    simp only [List.replicate, runs, step, stepClient, hprogram, hpc, beginCall, setPc,
      Function.update_self, Option.bind_some, continueCall, Pool.register, Machine.enqueue,
      Pool.enqueue, hstop, hcapacity, answer]
    rfl
  · simp

theorem start_run {i : Nat} {entry : TaskEntry} {id state : Nat}
    (hworker : m.workers[i]? = some .idle) (htasks : m.pool.tasks = [entry])
    (hfn : entry.fn = .tracked id state 0) (hcanceled : (m.pool.heap state).canceled = false) :
    ∃ m', runs Machine.step m (List.replicate 3 (.worker i false)) = some m' ∧
      m'.workers = m.workers.set i (.inside entry .running) ∧ m'.pool.tasks = [] ∧
      m'.clients = m.clients ∧ m'.history.ended = m.history.ended ∧
      m'.history.marked = m.history.marked ∧ m'.pool.stopping = m.pool.stopping ∧
      m'.pool.options = m.pool.options ∧ m'.pool.nextTaskId = m.pool.nextTaskId ∧
      m'.pool.heapSize = m.pool.heapSize ∧
      m'.pool.maxRetainedStates = m.pool.maxRetainedStates := by
  have hset : ∀ worker, (m.workers.set i worker)[i]? = some worker := fun worker =>
    List.getElem?_set_self (List.getElem?_eq_some_iff.mp hworker).1
  have hpick : m.pool.pickNextTaskIndexLocked = 0 := by
    simp [Pool.pickNextTaskIndexLocked, htasks, Pool.pickFrom]
  refine ⟨?m', ?hrun, ?_⟩
  case hrun =>
    simp only [List.replicate, runs, step, stepWorker, hworker, takeTask, htasks, hpick,
      setWorker, hset, invoke, hfn, stepTracked, hcanceled, List.getElem?_cons_zero,
      Option.map_some, Option.bind_some, List.set_set, if_true]
    rfl
  · simp

theorem end_run {i : Nat} {entry : TaskEntry} {id state : Nat}
    (hworker : m.workers[i]? = some (.inside entry .running))
    (hfn : entry.fn = .tracked id state 0) :
    ∃ m', runs Machine.step m (List.replicate 3 (.worker i false)) = some m' ∧
      m'.workers = m.workers.set i .idle ∧ m'.pool.tasks = m.pool.tasks ∧
      m'.clients = m.clients ∧ m'.history.ended = m.history.ended ++ [id] ∧
      m'.history.marked = m.history.marked ++ [id] ∧ m'.pool.stopping = m.pool.stopping ∧
      m'.pool.options = m.pool.options ∧ m'.pool.nextTaskId = m.pool.nextTaskId ∧
      m'.pool.heapSize = m.pool.heapSize ∧
      m'.pool.maxRetainedStates = m.pool.maxRetainedStates := by
  have hset : ∀ worker, (m.workers.set i worker)[i]? = some worker := fun worker =>
    List.getElem?_set_self (List.getElem?_eq_some_iff.mp hworker).1
  refine ⟨?m', ?hrun, ?_⟩
  case hrun =>
    simp only [List.replicate, runs, step, stepWorker, hworker, setWorker, hset, hfn,
      stepTracked, markTaskDone, finishTask, Option.bind_some, List.set_set, if_true]
    rfl
  · obtain ⟨hnext, hsize, hlimit⟩ := Pool.markTaskDone_counters m.pool id true false
    simp [hnext, hsize, hlimit, Pool.markTaskDone_options]

end Machine

def submitThen : Nat → Program Unit → Program Unit
  | 0, last => last
  | n + 1, last => .op (.submitEx true {}) fun _ => submitThen n last

/-- Task 1 is running, the `k` tasks after it are done, and client 0 has `n`
more to submit before it goes on with `last`. -/
structure Round (last : Program Unit) (n k : Nat) (m : Machine) : Prop where
  program : (m.clients 0).program = submitThen n last
  pc : (m.clients 0).pc = .ready
  returned : ∀ i, 1 ≤ i → i ≤ k + 1 →
    ∃ call, (call, Answer.task (.ok (i % 2 ^ 64))) ∈ (m.clients 0).log
  workers : ∃ entry, m.workers = [.inside entry .running, .idle] ∧ entry.fn = .tracked 1 0 0
  tasks : m.pool.tasks = []
  stopping : m.pool.stopping = false
  capacity : m.pool.options.queueCapacity = 0
  limit : m.pool.maxRetainedStates = 65536
  nextTaskId : m.pool.nextTaskId = (k + 2) % 2 ^ 64
  heapSize : m.pool.heapSize = k + 1
  ended : m.history.ended = (List.range' 2 k).map (· % 2 ^ 64)
  marked : m.history.marked = (List.range' 2 k).map (· % 2 ^ 64)

theorem Round.next {last : Program Unit} {n k : Nat} {m : Machine} (hm : Round last (n + 1) k m) :
    ∃ labels m', runs Machine.step m labels = some m' ∧ Round last n (k + 1) m' := by
  obtain ⟨running, hworkers, hfirst⟩ := hm.workers
  obtain ⟨m₁, entry, hrun₁, htasks₁, hfn, -, hstate, hclient₁, hworkers₁, hended₁, hmarked₁,
    hstop₁, hoptions₁, hnext₁, hsize₁, hlimit₁⟩ :=
    Machine.submit_run hm.program hm.pc hm.stopping hm.capacity
  rw [hm.tasks, List.nil_append] at htasks₁
  have hidle : m₁.workers[1]? = some .idle := by simp [hworkers₁, hworkers]
  obtain ⟨m₂, hrun₂, hworkers₂, htasks₂, hclients₂, hended₂, hmarked₂, hstop₂, hoptions₂, hnext₂,
    hsize₂, hlimit₂⟩ := Machine.start_run hidle htasks₁ hfn (by rw [hstate])
  have hinside : m₂.workers[1]? = some (.inside entry .running) := by
    simp [hworkers₂, hworkers₁, hworkers]
  obtain ⟨m₃, hrun₃, hworkers₃, htasks₃, hclients₃, hended₃, hmarked₃, hstop₃, hoptions₃, hnext₃,
    hsize₃, hlimit₃⟩ := Machine.end_run hinside hfn
  have hclient : m₃.clients 0 = ⟨submitThen n last, .ready,
      (m.clients 0).log ++ [(.submitEx true {}, .task (.ok m.pool.nextTaskId))]⟩ := by
    rw [hclients₃, hclients₂, hclient₁]
  have hrange : (List.range' 2 k).map (· % 2 ^ 64) ++ [m.pool.nextTaskId] =
      (List.range' 2 (k + 1)).map (· % 2 ^ 64) := by
    rw [hm.nextTaskId, List.range'_1_concat, List.map_append, Nat.add_comm]
    rfl
  refine ⟨_, m₃, runs_append.mpr ⟨m₁, hrun₁, runs_append.mpr ⟨m₂, hrun₂, hrun₃⟩⟩, ?_⟩
  refine ⟨by rw [hclient], by rw [hclient], fun i hpos hle => ?_, ⟨running, ?_, hfirst⟩, ?_, ?_,
    ?_, ?_, ?_, ?_, ?_, ?_⟩
  · rw [hclient]
    by_cases hi : i ≤ k + 1
    · obtain ⟨call, hmem⟩ := hm.returned i hpos hi
      exact ⟨call, List.mem_append_left _ hmem⟩
    · refine ⟨.submitEx true {}, List.mem_append_right _ ?_⟩
      rw [hm.nextTaskId, show i = k + 2 by omega]
      simp
  · simp [hworkers₃, hworkers₂, hworkers₁, hworkers]
  · rw [htasks₃, htasks₂]
  · rw [hstop₃, hstop₂, hstop₁]
  · rw [hoptions₃, hoptions₂, hoptions₁, hm.capacity]
  · rw [hlimit₃, hlimit₂, hlimit₁, hm.limit]
  · rw [hnext₃, hnext₂, hnext₁, hm.nextTaskId]
    exact Nat.mod_add_mod _ _ _
  · rw [hsize₃, hsize₂, hsize₁, hm.heapSize]
  · rw [hended₃, hended₂, hended₁, hm.ended, hrange]
  · rw [hmarked₃, hmarked₂, hmarked₁, hm.marked, hrange]

theorem Round.iterate {last : Program Unit} {n k : Nat} {m : Machine} (hm : Round last n k m) :
    ∃ labels m', runs Machine.step m labels = some m' ∧ Round last 0 (k + n) m' := by
  induction n generalizing k m with
  | zero => exact ⟨[], m, rfl, hm⟩
  | succ n ih =>
    obtain ⟨labels, m₁, hrun, hround⟩ := hm.next
    obtain ⟨labels', m₂, hrun', hround'⟩ := ih hround
    refine ⟨labels ++ labels', m₂, runs_append.mpr ⟨m₁, hrun, hrun'⟩, ?_⟩
    rw [show k + (n + 1) = k + 1 + n by omega]
    exact hround'

theorem Round.start (last : Program Unit) (n : Nat) :
    ∃ labels m, runs Machine.step
        (Machine.init { workerCount := 2 } 0 fun _ => submitThen (n + 1) last) labels = some m ∧
      Round last n 0 m := by
  obtain ⟨m₁, entry, hrun₁, htasks₁, hfn, -, hstate, hclient₁, hworkers₁, hended₁, hmarked₁,
    hstop₁, hoptions₁, hnext₁, hsize₁, hlimit₁⟩ := Machine.submit_run
      (m := Machine.init { workerCount := 2 } 0 fun _ => submitThen (n + 1) last) rfl rfl rfl rfl
  have hidle : m₁.workers[0]? = some .idle := by
    rw [hworkers₁]
    rfl
  obtain ⟨m₂, hrun₂, hworkers₂, htasks₂, hclients₂, hended₂, hmarked₂, hstop₂, hoptions₂, hnext₂,
    hsize₂, hlimit₂⟩ := Machine.start_run hidle htasks₁ hfn (by rw [hstate])
  have hclient : m₂.clients 0 = ⟨submitThen n last, .ready,
      [(.submitEx true {}, .task (.ok 1))]⟩ := by
    rw [hclients₂, hclient₁]
    rfl
  refine ⟨_, m₂, runs_append.mpr ⟨m₁, hrun₁, hrun₂⟩, ?_⟩
  refine ⟨by rw [hclient], by rw [hclient], fun i hpos hle => ?_, ⟨entry, ?_, hfn⟩, htasks₂, ?_, ?_,
    ?_, ?_, ?_, ?_, ?_⟩
  · refine ⟨.submitEx true {}, ?_⟩
    rw [hclient, show i = 1 by omega]
    simp
  · rw [hworkers₂, hworkers₁]
    rfl
  · rw [hstop₂, hstop₁]
  · rw [hoptions₂, hoptions₁]
    rfl
  · rw [hlimit₂, hlimit₁]
    rfl
  · rw [hnext₂, hnext₁]
    rfl
  · rw [hsize₂, hsize₁]
    rfl
  · rw [hended₂, hended₁]
    rfl
  · rw [hmarked₂, hmarked₁]
    rfl

end Corekit.Task
