import Corekit.Task.Lifecycle

/-! `WaitAll` as a barrier: the two counters it waits for are the length of the
queue and the number of busy workers, in every reachable state. -/
namespace Corekit.Task
open Corekit.Api Corekit.Foundation

def Worker.busy : Worker → Nat
  | .taken _ => 1
  | .inside _ _ => 1
  | .finishing => 1
  | _ => 0

theorem Worker.place_of_not_busy {worker : Worker} (h : worker.busy = 0) : worker.place = 0 := by
  cases worker with
  | idle => rfl
  | exited => rfl
  | _ => cases h

namespace Pool

/-- A section that leaves the counters of `WaitAll` alone. -/
structure SameLoad (p q : Pool) : Prop where
  tasks : q.tasks = p.tasks
  activeWorkers : q.activeWorkers = p.activeWorkers
  pendingTasks : q.pendingTasks = p.pendingTasks

variable (p : Pool)

theorem SameLoad.releaseKey (serialKey : Nat) : p.SameLoad (Machine.releaseKey p serialKey) := by
  unfold Machine.releaseKey
  split <;> exact ⟨rfl, rfl, rfl⟩

theorem SameLoad.tryCancel (id : TaskId) : p.SameLoad (p.tryCancel id).2 := by
  unfold Pool.tryCancel
  split
  · exact ⟨rfl, rfl, rfl⟩
  · split <;> exact ⟨rfl, rfl, rfl⟩

theorem SameLoad.markTaskDone (id : TaskId) (executed failed : Bool) :
    p.SameLoad (p.markTaskDone id executed failed) := by
  unfold Pool.markTaskDone
  split
  · exact ⟨rfl, rfl, rfl⟩
  · dsimp only
    split_ifs <;> exact ⟨rfl, rfl, rfl⟩

theorem enqueue_load (fn : Closure) (options : TaskSubmitOptions) (ticket : Nat) :
    (p.enqueue fn options ticket).2.activeWorkers = p.activeWorkers ∧
      (p.enqueue fn options ticket).2.pendingTasks + p.tasks.length =
        p.pendingTasks + (p.enqueue fn options ticket).2.tasks.length := by
  unfold enqueue
  split_ifs
  · exact ⟨rfl, rfl⟩
  · exact ⟨rfl, rfl⟩
  · refine ⟨rfl, ?_⟩
    simp only [List.length_append, List.length_singleton]
    omega

end Pool

namespace Machine

variable {m m' : Machine} {i c : Nat}

structure Counted (m : Machine) : Prop where
  active : m.pool.activeWorkers = slotSum (fun _ worker => worker.busy) m.workers
  pending : m.pool.pendingTasks = m.pool.tasks.length + m.pool.activeWorkers

theorem Counted.same (hm : m.Counted) (hworkers : m'.workers = m.workers)
    (hload : m.pool.SameLoad m'.pool) : m'.Counted := by
  constructor
  · rw [hload.activeWorkers, hworkers, hm.active]
  · rw [hload.pendingTasks, hload.tasks, hload.activeWorkers, hm.pending]

theorem Counted.set {old new : Worker} (hm : m.Counted) (hold : m.workers[i]? = some old)
    (hworkers : m'.workers = m.workers.set i new) (hbusy : new.busy = old.busy)
    (hload : m.pool.SameLoad m'.pool) : m'.Counted := by
  have hsum := slotSum_set (fun _ worker => worker.busy) new hold
  constructor
  · rw [hload.activeWorkers, hworkers, hm.active]
    omega
  · rw [hload.pendingTasks, hload.tasks, hload.activeWorkers, hm.pending]

theorem Counted.busy {worker : Worker} (hm : m.Counted) (hold : m.workers[i]? = some worker)
    (hbusy : worker.busy = 1) : 0 < m.pool.activeWorkers ∧ 0 < m.pool.pendingTasks := by
  obtain ⟨rest, hrest, -⟩ := slotSum_split (fun _ worker => worker.busy) hold
  have hactive := hm.active
  have hpending := hm.pending
  omega

theorem Counted.stepWorker {threw : Bool} (hm : m.Counted) (h : m.stepWorker i threw = some m') :
    m'.Counted := by
  obtain ⟨old, hold, hstep⟩ := stepWorker_exact h
  have hsame : m.pool.SameLoad m.pool := ⟨rfl, rfl, rfl⟩
  cases hstep with
  | exit empty stopping => exact hm.set hold rfl rfl hsame
  | take entry picked =>
    have hsum : slotSum (fun _ worker => worker.busy) (m.workers.set i (.taken entry)) + 0 =
        slotSum (fun _ worker => worker.busy) m.workers + 1 := slotSum_set _ _ hold
    have hlt := (List.getElem?_eq_some_iff.mp picked).1
    have hactive := hm.active
    have hpending := hm.pending
    constructor
    · simp only [setWorker]
      omega
    · simp only [List.length_eraseIdx_of_lt hlt]
      omega
  | invoke entry => exact hm.set hold rfl rfl hsame
  | plainEnd entry fn => exact hm.set hold rfl rfl hsame
  | plainRecord entry failed fn => exact hm.set hold rfl rfl ⟨rfl, rfl, rfl⟩
  | lock entry fn => exact hm.set hold rfl rfl ⟨rfl, rfl, rfl⟩
  | skip entry fn canceled => exact hm.set hold rfl rfl ⟨rfl, rfl, rfl⟩
  | start entry fn canceled => exact hm.set hold rfl rfl ⟨rfl, rfl, rfl⟩
  | finish entry fn =>
    refine hm.set hold rfl rfl ?_
    dsimp only
    split
    · exact .releaseKey _ _
    · exact hsame
  | mark entry stage next fn verdict next_eq =>
    refine hm.set hold rfl ?_ (.markTaskDone _ _ _ _)
    rcases next_eq with rfl | rfl <;> rfl
  | unlock entry fn => exact hm.set hold rfl rfl (.releaseKey _ _)
  | leave =>
    -- neither decrement meets zero
    have hsum : slotSum (fun _ worker => worker.busy) (m.workers.set i .idle) + 1 =
        slotSum (fun _ worker => worker.busy) m.workers + 0 := slotSum_set _ _ hold
    have hpos := hm.busy hold rfl
    have hactive := hm.active
    have hpending := hm.pending
    constructor
    · simp only [finishTask, setWorker]
      omega
    · simp only [finishTask, setWorker, if_pos hpos.2]
      omega

theorem Counted.enqueue (hm : m.Counted) (fn : Closure) (options : TaskSubmitOptions)
    (hworkers : m'.workers = m.workers) (hpool : m'.pool = (m.enqueue fn options).2.pool) :
    m'.Counted := by
  have hload := m.pool.enqueue_load fn options m.history.attempts
  have hpending := hm.pending
  have hactive := hm.active
  simp only [Machine.enqueue] at hpool
  constructor
  · rw [hworkers, hpool]
    omega
  · rw [hpool]
    omega

theorem Counted.stepClient {choice : Bool} (hm : m.Counted)
    (h : m.stepClient c choice = some m') : m'.Counted := by
  obtain ⟨call, next, -, hstep⟩ := stepClient_exact h
  cases hstep with
  | reply result direct replies => exact hm.same rfl ⟨rfl, rfl, rfl⟩
  | cancel id hpc hcall => exact hm.same rfl (.tryCancel _ _)
  | reconfigure options hpc hcall => exact hm.same rfl ⟨rfl, rfl, rfl⟩
  | goto pc goes => exact hm.same rfl ⟨rfl, rfl, rfl⟩
  | submit hpc hcall => exact hm.enqueue .plain {} rfl rfl
  | register options hpc => exact hm.same rfl ⟨rfl, rfl, rfl⟩
  | accept options id state hpc ok => exact hm.enqueue _ options rfl rfl
  | refuse options id state hpc refused => exact hm.enqueue _ options rfl rfl
  | undo id refused hpc => exact hm.same rfl ⟨rfl, rfl, rfl⟩

theorem Counted.step {label : Label} (hm : m.Counted) (h : m.step label = some m') :
    m'.Counted := by
  cases label with
  | worker i threw => exact hm.stepWorker h
  | client c choice => exact hm.stepClient h
  | stop =>
    cases Option.some.inj h
    exact hm.same rfl ⟨rfl, rfl, rfl⟩

theorem Counted.init (options : ExecutorOptions) (hardwareConcurrency : Nat)
    (programs : Nat → Program Unit) : (init options hardwareConcurrency programs).Counted := by
  constructor
  · symm
    apply slotSum_eq_zero
    intro i worker hi
    obtain ⟨-, rfl⟩ := List.mem_replicate.mp (List.mem_of_getElem? hi)
    rfl
  · rfl

end Machine

/-- The calls inside which a client can be at a position. -/
def ClientPc.Fits (call : Call) : ClientPc → Prop
  | .ready => True
  | .registering options => call = .submitEx true options
  | .enqueueing options _ _ => call = .submitEx true options
  | .undoing _ _ => ∃ options, call = .submitEx true options
  | .finding id rest _ =>
    (∃ timeoutMs, call = .wait id timeoutMs ∧ rest = []) ∨ ∃ ids timeoutMs, call = .waitBatch ids timeoutMs
  | .blocked _ rest _ =>
    (∃ id timeoutMs, call = .wait id timeoutMs ∧ rest = []) ∨
      ∃ ids timeoutMs, call = .waitBatch ids timeoutMs

theorem Goes.fits {p : Pool} {pc pc' : ClientPc} {call : Call} (goes : Goes p pc call pc')
    (hpc : pc.Fits call) : pc'.Fits call := by
  cases goes with
  | submitEx => rfl
  | wait => exact .inl ⟨_, rfl, rfl⟩
  | waitBatch => exact .inr ⟨_, _, rfl⟩
  | found h =>
    obtain ⟨timeoutMs, hcall, hrest⟩ | hbatch := hpc
    · exact .inl ⟨_, timeoutMs, hcall, hrest⟩
    · exact .inr hbatch
  | waited h =>
    obtain ⟨id, timeoutMs, -, hrest⟩ | hbatch := hpc
    · cases hrest
    · exact .inr hbatch

namespace Machine

variable {m m' : Machine} {i c : Nat}

def Fitting (m : Machine) : Prop :=
  ∀ c call next, (m.clients c).program = .op call next → (m.clients c).pc.Fits call

theorem Fitting.update {client : Client} (hm : m.Fitting)
    (hclients : m'.clients = Function.update m.clients c client)
    (hclient : ∀ call next, client.program = .op call next → client.pc.Fits call) :
    m'.Fitting := by
  intro d call next hprogram
  rw [hclients] at hprogram ⊢
  by_cases hd : d = c
  · subst hd
    rw [Function.update_self] at hprogram ⊢
    exact hclient call next hprogram
  · rw [Function.update_of_ne hd] at hprogram ⊢
    exact hm d call next hprogram

theorem Fitting.step {label : Label} (hm : m.Fitting) (h : m.step label = some m') :
    m'.Fitting := by
  cases label with
  | worker i threw =>
    unfold Fitting
    rw [(worker_frame h).1]
    exact hm
  | stop =>
    cases Option.some.inj h
    exact hm
  | client c choice =>
    obtain ⟨call, next, hprogram, hstep⟩ := stepClient_exact h
    have hfits := hm c call next hprogram
    have hsame : ∀ (pc : ClientPc) (call' : Call) (next' : Answer → Program Unit),
        pc.Fits call → (m.clients c).program = .op call' next' → pc.Fits call' := by
      intro pc call' next' hpc hprogram'
      cases hprogram.symm.trans hprogram'
      exact hpc
    cases hstep with
    | reply result direct replies => exact hm.update rfl fun _ _ _ => trivial
    | cancel id hpc hcall => exact hm.update rfl fun _ _ _ => trivial
    | reconfigure options hpc hcall => exact hm.update rfl fun _ _ _ => trivial
    | goto pc goes =>
      exact hm.update rfl fun call' next' => hsame pc call' next' (goes.fits hfits)
    | submit hpc hcall => exact hm.update rfl fun _ _ _ => trivial
    | register options hpc =>
      rw [hpc] at hfits
      exact hm.update rfl fun call' next' => hsame (.enqueueing _ _ _) call' next' hfits
    | accept options id state hpc ok => exact hm.update rfl fun _ _ _ => trivial
    | refuse options id state hpc refused =>
      rw [hpc] at hfits
      exact hm.update rfl fun call' next' => hsame (.undoing _ _) call' next' ⟨options, hfits⟩
    | undo id refused hpc => exact hm.update rfl fun _ _ _ => trivial

theorem Fitting.waitAll {next : Answer → Program Unit} {choice : Bool} (hm : m.Fitting)
    (hprogram : (m.clients c).program = .op .waitAll next)
    (h : m.step (.client c choice) = some m') :
    m.pool.pendingTasks = 0 ∧ m.pool.activeWorkers = 0 := by
  have hfits := hm c .waitAll next hprogram
  simp only [Machine.step, stepClient, hprogram] at h
  cases hpc : (m.clients c).pc with
  | ready =>
    simp only [hpc, beginCall] at h
    split_ifs at h with hidle
    exact hidle
  | _ => simp [hpc, ClientPc.Fits] at hfits

end Machine

namespace Watch

variable {w w' : Watch}

structure Reached (w : Watch) : Prop where
  sound : w.Sound
  books : w.machine.Books
  counted : w.machine.Counted
  fitting : w.machine.Fitting

theorem Reached.step {label : Label} (hw : w.Reached) (h : w.step label = some w') :
    w'.Reached := by
  have hsound := hw.sound.step h
  obtain ⟨m, hm, rfl⟩ := Option.map_eq_some_iff.mp h
  exact ⟨hsound, hw.books.step hm, hw.counted.step hm, hw.fitting.step hm⟩

theorem Reached.of_run {options : ExecutorOptions} {hardwareConcurrency : Nat}
    {programs : Nat → Program Unit} {labels : List Label}
    (h : runs Watch.step (start options hardwareConcurrency programs) labels = some w) :
    w.Reached := by
  refine runs_invariant (fun _ _ _ hw hstep => hw.step hstep) ?_ h
  constructor
  · exact .start _ _ _
  · exact .init _ _ _
  · exact .init _ _ _
  · exact fun c call next hprogram => trivial

theorem Reached.idle (hw : w.Reached) (hpending : w.machine.pool.pendingTasks = 0)
    (hactive : w.machine.pool.activeWorkers = 0) : w.machine.pool.tasks = [] ∧
      ∀ (i : Nat) (worker : Worker), w.machine.workers[i]? = some worker → worker.busy = 0 := by
  have hcount := hw.counted.pending
  refine ⟨List.length_eq_zero_iff.mp (by omega), fun i worker hi => ?_⟩
  obtain ⟨rest, hrest, -⟩ := slotSum_split (fun _ worker => worker.busy) hi
  have hsum := hw.counted.active
  omega

theorem Reached.finished (hw : w.Reached) (hpending : w.machine.pool.pendingTasks = 0)
    (hactive : w.machine.pool.activeWorkers = 0) {entry : TaskEntry}
    (hentry : entry ∈ w.accepted) : w.Finished entry := by
  obtain ⟨htasks, hidle⟩ := hw.idle hpending hactive
  have hslots : slotSum (fun _ worker => worker.place) w.machine.workers = 0 :=
    slotSum_eq_zero fun i worker hi => Worker.place_of_not_busy (hidle i worker hi)
  have hplaces : entry ∈ w.places.map Prod.fst := by
    rw [← hw.sound.accepted]
    exact hentry
  simp only [places, htasks, hslots, List.map_nil, Multiset.coe_nil, zero_add, Multiset.map_coe,
    Multiset.mem_coe, List.mem_map, List.mem_filter] at hplaces
  obtain ⟨⟨_, station⟩, ⟨hmem, hover⟩, rfl⟩ := hplaces
  cases station with
  | recorded outcome => exact ⟨outcome, hmem⟩
  | _ => cases hover

theorem Reached.marked (hw : w.Reached) (hpending : w.machine.pool.pendingTasks = 0)
    (hactive : w.machine.pool.activeWorkers = 0) {id : TaskId} (hid : w.machine.Returned id) :
    id ∈ w.machine.history.marked := by
  obtain ⟨htasks, hidle⟩ := hw.idle hpending hactive
  have hopen : w.machine.openIds = 0 := slotSum_eq_zero fun i worker hi => by
    have hbusy := hidle i worker hi
    cases worker <;> first | rfl | cases hbusy
  have hclosing : w.machine.closingIds = 0 := slotSum_eq_zero fun i worker hi => by
    have hbusy := hidle i worker hi
    cases worker <;> first | rfl | cases hbusy
  have hadmitted := hw.books.returned id hid
  simp only [Machine.admitted, Machine.queuedIds, htasks, hopen, List.map_nil, List.sum_nil,
    zero_add] at hadmitted
  rw [hw.books.closing, hclosing, zero_add] at hadmitted
  exact Multiset.mem_coe.mp hadmitted

end Watch

/-- In every reachable state `pending_tasks_` is the length of the queue plus
`active_workers_`, a worker that leaves `WorkerLoop`'s body decrements neither
counter below zero, and where `WaitAll` returns every task accepted so far has
run to its end. -/
theorem waitAll_is_a_barrier (options : ExecutorOptions) (hardwareConcurrency : Nat)
    (programs : Nat → Program Unit) {labels : List Label} {w : Watch}
    (hrun : runs Watch.step (Watch.start options hardwareConcurrency programs) labels = some w) :
    w.machine.pool.pendingTasks = w.machine.pool.tasks.length + w.machine.pool.activeWorkers ∧
    (∀ i : Nat, w.machine.workers[i]? = some .finishing →
      0 < w.machine.pool.activeWorkers ∧ 0 < w.machine.pool.pendingTasks) ∧
    (∀ c choice next m', (w.machine.clients c).program = .op .waitAll next →
      w.machine.step (.client c choice) = some m' →
      (∀ entry ∈ w.accepted, w.Finished entry) ∧
      (∀ id, w.machine.Returned id → id ∈ w.machine.history.marked)) := by
  have hw := Watch.Reached.of_run hrun
  refine ⟨hw.counted.pending, fun i hi => hw.counted.busy hi rfl, ?_⟩
  intro c choice next m' hprogram hstep
  obtain ⟨hpending, hactive⟩ := hw.fitting.waitAll hprogram hstep
  exact ⟨fun entry => hw.finished hpending hactive, fun id => hw.marked hpending hactive⟩

def nextCall : Program α → Option Call
  | .op call _ => some call
  | .ret _ => none

theorem exists_of_nextCall {p : Program α} {call : Call} (h : nextCall p = some call) :
    ∃ next, p = .op call next := by
  cases p with
  | ret value => cases h
  | op call' next =>
    cases Option.some.inj h
    exact ⟨next, rfl⟩

/-- A client submits a task that throws and waits for all; one worker runs it. -/
theorem waitAll_is_a_barrier_one :
    ∃ w, runs Watch.step (Watch.start { workerCount := 1 } 0 fun _ =>
        .op (.submit true) fun _ => .op .waitAll fun _ => .ret ())
        (.client 0 false :: List.replicate 5 (.worker 0 true)) = some w ∧
      w.accepted.length = 1 ∧ (w.machine.step (.client 0 false)).isSome = true ∧
      ∀ entry ∈ w.accepted, w.Finished entry := by
  obtain ⟨w, hw, hfinal⟩ := Option.map_eq_some_iff.mp (show (runs Watch.step
      (Watch.start { workerCount := 1 } 0 fun _ =>
        .op (.submit true) fun _ => .op .waitAll fun _ => .ret ())
      (.client 0 false :: List.replicate 5 (.worker 0 true))).map
      (fun w => (w.accepted.length, nextCall (w.machine.clients 0).program,
        (w.machine.step (.client 0 false)).isSome)) = some (1, some .waitAll, true) by
        decide +kernel)
  simp only [Prod.mk.injEq] at hfinal
  obtain ⟨hlength, hcall, hstep⟩ := hfinal
  obtain ⟨next, hprogram⟩ := exists_of_nextCall hcall
  obtain ⟨m', hm'⟩ := Option.isSome_iff_exists.mp hstep
  exact ⟨w, hw, hlength, hstep,
    ((waitAll_is_a_barrier _ _ _ hw).2.2 0 false next m' hprogram hm').1⟩

end Corekit.Task
