import Corekit.Task.Barrier
import Corekit.Foundation.Wakeup

/-! The condition variables of the executor. In `Machine` a thread that waits is
one whose section is not enabled; here it falls asleep after its condition was
false and runs again only when it is notified or wakes up by itself. `Enqueue`
notifies one worker, and the destructor all of them, after the lock is released;
`idle_cv_` and the `cv` of a task state are notified inside the section. -/
namespace Corekit.Task
open Corekit.Api Corekit.Foundation

namespace Machine

/-- The client is in `WaitAll` or in the wait of `Wait`, and its condition is false. -/
def waits (m : Machine) (c : Nat) : Bool :=
  match (m.clients c).program with
  | .ret _ => false
  | .op call _ =>
    match (m.clients c).pc with
    | .ready => call = .waitAll && !(m.pool.pendingTasks = 0 && m.pool.activeWorkers = 0)
    | .blocked state _ _ => !(m.pool.heap state).done
    | _ => false

/-- The section that worker `i` is in front of calls `notify_all` on the condition
variable on which client `c` would sleep. -/
def notifies (m : Machine) (i c : Nat) : Bool :=
  match m.workers[i]? with
  | some (.inside entry stage) =>
    match entry.fn, stage.verdict, (m.clients c).pc with
    | .tracked id _ _, some _, .blocked state _ _ => m.pool.states id = some state
    | _, _, _ => false
  | some .finishing => (m.clients c).pc = .ready
  | _ => false

def idle (m : Machine) : Finset Nat := slotsWhere (· = .idle) m.workers

end Machine

structure Monitor where
  machine : Machine
  /-- the workers asleep on `cv_` -/
  asleep : Finset Nat := ∅
  /-- the clients asleep on `idle_cv_` or on the `cv` of a task state -/
  parked : Finset Nat := ∅
  /-- the clients that have pushed an entry and not called `notify_one` yet -/
  owing : Finset Nat := ∅
  /-- the destructor has set `stopping_` and not called `notify_all` yet -/
  stopOwing : Bool := false

inductive MonitorLabel where
  | act (label : Label)
  /-- a worker finds nothing to do and falls asleep -/
  | sleep (i : Nat)
  /-- a client finds its condition false and falls asleep -/
  | park (c : Nat)
  /-- the `notify_one` of a client, and whom it wakes -/
  | notifyOne (c : Nat) (woken : Option Nat)
  /-- the `notify_all` of the destructor -/
  | notifyAll
  /-- a worker wakes up by itself -/
  | wake (i : Nat)
  /-- a client wakes up by itself or because its time is over -/
  | unpark (c : Nat)
  deriving DecidableEq

namespace Monitor

variable (s : Monitor)

def stepAct : Label → Option Monitor
  | .worker i threw =>
    if i ∈ s.asleep then none
    else (s.machine.stepWorker i threw).map fun m =>
      { s with machine := m, parked := s.parked.filter fun c => !s.machine.notifies i c }
  | .client c choice =>
    if c ∈ s.parked ∨ c ∈ s.owing then none
    else (s.machine.stepClient c choice).map fun m =>
      { s with
        machine := m
        owing := if s.machine.pool.tasks.length < m.pool.tasks.length then insert c s.owing
          else s.owing }
  | .stop => some { s with machine.pool.stopping := true, stopOwing := true }

def step : MonitorLabel → Option Monitor
  | .act label => s.stepAct label
  | .sleep i =>
    if i ∉ s.asleep ∧ s.machine.workers[i]? = some .idle ∧ s.machine.pool.tasks = [] ∧
      s.machine.pool.stopping = false then some { s with asleep := insert i s.asleep }
    else none
  | .park c =>
    if c ∉ s.parked ∧ c ∉ s.owing ∧ s.machine.waits c = true then
      some { s with parked := insert c s.parked }
    else none
  | .notifyOne c (some i) =>
    if c ∈ s.owing ∧ i ∈ s.asleep then
      some { s with owing := s.owing.erase c, asleep := s.asleep.erase i }
    else none
  | .notifyOne c none =>
    if c ∈ s.owing ∧ s.asleep = ∅ then some { s with owing := s.owing.erase c } else none
  | .notifyAll => if s.stopOwing then some { s with asleep := ∅, stopOwing := false } else none
  | .wake i => if i ∈ s.asleep then some { s with asleep := s.asleep.erase i } else none
  | .unpark c => if c ∈ s.parked then some { s with parked := s.parked.erase c } else none

def start (options : ExecutorOptions) (hardwareConcurrency : Nat)
    (programs : Nat → Program Unit) : Monitor :=
  { machine := Machine.init options hardwareConcurrency programs }

/-- The queue, the workers and the notifications they are owed. -/
def signals : Signals Nat where
  items := s.machine.pool.tasks.length
  owed := s.owing.card
  idle := s.machine.idle
  asleep := s.asleep

end Monitor

def MonitorLabel.act? : MonitorLabel → Option Label
  | .act label => some label
  | _ => none

def MonitorLabel.isInternal : MonitorLabel → Bool
  | .act (.worker _ _) => true
  | .sleep _ => true
  | .notifyOne _ _ => true
  | .notifyAll => true
  | _ => false

namespace Machine

variable {m m' : Machine} {i c : Nat}

@[simp] theorem mem_idle : i ∈ m.idle ↔ m.workers[i]? = some .idle := by
  simp [idle]

/-- What a worker step is to the queue and to those who wait for it. -/
inductive WorkerSignal (m m' : Machine) (i : Nat) : Prop where
  | take (some_task : m.pool.tasks.length = m'.pool.tasks.length + 1) (idle : i ∈ m.idle)
      (idle_eq : m'.idle = m.idle.erase i)
  | exit (no_task : m.pool.tasks = []) (tasks : m'.pool.tasks = []) (idle : i ∈ m.idle)
      (idle_eq : m'.idle = m.idle.erase i)
  | comeBack (tasks : m'.pool.tasks = m.pool.tasks) (busy : i ∉ m.idle)
      (idle_eq : m'.idle = insert i m.idle)
  | quiet (tasks : m'.pool.tasks = m.pool.tasks) (idle_eq : m'.idle = m.idle)

theorem worker_signal {threw : Bool} (h : m.stepWorker i threw = some m') :
    WorkerSignal m m' i := by
  obtain ⟨old, hold, move⟩ := stepWorker_cases h
  cases move with
  | exit empty stopping =>
    exact .exit empty empty (mem_idle.mpr hold) (slotsWhere_set_false _ _ rfl)
  | take entry picked =>
    have hlt := (List.getElem?_eq_some_iff.mp picked).1
    refine .take ?_ (mem_idle.mpr hold) (slotsWhere_set_false _ _ rfl)
    rw [List.length_eraseIdx_of_lt hlt]
    omega
  | invoke entry => exact .quiet rfl (slotsWhere_set_same hold rfl)
  | stage entry stage next ended move quiet workers clients history =>
    refine .quiet quiet.tasks ?_
    rw [idle, workers]
    refine slotsWhere_set_same hold ?_
    cases move <;> rfl
  | mark entry stage next executed failed fn marks next_eq =>
    refine .quiet (Pool.markTaskDone_tasks ..) (slotsWhere_set_same hold ?_)
    rcases next_eq with rfl | rfl <;> rfl
  | finish =>
    have hbusy : i ∉ m.idle := by simp [hold]
    exact .comeBack rfl hbusy (slotsWhere_set_true hold rfl)

end Machine

namespace Monitor

variable {s s' : Monitor}

inductive Step (s : Monitor) : MonitorLabel → Monitor → Prop where
  | worker (i : Nat) (threw : Bool) (m : Machine) (awake : i ∉ s.asleep)
      (moves : s.machine.stepWorker i threw = some m) :
      Step s (.act (.worker i threw)) { s with
        machine := m
        parked := s.parked.filter fun c => !s.machine.notifies i c }
  | client (c : Nat) (choice : Bool) (m : Machine) (free : c ∉ s.parked ∧ c ∉ s.owing)
      (moves : s.machine.stepClient c choice = some m) :
      Step s (.act (.client c choice)) { s with
        machine := m
        owing := if s.machine.pool.tasks.length < m.pool.tasks.length then insert c s.owing
          else s.owing }
  | stop : Step s (.act .stop) { s with machine.pool.stopping := true, stopOwing := true }
  | sleep (i : Nat) (awake : i ∉ s.asleep) (idle : s.machine.workers[i]? = some .idle)
      (empty : s.machine.pool.tasks = []) (running : s.machine.pool.stopping = false) :
      Step s (.sleep i) { s with asleep := insert i s.asleep }
  | park (c : Nat) (waits : s.machine.waits c = true) :
      Step s (.park c) { s with parked := insert c s.parked }
  | notifyOne (c i : Nat) (owes : c ∈ s.owing) (sleeps : i ∈ s.asleep) :
      Step s (.notifyOne c (some i)) { s with
        owing := s.owing.erase c
        asleep := s.asleep.erase i }
  | notifyNobody (c : Nat) (owes : c ∈ s.owing) (none_asleep : s.asleep = ∅) :
      Step s (.notifyOne c none) { s with owing := s.owing.erase c }
  | notifyAll (due : s.stopOwing = true) :
      Step s .notifyAll { s with asleep := ∅, stopOwing := false }
  | wake (i : Nat) (sleeps : i ∈ s.asleep) :
      Step s (.wake i) { s with asleep := s.asleep.erase i }
  | unpark (c : Nat) : Step s (.unpark c) { s with parked := s.parked.erase c }

theorem act_cases {label : Label} (h : s.stepAct label = some s') : Step s (.act label) s' := by
  cases label with
  | worker i threw =>
    obtain ⟨hawake, hmoves⟩ := Option.ite_none_left_eq_some.mp h
    obtain ⟨m, hm, rfl⟩ := Option.map_eq_some_iff.mp hmoves
    exact .worker i threw m hawake hm
  | client c choice =>
    obtain ⟨hfree, hmoves⟩ := Option.ite_none_left_eq_some.mp h
    obtain ⟨m, hm, rfl⟩ := Option.map_eq_some_iff.mp hmoves
    exact .client c choice m (not_or.mp hfree) hm
  | stop =>
    cases Option.some.inj h
    exact .stop

theorem step_cases {label : MonitorLabel} (h : s.step label = some s') : Step s label s' := by
  cases label with
  | act label => exact act_cases h
  | sleep i =>
    obtain ⟨⟨hawake, hidle, hempty, hrunning⟩, hs⟩ := Option.ite_none_right_eq_some.mp h
    cases Option.some.inj hs
    exact .sleep i hawake hidle hempty hrunning
  | park c =>
    obtain ⟨⟨-, -, hwaits⟩, hs⟩ := Option.ite_none_right_eq_some.mp h
    cases Option.some.inj hs
    exact .park c hwaits
  | notifyOne c woken =>
    cases woken with
    | some i =>
      obtain ⟨⟨hc, hi⟩, hs⟩ := Option.ite_none_right_eq_some.mp h
      cases Option.some.inj hs
      exact .notifyOne c i hc hi
    | none =>
      obtain ⟨⟨hc, hnone⟩, hs⟩ := Option.ite_none_right_eq_some.mp h
      cases Option.some.inj hs
      exact .notifyNobody c hc hnone
  | notifyAll =>
    obtain ⟨hdue, hs⟩ := Option.ite_none_right_eq_some.mp h
    cases Option.some.inj hs
    exact .notifyAll hdue
  | wake i =>
    obtain ⟨hi, hs⟩ := Option.ite_none_right_eq_some.mp h
    cases Option.some.inj hs
    exact .wake i hi
  | unpark c =>
    obtain ⟨-, hs⟩ := Option.ite_none_right_eq_some.mp h
    cases Option.some.inj hs
    exact .unpark c

theorem worker_signals {i : Nat} {threw : Bool} {m : Machine} (hawake : i ∉ s.asleep)
    (h : s.machine.stepWorker i threw = some m) (parked : Finset Nat) :
    Signals.Step s.signals { s with machine := m, parked := parked }.signals := by
  have hlooks : i ∈ s.machine.idle → i ∈ s.signals.awake := fun hidle =>
    Finset.mem_sdiff.mpr ⟨hidle, hawake⟩
  cases Machine.worker_signal h with
  | take some_task idle idle_eq =>
    simp only [signals, idle_eq]
    exact .take (s := s.signals) i some_task (hlooks idle)
  | exit no_task tasks idle idle_eq =>
    have hempty : s.signals.items = 0 := by simp [signals, no_task]
    simp only [signals, idle_eq, tasks, ← no_task]
    exact .retire (s := s.signals) i hempty (hlooks idle)
  | comeBack tasks busy idle_eq =>
    simp only [signals, idle_eq, tasks]
    exact .comeBack (s := s.signals) i busy
  | quiet tasks idle_eq =>
    simp only [signals, idle_eq, tasks]
    exact .quiet

theorem client_signals {c : Nat} {choice : Bool} {m : Machine} (howing : c ∉ s.owing)
    (h : s.machine.stepClient c choice = some m) :
    Signals.Step s.signals { s with
      machine := m
      owing := if s.machine.pool.tasks.length < m.pool.tasks.length then insert c s.owing
        else s.owing }.signals := by
  obtain ⟨hworkers, -, hsame | ⟨entry, htasks, -, -⟩⟩ := Watch.client_tasks h
  · have hidle : m.idle = s.machine.idle := by simp only [Machine.idle, hworkers]
    simp only [signals, hsame, lt_irrefl, if_false, hidle]
    exact .quiet
  · have hidle : m.idle = s.machine.idle := by simp only [Machine.idle, hworkers]
    have hlength : m.pool.tasks.length = s.machine.pool.tasks.length + 1 := by simp [htasks]
    simp only [signals, hlength, Nat.lt_succ_self, if_true, hidle,
      Finset.card_insert_of_notMem howing]
    exact .produce

theorem step_signals {label : MonitorLabel} (h : s.step label = some s') :
    Signals.Step s.signals s'.signals := by
  have hdue : ∀ c ∈ s.owing, s.signals.owed = (s.owing.erase c).card + 1 := fun c hc =>
    (Finset.card_erase_add_one hc).symm
  cases step_cases h with
  | worker i threw m awake moves => exact worker_signals awake moves _
  | client c choice m free moves => exact client_signals free.2 moves
  | stop => exact .quiet
  | sleep i awake idle empty running =>
    refine .sleep (s := s.signals) i (by simp [signals, empty]) ?_
    exact Finset.mem_sdiff.mpr ⟨Machine.mem_idle.mpr idle, awake⟩
  | park c waits => exact .quiet
  | notifyOne c i owes sleeps => exact .notifyOne (s := s.signals) i (hdue c owes) sleeps
  | notifyNobody c owes none_asleep =>
    exact .notifyNobody (s := s.signals) (hdue c owes) none_asleep
  | notifyAll due => exact .notifyAll
  | wake i sleeps => exact .wake (s := s.signals) i sleeps
  | unpark c => exact .quiet

end Monitor

namespace Machine

variable {m m' : Machine} {i c : Nat}

theorem waits_iff : m.waits c = true ↔ ∃ call next, (m.clients c).program = .op call next ∧
    (((m.clients c).pc = .ready ∧ call = .waitAll ∧
        ¬(m.pool.pendingTasks = 0 ∧ m.pool.activeWorkers = 0)) ∨
      ∃ state rest timeoutMs, (m.clients c).pc = .blocked state rest timeoutMs ∧
        (m.pool.heap state).done = false) := by
  unfold waits
  cases (m.clients c).program with
  | ret value => simp
  | op call next =>
    cases (m.clients c).pc with
    | ready => simp [← not_and_or]
    | _ => simp

theorem stepClient_of_waits (h : m.waits c = true) : m.stepClient c false = none := by
  obtain ⟨call, next, hprogram, ⟨hpc, rfl, hload⟩ | ⟨state, rest, timeoutMs, hpc, hdone⟩⟩ :=
    waits_iff.mp h
  · simp only [stepClient, hprogram, hpc, beginCall, if_neg hload]
  · simp [stepClient, hprogram, hpc, continueCall, hdone]

/-- Only the bottom of `WorkerLoop` lowers the counters of `WaitAll`. -/
theorem worker_load {threw : Bool} (h : m.stepWorker i threw = some m') :
    m.workers[i]? = some .finishing ∨ (m.pool.activeWorkers ≤ m'.pool.activeWorkers ∧
      m.pool.pendingTasks ≤ m'.pool.pendingTasks) := by
  have hsame : ∀ {p q : Pool}, p.SameLoad q → p.activeWorkers ≤ q.activeWorkers ∧
      p.pendingTasks ≤ q.pendingTasks := fun hload =>
    ⟨hload.activeWorkers.ge, hload.pendingTasks.ge⟩
  obtain ⟨old, hold, hstep⟩ := stepWorker_exact h
  cases hstep with
  | take entry picked => exact .inr ⟨Nat.le_succ _, le_rfl⟩
  | finish entry fn =>
    refine .inr (hsame ?_)
    dsimp only
    split
    · exact .releaseKey _ _
    · exact ⟨rfl, rfl, rfl⟩
  | mark entry stage next fn verdict next_eq => exact .inr (hsame (.markTaskDone _ _ _ _))
  | unlock entry fn => exact .inr (hsame (.releaseKey _ _))
  | leave => exact .inl hold
  | _ => exact .inr ⟨le_rfl, le_rfl⟩

/-- Only `MarkTaskDone` raises the flag `done`, and it notifies those who sleep on the
state that it finds. -/
theorem worker_done {threw : Bool} (h : m.stepWorker i threw = some m') {state : Nat}
    (hbefore : (m.pool.heap state).done = false) (hafter : (m'.pool.heap state).done = true) :
    ∃ entry stage id own serialKey verdict, m.workers[i]? = some (.inside entry stage) ∧
      entry.fn = .tracked id own serialKey ∧ stage.verdict = some verdict ∧
        m.pool.states id = some state := by
  have hsame : m'.pool.heap state ≠ m.pool.heap state := fun heq => by
    rw [heq, hbefore] at hafter
    cases hafter
  have hstarted : ∀ own, (Function.update m.pool.heap own
      { m.pool.heap own with started := true } state).done = (m.pool.heap state).done := by
    intro own
    by_cases heq : state = own
    · rw [heq, Function.update_self]
    · rw [Function.update_of_ne heq]
  obtain ⟨old, hold, hstep⟩ := stepWorker_exact h
  cases hstep with
  | skip entry fn canceled =>
    cases (hafter.symm.trans (hstarted _)).trans hbefore
  | start entry fn canceled =>
    cases (hafter.symm.trans (hstarted _)).trans hbefore
  | finish entry fn =>
    refine absurd ?_ hsame
    dsimp only
    split
    · rw [(Pool.SameBooks.releaseKey ..).heap]
    · rfl
  | unlock entry fn => exact absurd (congrFun (Pool.SameBooks.releaseKey ..).heap state) hsame
  | @mark entry stage next id own serialKey executed failed fn verdict next_eq =>
    refine ⟨entry, stage, id, own, serialKey, _, hold, fn, verdict, ?_⟩
    simp only [setWorker_pool, markTaskDone_pool] at hsame
    cases hfound : m.pool.states id with
    | none =>
      refine absurd ?_ hsame
      simp only [Pool.markTaskDone, hfound]
    | some found =>
      by_contra hne
      refine absurd ?_ hsame
      rw [Pool.markTaskDone_heap _ _ hfound, Function.update_of_ne]
      rintro rfl
      exact hne rfl
  | _ => exact absurd rfl hsame

theorem worker_waits {threw : Bool} (h : m.stepWorker i threw = some m')
    (hwaits : m.waits c = true) (hnotified : m.notifies i c = false) : m'.waits c = true := by
  obtain ⟨call, next, hprogram, hcase⟩ := waits_iff.mp hwaits
  rw [waits_iff, (worker_frame h).1]
  refine ⟨call, next, hprogram, ?_⟩
  rcases hcase with ⟨hpc, hcall, hload⟩ | ⟨state, rest, timeoutMs, hpc, hdone⟩
  · rcases worker_load h with hfinishing | hmore
    · simp [notifies, hfinishing, hpc] at hnotified
    · exact .inl ⟨hpc, hcall, by omega⟩
  · refine .inr ⟨state, rest, timeoutMs, hpc, Bool.eq_false_iff.mpr fun hafter => ?_⟩
    obtain ⟨entry, stage, id, own, serialKey, verdict, hold, hfn, hverdict, hfound⟩ :=
      worker_done h hdone hafter
    simp [notifies, hold, hfn, hverdict, hpc, hfound] at hnotified

theorem client_load {choice : Bool} (h : m.stepClient c choice = some m') :
    m.pool.activeWorkers ≤ m'.pool.activeWorkers ∧ m.pool.pendingTasks ≤ m'.pool.pendingTasks := by
  have henqueue : ∀ (fn : Closure) (options : TaskSubmitOptions),
      m.pool.activeWorkers ≤ (m.enqueue fn options).2.pool.activeWorkers ∧
        m.pool.pendingTasks ≤ (m.enqueue fn options).2.pool.pendingTasks := by
    intro fn options
    obtain ⟨hactive, hpending⟩ := m.pool.enqueue_load fn options m.history.attempts
    have hlength : m.pool.tasks.length ≤ (m.enqueue fn options).2.pool.tasks.length := by
      rcases Watch.enqueue_tasks (m := m) fn options with ⟨-, htasks⟩ | ⟨-, htasks⟩ <;>
        simp [htasks]
    simp only [enqueue] at hlength ⊢
    omega
  obtain ⟨call, next, -, hstep⟩ := stepClient_exact h
  cases hstep with
  | cancel id hpc hcall =>
    have hload := Pool.SameLoad.tryCancel m.pool id
    exact ⟨hload.activeWorkers.ge, hload.pendingTasks.ge⟩
  | submit hpc hcall => exact henqueue .plain {}
  | accept options id state hpc ok => exact henqueue _ options
  | refuse options id state hpc refused => exact henqueue _ options
  | _ => exact ⟨le_rfl, le_rfl⟩

theorem client_done {choice : Bool} (h : m.stepClient c choice = some m') {state : Nat}
    (hbefore : (m.pool.heap state).done = false) : (m'.pool.heap state).done = false := by
  have henqueue : ∀ (fn : Closure) (options : TaskSubmitOptions),
      (m.enqueue fn options).2.pool.heap = m.pool.heap := by
    intro fn options
    simp only [enqueue, Pool.enqueue]
    split_ifs <;> rfl
  obtain ⟨call, next, -, hstep⟩ := stepClient_exact h
  cases hstep with
  | cancel id hpc hcall =>
    dsimp only [answer]
    unfold Pool.tryCancel
    split
    · exact hbefore
    · next own hfound =>
      split_ifs
      · exact hbefore
      · by_cases heq : state = own
        · subst heq
          simpa using hbefore
        · simpa [Function.update_of_ne heq] using hbefore
  | register options hpc =>
    by_cases heq : state = m.pool.heapSize
    · simp [setPc, Pool.register, heq]
    · simpa [setPc, Pool.register, Function.update_of_ne heq] using hbefore
  | submit hpc hcall =>
    dsimp only [answer]
    rw [henqueue]
    exact hbefore
  | accept options id own hpc ok =>
    dsimp only [answer]
    rw [henqueue]
    exact hbefore
  | refuse options id own hpc refused =>
    dsimp only [setPc]
    rw [henqueue]
    exact hbefore
  | _ => exact hbefore

theorem client_others {choice : Bool} {d : Nat} (h : m.stepClient c choice = some m')
    (hd : d ≠ c) : m'.clients d = m.clients d := by
  obtain ⟨call, next, -, hstep⟩ := stepClient_exact h
  cases hstep <;> exact Function.update_of_ne hd _ _

theorem worker_count {threw : Bool} (h : m.stepWorker i threw = some m') :
    m'.workers.length = m.workers.length := by
  obtain ⟨old, hold, move⟩ := stepWorker_cases h
  cases move with
  | stage entry stage next ended move quiet workers clients history =>
    rw [workers, List.length_set]
  | _ => exact List.length_set

theorem worker_stopping {threw : Bool} (h : m.stepWorker i threw = some m') :
    m'.pool.stopping = m.pool.stopping := by
  obtain ⟨old, hold, move⟩ := stepWorker_cases h
  cases move with
  | stage entry stage next ended move quiet workers clients history => exact quiet.stopping
  | mark entry stage next executed failed fn marks next_eq => exact Pool.markTaskDone_stopping ..
  | _ => rfl

theorem client_stopping {choice : Bool} (h : m.stepClient c choice = some m') :
    m'.pool.stopping = m.pool.stopping := by
  have henqueue : ∀ (fn : Closure) (options : TaskSubmitOptions),
      (m.enqueue fn options).2.pool.stopping = m.pool.stopping := by
    intro fn options
    cases hok : (m.enqueue fn options).1.ok with
    | true => exact (Pool.enqueue_accepts hok).stopping
    | false => exact (Pool.enqueue_refuses hok).stopping
  obtain ⟨call, next, -, move⟩ := stepClient_cases h
  cases move with
  | reply pool result quiet keyHolder replies => exact quiet.stopping
  | submit hpc hcall => exact henqueue .plain {}
  | accept options id state hpc ok => exact henqueue _ options
  | refuse options id state hpc refused => exact henqueue _ options
  | _ => rfl

theorem client_waits {choice : Bool} {d : Nat} (h : m.stepClient c choice = some m')
    (hd : d ≠ c) (hwaits : m.waits d = true) : m'.waits d = true := by
  obtain ⟨call, next, hprogram, hcase⟩ := waits_iff.mp hwaits
  rw [waits_iff, client_others h hd]
  refine ⟨call, next, hprogram, ?_⟩
  rcases hcase with ⟨hpc, hcall, hload⟩ | ⟨state, rest, timeoutMs, hpc, hdone⟩
  · have hmore := client_load h
    exact .inl ⟨hpc, hcall, by omega⟩
  · exact .inr ⟨state, rest, timeoutMs, hpc, client_done h hdone⟩

end Machine

namespace Monitor

variable {s s' : Monitor}

/-- What holds of the sleepers in every reachable state. -/
structure Sound (s : Monitor) : Prop where
  covered : s.signals.Covered
  stopped : s.machine.pool.stopping = true → s.stopOwing = true ∨ s.asleep = ∅
  parked : ∀ c ∈ s.parked, s.machine.waits c = true

theorem Sound.start (options : ExecutorOptions) (hardwareConcurrency : Nat)
    (programs : Nat → Program Unit) : (start options hardwareConcurrency programs).Sound where
  covered := .of_all_awake rfl
  stopped := nofun
  parked c hc := absurd hc (Finset.notMem_empty c)

theorem Sound.step {label : MonitorLabel} (hs : s.Sound) (h : s.step label = some s') :
    s'.Sound := by
  have hcovered := (step_signals h).covered hs.covered
  cases step_cases h with
  | worker i threw m awake moves =>
    refine ⟨hcovered, ?_, fun c hc => ?_⟩
    · rw [Machine.worker_stopping moves]
      exact hs.stopped
    · obtain ⟨hparked, hnotified⟩ := Finset.mem_filter.mp hc
      exact Machine.worker_waits moves (hs.parked c hparked) (by simpa using hnotified)
  | client c choice m free moves =>
    refine ⟨hcovered, ?_, fun d hd => ?_⟩
    · rw [Machine.client_stopping moves]
      exact hs.stopped
    · have hne : d ≠ c := fun heq => free.1 (heq ▸ hd)
      exact Machine.client_waits moves hne (hs.parked d hd)
  | stop => exact ⟨hcovered, fun _ => .inl rfl, hs.parked⟩
  | sleep i awake idle empty running =>
    exact ⟨hcovered, fun hstop => by simp [running] at hstop, hs.parked⟩
  | park c waits =>
    refine ⟨hcovered, hs.stopped, fun d hd => ?_⟩
    rcases Finset.mem_insert.mp hd with rfl | hd
    · exact waits
    · exact hs.parked d hd
  | notifyOne c i owes sleeps =>
    refine ⟨hcovered, fun hstop => (hs.stopped hstop).imp_right fun hnone => ?_, hs.parked⟩
    simp [hnone]
  | notifyNobody c owes none_asleep => exact ⟨hcovered, hs.stopped, hs.parked⟩
  | notifyAll due => exact ⟨hcovered, fun _ => .inr rfl, hs.parked⟩
  | wake i sleeps =>
    refine ⟨hcovered, fun hstop => (hs.stopped hstop).imp_right fun hnone => ?_, hs.parked⟩
    simp [hnone]
  | unpark c =>
    exact ⟨hcovered, hs.stopped, fun d hd => hs.parked d (Finset.mem_of_mem_erase hd)⟩

theorem runs_machine {labels : List MonitorLabel} (h : runs Monitor.step s labels = some s') :
    runs Machine.step s.machine (labels.filterMap MonitorLabel.act?) = some s'.machine := by
  induction labels generalizing s with
  | nil =>
    cases Option.some.inj h
    rfl
  | cons label rest ih =>
    obtain ⟨mid, hmid, hrest⟩ := runs_cons_some.mp h
    have htail := ih hrest
    cases step_cases hmid with
    | worker i threw m awake moves => exact runs_cons_some.mpr ⟨m, moves, htail⟩
    | client c choice m free moves => exact runs_cons_some.mpr ⟨m, moves, htail⟩
    | stop => exact runs_cons_some.mpr ⟨_, rfl, htail⟩
    | _ => exact htail

/-- No worker can go on, and no notification is on its way to one. -/
def Stuck (s : Monitor) : Prop :=
  ∀ label : MonitorLabel, label.isInternal = true → s.step label = none

theorem Stuck.no_debt (h : s.Stuck) : s.owing = ∅ ∧ s.stopOwing = false := by
  constructor
  · refine Finset.eq_empty_iff_forall_notMem.mpr fun c hc => ?_
    rcases s.asleep.eq_empty_or_nonempty with hnone | ⟨i, hi⟩
    · have := h (.notifyOne c none) rfl
      simp [Monitor.step, hc, hnone] at this
    · have := h (.notifyOne c (some i)) rfl
      simp [Monitor.step, hc, hi] at this
  · have := h .notifyAll rfl
    simpa [Monitor.step] using this

theorem Stuck.worker (h : s.Stuck) {i : Nat} (hi : i ∉ s.asleep) (threw : Bool) :
    s.machine.stepWorker i threw = none := by
  have := h (.act (.worker i threw)) rfl
  simpa [Monitor.step, stepAct, hi] using this

theorem Stuck.asleep (h : s.Stuck) {i : Nat} (hi : s.machine.workers[i]? = some .idle) :
    i ∈ s.asleep := by
  by_contra hawake
  have htake := h.worker hawake false
  have hsleep := h (.sleep i) rfl
  simp only [Machine.stepWorker, hi, Machine.takeTask] at htake
  cases htasks : s.machine.pool.tasks with
  | nil =>
    simp only [htasks] at htake
    simp [Monitor.step, hawake, hi, htasks] at hsleep
    simp [hsleep] at htake
  | cons first rest =>
    have hlt := Pool.pickNextTaskIndexLocked_lt (p := s.machine.pool) (by simp [htasks])
    simp only [htasks] at htake
    rw [← htasks] at htake
    simp [List.getElem?_eq_getElem hlt] at htake

/-- Whoever sleeps over something to do will be notified, or another worker is about
to look. -/
theorem Sound.sleeper (hs : s.Sound) {i : Nat} (hi : i ∈ s.asleep)
    (hmoves : s.machine.stepWorker i false ≠ none) :
    s.owing.Nonempty ∨ s.stopOwing = true ∨
      ∃ j, j ∉ s.asleep ∧ s.machine.workers[j]? = some .idle := by
  have hidle := Machine.mem_idle.mp (hs.covered.sleepers hi)
  by_cases hstop : s.machine.pool.stopping = true
  · rcases hs.stopped hstop with hdue | hnone
    · exact .inr (.inl hdue)
    · simp [hnone] at hi
  · by_cases hempty : s.machine.pool.tasks = []
    · simp [Machine.stepWorker, hidle, Machine.takeTask, hempty, hstop] at hmoves
    · rcases s.owing.eq_empty_or_nonempty with hnone | howing
      · obtain ⟨j, hj⟩ := hs.covered.awake_of_item (by simp [signals, hnone]) ⟨i, hi⟩
          (List.length_pos_iff.mpr hempty)
        obtain ⟨hjidle, hjawake⟩ := Finset.mem_sdiff.mp hj
        exact .inr (.inr ⟨j, hjawake, Machine.mem_idle.mp hjidle⟩)
      · exact .inl howing

/-- When nothing moves at the level of the condition variables, nothing could move
without them. -/
theorem Stuck.machine (h : s.Stuck) (hs : s.Sound) (i : Nat) :
    s.machine.stepWorker i false = none := by
  by_cases hi : i ∈ s.asleep
  · by_contra hmoves
    obtain ⟨howing, hstop⟩ := h.no_debt
    rcases hs.sleeper hi hmoves with ⟨c, hc⟩ | hdue | ⟨j, hj, hidle⟩
    · simp [howing] at hc
    · simp [hstop] at hdue
    · exact hj (h.asleep hidle)
  · exact h.worker hi false

/-- What the workers and the notifications can still do. -/
def work (s : Monitor) : Nat :=
  s.machine.work + 2 * s.owing.card + (Finset.range s.machine.workers.length \ s.asleep).card +
    if s.stopOwing then s.machine.workers.length + 1 else 0

theorem internal_work {label : MonitorLabel} (hs : s.Sound) (hinternal : label.isInternal = true)
    (h : s.step label = some s') :
    s'.work < s.work ∧ s'.machine.history.accepted = s.machine.history.accepted := by
  have hrange : ∀ i, s.machine.workers[i]? = some .idle →
      i ∈ Finset.range s.machine.workers.length := fun i hi =>
    Finset.mem_range.mpr (List.getElem?_eq_some_iff.mp hi).1
  cases step_cases h with
  | worker i threw m awake moves =>
    refine ⟨?_, (Machine.worker_accepted moves).1⟩
    have hless := Machine.worker_work moves
    simp only [work, Machine.worker_count moves]
    omega
  | sleep i awake idle empty running =>
    refine ⟨?_, rfl⟩
    have hmem : i ∈ Finset.range s.machine.workers.length \ s.asleep :=
      Finset.mem_sdiff.mpr ⟨hrange i idle, awake⟩
    have hcard := Finset.card_erase_add_one hmem
    simp only [work, Finset.sdiff_insert]
    omega
  | notifyOne c i owes sleeps =>
    refine ⟨?_, rfl⟩
    have hidle := Machine.mem_idle.mp (hs.covered.sleepers sleeps)
    have howing := Finset.card_erase_add_one owes
    have hcard := Finset.card_insert_le i (Finset.range s.machine.workers.length \ s.asleep)
    simp only [work, Finset.sdiff_erase (hrange i hidle)]
    omega
  | notifyNobody c owes none_asleep =>
    refine ⟨?_, rfl⟩
    have howing := Finset.card_erase_add_one owes
    simp only [work]
    omega
  | notifyAll due =>
    refine ⟨?_, rfl⟩
    simp only [work, due, Finset.sdiff_empty, Finset.card_range, if_true]
    simp only [Bool.false_eq_true, if_false]
    omega
  | _ => cases hinternal

theorem internal_run {schedule : List MonitorLabel} (hs : s.Sound)
    (hinternal : ∀ label ∈ schedule, label.isInternal = true)
    (hrun : runs Monitor.step s schedule = some s') :
    s'.Sound ∧ s'.machine.history.accepted = s.machine.history.accepted ∧
      schedule.length + s'.work ≤ s.work := by
  induction schedule generalizing s with
  | nil =>
    cases Option.some.inj hrun
    exact ⟨hs, rfl, by simp⟩
  | cons label rest ih =>
    obtain ⟨mid, hstep, hrest⟩ := runs_cons_some.mp hrun
    obtain ⟨hless, haccepted⟩ := internal_work hs (hinternal label (by simp)) hstep
    obtain ⟨hfinal, hkept, hwork⟩ :=
      ih (hs.step hstep) (fun label hlabel => hinternal label (by simp [hlabel])) hrest
    refine ⟨hfinal, hkept.trans haccepted, ?_⟩
    simp only [List.length_cons]
    omega

/-- With all workers at rest, whoever sleeps waits for a task, and on the first lap no
`SubmitEx` has returned its id. -/
theorem Sound.parked_at_rest (hs : s.Sound) (hcounted : s.machine.Counted)
    (hknown : s.machine.FirstLap → s.machine.Known)
    (htasks : s.machine.pool.tasks = [])
    (hidle : ∀ (i : Nat) (worker : Worker), s.machine.workers[i]? = some worker →
      worker = .idle ∨ worker = .exited) {c : Nat} (hc : c ∈ s.parked) :
    ∃ state rest timeoutMs, (s.machine.clients c).pc = .blocked state rest timeoutMs ∧
      (s.machine.FirstLap → ¬s.machine.Returned (state + 1)) := by
  have hbusy : s.machine.pool.activeWorkers = 0 := by
    rw [hcounted.active]
    refine slotSum_eq_zero fun i worker hi => ?_
    rcases hidle i worker hi with rfl | rfl <;> rfl
  obtain ⟨call, next, -, ⟨-, -, hload⟩ | ⟨state, rest, timeoutMs, hpc, hdone⟩⟩ :=
    Machine.waits_iff.mp (hs.parked c hc)
  · refine absurd ⟨?_, hbusy⟩ hload
    rw [hcounted.pending, htasks, hbusy]
    rfl
  · refine ⟨state, rest, timeoutMs, hpc, fun hlap hreturned => ?_⟩
    have hover := (hknown hlap).done_at_rest htasks hidle
      ((hknown hlap).ledger.returned _ hreturned)
    simp [hover] at hdone

end Monitor

/-- In every run at the level of the condition variables: the sections are a run of
the executor; a client that sleeps has a false condition; a worker that sleeps while
it could go on is owed a notification or has a colleague that is about to look. The
workers and the notifications by themselves come to rest after a bounded number of
steps; then every accepted closure has been called once, nobody sleeps in `WaitAll`,
and with fewer than 2^64 calls of `SubmitEx` nobody sleeps on a task whose id was
returned. -/
theorem no_wakeup_is_lost (options : ExecutorOptions) (hardwareConcurrency : Nat)
    (programs : Nat → Program Unit) {labels : List MonitorLabel} {s : Monitor}
    (hrun : runs Monitor.step (Monitor.start options hardwareConcurrency programs) labels =
      some s) :
    runs Machine.step (Machine.init options hardwareConcurrency programs)
        (labels.filterMap MonitorLabel.act?) = some s.machine ∧
    (∀ c ∈ s.parked, s.machine.stepClient c false = none) ∧
    (∀ i ∈ s.asleep, s.machine.stepWorker i false ≠ none →
      s.owing.Nonempty ∨ s.stopOwing = true ∨
        ∃ j, j ∉ s.asleep ∧ s.machine.workers[j]? = some .idle) ∧
    ∀ (schedule : List MonitorLabel) (final : Monitor),
      (∀ label ∈ schedule, label.isInternal = true) →
      runs Monitor.step s schedule = some final →
      schedule.length ≤ s.work ∧
      (final.Stuck → final.machine.pool.tasks = [] ∧
        (∀ t ∈ s.machine.history.accepted, final.machine.invocations t = 1) ∧
        ∀ c ∈ final.parked, ∃ state rest timeoutMs,
          (final.machine.clients c).pc = .blocked state rest timeoutMs ∧
            (final.machine.FirstLap → ¬final.machine.Returned (state + 1))) := by
  have hs : s.Sound := runs_invariant (fun _ _ _ hs hstep => hs.step hstep) (.start _ _ _) hrun
  refine ⟨Monitor.runs_machine hrun, fun c hc => Machine.stepClient_of_waits (hs.parked c hc),
    fun i hi hmoves => hs.sleeper hi hmoves, fun schedule final hinternal hfinal => ?_⟩
  · obtain ⟨hsound, haccepted, hwork⟩ := Monitor.internal_run hs hinternal hfinal
    refine ⟨by omega, fun hstuck => ?_⟩
    have hrest := Monitor.runs_machine (runs_append.mpr ⟨s, hrun, hfinal⟩)
    have hmachine := Machine.Sound.of_run hrest
    have hcounted : final.machine.Counted :=
      runs_invariant (fun _ _ _ hm hstep => hm.step hstep) (.init _ _ _) hrest
    have hquiet := hstuck.machine hsound
    have hempty := Machine.empty_of_stuck hmachine hquiet
    have hidle : ∀ (i : Nat) (worker : Worker), final.machine.workers[i]? = some worker →
        worker = .idle ∨ worker = .exited := fun i worker hi =>
      Machine.idle_of_stuck hmachine.keyed hquiet hi
    refine ⟨hempty, fun t ht => ?_, fun c hc => hsound.parked_at_rest hcounted
      (fun hlap => Machine.Known.of_run hrest hlap) hempty hidle hc⟩
    exact (hmachine.all_invoked hempty hidle (haccepted ▸ ht)).2

/-- The worker falls asleep, one client pushes an entry, and another falls asleep in
`WaitAll` before the first has called `notify_one`. -/
theorem no_wakeup_is_lost_owed :
    ∃ s, runs Monitor.step (Monitor.start { workerCount := 1 } 0 fun c =>
        if c = 0 then .op (.submit true) fun _ => .ret () else .op .waitAll fun _ => .ret ())
        [.sleep 0, .act (.client 0 false), .park 1] = some s ∧
      s.asleep = {0} ∧ s.parked = {1} ∧ s.machine.stepWorker 0 false ≠ none ∧
      s.machine.stepClient 1 false = none ∧
      (s.owing.Nonempty ∨ s.stopOwing = true ∨
        ∃ j, j ∉ s.asleep ∧ s.machine.workers[j]? = some .idle) := by
  obtain ⟨s, hs, hfacts⟩ := Option.map_eq_some_iff.mp (show (runs Monitor.step
      (Monitor.start { workerCount := 1 } 0 fun c =>
        if c = 0 then .op (.submit true) fun _ => .ret () else .op .waitAll fun _ => .ret ())
      [.sleep 0, .act (.client 0 false), .park 1]).map
      (fun s => (s.asleep, s.parked, (s.machine.stepWorker 0 false).isSome)) =
        some ({0}, {1}, true) by decide +kernel)
  obtain ⟨hasleep, hparked, hmoves⟩ : s.asleep = {0} ∧ s.parked = {1} ∧
      (s.machine.stepWorker 0 false).isSome = true := by simpa using hfacts
  have hworker : s.machine.stepWorker 0 false ≠ none := by
    intro hnone
    simp [hnone] at hmoves
  obtain ⟨-, hclients, hworkers, -⟩ := no_wakeup_is_lost _ _ _ hs
  exact ⟨s, hs, hasleep, hparked, hworker, hclients 1 (by simp [hparked]),
    hworkers 0 (by simp [hasleep]) hworker⟩

end Corekit.Task
