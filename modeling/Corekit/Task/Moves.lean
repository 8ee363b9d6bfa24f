import Corekit.Task.Machine

/-! What a step of the executor can do, said once: every invariant below is a
case analysis over these moves. -/
namespace Corekit.Task
open Corekit.Api Corekit.Foundation

/-- The sections that leave the queue, the table of task states and the `done`
flags alone. -/
structure Pool.Quiet (p q : Pool) : Prop where
  tasks : q.tasks = p.tasks
  stopping : q.stopping = p.stopping
  nextTaskId : q.nextTaskId = p.nextTaskId
  heapSize : q.heapSize = p.heapSize
  states : q.states = p.states
  doneIds : q.doneIds = p.doneIds
  maxRetainedStates : q.maxRetainedStates = p.maxRetainedStates
  done : ∀ state, (q.heap state).done = (p.heap state).done

theorem Pool.Quiet.refl (p : Pool) : p.Quiet p := ⟨rfl, rfl, rfl, rfl, rfl, rfl, rfl, fun _ => rfl⟩

theorem Pool.Quiet.releaseKey (p : Pool) (serialKey : Nat) :
    p.Quiet (Machine.releaseKey p serialKey) := by
  unfold Machine.releaseKey
  split
  · exact .refl p
  · exact ⟨rfl, rfl, rfl, rfl, rfl, rfl, rfl, fun _ => rfl⟩

theorem Pool.Quiet.tryCancel (p : Pool) (id : TaskId) : p.Quiet (p.tryCancel id).2 := by
  unfold Pool.tryCancel
  cases p.states id with
  | none => exact .refl p
  | some state =>
    dsimp only
    split_ifs
    · exact .refl p
    · refine ⟨rfl, rfl, rfl, rfl, rfl, rfl, rfl, fun other => ?_⟩
      by_cases h : other = state
      · subst h; simp
      · simp [h]

theorem Pool.Quiet.start (p : Pool) (state : Nat) :
    p.Quiet { p with
      heap := Function.update p.heap state { p.heap state with started := true } } := by
  refine ⟨rfl, rfl, rfl, rfl, rfl, rfl, rfl, fun other => ?_⟩
  by_cases h : other = state
  · subst h; simp
  · simp [h]

structure Pool.Accepts (p q : Pool) (entry : TaskEntry) : Prop where
  open_ : p.stopping = false
  tasks : q.tasks = p.tasks ++ [entry]
  stopping : q.stopping = p.stopping
  nextTaskId : q.nextTaskId = p.nextTaskId
  heapSize : q.heapSize = p.heapSize
  states : q.states = p.states
  doneIds : q.doneIds = p.doneIds
  maxRetainedStates : q.maxRetainedStates = p.maxRetainedStates
  heap : q.heap = p.heap

section Enqueue

variable {p : Pool} {fn : Closure} {options : TaskSubmitOptions} {ticket : Nat}

theorem Pool.enqueue_accepts (h : (p.enqueue fn options ticket).1.ok = true) :
    p.Accepts (p.enqueue fn options ticket).2
      ⟨fn, options.priority, (p.enqueueSeq + 1) % 2 ^ 64, ticket⟩ := by
  unfold Pool.enqueue at h ⊢
  by_cases hstop : p.stopping = true
  · simp [hstop, Status.ok] at h
  · by_cases hfull : p.options.queueCapacity > 0 ∧ p.tasks.length ≥ p.options.queueCapacity
    · simp [hstop, hfull, Status.ok] at h
    · rw [if_neg hstop, if_neg hfull]
      exact ⟨by simpa using hstop, rfl, rfl, rfl, rfl, rfl, rfl, rfl, rfl⟩

theorem Pool.enqueue_refuses (h : (p.enqueue fn options ticket).1.ok = false) :
    p.Quiet (p.enqueue fn options ticket).2 := by
  unfold Pool.enqueue at h ⊢
  by_cases hstop : p.stopping = true
  · rw [if_pos hstop]
    exact .refl p
  · by_cases hfull : p.options.queueCapacity > 0 ∧ p.tasks.length ≥ p.options.queueCapacity
    · rw [if_neg hstop, if_pos hfull]
      exact ⟨rfl, rfl, rfl, rfl, rfl, rfl, rfl, fun _ => rfl⟩
    · simp [hstop, hfull, Status.ok, Status.okStatus] at h

theorem Pool.enqueue_keyHolder : (p.enqueue fn options ticket).2.keyHolder = p.keyHolder := by
  unfold Pool.enqueue
  split_ifs <;> rfl

end Enqueue

/-- A worker inside a closure goes on without `MarkTaskDone`; the list is the
task that has just ended, if any. -/
inductive StageMove (entry : TaskEntry) : Stage → Worker → List TaskId → Prop where
  | plainEnd (h : entry.fn = .plain) (threw : Bool) :
      StageMove entry .running (.inside entry (.recording threw)) []
  | plainRecord (h : entry.fn = .plain) (threw : Bool) :
      StageMove entry (.recording threw) .finishing []
  | lock {id state serialKey : Nat} (h : entry.fn = .tracked id state serialKey) :
      StageMove entry .locking (.inside entry .checking) []
  | skip {id state serialKey : Nat} (h : entry.fn = .tracked id state serialKey) :
      StageMove entry .checking (.inside entry .skipping) [id]
  | start {id state serialKey : Nat} (h : entry.fn = .tracked id state serialKey) :
      StageMove entry .checking (.inside entry .running) []
  | finish {id state serialKey : Nat} (h : entry.fn = .tracked id state serialKey) (threw : Bool) :
      StageMove entry .running (.inside entry (.recording threw)) [id]
  | unlock {id state serialKey : Nat} (h : entry.fn = .tracked id state serialKey) :
      StageMove entry .unlocking .finishing []

def Stage.marks : Stage → Bool
  | .skipping => true
  | .recording _ => true
  | _ => false

inductive WorkerMove (m : Machine) (i : Nat) : Worker → Machine → Prop where
  | exit (empty : m.pool.tasks = []) (stopping : m.pool.stopping = true) :
      WorkerMove m i .idle (m.setWorker i .exited)
  | take (entry : TaskEntry)
      (picked : m.pool.tasks[m.pool.pickNextTaskIndexLocked]? = some entry) :
      WorkerMove m i .idle { m.setWorker i (.taken entry) with
        pool := { m.pool with
          tasks := m.pool.tasks.eraseIdx m.pool.pickNextTaskIndexLocked
          activeWorkers := m.pool.activeWorkers + 1 }
        history.taken := m.history.taken ++ [(entry.ticket, i)] }
  | invoke (entry : TaskEntry) : WorkerMove m i (.taken entry) (m.invoke i entry)
  | stage (entry : TaskEntry) (stage : Stage) (next : Worker) (ended : List TaskId) {m' : Machine}
      (move : StageMove entry stage next ended) (quiet : m.pool.Quiet m'.pool)
      (workers : m'.workers = m.workers.set i next) (clients : m'.clients = m.clients)
      (history : m'.history = { m.history with ended := m.history.ended ++ ended }) :
      WorkerMove m i (.inside entry stage) m'
  | mark (entry : TaskEntry) (stage : Stage) (next : Worker) {id state serialKey : Nat}
      (executed failed : Bool) (fn : entry.fn = .tracked id state serialKey)
      (marks : stage.marks = true) (next_eq : next = .finishing ∨ next = .inside entry .unlocking) :
      WorkerMove m i (.inside entry stage)
        ((m.markTaskDone id executed failed).setWorker i next)
  | finish : WorkerMove m i .finishing (m.finishTask i)

/-- The arguments `executed` and `failed` of the `MarkTaskDone` in front of which
a closure is. -/
def Stage.verdict : Stage → Option (Bool × Bool)
  | .skipping => some (false, false)
  | .recording threw => some (!threw, threw)
  | _ => none

inductive WorkerStep (m : Machine) (i : Nat) (threw : Bool) : Worker → Machine → Prop where
  | exit (empty : m.pool.tasks = []) (stopping : m.pool.stopping = true) :
      WorkerStep m i threw .idle (m.setWorker i .exited)
  | take (entry : TaskEntry)
      (picked : m.pool.tasks[m.pool.pickNextTaskIndexLocked]? = some entry) :
      WorkerStep m i threw .idle { m.setWorker i (.taken entry) with
        pool := { m.pool with
          tasks := m.pool.tasks.eraseIdx m.pool.pickNextTaskIndexLocked
          activeWorkers := m.pool.activeWorkers + 1 }
        history.taken := m.history.taken ++ [(entry.ticket, i)] }
  | invoke (entry : TaskEntry) : WorkerStep m i threw (.taken entry) (m.invoke i entry)
  | plainEnd (entry : TaskEntry) (fn : entry.fn = .plain) :
      WorkerStep m i threw (.inside entry .running)
        (m.setWorker i (.inside entry (.recording threw)))
  | plainRecord (entry : TaskEntry) (failed : Bool) (fn : entry.fn = .plain) :
      WorkerStep m i threw (.inside entry (.recording failed)) { m.setWorker i .finishing with
        pool := { m.pool with stats := if failed
          then { m.pool.stats with failed := (m.pool.stats.failed + 1) % 2 ^ 64 }
          else { m.pool.stats with completed := (m.pool.stats.completed + 1) % 2 ^ 64 } } }
  | lock (entry : TaskEntry) {id state serialKey : Nat}
      (fn : entry.fn = .tracked id state serialKey) :
      WorkerStep m i threw (.inside entry .locking) { m.setWorker i (.inside entry .checking) with
        pool.keyHolder := Function.update m.pool.keyHolder serialKey (some i) }
  | skip (entry : TaskEntry) {id state serialKey : Nat}
      (fn : entry.fn = .tracked id state serialKey)
      (canceled : (m.pool.heap state).canceled = true) :
      WorkerStep m i threw (.inside entry .checking) { m.setWorker i (.inside entry .skipping) with
        pool := { m.pool with
          heap := Function.update m.pool.heap state { m.pool.heap state with started := true } }
        history.ended := m.history.ended ++ [id] }
  | start (entry : TaskEntry) {id state serialKey : Nat}
      (fn : entry.fn = .tracked id state serialKey)
      (canceled : (m.pool.heap state).canceled = false) :
      WorkerStep m i threw (.inside entry .checking) { m.setWorker i (.inside entry .running) with
        pool := { m.pool with
          heap := Function.update m.pool.heap state { m.pool.heap state with started := true } } }
  | finish (entry : TaskEntry) {id state serialKey : Nat}
      (fn : entry.fn = .tracked id state serialKey) :
      WorkerStep m i threw (.inside entry .running)
        { m.setWorker i (.inside entry (.recording threw)) with
          pool := if threw then Machine.releaseKey m.pool serialKey else m.pool
          history.ended := m.history.ended ++ [id] }
  | mark (entry : TaskEntry) (stage : Stage) (next : Worker) {id state serialKey : Nat}
      {executed failed : Bool} (fn : entry.fn = .tracked id state serialKey)
      (verdict : stage.verdict = some (executed, failed))
      (next_eq : next = .finishing ∨ next = .inside entry .unlocking) :
      WorkerStep m i threw (.inside entry stage)
        ((m.markTaskDone id executed failed).setWorker i next)
  | unlock (entry : TaskEntry) {id state serialKey : Nat}
      (fn : entry.fn = .tracked id state serialKey) :
      WorkerStep m i threw (.inside entry .unlocking)
        { m.setWorker i .finishing with pool := Machine.releaseKey m.pool serialKey }
  | leave : WorkerStep m i threw .finishing (m.finishTask i)

/-- The returns that change neither the queue nor the table of task states. -/
inductive Replies (p : Pool) : ClientPc → Call → Answer → Prop where
  | atOnce {call : Call} {result : Answer}
      (noWait : ∀ ids timeoutMs, call = .waitBatch (some ids) timeoutMs → ids = [])
      (noTask : ∀ id, result ≠ .task (.ok id)) : Replies p .ready call result
  | missing {id : TaskId} {rest : List TaskId} {timeoutMs : Nat} {call : Call}
      (h : p.states id = none) :
      Replies p (.finding id rest timeoutMs) call
        (.status ⟨.kNotFound, "task id not found", .kTask⟩)
  | batchTimeout {id : TaskId} {rest : List TaskId} {timeoutMs : Nat} {call : Call}
      (h : timeoutMs ≠ 0) :
      Replies p (.finding id rest timeoutMs) call
        (.status ⟨.kWouldBlock, "wait batch timeout", .kTask⟩)
  | waited {state timeoutMs : Nat} {call : Call} (h : (p.heap state).done = true) :
      Replies p (.blocked state [] timeoutMs) call (.status .okStatus)
  | timeout {state : Nat} {rest : List TaskId} {timeoutMs : Nat} {call : Call}
      (h : timeoutMs ≠ 0) :
      Replies p (.blocked state rest timeoutMs) call
        (.status ⟨.kWouldBlock, "wait timeout", .kTask⟩)

/-- The moves inside a call that change no member of the pool. -/
inductive Goes (p : Pool) : ClientPc → Call → ClientPc → Prop where
  | submitEx {options : TaskSubmitOptions} :
      Goes p .ready (.submitEx true options) (.registering options)
  | wait {id : TaskId} {timeoutMs : Nat} :
      Goes p .ready (.wait id timeoutMs) (.finding id [] timeoutMs)
  | waitBatch {id : TaskId} {rest : List TaskId} {timeoutMs : Nat} :
      Goes p .ready (.waitBatch (some (id :: rest)) timeoutMs) (.finding id rest timeoutMs)
  | found {id : TaskId} {rest : List TaskId} {timeoutMs state : Nat} {call : Call}
      (h : p.states id = some state) :
      Goes p (.finding id rest timeoutMs) call (.blocked state rest timeoutMs)
  | waited {state timeoutMs : Nat} {id : TaskId} {rest : List TaskId} {call : Call}
      (h : (p.heap state).done = true) :
      Goes p (.blocked state (id :: rest) timeoutMs) call (.finding id rest timeoutMs)

inductive ClientMove (m : Machine) (c : Nat) (call : Call) (next : Answer → Program Unit) :
    Machine → Prop where
  | reply (pool : Pool) (result : Answer) (quiet : m.pool.Quiet pool)
      (keyHolder : pool.keyHolder = m.pool.keyHolder)
      (replies : Replies m.pool (m.clients c).pc call result) :
      ClientMove m c call next ({ m with pool := pool }.answer c call next result)
  | goto (pc : ClientPc) (goes : Goes m.pool (m.clients c).pc call pc) :
      ClientMove m c call next (m.setPc c pc)
  | submit (hpc : (m.clients c).pc = .ready) (hcall : call = .submit true) :
      ClientMove m c call next
        ((m.enqueue .plain {}).2.answer c call next (.status (m.enqueue .plain {}).1))
  | register (options : TaskSubmitOptions) (hpc : (m.clients c).pc = .registering options) :
      ClientMove m c call next ({ m with pool := m.pool.register.2 }.setPc c
        (.enqueueing options m.pool.nextTaskId m.pool.heapSize))
  | accept (options : TaskSubmitOptions) (id : TaskId) (state : Nat)
      (hpc : (m.clients c).pc = .enqueueing options id state)
      (ok : (m.enqueue (.tracked id state options.serialKey) options).1.ok = true) :
      ClientMove m c call next ((m.enqueue (.tracked id state options.serialKey) options).2.answer
        c call next (.task (.ok id)))
  | refuse (options : TaskSubmitOptions) (id : TaskId) (state : Nat)
      (hpc : (m.clients c).pc = .enqueueing options id state)
      (refused : (m.enqueue (.tracked id state options.serialKey) options).1.ok = false) :
      ClientMove m c call next ((m.enqueue (.tracked id state options.serialKey) options).2.setPc
        c (.undoing id (m.enqueue (.tracked id state options.serialKey) options).1))
  | undo (id : TaskId) (refused : Status) (hpc : (m.clients c).pc = .undoing id refused) :
      ClientMove m c call next ({ m with pool := m.pool.unregister id }.answer c call next
        (.task (.error refused)))

inductive ClientStep (m : Machine) (c : Nat) (call : Call) (next : Answer → Program Unit) :
    Machine → Prop where
  | reply (result : Answer)
      (direct : (m.clients c).pc = .ready →
        (∀ id, call ≠ .tryCancel id) ∧ ∀ id timeoutMs, call ≠ .wait id timeoutMs)
      (replies : Replies m.pool (m.clients c).pc call result) :
      ClientStep m c call next (m.answer c call next result)
  | cancel (id : TaskId) (hpc : (m.clients c).pc = .ready) (hcall : call = .tryCancel id) :
      ClientStep m c call next ({ m with pool := (m.pool.tryCancel id).2 }.answer c call next
        (.status (m.pool.tryCancel id).1))
  | reconfigure (options : ExecutorOptions) (hpc : (m.clients c).pc = .ready)
      (hcall : call = .reconfigure options) :
      ClientStep m c call next ({ m with pool := m.pool.reconfigure options }.answer c call next
        (.status .okStatus))
  | goto (pc : ClientPc) (goes : Goes m.pool (m.clients c).pc call pc) :
      ClientStep m c call next (m.setPc c pc)
  | submit (hpc : (m.clients c).pc = .ready) (hcall : call = .submit true) :
      ClientStep m c call next
        ((m.enqueue .plain {}).2.answer c call next (.status (m.enqueue .plain {}).1))
  | register (options : TaskSubmitOptions) (hpc : (m.clients c).pc = .registering options) :
      ClientStep m c call next ({ m with pool := m.pool.register.2 }.setPc c
        (.enqueueing options m.pool.nextTaskId m.pool.heapSize))
  | accept (options : TaskSubmitOptions) (id : TaskId) (state : Nat)
      (hpc : (m.clients c).pc = .enqueueing options id state)
      (ok : (m.enqueue (.tracked id state options.serialKey) options).1.ok = true) :
      ClientStep m c call next ((m.enqueue (.tracked id state options.serialKey) options).2.answer
        c call next (.task (.ok id)))
  | refuse (options : TaskSubmitOptions) (id : TaskId) (state : Nat)
      (hpc : (m.clients c).pc = .enqueueing options id state)
      (refused : (m.enqueue (.tracked id state options.serialKey) options).1.ok = false) :
      ClientStep m c call next ((m.enqueue (.tracked id state options.serialKey) options).2.setPc
        c (.undoing id (m.enqueue (.tracked id state options.serialKey) options).1))
  | undo (id : TaskId) (refused : Status) (hpc : (m.clients c).pc = .undoing id refused) :
      ClientStep m c call next ({ m with pool := m.pool.unregister id }.answer c call next
        (.task (.error refused)))

namespace Machine

variable {m m' : Machine} {i c : Nat}

theorem stepPlain_exact {entry : TaskEntry} {stage : Stage} {threw : Bool}
    (hfn : entry.fn = .plain) (h : m.stepPlain i entry stage threw = some m') :
    WorkerStep m i threw (.inside entry stage) m' := by
  cases stage with
  | running =>
    cases Option.some.inj h
    exact .plainEnd entry hfn
  | recording failed =>
    have hrecord : WorkerStep m i threw (.inside entry (.recording failed)) _ :=
      .plainRecord entry failed hfn
    cases failed <;> cases Option.some.inj h <;> exact hrecord
  | locking => cases h
  | checking => cases h
  | skipping => cases h
  | unlocking => cases h

theorem stepTracked_exact {entry : TaskEntry} {id : TaskId} {state serialKey : Nat}
    {stage : Stage} {threw : Bool} (hfn : entry.fn = .tracked id state serialKey)
    (h : m.stepTracked i entry id state serialKey stage threw = some m') :
    WorkerStep m i threw (.inside entry stage) m' := by
  have hnext : (if serialKey = 0 then Worker.finishing else .inside entry .unlocking) = .finishing ∨
      (if serialKey = 0 then Worker.finishing else .inside entry .unlocking) =
        .inside entry .unlocking := by
    split
    · exact .inl rfl
    · exact .inr rfl
  cases stage with
  | locking =>
    simp only [stepTracked] at h
    split at h
    · cases h
    · cases Option.some.inj h
      exact .lock entry hfn
  | checking =>
    simp only [stepTracked] at h
    split_ifs at h with hcanceled <;> cases Option.some.inj h
    · exact .skip entry hfn hcanceled
    · exact .start entry hfn (by simpa using hcanceled)
  | skipping =>
    cases Option.some.inj h
    exact .mark entry _ _ hfn rfl hnext
  | running =>
    cases Option.some.inj h
    exact .finish entry hfn
  | recording flag =>
    cases flag <;> cases Option.some.inj h
    · exact .mark entry _ _ hfn rfl hnext
    · exact .mark entry _ _ hfn rfl (.inl rfl)
  | unlocking =>
    cases Option.some.inj h
    exact .unlock entry hfn

theorem takeTask_cases (h : m.takeTask i = some m') : WorkerMove m i .idle m' := by
  unfold takeTask at h
  cases htasks : m.pool.tasks with
  | nil =>
    simp only [htasks] at h
    split_ifs at h with hstop
    cases Option.some.inj h
    exact .exit htasks hstop
  | cons first rest =>
    simp only [htasks] at h
    rw [← htasks] at h
    obtain ⟨entry, hentry, rfl⟩ := Option.map_eq_some_iff.mp h
    exact .take entry hentry

theorem stepWorker_exact {threw : Bool} (h : m.stepWorker i threw = some m') :
    ∃ old, m.workers[i]? = some old ∧ WorkerStep m i threw old m' := by
  unfold stepWorker at h
  cases hold : m.workers[i]? with
  | none => simp [hold] at h
  | some old =>
    refine ⟨old, rfl, ?_⟩
    cases old with
    | idle =>
      simp only [hold] at h
      cases takeTask_cases h with
      | exit empty stopping => exact .exit empty stopping
      | take entry picked => exact .take entry picked
    | taken entry =>
      simp only [hold] at h
      cases Option.some.inj h
      exact .invoke entry
    | inside entry stage =>
      simp only [hold] at h
      cases hfn : entry.fn with
      | plain =>
        simp only [hfn] at h
        exact stepPlain_exact hfn h
      | tracked id state serialKey =>
        simp only [hfn] at h
        exact stepTracked_exact hfn h
    | finishing =>
      simp only [hold] at h
      cases Option.some.inj h
      exact .leave
    | exited => simp [hold] at h

theorem workerMove {threw : Bool} {old : Worker} (h : WorkerStep m i threw old m') :
    WorkerMove m i old m' := by
  have hended : m.history = { m.history with ended := m.history.ended ++ [] } := by simp
  cases h with
  | exit empty stopping => exact .exit empty stopping
  | take entry picked => exact .take entry picked
  | invoke entry => exact .invoke entry
  | plainEnd entry fn => exact .stage entry _ _ [] (.plainEnd fn threw) (.refl _) rfl rfl hended
  | plainRecord entry failed fn =>
    exact .stage entry _ _ [] (.plainRecord fn failed)
      ⟨rfl, rfl, rfl, rfl, rfl, rfl, rfl, fun _ => rfl⟩ rfl rfl hended
  | lock entry fn =>
    exact .stage entry _ _ [] (.lock fn)
      ⟨rfl, rfl, rfl, rfl, rfl, rfl, rfl, fun _ => rfl⟩ rfl rfl hended
  | skip entry fn canceled => exact .stage entry _ _ _ (.skip fn) (.start _ _) rfl rfl rfl
  | start entry fn canceled => exact .stage entry _ _ [] (.start fn) (.start _ _) rfl rfl hended
  | finish entry fn =>
    refine .stage entry _ _ _ (.finish fn threw) ?_ rfl rfl rfl
    dsimp only
    split
    · exact .releaseKey _ _
    · exact .refl _
  | mark entry stage next fn verdict next_eq =>
    have hmarks : stage.marks = true := by
      cases stage <;> simp_all [Stage.verdict, Stage.marks]
    exact .mark entry stage next _ _ fn hmarks next_eq
  | unlock entry fn => exact .stage entry _ _ [] (.unlock fn) (.releaseKey _ _) rfl rfl hended
  | leave => exact .finish

theorem stepWorker_cases {threw : Bool} (h : m.stepWorker i threw = some m') :
    ∃ old, m.workers[i]? = some old ∧ WorkerMove m i old m' := by
  obtain ⟨old, hold, hstep⟩ := stepWorker_exact h
  exact ⟨old, hold, workerMove hstep⟩

theorem beginCall_exact {call : Call} {next : Answer → Program Unit} {choice : Bool}
    (hpc : (m.clients c).pc = .ready) (h : m.beginCall c call next choice = some m') :
    ClientStep m c call next m' := by
  have hreply : ∀ {result : Answer},
      ((∀ id, call ≠ .tryCancel id) ∧ ∀ id timeoutMs, call ≠ .wait id timeoutMs) →
      (∀ ids timeoutMs, call = .waitBatch (some ids) timeoutMs → ids = []) →
      (∀ id, result ≠ .task (.ok id)) →
      ClientStep m c call next (m.answer c call next result) := by
    intro result direct noWait noTask
    apply ClientStep.reply result fun _ => direct
    rw [hpc]
    exact .atOnce noWait noTask
  have hgoto : ∀ {pc : ClientPc}, Goes m.pool .ready call pc →
      ClientStep m c call next (m.setPc c pc) := by
    intro pc goes
    apply ClientStep.goto pc
    rw [hpc]
    exact goes
  cases call with
  | submit hasFn =>
    cases hasFn <;> cases Option.some.inj h
    · exact hreply (by simp) (by simp) (by simp)
    · exact .submit hpc rfl
  | submitEx hasFn options =>
    cases hasFn <;> cases Option.some.inj h
    · exact hreply (by simp) (by simp) (by simp)
    · exact hgoto .submitEx
  | wait id timeoutMs =>
    cases Option.some.inj h
    exact hgoto .wait
  | waitBatch ids timeoutMs =>
    rcases ids with _ | (_ | ⟨id, rest⟩) <;> cases Option.some.inj h
    · exact hreply (by simp) (by simp) (by simp)
    · exact hreply (by simp) (by simp +contextual) (by simp)
    · exact hgoto .waitBatch
  | tryCancel id =>
    cases Option.some.inj h
    exact .cancel id hpc rfl
  | waitAll =>
    simp only [beginCall] at h
    split_ifs at h
    cases Option.some.inj h
    exact hreply (by simp) (by simp) (by simp)
  | isTaskSucceeded id =>
    cases Option.some.inj h
    exact hreply (by simp) (by simp) (by simp)
  | queryStats =>
    cases Option.some.inj h
    exact hreply (by simp) (by simp) (by simp)
  | reconfigure options =>
    cases Option.some.inj h
    exact .reconfigure options hpc rfl
  | readFlag =>
    cases Option.some.inj h
    exact hreply (by simp) (by simp) (by simp)

theorem continueCall_exact {call : Call} {next : Answer → Program Unit} {choice : Bool}
    (hbusy : (m.clients c).pc ≠ .ready)
    (h : m.continueCall c call next choice (m.clients c).pc = some m') :
    ClientStep m c call next m' := by
  have hreply : ∀ {result : Answer}, Replies m.pool (m.clients c).pc call result →
      ClientStep m c call next (m.answer c call next result) :=
    fun replies => ClientStep.reply _ (fun hready => absurd hready hbusy) replies
  cases hpc : (m.clients c).pc with
  | ready => simp [hpc, continueCall] at h
  | registering options =>
    simp only [hpc, continueCall, Option.some.injEq] at h
    subst h
    exact .register options hpc
  | enqueueing options id state =>
    simp only [hpc, continueCall] at h
    split_ifs at h with hok <;> cases Option.some.inj h
    · exact .accept options id state hpc hok
    · exact .refuse options id state hpc (by simpa using hok)
  | undoing id refused =>
    simp only [hpc, continueCall, Option.some.injEq] at h
    subst h
    exact .undo id refused hpc
  | finding id rest timeoutMs =>
    simp only [hpc, continueCall] at h
    split_ifs at h with htimeout
    · cases Option.some.inj h
      exact hreply (hpc ▸ .batchTimeout htimeout.1)
    · cases hstate : m.pool.states id with
      | none =>
        simp only [hstate, Option.some.injEq] at h
        subst h
        exact hreply (hpc ▸ .missing hstate)
      | some state =>
        simp only [hstate, Option.some.injEq] at h
        subst h
        exact .goto _ (hpc ▸ .found hstate)
  | blocked state rest timeoutMs =>
    simp only [hpc, continueCall] at h
    split_ifs at h with hdone htimeout
    · cases rest <;> cases Option.some.inj h
      · exact hreply (hpc ▸ .waited hdone)
      · exact .goto _ (hpc ▸ .waited hdone)
    · cases Option.some.inj h
      exact hreply (hpc ▸ .timeout htimeout.1)

theorem stepClient_exact {choice : Bool} (h : m.stepClient c choice = some m') :
    ∃ call next, (m.clients c).program = .op call next ∧ ClientStep m c call next m' := by
  unfold stepClient at h
  cases hprogram : (m.clients c).program with
  | ret value => simp [hprogram] at h
  | op call next =>
    simp only [hprogram] at h
    refine ⟨call, next, rfl, ?_⟩
    split at h
    next hpc => exact beginCall_exact hpc h
    next hbusy => exact continueCall_exact hbusy h

theorem clientMove {call : Call} {next : Answer → Program Unit}
    (h : ClientStep m c call next m') : ClientMove m c call next m' := by
  cases h with
  | reply result direct replies => exact .reply m.pool result (.refl _) rfl replies
  | cancel id hpc hcall =>
    apply ClientMove.reply _ _ (.tryCancel _ _) (Pool.tryCancel_keyHolder _ _)
    rw [hpc]
    exact .atOnce (by simp [hcall]) (by simp)
  | reconfigure options hpc hcall =>
    refine ClientMove.reply (m.pool.reconfigure options) _
      ⟨rfl, rfl, rfl, rfl, rfl, rfl, rfl, fun _ => rfl⟩ rfl ?_
    rw [hpc]
    exact .atOnce (by simp [hcall]) (by simp)
  | goto pc goes => exact .goto pc goes
  | submit hpc hcall => exact .submit hpc hcall
  | register options hpc => exact .register options hpc
  | accept options id state hpc ok => exact .accept options id state hpc ok
  | refuse options id state hpc refused => exact .refuse options id state hpc refused
  | undo id refused hpc => exact .undo id refused hpc

theorem stepClient_cases {choice : Bool} (h : m.stepClient c choice = some m') :
    ∃ call next, (m.clients c).program = .op call next ∧ ClientMove m c call next m' := by
  obtain ⟨call, next, hprogram, hstep⟩ := stepClient_exact h
  exact ⟨call, next, hprogram, clientMove hstep⟩

end Machine

end Corekit.Task
