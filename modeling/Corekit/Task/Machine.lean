import Corekit.Task.Executor
import Corekit.Foundation.Transition

/-! The threads of the executor. A worker is somewhere in `WorkerLoop` or in the
closure it took; a client runs a program of calls and is somewhere in one of
them. The label of a step says who moves and what the environment decides. -/
namespace Corekit.Task
open Corekit.Api Corekit.Foundation

/-- Where a worker is inside a closure. -/
inductive Stage where
  /-- blocked on the mutex of the serial key -/
  | locking
  /-- in front of the section that reads `canceled` and sets `started` -/
  | checking
  /-- canceled: in front of `MarkTaskDone(id, false, false)` -/
  | skipping
  /-- inside the user function -/
  | running
  /-- the user function has ended: in front of the section that records it -/
  | recording (threw : Bool)
  /-- recorded: the serial-key lock is about to be released -/
  | unlocking
  deriving DecidableEq, Repr

inductive Worker where
  | idle
  | taken (entry : TaskEntry)
  | inside (entry : TaskEntry) (stage : Stage)
  | finishing
  | exited
  deriving DecidableEq, Repr

/-- The calls of `IExecutor`. `none` as the ids of `WaitBatch` is a null pointer
with a positive count; `readFlag` is a look of the client at its own memory. -/
inductive Call where
  | submit (hasFn : Bool)
  | submitEx (hasFn : Bool) (options : TaskSubmitOptions)
  | wait (id : TaskId) (timeoutMs : Nat)
  | waitBatch (ids : Option (List TaskId)) (timeoutMs : Nat)
  | tryCancel (id : TaskId)
  | waitAll
  | isTaskSucceeded (id : TaskId)
  | queryStats
  | reconfigure (options : ExecutorOptions)
  | readFlag
  deriving DecidableEq, Repr

def Call.isBatch : Call → Bool
  | .waitBatch _ _ => true
  | _ => false

inductive Answer where
  | status (status : Status)
  | task (result : Result TaskId)
  | succeeded (result : Result Bool)
  | stats (stats : ExecutorStats)
  | flag (value : Bool)

abbrev Program (α : Type) := Cmd Call (fun _ => Answer) α

/-- Where a client is inside its current call. -/
inductive ClientPc where
  | ready
  | registering (options : TaskSubmitOptions)
  | enqueueing (options : TaskSubmitOptions) (id : TaskId) (state : Nat)
  | undoing (id : TaskId) (refused : Status)
  /-- in front of the look-up of `Wait`; `rest` are the ids after this one -/
  | finding (id : TaskId) (rest : List TaskId) (timeoutMs : Nat)
  /-- in the wait of `Wait` on this task state -/
  | blocked (state : Nat) (rest : List TaskId) (timeoutMs : Nat)
  deriving DecidableEq, Repr

structure Client where
  program : Program Unit
  pc : ClientPc := .ready
  /-- the finished calls with their answers, oldest first -/
  log : List (Call × Answer) := []

/-- What has happened; no code reads it. -/
structure History where
  attempts : Nat := 0
  accepted : List Nat := []
  /-- tickets with the worker that took or called the closure -/
  taken : List (Nat × Nat) := []
  invoked : List (Nat × Nat) := []
  /-- tracked tasks whose function returned, threw or was skipped -/
  ended : List TaskId := []
  /-- tracked tasks in the order of their `MarkTaskDone` -/
  marked : List TaskId := []

structure Machine where
  pool : Pool
  workers : List Worker
  clients : Nat → Client
  history : History := {}

def Machine.init (options : ExecutorOptions) (hardwareConcurrency : Nat)
    (programs : Nat → Program Unit) : Machine where
  pool := { options := { options with
    workerCount := normalizeWorkerCount options.workerCount hardwareConcurrency } }
  workers := List.replicate (normalizeWorkerCount options.workerCount hardwareConcurrency) .idle
  clients c := { program := programs c }

inductive Label where
  /-- `threw` is how the user function ends, where it does -/
  | worker (i : Nat) (threw : Bool)
  /-- `choice` is a timeout that has expired, or the flag that is read -/
  | client (c : Nat) (choice : Bool)
  /-- the first section of the destructor -/
  | stop
  deriving DecidableEq, Repr

namespace Machine

def setWorker (m : Machine) (i : Nat) (worker : Worker) : Machine :=
  { m with workers := m.workers.set i worker }

def setPc (m : Machine) (c : Nat) (pc : ClientPc) : Machine :=
  { m with clients := Function.update m.clients c { m.clients c with pc := pc } }

def answer (m : Machine) (c : Nat) (call : Call) (next : Answer → Program Unit)
    (result : Answer) : Machine :=
  let client : Client := ⟨next result, .ready, (m.clients c).log ++ [(call, result)]⟩
  { m with clients := Function.update m.clients c client }

/-- `Enqueue`, with a fresh ticket for the closure. -/
def enqueue (m : Machine) (fn : Closure) (options : TaskSubmitOptions) : Status × Machine :=
  let result := m.pool.enqueue fn options m.history.attempts
  (result.1, { m with
    pool := result.2
    history := { m.history with
      attempts := m.history.attempts + 1
      accepted := if result.1.ok then m.history.accepted ++ [m.history.attempts]
        else m.history.accepted } })

def releaseKey (p : Pool) (serialKey : Nat) : Pool :=
  if serialKey = 0 then p
  else { p with keyHolder := Function.update p.keyHolder serialKey none }

def markTaskDone (m : Machine) (id : TaskId) (executed failed : Bool) : Machine :=
  { m with
    pool := m.pool.markTaskDone id executed failed
    history.marked := m.history.marked ++ [id] }

@[simp] theorem setWorker_pool (m : Machine) (i : Nat) (worker : Worker) :
    (m.setWorker i worker).pool = m.pool := rfl

@[simp] theorem markTaskDone_pool (m : Machine) (id : TaskId) (executed failed : Bool) :
    (m.markTaskDone id executed failed).pool = m.pool.markTaskDone id executed failed := rfl

/-- The section at the top of `WorkerLoop`; blocked while there is no task and
the executor is not stopping. -/
def takeTask (m : Machine) (i : Nat) : Option Machine :=
  match m.pool.tasks with
  | [] => if m.pool.stopping then some (m.setWorker i .exited) else none
  | _ :: _ =>
    let index := m.pool.pickNextTaskIndexLocked
    (m.pool.tasks[index]?).map fun entry =>
      { m.setWorker i (.taken entry) with
        pool := { m.pool with
          tasks := m.pool.tasks.eraseIdx index
          activeWorkers := m.pool.activeWorkers + 1 }
        history.taken := m.history.taken ++ [(entry.ticket, i)] }

/-- The section at the bottom of `WorkerLoop`. -/
def finishTask (m : Machine) (i : Nat) : Machine :=
  { m.setWorker i .idle with
    pool := { m.pool with
      activeWorkers := m.pool.activeWorkers - 1
      pendingTasks := if m.pool.pendingTasks > 0 then m.pool.pendingTasks - 1
        else m.pool.pendingTasks
      stats.queueDepth := m.pool.tasks.length } }

def invoke (m : Machine) (i : Nat) (entry : TaskEntry) : Machine :=
  let stage := match entry.fn with
    | .plain => .running
    | .tracked _ _ serialKey => if serialKey = 0 then .checking else .locking
  { m.setWorker i (.inside entry stage) with
    history.invoked := m.history.invoked ++ [(entry.ticket, i)] }

/-- One action inside the closure of `Submit`. -/
def stepPlain (m : Machine) (i : Nat) (entry : TaskEntry) (stage : Stage) (threw : Bool) :
    Option Machine :=
  match stage with
  | .running => some (m.setWorker i (.inside entry (.recording threw)))
  | .recording true => some { m.setWorker i .finishing with
      pool.stats.failed := (m.pool.stats.failed + 1) % 2 ^ 64 }
  | .recording false => some { m.setWorker i .finishing with
      pool.stats.completed := (m.pool.stats.completed + 1) % 2 ^ 64 }
  | _ => none

/-- One action inside the closure of `SubmitEx`. An exception releases the
serial-key lock before the handler calls `MarkTaskDone`. -/
def stepTracked (m : Machine) (i : Nat) (entry : TaskEntry) (id : TaskId) (state serialKey : Nat)
    (stage : Stage) (threw : Bool) : Option Machine :=
  match stage with
  | .locking =>
    match m.pool.keyHolder serialKey with
    | some _ => none
    | none => some { m.setWorker i (.inside entry .checking) with
        pool.keyHolder := Function.update m.pool.keyHolder serialKey (some i) }
  | .checking =>
    let pool := { m.pool with
      heap := Function.update m.pool.heap state { m.pool.heap state with started := true } }
    if (m.pool.heap state).canceled then
      some { m.setWorker i (.inside entry .skipping) with
        pool := pool
        history.ended := m.history.ended ++ [id] }
    else some { m.setWorker i (.inside entry .running) with pool := pool }
  | .skipping =>
    some ((m.markTaskDone id false false).setWorker i
      (if serialKey = 0 then .finishing else .inside entry .unlocking))
  | .running =>
    some { m.setWorker i (.inside entry (.recording threw)) with
      pool := if threw then releaseKey m.pool serialKey else m.pool
      history.ended := m.history.ended ++ [id] }
  | .recording true => some ((m.markTaskDone id false true).setWorker i .finishing)
  | .recording false =>
    some ((m.markTaskDone id true false).setWorker i
      (if serialKey = 0 then .finishing else .inside entry .unlocking))
  | .unlocking => some { m.setWorker i .finishing with pool := releaseKey m.pool serialKey }

def stepWorker (m : Machine) (i : Nat) (threw : Bool) : Option Machine :=
  match m.workers[i]? with
  | some .idle => m.takeTask i
  | some (.taken entry) => some (m.invoke i entry)
  | some (.inside entry stage) =>
    match entry.fn with
    | .plain => m.stepPlain i entry stage threw
    | .tracked id state serialKey => m.stepTracked i entry id state serialKey stage threw
  | some .finishing => some (m.finishTask i)
  | some .exited => none
  | none => none

/-- The start of a call, with its first section where it has one. -/
def beginCall (m : Machine) (c : Nat) (call : Call) (next : Answer → Program Unit)
    (choice : Bool) : Option Machine :=
  match call with
  | .submit false =>
    some (m.answer c call next (.status ⟨.kInvalidArgument, "fn is empty", .kTask⟩))
  | .submit true =>
    let result := m.enqueue .plain {}
    some (result.2.answer c call next (.status result.1))
  | .submitEx false _ =>
    some (m.answer c call next (.task (.error ⟨.kInvalidArgument, "fn is empty", .kTask⟩)))
  | .submitEx true options => some (m.setPc c (.registering options))
  | .wait id timeoutMs => some (m.setPc c (.finding id [] timeoutMs))
  | .waitBatch none _ =>
    some (m.answer c call next (.status ⟨.kInvalidArgument, "ids is null", .kTask⟩))
  | .waitBatch (some []) _ => some (m.answer c call next (.status .okStatus))
  | .waitBatch (some (id :: rest)) timeoutMs => some (m.setPc c (.finding id rest timeoutMs))
  | .tryCancel id =>
    let result := m.pool.tryCancel id
    some ({ m with pool := result.2 }.answer c call next (.status result.1))
  | .waitAll =>
    if m.pool.pendingTasks = 0 ∧ m.pool.activeWorkers = 0 then
      some (m.answer c call next (.status .okStatus))
    else none
  | .isTaskSucceeded id => some (m.answer c call next (.succeeded (m.pool.isTaskSucceeded id)))
  | .queryStats => some (m.answer c call next (.stats m.pool.queryStats))
  | .reconfigure options =>
    some ({ m with pool := m.pool.reconfigure options }.answer c call next (.status .okStatus))
  | .readFlag => some (m.answer c call next (.flag choice))

/-- The end of one `Wait` with kOk: `WaitBatch` goes on to its next id. -/
def waitedOne (m : Machine) (c : Nat) (call : Call) (next : Answer → Program Unit)
    (rest : List TaskId) (timeoutMs : Nat) : Machine :=
  match rest with
  | [] => m.answer c call next (.status .okStatus)
  | id :: rest => m.setPc c (.finding id rest timeoutMs)

/-- The further sections of a call. -/
def continueCall (m : Machine) (c : Nat) (call : Call) (next : Answer → Program Unit)
    (choice : Bool) : ClientPc → Option Machine
  | .ready => none
  | .registering options =>
    let result := m.pool.register
    some ({ m with pool := result.2 }.setPc c (.enqueueing options result.1.1 result.1.2))
  | .enqueueing options id state =>
    let result := m.enqueue (.tracked id state options.serialKey) options
    if result.1.ok then some (result.2.answer c call next (.task (.ok id)))
    else some (result.2.setPc c (.undoing id result.1))
  | .undoing id refused =>
    some ({ m with pool := m.pool.unregister id }.answer c call next (.task (.error refused)))
  | .finding id rest timeoutMs =>
    if timeoutMs ≠ 0 ∧ choice ∧ call.isBatch then
      some (m.answer c call next (.status ⟨.kWouldBlock, "wait batch timeout", .kTask⟩))
    else
      match m.pool.states id with
      | none => some (m.answer c call next (.status ⟨.kNotFound, "task id not found", .kTask⟩))
      | some state => some (m.setPc c (.blocked state rest timeoutMs))
  | .blocked state rest timeoutMs =>
    if (m.pool.heap state).done then some (m.waitedOne c call next rest timeoutMs)
    else if timeoutMs ≠ 0 ∧ choice then
      some (m.answer c call next (.status ⟨.kWouldBlock, "wait timeout", .kTask⟩))
    else none

def stepClient (m : Machine) (c : Nat) (choice : Bool) : Option Machine :=
  match (m.clients c).program with
  | .ret _ => none
  | .op call next =>
    match (m.clients c).pc with
    | .ready => m.beginCall c call next choice
    | pc => m.continueCall c call next choice pc

def step (m : Machine) : Label → Option Machine
  | .worker i threw => m.stepWorker i threw
  | .client c choice => m.stepClient c choice
  | .stop => some { m with pool.stopping := true }

end Machine

end Corekit.Task
