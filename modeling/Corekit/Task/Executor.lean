import Corekit.Api.Status
import Corekit.Foundation.Command
import Mathlib.Logic.Function.Basic
import Mathlib.Algebra.Group.Nat.Defs

/-! The thread-pool executor as a transition system. A step is one critical
section of `mu_`, or one action of a thread between two of them: taking a
serial-key mutex, calling a closure, the return of a user function. The client
threads run arbitrary programs over the interface of the executor. `TaskId`s,
sequence numbers and the counters of the statistics are 64 bits wide and wrap. -/
namespace Corekit.Task
open Corekit.Api Corekit.Foundation

abbrev TaskId := Nat

inductive TaskPriority where
  | kLow
  | kNormal
  | kHigh
  deriving DecidableEq, Repr

inductive ExecutorPolicy where
  | kFifo
  | kPriority
  | kFair
  | kHybridFairPriority
  deriving DecidableEq, Repr

structure ExecutorOptions where
  workerCount : Nat := 0
  queueCapacity : Nat := 0
  policy : ExecutorPolicy := .kHybridFairPriority
  deriving DecidableEq, Repr

structure TaskSubmitOptions where
  priority : TaskPriority := .kNormal
  serialKey : Nat := 0
  deriving DecidableEq, Repr

structure ExecutorStats where
  submitted : Nat := 0
  completed : Nat := 0
  failed : Nat := 0
  canceled : Nat := 0
  rejected : Nat := 0
  queueDepth : Nat := 0
  queueHighWatermark : Nat := 0
  deriving DecidableEq, Repr

structure TaskState where
  started : Bool := false
  done : Bool := false
  canceled : Bool := false
  succeeded : Bool := false
  deriving DecidableEq, Repr

/-- The lambda that `Submit` or `SubmitEx` hands to `Enqueue`. A tracked one
captures its id, the address of its `TaskState` and its serial key; the mutex
of a key is created once and never dropped, so the key stands for it. -/
inductive Closure where
  | plain
  | tracked (id : TaskId) (state : Nat) (serialKey : Nat)
  deriving DecidableEq, Repr

/-- `ticket` numbers the calls of `Enqueue`; no code reads it. -/
structure TaskEntry where
  fn : Closure
  priority : TaskPriority
  seq : Nat
  ticket : Nat
  deriving DecidableEq, Repr

/-- The members of `ThreadPoolExecutor`, with the `TaskState` objects by
address and the holders of the serial-key mutexes. -/
structure Pool where
  tasks : List TaskEntry := []
  stopping : Bool := false
  activeWorkers : Nat := 0
  pendingTasks : Nat := 0
  nextTaskId : TaskId := 1
  enqueueSeq : Nat := 0
  maxRetainedStates : Nat := 65536
  stats : ExecutorStats := {}
  options : ExecutorOptions := {}
  states : TaskId → Option Nat := fun _ => none
  pendingIds : List TaskId := []
  doneIds : List TaskId := []
  heap : Nat → TaskState := fun _ => {}
  heapSize : Nat := 0
  keyHolder : Nat → Option Nat := fun _ => none

def normalizeWorkerCount (workerCount hardwareConcurrency : Nat) : Nat :=
  if workerCount > 0 then workerCount
  else if hardwareConcurrency = 0 then 1 else hardwareConcurrency

namespace Pool

def enqueue (p : Pool) (fn : Closure) (options : TaskSubmitOptions) (ticket : Nat) :
    Status × Pool :=
  if p.stopping then
    (⟨.kInternalError, "executor is stopping, cannot accept new tasks", .kTask⟩, p)
  else if p.options.queueCapacity > 0 ∧ p.tasks.length ≥ p.options.queueCapacity then
    (⟨.kWouldBlock, "executor queue is full", .kTask⟩,
      { p with stats.rejected := (p.stats.rejected + 1) % 2 ^ 64 })
  else
    let seq := (p.enqueueSeq + 1) % 2 ^ 64
    let tasks := p.tasks ++ [⟨fn, options.priority, seq, ticket⟩]
    (.okStatus, { p with
      enqueueSeq := seq
      tasks := tasks
      pendingTasks := p.pendingTasks + 1
      stats.submitted := (p.stats.submitted + 1) % 2 ^ 64
      stats.queueDepth := tasks.length
      stats.queueHighWatermark := max p.stats.queueHighWatermark tasks.length })

def score : TaskPriority → Nat
  | .kHigh => 2
  | .kNormal => 1
  | .kLow => 0

/-- The loop of `PickNextTaskIndexLocked` from index `i` on. -/
def pickFrom (best bestScore bestSeq : Nat) : List TaskEntry → Nat → Nat
  | [], _ => best
  | entry :: rest, i =>
    let s := score entry.priority
    if s > bestScore ∨ (s = bestScore ∧ entry.seq < bestSeq) then
      pickFrom i s entry.seq rest (i + 1)
    else pickFrom best bestScore bestSeq rest (i + 1)

def pickNextTaskIndexLocked (p : Pool) : Nat :=
  match p.tasks with
  | [] => 0
  | first :: rest =>
    if p.options.policy = .kFifo ∨ p.options.policy = .kFair then 0
    else pickFrom 0 (score first.priority) first.seq rest 1

/-- The section of `SubmitEx` that creates and registers the task state. -/
def register (p : Pool) : (TaskId × Nat) × Pool :=
  ((p.nextTaskId, p.heapSize), { p with
    nextTaskId := (p.nextTaskId + 1) % 2 ^ 64
    heap := Function.update p.heap p.heapSize {}
    heapSize := p.heapSize + 1
    states := Function.update p.states p.nextTaskId (some p.heapSize)
    pendingIds := p.nextTaskId :: p.pendingIds })

/-- The section of `SubmitEx` after `Enqueue` has refused. -/
def unregister (p : Pool) (id : TaskId) : Pool :=
  { p with
    states := Function.update p.states id none
    pendingIds := p.pendingIds.filter (· ≠ id) }

def tryCancel (p : Pool) (id : TaskId) : Status × Pool :=
  match p.states id with
  | none => (⟨.kNotFound, "task id not found", .kTask⟩, p)
  | some state =>
    if (p.heap state).started ∨ (p.heap state).done then
      (⟨.kWouldBlock, "task already running or done", .kTask⟩, p)
    else
      (.okStatus, { p with
        heap := Function.update p.heap state { p.heap state with canceled := true }
        stats.canceled := (p.stats.canceled + 1) % 2 ^ 64 })

def isTaskSucceeded (p : Pool) (id : TaskId) : Result Bool :=
  match p.states id with
  | none => .error ⟨.kNotFound, "task id not found or result expired", .kTask⟩
  | some state => .ok (p.heap state).succeeded

def queryStats (p : Pool) : ExecutorStats :=
  { p.stats with queueDepth := p.tasks.length }

def reconfigure (p : Pool) (options : ExecutorOptions) : Pool :=
  { p with options := { p.options with
      queueCapacity := options.queueCapacity
      policy := options.policy } }

def eraseDone (heap : Nat → TaskState) (states : TaskId → Option Nat) (old : TaskId) :
    TaskId → Option Nat :=
  match states old with
  | some state => if (heap state).done then Function.update states old none else states
  | none => states

/-- The loop of `MarkTaskDone` that forgets the oldest finished tasks. -/
def pruneDone (limit : Nat) (heap : Nat → TaskState) :
    List TaskId → (TaskId → Option Nat) → List TaskId × (TaskId → Option Nat)
  | [], states => ([], states)
  | old :: rest, states =>
    if (old :: rest).length > limit then pruneDone limit heap rest (eraseDone heap states old)
    else (old :: rest, states)

def markTaskDone (p : Pool) (id : TaskId) (executed failed : Bool) : Pool :=
  match p.states id with
  | none => p
  | some state =>
    let heap := Function.update p.heap state
      { p.heap state with done := true, succeeded := executed && !failed }
    let pruned := pruneDone p.maxRetainedStates heap (p.doneIds ++ [id]) p.states
    let p := { p with
      heap := heap
      pendingIds := p.pendingIds.filter (· ≠ id)
      doneIds := pruned.1
      states := pruned.2 }
    if (heap state).canceled then p
    else if failed then { p with stats.failed := (p.stats.failed + 1) % 2 ^ 64 }
    else if executed then { p with stats.completed := (p.stats.completed + 1) % 2 ^ 64 }
    else p

section Frames

variable (p : Pool) (id : TaskId) (executed failed : Bool)

theorem tryCancel_keyHolder : (p.tryCancel id).2.keyHolder = p.keyHolder := by
  unfold tryCancel
  split
  · rfl
  · split <;> rfl

@[simp] theorem markTaskDone_tasks : (p.markTaskDone id executed failed).tasks = p.tasks := by
  unfold markTaskDone
  split
  · rfl
  · dsimp only
    split_ifs <;> rfl

@[simp] theorem markTaskDone_stopping :
    (p.markTaskDone id executed failed).stopping = p.stopping := by
  unfold markTaskDone
  split
  · rfl
  · dsimp only
    split_ifs <;> rfl

@[simp] theorem markTaskDone_keyHolder :
    (p.markTaskDone id executed failed).keyHolder = p.keyHolder := by
  unfold markTaskDone
  split
  · rfl
  · dsimp only
    split_ifs <;> rfl

end Frames

end Pool

end Corekit.Task
