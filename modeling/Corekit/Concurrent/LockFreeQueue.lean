import Corekit.Api.Status
import Corekit.Foundation.Command
import Corekit.Foundation.Slots

/-! The lock-free queue and its size counter. The calls of the source are
commands over the operations on the underlying queue and on `size_`; any number
of threads take these operations in any order. -/
namespace Corekit.Concurrent
open Corekit.Api Corekit.Foundation

variable {T : Type}

/-- `construct` and `copyOut` stand for the declaration of a local element and
for the copy into a result: they touch nothing shared, but they can throw. -/
inductive QueueOp (T : Type) where
  | construct
  | tryEnqueue (value : T)
  | tryDequeue
  | tryDequeueBulk (capacity : Nat)
  | fetchAdd (count : Nat)
  | fetchSub (count : Nat)
  | copyOut (value : T)

/-- An answer of `none` is an exception. -/
def QueueOp.Res : QueueOp T → Type
  | .construct => Option Unit
  | .tryEnqueue _ => Option Bool
  | .tryDequeue => Option (Option T)
  | .tryDequeueBulk _ => Option (List T)
  | .fetchAdd _ => Unit
  | .fetchSub _ => Unit
  | .copyOut _ => Option Unit

inductive QueueOutcome (T : Type) where
  | status (status : Status)
  | pushed (status : Status) (pushed : Option Nat)
  | value (result : Result T)
  | popped (status : Status) (values : List T) (popped : Option Nat)

/-- Where a command ends: the call is over, or the loop of `Clear` goes round. -/
inductive QueuePoint (T : Type) where
  | returned (outcome : QueueOutcome T)
  | clearing

abbrev QueueCmd (T : Type) := Cmd (QueueOp T) QueueOp.Res (QueuePoint T)

def queueStatus (code : StatusCode) (message : String) : Status := ⟨code, message, .kConcurrent⟩

def enqueueOne (value : T) : QueueCmd T :=
  .op (.tryEnqueue value) fun
    | none => .ret (.returned (.status (queueStatus .kInternalError "queue push failed")))
    | some false =>
      .ret (.returned (.status (queueStatus .kWouldBlock "queue is full or unavailable")))
    | some true => .op (.fetchAdd 1) fun _ => .ret (.returned (.status .okStatus))

def tryPush (value : T) : QueueCmd T := enqueueOne value

def tryPushMove (value : T) : QueueCmd T := enqueueOne value

/-- `if (done > 0) size_.fetch_add(done)` -/
def addDone (done : Nat) (rest : QueueCmd T) : QueueCmd T :=
  if 0 < done then .op (.fetchAdd done) fun _ => rest else rest

def tryPushBatchLoop (pushed : Option Nat) : List T → Nat → QueueCmd T
  | [], done => addDone done (.ret (.returned (.pushed .okStatus (pushed.map fun _ => done))))
  | value :: rest, done =>
    .op (.tryEnqueue value) fun
      | none => .ret (.returned (.pushed
          (queueStatus .kInternalError "queue push batch failed") pushed))
      | some false => addDone done (.ret (.returned (.pushed
          (queueStatus .kWouldBlock "queue is full or unavailable") (pushed.map fun _ => done))))
      | some true => tryPushBatchLoop pushed rest (done + 1)

def tryPushBatch (values : Option (List T)) (count : Nat) (pushed : Option Nat) : QueueCmd T :=
  if values.isNone && decide (0 < count) then
    .ret (.returned (.pushed (queueStatus .kInvalidArgument "values is null")
      (pushed.map fun _ => 0)))
  else tryPushBatchLoop (pushed.map fun _ => 0) ((values.getD []).take count) 0

def tryPop : QueueCmd T :=
  .op .construct fun
    | none => .ret (.returned (.value (.error (queueStatus .kInternalError "queue pop failed"))))
    | some _ => .op .tryDequeue fun
      | none => .ret (.returned (.value (.error (queueStatus .kInternalError "queue pop failed"))))
      | some none => .ret (.returned (.value (.error (queueStatus .kWouldBlock "queue is empty"))))
      | some (some value) => .op (.fetchSub 1) fun _ => .op (.copyOut value) fun
        | none =>
          .ret (.returned (.value (.error (queueStatus .kInternalError "queue pop failed"))))
        | some _ => .ret (.returned (.value (.ok value)))

/-- `outValues` tells a buffer from a null pointer. -/
def tryPopBatch (outValues : Bool) (capacity : Nat) (popped : Option Nat) : QueueCmd T :=
  if !outValues && decide (0 < capacity) then
    .ret (.returned (.popped (queueStatus .kInvalidArgument "out_values is null") []
      (popped.map fun _ => 0)))
  else .op (.tryDequeueBulk capacity) fun
    | none => .ret (.returned (.popped (queueStatus .kInternalError "queue pop batch failed") []
        (popped.map fun _ => 0)))
    | some [] => .ret (.returned (.popped (queueStatus .kWouldBlock "queue is empty") []
        (popped.map fun _ => 0)))
    | some (value :: rest) => .op (.fetchSub (rest.length + 1)) fun _ =>
        .ret (.returned (.popped .okStatus (value :: rest) (popped.map fun _ => rest.length + 1)))

def clearRound : QueueCmd T :=
  .op .tryDequeue fun
    | none => .ret (.returned (.status (queueStatus .kInternalError "queue clear failed")))
    | some none => .ret (.returned (.status .okStatus))
    | some (some _) => .op (.fetchSub 1) fun _ => .ret .clearing

def clear : QueueCmd T :=
  .op .construct fun
    | none => .ret (.returned (.status (queueStatus .kInternalError "queue clear failed")))
    | some _ => clearRound

inductive QueueCall (T : Type) where
  | tryPush (value : T)
  | tryPushMove (value : T)
  | tryPushBatch (values : Option (List T)) (count : Nat) (pushed : Option Nat)
  | tryPop
  | tryPopBatch (outValues : Bool) (capacity : Nat) (popped : Option Nat)
  | clear

def QueueCall.program : QueueCall T → QueueCmd T
  | .tryPush value => Concurrent.tryPush value
  | .tryPushMove value => Concurrent.tryPushMove value
  | .tryPushBatch values count pushed => Concurrent.tryPushBatch values count pushed
  | .tryPop => Concurrent.tryPop
  | .tryPopBatch outValues capacity popped => Concurrent.tryPopBatch outValues capacity popped
  | .clear => Concurrent.clear

/-- The underlying queue, as a bag with positions, and the counter. -/
structure QueueShared (T : Type) where
  queue : List T := []
  size : Int := 0

/-- How one operation goes: it does its work on the elements at the given
positions, or returns false, or throws. A dequeue whose assignment throws has
already taken its elements out. -/
inductive QueueChoice where
  | goes (picks : List Nat)
  | refuses
  | throws (picks : List Nat)
  deriving DecidableEq

def takeOut : List Nat → List T → Option (List T × List T)
  | [], queue => some ([], queue)
  | pick :: rest, queue =>
    queue[pick]?.bind fun value =>
      (takeOut rest (queue.eraseIdx pick)).map fun taken => (value :: taken.1, taken.2)

/-- Elements have addresses, so there are fewer than 2^64 of them. -/
def maxElements : Nat := 2 ^ 64

namespace QueueShared

def perform (s : QueueShared T) : (o : QueueOp T) → QueueChoice → Option (o.Res × QueueShared T)
  | .construct, .goes [] => some (some (), s)
  | .construct, .throws [] => some (none, s)
  | .tryEnqueue value, .goes [] =>
    if s.queue.length + 1 < maxElements then
      some (some true, { s with queue := s.queue ++ [value] })
    else none
  | .tryEnqueue _, .refuses => some (some false, s)
  | .tryEnqueue _, .throws [] => some (none, s)
  | .tryDequeue, .goes [pick] =>
    (takeOut [pick] s.queue).map fun taken =>
      (some taken.1.head?, { s with queue := taken.2 })
  | .tryDequeue, .refuses => some (some none, s)
  | .tryDequeue, .throws [pick] =>
    (takeOut [pick] s.queue).map fun taken => (none, { s with queue := taken.2 })
  | .tryDequeueBulk capacity, .goes picks =>
    if picks.length ≤ capacity then
      (takeOut picks s.queue).map fun taken => (some taken.1, { s with queue := taken.2 })
    else none
  | .tryDequeueBulk capacity, .throws (pick :: rest) =>
    if rest.length + 1 ≤ capacity then
      (takeOut (pick :: rest) s.queue).map fun taken => (none, { s with queue := taken.2 })
    else none
  | .fetchAdd count, .goes [] => some ((), { s with size := s.size + count })
  | .fetchSub count, .goes [] => some ((), { s with size := s.size - count })
  | .copyOut _, .goes [] => some (some (), s)
  | .copyOut _, .throws [] => some (none, s)
  | _, _ => none

/-- How far the queue is ahead of the counter. -/
def lead (s : QueueShared T) : Int := s.queue.length - s.size

end QueueShared

/-- A call in progress. `owed` and `entered` are not in the code: by how much the
call has put the queue ahead of the counter, and how many elements it enqueued. -/
structure QueueRunning (T : Type) where
  program : QueueCmd T
  owed : Int := 0
  entered : Nat := 0

structure QueueReturn (T : Type) where
  outcome : QueueOutcome T
  entered : Nat

def QueueReturn.reported (ret : QueueReturn T) : Option Nat :=
  match ret.outcome with
  | .pushed _ pushed => pushed
  | _ => none

structure QueueWorld (T : Type) where
  shared : QueueShared T := {}
  threads : List (Option (QueueRunning T))
  /-- the number of elements ever enqueued -/
  enqueued : Nat := 0
  returned : List (QueueReturn T) := []

inductive QueueLabel (T : Type) where
  | call (thread : Nat) (call : QueueCall T)
  | step (thread : Nat) (choice : QueueChoice)

namespace QueueRunning

def moved (r : QueueRunning T) (before after : QueueShared T) (next : QueueCmd T) :
    QueueRunning T :=
  { program := next
    owed := r.owed + (after.lead - before.lead)
    entered := r.entered + (after.queue.length - before.queue.length) }

end QueueRunning

def owedOf (slot : Option (QueueRunning T)) : Int := (slot.map QueueRunning.owed).getD 0

namespace QueueWorld

def start (count : Nat) : QueueWorld T := { threads := List.replicate count none }

def advance (w : QueueWorld T) (thread : Nat) (r : QueueRunning T) (choice : QueueChoice) :
    Option (QueueWorld T) :=
  match r.program with
  | .ret (.returned outcome) => some { w with
      threads := w.threads.set thread none
      returned := w.returned ++ [⟨outcome, r.entered⟩] }
  | .ret .clearing => some { w with
      threads := w.threads.set thread (some { r with program := clearRound }) }
  | .op o next => (w.shared.perform o choice).map fun (answer, after) => { w with
      shared := after
      threads := w.threads.set thread (some (r.moved w.shared after (next answer)))
      enqueued := w.enqueued + (after.queue.length - w.shared.queue.length) }

def step (w : QueueWorld T) : QueueLabel T → Option (QueueWorld T)
  | .call thread call =>
    match w.threads[thread]? with
    | some none => some { w with
        threads := w.threads.set thread (some { program := call.program }) }
    | _ => none
  | .step thread choice =>
    match w.threads[thread]? with
    | some (some r) => w.advance thread r choice
    | _ => none

/-- `static_cast<std::size_t>(size_.load())` -/
def approxSize (w : QueueWorld T) : Nat := (w.shared.size % 2 ^ 64).toNat

def isEmpty (w : QueueWorld T) : Bool := w.approxSize = 0

def Quiescent (w : QueueWorld T) : Prop := ∀ slot ∈ w.threads, slot.isNone = true

def uncounted (w : QueueWorld T) : Nat := slotSum (fun _ slot => (owedOf slot).toNat) w.threads

def unsubtracted (w : QueueWorld T) : Nat :=
  slotSum (fun _ slot => (-owedOf slot).toNat) w.threads

end QueueWorld

end Corekit.Concurrent
