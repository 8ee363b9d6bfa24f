import Corekit.Foundation.Slots
import Corekit.Foundation.Transition

/-! `FormattedSink`: how a line is made of the arguments of `send`, and the
threads that hand lines over. The senders, the worker and the destructor take
turns at every critical section and at every notification. -/
namespace Corekit.Log
open Corekit.Foundation

abbrev Bytes := List UInt8

def Bytes.of (literal : String) : Bytes := literal.toList.map fun c => UInt8.ofNat c.toNat

def newline : UInt8 := 10

def clampInt (value low high : Int) : Int :=
  if value < low then low else if value > high then high else value

def levelChar (severity : Int) : UInt8 :=
  (Bytes.of "IWEF").getD (clampInt severity 0 3).toNat 0

/-- `file` is a C string, `none` when null. -/
def formatSourceLocation (file : Option Bytes) (line : Int) : Bytes :=
  match file with
  | none => []
  | some file =>
    if file = [] ∨ line ≤ 0 then []
    else Bytes.of "[" ++ file ++ Bytes.of ":" ++ Bytes.of (toString line) ++ Bytes.of "]"

def hexDigit (digit : Nat) : UInt8 := UInt8.ofNat (if digit < 10 then 48 + digit else 87 + digit)

/-- One turn of the loop of `JsonEscape`. -/
def jsonEscapeByte (c : UInt8) : Bytes :=
  if c = 92 then [92, 92]
  else if c = 34 then [92, 34]
  else if c = 10 then Bytes.of "\\n"
  else if c = 13 then Bytes.of "\\r"
  else if c = 9 then Bytes.of "\\t"
  else if c < 0x20 then
    Bytes.of "\\u00" ++ [hexDigit (c.toNat / 16), hexDigit (c.toNat % 16)]
  else [c]

def jsonEscape (input : Bytes) : Bytes := input.flatMap jsonEscapeByte

inductive Mode where
  | kSimple
  | kJson
  deriving DecidableEq, Repr

def formatLine (mode : Mode) (timestamp : Bytes) (severity : Int) (location msg : Bytes) : Bytes :=
  match mode with
  | .kSimple =>
    timestamp ++ Bytes.of " [" ++ [levelChar severity] ++ Bytes.of "]" ++
      (if location = [] then [] else Bytes.of " " ++ location) ++ Bytes.of " " ++ msg
  | .kJson =>
    Bytes.of "\x7b\"ts\":\"" ++ timestamp ++ Bytes.of "\",\"level\":\"" ++ [levelChar severity] ++
      Bytes.of "\"" ++
      (if location = [] then []
        else Bytes.of ",\"source\":\"" ++ jsonEscape location ++ Bytes.of "\"") ++
      Bytes.of ",\"message\":\"" ++ jsonEscape msg ++ Bytes.of "\"\x7d"

def stripLineEnds (msg : Bytes) : Bytes :=
  (msg.reverse.dropWhile fun c => c = 10 ∨ c = 13).reverse

/-- What `send` is given, and what `TimestampPrefix` reads off the clock. -/
structure SendArgs where
  severity : Int
  fullFilename : Option Bytes
  line : Int
  message : Option Bytes
  timestamp : Bytes

def SendArgs.formattedLine (args : SendArgs) (mode : Mode) : Bytes :=
  formatLine mode args.timestamp args.severity
    (formatSourceLocation args.fullFilename args.line) (stripLineEnds (args.message.getD []))

def dropNotice (timestamp : Bytes) (droppedCount : Nat) : Bytes :=
  Bytes.of "\x7b\"ts\":\"" ++ timestamp ++
    Bytes.of "\",\"level\":\"W\",\"message\":\"corekit dropped " ++
    Bytes.of (toString droppedCount) ++ Bytes.of " messages because async queue was full\"\x7d\n"

/-- The arguments of the constructor; `isOpen` is what became of the stream. -/
structure SinkSetup where
  isOpen : Bool
  mode : Mode
  asyncMode : Bool
  queueSize : Int
  dropWhenFull : Bool

def SinkSetup.queueLimit (setup : SinkSetup) : Nat := (max 1 setup.queueSize).toNat

/-- Where a thread is in a call of `send`. -/
inductive SenderPc where
  | idle
  /-- in front of the lock -/
  | locking (line : Bytes)
  /-- in `queue_space_cv_.wait` -/
  | waiting (line : Bytes)
  /-- unlocked: in front of `queue_cv_.notify_one` -/
  | notifying
  deriving DecidableEq

inductive WorkerPc where
  /-- at the head of the loop, in front of the lock -/
  | locking
  /-- in `queue_cv_.wait` -/
  | waiting
  /-- unlocked: in front of `queue_space_cv_.notify_one` -/
  | notifying (line : Bytes)
  /-- in front of the lock of the stream -/
  | writing (line : Bytes)
  /-- out of the loop -/
  | leaving
  | exited
  deriving DecidableEq

/-- Where the destructor is; `alive` before it starts. -/
inductive DestructorPc where
  | alive
  | notifyingQueue
  | notifyingSpace
  | joining
  | returned
  deriving DecidableEq

/-- The last three fields are not in the code: the lines of the calls made, those
pushed and those dropped, each in their order. -/
structure SinkWorld where
  queue : List Bytes := []
  stopping : Bool := false
  droppedCount : Nat := 0
  file : Bytes
  senders : List SenderPc
  worker : WorkerPc
  destructor : DestructorPc := .alive
  sent : List Bytes := []
  accepted : List Bytes := []
  dropped : List Bytes := []

inductive SinkLabel where
  | call (sender : Nat) (args : SendArgs)
  | sender (i : Nat)
  /-- `woken` is the sender that a notification picks -/
  | worker (woken : Nat) (timestamp : Bytes)
  | destructor
  /-- a wake-up without a notification -/
  | wakeSender (i : Nat)
  | wakeWorker

def SenderPc.wake : SenderPc → SenderPc
  | .waiting line => .locking line
  | pc => pc

def WorkerPc.wake : WorkerPc → WorkerPc
  | .waiting => .locking
  | pc => pc

namespace SinkWorld

variable (setup : SinkSetup)

def init (threads : Nat) (file : Bytes) : SinkWorld where
  file := file
  senders := List.replicate threads .idle
  worker := if setup.asyncMode then .locking else .exited

variable (w : SinkWorld)

def push (i : Nat) (line : Bytes) : SinkWorld :=
  { w with
    queue := w.queue ++ [line]
    senders := w.senders.set i .notifying
    accepted := w.accepted ++ [line] }

/-- The locked part of `send`. -/
def lockedSend (i : Nat) (line : Bytes) : SinkWorld :=
  if !setup.asyncMode then
    { w with file := w.file ++ line ++ [newline], senders := w.senders.set i .idle }
  else if setup.dropWhenFull then
    if w.queue.length ≥ setup.queueLimit then
      { w with
        droppedCount := (w.droppedCount + 1) % 2 ^ 64
        senders := w.senders.set i .idle
        dropped := w.dropped ++ [line] }
    else w.push i line
  else if w.stopping ∨ w.queue.length < setup.queueLimit then
    if w.stopping then { w with senders := w.senders.set i .idle } else w.push i line
  else { w with senders := w.senders.set i (.waiting line) }

def senderStep (i : Nat) : Option SinkWorld :=
  match w.senders[i]? with
  | some (.locking line) => some (w.lockedSend setup i line)
  | some .notifying => some { w with senders := w.senders.set i .idle, worker := w.worker.wake }
  | _ => none

/-- `queue_space_cv_.notify_one`: somebody is woken if anybody waits. -/
def notifySpace (woken : Nat) : Option (List SenderPc) :=
  match w.senders[woken]? with
  | some (.waiting line) => some (w.senders.set woken (.locking line))
  | _ => if w.senders.all (fun pc => pc.wake = pc) then some w.senders else none

def workerStep (woken : Nat) (timestamp : Bytes) : Option SinkWorld :=
  match w.worker with
  | .locking =>
    if w.stopping ∨ w.queue ≠ [] then
      match w.queue with
      | [] => some { w with worker := if w.stopping then .leaving else .locking }
      | line :: rest => some { w with queue := rest, worker := .notifying line }
    else some { w with worker := .waiting }
  | .waiting => none
  | .notifying line =>
    (w.notifySpace woken).map fun senders => { w with senders := senders, worker := .writing line }
  | .writing line => some { w with file := w.file ++ line ++ [newline], worker := .locking }
  | .leaving => some { w with
      file := if w.droppedCount > 0 then w.file ++ dropNotice timestamp w.droppedCount else w.file
      worker := .exited }
  | .exited => none

def destructorStep : Option SinkWorld :=
  match w.destructor with
  | .alive =>
    if !setup.asyncMode then some { w with destructor := .returned }
    else some { w with stopping := true, destructor := .notifyingQueue }
  | .notifyingQueue => some { w with worker := w.worker.wake, destructor := .notifyingSpace }
  | .notifyingSpace =>
    some { w with senders := w.senders.map SenderPc.wake, destructor := .joining }
  | .joining => if w.worker = .exited then some { w with destructor := .returned } else none
  | .returned => none

def step (w : SinkWorld) : SinkLabel → Option SinkWorld
  | .call i args =>
    match w.senders[i]? with
    | some .idle =>
      if !setup.isOpen then some w
      else some { w with
        senders := w.senders.set i (.locking (args.formattedLine setup.mode))
        sent := w.sent ++ [args.formattedLine setup.mode] }
    | _ => none
  | .sender i => w.senderStep setup i
  | .worker woken timestamp => w.workerStep woken timestamp
  | .destructor => w.destructorStep setup
  | .wakeSender i =>
    match w.senders[i]? with
    | some (.waiting line) => some { w with senders := w.senders.set i (.locking line) }
    | _ => none
  | .wakeWorker => if w.worker = .waiting then some { w with worker := .locking } else none

/-- Every call of `send` is over before the destructor starts, and none is made
afterwards. -/
def Orderly (w : SinkWorld) : SinkLabel → Prop
  | .call _ _ => w.destructor = .alive
  | .destructor => w.destructor = .alive → ∀ pc ∈ w.senders, pc = .idle
  | _ => True

instance (w : SinkWorld) (label : SinkLabel) : Decidable (w.Orderly label) :=
  match label with
  | .call _ _ => inferInstanceAs (Decidable (_ = _))
  | .destructor => inferInstanceAs (Decidable (_ → _))
  | .sender _ => inferInstanceAs (Decidable True)
  | .worker _ _ => inferInstanceAs (Decidable True)
  | .wakeSender _ => inferInstanceAs (Decidable True)
  | .wakeWorker => inferInstanceAs (Decidable True)

end SinkWorld

end Corekit.Log
