import Corekit.Foundation.Registry
import Corekit.Foundation.Transition
import Corekit.Ipc.Ring

/-! Opening and closing channels, with the backend of `shm_backend_posix.cpp`.
Any number of channel objects, each used by one thread of some process, share
the names of POSIX shared memory. A step is one system call, or one load or
store of a header field; the plain fields are loaded and stored in program
order. `Close` is one step, because of what it does only `shm_unlink` is seen by
others; so is a failing `ftruncate` or `mmap` with the `shm_unlink` after it. A
step of `TrySend` or `TryRecv` may leave anything in the memory that these calls
write. -/
namespace Corekit.Ipc
open Corekit.Api Corekit.Foundation

/-- What `c_str()` passes on. -/
def cStr (text : String) : String := String.ofList (text.toList.takeWhile (· ≠ '\x00'))

def normalizeName (name : String) : String :=
  if name.startsWith "/" then name else "/" ++ name

/-- The name that `shm_open` and `shm_unlink` see. -/
def shmKey (name : String) : String := cStr (normalizeName name)

def emptyLayout : HeaderLayout := ⟨0, 0, 0, 0, 0, 0⟩

/-- A shared memory object. `made` (the options of the `OpenServer` that made it),
`stores` (how many header fields have been stored) and `uses` (the steps of
`TrySend` and `TryRecv` on it) are history. -/
structure ShmObject where
  size : Nat := 0
  layout : HeaderLayout := emptyLayout
  shm : Shm := clearedShm
  made : ChannelOptions := { name := "" }
  stores : Nat := 0
  uses : Nat := 0

/-- `fd_` and `base_` are the objects that they refer to. -/
structure PosixShmBackend where
  fd : Option Nat := none
  base : Option Nat := none
  size : Nat := 0
  shmName : String := ""
  isOwner : Bool := false
  deriving DecidableEq

inductive SessionPc where
  | idle
  /-- In `Create`: before `shm_open`, `ftruncate` and `mmap`. -/
  | create
  | truncate (object : Nat)
  | mapNew (object : Nat)
  /-- In `MapAsServer`: before `memset` and before a store to the header. -/
  | clear (object : Nat)
  | publish (object done : Nat)
  /-- In the first `Open`: before `shm_open` and `mmap`. -/
  | probeOpen
  | probeMap (object : Nat)
  /-- In `MapAsClient`: before a load from the header; `left` is the operand
  that `&` has already. -/
  | read (object done : Nat) (left : UInt32)
  /-- In the second `Open`. -/
  | remapOpen (total : Nat)
  | remapMap (total object : Nat)
  /-- The process is killed: the object ends before the page it looks at. -/
  | sigbus
  deriving DecidableEq

/-- A `SharedMemoryChannel`. `status` is what the last call returned; `probed`,
the object that the first `Open` of the last `OpenClient` found, is history. -/
structure Session where
  ep : Endpoint := {}
  backend : PosixShmBackend := {}
  pc : SessionPc := .idle
  status : Status := .okStatus
  probed : Option Nat := none

namespace Session

variable (c : Session)

def answer (status : Status) : Session := { c with pc := .idle, status := status }

/-- The options are taken over before anything is mapped. -/
def prepare (options : ChannelOptions) : Session :=
  { c with ep := { c.ep with
      options := options
      sharedName := buildSharedName options.name
      localOutbox := []
      localPendingDrop := 0 } }

def alreadyMapped : Status := ⟨.kAlreadyInitialized, "already mapped", .kCore⟩

def beginServer (options : ChannelOptions) : Session :=
  if c.ep.opened then c.answer ⟨.kAlreadyInitialized, "channel already opened", .kCore⟩
  else if ¬(validateOptions options).ok then c.answer (validateOptions options)
  else if totalBytes options = 0 then
    (c.prepare options).answer ⟨.kInvalidArgument, "channel memory size is too large", .kCore⟩
  else if c.backend.base.isSome then (c.prepare options).answer alreadyMapped
  else { c.prepare options with pc := .create }

def beginClient (options : ChannelOptions) : Session :=
  if c.ep.opened then c.answer ⟨.kAlreadyInitialized, "channel already opened", .kCore⟩
  else if options.name.isEmpty then c.answer ⟨.kInvalidArgument, "channel name is empty", .kCore⟩
  else if c.backend.base.isSome then (c.prepare options).answer alreadyMapped
  else { c.prepare options with pc := .probeOpen }

def owned : Option (String × Nat) :=
  match c.pc with
  | .truncate object => some (shmKey c.ep.sharedName, object)
  | .mapNew object => some (shmKey c.ep.sharedName, object)
  | _ => if c.backend.isOwner then c.backend.base.map fun o => (cStr c.backend.shmName, o) else none

/-- `IShmBackend::Close` of a backend that does not own, and `Close` but for the
name. -/
def shut : Session :=
  { c with
    backend := {}
    ep := { c.ep with localOutbox := [], headerMapped := false, opened := false }
    pc := .idle
    status := .okStatus }

/-- The client gives up after it has looked at the header. -/
def reject (text : String) : Session :=
  { c with backend := {} }.answer ⟨.kInternalError, text, .kCore⟩

def mismatch : Session := c.reject "channel header magic/version mismatch"

def badRing : Session := c.reject "channel ring_bytes is invalid"

/-- One load of `MapAsClient`, with the test that follows it. -/
def load (layout : HeaderLayout) (object : Nat) : Nat → UInt32 → Session
  | 0, _ =>
    if layout.magic ≠ kChannelMagic then c.mismatch else { c with pc := .read object 1 0 }
  | 1, _ =>
    if layout.version ≠ kChannelVersion then c.mismatch else { c with pc := .read object 2 0 }
  | 2, _ => if layout.ringBytes = 0 then c.badRing else { c with pc := .read object 3 0 }
  | 3, _ => { c with pc := .read object 4 layout.ringBytes }
  | 4, left =>
    if left &&& (layout.ringBytes - 1) ≠ 0 then c.badRing else { c with pc := .read object 5 0 }
  | 5, _ =>
    { c with ep.options.capacity := layout.capacity, pc := .read object 6 0 }
  | 6, _ =>
    { c with ep.options.messageMaxBytes := layout.messageMaxBytes, pc := .read object 7 0 }
  | _, _ =>
    { c with backend := {}, pc := .remapOpen (sharedHeaderBytes + layout.ringBytes.toNat) }

end Session

/-- The header stores of `MapAsServer`: six constants, then the five atomics. -/
def headerStores : Nat := 11

def HeaderLayout.publish (layout final : HeaderLayout) : Nat → HeaderLayout
  | 0 => { layout with magic := final.magic }
  | 1 => { layout with version := final.version }
  | 2 => { layout with capacity := final.capacity }
  | 3 => { layout with messageMaxBytes := final.messageMaxBytes }
  | 4 => { layout with ringBytes := final.ringBytes }
  | 5 => { layout with ringMask := final.ringMask }
  | _ => layout

def Shm.publish (shm : Shm) : Nat → Shm
  | 6 => { shm with writeIndex := 0 }
  | 7 => { shm with readIndex := 0 }
  | 8 => { shm with sendOk := 0 }
  | 9 => { shm with recvOk := 0 }
  | 10 => { shm with droppedWhenFull := 0 }
  | _ => shm

/-- The members that `TrySend` and `TryRecv` write. -/
structure LocalMembers where
  wouldBlockSend : Nat := 0
  wouldBlockRecv : Nat := 0
  pendingDrop : Nat := 0
  outbox : List Message := []

def Endpoint.withLocal (ep : Endpoint) (members : LocalMembers) : Endpoint :=
  { ep with
    localWouldBlockSend := members.wouldBlockSend
    localWouldBlockRecv := members.wouldBlockRecv
    localPendingDrop := members.pendingDrop
    localOutbox := members.outbox }

structure ShmSystem where
  names : String → Option Nat := fun _ => none
  objects : Nat → ShmObject := fun _ => {}
  count : Nat := 0
  sessions : Nat → Session := fun _ => {}

/-- A system call succeeds, or fails for a reason of its own. -/
inductive SysAnswer where
  | done
  | failed (strerror : String)

inductive SessionLabel where
  | openServer (i : Nat) (options : ChannelOptions)
  | openClient (i : Nat) (options : ChannelOptions)
  /-- `Close`, and the destructor. -/
  | close (i : Nat)
  | advance (i : Nat) (answer : SysAnswer)
  /-- A step of `TrySend` or `TryRecv`, and what it leaves. -/
  | use (i : Nat) (shm : Shm) (members : LocalMembers)

namespace ShmSystem

variable (s : ShmSystem)

def put (i : Nat) (c : Session) : ShmSystem :=
  { s with sessions := Function.update s.sessions i c }

def unlink (name : String) : ShmSystem :=
  { s with names := Function.update s.names name none }

def setObject (o : Nat) (object : ShmObject) : ShmSystem :=
  { s with objects := Function.update s.objects o object }

def ioError (call strerror : String) : Status := ⟨.kIoError, call ++ " failed: " ++ strerror, .kCore⟩

def close (i : Nat) : ShmSystem :=
  let c := s.sessions i
  if c.backend.isOwner ∧ c.backend.shmName ≠ "" then
    (s.unlink (cStr c.backend.shmName)).put i c.shut
  else s.put i c.shut

/-- `shm_open` of `Create`, with `O_CREAT | O_EXCL`. -/
def createOpen (i : Nat) : SysAnswer → ShmSystem
  | .failed strerror => s.put i ((s.sessions i).answer (ioError "shm_open" strerror))
  | .done =>
    let c := s.sessions i
    let name := shmKey c.ep.sharedName
    if (s.names name).isSome then
      s.put i (c.answer ⟨.kAlreadyInitialized, "shared memory already exists", .kCore⟩)
    else
      { s with
        names := Function.update s.names name (some s.count)
        objects := Function.update s.objects s.count { made := c.ep.options }
        count := s.count + 1
        sessions := Function.update s.sessions i { c with pc := .truncate s.count } }

def createTruncate (i object : Nat) : SysAnswer → ShmSystem
  | .failed strerror =>
    let c := s.sessions i
    (s.unlink (shmKey c.ep.sharedName)).put i (c.answer (ioError "ftruncate" strerror))
  | .done =>
    let c := s.sessions i
    (s.setObject object { s.objects object with size := totalBytes c.ep.options }).put i
      { c with pc := .mapNew object }

def createMap (i object : Nat) : SysAnswer → ShmSystem
  | .failed strerror =>
    let c := s.sessions i
    (s.unlink (shmKey c.ep.sharedName)).put i (c.answer (ioError "mmap" strerror))
  | .done =>
    let c := s.sessions i
    s.put i { c with
      backend := ⟨some object, some object, totalBytes c.ep.options,
        normalizeName c.ep.sharedName, true⟩
      pc := .clear object }

def clear (i object : Nat) : ShmSystem :=
  let c := s.sessions i
  (s.setObject object { s.objects object with layout := emptyLayout, shm := clearedShm }).put i
    { c with ep.headerMapped := true, pc := .publish object 0 }

def publish (i object done : Nat) : ShmSystem :=
  let c := s.sessions i
  let cell := s.objects object
  let stored := s.setObject object
    { cell with
      layout := cell.layout.publish (serverLayout c.ep.options) done
      shm := cell.shm.publish done
      stores := cell.stores + 1 }
  if done + 1 = headerStores then
    stored.put i ({ c with ep.opened := true }.answer .okStatus)
  else stored.put i { c with pc := .publish object (done + 1) }

/-- `shm_open` of `Open`: the object that carries the name. -/
def lookup (i : Nat) (found : Session → Nat → Session) : SysAnswer → ShmSystem
  | .failed strerror =>
    s.put i ((s.sessions i).answer ⟨.kNotFound, "shm_open failed: " ++ strerror, .kCore⟩)
  | .done =>
    let c := s.sessions i
    match s.names (shmKey c.ep.sharedName) with
    | none =>
      s.put i (c.answer ⟨.kNotFound, "shm_open failed: No such file or directory", .kCore⟩)
    | some object => s.put i (found c object)

/-- `mmap` of `Open`. The size asked for is never zero here. -/
def mapped (i object bytes : Nat) (next : Session → Session) : SysAnswer → ShmSystem
  | .failed strerror => s.put i ((s.sessions i).answer (ioError "mmap" strerror))
  | .done =>
    let c := s.sessions i
    s.put i (next { c with
      backend := ⟨some object, some object, bytes, normalizeName c.ep.sharedName, false⟩ })

def load (i object done : Nat) (left : UInt32) : ShmSystem :=
  let c := s.sessions i
  if (s.objects object).size = 0 then s.put i { c with pc := .sigbus }
  else s.put i (c.load (s.objects object).layout object done left)

def advance (i : Nat) (answer : SysAnswer) : Option ShmSystem :=
  match (s.sessions i).pc with
  | .idle => none
  | .create => some (s.createOpen i answer)
  | .truncate object => some (s.createTruncate i object answer)
  | .mapNew object => some (s.createMap i object answer)
  | .clear object => some (s.clear i object)
  | .publish object done => some (s.publish i object done)
  | .probeOpen =>
    some (s.lookup i (fun c o => { c with pc := .probeMap o, probed := some o }) answer)
  | .probeMap object =>
    some (s.mapped i object sharedHeaderBytes (fun c => { c with pc := .read object 0 0 }) answer)
  | .read object done left => some (s.load i object done left)
  | .remapOpen total => some (s.lookup i (fun c o => { c with pc := .remapMap total o }) answer)
  | .remapMap total object =>
    some (s.mapped i object total
      (fun c => { c with ep.headerMapped := true, ep.opened := true }.answer .okStatus) answer)
  | .sigbus => none

def use (i : Nat) (shm : Shm) (members : LocalMembers) : ShmSystem :=
  let c := s.sessions i
  let used := match c.backend.base with
    | some object =>
      s.setObject object { s.objects object with shm := shm, uses := (s.objects object).uses + 1 }
    | none => s
  used.put i { c with ep := c.ep.withLocal members }

def step : SessionLabel → Option ShmSystem
  | .openServer i options =>
    if (s.sessions i).pc = .idle then some (s.put i ((s.sessions i).beginServer options)) else none
  | .openClient i options =>
    if (s.sessions i).pc = .idle then some (s.put i ((s.sessions i).beginClient options)) else none
  | .close i => if (s.sessions i).pc = .idle then some (s.close i) else none
  | .advance i answer => s.advance i answer
  | .use i shm members =>
    if (s.sessions i).pc = .idle ∧ (s.sessions i).ep.opened = true then some (s.use i shm members)
    else none

end ShmSystem

end Corekit.Ipc
