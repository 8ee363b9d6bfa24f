import Corekit.Api.Status
import Corekit.Foundation.ByteMemory
import Corekit.Foundation.Command

/-! The shared-memory channel. `SharedHeader` is split into the constants that
`MapAsServer` publishes once (`HeaderLayout`) and the atomics with the ring
bytes (`Shm`). Every access to the latter is an operation of `ShmOp`, in the
order of the source, so that the same definitions serve whole calls and
interleaved ones. Indices and counters are 64-bit: sums wrap at `2 ^ 64`. -/
namespace Corekit.Ipc
open Corekit.Api Corekit.Foundation

abbrev Message := List UInt8

def kChannelMagic : UInt32 := 0x4C4B4950
def kChannelVersion : UInt32 := 2
def kFrameData : Nat := 0
def kFrameWrap : Nat := 1

/-- `sizeof(FrameHeader)`: two 32-bit words. -/
def frameHeaderBytes : Nat := 8

/-- `sizeof(SharedHeader)`: four 64-byte lines. -/
def sharedHeaderBytes : Nat := 256

structure ChannelOptions where
  name : String
  capacity : UInt32 := 1024
  messageMaxBytes : UInt32 := 4096
  dropWhenFull : Bool := true
  deriving DecidableEq, Repr

def buildSharedName (name : String) : String := "/corekit." ++ name

/-- No argument of the source exceeds `2 ^ 33`, so nothing wraps here. -/
def alignUp (value align : Nat) : Nat := (value + align - 1) / align * align

def nextPow2 (v : UInt32) : UInt32 :=
  if v ≤ 1 then 1
  else
    let v := v - 1
    let v := v ||| v >>> 1
    let v := v ||| v >>> 2
    let v := v ||| v >>> 4
    let v := v ||| v >>> 8
    let v := v ||| v >>> 16
    v + 1

def frameBytes (payloadSize : Nat) : Nat :=
  alignUp (frameHeaderBytes + payloadSize) 8

def validateOptions (options : ChannelOptions) : Status :=
  if options.name.isEmpty then ⟨.kInvalidArgument, "channel name is empty", .kCore⟩
  else if options.capacity = 0 then ⟨.kInvalidArgument, "capacity must be > 0", .kCore⟩
  else if options.messageMaxBytes = 0 then
    ⟨.kInvalidArgument, "message_max_bytes must be > 0", .kCore⟩
  else .okStatus

def totalBytes (options : ChannelOptions) : Nat :=
  let stride := frameBytes options.messageMaxBytes.toNat
  let target := stride * options.capacity.toNat % 2 ^ 64
  if target > 2 ^ 32 - 1 then 0
  else sharedHeaderBytes + (nextPow2 (UInt32.ofNat target)).toNat

structure HeaderLayout where
  magic : UInt32
  version : UInt32
  capacity : UInt32
  messageMaxBytes : UInt32
  ringBytes : UInt32
  ringMask : UInt32
  deriving DecidableEq, Repr

structure Shm where
  writeIndex : Nat
  readIndex : Nat
  sendOk : Nat
  recvOk : Nat
  droppedWhenFull : Nat
  ring : Mem

/-- A mapped region as the server leaves it: `mappedBytes` is what the backend
was asked for. -/
structure Region where
  layout : HeaderLayout
  shm : Shm
  mappedBytes : Nat

/-- The process-local part of one channel object. -/
structure Endpoint where
  options : ChannelOptions := { name := "" }
  sharedName : String := ""
  localWouldBlockSend : Nat := 0
  localWouldBlockRecv : Nat := 0
  localPendingDrop : Nat := 0
  localOutbox : List Message := []
  opened : Bool := false
  headerMapped : Bool := false
  deriving DecidableEq, Repr

def localOutboxLimit (ep : Endpoint) : Nat :=
  max 4 (ep.options.capacity.toNat * 2)

def serverLayout (options : ChannelOptions) : HeaderLayout :=
  let stride := UInt32.ofNat (frameBytes options.messageMaxBytes.toNat)
  let target := stride * options.capacity
  let ringBytes := nextPow2 target
  { magic := kChannelMagic
    version := kChannelVersion
    capacity := options.capacity
    messageMaxBytes := options.messageMaxBytes
    ringBytes := ringBytes
    ringMask := ringBytes - 1 }

def clearedShm : Shm := ⟨0, 0, 0, 0, 0, fun _ => 0⟩

/-- `create` is the backend's answer to `Create(shared_name_, total_bytes)`. -/
def mapAsServer (ep : Endpoint) (create : Status) :
    Status × Endpoint × Option Region :=
  let total := totalBytes ep.options
  if total = 0 then
    (⟨.kInvalidArgument, "channel memory size is too large", .kCore⟩, ep, none)
  else if create.ok then
    (.okStatus, { ep with headerMapped := true, opened := true },
      some ⟨serverLayout ep.options, clearedShm, total⟩)
  else (create, ep, none)

def openServer (ep : Endpoint) (options : ChannelOptions) (create : Status) :
    Status × Endpoint × Option Region :=
  if ep.opened then
    (⟨.kAlreadyInitialized, "channel already opened", .kCore⟩, ep, none)
  else if (validateOptions options).ok then
    mapAsServer { ep with
      options := options
      sharedName := buildSharedName options.name
      localOutbox := []
      localPendingDrop := 0 } create
  else (validateOptions options, ep, none)

/-- `probe` and `remap` are the backend's answers to the two `Open` calls on
the region that carries the shared name. -/
def mapAsClient (ep : Endpoint) (region : Region) (probe remap : Status) :
    Status × Endpoint :=
  if !probe.ok then (probe, ep)
  else if region.layout.magic ≠ kChannelMagic ∨
      region.layout.version ≠ kChannelVersion then
    (⟨.kInternalError, "channel header magic/version mismatch", .kCore⟩, ep)
  else if region.layout.ringBytes = 0 ∨
      (region.layout.ringBytes &&& (region.layout.ringBytes - 1)) ≠ 0 then
    (⟨.kInternalError, "channel ring_bytes is invalid", .kCore⟩, ep)
  else
    let ep := { ep with options := { ep.options with
      capacity := region.layout.capacity
      messageMaxBytes := region.layout.messageMaxBytes } }
    if !remap.ok then (remap, ep)
    else (.okStatus, { ep with headerMapped := true, opened := true })

def openClient (ep : Endpoint) (options : ChannelOptions) (region : Region)
    (probe remap : Status) : Status × Endpoint :=
  if ep.opened then
    (⟨.kAlreadyInitialized, "channel already opened", .kCore⟩, ep)
  else if options.name.isEmpty then
    (⟨.kInvalidArgument, "channel name is empty", .kCore⟩, ep)
  else
    mapAsClient { ep with
      options := options
      sharedName := buildSharedName options.name
      localOutbox := []
      localPendingDrop := 0 } region probe remap

def contiguousFrom (layout : HeaderLayout) (index : Nat) : Nat :=
  layout.ringBytes.toNat - (index &&& layout.ringMask.toNat)

def usedBytes (layout : HeaderLayout) (write read : Nat) : Nat :=
  if write < read then layout.ringBytes.toNat
  else if write - read > layout.ringBytes.toNat then layout.ringBytes.toNat
  else write - read

/-- `const void* data, std::uint32_t size`. A non-null `data` points to the
`size` bytes listed. -/
structure SendBuffer where
  data : Option Message
  size : UInt32
  readable : ∀ bytes, data = some bytes → bytes.length = size.toNat

def SendBuffer.message (buffer : SendBuffer) : Message := buffer.data.getD []

structure RecvBuffer where
  isNull : Bool
  size : UInt32

/-- The observable actions of a call, one per access to shared memory.
`accept` is `local_outbox_.push_back`; `sent` and `received` are the returns
of `TrySend` and `TryRecv`. These three only extend the history. -/
inductive ShmOp where
  | loadWriteIndex
  | loadReadIndex
  | storeWriteIndex (value : Nat)
  | storeReadIndex (value : Nat)
  | loadU32 (off : Nat)
  | storeU32 (off value : Nat)
  | copyOut (off len : Nat)
  | copyIn (off : Nat) (bytes : List UInt8)
  | addSendOk
  | addRecvOk
  | addDropped
  | accept (message : Message)
  | sent (buffer : SendBuffer) (status : Status)
  | received (result : Result Message)

@[reducible] def ShmOp.Res : ShmOp → Type
  | .loadWriteIndex => Nat
  | .loadReadIndex => Nat
  | .loadU32 _ => Nat
  | .copyOut _ _ => List UInt8
  | _ => Unit

abbrev ShmCmd (α : Type) := Cmd ShmOp ShmOp.Res α

/-- Shared memory together with the history of the calls made on it. -/
structure World where
  shm : Shm
  accepted : List Message := []
  sends : List (SendBuffer × Status) := []
  recvs : List (Result Message) := []

def exec : Handler ShmOp ShmOp.Res World
  | .loadWriteIndex, w => (w.shm.writeIndex, w)
  | .loadReadIndex, w => (w.shm.readIndex, w)
  | .storeWriteIndex value, w => ((), { w with shm.writeIndex := value })
  | .storeReadIndex value, w => ((), { w with shm.readIndex := value })
  | .loadU32 off, w => (w.shm.ring.loadLE 4 off, w)
  | .storeU32 off value, w =>
      ((), { w with shm.ring := w.shm.ring.storeLE 4 off value })
  | .copyOut off len, w => (w.shm.ring.read off len, w)
  | .copyIn off bytes, w => ((), { w with shm.ring := w.shm.ring.write off bytes })
  | .addSendOk, w => ((), { w with shm.sendOk := (w.shm.sendOk + 1) % 2 ^ 64 })
  | .addRecvOk, w => ((), { w with shm.recvOk := (w.shm.recvOk + 1) % 2 ^ 64 })
  | .addDropped, w =>
      ((), { w with shm.droppedWhenFull := (w.shm.droppedWhenFull + 1) % 2 ^ 64 })
  | .accept message, w => ((), { w with accepted := w.accepted ++ [message] })
  | .sent buffer status, w => ((), { w with sends := w.sends ++ [(buffer, status)] })
  | .received result, w => ((), { w with recvs := w.recvs ++ [result] })

def loadWriteIndex : ShmCmd Nat := Cmd.perform ShmOp.loadWriteIndex
def loadReadIndex : ShmCmd Nat := Cmd.perform ShmOp.loadReadIndex
def loadU32 (off : Nat) : ShmCmd Nat := Cmd.perform (ShmOp.loadU32 off)
def copyOut (off len : Nat) : ShmCmd (List UInt8) :=
  Cmd.perform (ShmOp.copyOut off len)

def act (o : ShmOp) : ShmCmd Unit := .op o fun _ => .ret ()

def blockSend (ep : Endpoint) : Endpoint :=
  { ep with localWouldBlockSend := (ep.localWouldBlockSend + 1) % 2 ^ 64 }

def blockRecv (ep : Endpoint) : Endpoint :=
  { ep with localWouldBlockRecv := (ep.localWouldBlockRecv + 1) % 2 ^ 64 }

def queueFull : Status := ⟨.kWouldBlock, "channel queue is full", .kCore⟩

/-- The end of `TryWriteOneToShared`: header, payload and padding at `write`,
then the index store that publishes them. -/
def publishFrame (layout : HeaderLayout) (ep : Endpoint) (message : Message)
    (write : Nat) : ShmCmd (Status × Endpoint) := do
  let frame := frameBytes message.length
  let off := write &&& layout.ringMask.toNat
  act (.storeU32 off message.length)
  act (.storeU32 (off + 4) kFrameData)
  if message.length > 0 then
    act (.copyIn (off + frameHeaderBytes) message)
  let pad := frame - frameHeaderBytes - message.length
  if pad > 0 then
    act (.copyIn (off + frameHeaderBytes + message.length)
      (List.replicate pad 0))
  act (.storeWriteIndex ((write + frame) % 2 ^ 64))
  act .addSendOk
  return (.okStatus, ep)

/-- `message.length` is the 32-bit `size`: every message in an outbox came
through `TrySend`, whose size argument has 32 bits. -/
def tryWriteOneToShared (layout : HeaderLayout) (ep : Endpoint)
    (message : Message) : ShmCmd (Status × Endpoint) := do
  let ringBytes := layout.ringBytes.toNat
  let frame := frameBytes message.length
  if frame > ringBytes then
    return (⟨.kInvalidArgument, "frame exceeds ring size", .kCore⟩, ep)
  else
    let write ← loadWriteIndex
    let read ← loadReadIndex
    let freeBytes := ringBytes - usedBytes layout write read
    let contiguous := contiguousFrom layout write
    if contiguous < frameHeaderBytes ∨ contiguous < frame then
      if freeBytes < contiguous + frame then
        return (queueFull, blockSend ep)
      else
        if contiguous ≥ frameHeaderBytes then
          let tailOff := write &&& layout.ringMask.toNat
          act (.storeU32 tailOff 0)
          act (.storeU32 (tailOff + 4) kFrameWrap)
        let write := (write + contiguous) % 2 ^ 64
        act (.storeWriteIndex write)
        let read ← loadReadIndex
        let freeBytes := ringBytes - usedBytes layout write read
        if freeBytes < frame then
          return (queueFull, blockSend ep)
        else publishFrame layout ep message write
    else if freeBytes < frame then
      return (queueFull, blockSend ep)
    else publishFrame layout ep message write

/-- The loop of `ProcessIoOnce`, by recursion on the outbox: each round pops
the front message or leaves the loop. -/
def flushOutbox (layout : HeaderLayout) :
    List Message → Nat → Endpoint → ShmCmd Endpoint
  | [], _, ep => return { ep with localOutbox := [] }
  | message :: rest, remaining, ep => do
    if remaining = 0 then
      return { ep with localOutbox := message :: rest }
    else
      let (status, ep) ← tryWriteOneToShared layout ep message
      if status.ok then flushOutbox layout rest (remaining - 1) ep
      else if status.code = .kWouldBlock then
        return { ep with localOutbox := message :: rest }
      else flushOutbox layout rest remaining ep

def processIoOnce (layout : HeaderLayout) (ep : Endpoint) (writeBudget : Nat) :
    ShmCmd Endpoint :=
  flushOutbox layout ep.localOutbox writeBudget ep

def trySend (layout : HeaderLayout) (ep : Endpoint) (buffer : SendBuffer) :
    ShmCmd (Status × Endpoint) := do
  if !ep.opened || !ep.headerMapped then
    return (⟨.kNotInitialized, "channel is not opened", .kCore⟩, ep)
  else if buffer.size > 0 ∧ buffer.data = none then
    return (⟨.kInvalidArgument, "data is null", .kCore⟩, ep)
  else if buffer.size > ep.options.messageMaxBytes then
    return (⟨.kInvalidArgument, "message exceeds max bytes", .kCore⟩, ep)
  else
    let ep ← processIoOnce layout ep 1
    if ep.localOutbox.length ≥ localOutboxLimit ep then
      let ep := blockSend ep
      if ep.options.dropWhenFull then
        act .addDropped
        return (⟨.kWouldBlock, "local pending queue is full", .kCore⟩,
          { ep with localPendingDrop := (ep.localPendingDrop + 1) % 2 ^ 64 })
      else
        return (⟨.kWouldBlock, "local pending queue is full", .kCore⟩, ep)
    else
      act (.accept buffer.message)
      let ep := { ep with localOutbox := ep.localOutbox ++ [buffer.message] }
      let flushBudget := max 1 (min 8 (localOutboxLimit ep))
      let ep ← processIoOnce layout ep flushBudget
      return (.okStatus, ep)

/-- The locals of `TryRecv` at the head of its loop. -/
structure RecvLoop where
  bufferSize : Nat
  read : Nat
  write : Nat
  contiguous : Nat

/-- Where `TryRecv` goes next: round the loop again, or out with a result. -/
abbrev RecvNext := RecvLoop ⊕ Result Message

def noMessage : Status := ⟨.kWouldBlock, "channel has no message", .kCore⟩

def advanceRead (layout : HeaderLayout) (ep : Endpoint) (bufferSize read contiguous : Nat) :
    ShmCmd (RecvNext × Endpoint) := do
  let read := (read + contiguous) % 2 ^ 64
  act (.storeReadIndex read)
  let write ← loadWriteIndex
  if read ≥ write then return (.inr (.error noMessage), blockRecv ep)
  else return (.inl ⟨bufferSize, read, write, contiguousFrom layout read⟩, ep)

/-- The `contiguous < sizeof(FrameHeader)` skip in front of a loop round. -/
def skipShortTail (layout : HeaderLayout) (ep : Endpoint) (st : RecvLoop) :
    ShmCmd (RecvNext × Endpoint) :=
  if st.contiguous < frameHeaderBytes then
    advanceRead layout ep st.bufferSize st.read st.contiguous
  else return (.inl st, ep)

def tryRecv (layout : HeaderLayout) (ep : Endpoint) (buffer : RecvBuffer) :
    ShmCmd (RecvNext × Endpoint) := do
  if !ep.opened || !ep.headerMapped then
    return (.inr (.error ⟨.kNotInitialized, "channel is not opened", .kCore⟩), ep)
  else if buffer.size > 0 ∧ buffer.isNull then
    return (.inr (.error ⟨.kInvalidArgument, "buffer is null", .kCore⟩), ep)
  else
    let ep ← processIoOnce layout ep 1
    let read ← loadReadIndex
    let write ← loadWriteIndex
    if read ≥ write then return (.inr (.error noMessage), blockRecv ep)
    else
      skipShortTail layout ep
        ⟨buffer.size.toNat, read, write, contiguousFrom layout read⟩

def tryRecvRound (layout : HeaderLayout) (ep : Endpoint) (st : RecvLoop) :
    ShmCmd (RecvNext × Endpoint) := do
  let off := st.read &&& layout.ringMask.toNat
  let reserved ← loadU32 (off + 4)
  if reserved = kFrameWrap then
    let (next, ep) ← advanceRead layout ep st.bufferSize st.read st.contiguous
    match next with
    | .inl st => skipShortTail layout ep st
    | .inr result => return (.inr result, ep)
  else if reserved ≠ kFrameData then
    return (.inr (.error ⟨.kInternalError, "corrupted frame marker", .kCore⟩), ep)
  else
    let required ← loadU32 off
    if required > ep.options.messageMaxBytes.toNat then
      return (.inr (.error ⟨.kInternalError, "corrupted frame size", .kCore⟩), ep)
    else
      let frame := frameBytes required
      if frame > st.contiguous ∨ (st.read + frame) % 2 ^ 64 > st.write then
        return (.inr (.error ⟨.kWouldBlock, "incomplete frame", .kCore⟩), blockRecv ep)
      else if required > st.bufferSize then
        return (.inr (.error ⟨.kBufferTooSmall,
          "buffer too small, required=" ++ toString required, .kCore⟩), ep)
      else
        let payload ← if required > 0 then copyOut (off + frameHeaderBytes) required
          else pure []
        act (.storeReadIndex ((st.read + frame) % 2 ^ 64))
        act .addRecvOk
        return (.inr (.ok payload), ep)

/-- The endpoint that calls `TrySend`, one call after another. -/
def producer (layout : HeaderLayout) : Thread ShmOp ShmOp.Res where
  Point := Endpoint
  Input := SendBuffer
  resume ep buffer := some do
    let (status, ep) ← trySend layout ep buffer
    act (.sent buffer status)
    return ep

/-- Between calls, or at the head of the loop of a call in progress. -/
inductive RecvPoint where
  | idle (ep : Endpoint)
  | loop (ep : Endpoint) (st : RecvLoop)

def settleRecv : RecvNext × Endpoint → ShmCmd RecvPoint
  | (.inl st, ep) => return .loop ep st
  | (.inr result, ep) => do
    act (.received result)
    return .idle ep

/-- The endpoint that calls `TryRecv`. At a loop head the input is a mere tick. -/
def consumer (layout : HeaderLayout) : Thread ShmOp ShmOp.Res where
  Point := RecvPoint
  Input := RecvBuffer
  resume
    | .idle ep, buffer => some (tryRecv layout ep buffer >>= settleRecv)
    | .loop ep st, _ => some (tryRecvRound layout ep st >>= settleRecv)

end Corekit.Ipc
