import Corekit.Ipc.Channel

/-! Uninterrupted calls. Each command of the channel is run to its end on one
world, and its effect is given in closed form; callers cite these equations
and do not unfold the commands again. -/
namespace Corekit.Ipc
open Corekit.Api Corekit.Foundation

structure SameSetup (ep ep' : Endpoint) : Prop where
  options : ep'.options = ep.options
  opened : ep'.opened = ep.opened
  headerMapped : ep'.headerMapped = ep.headerMapped

def putFrame (ring : Mem) (off : Nat) (message : Message) : Mem :=
  (((ring.storeLE 4 off message.length).storeLE 4 (off + 4) kFrameData).write
    (off + frameHeaderBytes) message).write (off + frameHeaderBytes + message.length)
      (List.replicate (frameBytes message.length - frameHeaderBytes - message.length) 0)

def putWrap (ring : Mem) (off : Nat) : Mem :=
  (ring.storeLE 4 off 0).storeLE 4 (off + 4) kFrameWrap

def World.putFrame (w : World) (layout : HeaderLayout) (write : Nat)
    (message : Message) : World :=
  { w with shm := { w.shm with
      ring := Ipc.putFrame w.shm.ring (write &&& layout.ringMask.toNat) message
      writeIndex := (write + frameBytes message.length) % 2 ^ 64
      sendOk := (w.shm.sendOk + 1) % 2 ^ 64 } }

/-- A skipped tail: the marker where one fits, and the write index at the ring
start. -/
def World.skipTail (w : World) (layout : HeaderLayout) : World :=
  let contiguous := contiguousFrom layout w.shm.writeIndex
  { w with shm := { w.shm with
      ring := if contiguous ≥ frameHeaderBytes then
          putWrap w.shm.ring (w.shm.writeIndex &&& layout.ringMask.toNat)
        else w.shm.ring
      writeIndex := (w.shm.writeIndex + contiguous) % 2 ^ 64 } }

def World.freeBytes (w : World) (layout : HeaderLayout) : Nat :=
  layout.ringBytes.toNat - usedBytes layout w.shm.writeIndex w.shm.readIndex

@[simp] theorem act_bind (o : ShmOp) (f : Unit → ShmCmd α) :
    (act o).bind f = .op o fun _ => f () := rfl

@[simp] theorem loadWriteIndex_bind (f : Nat → ShmCmd α) :
    loadWriteIndex.bind f = .op .loadWriteIndex f := rfl

@[simp] theorem loadReadIndex_bind (f : Nat → ShmCmd α) :
    loadReadIndex.bind f = .op .loadReadIndex f := rfl

@[simp] theorem loadU32_bind (off : Nat) (f : Nat → ShmCmd α) :
    (loadU32 off).bind f = .op (.loadU32 off) f := rfl

@[simp] theorem copyOut_bind (off len : Nat) (f : List UInt8 → ShmCmd α) :
    (copyOut off len).bind f = .op (.copyOut off len) f := rfl

theorem publishFrame_run (layout : HeaderLayout) (ep : Endpoint)
    (message : Message) (write : Nat) (w : World) :
    (publishFrame layout ep message write).run exec w =
      ((.okStatus, ep), w.putFrame layout write message) := by
  unfold publishFrame World.putFrame putFrame
  by_cases hlen : message.length = 0
  · have hnil : message = [] := List.length_eq_zero_iff.mp hlen
    subst hnil
    simp [exec, frameBytes, alignUp, frameHeaderBytes]
  · by_cases hpad : frameBytes message.length - frameHeaderBytes - message.length = 0
    · simp [hpad, exec, Nat.pos_of_ne_zero hlen]
    · simp [exec, Nat.pos_of_ne_zero hlen, Nat.pos_of_ne_zero hpad]

theorem tryWriteOneToShared_run (layout : HeaderLayout) (ep : Endpoint)
    (message : Message) (w : World) :
    (tryWriteOneToShared layout ep message).run exec w =
      if frameBytes message.length > layout.ringBytes.toNat then
        ((⟨.kInvalidArgument, "frame exceeds ring size", .kCore⟩, ep), w)
      else if contiguousFrom layout w.shm.writeIndex < frameHeaderBytes ∨
          contiguousFrom layout w.shm.writeIndex < frameBytes message.length then
        if w.freeBytes layout <
            contiguousFrom layout w.shm.writeIndex + frameBytes message.length then
          ((queueFull, blockSend ep), w)
        else if (w.skipTail layout).freeBytes layout < frameBytes message.length then
          ((queueFull, blockSend ep), w.skipTail layout)
        else ((.okStatus, ep), (w.skipTail layout).putFrame layout
          (w.skipTail layout).shm.writeIndex message)
      else if w.freeBytes layout < frameBytes message.length then
        ((queueFull, blockSend ep), w)
      else ((.okStatus, ep), w.putFrame layout w.shm.writeIndex message) := by
  unfold tryWriteOneToShared
  simp only [Cmd.bind_eq_bind, Cmd.pure_eq_ret, loadWriteIndex_bind,
    loadReadIndex_bind, act_bind, apply_ite (Cmd.run exec), ite_apply, Cmd.run_op,
    Cmd.run_ret, publishFrame_run]
  simp only [exec, World.freeBytes, World.skipTail]
  by_cases hheader : contiguousFrom layout w.shm.writeIndex ≥ frameHeaderBytes
  · simp only [hheader, ↓reduceIte]
    rfl
  · simp only [hheader, ↓reduceIte]
    rfl

/-- A frame no longer than the ring is either published or put off. -/
theorem tryWriteOneToShared_outcome (layout : HeaderLayout) (ep : Endpoint)
    (message : Message) (w : World)
    (hfit : frameBytes message.length ≤ layout.ringBytes.toNat) :
    (((tryWriteOneToShared layout ep message).run exec w).1 = (.okStatus, ep) ∧
      ((tryWriteOneToShared layout ep message).run exec w).2.shm.sendOk =
        (w.shm.sendOk + 1) % 2 ^ 64) ∨
    (((tryWriteOneToShared layout ep message).run exec w).1 = (queueFull, blockSend ep) ∧
      ((tryWriteOneToShared layout ep message).run exec w).2.shm.sendOk =
        w.shm.sendOk) := by
  rw [tryWriteOneToShared_run, if_neg (by omega)]
  split_ifs
  · exact .inr ⟨rfl, rfl⟩
  · exact .inr ⟨rfl, rfl⟩
  · exact .inl ⟨rfl, rfl⟩
  · exact .inr ⟨rfl, rfl⟩
  · exact .inl ⟨rfl, rfl⟩

theorem flushOutbox_cons_run (layout : HeaderLayout) (message : Message)
    (rest : List Message) (remaining : Nat) (ep : Endpoint) (w : World) :
    (flushOutbox layout (message :: rest) (remaining + 1) ep).run exec w =
      let r := (tryWriteOneToShared layout ep message).run exec w
      if r.1.1.ok then (flushOutbox layout rest remaining r.1.2).run exec r.2
      else if r.1.1.code = .kWouldBlock then
        ({ r.1.2 with localOutbox := message :: rest }, r.2)
      else (flushOutbox layout rest (remaining + 1) r.1.2).run exec r.2 := by
  rw [flushOutbox, if_neg (by omega)]
  simp only [Cmd.bind_eq_bind, Cmd.run_bind, Nat.add_sub_cancel,
    apply_ite (Cmd.run exec), ite_apply, Cmd.pure_eq_ret, Cmd.run_ret]

theorem processIoOnce_nil (layout : HeaderLayout) {ep : Endpoint} (writeBudget : Nat) (w : World)
    (h : ep.localOutbox = []) : (processIoOnce layout ep writeBudget).run exec w = (ep, w) := by
  unfold processIoOnce
  rw [h, flushOutbox, ← h]
  rfl

theorem SendBuffer.message_length_le (buffer : SendBuffer) :
    buffer.message.length ≤ buffer.size.toNat := by
  unfold SendBuffer.message
  cases hdata : buffer.data with
  | none => simp
  | some bytes => exact (buffer.readable bytes hdata).le

/-- `local_outbox_.push_back`, with the history of accepted messages. -/
def enqueue (message : Message) (r : Endpoint × World) : Endpoint × World :=
  ({ r.1 with localOutbox := r.1.localOutbox ++ [message] },
    { r.2 with accepted := r.2.accepted ++ [message] })

/-- `TrySend` on an open channel with a message of an admissible size: a flush
of one, and if the outbox then has room, the message and a longer flush. -/
theorem trySend_run {layout : HeaderLayout} {ep : Endpoint} {buffer : SendBuffer} (w : World)
    (hopen : ep.opened = true) (hmapped : ep.headerMapped = true)
    (hnull : ¬(buffer.size > 0 ∧ buffer.data = none))
    (hsize : ¬ buffer.size > ep.options.messageMaxBytes) :
    (trySend layout ep buffer).run exec w =
      let r := (processIoOnce layout ep 1).run exec w
      if r.1.localOutbox.length ≥ localOutboxLimit r.1 then
        if r.1.options.dropWhenFull then
          ((⟨.kWouldBlock, "local pending queue is full", .kCore⟩,
            { blockSend r.1 with localPendingDrop := (r.1.localPendingDrop + 1) % 2 ^ 64 }),
            { r.2 with shm.droppedWhenFull := (r.2.shm.droppedWhenFull + 1) % 2 ^ 64 })
        else ((⟨.kWouldBlock, "local pending queue is full", .kCore⟩, blockSend r.1), r.2)
      else
        let q := enqueue buffer.message r
        let r := (processIoOnce layout q.1 (max 1 (min 8 (localOutboxLimit q.1)))).run exec q.2
        ((.okStatus, r.1), r.2) := by
  unfold trySend
  rw [if_neg (by simp [hopen, hmapped]), if_neg hnull, if_neg hsize]
  simp only [Cmd.bind_eq_bind, Cmd.run_bind, apply_ite (Cmd.run exec), ite_apply,
    Cmd.pure_eq_ret, Cmd.run_ret, act_bind, Cmd.run_op]
  rfl

end Corekit.Ipc
