import Corekit.Ipc.Delivery
import Corekit.Ipc.WholeCalls

/-! The representation invariant in terms of the shared fields alone. It relies
on indices that only grow, so it holds as long as no call writes within a ring
length of the end of the 64-bit index space. -/
namespace Corekit.Ipc
open Corekit.Api Corekit.Foundation

/-- What the shared header and ring bytes say between two calls. -/
structure RingRep (layout : HeaderLayout) (shm : Shm) : Prop where
  read_le : shm.readIndex ≤ shm.writeIndex
  window : shm.writeIndex ≤ shm.readIndex + layout.ringBytes.toNat
  read_align : 8 ∣ shm.readIndex
  write_align : 8 ∣ shm.writeIndex
  frames : ∃ messages, Frames layout.ringBytes.toNat layout.messageMaxBytes.toNat shm.ring
    shm.readIndex shm.writeIndex messages

def HoldsData (layout : HeaderLayout) (shm : Shm) : Prop :=
  ∃ message rest, Frames layout.ringBytes.toNat layout.messageMaxBytes.toNat shm.ring
    shm.readIndex shm.writeIndex (message :: rest)

/-- What a whole `TryRecv` returns: `flushed` is the shared memory after the
flush that the call makes first. -/
structure RecvSound (layout : HeaderLayout) (buffer : RecvBuffer) (flushed : Shm)
    (answer : Result Message) : Prop where
  intact : ∀ status, answer = .error status →
    status.code ≠ .kInternalError ∧ status.message ≠ "incomplete frame"
  blocks : ¬(buffer.size > 0 ∧ buffer.isNull = true) →
    ((∃ status, answer = .error status ∧ status.code = .kWouldBlock) ↔ ¬ HoldsData layout flushed)

/-- A call that writes nothing, or that starts more than a ring length before
the end of the index space. -/
def BelowLastLap (layout : HeaderLayout) (s : Peers) : Side × Call → Prop
  | (_, .trySend _) => s.world.shm.readIndex + layout.ringBytes.toNat < 2 ^ 64
  | (side, .tryRecv _ _) => (s.endpoint side).localOutbox = [] ∨
      s.world.shm.readIndex + layout.ringBytes.toNat < 2 ^ 64

instance (layout : HeaderLayout) (s : Peers) (label : Side × Call) :
    Decidable (BelowLastLap layout s label) :=
  match label with
  | (_, .trySend _) => inferInstanceAs (Decidable (_ < _))
  | (_, .tryRecv _ _) => inferInstanceAs (Decidable (_ ∨ _))

def Peers.stepBelow (layout : HeaderLayout) (s : Peers) (label : Side × Call) : Option Peers :=
  if BelowLastLap layout s label then s.step layout label else none

section Below

variable {layout : HeaderLayout} {s s' : Peers} {side : Side}

structure Peers.Below (layout : HeaderLayout) (s : Peers) : Prop where
  ring : ∃ written messages, written < 2 ^ 64 ∧ RingState layout.ringBytes.toNat
    layout.messageMaxBytes.toNat s.world.shm written messages
  ready : ∀ side, Ready layout (s.endpoint side)

theorem RingState.ringRep {written : Nat} {shm : Shm} {messages : List Message}
    (h : RingState layout.ringBytes.toNat layout.messageMaxBytes.toNat shm written messages)
    (hlt : written < 2 ^ 64) : RingRep layout shm := by
  have hwrite : shm.writeIndex = written := by rw [h.write_eq, Nat.mod_eq_of_lt hlt]
  exact {
    read_le := hwrite ▸ h.read_le
    window := hwrite ▸ h.window
    read_align := h.read_align
    write_align := hwrite ▸ h.written_align
    frames := ⟨messages, hwrite ▸ h.frames⟩ }

theorem RingState.holdsData_iff {size written : Nat} {shm : Shm} {messages : List Message}
    (geo : Geometry layout size) (hsize : layout.ringBytes.toNat = size)
    (h : RingState size layout.messageMaxBytes.toNat shm written messages)
    (hlt : written < 2 ^ 64) : HoldsData layout shm ↔ messages ≠ [] := by
  have hwrite : shm.writeIndex = written := by rw [h.write_eq, Nat.mod_eq_of_lt hlt]
  unfold HoldsData
  rw [hwrite, hsize]
  constructor
  · rintro ⟨message, rest, hframes⟩
    rw [h.frames.unique hframes (by have := geo.low; omega)]
    simp
  · intro hne
    obtain ⟨message, rest, rfl⟩ := List.exists_cons_of_ne_nil hne
    exact ⟨message, rest, h.frames⟩

theorem flush_below {written written' : Nat} {messages flushed : List Message}
    (geo : Geometry layout layout.ringBytes.toNat) (hlt : written < 2 ^ 64)
    (h : RingState layout.ringBytes.toNat layout.messageMaxBytes.toNat s.world.shm written
      messages)
    (hsafe : (s.endpoint side).localOutbox = [] ∨
      s.world.shm.readIndex + layout.ringBytes.toNat < 2 ^ 64)
    (hflush : Flushed layout.ringBytes.toNat layout.messageMaxBytes.toNat s.world messages
      (s.endpoint side).localOutbox (s.endpoint side)
      ((processIoOnce layout (s.endpoint side) 1).run exec s.world) flushed written') :
    written' < 2 ^ 64 := by
  rcases hsafe with hnil | hbelow
  · -- nothing to flush: the shared memory is as it was
    have hring := hflush.ring.toRingIndices
    rw [processIoOnce_nil layout 1 s.world hnil] at hring
    rw [hring.unique geo h.toRingIndices]
    exact hlt
  · have := hflush.ring.window
    rw [hflush.readIndex] at this
    omega

theorem takeFront_intact (bufferSize : Nat) (messages : List Message) {status : Status}
    (h : (takeFront bufferSize messages).1 = .error status) :
    status.code ≠ .kInternalError ∧ status.message ≠ "incomplete frame" := by
  cases messages with
  | nil =>
    cases Except.error.inj h
    exact ⟨by decide, by decide⟩
  | cons message rest =>
    simp only [takeFront] at h
    split at h
    · cases Except.error.inj h
      refine ⟨by simp [bufferTooSmall], ?_⟩
      intro heq
      have := congrArg String.toList heq
      simp [bufferTooSmall] at this
    · cases h

theorem takeFront_blocks (bufferSize : Nat) (messages : List Message) :
    (∃ status, (takeFront bufferSize messages).1 = .error status ∧
      status.code = .kWouldBlock) ↔ messages = [] := by
  cases messages with
  | nil => simp [takeFront, noMessage]
  | cons message rest =>
    simp only [takeFront]
    split <;> simp [bufferTooSmall]

/-- A receive that is safe to make returns within two rounds and answers what
the ring holds. -/
theorem Peers.Below.recvSound (geo : Geometry layout layout.ringBytes.toNat)
    (h : s.Below layout) (buffer : RecvBuffer) (rounds : Nat)
    (hsafe : (s.endpoint side).localOutbox = [] ∨
      s.world.shm.readIndex + layout.ringBytes.toNat < 2 ^ 64) :
    ∃ result answer,
      recvCall layout (rounds + 2) (s.endpoint side) buffer s.world = some result ∧
      result.2.recvs = s.world.recvs ++ [answer] ∧
      (∃ written messages, written < 2 ^ 64 ∧ RingState layout.ringBytes.toNat
        layout.messageMaxBytes.toNat result.2.shm written messages) ∧
      Ready layout result.1 ∧
      RecvSound layout buffer
        ((processIoOnce layout (s.endpoint side) 1).run exec s.world).2.shm answer := by
  obtain ⟨written, messages, hlt, hring⟩ := h.ring
  have hready := h.ready side
  by_cases hnull : buffer.size > 0 ∧ buffer.isNull = true
  · refine ⟨_, _, recvCall_null (rounds + 2) s.world hready hnull, rfl,
      ⟨written, messages, hlt, hring⟩, hready, ?_, fun hvalid => absurd hnull hvalid⟩
    intro status heq
    cases Except.error.inj heq
    exact ⟨by decide, by decide⟩
  · obtain ⟨flushed, written', result, hflush, hcall, hready', htake, -⟩ :=
      recvCall_take geo rounds hready hnull hring
    have hlt' := flush_below geo hlt hring hsafe hflush
    have hreceived := (htake hlt').1
    refine ⟨result, _, hcall, hreceived.history, ⟨written', _, hlt', hreceived.ring⟩, hready',
      fun status => takeFront_intact _ _, fun _ => ?_⟩
    rw [takeFront_blocks, hflush.ring.holdsData_iff geo rfl hlt', not_not]

theorem Peers.Below.step (geo : Geometry layout layout.ringBytes.toNat)
    {label : Side × Call} (h : s.Below layout) (hstep : s.stepBelow layout label = some s') :
    s'.Below layout := by
  unfold Peers.stepBelow at hstep
  split at hstep
  · rename_i hsafe
    obtain ⟨written, messages, hlt, hring⟩ := h.ring
    obtain ⟨side, call⟩ := label
    cases call with
    | trySend buffer =>
      have hbelow : s.world.shm.readIndex + layout.ringBytes.toNat < 2 ^ 64 := hsafe
      cases Option.some.inj hstep
      obtain ⟨written', messages', hring', hread, hready⟩ :=
        sendCall_ring geo buffer (h.ready side) hring
      have hwin := hring'.window
      refine ⟨⟨written', messages', by omega, ?_⟩, Peers.ready_put h.ready hready⟩
      rw [Peers.put_world]
      exact hring'
    | tryRecv buffer rounds =>
      obtain ⟨result, hcall, rfl⟩ := Option.map_eq_some_iff.mp hstep
      obtain ⟨result', _, hcall', -, hring', hready, -⟩ := h.recvSound geo buffer rounds hsafe
      have hsame : recvCall layout (rounds + 2) (s.endpoint side) buffer s.world = some result :=
        Thread.finish_mono 2 hcall
      cases Option.some.inj (hsame.symm.trans hcall')
      refine ⟨?_, Peers.ready_put h.ready hready⟩
      rw [Peers.put_world]
      exact hring'
  · cases hstep

end Below

/-- In every state that whole calls reach below the last lap, the ring is well
formed and a receive returns within two rounds with an answer that fits it.
Inside the calls too, and however they interleave, a frame header always fits
between either index and the ring end. -/
theorem ring_well_formed {options : ChannelOptions} {region : Region}
    {server client : Endpoint} (hopen : BothOpen options region server client) :
    (∀ labels s, runs (Peers.stepBelow region.layout)
        ⟨server, client, { shm := region.shm }⟩ labels = some s →
      RingRep region.layout s.world.shm ∧
      ∀ side buffer rounds, BelowLastLap region.layout s (side, .tryRecv buffer (rounds + 2)) →
        ∃ result answer,
          recvCall region.layout (rounds + 2) (s.endpoint side) buffer s.world = some result ∧
          result.2.recvs = s.world.recvs ++ [answer] ∧
          RecvSound region.layout buffer ((processIoOnce region.layout (s.endpoint side) 1).run
            exec s.world).2.shm answer) ∧
    (∀ sender receiver, (sender, receiver) = (server, client) ∨
        (sender, receiver) = (client, server) →
      ∀ labels (p : Channel region.layout), runs (Parallel.step exec)
          (Channel.start region.layout sender receiver region.shm) labels = some p →
        frameHeaderBytes ≤ contiguousFrom region.layout p.shared.shm.writeIndex ∧
        frameHeaderBytes ≤ contiguousFrom region.layout p.shared.shm.readIndex) := by
  have geo := hopen.geometry
  constructor
  · intro labels s hrun
    have hstart : Peers.Below region.layout ⟨server, client, { shm := region.shm }⟩ := by
      have hinv : Peers.Inv region.layout region.layout.ringBytes.toNat
          ⟨server, client, { shm := clearedShm }⟩ :=
        .start hopen.server_opened hopen.client_opened
      rw [hopen.shm_eq]
      exact ⟨⟨0, [], by decide, .cleared _, .nil 0⟩, hinv.ready⟩
    have hbelow := runs_invariant (fun _ _ _ h hstep => h.step geo hstep) hstart hrun
    obtain ⟨written, messages, hlt, hring⟩ := hbelow.ring
    refine ⟨hring.ringRep hlt, ?_⟩
    intro side buffer rounds hsafe
    obtain ⟨result, answer, hcall, hrecvs, -, -, hsound⟩ :=
      hbelow.recvSound geo buffer rounds hsafe
    exact ⟨result, answer, hcall, hrecvs, hsound⟩
  · intro sender receiver hroles labels p hrun
    obtain ⟨g, hinv, -, -⟩ := Channel.Inv.of_run hopen hroles hrun
    have hwrite := geo.header_fits hinv.written_align
    have hread := geo.header_fits hinv.read_align
    rw [geo.contiguousFrom_eq, geo.contiguousFrom_eq, hinv.write_eq,
      Nat.mod_mod_of_dvd _ geo.dvd_two_pow_64]
    unfold frameHeaderBytes
    omega

/-- One slot of 8 bytes: the ring is a single frame of 16 bytes. -/
def slotOptions : ChannelOptions := { name := "c", capacity := 1, messageMaxBytes := 8 }

def slotBuffer : SendBuffer := ⟨some (List.replicate 8 0), 8, by simp⟩

def slotSend : Side × Call := (.server, .trySend slotBuffer)

def slotRecv : Side × Call := (.client, .tryRecv ⟨false, 8⟩ 2)

theorem slot_opens : BothOpen slotOptions ⟨serverLayout slotOptions, clearedShm, 272⟩
    (Peers.fresh slotOptions).server (Peers.fresh slotOptions).client :=
  ⟨⟨{}, .okStatus, rfl⟩, ⟨{}, { name := "c" }, .okStatus, .okStatus, rfl, rfl⟩⟩

/-- One message has gone through the slot, back to an empty ring: a run from the
fresh channel. -/
theorem ring_well_formed_slot :
    ∃ s, runs (Peers.stepBelow (serverLayout slotOptions)) (Peers.fresh slotOptions)
        [slotSend, slotRecv] = some s ∧ okMessages s.world.recvs = [slotBuffer.message] ∧
      RingRep (serverLayout slotOptions) s.world.shm := by
  obtain ⟨s, hrun, hs⟩ := Option.map_eq_some_iff.mp (show (runs
      (Peers.stepBelow (serverLayout slotOptions)) (Peers.fresh slotOptions)
      [slotSend, slotRecv]).map (fun s => okMessages s.world.recvs) =
      some [slotBuffer.message] by decide +kernel)
  exact ⟨s, hrun, hs, ((ring_well_formed slot_opens).1 _ s hrun).1⟩

structure SlotAfter (n : Nat) (s : Peers) : Prop where
  ready : ∀ side, Ready (serverLayout slotOptions) (s.endpoint side)
  outbox : ∀ side, (s.endpoint side).localOutbox = []
  ring : RingState 16 8 s.world.shm (16 * n) []
  read : s.world.shm.readIndex = 16 * n

structure SlotFull (n : Nat) (s : Peers) : Prop where
  ready : ∀ side, Ready (serverLayout slotOptions) (s.endpoint side)
  outbox : ∀ side, (s.endpoint side).localOutbox = []
  ring : RingState 16 8 s.world.shm (16 * n + 16) [slotBuffer.message]
  read : s.world.shm.readIndex = 16 * n

theorem slot_geometry : Geometry (serverLayout slotOptions) 16 := slot_opens.geometry

theorem SlotAfter.send {n : Nat} {s : Peers} (h : SlotAfter n s) (hlt : 16 * n < 2 ^ 64) :
    ∃ s', s.step (serverLayout slotOptions) slotSend = some s' ∧ SlotFull n s' := by
  have hready := h.ready .server
  have hroom : HasRoom 16 s.world.shm.readIndex (16 * n)
      (frameBytes slotBuffer.message.length) := by
    change HasRoom 16 s.world.shm.readIndex (16 * n) 16
    unfold HasRoom
    rw [h.read, if_pos (by omega)]
    omega
  obtain ⟨-, -, -, -, hready'⟩ := sendCall_ring slot_geometry slotBuffer hready h.ring
  obtain ⟨written, hring, hread, hout⟩ := sendCall_first slot_geometry hready
    (h.outbox .server) (by simp [slotBuffer]) (by rw [hready.maxBytes]; decide) h.ring hroom
  refine ⟨_, rfl, Peers.ready_put h.ready hready', ?_, ?_, ?_⟩
  · intro side
    cases side
    · exact hout
    · exact h.outbox .client
  · -- the ring is exactly one frame long
    have hwin := hring.window
    have hframe := hring.frames.add_frame_le
    rw [hread, h.read] at hwin hframe
    rw [← le_antisymm hwin hframe]
    exact hring
  · exact hread.trans h.read

theorem SlotFull.recv {n : Nat} {s : Peers} (h : SlotFull n s) (hlt : 16 * n + 16 < 2 ^ 64) :
    ∃ s', s.step (serverLayout slotOptions) slotRecv = some s' ∧ SlotAfter (n + 1) s' := by
  have hread := h.read
  obtain ⟨message, rest, hcons, hhead, hrest⟩ | ⟨-, hrest⟩ :=
    h.ring.frames.head_cases (by omega)
  · obtain ⟨rfl, rfl⟩ := List.cons.inj hcons
    have hcall := @recvCall_data _ _ _ _ _ _ _ ⟨false, 8⟩ slot_geometry 1 (h.ready .client)
      (h.outbox .client) (by simp) h.ring hlt hhead hrest.le (by decide)
    refine ⟨_, congrArg (Option.map _) hcall, Peers.ready_put h.ready (h.ready .client), ?_, ?_, ?_⟩
    · intro side
      cases side
      · exact h.outbox .server
      · exact h.outbox .client
    · exact h.ring.consume hlt hrest _
    · change s.world.shm.readIndex + 16 = _
      omega
  · have := hrest.add_frame_le
    rw [show frameBytes slotBuffer.message.length = 16 from rfl] at this
    omega

theorem SlotAfter.rounds (n : Nat) (hlt : 16 * n < 2 ^ 64) :
    ∃ s, runs (Peers.step (serverLayout slotOptions)) (Peers.fresh slotOptions)
      (List.replicate n [slotSend, slotRecv]).flatten = some s ∧ SlotAfter n s := by
  induction n with
  | zero =>
    have hready : ∀ side, Ready (serverLayout slotOptions)
        ((Peers.fresh slotOptions).endpoint side) := by
      intro side
      cases side
      · exact slot_opens.server_opened.ready
      · exact slot_opens.client_opened.ready
    exact ⟨_, rfl, hready, by intro side; cases side <;> rfl, ⟨.cleared 16, .nil 0⟩, rfl⟩
  | succ n ih =>
    obtain ⟨s, hrun, hs⟩ := ih (by omega)
    obtain ⟨s₁, hsend, hs₁⟩ := hs.send (by omega)
    obtain ⟨s₂, hrecv, hs₂⟩ := hs₁.recv (by omega)
    refine ⟨s₂, ?_, hs₂⟩
    rw [List.replicate_succ', List.flatten_append, runs_append]
    refine ⟨s, hrun, ?_⟩
    simp [runs, hsend, hrecv]

/-- After `2 ^ 60 - 1` rounds both indices are at `2 ^ 64 - 16`. The next send
wraps the write index to zero, below the read index. -/
theorem ring_wraps :
    ∃ s, runs (Peers.step (serverLayout slotOptions)) (Peers.fresh slotOptions)
        ((List.replicate (2 ^ 60 - 1) [slotSend, slotRecv]).flatten ++ [slotSend]) = some s ∧
      s.world.shm.writeIndex = 0 ∧ s.world.shm.readIndex = 2 ^ 64 - 16 ∧
      ¬ RingRep (serverLayout slotOptions) s.world.shm := by
  obtain ⟨s, hrun, hs⟩ := SlotAfter.rounds (2 ^ 60 - 1) (by norm_num)
  obtain ⟨s', hsend, hs'⟩ := hs.send (by norm_num)
  have hwrite : s'.world.shm.writeIndex = 0 := by
    rw [hs'.ring.write_eq]
    norm_num
  have hread : s'.world.shm.readIndex = 2 ^ 64 - 16 := by
    rw [hs'.read]
    norm_num
  refine ⟨s', runs_snoc.mpr ⟨s, hrun, hsend⟩, hwrite, hread, ?_⟩
  intro hrep
  have := hrep.read_le
  omega

end Corekit.Ipc
