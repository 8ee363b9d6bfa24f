import Corekit.Ipc.Ring

/-! Whole calls, one after another. Either endpoint may send and receive; every
call is run to its end before the next one starts. -/
namespace Corekit.Ipc
open Corekit.Api Corekit.Foundation

inductive Side where
  | server
  | client
  deriving DecidableEq, Repr

/-- The two open endpoints between calls. -/
structure Peers where
  server : Endpoint
  client : Endpoint
  world : World

def Peers.endpoint (s : Peers) : Side → Endpoint
  | .server => s.server
  | .client => s.client

def Peers.put (s : Peers) (side : Side) (result : Endpoint × World) : Peers :=
  match side with
  | .server => { s with server := result.1, world := result.2 }
  | .client => { s with client := result.1, world := result.2 }

def sendCall (layout : HeaderLayout) (ep : Endpoint) (buffer : SendBuffer) (w : World) :
    Endpoint × World :=
  Cmd.run exec (do
    let (status, ep) ← trySend layout ep buffer
    act (.sent buffer status)
    return ep) w

def RecvPoint.returned : RecvPoint → Option Endpoint
  | .idle ep => some ep
  | .loop _ _ => none

/-- `none` when the loop has not returned after that many rounds. -/
def recvCall (layout : HeaderLayout) (rounds : Nat) (ep : Endpoint) (buffer : RecvBuffer)
    (w : World) : Option (Endpoint × World) :=
  (consumer layout).finish exec buffer RecvPoint.returned rounds
    (tryRecv layout ep buffer >>= settleRecv) w

inductive Call where
  | trySend (buffer : SendBuffer)
  | tryRecv (buffer : RecvBuffer) (rounds : Nat)

def Peers.step (layout : HeaderLayout) (s : Peers) : Side × Call → Option Peers
  | (side, .trySend buffer) =>
      some (s.put side (sendCall layout (s.endpoint side) buffer s.world))
  | (side, .tryRecv buffer rounds) =>
      (recvCall layout rounds (s.endpoint side) buffer s.world).map (s.put side)

def Peers.fresh (options : ChannelOptions) : Peers :=
  let ep : Endpoint :=
    { options := options
      sharedName := buildSharedName options.name
      opened := true
      headerMapped := true }
  ⟨ep, ep, { shm := clearedShm }⟩

/-- The ring between two calls: its indices and the messages it holds. -/
structure RingState (size maxBytes : Nat) (shm : Shm) (written : Nat)
    (messages : List Message) : Prop extends RingIndices size shm written where
  frames : Frames size maxBytes shm.ring shm.readIndex written messages

/-- Space for a frame at the write index, where a skipped tail is charged too.
Nothing can be written once the index has reached `2 ^ 64`. -/
def HasRoom (size read written frame : Nat) : Prop :=
  if frame ≤ size - written % size then
    written < 2 ^ 64 ∧ written + frame ≤ read + size
  else
    written + (size - written % size) < 2 ^ 64 ∧
      written + (size - written % size) + frame ≤ read + size

section Writing

variable {layout : HeaderLayout} {size written : Nat} {w : World} {messages : List Message}
  {message : Message}

theorem RingState.putFrame (geo : Geometry layout size)
    (h : RingState size layout.messageMaxBytes.toNat w.shm written messages)
    (hlen : message.length ≤ layout.messageMaxBytes.toNat) (hlt : written < 2 ^ 64)
    (hfit : written % size + frameBytes message.length ≤ size)
    (hroom : written + frameBytes message.length ≤ w.shm.readIndex + size) :
    RingState size layout.messageMaxBytes.toNat (w.putFrame layout w.shm.writeIndex message).shm
      (written + frameBytes message.length) (messages ++ [message]) := by
  have hpos : 0 < size := by have := geo.low; omega
  have hlap := lap_end_le hpos geo.dvd_two_pow_64 hlt
  have hwrite : w.shm.writeIndex = written := by rw [h.write_eq, Nat.mod_eq_of_lt hlt]
  have hmax := layout.messageMaxBytes.toNat_lt
  have hread := h.read_le
  unfold World.putFrame
  rw [geo.and_mask, hwrite]
  exact {
    write_eq := rfl
    read_le := by dsimp only; omega
    window := hroom
    read_lt := h.read_lt
    written_le := by omega
    read_align := h.read_align
    written_align := Nat.dvd_add h.written_align (eight_dvd_frameBytes _)
    frames := h.frames.publish geo h.read_align hlen hmax hfit hroom }

theorem RingState.skipTail (geo : Geometry layout size)
    (h : RingState size layout.messageMaxBytes.toNat w.shm written messages)
    (hlt : written < 2 ^ 64)
    (hroom : written + (size - written % size) ≤ w.shm.readIndex + size) :
    RingState size layout.messageMaxBytes.toNat (w.skipTail layout).shm
      (written + (size - written % size)) messages := by
  have hpos : 0 < size := by have := geo.low; omega
  have hlap := lap_end_le hpos geo.dvd_two_pow_64 hlt
  have hhead := geo.header_fits h.written_align
  have hwrite : w.shm.writeIndex = written := by rw [h.write_eq, Nat.mod_eq_of_lt hlt]
  have hread := h.read_le
  unfold World.skipTail
  simp only [geo.and_mask, geo.contiguousFrom_eq, frameHeaderBytes, hwrite]
  rw [if_pos (by omega)]
  exact {
    write_eq := rfl
    read_le := by dsimp only; omega
    window := hroom
    read_lt := h.read_lt
    written_le := hlap
    read_align := h.read_align
    written_align := by rw [lap_end_eq _ hpos]; exact geo.eight_dvd.mul_right _
    frames := h.frames.publishWrap geo h.read_align h.written_align hroom }

theorem RingState.tryWrite (geo : Geometry layout size) (ep : Endpoint)
    (h : RingState size layout.messageMaxBytes.toNat w.shm written messages)
    (hlen : message.length ≤ layout.messageMaxBytes.toNat) :
    ∃ world written', world.shm.readIndex = w.shm.readIndex ∧ world.recvs = w.recvs ∧
      ((HasRoom size w.shm.readIndex written (frameBytes message.length) ∧
        (tryWriteOneToShared layout ep message).run exec w = ((.okStatus, ep), world) ∧
        RingState size layout.messageMaxBytes.toNat world.shm written'
          (messages ++ [message])) ∨
      (¬HasRoom size w.shm.readIndex written (frameBytes message.length) ∧
        (tryWriteOneToShared layout ep message).run exec w =
          ((queueFull, blockSend ep), world) ∧
        RingState size layout.messageMaxBytes.toNat world.shm written' messages)) := by
  have hframe := geo.frame_fits hlen
  have hhead := header_le_frameBytes message.length
  have hpos : 0 < size := by have := geo.low; omega
  have hfit := geo.header_fits h.written_align
  have hread := h.read_le
  have hle := h.written_le
  have hmod := Nat.mod_lt written hpos
  have hfree : w.freeBytes layout =
      if written < 2 ^ 64 then w.shm.readIndex + size - written else 0 := h.freeBytes_eq geo
  have hmask : w.shm.writeIndex % size = written % size := by
    rw [h.write_eq, Nat.mod_mod_of_dvd _ geo.dvd_two_pow_64]
  rw [tryWriteOneToShared_run, if_neg (by rw [geo.ringBytes]; omega)]
  simp only [geo.contiguousFrom_eq, hmask, frameHeaderBytes]
  unfold HasRoom
  by_cases hshort : frameBytes message.length ≤ size - written % size
  · rw [if_pos hshort, if_neg (by omega)]
    by_cases hroom : w.freeBytes layout < frameBytes message.length
    · rw [if_pos hroom]
      refine ⟨w, written, rfl, rfl, .inr ⟨?_, rfl, h⟩⟩
      rintro ⟨hlt, hspace⟩
      rw [hfree, if_pos hlt] at hroom
      omega
    · rw [if_neg hroom]
      have hlt : written < 2 ^ 64 := by
        by_contra hge
        rw [hfree, if_neg hge] at hroom
        omega
      rw [hfree, if_pos hlt] at hroom
      exact ⟨w.putFrame layout _ message, _, rfl, rfl, .inl ⟨⟨hlt, by omega⟩, rfl,
        h.putFrame geo hlen hlt (by omega) (by omega)⟩⟩
  · rw [if_neg hshort, if_pos (by omega)]
    by_cases hroom : w.freeBytes layout < size - written % size + frameBytes message.length
    · rw [if_pos hroom]
      refine ⟨w, written, rfl, rfl, .inr ⟨?_, rfl, h⟩⟩
      rintro ⟨hlt, hspace⟩
      rw [hfree, if_pos (by omega)] at hroom
      omega
    · rw [if_neg hroom]
      have hlt : written < 2 ^ 64 := by
        by_contra hge
        rw [hfree, if_neg hge] at hroom
        omega
      rw [hfree, if_pos hlt] at hroom
      have hskip := h.skipTail geo hlt (by omega)
      have hfree' : (w.skipTail layout).freeBytes layout = _ := hskip.freeBytes_eq geo
      have hskipRead : (w.skipTail layout).shm.readIndex = w.shm.readIndex := rfl
      by_cases hlast : written + (size - written % size) < 2 ^ 64
      · rw [if_pos hlast, hskipRead] at hfree'
        rw [if_neg (by omega)]
        refine ⟨(w.skipTail layout).putFrame layout _ message, _, rfl, rfl,
          .inl ⟨⟨hlast, by omega⟩, rfl, hskip.putFrame geo hlen hlast ?_ ?_⟩⟩
        · rw [lap_end_mod _ hpos]
          omega
        · omega
      · -- the skip ended at `2 ^ 64`: the index reads zero and the ring seems full
        rw [if_neg hlast] at hfree'
        rw [if_pos (by omega)]
        exact ⟨w.skipTail layout, _, rfl, rfl, .inr ⟨fun hroom => hlast hroom.1, rfl, hskip⟩⟩

/-- What a flush has done to an endpoint with this outbox and to a ring with
these messages. -/
structure Flushed (size maxBytes : Nat) (w : World) (messages outbox : List Message)
    (ep : Endpoint) (result : Endpoint × World) (flushed : List Message) (written : Nat) :
    Prop where
  outbox : outbox = flushed ++ result.1.localOutbox
  ring : RingState size maxBytes result.2.shm written (messages ++ flushed)
  readIndex : result.2.shm.readIndex = w.shm.readIndex
  recvs : result.2.recvs = w.recvs
  setup : SameSetup ep result.1

theorem Flushed.none {maxBytes : Nat} {outbox : List Message} {ep : Endpoint}
    {result : Endpoint × World} (houtbox : result.1.localOutbox = outbox)
    (hring : RingState size maxBytes result.2.shm written messages)
    (hread : result.2.shm.readIndex = w.shm.readIndex) (hrecvs : result.2.recvs = w.recvs)
    (hsetup : SameSetup ep result.1) :
    Flushed size maxBytes w messages outbox ep result [] written :=
  ⟨houtbox.symm, by rw [List.append_nil]; exact hring, hread, hrecvs, hsetup⟩

theorem Flushed.cons {maxBytes : Nat} {world : World} {rest flushed : List Message}
    {ep : Endpoint} {result : Endpoint × World}
    (hread : world.shm.readIndex = w.shm.readIndex) (hrecvs : world.recvs = w.recvs)
    (h : Flushed size maxBytes world (messages ++ [message]) rest ep result flushed written) :
    Flushed size maxBytes w messages (message :: rest) ep result (message :: flushed) written where
  outbox := congrArg (message :: ·) h.outbox
  ring := by simpa using h.ring
  readIndex := h.readIndex.trans hread
  recvs := h.recvs.trans hrecvs
  setup := h.setup

structure FlushCounts (w : World) (count : Nat) (w' : World) : Prop where
  sends : w'.sends = w.sends
  recvOk : w'.shm.recvOk = w.shm.recvOk
  dropped : w'.shm.droppedWhenFull = w.shm.droppedWhenFull
  sendOk : w.shm.sendOk < 2 ^ 64 → w'.shm.sendOk = (w.shm.sendOk + count) % 2 ^ 64

theorem FlushCounts.refl (w : World) : FlushCounts w 0 w :=
  ⟨rfl, rfl, rfl, fun h => (Nat.mod_eq_of_lt h).symm⟩

theorem FlushCounts.succ {w₁ w₂ : World} {count : Nat} (h : FlushCounts w 1 w₁)
    (h' : FlushCounts w₁ count w₂) : FlushCounts w (count + 1) w₂ where
  sends := h'.sends.trans h.sends
  recvOk := h'.recvOk.trans h.recvOk
  dropped := h'.dropped.trans h.dropped
  sendOk := by
    intro hlt
    have hfirst := h.sendOk hlt
    rw [h'.sendOk (by omega), hfirst]
    omega

theorem tryWrite_counts {ep : Endpoint}
    (hfit : frameBytes message.length ≤ layout.ringBytes.toNat) :
    (((tryWriteOneToShared layout ep message).run exec w).1 = (.okStatus, ep) ∧
      FlushCounts w 1 ((tryWriteOneToShared layout ep message).run exec w).2) ∨
    (((tryWriteOneToShared layout ep message).run exec w).1 = (queueFull, blockSend ep) ∧
      FlushCounts w 0 ((tryWriteOneToShared layout ep message).run exec w).2) := by
  have hkept : w.shm.sendOk < 2 ^ 64 → w.shm.sendOk = (w.shm.sendOk + 0) % 2 ^ 64 :=
    fun h => (Nat.mod_eq_of_lt h).symm
  rw [tryWriteOneToShared_run, if_neg (by omega)]
  split_ifs
  · exact .inr ⟨rfl, rfl, rfl, rfl, hkept⟩
  · exact .inr ⟨rfl, rfl, rfl, rfl, hkept⟩
  · exact .inl ⟨rfl, rfl, rfl, rfl, fun _ => rfl⟩
  · exact .inr ⟨rfl, rfl, rfl, rfl, hkept⟩
  · exact .inl ⟨rfl, rfl, rfl, rfl, fun _ => rfl⟩

theorem flushOutbox_counts {ep : Endpoint} {outbox : List Message} {remaining : Nat}
    (hfit : ∀ m ∈ outbox, frameBytes m.length ≤ layout.ringBytes.toNat) :
    ∃ count, outbox.length =
        count + ((flushOutbox layout outbox remaining ep).run exec w).1.localOutbox.length ∧
      FlushCounts w count ((flushOutbox layout outbox remaining ep).run exec w).2 := by
  induction outbox generalizing remaining ep w with
  | nil => exact ⟨0, rfl, .refl w⟩
  | cons message rest ih =>
    cases remaining with
    | zero => exact ⟨0, (Nat.zero_add _).symm, .refl w⟩
    | succ remaining =>
      rw [flushOutbox_cons_run]
      rcases @tryWrite_counts layout w message ep (hfit message (by simp)) with
        ⟨hstatus, hcounts⟩ | ⟨hstatus, hcounts⟩
      · simp only [hstatus, Status.ok_okStatus, ↓reduceIte]
        obtain ⟨count, hlength, hrest⟩ := @ih
          ((tryWriteOneToShared layout ep message).run exec w).2 ep remaining
          (fun m hm => hfit m (by simp [hm]))
        refine ⟨count + 1, ?_, hcounts.succ hrest⟩
        rw [List.length_cons, hlength]
        omega
      · simp only [hstatus]
        exact ⟨0, (Nat.zero_add _).symm, hcounts⟩

theorem RingState.flush (geo : Geometry layout size) (outbox : List Message)
    (remaining : Nat) (ep : Endpoint)
    (h : RingState size layout.messageMaxBytes.toNat w.shm written messages)
    (hlen : ∀ message ∈ outbox, message.length ≤ layout.messageMaxBytes.toNat) :
    ∃ flushed written', Flushed size layout.messageMaxBytes.toNat w messages outbox ep
      ((flushOutbox layout outbox remaining ep).run exec w) flushed written' := by
  induction outbox generalizing remaining ep w written messages with
  | nil => exact ⟨[], written, .none rfl h rfl rfl ⟨rfl, rfl, rfl⟩⟩
  | cons message rest ih =>
    cases remaining with
    | zero => exact ⟨[], written, .none rfl h rfl rfl ⟨rfl, rfl, rfl⟩⟩
    | succ remaining =>
      rw [flushOutbox_cons_run]
      obtain ⟨world, written₁, hread, hrecvs, ⟨-, hrun, hring⟩ | ⟨-, hrun, hring⟩⟩ :=
        h.tryWrite geo ep (hlen message (by simp))
      · rw [hrun]
        obtain ⟨flushed, written', hflush⟩ :=
          ih remaining ep hring (fun m hm => hlen m (by simp [hm]))
        exact ⟨message :: flushed, written', hflush.cons hread hrecvs⟩
      · rw [hrun]
        exact ⟨[], written₁, .none rfl hring hread hrecvs ⟨rfl, rfl, rfl⟩⟩

/-- With a budget, the first message decides: it goes in when there is room, and
otherwise the outbox stays as it is. -/
theorem RingState.flush_first (geo : Geometry layout size) (rest : List Message)
    (remaining : Nat) (ep : Endpoint)
    (h : RingState size layout.messageMaxBytes.toNat w.shm written messages)
    (hlen : ∀ m ∈ message :: rest, m.length ≤ layout.messageMaxBytes.toNat) :
    (HasRoom size w.shm.readIndex written (frameBytes message.length) ∧
      ∃ flushed written', Flushed size layout.messageMaxBytes.toNat w messages (message :: rest) ep
        ((flushOutbox layout (message :: rest) (remaining + 1) ep).run exec w)
        (message :: flushed) written') ∨
    (¬HasRoom size w.shm.readIndex written (frameBytes message.length) ∧
      ((flushOutbox layout (message :: rest) (remaining + 1) ep).run exec w).1.localOutbox =
        message :: rest) := by
  rw [flushOutbox_cons_run]
  obtain ⟨world, written₁, hread, hrecvs, ⟨hroom, hrun, hring⟩ | ⟨hroom, hrun, -⟩⟩ :=
    h.tryWrite geo ep (hlen message (by simp))
  · rw [hrun]
    obtain ⟨flushed, written', hflush⟩ :=
      hring.flush geo rest remaining ep (fun m hm => hlen m (by simp [hm]))
    exact .inl ⟨hroom, flushed, written', hflush.cons hread hrecvs⟩
  · rw [hrun]
    exact .inr ⟨hroom, rfl⟩

structure Ready (layout : HeaderLayout) (ep : Endpoint) : Prop where
  opened : ep.opened = true
  headerMapped : ep.headerMapped = true
  maxBytes : ep.options.messageMaxBytes = layout.messageMaxBytes
  lengths : ∀ message ∈ ep.localOutbox, message.length ≤ layout.messageMaxBytes.toNat

theorem Opened.ready {ep : Endpoint} (h : Opened layout ep) : Ready layout ep :=
  ⟨h.opened, h.headerMapped, h.maxBytes, by rw [h.outbox]; simp⟩

theorem Flushed.ready {outbox flushed : List Message} {ep : Endpoint}
    {result : Endpoint × World} {maxBytes : Nat}
    (h : Flushed size maxBytes w messages outbox ep result flushed written)
    (hready : Ready layout ep)
    (hlen : ∀ message ∈ outbox, message.length ≤ layout.messageMaxBytes.toNat) :
    Ready layout result.1 where
  opened := h.setup.opened.trans hready.opened
  headerMapped := h.setup.headerMapped.trans hready.headerMapped
  maxBytes := by rw [h.setup.options, hready.maxBytes]
  lengths := by
    intro m hm
    apply hlen
    rw [h.outbox]
    exact List.mem_append_right _ hm

theorem RingState.flush_counts (geo : Geometry layout size) (outbox : List Message)
    (remaining : Nat) (ep : Endpoint)
    (h : RingState size layout.messageMaxBytes.toNat w.shm written messages)
    (hlen : ∀ message ∈ outbox, message.length ≤ layout.messageMaxBytes.toNat) :
    ∃ flushed written', Flushed size layout.messageMaxBytes.toNat w messages outbox ep
        ((flushOutbox layout outbox remaining ep).run exec w) flushed written' ∧
      FlushCounts w flushed.length ((flushOutbox layout outbox remaining ep).run exec w).2 := by
  obtain ⟨flushed, written', hflush⟩ := h.flush geo outbox remaining ep hlen
  obtain ⟨count, hlength, hcounts⟩ := @flushOutbox_counts layout w ep outbox remaining
    (fun m hm => by rw [geo.ringBytes]; exact geo.frame_fits (hlen m hm))
  have hsplit := congrArg List.length hflush.outbox
  rw [List.length_append] at hsplit
  rw [show count = flushed.length by omega] at hcounts
  exact ⟨flushed, written', hflush, hcounts⟩

structure Sent (layout : HeaderLayout) (size : Nat) (w : World) (messages : List Message)
    (ep : Endpoint) (buffer : SendBuffer) (result : Endpoint × World) (status : Status)
    (flushed : List Message) (written : Nat) : Prop where
  ring : RingState size layout.messageMaxBytes.toNat result.2.shm written (messages ++ flushed)
  readIndex : result.2.shm.readIndex = w.shm.readIndex
  ready : Ready layout result.1
  options : result.1.options = ep.options
  sends : result.2.sends = w.sends ++ [(buffer, status)]
  recvs : result.2.recvs = w.recvs
  recvOk : result.2.shm.recvOk = w.shm.recvOk
  sendOk : w.shm.sendOk < 2 ^ 64 →
    result.2.shm.sendOk = (w.shm.sendOk + flushed.length) % 2 ^ 64
  outbox : flushed.length + result.1.localOutbox.length =
    ep.localOutbox.length + if status.ok then 1 else 0
  limit : ep.localOutbox.length ≤ localOutboxLimit ep →
    result.1.localOutbox.length ≤ localOutboxLimit ep
  dropped : result.2.shm.droppedWhenFull =
    if status.code = .kWouldBlock ∧ ep.options.dropWhenFull = true then
      (w.shm.droppedWhenFull + 1) % 2 ^ 64
    else w.shm.droppedWhenFull
  blocks : ¬(buffer.size > 0 ∧ buffer.data = none) →
    ¬ buffer.size > ep.options.messageMaxBytes → ¬ status.ok → status.code = .kWouldBlock

theorem Sent.refused {ep : Endpoint} {buffer : SendBuffer} {text : String}
    (hready : Ready layout ep)
    (h : RingState size layout.messageMaxBytes.toNat w.shm written messages)
    (hbad : (buffer.size > 0 ∧ buffer.data = none) ∨ buffer.size > ep.options.messageMaxBytes) :
    Sent layout size w messages ep buffer
      (ep, { w with sends := w.sends ++ [(buffer, ⟨.kInvalidArgument, text, .kCore⟩)] })
      ⟨.kInvalidArgument, text, .kCore⟩ [] written where
  ring := by rw [List.append_nil]; exact h
  readIndex := rfl
  ready := hready
  options := rfl
  sends := rfl
  recvs := rfl
  recvOk := rfl
  sendOk := (FlushCounts.refl w).sendOk
  outbox := by simp [Status.ok]
  limit := id
  dropped := by simp
  blocks := fun hnull hsize => absurd hbad (not_or.mpr ⟨hnull, hsize⟩)

def pendingFull : Status := ⟨.kWouldBlock, "local pending queue is full", .kCore⟩

theorem Sent.blocked {ep ep' : Endpoint} {buffer : SendBuffer} {r : Endpoint × World}
    {flushed : List Message} {dropped : Nat} (hready : Ready layout r.1)
    (h : Flushed size layout.messageMaxBytes.toNat w messages ep.localOutbox ep r flushed written)
    (hcounts : FlushCounts w flushed.length r.2) (hsetup : SameSetup r.1 ep')
    (hout : ep'.localOutbox = r.1.localOutbox)
    (hdropped : dropped = if ep.options.dropWhenFull = true then
      (r.2.shm.droppedWhenFull + 1) % 2 ^ 64 else r.2.shm.droppedWhenFull) :
    Sent layout size w messages ep buffer
      (ep', { r.2 with
        shm := { r.2.shm with droppedWhenFull := dropped }
        sends := r.2.sends ++ [(buffer, pendingFull)] })
      pendingFull flushed written where
  ring := { h.ring with }
  readIndex := h.readIndex
  ready := ⟨hsetup.opened.trans hready.opened, hsetup.headerMapped.trans hready.headerMapped,
    by rw [hsetup.options, hready.maxBytes], by rw [hout]; exact hready.lengths⟩
  options := hsetup.options.trans h.setup.options
  sends := by rw [hcounts.sends]
  recvs := h.recvs
  recvOk := hcounts.recvOk
  sendOk := hcounts.sendOk
  outbox := by
    have hsplit := congrArg List.length h.outbox
    rw [List.length_append] at hsplit
    rw [hout]
    exact hsplit.symm
  limit := by
    have hsplit := congrArg List.length h.outbox
    rw [List.length_append] at hsplit
    rw [hout]
    omega
  dropped := by
    rw [← hcounts.dropped]
    simpa [pendingFull] using hdropped
  blocks := fun _ _ _ => rfl

theorem Sent.accepted {ep : Endpoint} {buffer : SendBuffer} {r r' : Endpoint × World}
    {flushed flushed' : List Message} {written' : Nat} (hready : Ready layout r'.1)
    (h : Flushed size layout.messageMaxBytes.toNat w messages ep.localOutbox ep r flushed written)
    (hcounts : FlushCounts w flushed.length r.2)
    (hroom : r.1.localOutbox.length < localOutboxLimit ep)
    (h' : Flushed size layout.messageMaxBytes.toNat (enqueue buffer.message r).2
      (messages ++ flushed) (enqueue buffer.message r).1.localOutbox
      (enqueue buffer.message r).1 r' flushed' written')
    (hcounts' : FlushCounts (enqueue buffer.message r).2 flushed'.length r'.2) :
    Sent layout size w messages ep buffer
      (r'.1, { r'.2 with sends := r'.2.sends ++ [(buffer, .okStatus)] })
      .okStatus (flushed ++ flushed') written' := by
  have hsplit := congrArg List.length h.outbox
  have hsplit' := congrArg List.length h'.outbox
  simp only [enqueue, List.length_append, List.length_singleton] at hsplit hsplit'
  have hsends : r'.2.sends = w.sends := hcounts'.sends.trans hcounts.sends
  exact {
    ring := by rw [← List.append_assoc]; exact h'.ring
    readIndex := h'.readIndex.trans h.readIndex
    ready := hready
    options := h'.setup.options.trans h.setup.options
    sends := by rw [hsends]
    recvs := h'.recvs.trans h.recvs
    recvOk := hcounts'.recvOk.trans hcounts.recvOk
    sendOk := by
      intro hlt
      have hfirst := hcounts.sendOk hlt
      have hsecond := hcounts'.sendOk (show r.2.shm.sendOk < _ by omega)
      rw [List.length_append]
      change r'.2.shm.sendOk = _
      simp only [enqueue] at hsecond
      omega
    outbox := by
      rw [List.length_append, Status.ok_okStatus, if_pos rfl]
      dsimp only
      omega
    limit := by
      intro _
      dsimp only
      omega
    dropped := hcounts'.dropped.trans hcounts.dropped
    blocks := fun _ _ hbad => absurd rfl hbad }

/-- A whole `TrySend`: the ring stays well formed and only grows at its end, by
messages of the outbox. -/
theorem sendCall_sent (geo : Geometry layout size) {ep : Endpoint} (buffer : SendBuffer)
    (hready : Ready layout ep)
    (h : RingState size layout.messageMaxBytes.toNat w.shm written messages) :
    ∃ status flushed written', Sent layout size w messages ep buffer
      (sendCall layout ep buffer w) status flushed written' := by
  unfold sendCall
  simp only [Cmd.bind_eq_bind, Cmd.run_bind, act_bind, Cmd.pure_eq_ret, Cmd.run_op, Cmd.run_ret,
    exec]
  by_cases hnull : buffer.size > 0 ∧ buffer.data = none
  · unfold trySend
    rw [if_neg (by simp [hready.opened, hready.headerMapped]), if_pos hnull]
    exact ⟨_, [], written, .refused hready h (.inl hnull)⟩
  by_cases hsize : buffer.size > ep.options.messageMaxBytes
  · unfold trySend
    rw [if_neg (by simp [hready.opened, hready.headerMapped]), if_neg hnull, if_pos hsize]
    exact ⟨_, [], written, .refused hready h (.inr hsize)⟩
  rw [trySend_run w hready.opened hready.headerMapped hnull hsize]
  obtain ⟨flushed, written₁, h₁, hcounts₁⟩ :=
    h.flush_counts geo ep.localOutbox 1 ep hready.lengths
  have hready₁ := h₁.ready hready hready.lengths
  have hlimit : localOutboxLimit ((flushOutbox layout ep.localOutbox 1 ep).run exec w).1 =
      localOutboxLimit ep := by
    unfold localOutboxLimit
    rw [h₁.setup.options]
  unfold processIoOnce
  dsimp only
  rw [hlimit, h₁.setup.options]
  split_ifs with hfull hdrop
  · exact ⟨_, flushed, written₁, .blocked hready₁ h₁ hcounts₁ ⟨rfl, rfl, rfl⟩ rfl
      (by rw [if_pos hdrop])⟩
  · exact ⟨_, flushed, written₁, .blocked hready₁ h₁ hcounts₁ ⟨rfl, rfl, rfl⟩ rfl
      (by rw [if_neg hdrop])⟩
  · have hlen : ∀ m ∈ (enqueue buffer.message ((flushOutbox layout ep.localOutbox 1 ep).run
        exec w)).1.localOutbox, m.length ≤ layout.messageMaxBytes.toNat := by
      intro m hm
      rcases List.mem_append.mp hm with hm | hm
      · exact hready₁.lengths m hm
      · rw [List.mem_singleton.mp hm, ← hready.maxBytes]
        exact buffer.message_length_le.trans (UInt32.not_lt.mp hsize)
    have hready₂ : Ready layout (enqueue buffer.message
        ((flushOutbox layout ep.localOutbox 1 ep).run exec w)).1 :=
      ⟨hready₁.opened, hready₁.headerMapped, hready₁.maxBytes, hlen⟩
    obtain ⟨flushed₃, written₃, h₃, hcounts₃⟩ := RingState.flush_counts geo
      (w := (enqueue buffer.message ((flushOutbox layout ep.localOutbox 1 ep).run exec w)).2)
      _ (max 1 (min 8 (localOutboxLimit (enqueue buffer.message
        ((flushOutbox layout ep.localOutbox 1 ep).run exec w)).1))) _ h₁.ring hlen
    exact ⟨_, _, written₃, .accepted (h₃.ready hready₂ hlen) h₁ hcounts₁
      (Nat.lt_of_not_le hfull) h₃ hcounts₃⟩

theorem sendCall_ring (geo : Geometry layout size) {ep : Endpoint} (buffer : SendBuffer)
    (hready : Ready layout ep)
    (h : RingState size layout.messageMaxBytes.toNat w.shm written messages) :
    ∃ written' messages',
      RingState size layout.messageMaxBytes.toNat (sendCall layout ep buffer w).2.shm
        written' messages' ∧
      (sendCall layout ep buffer w).2.shm.readIndex = w.shm.readIndex ∧
      Ready layout (sendCall layout ep buffer w).1 := by
  obtain ⟨status, flushed, written', hsent⟩ := sendCall_sent geo buffer hready h
  exact ⟨written', _, hsent.ring, hsent.readIndex, hsent.ready⟩

theorem sendCall_first (geo : Geometry layout size) {ep : Endpoint} {buffer : SendBuffer}
    (hready : Ready layout ep) (hout : ep.localOutbox = [])
    (hnull : ¬(buffer.size > 0 ∧ buffer.data = none))
    (hsize : ¬ buffer.size > ep.options.messageMaxBytes)
    (h : RingState size layout.messageMaxBytes.toNat w.shm written messages)
    (hroom : HasRoom size w.shm.readIndex written (frameBytes buffer.message.length)) :
    ∃ written',
      RingState size layout.messageMaxBytes.toNat (sendCall layout ep buffer w).2.shm written'
        (messages ++ [buffer.message]) ∧
      (sendCall layout ep buffer w).2.shm.readIndex = w.shm.readIndex ∧
      (sendCall layout ep buffer w).1.localOutbox = [] := by
  have hlen : ∀ m ∈ [buffer.message], m.length ≤ layout.messageMaxBytes.toNat := by
    intro m hm
    rw [List.mem_singleton.mp hm, ← hready.maxBytes]
    exact buffer.message_length_le.trans (UInt32.not_lt.mp hsize)
  have hlimit : 4 ≤ localOutboxLimit ep := le_max_left _ _
  obtain ⟨extra, hbudget⟩ := Nat.exists_eq_add_of_le' (show 1 ≤ max 1 (min 8
    (localOutboxLimit ep)) from le_max_left _ _)
  unfold sendCall
  simp only [Cmd.bind_eq_bind, Cmd.run_bind, act_bind, Cmd.pure_eq_ret, Cmd.run_op, Cmd.run_ret,
    exec]
  rw [trySend_run w hready.opened hready.headerMapped hnull hsize]
  rw [processIoOnce_nil layout 1 w hout]
  dsimp only
  rw [if_neg (by rw [hout, List.length_nil]; omega)]
  unfold processIoOnce enqueue
  rw [hout, List.nil_append]
  have hfirst := RingState.flush_first (w := { w with accepted := w.accepted ++ [buffer.message] })
    geo [] extra { ep with localOutbox := [buffer.message] } h hlen
  rw [← hbudget] at hfirst
  rcases hfirst with ⟨-, flushed, written', hflush⟩ | ⟨hno, -⟩
  · have hall := (List.cons.inj hflush.outbox).2
    have hnil := List.append_eq_nil_iff.mp hall.symm
    rw [hnil.1] at hflush
    exact ⟨written', hflush.ring, hflush.readIndex, hnil.2⟩
  · exact absurd hroom hno

end Writing

def bufferTooSmall (required : Nat) : Status :=
  ⟨.kBufferTooSmall, "buffer too small, required=" ++ toString required, .kCore⟩

/-- What `TryRecv` answers when the ring holds these messages, and what is left
of them. -/
def takeFront (bufferSize : Nat) : List Message → Result Message × List Message
  | [] => (.error noMessage, [])
  | message :: rest =>
      if message.length > bufferSize then (.error (bufferTooSmall message.length), message :: rest)
      else (.ok message, rest)

section Reading

variable {layout : HeaderLayout} {size written : Nat} {w : World} {messages : List Message}
  {message : Message} {ep : Endpoint} {st : RecvLoop} {buffer : RecvBuffer}

theorem advanceRead_run (layout : HeaderLayout) (ep : Endpoint)
    (bufferSize read contiguous : Nat) (w : World) :
    (advanceRead layout ep bufferSize read contiguous).run exec w =
      (if (read + contiguous) % 2 ^ 64 ≥ w.shm.writeIndex then
        (.inr (.error noMessage), blockRecv ep)
      else (.inl ⟨bufferSize, (read + contiguous) % 2 ^ 64, w.shm.writeIndex,
        contiguousFrom layout ((read + contiguous) % 2 ^ 64)⟩, ep),
      { w with shm.readIndex := (read + contiguous) % 2 ^ 64 }) := by
  unfold advanceRead
  simp only [Cmd.bind_eq_bind, act_bind, loadWriteIndex_bind, Cmd.pure_eq_ret, Cmd.run_op, exec]
  by_cases hdone : (read + contiguous) % 2 ^ 64 ≥ w.shm.writeIndex
  · simp only [hdone, ↓reduceIte, Cmd.run_ret]
  · simp only [hdone, ↓reduceIte, Cmd.run_ret]

theorem tryRecvRound_data (geo : Geometry layout size) (ep : Endpoint) (st : RecvLoop)
    (hmax : ep.options.messageMaxBytes = layout.messageMaxBytes)
    (hhead : FrameAt size layout.messageMaxBytes.toNat w.shm.ring st.read message)
    (hle : st.read + frameBytes message.length ≤ st.write) (hlt : st.write < 2 ^ 64)
    (hcont : st.contiguous = size - st.read % size) :
    (tryRecvRound layout ep st).run exec w =
      if message.length > st.bufferSize then
        ((.inr (.error (bufferTooSmall message.length)), ep), w)
      else ((.inr (.ok message), ep), { w with shm := { w.shm with
        readIndex := st.read + frameBytes message.length
        recvOk := (w.shm.recvOk + 1) % 2 ^ 64 } }) := by
  have hfit := hhead.fit
  have hlen := hhead.length_le
  have hindex : (st.read + frameBytes message.length) % 2 ^ 64 =
      st.read + frameBytes message.length := Nat.mod_eq_of_lt (by omega)
  unfold tryRecvRound
  simp only [Cmd.bind_eq_bind, Cmd.pure_eq_ret, geo.and_mask, loadU32_bind, Cmd.run_op, exec,
    hhead.marker, hmax]
  rw [if_neg (by decide), if_neg (by decide)]
  simp only [Cmd.run_op, exec, hhead.sizeWord]
  rw [hindex, if_neg (by omega), if_neg (by omega)]
  split
  · rfl
  · by_cases hempty : message.length > 0
    · rw [if_pos hempty]
      simp only [copyOut_bind, act_bind, Cmd.run_op, Cmd.run_ret, exec, frameHeaderBytes,
        hhead.bytes]
    · have hnil : message = [] := List.length_eq_zero_iff.mp (by omega)
      subst hnil
      rfl

theorem tryRecvRound_wrap (geo : Geometry layout size) (ep : Endpoint) (st : RecvLoop)
    (hhead : WrapAt size w.shm.ring st.read) (hlt : st.read + (size - st.read % size) < 2 ^ 64)
    (hcont : st.contiguous = size - st.read % size) :
    (tryRecvRound layout ep st).run exec w =
      (if st.read + (size - st.read % size) ≥ w.shm.writeIndex then
        (.inr (.error noMessage), blockRecv ep)
      else (.inl ⟨st.bufferSize, st.read + (size - st.read % size), w.shm.writeIndex, size⟩, ep),
      { w with shm.readIndex := st.read + (size - st.read % size) }) := by
  have hpos : 0 < size := by have := geo.low; omega
  have hmark : w.shm.ring.loadLE 4 (st.read % size + 4) = kFrameWrap := hhead
  have hstart := lap_end_mod st.read hpos
  unfold tryRecvRound
  simp only [Cmd.bind_eq_bind, Cmd.pure_eq_ret, geo.and_mask, loadU32_bind, Cmd.run_op, exec,
    hmark, ↓reduceIte, Cmd.run_bind, advanceRead_run, hcont, Nat.mod_eq_of_lt hlt,
    geo.contiguousFrom_eq, hstart, Nat.sub_zero]
  by_cases hdone : st.read + (size - st.read % size) ≥ w.shm.writeIndex
  · rw [if_pos hdone]
    rfl
  · rw [if_neg hdone]
    dsimp only
    rw [skipShortTail_aligned geo]
    · rfl
    · rw [lap_end_eq _ hpos]
      exact geo.eight_dvd.mul_right _
    · rw [hstart]
      rfl

theorem finish_result {c : ShmCmd (RecvNext × Endpoint)} {result : Result Message}
    {world : World} (rounds : Nat) (h : c.run exec w = ((.inr result, ep), world)) :
    (consumer layout).finish exec buffer RecvPoint.returned rounds (c.bind settleRecv) w =
      some (ep, { world with recvs := world.recvs ++ [result] }) := by
  have hrun : (c.bind settleRecv).run exec w =
      (.idle ep, { world with recvs := world.recvs ++ [result] }) := by
    rw [Cmd.run_bind, h]
    rfl
  exact Thread.finish_stop rounds hrun rfl

theorem finish_again {c : ShmCmd (RecvNext × Endpoint)} {world : World} (rounds : Nat)
    (h : c.run exec w = ((.inl st, ep), world)) :
    (consumer layout).finish exec buffer RecvPoint.returned (rounds + 1) (c.bind settleRecv) w =
      (consumer layout).finish exec buffer RecvPoint.returned rounds
        ((tryRecvRound layout ep st).bind settleRecv) world := by
  have hrun : (c.bind settleRecv).run exec w = (.loop ep st, world) := by
    rw [Cmd.run_bind, h]
    rfl
  exact Thread.finish_resume rounds hrun rfl rfl

structure Received (size maxBytes : Nat) (recvs : List (Result Message)) (written : Nat)
    (messages : List Message) (bufferSize : Nat) (ep : Endpoint) (result : Endpoint × World) :
    Prop where
  ring : RingState size maxBytes result.2.shm written (takeFront bufferSize messages).2
  history : result.2.recvs = recvs ++ [(takeFront bufferSize messages).1]
  outbox : result.1.localOutbox = ep.localOutbox
  setup : SameSetup ep result.1

structure RecvCounts (w : World) (answer : Result Message) (w' : World) : Prop where
  sends : w'.sends = w.sends
  sendOk : w'.shm.sendOk = w.shm.sendOk
  dropped : w'.shm.droppedWhenFull = w.shm.droppedWhenFull
  recvOk : w'.shm.recvOk = if answer.isOk then (w.shm.recvOk + 1) % 2 ^ 64 else w.shm.recvOk
  read : w.shm.readIndex + (if answer.isOk then 8 else 0) ≤ w'.shm.readIndex

theorem RingState.consume {maxBytes : Nat} {shm : Shm} {rest : List Message}
    (h : RingState size maxBytes shm written (message :: rest)) (hlt : written < 2 ^ 64)
    (hrest : Frames size maxBytes shm.ring (shm.readIndex + frameBytes message.length) written
      rest) (recvOk : Nat) :
    RingState size maxBytes { shm with
      readIndex := shm.readIndex + frameBytes message.length
      recvOk := recvOk } written rest := by
  have hle := hrest.le
  have hwin := h.window
  exact { h with
    read_le := hle
    window := hwin.trans (by dsimp only; omega)
    read_lt := by dsimp only; omega
    read_align := Nat.dvd_add h.read_align (eight_dvd_frameBytes _)
    frames := hrest }

theorem RingState.takeData (geo : Geometry layout size) (st : RecvLoop) (rounds : Nat)
    (hmax : ep.options.messageMaxBytes = layout.messageMaxBytes)
    (h : RingState size layout.messageMaxBytes.toNat w.shm written messages)
    (hst : st.read = w.shm.readIndex ∧ st.write = written ∧
      st.contiguous = size - st.read % size)
    (hlt : written < 2 ^ 64) (hread : w.shm.readIndex < written)
    (hdata : ¬ WrapAt size w.shm.ring w.shm.readIndex) :
    ∃ result, (consumer layout).finish exec buffer RecvPoint.returned rounds
        ((tryRecvRound layout ep st).bind settleRecv) w = some result ∧
      Received size layout.messageMaxBytes.toNat w.recvs written messages st.bufferSize ep result ∧
      RecvCounts w (takeFront st.bufferSize messages).1 result.2 := by
  obtain ⟨hstRead, hstWrite, hcont⟩ := hst
  obtain ⟨message, rest, rfl, hhead, hrest⟩ | ⟨hwrap, -⟩ := h.frames.head_cases hread
  · have hrun := tryRecvRound_data geo ep st hmax (hstRead ▸ hhead)
      (by rw [hstRead, hstWrite]; exact hrest.le) (by omega) hcont
    by_cases hsmall : message.length > st.bufferSize
    · rw [if_pos hsmall] at hrun
      refine ⟨_, finish_result rounds hrun, ⟨?_, ?_, rfl, ⟨rfl, rfl, rfl⟩⟩, ?_⟩
      · simpa only [takeFront, hsmall, ↓reduceIte] using h
      · simp only [takeFront, hsmall, ↓reduceIte]
      · simp only [takeFront, hsmall, ↓reduceIte]
        exact ⟨rfl, rfl, rfl, rfl, le_refl _⟩
    · rw [if_neg hsmall, hstRead] at hrun
      have hbytes := header_le_frameBytes message.length
      refine ⟨_, finish_result rounds hrun, ⟨?_, ?_, rfl, ⟨rfl, rfl, rfl⟩⟩, ?_⟩
      · simp only [takeFront, hsmall, ↓reduceIte]
        exact h.consume hlt hrest _
      · simp only [takeFront, hsmall, ↓reduceIte]
      · simp only [takeFront, hsmall, ↓reduceIte]
        exact ⟨rfl, rfl, rfl, rfl, Nat.add_le_add_left (show 8 ≤ _ by omega) _⟩
  · exact absurd hwrap hdata

/-- The loop. A wrap marker costs one round; there is at most one, because two
would not fit the ring. -/
theorem RingState.takeLoop (geo : Geometry layout size) (buffer : RecvBuffer) (st : RecvLoop)
    (rounds : Nat)
    (hmax : ep.options.messageMaxBytes = layout.messageMaxBytes)
    (h : RingState size layout.messageMaxBytes.toNat w.shm written messages)
    (hst : st.read = w.shm.readIndex ∧ st.write = written ∧
      st.contiguous = size - st.read % size)
    (hlt : written < 2 ^ 64) (hread : w.shm.readIndex < written) :
    ∃ result, (consumer layout).finish exec buffer RecvPoint.returned (rounds + 1)
        ((tryRecvRound layout ep st).bind settleRecv) w = some result ∧
      Received size layout.messageMaxBytes.toNat w.recvs written messages st.bufferSize ep result ∧
      RecvCounts w (takeFront st.bufferSize messages).1 result.2 := by
  have hpos : 0 < size := by have := geo.low; omega
  have hmod := Nat.mod_lt w.shm.readIndex hpos
  by_cases hwrap : WrapAt size w.shm.ring w.shm.readIndex
  · obtain ⟨hstRead, hstWrite, hcont⟩ := hst
    obtain ⟨message, _, -, hhead, -⟩ | ⟨-, hrest⟩ := h.frames.head_cases hread
    · exact absurd hwrap hhead.not_wrap
    have hle := hrest.le
    have hwin := h.window
    have hwrite : w.shm.writeIndex = written := by rw [h.write_eq, Nat.mod_eq_of_lt hlt]
    have hrun := tryRecvRound_wrap geo ep st (hstRead ▸ hwrap)
      (by rw [hstRead]; omega) hcont
    rw [hstRead, hwrite] at hrun
    have hnext : RingState size layout.messageMaxBytes.toNat
        { w.shm with readIndex := w.shm.readIndex + (size - w.shm.readIndex % size) }
        written messages :=
      { h with
        read_le := hle
        window := hwin.trans (by dsimp only; omega)
        read_lt := by dsimp only; omega
        read_align := by rw [lap_end_eq _ hpos]; exact geo.eight_dvd.mul_right _
        frames := hrest }
    by_cases hdone : w.shm.readIndex + (size - w.shm.readIndex % size) ≥ written
    · rw [if_pos hdone] at hrun
      have hnil := hrest.eq_nil hdone hpos
      subst hnil
      exact ⟨_, finish_result (rounds + 1) hrun, ⟨hnext, rfl, rfl, ⟨rfl, rfl, rfl⟩⟩,
        ⟨rfl, rfl, rfl, rfl, Nat.le_add_right _ _⟩⟩
    · rw [if_neg hdone] at hrun
      rw [finish_again rounds hrun]
      have hst' : size = size -
          (w.shm.readIndex + (size - w.shm.readIndex % size)) % size := by
        rw [lap_end_mod _ hpos]
        rfl
      -- a second marker would cover a whole lap more
      have hdata : ¬ WrapAt size w.shm.ring
          (w.shm.readIndex + (size - w.shm.readIndex % size)) := by
        intro hagain
        obtain ⟨message, _, -, hhead, -⟩ | ⟨-, hrest'⟩ :=
          hnext.frames.head_cases (by dsimp only; omega)
        · exact hhead.not_wrap hagain
        · have := hrest'.le
          dsimp only at this
          rw [lap_end_mod _ hpos] at this
          omega
      obtain ⟨result, hfinish, hreceived, hcounts⟩ :=
        RingState.takeData (w := { w with shm.readIndex := _ }) geo ⟨_, _, _, _⟩ rounds
          hmax hnext ⟨rfl, rfl, hst'⟩ hlt (by dsimp only; omega) hdata
      have hmoved := hcounts.read
      refine ⟨result, hfinish, hreceived, hcounts.sends, hcounts.sendOk, hcounts.dropped,
        hcounts.recvOk, ?_⟩
      dsimp only at hmoved
      omega
  · exact h.takeData geo st (rounds + 1) hmax hst hlt hread hwrap

theorem tryRecv_run (w : World) (hready : Ready layout ep)
    (hbuffer : ¬(buffer.size > 0 ∧ buffer.isNull = true)) :
    (tryRecv layout ep buffer).run exec w =
      let r := (processIoOnce layout ep 1).run exec w
      if r.2.shm.readIndex ≥ r.2.shm.writeIndex then
        ((.inr (.error noMessage), blockRecv r.1), r.2)
      else (skipShortTail layout r.1 ⟨buffer.size.toNat, r.2.shm.readIndex, r.2.shm.writeIndex,
        contiguousFrom layout r.2.shm.readIndex⟩).run exec r.2 := by
  unfold tryRecv
  rw [if_neg (by simp [hready.opened, hready.headerMapped]), if_neg hbuffer]
  simp only [Cmd.bind_eq_bind, Cmd.run_bind, loadReadIndex_bind, loadWriteIndex_bind,
    Cmd.pure_eq_ret, Cmd.run_op, exec]
  by_cases hempty : ((processIoOnce layout ep 1).run exec w).2.shm.readIndex ≥
      ((processIoOnce layout ep 1).run exec w).2.shm.writeIndex
  · simp only [hempty, ↓reduceIte, Cmd.run_ret]
  · simp only [hempty, ↓reduceIte]

/-- A whole `TryRecv` with a usable buffer: it flushes one message, then takes
the front of the ring. Once the write index has wrapped it sees nothing. -/
theorem recvCall_take (geo : Geometry layout size) (rounds : Nat) (hready : Ready layout ep)
    (hbuffer : ¬(buffer.size > 0 ∧ buffer.isNull = true))
    (h : RingState size layout.messageMaxBytes.toNat w.shm written messages) :
    ∃ flushed written' result,
      Flushed size layout.messageMaxBytes.toNat w messages ep.localOutbox ep
        ((processIoOnce layout ep 1).run exec w) flushed written' ∧
      recvCall layout (rounds + 2) ep buffer w = some result ∧ Ready layout result.1 ∧
      (written' < 2 ^ 64 →
        Received size layout.messageMaxBytes.toNat w.recvs written' (messages ++ flushed)
          buffer.size.toNat ((processIoOnce layout ep 1).run exec w).1 result ∧
        RecvCounts ((processIoOnce layout ep 1).run exec w).2
          (takeFront buffer.size.toNat (messages ++ flushed)).1 result.2) ∧
      (written' = 2 ^ 64 → result.1 = blockRecv ((processIoOnce layout ep 1).run exec w).1 ∧
        result.2 = { ((processIoOnce layout ep 1).run exec w).2 with
          recvs := w.recvs ++ [.error noMessage] }) := by
  obtain ⟨flushed, written', hflush⟩ := h.flush geo ep.localOutbox 1 ep hready.lengths
  have hready' := hflush.ready hready hready.lengths
  have hrun := tryRecv_run w hready hbuffer
  have hring := hflush.ring
  have hwritten := hring.written_le
  have hread := hring.read_le
  rw [← show processIoOnce layout ep 1 = flushOutbox layout ep.localOutbox 1 ep from rfl]
    at hflush hready' hring hread
  unfold recvCall
  dsimp only at hrun
  by_cases hempty : ((processIoOnce layout ep 1).run exec w).2.shm.readIndex ≥
      ((processIoOnce layout ep 1).run exec w).2.shm.writeIndex
  · rw [if_pos hempty] at hrun
    refine ⟨flushed, written', _, hflush, finish_result (rounds + 2) hrun,
      ⟨hready'.opened, hready'.headerMapped, hready'.maxBytes, hready'.lengths⟩, ?_,
      fun _ => ⟨rfl, by rw [← hflush.recvs]⟩⟩
    intro hlt
    -- an empty window holds no frame
    rw [hring.write_eq, Nat.mod_eq_of_lt hlt] at hempty
    have hnil := hring.frames.eq_nil hempty (by have := geo.low; omega)
    rw [hnil] at hring ⊢
    exact ⟨⟨hring, by rw [← hflush.recvs]; rfl, rfl, ⟨rfl, rfl, rfl⟩⟩,
      ⟨rfl, rfl, rfl, rfl, le_refl _⟩⟩
  · rw [if_neg hempty, skipShortTail_aligned geo hring.read_align (geo.contiguousFrom_eq _)]
      at hrun
    have hlt : written' < 2 ^ 64 := by
      have := hring.write_eq
      omega
    have hwrite := hring.write_eq
    rw [Nat.mod_eq_of_lt hlt] at hwrite
    obtain ⟨result, hfinish, hreceived, hcounts⟩ := hring.takeLoop geo buffer
      ⟨buffer.size.toNat, _, _, _⟩ rounds hready'.maxBytes
      ⟨rfl, hwrite, geo.contiguousFrom_eq _⟩ hlt (by omega)
    refine ⟨flushed, written', result, hflush, ?_, ?_, ?_, by omega⟩
    · exact (finish_again (rounds + 1) hrun).trans hfinish
    · have hsetup := hreceived.setup
      exact ⟨hsetup.opened.trans hready'.opened, hsetup.headerMapped.trans hready'.headerMapped,
        by rw [hsetup.options, hready'.maxBytes], by rw [hreceived.outbox]; exact hready'.lengths⟩
    · intro _
      rw [← hflush.recvs]
      exact ⟨hreceived, hcounts⟩

theorem recvCall_data (geo : Geometry layout size) (rounds : Nat) (hready : Ready layout ep)
    (hout : ep.localOutbox = []) (hbuffer : ¬(buffer.size > 0 ∧ buffer.isNull = true))
    (h : RingState size layout.messageMaxBytes.toNat w.shm written messages)
    (hlt : written < 2 ^ 64)
    (hhead : FrameAt size layout.messageMaxBytes.toNat w.shm.ring w.shm.readIndex message)
    (hle : w.shm.readIndex + frameBytes message.length ≤ written)
    (hfit : message.length ≤ buffer.size.toNat) :
    recvCall layout (rounds + 1) ep buffer w = some (ep,
      { w with
        shm := { w.shm with
          readIndex := w.shm.readIndex + frameBytes message.length
          recvOk := (w.shm.recvOk + 1) % 2 ^ 64 }
        recvs := w.recvs ++ [.ok message] }) := by
  have hbytes := header_le_frameBytes message.length
  have hwrite := h.write_eq
  rw [Nat.mod_eq_of_lt hlt] at hwrite
  have hrun := tryRecv_run w hready hbuffer
  rw [processIoOnce_nil layout 1 w hout] at hrun
  dsimp only at hrun
  rw [if_neg (by omega), skipShortTail_aligned geo h.read_align (geo.contiguousFrom_eq _)] at hrun
  have hround := tryRecvRound_data geo ep
    ⟨buffer.size.toNat, w.shm.readIndex, w.shm.writeIndex, contiguousFrom layout w.shm.readIndex⟩
    hready.maxBytes hhead (by dsimp only; omega) (by dsimp only; omega) (geo.contiguousFrom_eq _)
  rw [if_neg (by dsimp only; omega)] at hround
  exact (finish_again rounds hrun).trans (finish_result rounds hround)

theorem recvCall_null (rounds : Nat) (w : World) (hready : Ready layout ep)
    (hnull : buffer.size > 0 ∧ buffer.isNull = true) :
    recvCall layout rounds ep buffer w = some (ep, { w with recvs := w.recvs ++
      [.error ⟨.kInvalidArgument, "buffer is null", .kCore⟩] }) := by
  refine finish_result rounds ?_
  unfold tryRecv
  rw [if_neg (by simp [hready.opened, hready.headerMapped]), if_pos hnull]
  rfl

theorem recvCall_ring (geo : Geometry layout size) {rounds : Nat} {result : Endpoint × World}
    (hready : Ready layout ep)
    (h : RingState size layout.messageMaxBytes.toNat w.shm written messages)
    (hcall : recvCall layout rounds ep buffer w = some result) :
    ∃ written' messages', RingState size layout.messageMaxBytes.toNat result.2.shm written'
      messages' ∧ Ready layout result.1 := by
  by_cases hnull : buffer.size > 0 ∧ buffer.isNull = true
  · rw [recvCall_null rounds w hready hnull] at hcall
    cases hcall
    exact ⟨written, messages, h, hready⟩
  · obtain ⟨flushed, written', result', hflush, hfinish, hready', htake, hwrapped⟩ :=
      recvCall_take geo rounds hready hnull h
    have hsame : recvCall layout (rounds + 2) ep buffer w = some result :=
      Thread.finish_mono 2 hcall
    cases Option.some.inj (hsame.symm.trans hfinish)
    rcases Nat.lt_or_eq_of_le hflush.ring.written_le with hlt | heq
    · exact ⟨written', _, (htake hlt).1.ring, hready'⟩
    · exact ⟨written', _, by rw [(hwrapped heq).2]; exact hflush.ring, hready'⟩

end Reading

structure Peers.Inv (layout : HeaderLayout) (size : Nat) (s : Peers) : Prop where
  ring : ∃ written messages,
    RingState size layout.messageMaxBytes.toNat s.world.shm written messages
  ready : ∀ side, Ready layout (s.endpoint side)

@[simp] theorem Peers.put_world (s : Peers) (side : Side) (result : Endpoint × World) :
    (s.put side result).world = result.2 := by
  cases side <;> rfl

theorem Peers.ready_put {layout : HeaderLayout} {s : Peers} {side : Side}
    {result : Endpoint × World} (h : ∀ side, Ready layout (s.endpoint side))
    (hresult : Ready layout result.1) (other : Side) :
    Ready layout ((s.put side result).endpoint other) := by
  cases side <;> cases other
  · exact hresult
  · exact h .client
  · exact h .server
  · exact hresult

theorem Peers.Inv.step {layout : HeaderLayout} {size : Nat} (geo : Geometry layout size)
    {s s' : Peers} {label : Side × Call} (h : s.Inv layout size)
    (hstep : s.step layout label = some s') : s'.Inv layout size := by
  obtain ⟨written, messages, hring⟩ := h.ring
  obtain ⟨side, call⟩ := label
  cases call with
  | trySend buffer =>
    cases Option.some.inj hstep
    obtain ⟨written', messages', hring', -, hready⟩ :=
      sendCall_ring geo buffer (h.ready side) hring
    exact ⟨⟨written', messages', by rw [Peers.put_world]; exact hring'⟩,
      Peers.ready_put h.ready hready⟩
  | tryRecv buffer rounds =>
    obtain ⟨result, hcall, rfl⟩ := Option.map_eq_some_iff.mp hstep
    obtain ⟨written', messages', hring', hready⟩ :=
      recvCall_ring geo (h.ready side) hring hcall
    exact ⟨⟨written', messages', by rw [Peers.put_world]; exact hring'⟩,
      Peers.ready_put h.ready hready⟩

theorem Peers.Inv.start {layout : HeaderLayout} {size : Nat} {server client : Endpoint}
    (hserver : Opened layout server) (hclient : Opened layout client) :
    Peers.Inv layout size ⟨server, client, { shm := clearedShm }⟩ := by
  refine ⟨⟨0, [], ?_⟩, ?_⟩
  · exact ⟨.cleared size, .nil 0⟩
  · intro side
    cases side
    · exact hserver.ready
    · exact hclient.ready

theorem Peers.Inv.of_run {options : ChannelOptions} {region : Region} {server client : Endpoint}
    (hopen : BothOpen options region server client) {labels : List (Side × Call)} {s : Peers}
    (hrun : runs (Peers.step region.layout) ⟨server, client, { shm := region.shm }⟩ labels =
      some s) : s.Inv region.layout region.layout.ringBytes.toNat := by
  rw [hopen.shm_eq] at hrun
  exact runs_invariant (fun _ _ _ h hstep => h.step hopen.geometry hstep)
    (.start hopen.server_opened hopen.client_opened) hrun

end Corekit.Ipc
