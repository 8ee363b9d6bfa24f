import Corekit.Ipc.Representation

/-! The counters of the shared header against the calls that were made, for one
endpoint that sends and one that receives. No index gets past `2 ^ 64`, so the
counters of delivered messages never wrap; the counter of dropped ones may. -/
namespace Corekit.Ipc
open Corekit.Api Corekit.Foundation

def Side.other : Side → Side
  | .server => .client
  | .client => .server

/-- The endpoint at `sender` sends and the other one receives. No receive takes
more than two rounds of its loop. -/
def Side.makes (sender : Side) : SendBuffer ⊕ RecvBuffer → Side × Call
  | .inl buffer => (sender, .trySend buffer)
  | .inr buffer => (sender.other, .tryRecv buffer 2)

def dataFramesFrom (layout : HeaderLayout) (ring : Mem) : Nat → Nat → Nat → Nat
  | 0, _, _ => 0
  | fuel + 1, index, left =>
    if left = 0 then 0
    else
      let off := index &&& layout.ringMask.toNat
      if ring.loadLE 4 (off + 4) = kFrameWrap then
        let contiguous := contiguousFrom layout index
        dataFramesFrom layout ring fuel (index + contiguous) (left - contiguous)
      else
        let frame := frameBytes (ring.loadLE 4 off)
        dataFramesFrom layout ring fuel (index + frame) (left - frame) + 1

def dataFrames (layout : HeaderLayout) (shm : Shm) : Nat :=
  let left := (shm.writeIndex + 2 ^ 64 - shm.readIndex) % 2 ^ 64
  dataFramesFrom layout shm.ring left shm.readIndex left

section Parse

variable {layout : HeaderLayout} {size : Nat}

theorem Frames.dataFramesFrom (geo : Geometry layout size) {maxBytes i j : Nat} {ring : Mem}
    {messages : List Message} (h : Frames size maxBytes ring i j messages) {fuel : Nat}
    (hfuel : j ≤ i + fuel) :
    Ipc.dataFramesFrom layout ring fuel i (j - i) = messages.length := by
  have hpos : 0 < size := by have := geo.low; omega
  induction h generalizing fuel with
  | nil i => cases fuel <;> simp [Ipc.dataFramesFrom]
  | @data i j message rest hhead hrest ih =>
    have hle := hrest.le
    have hbytes := header_le_frameBytes message.length
    obtain ⟨fuel, rfl⟩ := Nat.exists_eq_succ_of_ne_zero (show fuel ≠ 0 by omega)
    have hmark : ring.loadLE 4 (i % size + 4) ≠ kFrameWrap := hhead.not_wrap
    rw [Ipc.dataFramesFrom, if_neg (by omega)]
    simp only [geo.and_mask, if_neg hmark, hhead.sizeWord]
    rw [show j - i - frameBytes message.length = j - (i + frameBytes message.length) by omega,
      ih (by omega), List.length_cons]
  | @wrap i j rest hhead hrest ih =>
    have hle := hrest.le
    have hmod := Nat.mod_lt i hpos
    obtain ⟨fuel, rfl⟩ := Nat.exists_eq_succ_of_ne_zero (show fuel ≠ 0 by omega)
    have hmark : ring.loadLE 4 (i % size + 4) = kFrameWrap := hhead
    rw [Ipc.dataFramesFrom, if_neg (by omega)]
    simp only [geo.and_mask, if_pos hmark, geo.contiguousFrom_eq]
    rw [show j - i - (size - i % size) = j - (i + (size - i % size)) by omega, ih (by omega)]

theorem RingState.dataFrames_eq (geo : Geometry layout size) {maxBytes written : Nat} {shm : Shm}
    {messages : List Message} (h : RingState size maxBytes shm written messages) :
    dataFrames layout shm = messages.length := by
  have hread := h.read_le
  have hwin := h.window
  have hlt := h.read_lt
  have hle := h.written_le
  have hhigh := geo.high
  have hleft : (shm.writeIndex + 2 ^ 64 - shm.readIndex) % 2 ^ 64 = written - shm.readIndex := by
    rw [h.write_eq]
    omega
  simp only [dataFrames, hleft]
  exact h.frames.dataFramesFrom geo (by omega)

theorem Frames.eight_mul_length_le {maxBytes i j : Nat} {ring : Mem} {messages : List Message}
    (h : Frames size maxBytes ring i j messages) : i + 8 * messages.length ≤ j := by
  induction h with
  | nil i => simp
  | @data i j message rest _ _ ih =>
    have := header_le_frameBytes message.length
    rw [List.length_cons]
    omega
  | wrap _ _ ih => omega

end Parse

@[simp] theorem Peers.put_self (s : Peers) (side : Side) (result : Endpoint × World) :
    (s.put side result).endpoint side = result.1 := by
  cases side <;> rfl

@[simp] theorem Peers.put_other (s : Peers) (side : Side) (result : Endpoint × World) :
    (s.put side result).endpoint side.other = s.endpoint side.other := by
  cases side <;> rfl

@[simp] theorem Peers.put_by_other (s : Peers) (side : Side) (result : Endpoint × World) :
    (s.put side.other result).endpoint side = s.endpoint side := by
  cases side <;> rfl

theorem takeFront_length (bufferSize : Nat) (messages : List Message) :
    (takeFront bufferSize messages).2.length +
      (if (takeFront bufferSize messages).1.isOk then 1 else 0) = messages.length := by
  cases messages with
  | nil => rfl
  | cons message rest =>
    simp only [takeFront]
    split <;> rfl

def acceptedSends (w : World) : Nat := w.sends.countP fun call => call.2.ok

def blockedSends (w : World) : Nat :=
  w.sends.countP fun call => decide (call.2.code = .kWouldBlock)

def acceptedRecvs (w : World) : Nat := w.recvs.countP fun result => result.isOk

/-- The counters against the calls made so far. `opened` is the sender as its
open left it. -/
structure Conserves (layout : HeaderLayout) (opened : Endpoint) (sender : Side) (s : Peers) :
    Prop where
  sent : acceptedSends s.world =
    s.world.shm.sendOk + (s.endpoint sender).localOutbox.length
  carried : s.world.shm.sendOk = s.world.shm.recvOk + dataFrames layout s.world.shm
  received : acceptedRecvs s.world = s.world.shm.recvOk
  dropped : s.world.shm.droppedWhenFull =
    if opened.options.dropWhenFull then blockedSends s.world % 2 ^ 64 else 0
  pending : (s.endpoint sender).localOutbox.length ≤ max 4 (2 * layout.capacity.toNat)

/-- What the calls keep. Each message taken off the ring moved the read index by
a frame header at least, so `sendOk` stays below `2 ^ 61` and does not wrap. -/
structure Counted (layout : HeaderLayout) (opened : Endpoint) (sender : Side) (s : Peers) :
    Prop where
  ring : ∃ written messages, RingState layout.ringBytes.toNat layout.messageMaxBytes.toNat
    s.world.shm written messages ∧ s.world.shm.sendOk = s.world.shm.recvOk + messages.length
  taken : 8 * s.world.shm.recvOk ≤ s.world.shm.readIndex
  ready : ∀ side, Ready layout (s.endpoint side)
  options : (s.endpoint sender).options = opened.options
  idle : (s.endpoint sender.other).localOutbox = []
  sent : acceptedSends s.world =
    s.world.shm.sendOk + (s.endpoint sender).localOutbox.length
  received : acceptedRecvs s.world = s.world.shm.recvOk
  dropped : s.world.shm.droppedWhenFull =
    if opened.options.dropWhenFull then blockedSends s.world % 2 ^ 64 else 0
  pending : (s.endpoint sender).localOutbox.length ≤ localOutboxLimit opened

section Steps

variable {layout : HeaderLayout} {opened : Endpoint} {sender : Side} {s : Peers}

theorem Counted.conserves (geo : Geometry layout layout.ringBytes.toNat)
    (hcapacity : opened.options.capacity = layout.capacity) (h : Counted layout opened sender s) :
    Conserves layout opened sender s := by
  obtain ⟨written, messages, hring, hcarried⟩ := h.ring
  have hlimit : localOutboxLimit opened = max 4 (2 * layout.capacity.toNat) := by
    unfold localOutboxLimit
    rw [hcapacity, Nat.mul_comm]
  exact ⟨h.sent, by rw [hring.dataFrames_eq geo]; exact hcarried, h.received, h.dropped,
    hlimit ▸ h.pending⟩

theorem Counted.send (geo : Geometry layout layout.ringBytes.toNat)
    (h : Counted layout opened sender s) (buffer : SendBuffer) :
    ∃ messages status flushed written,
      Sent layout layout.ringBytes.toNat s.world messages (s.endpoint sender) buffer
        (sendCall layout (s.endpoint sender) buffer s.world) status flushed written ∧
      Counted layout opened sender
        (s.put sender (sendCall layout (s.endpoint sender) buffer s.world)) := by
  obtain ⟨written, messages, hring, hcarried⟩ := h.ring
  obtain ⟨status, flushed, written', hsent⟩ := sendCall_sent geo buffer (h.ready sender) hring
  have htaken := h.taken
  have hread := hsent.readIndex
  have hroom := hsent.ring.frames.eight_mul_length_le
  have hle := hsent.ring.written_le
  rw [List.length_append] at hroom
  have hsendOk : (sendCall layout (s.endpoint sender) buffer s.world).2.shm.sendOk =
      s.world.shm.sendOk + flushed.length := by
    rw [hsent.sendOk (by omega), Nat.mod_eq_of_lt (by omega)]
  have hlimit : localOutboxLimit (s.endpoint sender) = localOutboxLimit opened := by
    unfold localOutboxLimit
    rw [h.options]
  have hsplit := hsent.outbox
  have hold := h.sent
  refine ⟨messages, status, flushed, written', hsent, ?_⟩
  constructor
  case ring =>
    refine ⟨written', messages ++ flushed, by rw [Peers.put_world]; exact hsent.ring, ?_⟩
    rw [Peers.put_world, hsendOk, hsent.recvOk, List.length_append]
    omega
  case taken =>
    rw [Peers.put_world, hsent.recvOk, hread]
    exact htaken
  case ready => exact Peers.ready_put h.ready hsent.ready
  case options => rw [Peers.put_self, hsent.options, h.options]
  case idle => rw [Peers.put_other, h.idle]
  case sent =>
    simp only [acceptedSends] at hold ⊢
    rw [Peers.put_world, Peers.put_self, hsent.sends, hsendOk, List.countP_append, hold,
      List.countP_singleton]
    dsimp only
    omega
  case received =>
    simp only [acceptedRecvs]
    rw [Peers.put_world, hsent.recvs, hsent.recvOk]
    exact h.received
  case dropped =>
    have hbefore := h.dropped
    simp only [blockedSends] at hbefore ⊢
    rw [Peers.put_world, hsent.dropped, hsent.sends, List.countP_append, List.countP_singleton,
      hbefore, h.options]
    by_cases hdrop : opened.options.dropWhenFull = true
    · by_cases hblocked : status.code = .kWouldBlock
      · simp [hdrop, hblocked]
      · simp [hdrop, hblocked]
    · simp [hdrop]
  case pending =>
    rw [Peers.put_self, ← hlimit]
    exact hsent.limit (hlimit ▸ h.pending)

theorem Counted.of_recv (h : Counted layout opened sender s) {result : Endpoint × World}
    {answer : Result Message} (hready : Ready layout result.1) (hidle : result.1.localOutbox = [])
    (hrecvs : result.2.recvs = s.world.recvs ++ [answer]) (hcounts : RecvCounts s.world answer result.2)
    (hring : ∃ written messages, RingState layout.ringBytes.toNat layout.messageMaxBytes.toNat
      result.2.shm written messages ∧ s.world.shm.sendOk =
        s.world.shm.recvOk + (if answer.isOk then 1 else 0) + messages.length) :
    Counted layout opened sender (s.put sender.other result) := by
  obtain ⟨written, messages, hring, hcarried⟩ := hring
  have htaken := h.taken
  have hmoved := hcounts.read
  have hle := hring.read_lt
  have hrecvOk : result.2.shm.recvOk =
      s.world.shm.recvOk + if answer.isOk then 1 else 0 := by
    rw [hcounts.recvOk]
    split at hmoved
    · rename_i hok
      rw [if_pos hok, if_pos hok, Nat.mod_eq_of_lt (by omega)]
    · rename_i hno
      rw [if_neg hno, if_neg hno, Nat.add_zero]
  constructor
  case ring =>
    refine ⟨written, messages, by rw [Peers.put_world]; exact hring, ?_⟩
    rw [Peers.put_world, hcounts.sendOk, hrecvOk]
    exact hcarried
  case taken =>
    rw [Peers.put_world, hrecvOk]
    split at hmoved
    · rename_i hok
      rw [if_pos hok]
      omega
    · rename_i hno
      rw [if_neg hno]
      omega
  case ready => exact Peers.ready_put h.ready hready
  case options => rw [Peers.put_by_other, h.options]
  case idle => rw [Peers.put_self, hidle]
  case sent =>
    have hold := h.sent
    simp only [acceptedSends] at hold ⊢
    rw [Peers.put_world, Peers.put_by_other, hcounts.sends, hcounts.sendOk]
    exact hold
  case received =>
    have hold := h.received
    simp only [acceptedRecvs] at hold ⊢
    rw [Peers.put_world, hrecvs, hrecvOk, List.countP_append, List.countP_singleton, hold]
  case dropped =>
    have hold := h.dropped
    simp only [blockedSends] at hold ⊢
    rw [Peers.put_world, hcounts.dropped, hcounts.sends]
    exact hold
  case pending => rw [Peers.put_by_other]; exact h.pending

theorem Counted.recv (geo : Geometry layout layout.ringBytes.toNat)
    (h : Counted layout opened sender s) (buffer : RecvBuffer) :
    ∃ result, recvCall layout 2 (s.endpoint sender.other) buffer s.world = some result ∧
      Counted layout opened sender (s.put sender.other result) := by
  obtain ⟨written, messages, hring, hcarried⟩ := h.ring
  have hready := h.ready sender.other
  by_cases hnull : buffer.size > 0 ∧ buffer.isNull = true
  · exact ⟨_, recvCall_null 2 s.world hready hnull,
      h.of_recv hready h.idle rfl ⟨rfl, rfl, rfl, rfl, le_refl _⟩
        ⟨written, messages, hring, hcarried⟩⟩
  · obtain ⟨flushed, written', result, hflush, hcall, hready', htake, hwrapped⟩ :=
      recvCall_take geo 0 hready hnull hring
    -- the receiver has nothing of its own to flush
    obtain ⟨rfl, -⟩ := List.append_eq_nil_iff.mp (hflush.outbox.symm.trans h.idle)
    rw [processIoOnce_nil layout 1 s.world h.idle] at hflush htake hwrapped
    rw [List.append_nil] at htake
    refine ⟨result, hcall, ?_⟩
    rcases Nat.lt_or_eq_of_le hflush.ring.written_le with hlt | heq
    · obtain ⟨hreceived, hcounts⟩ := htake hlt
      have hlength := takeFront_length buffer.size.toNat messages
      exact h.of_recv hready' (hreceived.outbox.trans h.idle) hreceived.history hcounts
        ⟨written', _, hreceived.ring, by omega⟩
    · obtain ⟨hep, hworld⟩ := hwrapped heq
      refine h.of_recv hready' (by rw [hep]; exact h.idle) (by rw [hworld]) ?_ ?_
      · rw [hworld]
        exact ⟨rfl, rfl, rfl, rfl, le_refl _⟩
      · rw [hworld]
        exact ⟨written, messages, hring, hcarried⟩

theorem Counted.step (geo : Geometry layout layout.ringBytes.toNat)
    (h : Counted layout opened sender s) (call : SendBuffer ⊕ RecvBuffer) :
    ∃ s', s.step layout (sender.makes call) = some s' ∧ Counted layout opened sender s' := by
  cases call with
  | inl buffer =>
    obtain ⟨_, _, _, _, -, hcounted⟩ := h.send geo buffer
    exact ⟨_, rfl, hcounted⟩
  | inr buffer =>
    obtain ⟨result, hcall, hcounted⟩ := h.recv geo buffer
    exact ⟨_, congrArg (Option.map _) hcall, hcounted⟩

theorem Counted.runs (geo : Geometry layout layout.ringBytes.toNat)
    (h : Counted layout opened sender s) (calls : List (SendBuffer ⊕ RecvBuffer)) :
    ∃ s', Foundation.runs (Peers.step layout) s (calls.map sender.makes) = some s' ∧
      Counted layout opened sender s' := by
  induction calls generalizing s with
  | nil => exact ⟨s, rfl, h⟩
  | cons call rest ih =>
    obtain ⟨s₁, hstep, h₁⟩ := h.step geo call
    obtain ⟨s', hrun, h'⟩ := ih h₁
    exact ⟨s', runs_cons_some.mpr ⟨s₁, hstep, hrun⟩, h'⟩

end Steps

theorem Counted.start {layout : HeaderLayout} {server client : Endpoint}
    (hserver : Opened layout server) (hclient : Opened layout client) (sender : Side) :
    Counted layout (Peers.endpoint ⟨server, client, { shm := clearedShm }⟩ sender) sender
      ⟨server, client, { shm := clearedShm }⟩ := by
  have hopened : ∀ side, Opened layout
      (Peers.endpoint ⟨server, client, { shm := clearedShm }⟩ side) := by
    intro side
    cases side
    · exact hserver
    · exact hclient
  exact {
    ring := ⟨0, [], ⟨.cleared _, .nil 0⟩, rfl⟩
    taken := le_refl _
    ready := fun side => (hopened side).ready
    options := rfl
    idle := (hopened sender.other).outbox
    sent := by rw [(hopened sender).outbox]; rfl
    received := rfl
    dropped := by split <;> rfl
    pending := by rw [(hopened sender).outbox]; exact Nat.zero_le _ }

/-- Every sequence of whole calls returns, and leaves the counters in agreement
with the calls, the outbox and the ring. -/
theorem counters_conserve_messages {options : ChannelOptions} {region : Region}
    {server client : Endpoint} (hopen : BothOpen options region server client) (sender : Side)
    (calls : List (SendBuffer ⊕ RecvBuffer)) :
    ∃ s, runs (Peers.step region.layout) ⟨server, client, { shm := region.shm }⟩
        (calls.map sender.makes) = some s ∧
      Conserves region.layout
        (Peers.endpoint ⟨server, client, { shm := region.shm }⟩ sender) sender s := by
  have hcapacity : (Peers.endpoint ⟨server, client, { shm := region.shm }⟩
      sender).options.capacity = region.layout.capacity := by
    cases sender
    · exact hopen.server_opened.capacity
    · exact hopen.client_opened.capacity
  have hstart := Counted.start hopen.server_opened hopen.client_opened sender
  rw [← hopen.shm_eq] at hstart
  obtain ⟨s, hrun, hcounted⟩ := hstart.runs hopen.geometry calls
  exact ⟨s, hrun, hcounted.conserves hopen.geometry hcapacity⟩

/-- Of six messages one is in the slot, four are in the outbox and one was
dropped. -/
theorem counters_conserve_six :
    ∃ s, runs (Peers.step (serverLayout slotOptions)) (Peers.fresh slotOptions)
        ((List.replicate 6 (.inl slotBuffer)).map Side.server.makes) = some s ∧
      (acceptedSends s.world = 5 ∧ blockedSends s.world = 1 ∧
        dataFrames (serverLayout slotOptions) s.world.shm = 1) ∧
      Conserves (serverLayout slotOptions) (Peers.fresh slotOptions).server .server s := by
  obtain ⟨s, hrun, hs⟩ := Option.map_eq_some_iff.mp (show (runs
      (Peers.step (serverLayout slotOptions)) (Peers.fresh slotOptions)
      ((List.replicate 6 (.inl slotBuffer)).map Side.server.makes)).map (fun s =>
        decide (acceptedSends s.world = 5 ∧ blockedSends s.world = 1 ∧
          dataFrames (serverLayout slotOptions) s.world.shm = 1)) = some true by decide +kernel)
  obtain ⟨s', hrun', hconserves⟩ := counters_conserve_messages slot_opens .server
    (List.replicate 6 (.inl slotBuffer))
  cases Option.some.inj (hrun.symm.trans hrun')
  exact ⟨s, hrun, of_decide_eq_true hs, hconserves⟩

/-- `n` sends to a slot that nobody reads: each one is accepted or blocked. -/
theorem slot_unread (n : Nat) :
    ∃ s, runs (Peers.step (serverLayout slotOptions)) (Peers.fresh slotOptions)
        (List.replicate n slotSend) = some s ∧
      Counted (serverLayout slotOptions) (Peers.fresh slotOptions).server .server s ∧
      s.world.recvs = [] ∧ acceptedSends s.world + blockedSends s.world = n := by
  induction n with
  | zero =>
    exact ⟨_, rfl, .start slot_opens.server_opened slot_opens.client_opened .server, rfl, rfl⟩
  | succ n ih =>
    obtain ⟨s, hrun, hcounted, hrecvs, hcount⟩ := ih
    obtain ⟨_, status, _, _, hsent, hcounted'⟩ := hcounted.send slot_geometry slotBuffer
    have hanswer : (if status.ok then 1 else 0) +
        (if status.code = .kWouldBlock then 1 else 0) = 1 := by
      by_cases hok : status.ok
      · have hcode : status.code = .kOk := of_decide_eq_true hok
        rw [if_pos hok, if_neg (by rw [hcode]; decide)]
      · rw [if_neg hok, if_pos (hsent.blocks (by simp [slotBuffer])
          (by rw [hcounted.options]; decide) hok)]
    refine ⟨_, ?_, hcounted', ?_, ?_⟩
    · rw [List.replicate_succ', runs_snoc]
      exact ⟨s, hrun, rfl⟩
    · rw [Peers.put_world, hsent.recvs, hrecvs]
    · simp only [acceptedSends, blockedSends] at hcount ⊢
      rw [Peers.put_world, hsent.sends]
      simp only [List.countP_append, List.countP_singleton, decide_eq_true_eq]
      omega

/-- The slot and the outbox hold six messages at the most, so `2 ^ 64` sends or
more are dropped here: the counter has wrapped. -/
theorem dropped_counter_wraps :
    ∃ s, runs (Peers.step (serverLayout slotOptions)) (Peers.fresh slotOptions)
        (List.replicate (2 ^ 64 + 6) slotSend) = some s ∧
      (Peers.fresh slotOptions).server.options.dropWhenFull = true ∧
      s.world.shm.droppedWhenFull ≠ blockedSends s.world := by
  obtain ⟨s, hrun, hcounted, hrecvs, hcount⟩ := slot_unread (2 ^ 64 + 6)
  obtain ⟨written, messages, hring, hcarried⟩ := hcounted.ring
  have hrecvOk : 0 = s.world.shm.recvOk := by
    rw [← hcounted.received, acceptedRecvs, hrecvs, List.countP_nil]
  have hframes := hring.frames.eight_mul_length_le
  have hwindow := hring.window
  have hpending := hcounted.pending
  have hsent := hcounted.sent
  have hdropped := hcounted.dropped
  change written ≤ s.world.shm.readIndex + 16 at hwindow
  change _ ≤ 4 at hpending
  rw [if_pos (show (Peers.fresh slotOptions).server.options.dropWhenFull = true from rfl)]
    at hdropped
  refine ⟨s, hrun, rfl, ?_⟩
  omega

end Corekit.Ipc
