import Corekit.Ipc.Interleaving

/-! The consumer against the interleaved producer, and the channel as a whole:
in every state of every interleaving the received messages are a prefix of the
accepted ones. -/
namespace Corekit.Ipc
open Corekit.Api Corekit.Foundation

section Consumer

variable {layout : HeaderLayout} {size : Nat} {w w' : World} {g g' : Ghost}

abbrev RecvWp (layout : HeaderLayout) (size : Nat) (c : ShmCmd α)
    (post : α → World → Ghost → Prop) (w : World) (g : Ghost) : Prop :=
  c.Wp exec (RingInv size layout.messageMaxBytes.toNat) (ProducerMoves size)
    ConsumerMoves post w g

structure RecvSetup (layout : HeaderLayout) (ep : Endpoint) : Prop where
  outbox : ep.localOutbox = []
  maxBytes : ep.options.messageMaxBytes = layout.messageMaxBytes

/-- What the consumer knows at the head of its loop. Up to the write index it
loaded, which may be stale, it owns complete frames. -/
structure RecvAt (size maxBytes : Nat) (st : RecvLoop) (w : World) (g : Ghost) : Prop where
  read : w.shm.readIndex = st.read
  read_lt : st.read < st.write
  write_le : st.write ≤ g.written
  write_lt : st.write < 2 ^ 64
  contiguous : st.contiguous = size - st.read % size
  frames : ∃ messages, Frames size maxBytes w.shm.ring st.read st.write messages

theorem RecvAt.moves {st : RecvLoop} (geo : Geometry layout size)
    (h : RecvAt size layout.messageMaxBytes.toNat st w g)
    (hinv : RingInv size layout.messageMaxBytes.toNat w g)
    (hmoves : ProducerMoves size w g w' g') :
    RecvAt size layout.messageMaxBytes.toNat st w' g' where
  read := hmoves.readIndex.trans h.read
  read_lt := h.read_lt
  write_le := h.write_le.trans hmoves.written_le
  write_lt := h.write_lt
  contiguous := h.contiguous
  frames := by
    obtain ⟨messages, hframes⟩ := h.frames
    refine ⟨messages, hframes.congr geo (h.read ▸ hinv.read_align) ?_⟩
    intro x hlow hhigh
    exact hmoves.ring x (by rw [h.read]; exact hlow) (by have := h.write_le; omega)

/-- A call that has its result but has not returned it yet. -/
structure RecvDone (layout : HeaderLayout) (result : Result Message) (ep : Endpoint)
    (w : World) (g : Ghost) : Prop where
  setup : RecvSetup layout ep
  consumed : g.consumed = okMessages w.recvs ++ result.toOption.toList

def RecvAfter (layout : HeaderLayout) (size : Nat) :
    RecvNext × Endpoint → World → Ghost → Prop
  | (.inl st, ep), w, g => RecvSetup layout ep ∧ g.consumed = okMessages w.recvs ∧
      RecvAt size layout.messageMaxBytes.toNat st w g
  | (.inr result, ep), w, g => RecvDone layout result ep w g

def RecvPointInv (layout : HeaderLayout) (size : Nat) :
    RecvPoint → World → Ghost → Prop
  | .idle ep, w, g => RecvSetup layout ep ∧ g.consumed = okMessages w.recvs
  | .loop ep st, w, g => RecvSetup layout ep ∧ g.consumed = okMessages w.recvs ∧
      RecvAt size layout.messageMaxBytes.toNat st w g

theorem recvWp_done {result : Result Message} {ep : Endpoint}
    (h : RecvDone layout result ep w g) :
    RecvWp layout size (.ret (.inr result, ep)) (RecvAfter layout size) w g := by
  intro w' g' hmoves _
  exact ⟨h.setup, by rw [hmoves.consumed, hmoves.recvs, h.consumed]⟩

theorem recvWp_again {st : RecvLoop} {ep : Endpoint} (geo : Geometry layout size)
    (hinv : RingInv size layout.messageMaxBytes.toNat w g) (hsetup : RecvSetup layout ep)
    (hrecvs : g.consumed = okMessages w.recvs)
    (hat : RecvAt size layout.messageMaxBytes.toNat st w g) :
    RecvWp layout size (.ret (.inl st, ep)) (RecvAfter layout size) w g := by
  intro w' g' hmoves _
  exact ⟨hsetup, by rw [hmoves.consumed, hmoves.recvs, hrecvs], hat.moves geo hinv hmoves⟩

theorem RingInv.recvAt {bufferSize : Nat} (geo : Geometry layout size)
    (hinv : RingInv size layout.messageMaxBytes.toNat w g)
    (hlt : w.shm.readIndex < w.shm.writeIndex) :
    RecvAt size layout.messageMaxBytes.toNat
      ⟨bufferSize, w.shm.readIndex, w.shm.writeIndex, contiguousFrom layout w.shm.readIndex⟩
      w g := by
  -- a wrapped index reads zero, which is not above any read index
  have hwritten : w.shm.writeIndex = g.written := by
    have := hinv.written_le
    have hwrite := hinv.write_eq
    omega
  obtain ⟨messages, hframes, -⟩ := hinv.frames
  exact {
    read := rfl
    read_lt := hlt
    write_le := hwritten.le
    write_lt := by rw [hinv.write_eq]; exact Nat.mod_lt _ (by decide)
    contiguous := geo.contiguousFrom_eq _
    frames := ⟨messages, hwritten ▸ hframes⟩ }

theorem recvWp_look {ep : Endpoint} {bufferSize read : Nat} (geo : Geometry layout size)
    (hsetup : RecvSetup layout ep) (hread : w.shm.readIndex = read)
    (hrecvs : g.consumed = okMessages w.recvs) :
    RecvWp layout size (loadWriteIndex.bind fun write =>
        if read ≥ write then .ret (.inr (.error noMessage), blockRecv ep)
        else .ret (.inl ⟨bufferSize, read, write, contiguousFrom layout read⟩, ep))
      (RecvAfter layout size) w g := by
  intro w₁ g₁ hmoves₁ hinv₁
  have hrecvs₁ : g₁.consumed = okMessages w₁.recvs := by
    rw [hmoves₁.consumed, hmoves₁.recvs, hrecvs]
  have hread₁ : w₁.shm.readIndex = read := hmoves₁.readIndex.trans hread
  subst hread₁
  refine ⟨g₁, .refl _ _, hinv₁, ?_⟩
  change RecvWp layout size (if w₁.shm.readIndex ≥ w₁.shm.writeIndex then _ else _) _ w₁ g₁
  split
  · exact recvWp_done ⟨⟨hsetup.outbox, hsetup.maxBytes⟩, by rw [hrecvs₁]; simp [Except.toOption]⟩
  · rename_i hlt
    exact recvWp_again geo hinv₁ hsetup hrecvs₁ (hinv₁.recvAt geo (by omega))

theorem RecvAt.head {st : RecvLoop} (hat : RecvAt size layout.messageMaxBytes.toNat st w g) :
    (∃ message, FrameAt size layout.messageMaxBytes.toNat w.shm.ring st.read message ∧
      st.read + frameBytes message.length ≤ st.write) ∨
    (WrapAt size w.shm.ring st.read ∧ st.read + st.contiguous ≤ st.write) := by
  obtain ⟨messages, hframes⟩ := hat.frames
  obtain ⟨message, _, -, hhead, hrest⟩ | ⟨hhead, hrest⟩ := hframes.head_cases hat.read_lt
  · exact .inl ⟨message, hhead, hrest.le⟩
  · exact .inr ⟨hhead, by rw [hat.contiguous]; exact hrest.le⟩

theorem RingInv.takeFrame {message : Message}
    (hinv : RingInv size layout.messageMaxBytes.toNat w g)
    (hhead : FrameAt size layout.messageMaxBytes.toNat w.shm.ring w.shm.readIndex message)
    (hle : w.shm.readIndex + frameBytes message.length ≤ g.written)
    (hlt : w.shm.readIndex + frameBytes message.length < 2 ^ 64) :
    RingInv size layout.messageMaxBytes.toNat
        { w with shm.readIndex := (w.shm.readIndex + frameBytes message.length) % 2 ^ 64 }
        { g with consumed := g.consumed ++ [message] } ∧
      ConsumerMoves w g
        { w with shm.readIndex := (w.shm.readIndex + frameBytes message.length) % 2 ^ 64 }
        { g with consumed := g.consumed ++ [message] } := by
  have hbytes := header_le_frameBytes message.length
  have hwin := hinv.window
  rw [Nat.mod_eq_of_lt hlt]
  obtain ⟨messages, hframes, hpub⟩ := hinv.frames
  obtain ⟨first, rest, rfl, hfirst, hrest⟩ | ⟨hwrap, -⟩ := hframes.head_cases (by omega)
  · cases hfirst.unique hhead
    refine ⟨{ hinv with
      read_le := hle
      window := hwin.trans (by dsimp only; omega)
      read_lt := hlt
      read_align := Nat.dvd_add hinv.read_align (eight_dvd_frameBytes _)
      frames := ⟨rest, hrest, by simp [hpub]⟩
      received := hinv.received.trans (List.prefix_append _ _) }, ?_⟩
    exact ⟨rfl, rfl, rfl, rfl, rfl, rfl, Nat.le_add_right _ _⟩
  · exact absurd hwrap hhead.not_wrap

theorem RingInv.takeWrap (geo : Geometry layout size)
    (hinv : RingInv size layout.messageMaxBytes.toNat w g)
    (hhead : WrapAt size w.shm.ring w.shm.readIndex)
    (hle : w.shm.readIndex + (size - w.shm.readIndex % size) ≤ g.written)
    (hlt : w.shm.readIndex + (size - w.shm.readIndex % size) < 2 ^ 64) :
    RingInv size layout.messageMaxBytes.toNat
        { w with shm.readIndex :=
          (w.shm.readIndex + (size - w.shm.readIndex % size)) % 2 ^ 64 } g ∧
      ConsumerMoves w g { w with shm.readIndex :=
          (w.shm.readIndex + (size - w.shm.readIndex % size)) % 2 ^ 64 } g := by
  have hfit := geo.header_fits hinv.read_align
  have hwin := hinv.window
  rw [Nat.mod_eq_of_lt hlt]
  obtain ⟨messages, hframes, hpub⟩ := hinv.frames
  obtain ⟨first, _, -, hfirst, -⟩ | ⟨-, hrest⟩ := hframes.head_cases (by omega)
  · exact absurd hhead hfirst.not_wrap
  · refine ⟨{ hinv with
      read_le := hle
      window := hwin.trans (by dsimp only; omega)
      read_lt := hlt
      read_align := by rw [lap_end_eq _ (by omega)]; exact geo.eight_dvd.mul_right _
      frames := ⟨messages, hrest, hpub⟩ }, ?_⟩
    exact ⟨rfl, rfl, rfl, rfl, rfl, rfl, Nat.le_add_right _ _⟩

/-- Reading past a wrap marker. It ends no later than the write index that the
consumer loaded, so the new read index does not wrap. -/
theorem advanceRead_wp {ep : Endpoint} {st : RecvLoop} (geo : Geometry layout size)
    (hinv : RingInv size layout.messageMaxBytes.toNat w g) (hsetup : RecvSetup layout ep)
    (hrecvs : g.consumed = okMessages w.recvs)
    (hat : RecvAt size layout.messageMaxBytes.toNat st w g)
    (hwrap : WrapAt size w.shm.ring st.read)
    (hle : st.read + st.contiguous ≤ st.write) :
    RecvWp layout size (advanceRead layout ep st.bufferSize st.read st.contiguous)
      (RecvAfter layout size) w g := by
  have hfit := geo.header_fits (hat.read ▸ hinv.read_align)
  have hwrite := hat.write_le
  have hlt := hat.write_lt
  have hcont := hat.contiguous
  intro w₁ g₁ hmoves₁ hinv₁
  have hat₁ := hat.moves geo hinv hmoves₁
  have hwrap₁ : WrapAt size w₁.shm.ring w₁.shm.readIndex := by
    rw [hat₁.read]
    refine hwrap.congr (fun x hlow hhigh => hmoves₁.ring x (hat.read ▸ hlow) hhigh) hfit ?_
    omega
  have hle₁ := hat₁.write_le
  obtain ⟨hinv₂, hmoves₂⟩ := hinv₁.takeWrap geo hwrap₁
    (by rw [hat₁.read]; omega) (by rw [hat₁.read]; omega)
  rw [hat₁.read, ← hcont] at hinv₂ hmoves₂
  refine ⟨g₁, hmoves₂, hinv₂, ?_⟩
  refine recvWp_look geo hsetup rfl ?_
  exact hmoves₁.consumed.trans (hrecvs.trans (congrArg okMessages hmoves₁.recvs.symm))

theorem tryRecv_wp {ep : Endpoint} {buffer : RecvBuffer} (geo : Geometry layout size)
    (hsetup : RecvSetup layout ep) (hrecvs : g.consumed = okMessages w.recvs) :
    RecvWp layout size (tryRecv layout ep buffer) (RecvAfter layout size) w g := by
  have hreject : ∀ {status : Status},
      RecvWp layout size (.ret (.inr (.error status), ep)) (RecvAfter layout size) w g :=
    recvWp_done ⟨hsetup, by rw [hrecvs]; exact (List.append_nil _).symm⟩
  unfold tryRecv processIoOnce
  rw [hsetup.outbox]
  simp only [flushOutbox, Cmd.pure_eq_ret, Cmd.bind_eq_bind, Cmd.ret_bind, loadReadIndex_bind]
  split
  · exact hreject
  split
  · exact hreject
  intro w₁ g₁ hmoves₁ hinv₁
  refine ⟨g₁, .refl _ _, hinv₁, ?_⟩
  have haligned : ∀ write, skipShortTail layout { ep with localOutbox := [] }
      ⟨buffer.size.toNat, w₁.shm.readIndex, write, contiguousFrom layout w₁.shm.readIndex⟩ =
      .ret (.inl ⟨buffer.size.toNat, w₁.shm.readIndex, write,
        contiguousFrom layout w₁.shm.readIndex⟩, { ep with localOutbox := [] }) :=
    fun write => skipShortTail_aligned geo hinv₁.read_align (geo.contiguousFrom_eq _)
  simp only [exec, haligned]
  exact recvWp_look geo ⟨rfl, hsetup.maxBytes⟩ rfl
    (by rw [hmoves₁.consumed, hmoves₁.recvs, hrecvs])

structure RecvFrame (size maxBytes : Nat) (st : RecvLoop) (message : Message) (w : World)
    (g : Ghost) : Prop where
  loop : RecvAt size maxBytes st w g
  head : FrameAt size maxBytes w.shm.ring st.read message
  le_write : st.read + frameBytes message.length ≤ st.write
  recvs : g.consumed = okMessages w.recvs

theorem RecvFrame.moves {st : RecvLoop} {message : Message} (geo : Geometry layout size)
    (h : RecvFrame size layout.messageMaxBytes.toNat st message w g)
    (hinv : RingInv size layout.messageMaxBytes.toNat w g)
    (hmoves : ProducerMoves size w g w' g') :
    RecvFrame size layout.messageMaxBytes.toNat st message w' g' where
  loop := h.loop.moves geo hinv hmoves
  head := h.head.congr
    (fun x hlow hhigh => hmoves.ring x (h.loop.read ▸ hlow) hhigh)
    (h.le_write.trans h.loop.write_le)
  le_write := h.le_write
  recvs := by rw [hmoves.consumed, hmoves.recvs, h.recvs]

theorem recvWp_loadU32 {off : Nat} {next : Nat → ShmCmd α} {post : α → World → Ghost → Prop}
    (h : ∀ w' g', ProducerMoves size w g w' g' →
      RingInv size layout.messageMaxBytes.toNat w' g' →
      RecvWp layout size (next (w'.shm.ring.loadLE 4 off)) post w' g') :
    RecvWp layout size (.op (.loadU32 off) next) post w g :=
  fun w' g' hrely hinv => ⟨g', .refl _ _, hinv, h w' g' hrely hinv⟩

theorem recvWp_take {ep : Endpoint} {st : RecvLoop} {message : Message}
    (geo : Geometry layout size) (hinv : RingInv size layout.messageMaxBytes.toNat w g)
    (hsetup : RecvSetup layout ep)
    (hframe : RecvFrame size layout.messageMaxBytes.toNat st message w g) :
    RecvWp layout size
      (.op (.storeReadIndex ((st.read + frameBytes message.length) % 2 ^ 64)) fun _ =>
        .op .addRecvOk fun _ => .ret (.inr (.ok message), ep))
      (RecvAfter layout size) w g := by
  intro w₁ g₁ hmoves₁ hinv₁
  have h₁ := hframe.moves geo hinv hmoves₁
  have hread₁ := h₁.loop.read
  have hle := h₁.le_write
  have hwrite := h₁.loop.write_le
  have hlt := h₁.loop.write_lt
  obtain ⟨hinv₂, hmoves₂⟩ := hinv₁.takeFrame (hread₁ ▸ h₁.head) (by omega) (by omega)
  rw [hread₁] at hinv₂ hmoves₂
  refine ⟨_, hmoves₂, hinv₂, ?_⟩
  intro w₃ g₃ hmoves₃ hinv₃
  refine ⟨g₃, ⟨rfl, rfl, rfl, rfl, rfl, rfl, le_refl _⟩, { hinv₃ with }, ?_⟩
  refine recvWp_done ⟨hsetup, ?_⟩
  rw [hmoves₃.consumed]
  exact congrArg (· ++ [message]) (h₁.recvs.trans (congrArg okMessages hmoves₃.recvs.symm))

theorem tryRecvRound_wp {ep : Endpoint} {st : RecvLoop} (geo : Geometry layout size)
    (hinv : RingInv size layout.messageMaxBytes.toNat w g) (hsetup : RecvSetup layout ep)
    (hrecvs : g.consumed = okMessages w.recvs)
    (hat : RecvAt size layout.messageMaxBytes.toNat st w g) :
    RecvWp layout size (tryRecvRound layout ep st) (RecvAfter layout size) w g := by
  unfold tryRecvRound
  simp only [Cmd.bind_eq_bind, Cmd.pure_eq_ret, geo.and_mask, loadU32_bind]
  refine recvWp_loadU32 ?_
  intro w₁ g₁ hmoves₁ hinv₁
  have hat₁ := hat.moves geo hinv hmoves₁
  have hrecvs₁ : g₁.consumed = okMessages w₁.recvs := by
    rw [hmoves₁.consumed, hmoves₁.recvs, hrecvs]
  obtain ⟨message, hhead, hle⟩ | ⟨hwrap, hle⟩ := hat₁.head
  · have hframe₁ : RecvFrame size layout.messageMaxBytes.toNat st message w₁ g₁ :=
      ⟨hat₁, hhead, hle, hrecvs₁⟩
    rw [hhead.marker, if_neg (by decide), if_neg (by decide)]
    refine recvWp_loadU32 ?_
    intro w₂ g₂ hmoves₂ hinv₂
    have hframe₂ := hframe₁.moves geo hinv₁ hmoves₂
    have hfit := hframe₂.head.fit
    have hlt := hat.write_lt
    have hcont := hat.contiguous
    rw [hframe₂.head.sizeWord, hsetup.maxBytes, if_neg (by have := hhead.length_le; omega),
      if_neg (by rw [Nat.mod_eq_of_lt (by omega)]; omega)]
    split
    · exact recvWp_done ⟨hsetup, by rw [hframe₂.recvs]; exact (List.append_nil _).symm⟩
    · -- an empty payload is not copied
      split
      · intro w₃ g₃ hmoves₃ hinv₃
        have hframe₃ := hframe₂.moves geo hinv₂ hmoves₃
        refine ⟨g₃, .refl _ _, hinv₃, ?_⟩
        have hbytes := hframe₃.head.bytes
        simp only [exec, frameHeaderBytes]
        rw [hbytes]
        exact recvWp_take geo hinv₃ hsetup hframe₃
      · rename_i hempty
        have hnil : message = [] := List.length_eq_zero_iff.mp (by omega)
        rw [hnil] at hframe₂ ⊢
        exact recvWp_take geo hinv₂ hsetup hframe₂
  · rw [show w₁.shm.ring.loadLE 4 (st.read % size + 4) = kFrameWrap from hwrap, if_pos rfl]
    refine Cmd.Wp.bind (ProducerMoves.refl size) hinv₁ ?_
    refine Cmd.Wp.mono ?_ (advanceRead_wp geo hinv₁ hsetup hrecvs₁ hat₁ hwrap hle)
    rintro ⟨st' | result, ep'⟩ w₂ g₂ hinv₂ hafter
    · obtain ⟨hsetup', hrecvs₂, hat₂⟩ := hafter
      dsimp only
      rw [skipShortTail_aligned geo (hat₂.read ▸ hinv₂.read_align) hat₂.contiguous]
      exact recvWp_again geo hinv₂ hsetup' hrecvs₂ hat₂
    · exact recvWp_done hafter

theorem settleRecv_wp {outcome : RecvNext × Endpoint} (geo : Geometry layout size)
    (hinv : RingInv size layout.messageMaxBytes.toNat w g)
    (hafter : RecvAfter layout size outcome w g) :
    RecvWp layout size (settleRecv outcome) (RecvPointInv layout size) w g := by
  obtain ⟨st | result, ep⟩ := outcome
  · obtain ⟨hsetup, hrecvs, hat⟩ := hafter
    intro w₁ g₁ hmoves₁ hinv₁
    exact ⟨hsetup, by rw [hmoves₁.consumed, hmoves₁.recvs, hrecvs], hat.moves geo hinv hmoves₁⟩
  · intro w₁ g₁ hmoves₁ hinv₁
    have hrecvs : g₁.consumed = okMessages (w₁.recvs ++ [result]) := by
      rw [hmoves₁.consumed, hafter.consumed, hmoves₁.recvs]
      unfold okMessages
      rw [List.filterMap_append]
      cases result <;> rfl
    refine ⟨g₁, ⟨rfl, rfl, rfl, rfl, rfl, rfl, le_refl _⟩,
      { hinv₁ with received := by rw [hrecvs]; exact List.prefix_refl _ }, ?_⟩
    intro w₂ g₂ hmoves₂ _
    exact ⟨hafter.setup, hmoves₂.consumed.trans
      (hrecvs.trans (congrArg okMessages hmoves₂.recvs.symm))⟩

theorem consumer_resume_wp {point : RecvPoint} {buffer : RecvBuffer} {c : ShmCmd RecvPoint}
    (geo : Geometry layout size) (hpoint : RecvPointInv layout size point w g)
    (hinv : RingInv size layout.messageMaxBytes.toNat w g)
    (hresume : (consumer layout).resume point buffer = some c) :
    RecvWp layout size c (RecvPointInv layout size) w g := by
  have hsettle : ∀ outcome w g, RingInv size layout.messageMaxBytes.toNat w g →
      RecvAfter layout size outcome w g →
      RecvWp layout size (settleRecv outcome) (RecvPointInv layout size) w g :=
    fun _ _ _ hinv hafter => settleRecv_wp geo hinv hafter
  cases point with
  | idle ep =>
    obtain ⟨hsetup, hrecvs⟩ := hpoint
    cases Option.some.inj hresume
    exact Cmd.Wp.bind (ProducerMoves.refl size) hinv
      ((tryRecv_wp geo hsetup hrecvs).mono hsettle)
  | loop ep st =>
    obtain ⟨hsetup, hrecvs, hat⟩ := hpoint
    cases Option.some.inj hresume
    exact Cmd.Wp.bind (ProducerMoves.refl size) hinv
      ((tryRecvRound_wp geo hinv hsetup hrecvs hat).mono hsettle)

end Consumer

abbrev Channel (layout : HeaderLayout) :=
  Parallel ShmOp ShmOp.Res World (producer layout) (consumer layout)

def Channel.start (layout : HeaderLayout) (sender receiver : Endpoint) (shm : Shm) :
    Channel layout :=
  ⟨.ret sender, .ret (.idle receiver), { shm := shm }⟩

/-- The channel as a queue of messages, in one state of a run. -/
structure Channel.Faithful {layout : HeaderLayout} (p : Channel layout) : Prop where
  /-- Every message returned by `TryRecv` was accepted, in this order. -/
  delivered : okMessages p.shared.recvs <+: p.shared.accepted
  /-- Only calls that return kOk contribute; at most the call in progress has
  contributed before it returns. -/
  contributed : ∃ pending, pending.length ≤ 1 ∧
    p.shared.accepted = okSends p.shared.sends ++ pending
  sendReturned : ∀ ep : Endpoint, p.left = .ret ep →
    p.shared.accepted = okSends p.shared.sends
  /-- Between two calls of `TryRecv` what the ring holds continues what was
  received: a call that failed has consumed nothing. -/
  recvReturned : ∀ ep : Endpoint, p.right = .ret (.idle ep) → ∃ written inRing unpublished,
    p.shared.shm.writeIndex = written % 2 ^ 64 ∧
    Frames layout.ringBytes.toNat layout.messageMaxBytes.toNat p.shared.shm.ring
      p.shared.shm.readIndex written inRing ∧
    p.shared.accepted = okMessages p.shared.recvs ++ inRing ++ unpublished

section Channel

variable {layout : HeaderLayout} {size : Nat}

def Channel.Inv (size : Nat) (p : Channel layout) : Prop :=
  ∃ g, RingInv size layout.messageMaxBytes.toNat p.shared g ∧
    SendWp layout size p.left (SendPoint layout) p.shared g ∧
    RecvWp layout size p.right (RecvPointInv layout size) p.shared g

theorem Channel.Inv.step (geo : Geometry layout size) {p p' : Channel layout}
    {label : SendBuffer ⊕ RecvBuffer} (h : p.Inv size)
    (hstep : p.step exec label = some p') : p'.Inv size := by
  obtain ⟨g, hinv, hleft, hright⟩ := h
  have hsend : ∀ ep buffer c w g, SendPoint layout ep w g →
      RingInv size layout.messageMaxBytes.toNat w g →
      (producer layout).resume ep buffer = some c →
      SendWp layout size c (SendPoint layout) w g :=
    fun _ _ _ _ _ hpoint hinv hresume => producer_resume_wp geo hpoint hinv hresume
  have hrecv : ∀ point buffer c w g, RecvPointInv layout size point w g →
      RingInv size layout.messageMaxBytes.toNat w g →
      (consumer layout).resume point buffer = some c →
      RecvWp layout size c (RecvPointInv layout size) w g :=
    fun _ _ _ _ _ hpoint hinv hresume => consumer_resume_wp geo hpoint hinv hresume
  -- each side's guarantee is the other side's rely
  exact Parallel.step_wp ConsumerMoves.refl (ProducerMoves.refl size)
    (fun _ _ _ _ _ _ => .trans) (fun _ _ _ _ _ _ => .trans)
    (ProducerMoves.refl size) ConsumerMoves.refl
    (fun _ _ _ _ _ h => h) (fun _ _ _ _ _ h => h) hsend hrecv hinv hleft hright hstep

theorem Channel.Inv.start {sender receiver : Endpoint} (hsender : Opened layout sender)
    (hreceiver : Opened layout receiver) :
    (Channel.start layout sender receiver clearedShm).Inv size := by
  refine ⟨⟨0, [], []⟩, ?_, ?_, ?_⟩
  · exact {
      toRingIndices := .cleared size
      frames := ⟨[], .nil 0, rfl⟩
      received := List.prefix_refl _
      accepted := List.prefix_refl _
      contributed := ⟨[], by simp, rfl⟩ }
  · intro w g hmoves _
    refine SendPoint.moves ⟨?_, ?_, hsender.maxBytes, rfl⟩ hmoves
    · rw [hsender.outbox]
      rfl
    · rw [hsender.outbox]
      simp
  · intro w g hmoves _
    exact ⟨⟨hreceiver.outbox, hreceiver.maxBytes⟩,
      by rw [hmoves.consumed, hmoves.recvs]; rfl⟩

theorem Channel.Inv.faithful {p : Channel layout} (h : p.Inv layout.ringBytes.toNat) :
    p.Faithful := by
  obtain ⟨g, hinv, hleft, hright⟩ := h
  obtain ⟨inRing, hframes, hpub⟩ := hinv.frames
  obtain ⟨unpublished, hacc⟩ := hinv.accepted
  refine ⟨?_, hinv.contributed, ?_, ?_⟩
  · refine hinv.received.trans (List.IsPrefix.trans ?_ hinv.accepted)
    rw [hpub]
    exact List.prefix_append _ _
  · intro ep hret
    rw [hret] at hleft
    exact (hleft _ _ (ConsumerMoves.refl _ _) hinv).sends
  · intro ep hret
    rw [hret] at hright
    have hconsumed := (hright _ _ (ProducerMoves.refl _ _ _) hinv).2
    exact ⟨g.written, inRing, unpublished, hinv.write_eq, hframes, by
      rw [← hacc, hpub, hconsumed]⟩

theorem Channel.Inv.of_run {options : ChannelOptions} {region : Region}
    {server client sender receiver : Endpoint} (hopen : BothOpen options region server client)
    (hroles : (sender, receiver) = (server, client) ∨ (sender, receiver) = (client, server))
    {labels : List (SendBuffer ⊕ RecvBuffer)} {p : Channel region.layout}
    (hrun : runs (Parallel.step exec)
      (Channel.start region.layout sender receiver region.shm) labels = some p) :
    p.Inv region.layout.ringBytes.toNat := by
  have hstart : (Channel.start region.layout sender receiver region.shm).Inv
      region.layout.ringBytes.toNat := by
    rw [hopen.shm_eq]
    rcases hroles with heq | heq <;> cases heq
    · exact .start hopen.server_opened hopen.client_opened
    · exact .start hopen.client_opened hopen.server_opened
  exact runs_invariant (fun _ _ _ h hstep => h.step hopen.geometry hstep) hstart hrun

/-- However the accesses of the two endpoints interleave, the channel is a
faithful FIFO: whichever side opened the region as its server. -/
theorem channel_faithful {options : ChannelOptions} {region : Region}
    {server client sender receiver : Endpoint} (hopen : BothOpen options region server client)
    (hroles : (sender, receiver) = (server, client) ∨ (sender, receiver) = (client, server))
    {labels : List (SendBuffer ⊕ RecvBuffer)} {p : Channel region.layout}
    (hrun : runs (Parallel.step exec)
      (Channel.start region.layout sender receiver region.shm) labels = some p) :
    p.Faithful :=
  (Channel.Inv.of_run hopen hroles hrun).faithful

/-- A message that is delivered before the call that accepted it returns. -/
theorem channel_faithful_early :
    ∃ region server client p,
      BothOpen { name := "c", capacity := 2, messageMaxBytes := 8 } region server client ∧
      runs (Parallel.step exec) (Channel.start region.layout server client region.shm)
        (List.replicate 9 (.inl ⟨some [1, 2, 3], 3, by simp⟩) ++
          List.replicate 10 (.inr ⟨false, 8⟩)) = some p ∧
      p.shared.sends = [] ∧ okMessages p.shared.recvs = [[1, 2, 3]] ∧
      Channel.Faithful p := by
  have hopen : BothOpen { name := "c", capacity := 2, messageMaxBytes := 8 }
      ⟨serverLayout { name := "c", capacity := 2, messageMaxBytes := 8 }, clearedShm, 288⟩ _ _ :=
    ⟨⟨{}, .okStatus, rfl⟩, ⟨{}, { name := "c" }, .okStatus, .okStatus, rfl, rfl⟩⟩
  have hevery := fun labels p => @channel_faithful _ _ _ _ _ _ hopen (.inl rfl) labels p
  exact ⟨_, _, _, _, hopen, rfl, rfl, rfl,
    hevery (List.replicate 9 (.inl ⟨some [1, 2, 3], 3, by simp⟩) ++
      List.replicate 10 (.inr ⟨false, 8⟩)) _ rfl⟩

end Channel

end Corekit.Ipc
