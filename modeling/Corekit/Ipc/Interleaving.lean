import Corekit.Ipc.Ring

/-! One producer and one consumer, interleaved at every access to shared
memory. Ghost state counts what has been published and consumed; the write
index is kept there as a natural number, because the shared one wraps. Once
that number reaches `2 ^ 64` the shared index reads zero: from then on the
producer finds the ring full and the consumer finds it empty, so the history
stops there and stays correct. -/
namespace Corekit.Ipc
open Corekit.Api Corekit.Foundation

def okMessages (recvs : List (Result Message)) : List Message :=
  recvs.filterMap fun result => result.toOption

def okSends (sends : List (SendBuffer × Status)) : List Message :=
  sends.filterMap fun call => if call.2.ok then some call.1.message else none

structure Ghost where
  written : Nat
  published : List Message
  consumed : List Message

/-- Holds between any two accesses of the two endpoints. -/
structure RingInv (size maxBytes : Nat) (w : World) (g : Ghost) : Prop
    extends RingIndices size w.shm g.written where
  frames : ∃ messages,
    Frames size maxBytes w.shm.ring w.shm.readIndex g.written messages ∧
      g.published = g.consumed ++ messages
  received : okMessages w.recvs <+: g.consumed
  accepted : g.published <+: w.accepted
  contributed : ∃ pending, pending.length ≤ 1 ∧ w.accepted = okSends w.sends ++ pending

/-- What the consumer may do between two accesses of the producer. -/
structure ConsumerMoves (w : World) (g : Ghost) (w' : World) (g' : Ghost) : Prop where
  writeIndex : w'.shm.writeIndex = w.shm.writeIndex
  ring : w'.shm.ring = w.shm.ring
  written : g'.written = g.written
  published : g'.published = g.published
  accepted : w'.accepted = w.accepted
  sends : w'.sends = w.sends
  read_le : w.shm.readIndex ≤ w'.shm.readIndex

/-- What the producer may do between two accesses of the consumer. -/
structure ProducerMoves (size : Nat) (w : World) (g : Ghost) (w' : World) (g' : Ghost) :
    Prop where
  readIndex : w'.shm.readIndex = w.shm.readIndex
  consumed : g'.consumed = g.consumed
  recvs : w'.recvs = w.recvs
  written_le : g.written ≤ g'.written
  ring : ∀ x, w.shm.readIndex ≤ x → x < g.written →
    w'.shm.ring (x % size) = w.shm.ring (x % size)

theorem ConsumerMoves.refl (w : World) (g : Ghost) : ConsumerMoves w g w g :=
  ⟨rfl, rfl, rfl, rfl, rfl, rfl, le_refl _⟩

theorem ConsumerMoves.trans {a b c : World} {x y z : Ghost}
    (h : ConsumerMoves a x b y) (h' : ConsumerMoves b y c z) : ConsumerMoves a x c z where
  writeIndex := h'.writeIndex.trans h.writeIndex
  ring := h'.ring.trans h.ring
  written := h'.written.trans h.written
  published := h'.published.trans h.published
  accepted := h'.accepted.trans h.accepted
  sends := h'.sends.trans h.sends
  read_le := h.read_le.trans h'.read_le

theorem ProducerMoves.refl (size : Nat) (w : World) (g : Ghost) :
    ProducerMoves size w g w g :=
  ⟨rfl, rfl, rfl, le_refl _, fun _ _ _ => rfl⟩

theorem ProducerMoves.trans {size : Nat} {a b c : World} {x y z : Ghost}
    (h : ProducerMoves size a x b y) (h' : ProducerMoves size b y c z) :
    ProducerMoves size a x c z where
  readIndex := h'.readIndex.trans h.readIndex
  consumed := h'.consumed.trans h.consumed
  recvs := h'.recvs.trans h.recvs
  written_le := h.written_le.trans h'.written_le
  ring := by
    intro p hlow hhigh
    rw [h'.ring p (by rw [h.readIndex]; exact hlow) (by have := h.written_le; omega),
      h.ring p hlow hhigh]

section Producer

variable {layout : HeaderLayout} {size : Nat}

abbrev SendWp (layout : HeaderLayout) (size : Nat) (c : ShmCmd α)
    (post : α → World → Ghost → Prop) (w : World) (g : Ghost) : Prop :=
  c.Wp exec (RingInv size layout.messageMaxBytes.toNat) ConsumerMoves
    (ProducerMoves size) post w g

variable {post : α → World → Ghost → Prop} {w : World} {g : Ghost}

theorem sendWp_loadWrite {next : Nat → ShmCmd α}
    (h : ∀ w' g', ConsumerMoves w g w' g' →
      RingInv size layout.messageMaxBytes.toNat w' g' →
      SendWp layout size (next w'.shm.writeIndex) post w' g') :
    SendWp layout size (.op .loadWriteIndex next) post w g :=
  fun w' g' hrely hinv => ⟨g', .refl _ _ _, hinv, h w' g' hrely hinv⟩

theorem sendWp_loadRead {next : Nat → ShmCmd α}
    (h : ∀ w' g', ConsumerMoves w g w' g' →
      RingInv size layout.messageMaxBytes.toNat w' g' →
      SendWp layout size (next w'.shm.readIndex) post w' g') :
    SendWp layout size (.op .loadReadIndex next) post w g :=
  fun w' g' hrely hinv => ⟨g', .refl _ _ _, hinv, h w' g' hrely hinv⟩

/-- A block of free space that the producer is filling: it starts at the write
index, does not cross the ring end and ends before the read index catches up. -/
structure FreeBlock (size len : Nat) (w : World) (g : Ghost) : Prop where
  fit : g.written % size + len ≤ size
  window : g.written + len ≤ w.shm.readIndex + size

structure Filling (w₀ : World) (g₀ : Ghost) (ring : Mem) (w : World) (g : Ghost) : Prop where
  ring : w.shm.ring = ring
  written : g.written = g₀.written
  published : g.published = g₀.published
  accepted : w.accepted = w₀.accepted
  sends : w.sends = w₀.sends
  read_le : w₀.shm.readIndex ≤ w.shm.readIndex

theorem Filling.start (w : World) (g : Ghost) : Filling w g w.shm.ring w g :=
  ⟨rfl, rfl, rfl, rfl, rfl, le_refl _⟩

variable {w₀ w' : World} {g₀ g' : Ghost} {ring ring' : Mem} {len addr : Nat}

theorem Filling.moves (h : Filling w₀ g₀ ring w g) (hmoves : ConsumerMoves w g w' g') :
    Filling w₀ g₀ ring w' g' where
  ring := hmoves.ring.trans h.ring
  written := hmoves.written.trans h.written
  published := hmoves.published.trans h.published
  accepted := hmoves.accepted.trans h.accepted
  sends := hmoves.sends.trans h.sends
  read_le := h.read_le.trans hmoves.read_le

/-- Stores into free space keep the invariant and stay inside the producer's
licence. -/
theorem RingInv.store_free (geo : Geometry layout size)
    (hinv : RingInv size layout.messageMaxBytes.toNat w g)
    (hblock : FreeBlock size len w₀ g₀) (hfill : Filling w₀ g₀ ring w g)
    (hout : Mem.SameOutside (g₀.written % size) len ring ring') :
    RingInv size layout.messageMaxBytes.toNat { w with shm.ring := ring' } g ∧
      ProducerMoves size w g { w with shm.ring := ring' } g ∧
      Filling w₀ g₀ ring' { w with shm.ring := ring' } g := by
  obtain ⟨messages, hframes, hpub⟩ := hinv.frames
  have hread := hfill.read_le
  have hfit := hblock.fit
  have hwin := hblock.window
  rw [← hfill.ring, ← hfill.written] at hout
  rw [← hfill.written] at hfit hwin
  refine ⟨?_, ?_, ?_⟩
  · exact { hinv with
      frames := ⟨messages, hframes.keep geo hinv.read_align hout hfit (by omega), hpub⟩ }
  · refine ⟨rfl, rfl, rfl, le_refl _, ?_⟩
    intro x hlow hhigh
    exact hout _ (outside_block hfit hhigh (by omega))
  · exact { hfill with ring := rfl }

theorem sendWp_storeU32 {value : Nat} {next : Unit → ShmCmd α}
    (geo : Geometry layout size) (hblock : FreeBlock size len w₀ g₀)
    (hfill : Filling w₀ g₀ ring w g)
    (hlow : g₀.written % size ≤ addr) (hhigh : addr + 4 ≤ g₀.written % size + len)
    (h : ∀ w' g', Filling w₀ g₀ (ring.storeLE 4 addr value) w' g' →
      RingInv size layout.messageMaxBytes.toNat w' g' →
      SendWp layout size (next ()) post w' g') :
    SendWp layout size (.op (.storeU32 addr value) next) post w g := by
  intro w' g' hrely hinv
  have hfill' := hfill.moves hrely
  have hout : Mem.SameOutside (g₀.written % size) len ring (ring.storeLE 4 addr value) :=
    .write hlow (by rw [leBytes_length]; exact hhigh) ring
  obtain ⟨hinv', hmoves, hnext⟩ := hinv.store_free geo hblock hfill' hout
  rw [← hfill'.ring] at hinv' hmoves
  exact ⟨g', hmoves, hinv', h _ g' (by rw [← hfill'.ring] at hnext ⊢; exact hnext) hinv'⟩

theorem sendWp_copyIn {bytes : List UInt8} {next : ShmCmd α}
    {cond : Prop} [Decidable cond] (geo : Geometry layout size)
    (hblock : FreeBlock size len w₀ g₀) (hfill : Filling w₀ g₀ ring w g)
    (hinv : RingInv size layout.messageMaxBytes.toNat w g)
    (hskip : ¬cond → bytes = []) (hlow : g₀.written % size ≤ addr)
    (hhigh : addr + bytes.length ≤ g₀.written % size + len)
    (h : ∀ w' g', Filling w₀ g₀ (ring.write addr bytes) w' g' →
      RingInv size layout.messageMaxBytes.toNat w' g' →
      SendWp layout size next post w' g') :
    SendWp layout size
      (if cond then .op (.copyIn addr bytes) fun _ => next else next) post w g := by
  split
  · intro w' g' hrely hinv'
    have hfill' := hfill.moves hrely
    obtain ⟨hinv'', hmoves, hnext⟩ := hinv'.store_free geo hblock hfill'
      (Mem.SameOutside.write hlow hhigh ring)
    rw [← hfill'.ring] at hinv'' hmoves
    exact ⟨g', hmoves, hinv'', h _ g' (by rw [← hfill'.ring] at hnext ⊢; exact hnext) hinv''⟩
  · rename_i hcond
    rw [hskip hcond, Mem.write_nil] at h
    exact h w g hfill hinv

theorem RingInv.publish {next : Nat} {messages : List Message}
    (hinv : RingInv size layout.messageMaxBytes.toNat w g)
    (hnew : Frames size layout.messageMaxBytes.toNat w.shm.ring g.written next messages)
    (hwin : next ≤ w.shm.readIndex + size) (hle : next ≤ 2 ^ 64) (halign : 8 ∣ next)
    (hacc : g.published ++ messages <+: w.accepted) :
    RingInv size layout.messageMaxBytes.toNat { w with shm.writeIndex := next % 2 ^ 64 }
        { g with written := next, published := g.published ++ messages } ∧
      ProducerMoves size w g { w with shm.writeIndex := next % 2 ^ 64 }
        { g with written := next, published := g.published ++ messages } := by
  obtain ⟨old, hframes, hpub⟩ := hinv.frames
  have hgrow := hnew.le
  constructor
  · exact { hinv with
      write_eq := rfl
      read_le := hinv.read_le.trans hgrow
      window := hwin
      written_le := hle
      written_align := halign
      frames := ⟨old ++ messages, hframes.trans hnew, by simp [hpub]⟩
      accepted := hacc }
  · exact ⟨rfl, rfl, rfl, hgrow, fun _ _ _ => rfl⟩

theorem publishFrame_wp {ep : Endpoint} {message : Message} {rest : List Message}
    {post : Status × Endpoint → World → Ghost → Prop} (geo : Geometry layout size)
    (hinv : RingInv size layout.messageMaxBytes.toNat w g)
    (hlen : message.length ≤ layout.messageMaxBytes.toNat) (hlt : g.written < 2 ^ 64)
    (hblock : FreeBlock size (frameBytes message.length) w g)
    (hacc : w.accepted = g.published ++ message :: rest)
    (hpost : ∀ w' g', RingInv size layout.messageMaxBytes.toNat w' g' →
      w'.accepted = w.accepted → w'.sends = w.sends →
      g'.published = g.published ++ [message] → post (.okStatus, ep) w' g') :
    SendWp layout size (publishFrame layout ep message g.written) post w g := by
  have hhead := header_le_frameBytes message.length
  have hmax := layout.messageMaxBytes.toNat_lt
  have hpos : 0 < size := by have := geo.low; omega
  unfold publishFrame
  simp only [Cmd.bind_eq_bind, act_bind, Cmd.pure_eq_ret, geo.and_mask, frameHeaderBytes]
  refine sendWp_storeU32 geo hblock (.start w g) (le_refl _) (by omega) ?_
  intro w₁ g₁ h₁ _
  refine sendWp_storeU32 geo hblock h₁ (by omega) (by omega) ?_
  intro w₂ g₂ h₂ hinv₂
  refine sendWp_copyIn geo hblock h₂ hinv₂
    (fun h => List.length_eq_zero_iff.mp (by omega)) (by omega) (by omega) ?_
  intro w₃ g₃ h₃ hinv₃
  refine sendWp_copyIn geo hblock h₃ hinv₃
    (fun h => by rw [Nat.eq_zero_of_not_pos h]; rfl) (by omega)
    (by rw [List.length_replicate]; omega) ?_
  -- the ring now holds the whole frame in front of the write index
  intro w₄ g₄ h₄ _ w₅ g₅ hrely₅ hinv₅
  have h₅ : Filling w g (putFrame w.shm.ring (g.written % size) message) w₅ g₅ :=
    h₄.moves hrely₅
  have hread := h₅.read_le
  have hwin := hblock.window
  have hfit := hblock.fit
  have hnew : Frames size layout.messageMaxBytes.toNat w₅.shm.ring g₅.written
      (g.written + frameBytes message.length) [message] := by
    rw [h₅.ring, h₅.written]
    exact .data (frameAt_putFrame _ hlen hmax hfit) (.nil _)
  have hlap := lap_end_le hpos geo.dvd_two_pow_64 hlt
  obtain ⟨hinv₆, hmoves₆⟩ := hinv₅.publish hnew (by omega) (by omega)
    (Nat.dvd_add hinv.written_align (eight_dvd_frameBytes _)) (by
      rw [h₅.published, h₅.accepted, hacc]
      exact ⟨rest, by simp⟩)
  refine ⟨_, hmoves₆, hinv₆, ?_⟩
  -- `send_ok` is not part of the invariant
  intro w₇ g₇ hrely₇ hinv₇
  refine ⟨g₇, ⟨rfl, rfl, rfl, le_refl _, fun _ _ _ => rfl⟩, { hinv₇ with }, ?_⟩
  intro w₈ g₈ hrely₈ hinv₈
  refine hpost w₈ g₈ hinv₈ ?_ ?_ ?_
  · exact hrely₈.accepted.trans (hrely₇.accepted.trans h₅.accepted)
  · exact hrely₈.sends.trans (hrely₇.sends.trans h₅.sends)
  · exact hrely₈.published.trans (hrely₇.published.trans
      (congrArg (· ++ [message]) h₅.published))

theorem endLap_wp {next : Unit → ShmCmd α} (geo : Geometry layout size)
    (hinv : RingInv size layout.messageMaxBytes.toNat w g) (hlt : g.written < 2 ^ 64)
    (hroom : g.written + (size - g.written % size) ≤ w.shm.readIndex + size)
    (h : ∀ w' g', RingInv size layout.messageMaxBytes.toNat w' g' →
      w'.accepted = w.accepted → w'.sends = w.sends → g'.published = g.published →
      g'.written = g.written + (size - g.written % size) →
      SendWp layout size (next ()) post w' g') :
    SendWp layout size
      (.op (.storeU32 (g.written % size) 0) fun _ =>
        .op (.storeU32 (g.written % size + 4) kFrameWrap) fun _ =>
          .op (.storeWriteIndex ((g.written + (size - g.written % size)) % 2 ^ 64)) next) post w g := by
  have hpos : 0 < size := by have := geo.low; omega
  have hhdr := geo.header_fits hinv.written_align
  have hlap := lap_end_le hpos geo.dvd_two_pow_64 hlt
  have hblock : FreeBlock size 8 w g := ⟨hhdr, by omega⟩
  refine sendWp_storeU32 geo hblock (.start w g) (le_refl _) (by omega) ?_
  intro w₁ g₁ h₁ _
  refine sendWp_storeU32 geo hblock h₁ (by omega) (by omega) ?_
  intro w₂ g₂ h₂ _ w₃ g₃ hrely₃ hinv₃
  have h₃ : Filling w g (putWrap w.shm.ring (g.written % size)) w₃ g₃ := h₂.moves hrely₃
  have hread₃ := h₃.read_le
  have hnew : Frames size layout.messageMaxBytes.toNat w₃.shm.ring g₃.written
      (g.written + (size - g.written % size)) [] := by
    rw [h₃.ring, h₃.written]
    exact .wrap (putWrap_mark _ _) (.nil _)
  obtain ⟨hinv₄, hmoves₄⟩ := hinv₃.publish hnew (by omega) hlap
    (by rw [lap_end_eq _ hpos]; exact geo.eight_dvd.mul_right _)
    (by simpa using hinv₃.accepted)
  refine ⟨_, hmoves₄, hinv₄, h _ _ hinv₄ h₃.accepted h₃.sends ?_ rfl⟩
  rw [← h₃.published]
  exact List.append_nil _

theorem tryWriteOneToShared_wp {ep : Endpoint} {message : Message} {rest : List Message}
    {post : Status × Endpoint → World → Ghost → Prop} (geo : Geometry layout size)
    (hlen : message.length ≤ layout.messageMaxBytes.toNat)
    (hacc : w.accepted = g.published ++ message :: rest)
    (hok : ∀ w' g', RingInv size layout.messageMaxBytes.toNat w' g' →
      w'.accepted = w.accepted → w'.sends = w.sends →
      g'.published = g.published ++ [message] → post (.okStatus, ep) w' g')
    (hfull : ∀ w' g', RingInv size layout.messageMaxBytes.toNat w' g' →
      w'.accepted = w.accepted → w'.sends = w.sends →
      g'.published = g.published → post (queueFull, blockSend ep) w' g') :
    SendWp layout size (tryWriteOneToShared layout ep message) post w g := by
  have hframe := geo.frame_fits hlen
  have hhead := header_le_frameBytes message.length
  have hpos : 0 < size := by have := geo.low; omega
  have hret : ∀ {w₀ g₀}, w₀.accepted = w.accepted → w₀.sends = w.sends →
      g₀.published = g.published →
      SendWp layout size (.ret (queueFull, blockSend ep)) post w₀ g₀ := by
    intro w₀ g₀ hacc₀ hsends₀ hpub₀ w' g' hmoves hinv'
    exact hfull w' g' hinv' (hmoves.accepted.trans hacc₀) (hmoves.sends.trans hsends₀)
      (hmoves.published.trans hpub₀)
  unfold tryWriteOneToShared
  rw [if_neg (by rw [geo.ringBytes]; omega)]
  simp only [Cmd.bind_eq_bind, loadWriteIndex_bind, loadReadIndex_bind, act_bind,
    Cmd.pure_eq_ret, geo.contiguousFrom_eq, geo.and_mask, frameHeaderBytes]
  refine sendWp_loadWrite ?_
  intro w₁ g₁ h₁ _
  refine sendWp_loadRead ?_
  intro w₂ g₂ h₂ hinv₂
  have h₀₂ := h₁.trans h₂
  have hblocked := hret h₀₂.accepted h₀₂.sends h₀₂.published
  have hfree := hinv₂.freeBytes_eq geo
  rw [h₂.writeIndex] at hfree
  have hwrite : w₁.shm.writeIndex = g₂.written % 2 ^ 64 := by
    rw [← h₂.writeIndex, hinv₂.write_eq]
  have hhdr := geo.header_fits hinv₂.written_align
  have hwin := hinv₂.window
  rw [hfree]
  by_cases hwrapped : g₂.written = 2 ^ 64
  · -- the shared index reads zero: a whole lap ahead, and no free byte
    rw [hwrite, hwrapped, Nat.mod_self, Nat.zero_mod, if_neg (by omega), if_pos (by
      rw [if_neg (by omega)]
      omega)]
    exact hblocked
  · have hlt : g₂.written < 2 ^ 64 := by have := hinv₂.written_le; omega
    rw [hwrite, Nat.mod_eq_of_lt hlt, if_pos hlt]
    split
    · split
      · exact hblocked
      · rename_i hshort hroom
        rw [if_pos (by omega)]
        refine endLap_wp geo hinv₂ hlt (by omega) ?_
        intro w₆ g₆ _ hacc₆ hsends₆ hpub₆ hwritten₆
        refine sendWp_loadRead ?_
        intro w₇ g₇ hrely₇ hinv₇
        have hwritten : g₇.written = g₂.written + (size - g₂.written % size) :=
          hrely₇.written.trans hwritten₆
        have hpub₇ : g₇.published = g₂.published := hrely₇.published.trans hpub₆
        have hacc₇ : w₇.accepted = w.accepted :=
          hrely₇.accepted.trans (hacc₆.trans h₀₂.accepted)
        have hsends₇ : w₇.sends = w.sends := hrely₇.sends.trans (hsends₆.trans h₀₂.sends)
        have hfree₇ := hinv₇.freeBytes_eq geo
        rw [hinv₇.write_eq, hwritten] at hfree₇
        split
        · exact hret hacc₇ hsends₇ (hpub₇.trans h₀₂.published)
        · -- room is left, so the lap that just ended was not the last one
          rename_i hroom₇
          rw [hfree₇] at hroom₇
          have hlt₇ : g₂.written + (size - g₂.written % size) < 2 ^ 64 := by
            by_contra hge
            rw [if_neg hge] at hroom₇
            omega
          rw [if_pos hlt₇] at hroom₇
          rw [Nat.mod_eq_of_lt hlt₇, ← hwritten]
          have hstart : g₇.written % size = 0 := by
            rw [hwritten]
            exact lap_end_mod _ hpos
          refine publishFrame_wp geo hinv₇ hlen (by omega)
            ⟨by omega, by have := hinv₇.window; omega⟩
            (by rw [hacc₇, hacc, hpub₇, h₀₂.published]) ?_
          intro w' g' hinv' hacc' hsends' hpub'
          exact hok w' g' hinv' (hacc'.trans hacc₇) (hsends'.trans hsends₇)
            (by rw [hpub', hpub₇, h₀₂.published])
    · split
      · exact hblocked
      · rename_i hlong hroom
        refine publishFrame_wp geo hinv₂ hlen hlt ⟨by omega, by omega⟩
          (by rw [h₀₂.accepted, hacc, h₀₂.published]) ?_
        intro w' g' hinv' hacc' hsends' hpub'
        exact hok w' g' hinv' (hacc'.trans h₀₂.accepted) (hsends'.trans h₀₂.sends)
          (by rw [hpub', h₀₂.published])

theorem flushOutbox_wp {ep₀ : Endpoint} {post : Endpoint → World → Ghost → Prop}
    (geo : Geometry layout size) (outbox : List Message) (remaining : Nat) (ep : Endpoint)
    (hsetup : SameSetup ep₀ ep)
    (hlen : ∀ message ∈ outbox, message.length ≤ layout.messageMaxBytes.toNat)
    (hinv : RingInv size layout.messageMaxBytes.toNat w g)
    (hacc : w.accepted = g.published ++ outbox)
    (hpost : ∀ ep' w' g', SameSetup ep₀ ep' →
      (∀ message ∈ ep'.localOutbox, message.length ≤ layout.messageMaxBytes.toNat) →
      RingInv size layout.messageMaxBytes.toNat w' g' →
      w'.accepted = w.accepted → w'.sends = w.sends →
      w'.accepted = g'.published ++ ep'.localOutbox → post ep' w' g') :
    SendWp layout size (flushOutbox layout outbox remaining ep) post w g := by
  induction outbox generalizing remaining ep w g with
  | nil =>
    intro w' g' hmoves hinv'
    exact hpost _ w' g' { hsetup with } (by simp) hinv' hmoves.accepted hmoves.sends
      (by rw [hmoves.accepted, hmoves.published, hacc])
  | cons message rest ih =>
    have hstop : ∀ {ep' w' g'}, SameSetup ep₀ ep' →
        RingInv size layout.messageMaxBytes.toNat w' g' →
        w'.accepted = w.accepted → w'.sends = w.sends → g'.published = g.published →
        post { ep' with localOutbox := message :: rest } w' g' := by
      intro ep' w' g' hsetup' hinv' hacc' hsends' hpub'
      exact hpost _ w' g' { hsetup' with } hlen hinv' hacc' hsends'
        (by rw [hacc', hpub', hacc])
    unfold flushOutbox
    split
    · intro w' g' hmoves hinv'
      exact hstop hsetup hinv' hmoves.accepted hmoves.sends hmoves.published
    · refine Cmd.Wp.bind ConsumerMoves.refl hinv ?_
      refine tryWriteOneToShared_wp geo (hlen message (by simp)) hacc ?_ ?_
      · intro w' g' hinv' hacc' hsends' hpub'
        refine ih (remaining - 1) ep hsetup (fun m hm => hlen m (by simp [hm])) hinv'
          (by rw [hacc', hpub', hacc]; simp) ?_
        intro ep'' w'' g'' hsetup'' hlen'' hinv'' hacc'' hsends'' hpub''
        exact hpost ep'' w'' g'' hsetup'' hlen'' hinv'' (hacc''.trans hacc')
          (hsends''.trans hsends') hpub''
      · intro w' g' hinv' hacc' hsends' hpub' w'' g'' hmoves hinv''
        exact hstop ⟨hsetup.options, hsetup.opened, hsetup.headerMapped⟩ hinv''
          (hmoves.accepted.trans hacc') (hmoves.sends.trans hsends')
          (hmoves.published.trans hpub')

/-- What the producer knows between two calls: every accepted message is either
published or still in the outbox, and every call has been recorded. -/
structure SendPoint (layout : HeaderLayout) (ep : Endpoint) (w : World) (g : Ghost) : Prop where
  outbox : w.accepted = g.published ++ ep.localOutbox
  lengths : ∀ message ∈ ep.localOutbox, message.length ≤ layout.messageMaxBytes.toNat
  maxBytes : ep.options.messageMaxBytes = layout.messageMaxBytes
  sends : w.accepted = okSends w.sends

theorem SendPoint.moves {ep : Endpoint} (h : SendPoint layout ep w g)
    (hmoves : ConsumerMoves w g w' g') : SendPoint layout ep w' g' where
  outbox := by rw [hmoves.accepted, hmoves.published, h.outbox]
  lengths := h.lengths
  maxBytes := h.maxBytes
  sends := by rw [hmoves.accepted, hmoves.sends, h.sends]

/-- A call that accepts its message records it before the last flush; any other
call changes neither the accepted messages nor the outbox discipline. -/
theorem trySend_wp {ep : Endpoint} {buffer : SendBuffer}
    {post : Status × Endpoint → World → Ghost → Prop} (geo : Geometry layout size)
    (hinv : RingInv size layout.messageMaxBytes.toNat w g) (hpoint : SendPoint layout ep w g)
    (hpost : ∀ status ep' w' g', RingInv size layout.messageMaxBytes.toNat w' g' →
      w'.sends = w.sends →
      w'.accepted = w.accepted ++ (if status.ok then [buffer.message] else []) →
      w'.accepted = g'.published ++ ep'.localOutbox →
      (∀ message ∈ ep'.localOutbox, message.length ≤ layout.messageMaxBytes.toNat) →
      ep'.options.messageMaxBytes = layout.messageMaxBytes → post (status, ep') w' g') :
    SendWp layout size (trySend layout ep buffer) post w g := by
  have hrefuse : ∀ {status ep' w' g'}, Status.ok status = false →
      RingInv size layout.messageMaxBytes.toNat w' g' → w'.sends = w.sends →
      w'.accepted = w.accepted → w'.accepted = g'.published ++ ep'.localOutbox →
      (∀ message ∈ ep'.localOutbox, message.length ≤ layout.messageMaxBytes.toNat) →
      ep'.options.messageMaxBytes = layout.messageMaxBytes → post (status, ep') w' g' := by
    intro status ep' w' g' hstatus hinv' hsends hacc
    exact hpost status ep' w' g' hinv' hsends (by rw [hacc, hstatus]; simp)
  have hreject : ∀ {status : Status}, status.ok = false →
      SendWp layout size (.ret (status, ep)) post w g := by
    intro status hstatus w' g' hmoves hinv'
    have hpoint' := hpoint.moves hmoves
    exact hrefuse hstatus hinv' hmoves.sends hmoves.accepted hpoint'.outbox
      hpoint'.lengths hpoint'.maxBytes
  unfold trySend
  simp only [Cmd.bind_eq_bind, act_bind, Cmd.pure_eq_ret]
  split
  · exact hreject rfl
  split
  · exact hreject rfl
  split
  · exact hreject rfl
  rename_i hmax
  have hlen : buffer.message.length ≤ layout.messageMaxBytes.toNat := by
    rw [hpoint.maxBytes] at hmax
    exact buffer.message_length_le.trans (UInt32.not_lt.mp hmax)
  refine Cmd.Wp.bind ConsumerMoves.refl hinv ?_
  refine flushOutbox_wp geo _ _ ep ⟨rfl, rfl, rfl⟩ hpoint.lengths hinv hpoint.outbox ?_
  intro ep₁ w₁ g₁ hsetup₁ hlen₁ hinv₁ hacc₁ hsends₁ hout₁
  have hmax₁ : ep₁.options.messageMaxBytes = layout.messageMaxBytes := by
    rw [hsetup₁.options, hpoint.maxBytes]
  split
  · -- the outbox is at its limit: only counters move
    split
    · intro w₂ g₂ hmoves₂ hinv₂
      refine ⟨g₂, ⟨rfl, rfl, rfl, le_refl _, fun _ _ _ => rfl⟩, { hinv₂ with }, ?_⟩
      intro w₃ g₃ hmoves₃ hinv₃
      refine hrefuse rfl hinv₃ (hmoves₃.sends.trans (hmoves₂.sends.trans hsends₁))
        (hmoves₃.accepted.trans (hmoves₂.accepted.trans hacc₁)) ?_ hlen₁ hmax₁
      rw [hmoves₃.accepted, hmoves₃.published, hmoves₂.published]
      exact hmoves₂.accepted.trans hout₁
    · intro w₂ g₂ hmoves₂ hinv₂
      refine hrefuse rfl hinv₂ (hmoves₂.sends.trans hsends₁)
        (hmoves₂.accepted.trans hacc₁) ?_ hlen₁ hmax₁
      rw [hmoves₂.accepted, hmoves₂.published]
      exact hout₁
  · intro w₂ g₂ hmoves₂ hinv₂
    have hout₂ : w₂.accepted = g₂.published ++ ep₁.localOutbox := by
      rw [hmoves₂.accepted, hmoves₂.published, hout₁]
    have hcalls : w₂.accepted = okSends w₂.sends := by
      rw [hmoves₂.accepted, hacc₁, hpoint.sends, hmoves₂.sends, hsends₁]
    have hinv₃ : RingInv size layout.messageMaxBytes.toNat
        { w₂ with accepted := w₂.accepted ++ [buffer.message] } g₂ :=
      { hinv₂ with
        accepted := hinv₂.accepted.trans (List.prefix_append _ _)
        contributed := ⟨[buffer.message], le_refl _, by rw [← hcalls]⟩ }
    refine ⟨g₂, ⟨rfl, rfl, rfl, le_refl _, fun _ _ _ => rfl⟩, hinv₃, ?_⟩
    refine Cmd.Wp.bind ConsumerMoves.refl hinv₃ ?_
    refine flushOutbox_wp geo _ _ _ ⟨rfl, rfl, rfl⟩ ?_ hinv₃ ?_ ?_
    · intro message hmem
      obtain hmem | hmem := List.mem_append.mp hmem
      · exact hlen₁ message hmem
      · exact (List.mem_singleton.mp hmem) ▸ hlen
    · exact (congrArg (· ++ [buffer.message]) hout₂).trans (List.append_assoc _ _ _)
    · intro ep₄ w₄ g₄ hsetup₄ hlen₄ hinv₄ hacc₄ hsends₄ hout₄ w₅ g₅ hmoves₅ hinv₅
      refine hpost _ _ w₅ g₅ hinv₅ ?_ ?_ ?_ hlen₄ (by rw [hsetup₄.options]; exact hmax₁)
      · exact hmoves₅.sends.trans (hsends₄.trans (hmoves₂.sends.trans hsends₁))
      · rw [hmoves₅.accepted, hacc₄]
        exact congrArg (· ++ [buffer.message]) (hmoves₂.accepted.trans hacc₁)
      · rw [hmoves₅.accepted, hmoves₅.published, hout₄]

theorem producer_resume_wp {ep : Endpoint} {buffer : SendBuffer}
    {c : ShmCmd Endpoint} (geo : Geometry layout size) (hpoint : SendPoint layout ep w g)
    (hinv : RingInv size layout.messageMaxBytes.toNat w g)
    (hresume : (producer layout).resume ep buffer = some c) :
    SendWp layout size c (SendPoint layout) w g := by
  cases Option.some.inj hresume
  refine Cmd.Wp.bind ConsumerMoves.refl hinv ?_
  refine trySend_wp geo hinv hpoint ?_
  intro status ep' w₁ g₁ _ hsends₁ hacc₁ hout₁ hlen₁ hmax₁ w₂ g₂ hmoves₂ hinv₂
  have hcalls : w₂.accepted = okSends (w₂.sends ++ [(buffer, status)]) := by
    rw [hmoves₂.accepted, hacc₁, hmoves₂.sends, hsends₁, hpoint.sends]
    unfold okSends
    rw [List.filterMap_append]
    cases hstatus : status.ok <;> simp [hstatus]
  refine ⟨g₂, ⟨rfl, rfl, rfl, le_refl _, fun _ _ _ => rfl⟩,
    { hinv₂ with contributed := ⟨[], by simp, hcalls.trans (List.append_nil _).symm⟩ }, ?_⟩
  intro w₃ g₃ hmoves₃ _
  refine SendPoint.moves ⟨?_, hlen₁, hmax₁, hcalls⟩ hmoves₃
  exact hmoves₂.accepted.trans (hout₁.trans (by rw [hmoves₂.published]))

end Producer

end Corekit.Ipc
