import Corekit.Ipc.WholeCalls

/-! Whether an empty ring takes the front of an outbox. A frame may not cross
the ring end and the skipped tail is charged against the free space, so with
room for a single frame some write offsets leave no place for it. -/
namespace Corekit.Ipc
open Corekit.Api Corekit.Foundation

/-- `ProcessIoOnce(budget)` moves the front of the outbox, and possibly more
after it, into the ring. -/
def WritesFront (layout : HeaderLayout) (ep : Endpoint) (budget : Nat) (w : World) : Prop :=
  let r := (processIoOnce layout ep budget).run exec w
  ∃ front rest flushed written,
    ep.localOutbox = front :: rest ∧ rest = flushed ++ r.1.localOutbox ∧
    r.2.shm.writeIndex = written % 2 ^ 64 ∧
    Frames layout.ringBytes.toNat layout.messageMaxBytes.toNat r.2.shm.ring
      r.2.shm.readIndex written (front :: flushed)

/-- The front frame fits between the write offset and the ring end, or it fits
in front of that offset and skipping to the ring start does not wrap the index. -/
def FrontFits (layout : HeaderLayout) (shm : Shm) (front : Message) : Prop :=
  frameBytes front.length ≤ contiguousFrom layout shm.writeIndex ∨
    (frameBytes front.length ≤ layout.ringBytes.toNat - contiguousFrom layout shm.writeIndex ∧
      shm.writeIndex + contiguousFrom layout shm.writeIndex < 2 ^ 64)

instance (layout : HeaderLayout) (shm : Shm) (front : Message) :
    Decidable (FrontFits layout shm front) :=
  inferInstanceAs (Decidable (_ ∨ _))

variable {layout : HeaderLayout} {s : Peers} {side : Side} {front : Message}
  {rest : List Message}

theorem RingState.written_of_empty {size maxBytes written : Nat} {shm : Shm}
    {messages : List Message} (geo : Geometry layout size)
    (h : RingState size maxBytes shm written messages)
    (hempty : shm.readIndex = shm.writeIndex) : written = shm.writeIndex ∧ messages = [] := by
  have hlow := geo.low
  have hhigh := geo.high
  have hwin := h.window
  have hwrite := h.write_eq
  have hle := h.written_le
  have heq : written = shm.writeIndex := by
    rcases Nat.lt_or_eq_of_le hle with hlt | hwrapped
    · rw [hwrite, Nat.mod_eq_of_lt hlt]
    · rw [hwrapped, Nat.mod_self] at hwrite
      omega
  exact ⟨heq, h.frames.eq_nil (by omega) (by omega)⟩

theorem hasRoom_iff_frontFits {size : Nat} {shm : Shm} (geo : Geometry layout size)
    (hlt : shm.writeIndex < 2 ^ 64) :
    HasRoom size shm.writeIndex shm.writeIndex (frameBytes front.length) ↔
      FrontFits layout shm front := by
  have hmod := Nat.mod_lt shm.writeIndex (show 0 < size by have := geo.low; omega)
  unfold HasRoom FrontFits
  rw [geo.contiguousFrom_eq, geo.ringBytes]
  split_ifs with hshort
  · constructor
    · exact fun _ => .inl hshort
    · exact fun _ => ⟨hlt, by omega⟩
  · constructor
    · rintro ⟨hskip, hroom⟩
      exact .inr ⟨by omega, hskip⟩
    · rintro (hfit | ⟨hfit, hskip⟩)
      · exact absurd hfit hshort
      · exact ⟨hskip, by omega⟩

theorem Peers.Inv.writesFront_iff (geo : Geometry layout layout.ringBytes.toNat)
    (h : s.Inv layout layout.ringBytes.toNat)
    (hempty : s.world.shm.readIndex = s.world.shm.writeIndex)
    (hout : (s.endpoint side).localOutbox = front :: rest) (budget : Nat) :
    WritesFront layout (s.endpoint side) (budget + 1) s.world ↔
      FrontFits layout s.world.shm front := by
  obtain ⟨written, messages, hring⟩ := h.ring
  obtain ⟨rfl, rfl⟩ := hring.written_of_empty geo hempty
  have hlens := (h.ready side).lengths
  have hlt : s.world.shm.writeIndex < 2 ^ 64 := by rw [← hempty]; exact hring.read_lt
  rw [← hasRoom_iff_frontFits geo hlt]
  unfold WritesFront processIoOnce
  rw [hout] at hlens ⊢
  have hfirst := hring.flush_first geo rest budget (s.endpoint side) hlens
  rw [hempty] at hfirst
  constructor
  · rintro ⟨front', rest', flushed, written, hcons, hrest, -, -⟩
    rcases hfirst with ⟨hroom, -⟩ | ⟨-, hsame⟩
    · exact hroom
    · -- the outbox did not change, so nothing can have been taken from it
      obtain ⟨rfl, rfl⟩ := List.cons.inj hcons
      rw [hsame] at hrest
      have := congrArg List.length hrest
      simp only [List.length_append, List.length_cons] at this
      omega
  · intro hroom
    rcases hfirst with ⟨-, flushed, written, hflush⟩ | ⟨hno, -⟩
    · exact ⟨front, rest, flushed, written, rfl, (List.cons.inj hflush.outbox).2,
        hflush.ring.write_eq, hflush.ring.frames⟩
    · exact absurd hroom hno

theorem frontFits_of_two_le {size : Nat} {shm : Shm} (geo : Geometry layout size)
    (htwo : 2 * frameBytes layout.messageMaxBytes.toNat ≤ size)
    (hlen : front.length ≤ layout.messageMaxBytes.toNat)
    (hskip : shm.writeIndex + contiguousFrom layout shm.writeIndex < 2 ^ 64) :
    FrontFits layout shm front := by
  have hframe := frameBytes_mono hlen
  have hmod := Nat.mod_lt shm.writeIndex (show 0 < size by have := geo.low; omega)
  unfold FrontFits
  rw [geo.contiguousFrom_eq, geo.ringBytes] at *
  omega

/-- Between any two calls, an empty ring takes the front of an outbox exactly
when it fits at the present write offset. With a capacity of two or more it
always does, short of the end of the index space. -/
theorem empty_ring_takes_front_iff {options : ChannelOptions} {region : Region}
    {server client : Endpoint} (hopen : BothOpen options region server client)
    {labels : List (Side × Call)} {s : Peers}
    (hrun : runs (Peers.step region.layout) ⟨server, client, { shm := region.shm }⟩ labels =
      some s)
    {side : Side} {front : Message} {rest : List Message}
    (hempty : s.world.shm.readIndex = s.world.shm.writeIndex)
    (hout : (s.endpoint side).localOutbox = front :: rest) {budget : Nat}
    (hbudget : 1 ≤ budget) :
    (WritesFront region.layout (s.endpoint side) budget s.world ↔
      FrontFits region.layout s.world.shm front) ∧
    (2 ≤ options.capacity.toNat →
      s.world.shm.writeIndex + contiguousFrom region.layout s.world.shm.writeIndex < 2 ^ 64 →
      WritesFront region.layout (s.endpoint side) budget s.world) := by
  have geo := hopen.geometry
  have hinv := Peers.Inv.of_run hopen hrun
  obtain ⟨budget, rfl⟩ := Nat.exists_eq_add_of_le' hbudget
  have hiff := hinv.writesFront_iff geo hempty hout budget
  refine ⟨hiff, fun hcap hskip => hiff.mpr (frontFits_of_two_le geo ?_ ?_ hskip)⟩
  · exact (Nat.mul_le_mul_right _ hcap).trans hopen.room
  · exact (hinv.ready side).lengths front (by rw [hout]; simp)

/-- Three messages for a ring of two: when the two have been received, the third
still waits in the outbox, and goes in. -/
theorem empty_ring_takes_front_third :
    ∃ s, runs (Peers.step (serverLayout { name := "c", capacity := 2, messageMaxBytes := 8 }))
        (Peers.fresh { name := "c", capacity := 2, messageMaxBytes := 8 })
        [(.server, .trySend ⟨some [1], 1, by simp⟩), (.server, .trySend ⟨some [2], 1, by simp⟩),
          (.server, .trySend ⟨some [3], 1, by simp⟩), (.client, .tryRecv ⟨false, 8⟩ 2),
          (.client, .tryRecv ⟨false, 8⟩ 2)] = some s ∧
      s.server.localOutbox = [[3]] ∧
      WritesFront (serverLayout { name := "c", capacity := 2, messageMaxBytes := 8 })
        s.server 1 s.world := by
  have hopen : BothOpen { name := "c", capacity := 2, messageMaxBytes := 8 }
      ⟨serverLayout { name := "c", capacity := 2, messageMaxBytes := 8 }, clearedShm, 288⟩ _ _ :=
    ⟨⟨{}, .okStatus, rfl⟩, ⟨{}, { name := "c" }, .okStatus, .okStatus, rfl, rfl⟩⟩
  obtain ⟨s, hrun, hs⟩ := Option.map_eq_some_iff.mp (show (runs (Peers.step (serverLayout
        { name := "c", capacity := 2, messageMaxBytes := 8 }))
      (Peers.fresh { name := "c", capacity := 2, messageMaxBytes := 8 })
      [(.server, .trySend ⟨some [1], 1, by simp⟩), (.server, .trySend ⟨some [2], 1, by simp⟩),
        (.server, .trySend ⟨some [3], 1, by simp⟩), (.client, .tryRecv ⟨false, 8⟩ 2),
        (.client, .tryRecv ⟨false, 8⟩ 2)]).map (fun s =>
          (s.server.localOutbox, s.world.shm.readIndex, s.world.shm.writeIndex)) =
      some ([[3]], 32, 32) by decide +kernel)
  obtain ⟨hout, hindices⟩ := Prod.mk.inj hs
  obtain ⟨hread, hwrite⟩ := Prod.mk.inj hindices
  refine ⟨s, hrun, hout, ?_⟩
  exact (@empty_ring_takes_front_iff _ _ _ _ hopen _ s hrun .server [3] []
    (hread.trans hwrite.symm) hout 1 (le_refl 1)).2 (by decide) (by rw [hwrite]; decide)

/-- A capacity of one and messages of up to 16 bytes give a ring of 32. After 8
bytes have gone through it, 16 bytes wait in the outbox of an empty ring. -/
theorem empty_ring_wedged :
    ∃ s, runs (Peers.step (serverLayout { name := "c", capacity := 1, messageMaxBytes := 16 }))
        (Peers.fresh { name := "c", capacity := 1, messageMaxBytes := 16 })
        [(.server, .trySend ⟨some (List.replicate 8 1), 8, by simp⟩),
          (.client, .tryRecv ⟨false, 16⟩ 2),
          (.server, .trySend ⟨some (List.replicate 16 2), 16, by simp⟩)] = some s ∧
      s.world.sends.map (·.2) = [.okStatus, .okStatus] ∧
      s.world.shm.readIndex = s.world.shm.writeIndex ∧
      s.server.localOutbox = [List.replicate 16 2] ∧
      ∀ budget, ¬ WritesFront (serverLayout { name := "c", capacity := 1, messageMaxBytes := 16 })
        s.server (budget + 1) s.world := by
  have hopen : BothOpen { name := "c", capacity := 1, messageMaxBytes := 16 }
      ⟨serverLayout { name := "c", capacity := 1, messageMaxBytes := 16 }, clearedShm, 288⟩ _ _ :=
    ⟨⟨{}, .okStatus, rfl⟩, ⟨{}, { name := "c" }, .okStatus, .okStatus, rfl, rfl⟩⟩
  obtain ⟨s, hrun, hs⟩ := Option.map_eq_some_iff.mp (show (runs (Peers.step (serverLayout
        { name := "c", capacity := 1, messageMaxBytes := 16 }))
      (Peers.fresh { name := "c", capacity := 1, messageMaxBytes := 16 })
      [(.server, .trySend ⟨some (List.replicate 8 1), 8, by simp⟩),
        (.client, .tryRecv ⟨false, 16⟩ 2),
        (.server, .trySend ⟨some (List.replicate 16 2), 16, by simp⟩)]).map (fun s =>
          (s.world.sends.map (·.2), s.server.localOutbox, s.world.shm.readIndex,
            s.world.shm.writeIndex)) =
      some ([.okStatus, .okStatus], [List.replicate 16 2], 16, 16) by decide +kernel)
  obtain ⟨hsends, hs⟩ := Prod.mk.inj hs
  obtain ⟨hout, hindices⟩ := Prod.mk.inj hs
  obtain ⟨hread, hwrite⟩ := Prod.mk.inj hindices
  have hempty := hread.trans hwrite.symm
  refine ⟨s, hrun, hsends, hempty, hout, ?_⟩
  intro budget hwrites
  have hfits := (@Peers.Inv.writesFront_iff _ s .server _ _ hopen.geometry
    (Peers.Inv.of_run hopen hrun) hempty hout budget).mp hwrites
  unfold FrontFits at hfits
  rw [hwrite] at hfits
  revert hfits
  decide

end Corekit.Ipc
