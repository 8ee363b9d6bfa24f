import Corekit.Memory.PoolFrames
import Corekit.Memory.SlabRuns

/-! Whether the memory behind a returned pointer is as large as it should be.
`AllocLarge` adds header and guard to the size modulo `2 ^ 64`; a sum that wraps
is a request for a few bytes. -/
namespace Corekit.Memory
open Corekit.Foundation Allocation

namespace PoolState

/-- The user bytes, and the guard bytes where they are enabled. -/
def needed (s : PoolState) (size : Nat) : Nat :=
  size + if s.pool.config.enableGuardBytes then kGuardSize else 0

/-- The bytes from `ptr` on lie in one slab of a block that the pool holds, or in
one large allocation. -/
def HasRoom (s : PoolState) (ptr bytes : Nat) : Prop :=
  (∃ c < kNumSizeClasses, ∃ block ∈ s.pool.blocks c, ∃ slab ∈ block.slabs,
    Extent.Within ⟨ptr, bytes⟩ ⟨slab, s.pool.slabSize c⟩ ∧
      Extent.Within ⟨slab, s.pool.slabSize c⟩ block.extent ∧
      block.extent ∈ s.heap.outstanding) ∨
  ∃ extent ∈ s.heap.outstanding, extent.base ∈ s.pool.largeAllocs ∧
    Extent.Within ⟨ptr, bytes⟩ extent

variable {s s' : PoolState} {live : List Allocation} {size ptr bytes : Nat}

theorem HasRoom.outstanding (h : s.HasRoom ptr bytes) :
    ∃ extent ∈ s.heap.outstanding, Extent.Within ⟨ptr, bytes⟩ extent := by
  rcases h with ⟨c, -, block, -, slab, -, hslab, hblock, hheld⟩ | ⟨extent, hmem, -, hwithin⟩
  · exact ⟨block.extent, hheld, hslab.trans hblock⟩
  · exact ⟨extent, hmem, hwithin⟩

theorem size_le_of_slab (hc : sizeClassIndex size < kNumSizeClasses) : size ≤ 4096 := by
  have hclass : ∀ c < kNumSizeClasses, classBytes c ≤ 4096 := by decide
  exact (size_le_classBytes hc).trans (hclass _ hc)

theorem Sound.slab_hasRoom {x : Allocation} (h : s.Sound live) (hx : x ∈ live)
    (hc : x.classIdx < kNumSizeClasses) : s.HasRoom x.ptr (s.needed x.size) := by
  obtain ⟨block, hb, hs⟩ := mem_slabs.mp (h.layout.mem_slabs_of_live hx hc)
  have hheld : block.extent ∈ s.heap.outstanding :=
    h.layout.held.mem_iff.mpr (List.mem_append_left _
      (List.mem_map_of_mem (mem_allBlocks.mpr ⟨_, hc, hb⟩)))
  have hwithin := Layout.extent_within_slab s.pool hc
  refine .inl ⟨_, hc, block, hb, _, hs, ?_, h.layout.slab_within hc hb hs, hheld⟩
  obtain ⟨-, hend⟩ := hwithin
  refine ⟨Nat.le_add_right _ _, ?_⟩
  change x.header + sizeofSlabHeader + (x.size + _) ≤ _
  change x.header + (sizeofSlabHeader + x.size + _) ≤ _ at hend
  dsimp only at hend ⊢
  omega

/-- A large allocation has room when its total does not wrap. Otherwise the bytes
would reach past the end of the address space. -/
theorem Sound.large_hasRoom_iff (h : s.Sound live) {hdr : Nat}
    (hc : kNumSizeClasses ≤ sizeClassIndex size) (hobtains : s.Obtains size hdr s') :
    s'.HasRoom (userFromHeader hdr) (s.needed size) ↔
      sizeofSlabHeader + s.needed size < 2 ^ 64 := by
  cases hobtains with
  | recycle hc' => exact absurd hc (Nat.not_le.mpr hc')
  | carve hc' => exact absurd hc (Nat.not_le.mpr hc')
  | large _ hgrants =>
    have htotal : largeTotal s.pool.config.enableGuardBytes size =
        (sizeofSlabHeader + s.needed size) % 2 ^ 64 := by
      rw [largeTotal, needed, Nat.add_assoc]
    constructor
    · intro hroom
      obtain ⟨extent, hmem, hwithin⟩ := hroom.outstanding
      have hend : extent.base + extent.len ≤ 2 ^ 64 := by
        rcases List.mem_cons.mp hmem with rfl | hmem
        · exact hgrants.2.1
        · exact (h.layout.room extent hmem).2.2
      have hraw := hgrants.1
      have hlast := hwithin.2
      change hdr + sizeofSlabHeader + s.needed size ≤ _ at hlast
      omega
    · intro hfits
      rw [htotal, Nat.mod_eq_of_lt hfits]
      refine .inr ⟨⟨hdr, sizeofSlabHeader + s.needed size⟩, List.mem_cons_self,
        List.mem_append_right _ (List.mem_singleton_self hdr), Nat.le_add_right _ _, ?_⟩
      change hdr + sizeofSlabHeader + s.needed size ≤ hdr + (sizeofSlabHeader + s.needed size)
      omega

theorem Sound.hasRoom_iff (h : s.Sound live) {alignment : Nat} {answer : Answer}
    (hcall : s.allocAligned size alignment answer = some (some ptr, s')) :
    s'.HasRoom ptr (s.needed size) ↔ sizeofSlabHeader + s.needed size < 2 ^ 64 := by
  obtain ⟨hnone, -⟩ | ⟨hdr, mid, hready, hobtains, hptr, rfl, -⟩ := allocAligned_cases hcall
  · cases hnone
  cases hptr
  by_cases hc : sizeClassIndex size < kNumSizeClasses
  · have hsmall := size_le_of_slab hc
    have hfits : sizeofSlabHeader + s.needed size < 2 ^ 64 := by
      unfold needed sizeofSlabHeader kGuardSize
      split_ifs <;> omega
    simp only [Refuses, not_or, Bool.not_eq_false] at hready
    have hsound := h.obtains hready.2.1 (Nat.pos_of_ne_zero hready.1)
      (by unfold sizeofSlabHeader kGuardSize; omega) hobtains
    have hneeded : mid.needed size = s.needed size := by
      rw [needed, needed, hobtains.frame.1]
    refine iff_of_true ?_ hfits
    rw [← hneeded]
    exact hsound.slab_hasRoom List.mem_cons_self hc
  · change mid.HasRoom (userFromHeader hdr) (s.needed size) ↔ _
    exact h.large_hasRoom_iff (Nat.not_lt.mp hc) hobtains

end PoolState

/-- After any history, the pointer that `AllocAligned` returns has room exactly
when the size, with header and guard, fits `size_t`. -/
theorem returned_pointer_has_room_iff {parentStats : Option AtomicStats}
    {actions : List PoolAction}
    (hmeets : Meets PoolWorld.step ShrinksIdle (PoolWorld.start parentStats) actions)
    {w : PoolWorld} (hrun : runs PoolWorld.step (PoolWorld.start parentStats) actions = some w)
    {size alignment : Nat} {answer : Answer} {ptr : Nat} {state : PoolState}
    (hcall : w.state.allocAligned size alignment answer = some (some ptr, state)) :
    state.HasRoom ptr (w.state.needed size) ↔
      sizeofSlabHeader + w.state.needed size < 2 ^ 64 :=
  (PoolWorld.runs_sound hmeets hrun).hasRoom_iff hcall

/-- A slab of 32 bytes for 8 of the user. -/
theorem returned_pointer_has_room_slab :
    ∃ w state, runs PoolWorld.step (PoolWorld.start none) [.init { blockSize := 64 }] = some w ∧
      w.state.allocAligned 8 8 ⟨some 4096, 100⟩ = some (some 4120, state) ∧
      state.HasRoom 4120 8 := by
  obtain ⟨w, hrun, hcall⟩ := Option.map_eq_some_iff.mp
    (show (runs PoolWorld.step (PoolWorld.start none) [.init { blockSize := 64 }]).map (fun w =>
      ((w.state.allocAligned 8 8 ⟨some 4096, 100⟩).map Prod.fst, w.state.needed 8)) =
        some (some (some 4120), 8) by decide +kernel)
  obtain ⟨hfirst, hneeded⟩ := Prod.mk.inj hcall
  obtain ⟨⟨ptr, state⟩, hstate, hptr⟩ := Option.map_eq_some_iff.mp hfirst
  obtain rfl : ptr = some 4120 := hptr
  have hmeets : Meets PoolWorld.step ShrinksIdle (PoolWorld.start none)
      [.init { blockSize := 64 }] :=
    PoolWorld.meets_of_plain (by simp [PoolAction.SizeFits]) _
  refine ⟨w, state, hrun, hstate, ?_⟩
  rw [← hneeded]
  exact (returned_pointer_has_room_iff hmeets hrun hstate).mpr (by rw [hneeded]; decide)

/-- A request for all the bytes there are is served with 23 of them. -/
theorem large_request_wraps :
    ∃ w state, runs PoolWorld.step (PoolWorld.start none) [.init {}] = some w ∧
      w.state.allocAligned (2 ^ 64 - 1) 8 ⟨some 4096, 0⟩ = some (some 4120, state) ∧
      state.heap.outstanding = [⟨4096, 23⟩] ∧ ¬ state.HasRoom 4120 (2 ^ 64 - 1) := by
  obtain ⟨w, hrun, hcall⟩ := Option.map_eq_some_iff.mp
    (show (runs PoolWorld.step (PoolWorld.start none) [.init {}]).map (fun w =>
      (w.state.allocAligned (2 ^ 64 - 1) 8 ⟨some 4096, 0⟩).map fun result =>
        (result.1, result.2.heap.outstanding)) =
        some (some (some 4120, [⟨4096, 23⟩])) by decide +kernel)
  obtain ⟨⟨ptr, state⟩, hstate, hresult⟩ := Option.map_eq_some_iff.mp hcall
  obtain ⟨rfl, houtstanding⟩ := Prod.mk.inj hresult
  refine ⟨w, state, hrun, hstate, houtstanding, ?_⟩
  intro hroom
  obtain ⟨extent, hmem, hwithin⟩ := hroom.outstanding
  rw [houtstanding, List.mem_singleton] at hmem
  subst hmem
  exact absurd hwithin (by decide)

end Corekit.Memory
