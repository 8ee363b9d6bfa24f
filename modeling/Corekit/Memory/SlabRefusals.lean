import Corekit.Memory.SlabRoom

/-! Why an allocation returns `NULL`: the budget, the underlying allocator, or a
block size that leaves no room for a slab. Only the last can hit a request and
spare a larger one. -/
namespace Corekit.Memory
open Corekit.Foundation

theorem sizeClassIndex_lt {size : Nat} (h : size ≤ 4096) : sizeClassIndex size < kNumSizeClasses :=
  List.findIdx_lt_length_of_exists ⟨4096, by decide, by simpa using h⟩

theorem sizeClassIndex_mono {size size' : Nat} (h : size ≤ size') :
    sizeClassIndex size ≤ sizeClassIndex size' := by
  by_contra hlt
  have hlt := Nat.not_le.mp hlt
  have hlen : sizeClassIndex size' < kSizeClasses.length :=
    Nat.lt_of_lt_of_le hlt List.findIdx_le_length
  have hno := List.not_of_lt_findIdx hlt
  have hyes := @List.findIdx_getElem _ (fun bytes => decide (size' ≤ bytes)) kSizeClasses hlen
  have hyes := of_decide_eq_true hyes
  exact of_decide_eq_false hno (h.trans hyes)

theorem classBytes_mono : ∀ c' < kNumSizeClasses, ∀ c ≤ c', classBytes c ≤ classBytes c' := by decide

theorem slabSize_mono (pool : SlabPoolImpl) {c c' : Nat} (h : c ≤ c') (hc' : c' < kNumSizeClasses) :
    pool.slabSize c ≤ pool.slabSize c' := by
  have hbytes := classBytes_mono c' hc' c h
  unfold SlabPoolImpl.slabSize
  omega

namespace PoolState

variable {s s' : PoolState} {size : Nat} {live : List Allocation}

def OverBudget (s : PoolState) (size : Nat) : Prop :=
  0 < s.pool.config.maxBytes.toNat ∧
    s.pool.config.maxBytes.toNat < (s.pool.stats.bytesInUse + size) % 2 ^ 64

/-- The budget that lets a request through lets a smaller one through, as long
as the sum of the larger one stays within 64 bits. -/
theorem OverBudget.mono {size' : Nat} (hle : size ≤ size')
    (hsum : s.pool.stats.bytesInUse + size' < 2 ^ 64) (h : s.OverBudget size) :
    s.OverBudget size' := by
  obtain ⟨hlimit, hover⟩ := h
  refine ⟨hlimit, ?_⟩
  rw [Nat.mod_eq_of_lt hsum]
  have := Nat.mod_le (s.pool.stats.bytesInUse + size) (2 ^ 64)
  omega

theorem Sound.slab_fits (h : s.Sound live) {c : Nat} (hc : c < kNumSizeClasses)
    (hfree : s.pool.freeLists c ≠ []) : s.pool.slabSize c ≤ s.pool.config.blockSize.toNat := by
  obtain ⟨slot, hslot⟩ := List.exists_mem_of_ne_nil _ hfree
  obtain ⟨block, hblock, -⟩ := mem_slabs.mp (h.layout.mem_slabs_of_free hc hslot)
  obtain ⟨-, -, hcount, hpos⟩ := h.layout.shape c hc block hblock
  rw [hcount] at hpos
  exact (Nat.div_pos_iff.mp hpos).2

/-- Where a request for one byte more gets a slab, the blocks hold a slab of the
smaller class too. -/
theorem Sound.size_of_tooSmall (h : s.Sound live) {hdr : Nat}
    (hobtains : s.Obtains (size + 1) hdr s') (hsmall : s.BlockTooSmall size) : size = 4096 := by
  obtain ⟨hc, hlt⟩ := hsmall
  have hle := size_le_of_slab hc
  have hmono := sizeClassIndex_mono (Nat.le_add_right size 1)
  have hfits : sizeClassIndex (size + 1) < kNumSizeClasses →
      ¬s.pool.slabSize (sizeClassIndex (size + 1)) ≤ s.pool.config.blockSize.toNat := by
    intro hc' hfits
    have := slabSize_mono s.pool hmono hc'
    omega
  cases hobtains with
  | recycle hc' hslot =>
    refine absurd (h.slab_fits hc' fun hnil => ?_) (hfits hc')
    rw [hnil] at hslot
    cases hslot
  | carve hc' _ hcount => exact absurd (Nat.div_ne_zero_iff.mp hcount).2 (hfits hc')
  | large hc' =>
    by_contra hne
    exact absurd (sizeClassIndex_lt (show size + 1 ≤ 4096 by omega)) (Nat.not_lt.mpr hc')

/-- A run leads here in which `Shrink` finds no live slab and every size leaves
room for header and guard. -/
def ReachedIdle (s : PoolState) : Prop :=
  ∃ parentStats actions live,
    Meets PoolWorld.step ShrinksIdle (PoolWorld.start parentStats) actions ∧
      runs PoolWorld.step (PoolWorld.start parentStats) actions = some ⟨s, live⟩

end PoolState

/-- The reasons for a `NULL`, in any state of an initialized pool and for any
answer of the underlying allocator; and what is left of them where one byte more
would be served. -/
theorem alloc_null_only_for (s : PoolState) (hinited : s.pool.inited = true) (size : Nat)
    (hpos : 0 < size) :
    (∀ answer s', s.alloc size answer = some (none, s') →
      s.OverBudget size ∨ s.RefusedBy size answer ∨ s.BlockTooSmall size) ∧
    (∀ larger ptr grown, s.alloc (size + 1) larger = some (some ptr, grown) →
      s.pool.stats.bytesInUse + (size + 1) < 2 ^ 64 →
      ∀ answer s', s.alloc size answer = some (none, s') →
        s.RefusedBy size answer ∨ s.BlockTooSmall size ∧ (s.ReachedIdle → size = 4096)) := by
  have hreasons : ∀ answer s', s.alloc size answer = some (none, s') →
      s.OverBudget size ∨ s.RefusedBy size answer ∨ s.BlockTooSmall size := by
    intro answer s' hcall
    rcases PoolState.allocAligned_cases hcall with ⟨-, -, hreason⟩ | ⟨hdr, mid, -, -, hsome, -⟩
    · rcases hreason with (hzero | hunready | hover) | hreason
      · omega
      · rw [hinited] at hunready
        cases hunready
      · exact .inl hover
      · exact .inr hreason
    · cases hsome
  refine ⟨hreasons, fun larger ptr grown hlarger hsum answer s' hcall => ?_⟩
  rcases PoolState.allocAligned_cases hlarger with ⟨hnone, -⟩ | ⟨hdr, mid, hready, hobtains, -⟩
  · cases hnone
  rcases hreasons answer s' hcall with hover | hrefused | hsmall
  · exact absurd (.inr (.inr (hover.mono (Nat.le_add_right size 1) hsum))) hready
  · exact .inl hrefused
  · refine .inr ⟨hsmall, ?_⟩
    rintro ⟨parentStats, actions, live, hmeets, hrun⟩
    exact (PoolWorld.runs_sound hmeets hrun).size_of_tooSmall hobtains hsmall

/-- A request that a block of 64 bytes has no slab for. -/
theorem alloc_null_only_for_small :
    ∃ s', (PoolState.init {} { blockSize := 64 }).2.alloc 100 ⟨some 4096, 200⟩ = some (none, s') ∧
      ((PoolState.init {} { blockSize := 64 }).2.OverBudget 100 ∨
        (PoolState.init {} { blockSize := 64 }).2.RefusedBy 100 ⟨some 4096, 200⟩ ∨
        (PoolState.init {} { blockSize := 64 }).2.BlockTooSmall 100) :=
  ⟨_, rfl, (alloc_null_only_for _ rfl 100 (by decide)).1 _ _ rfl⟩

/-- Blocks of 64 bytes hold slabs of up to 32: whatever the underlying allocator
has, 4096 bytes are never served, and 4097 are. -/
theorem small_blocks_starve_slabs :
    runs PoolWorld.step (PoolWorld.start none) [.init { blockSize := 64 }] =
        some ⟨(PoolState.init {} { blockSize := 64 }).2, []⟩ ∧
      ¬(PoolState.init {} { blockSize := 64 }).2.OverBudget 4096 ∧
      (∀ answer, (PoolState.init {} { blockSize := 64 }).2.alloc 4096 answer =
        some (none, (PoolState.init {} { blockSize := 64 }).2)) ∧
      ((PoolState.init {} { blockSize := 64 }).2.alloc 4097 ⟨some 4096, 0⟩).map Prod.fst =
        some (some 4120) :=
  ⟨rfl, fun h => absurd h.1 (by decide), fun _ => rfl, by decide +kernel⟩

end Corekit.Memory
