import Corekit.Memory.PoolTreeRuns

/-! What one pool knows of the pointers of another. `Owns` and `Free` ask the
header of a pointer, and the magic number there is the same for every pool. -/
namespace Corekit.Memory
open Corekit.Foundation Allocation

namespace TreeWorld

variable {w : TreeWorld} {owned : Nat → List Extent} {i j : Nat}

namespace Sound

theorem owns_live (h : w.Sound owned) (hj : j < w.tree.count) {x : Allocation}
    (hx : x ∈ w.live j) (i : Nat) : w.tree.owns i x.ptr = true := by
  have hmagic := ((h.pool j hj).headers.live x hx).1
  have hheader : headerFromUser x.ptr = x.header := Nat.add_sub_cancel _ _
  have hptr : x.ptr ≠ 0 := by simp [Allocation.ptr, userFromHeader, sizeofSlabHeader]
  change decide (x.ptr ≠ 0 ∧ SlabHeader.magic w.tree.heap.memory (headerFromUser x.ptr) =
    kSlabMagic) = true
  rw [hheader]
  exact decide_eq_true ⟨hptr, hmagic⟩

theorem live_unique (h : w.Sound owned) (hi : i < w.tree.count) (hj : j < w.tree.count)
    {x y : Allocation} (hx : x ∈ w.live i) (hy : y ∈ w.live j) (hptr : x.ptr = y.ptr) : i = j := by
  by_contra hne
  obtain ⟨left, hleft, hwithin⟩ := (h.pool i hi).layout.header_in_extent hx
  obtain ⟨right, hright, hwithin'⟩ := (h.pool j hj).layout.header_in_extent hy
  have hdisj := (h.owned_apart hi hj hne hleft hright).mono hwithin hwithin'
  have hheader : x.header = y.header := Nat.add_right_cancel hptr
  unfold Extent.Disjoint at hdisj
  simp only [hheader, sizeofSlabHeader] at hdisj
  omega

theorem blocks_apart (h : w.Sound owned) (hi : i < w.tree.count) (hj : j < w.tree.count)
    (hne : i ≠ j) {block other : Block} (hb : block ∈ (w.tree.pools i).allBlocks)
    (hother : other ∈ (w.tree.pools j).allBlocks) : block.extent.Disjoint other.extent :=
  h.owned_apart hi hj hne ((h.pool i hi).layout.extent_mem hb)
    ((h.pool j hj).layout.extent_mem hother)

theorem freeList_own (h : w.Sound owned) (hi : i < w.tree.count) {c slab : Nat}
    (hc : c < kNumSizeClasses) (hslab : slab ∈ (w.tree.pools i).freeLists c) :
    ∃ block ∈ (w.tree.pools i).allBlocks, Extent.Within ⟨slab, sizeofSlabHeader⟩ block.extent := by
  have hlayout := (h.pool i hi).layout
  obtain ⟨block, hb, hs⟩ := mem_slabs.mp (hlayout.mem_slabs_of_free hc hslab)
  exact ⟨block, mem_allBlocks.mpr ⟨c, hc, hb⟩,
    (Layout.header_within_slab _ _ c).trans (hlayout.slab_within hc hb hs)⟩

theorem free_foreign (h : w.Sound owned) (hj : j < w.tree.count) {x : Allocation}
    (hx : x ∈ w.live j) (hinited : (w.tree.pools i).inited = true) :
    ((w.tree.free i x.ptr).pools i).stats.freeCount =
      ((w.tree.pools i).stats.freeCount + 1) % 2 ^ 64 := by
  have hstats : ((w.tree.view i).free x.ptr).pool.stats.freeCount =
      ((w.tree.pools i).stats.freeCount + 1) % 2 ^ 64 := by
    rw [PoolState.free_eq (s := w.tree.view i) ((h.pool j hj).headers.live x hx) hinited]
    split_ifs
    · have hframe := ((w.tree.view i).freeToSlab_frame x.header).2.2.1
      simp only [PoolState.recordFree, hframe]
      rfl
    · rfl
  rw [← hstats]
  unfold PoolTree.free PoolTree.writeUsed
  split
  · rw [w.tree.put_pools_self]
  · change ((w.tree.put i _).pools i).stats.freeCount = _
    rw [w.tree.put_pools_self]

end Sound

end TreeWorld

/-- Histories in which every pool frees only what it allocated: each free list
holds slabs of the pool's own blocks, and a live pointer belongs to one pool.
From there, `Owns` is right about a live pointer exactly in the pool that
allocated it, and another pool's `Free` leaves everything as it is exactly when
that pool is not initialized. -/
theorem pools_are_isolated (actions : List TreeAction) (w : TreeWorld)
    (hmeets : Meets TreeWorld.step TreeWorld.OwnCalls {} actions)
    (hrun : runs TreeWorld.step {} actions = some w) :
    (∀ i < w.tree.count, ∀ j < w.tree.count, i ≠ j → ∀ c < kNumSizeClasses,
      ∀ slab ∈ (w.tree.pools i).freeLists c, ∀ block ∈ (w.tree.pools j).allBlocks,
        slab ∉ block.slabs) ∧
    (∀ i < w.tree.count, ∀ j < w.tree.count, ∀ x ∈ w.live i, ∀ y ∈ w.live j,
      x.ptr = y.ptr → i = j) ∧
    (∀ i < w.tree.count, ∀ j < w.tree.count, ∀ x ∈ w.live j,
      ((w.tree.owns i x.ptr = true ↔ ∃ y ∈ w.live i, y.ptr = x.ptr) ↔ i = j)) ∧
    (∀ i < w.tree.count, ∀ j < w.tree.count, i ≠ j → ∀ x ∈ w.live j,
      (w.tree.free i x.ptr = w.tree ↔ (w.tree.pools i).inited = false)) := by
  obtain ⟨owned, h⟩ := TreeWorld.Sound.of_run hmeets hrun
  refine ⟨?_, ?_, ?_, ?_⟩
  · intro i hi j hj hne c hc slab hslab block hb hmem
    obtain ⟨own, hown, hwithin⟩ := h.freeList_own hi hc hslab
    obtain ⟨c', hc', hblock⟩ := mem_allBlocks.mp hb
    have hwithin' := (Layout.header_within_slab _ _ c').trans
      ((h.pool j hj).layout.slab_within hc' hblock hmem)
    have hdisj := (h.blocks_apart hi hj hne hown hb).mono hwithin hwithin'
    unfold Extent.Disjoint at hdisj
    simp only [sizeofSlabHeader] at hdisj
    omega
  · exact fun i hi j hj x hx y hy hptr => h.live_unique hi hj hx hy hptr
  · intro i hi j hj x hx
    simp only [h.owns_live hj hx i, true_iff]
    constructor
    · rintro ⟨y, hy, hptr⟩
      exact h.live_unique hi hj hy hx hptr
    · rintro rfl
      exact ⟨x, hx, rfl⟩
  · intro i hi j hj _ x hx
    constructor
    · intro hsame
      by_contra hinited
      have hcount := h.free_foreign hj hx (by simpa using hinited : (w.tree.pools i).inited = true)
      rw [hsame] at hcount
      omega
    · exact fun hinited => TreeWorld.Sound.free_nothing w (.inr hinited)

/-- Two pools side by side; the second hands out a slab and takes it back. -/
theorem pools_are_isolated_two :
    ∃ w, runs TreeWorld.step {}
        [.create, .create, .init 0 { blockSize := 64 }, .init 1 { blockSize := 64 },
          .allocAligned 1 8 8 ⟨some 4096, 100⟩, .allocAligned 1 8 8 ⟨none, 200⟩, .free 1 4120] =
        some w ∧
      w.live 1 = [⟨4128, 8⟩] ∧ w.tree.owns 1 4152 = true ∧ w.tree.free 0 4152 ≠ w.tree := by
  obtain ⟨w, hrun, hw⟩ := Option.map_eq_some_iff.mp
    (show (runs TreeWorld.step {}
        [.create, .create, .init 0 { blockSize := 64 }, .init 1 { blockSize := 64 },
          .allocAligned 1 8 8 ⟨some 4096, 100⟩, .allocAligned 1 8 8 ⟨none, 200⟩,
          .free 1 4120]).map
        (fun w => (w.tree.count, w.live 1, (w.tree.pools 0).inited)) =
        some (2, [⟨4128, 8⟩], true) by decide +kernel)
  simp only [Prod.mk.injEq] at hw
  obtain ⟨hcount, hlive, hinited⟩ := hw
  have hmem : (⟨4128, 8⟩ : Allocation) ∈ w.live 1 := by simp [hlive]
  obtain ⟨-, -, howns, hfree⟩ := pools_are_isolated _ w
    (.of_decide (by decide +kernel)) hrun
  refine ⟨w, hrun, hlive, ?_, ?_⟩
  · exact ((howns 1 (by omega) 1 (by omega) _ hmem).mpr rfl).mpr ⟨_, hmem, rfl⟩
  · intro hsame
    have := (hfree 0 (by omega) 1 (by omega) (by decide) _ hmem).mp hsame
    rw [hinited] at this
    cases this

/-- A pool that has allocated nothing owns the pointer of another pool; its
`Free` takes the slab into its own free list, counts it, and leaves the pointer
unknown to the pool where it is live. -/
theorem free_takes_foreign_slab :
    ∃ w, runs TreeWorld.step {}
        [.create, .create, .init 0 { blockSize := 64 }, .init 1 { blockSize := 64 },
          .allocAligned 1 8 8 ⟨some 4096, 100⟩] = some w ∧
      w.live 0 = [] ∧ w.live 1 = [⟨4096, 8⟩] ∧ w.tree.owns 0 4120 = true ∧
      ((w.tree.free 0 4120).pools 0).freeLists 0 = [4096] ∧
      ((w.tree.free 0 4120).pools 0).stats.freeCount = 1 ∧
      (w.tree.free 0 4120).owns 1 4120 = false := by
  obtain ⟨w, hrun, hw⟩ := Option.map_eq_some_iff.mp
    (show (runs TreeWorld.step {}
        [.create, .create, .init 0 { blockSize := 64 }, .init 1 { blockSize := 64 },
          .allocAligned 1 8 8 ⟨some 4096, 100⟩]).map
        (fun w => decide (w.live 0 = [] ∧ w.live 1 = [⟨4096, 8⟩] ∧ w.tree.owns 0 4120 = true ∧
          ((w.tree.free 0 4120).pools 0).freeLists 0 = [4096] ∧
          ((w.tree.free 0 4120).pools 0).stats.freeCount = 1 ∧
          (w.tree.free 0 4120).owns 1 4120 = false)) = some true by decide +kernel)
  exact ⟨w, hrun, of_decide_eq_true hw⟩

end Corekit.Memory
