import Corekit.Memory.PoolTree

/-! What a call of one pool leaves alone when other pools share its heap. The
pool is looked at with its own extents only (`within`); what it does there it
does in the whole heap, and nothing outside its extents changes. -/
namespace Corekit.Memory
open Corekit.Foundation Allocation

/-- How a call changes the extents of its pool and all extents. -/
inductive Trade : List Extent → List Extent → List Extent → List Extent → Prop
  | keep (own all : List Extent) : Trade own all own all
  | take (own all : List Extent) (extent : Extent)
      (hfresh : ∀ other ∈ all, other.Disjoint extent) :
      Trade own all (extent :: own) (extent :: all)
  | give (own all : List Extent) (extent : Extent) (hmem : extent ∈ own) :
      Trade own all (own.eraseP fun other => other.base = extent.base)
        (all.eraseP fun other => other.base = extent.base)

theorem SlabHeader.keepExcept {mem mem' : Mem} {extents : List Extent} (hdr : Nat)
    (h : Mem.SameExcept extents mem mem')
    (hdisj : ∀ extent ∈ extents, Extent.Disjoint ⟨hdr, sizeofSlabHeader⟩ extent) :
    SlabHeader.magic mem' hdr = SlabHeader.magic mem hdr ∧
      SlabHeader.classIndex mem' hdr = SlabHeader.classIndex mem hdr ∧
      SlabHeader.userSize mem' hdr = SlabHeader.userSize mem hdr ∧
      SlabHeader.blockOwner mem' hdr = SlabHeader.blockOwner mem hdr := by
  have hfield : ∀ offset width, offset + width ≤ sizeofSlabHeader →
      mem'.loadLE width (hdr + offset) = mem.loadLE width (hdr + offset) := by
    intro offset width hle
    apply h.loadLE_eq
    intro extent hmem
    apply (hdisj extent hmem).mono _ (Extent.Within.refl _)
    constructor
    · exact Nat.le_add_right _ _
    · change hdr + offset + width ≤ hdr + sizeofSlabHeader
      omega
  exact ⟨hfield 0 4 (by decide), hfield 4 2 (by decide), hfield 8 8 (by decide),
    hfield 16 8 (by decide)⟩

theorem Headers.frame_foreign {pool : SlabPoolImpl} {own others : List Extent}
    {live : List Allocation} {mem mem' : Mem} (h : Headers pool mem live)
    (hlayout : Layout pool own live) (hsame : Mem.SameExcept others mem mem')
    (hapart : ∀ extent ∈ own, ∀ other ∈ others, extent.Disjoint other) :
    Headers pool mem' live := by
  refine ⟨fun c hc block hb slab hs => ?_, fun x hx => ?_⟩
  · have hkeep := SlabHeader.keepExcept slab hsame fun other hother =>
      (hapart _ (hlayout.extent_mem (mem_allBlocks.mpr ⟨c, hc, hb⟩)) other hother).mono
        ((Layout.header_within_slab pool slab c).trans (hlayout.slab_within hc hb hs))
        (Extent.Within.refl _)
    exact hkeep.2.2.2.trans (h.owner c hc block hb slab hs)
  · obtain ⟨extent, hmem, hwithin⟩ := hlayout.header_in_extent hx
    obtain ⟨hmagic, hindex, hsize, -⟩ := SlabHeader.keepExcept x.header hsame
      fun other hother => (hapart extent hmem other hother).mono hwithin (Extent.Within.refl _)
    rw [hmagic, hindex, hsize]
    exact h.live x hx

namespace PoolState

variable {s s' : PoolState} {own : List Extent} {live : List Allocation} {size hdr : Nat}

/-- The same state, with only some of the extents in sight. -/
def within (s : PoolState) (own : List Extent) : PoolState :=
  { s with heap := { s.heap with outstanding := own } }

theorem Grants.within {len raw : Nat} (h : s.heap.Grants len raw)
    (hown : ∀ extent ∈ own, extent ∈ s.heap.outstanding) : (s.within own).heap.Grants len raw :=
  ⟨h.1, h.2.1, fun extent hmem => h.2.2 extent (hown extent hmem)⟩

theorem popSlab_within (s : PoolState) (own : List Extent) (c size slot : Nat) :
    (s.within own).popSlab c size slot = (s.popSlab c size slot).within own := by
  simp only [PoolState.popSlab, within]
  congr

theorem carveBlock_within (s : PoolState) (own : List Extent) (c size : Nat) (block : Block) :
    (s.within own).carveBlock c size block = (s.carveBlock c size block).within own := by
  simp only [PoolState.carveBlock, within]
  rfl

theorem Obtains.within (h : s.Obtains size hdr s')
    (hown : ∀ extent ∈ own, extent ∈ s.heap.outstanding) :
    ∃ own', (s.within own).Obtains size hdr (s'.within own') ∧
      Trade own s.heap.outstanding own' s'.heap.outstanding := by
  cases h with
  | recycle hc hslot =>
    refine ⟨own, ?_, .keep _ _⟩
    rw [← popSlab_within]
    exact .recycle hc hslot
  | carve hc hempty hcount hgrants haddress =>
    refine ⟨_, ?_, .take _ _ _ hgrants.2.2⟩
    rw [← carveBlock_within]
    exact .carve hc hempty hcount (Grants.within hgrants hown) haddress
  | large hc hgrants =>
    exact ⟨_, .large hc (Grants.within hgrants hown), .take _ _ _ hgrants.2.2⟩

theorem Sound.obtains_bytes (h : s.Sound live)
    (hsize : sizeofSlabHeader + size + kGuardSize < 2 ^ 64) (hobtains : s.Obtains size hdr s') :
    Mem.SameExcept s'.heap.outstanding s.heap.memory s'.heap.memory := by
  cases hobtains with
  | recycle hc hslot =>
    have hmem := h.layout.mem_slabs_of_free hc (List.mem_of_getLast? hslot)
    obtain ⟨block, hb, hs⟩ := mem_slabs.mp hmem
    have hstamped := (popSlab_bytes s hdr (hc.trans (by decide)) (size_le_classBytes hc)
      (by omega)).1
    exact hstamped.outside.sameExcept (h.layout.extent_mem (mem_allBlocks.mpr ⟨_, hc, hb⟩))
      (h.layout.slab_within hc hb hs)
  | carve hc hempty hcount hgrants haddress =>
    refine (carveBlock_bytes _ rfl (Nat.div_mul_le_self _ _) (Nat.pos_of_ne_zero hcount)
      haddress.2.1 (hc.trans (by decide)) (size_le_classBytes hc)
      (by omega)).1.outside.sameExcept List.mem_cons_self (Extent.Within.refl _)
  | large hc hgrants =>
    rw [largeTotal_eq _ hdr hsize]
    exact (largeMem_bytes s hdr (by omega)).outside.sameExcept List.mem_cons_self
      (Extent.Within.refl _)

structure Recorded (s s' : PoolState) (size : Nat) : Prop where
  config : s'.pool.config = s.pool.config
  inited : s'.pool.inited = s.pool.inited
  allocCount : s'.pool.stats.allocCount = (s.pool.stats.allocCount + 1) % 2 ^ 64
  freeCount : s'.pool.stats.freeCount = s.pool.stats.freeCount
  bytesInUse : s'.pool.stats.bytesInUse = (s.pool.stats.bytesInUse + size) % 2 ^ 64
  bytesPeak : s'.pool.stats.bytesPeak =
    max s.pool.stats.bytesPeak ((s.pool.stats.bytesInUse + size) % 2 ^ 64)
  parentStats : s'.parentStats = s.parentStats.map fun stats => stats.addInUse size

theorem Obtains.frame (h : s.Obtains size hdr s') :
    s'.pool.config = s.pool.config ∧ s'.pool.inited = s.pool.inited ∧
      s'.pool.stats.allocCount = s.pool.stats.allocCount ∧
      s'.pool.stats.freeCount = s.pool.stats.freeCount ∧
      s'.pool.stats.bytesInUse = s.pool.stats.bytesInUse ∧
      s'.pool.stats.bytesPeak = s.pool.stats.bytesPeak ∧ s'.parentStats = s.parentStats := by
  cases h with
  | recycle hc hslot =>
    have hpool := Sound.popSlab_pool s (sizeClassIndex size) size hdr
    have hparent : (s.popSlab (sizeClassIndex size) size hdr).parentStats = s.parentStats := by
      simp only [popSlab]
    rw [hparent]
    split_ifs at hpool <;> simp only [hpool, SlabPoolImpl.updateUsed, and_self]
  | carve hc hempty hcount hgrants haddress => exact ⟨rfl, rfl, rfl, rfl, rfl, rfl, rfl⟩
  | large hc hgrants => exact ⟨rfl, rfl, rfl, rfl, rfl, rfl, rfl⟩

theorem Obtains.recorded (h : s.Obtains size hdr s') : Recorded s (s'.recordAlloc size) size := by
  obtain ⟨hconfig, hinited, halloc, hfree, hbytes, hpeak, hparent⟩ := h.frame
  constructor <;> simp only [recordAlloc, AtomicStats.recordAlloc, *]

theorem Sound.alloc_shared (h : (s.within own).Sound live)
    (hown : ∀ extent ∈ own, extent ∈ s.heap.outstanding)
    (hsize : sizeofSlabHeader + size + kGuardSize < 2 ^ 64) {alignment : Nat} {answer : Answer}
    {result : Option Nat} (hcall : s.allocAligned size alignment answer = some (result, s')) :
    (result = none ∧ s' = s) ∨
      ∃ hdr own', result = some (userFromHeader hdr) ∧ ¬s.Refuses size ∧
        (s'.within own').Sound (⟨hdr, size⟩ :: live) ∧
        Trade own s.heap.outstanding own' s'.heap.outstanding ∧
        Mem.SameExcept own' s.heap.memory s'.heap.memory ∧ Recorded s s' size := by
  rcases allocAligned_cases hcall with
    ⟨hnone, hsame, -⟩ | ⟨hdr, mid, hready, hobtains, rfl, rfl, -⟩
  · exact .inl ⟨hnone, hsame⟩
  · obtain ⟨own', hwithin, htrade⟩ := hobtains.within hown
    have hrequest := hready
    simp only [Refuses, not_or, Bool.not_eq_false] at hready
    have hsound := h.obtains hready.2.1 (Nat.pos_of_ne_zero hready.1) hsize hwithin
    exact .inr ⟨hdr, own', rfl, hrequest, hsound.stats _ _, htrade,
      h.obtains_bytes hsize hwithin, hobtains.recorded⟩

structure Returned (s s' : PoolState) (size : Nat) : Prop where
  config : s'.pool.config = s.pool.config
  inited : s'.pool.inited = s.pool.inited
  stats : s'.pool.stats = s.pool.stats.recordFree size
  parentStats : s'.parentStats = s.parentStats.map fun stats => stats.subInUse size

theorem freeToSlab_frame (s : PoolState) (hdr : Nat) :
    (s.freeToSlab hdr).pool.config = s.pool.config ∧
      (s.freeToSlab hdr).pool.inited = s.pool.inited ∧
      (s.freeToSlab hdr).pool.stats = s.pool.stats ∧
      (s.freeToSlab hdr).parentStats = s.parentStats ∧
      (s.freeToSlab hdr).heap.outstanding = s.heap.outstanding ∧
      Mem.SameOutside hdr sizeofSlabHeader s.heap.memory (s.freeToSlab hdr).heap.memory := by
  simp only [freeToSlab]
  split_ifs
  · exact ⟨rfl, rfl, rfl, rfl, rfl, .refl _⟩
  all_goals exact ⟨rfl, rfl, rfl, rfl, rfl, SlabHeader.setMagic_sameOutside _ _ _⟩

def recycleSlab (s : PoolState) (hdr : Nat) : PoolState :=
  let classIdx := SlabHeader.classIndex s.heap.memory hdr
  let owner := SlabHeader.blockOwner s.heap.memory hdr
  let pool := if owner ≠ 0 then
      s.pool.updateUsed owner fun used => if used > 0 then used - 1 else used
    else s.pool
  { s with
    pool := { pool with
      freeLists := Function.update pool.freeLists classIdx (pool.freeLists classIdx ++ [hdr]) }
    heap := { s.heap with memory := SlabHeader.setMagic s.heap.memory hdr 0 } }

theorem freeToSlab_eq (s : PoolState) (hdr : Nat) :
    s.freeToSlab hdr = if kNumSizeClasses ≤ SlabHeader.classIndex s.heap.memory hdr then s
      else s.recycleSlab hdr := by
  simp only [freeToSlab, recycleSlab]

theorem freeToSlab_within (s : PoolState) (own : List Extent) (hdr : Nat) :
    (s.within own).freeToSlab hdr = (s.freeToSlab hdr).within own := by
  rw [freeToSlab_eq, freeToSlab_eq s, apply_ite fun s : PoolState => s.within own]
  have hrecycle : (s.within own).recycleSlab hdr = (s.recycleSlab hdr).within own := by
    simp only [recycleSlab, within]
    congr
  rw [hrecycle]
  rfl

theorem Sound.free_shared {x : Allocation} (h : (s.within own).Sound (x :: live)) :
    (∃ own', ((s.free x.ptr).within own').Sound live ∧
      Trade own s.heap.outstanding own' (s.free x.ptr).heap.outstanding) ∧
    Mem.SameExcept own s.heap.memory (s.free x.ptr).heap.memory ∧
    Returned s (s.free x.ptr) x.size := by
  have hx : x ∈ x :: live := List.mem_cons_self
  have hinited : s.pool.inited = true := h.inited_of_live hx
  have heq := free_eq (s := s) (h.headers.live x hx) hinited
  have hsound := h.free
  rw [free_eq (h.headers.live x hx) (h.inited_of_live hx)] at hsound
  obtain ⟨extent, hmem, hheader⟩ := h.layout.header_in_extent hx
  by_cases hclass : x.classIdx < kNumSizeClasses
  · rw [if_pos hclass] at heq hsound
    obtain ⟨hconfig, hready, hstats, hparent, hout, hbytes⟩ := s.freeToSlab_frame x.header
    rw [heq]
    refine ⟨⟨own, ?_, ?_⟩, hbytes.sameExcept hmem hheader, ?_⟩
    · rw [freeToSlab_within] at hsound
      exact hsound
    · change Trade own _ own (s.freeToSlab x.header).heap.outstanding
      rw [hout]
      exact .keep _ _
    · constructor <;> simp only [recordFree, hconfig, hready, hstats, hparent]
  · rw [if_neg hclass] at heq hsound
    have hlarge := h.layout.large_mem (mem_larges.mpr ⟨hx, Nat.not_lt.mp hclass⟩)
    rw [heq]
    refine ⟨⟨_, hsound, .give own _ _ hlarge⟩, ?_, ⟨rfl, rfl, rfl, rfl⟩⟩
    exact (SlabHeader.setMagic_sameOutside _ _ _).sameExcept hmem hheader

theorem Sound.recycledOwner_here (h : s.Sound live) {address : Nat}
    (howner : s.recycledOwner size = some address) :
    ∃ block ∈ s.pool.allBlocks, block.address = address := by
  unfold recycledOwner at howner
  split_ifs at howner with hrefused
  simp only [not_or, Nat.not_le] at hrefused
  obtain ⟨slot, hslot, rfl⟩ := Option.map_eq_some_iff.mp howner
  obtain ⟨block, hb, hs⟩ := mem_slabs.mp
    (h.layout.mem_slabs_of_free hrefused.2 (List.mem_of_getLast? hslot))
  exact ⟨block, mem_allBlocks.mpr ⟨_, hrefused.2, hb⟩,
    (h.headers.owner _ hrefused.2 block hb slot hs).symm⟩

theorem Sound.freedOwner_here (h : s.Sound live) {x : Allocation} (hx : x ∈ live) {address : Nat}
    (howner : s.freedOwner x.ptr = some address) :
    ∃ block ∈ s.pool.allBlocks, block.address = address := by
  obtain ⟨-, hindex, -⟩ := h.headers.live x hx
  have hheader : headerFromUser x.ptr = x.header := Nat.add_sub_cancel _ _
  simp only [freedOwner, hheader] at howner
  split_ifs at howner with hrefused
  simp only [not_or, Nat.not_le] at hrefused
  have hclass : x.classIdx < kNumSizeClasses := by
    by_contra hnot
    rw [if_neg hnot] at hindex
    have hlt := hrefused.2.2.2
    rw [hindex] at hlt
    exact absurd hlt (by decide)
  have haddr := Option.some.inj howner
  obtain ⟨block, hb, -, haddress⟩ := h.block_of_live hx hclass
  exact ⟨block, mem_allBlocks.mpr ⟨_, hclass, hb⟩, haddress.symm.trans haddr⟩

end PoolState

end Corekit.Memory
