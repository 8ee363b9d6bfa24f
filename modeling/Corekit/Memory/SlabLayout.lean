import Corekit.Memory.SlabPool
import Mathlib.Data.List.Perm.Basic

/-! What a pool looks like between two calls. `Layout` says how the blocks, the
free lists and the live allocations share the ranges of the underlying
allocator; `Headers` says what the header bytes hold. -/
namespace Corekit.Memory
open Corekit.Foundation

/-- An allocation that has not been freed: where its header is, and the size
that was asked for. -/
structure Allocation where
  header : Nat
  size : Nat
  deriving DecidableEq, Repr

namespace Allocation

def ptr (x : Allocation) : Nat := userFromHeader x.header

def classIdx (x : Allocation) : Nat := sizeClassIndex x.size

/-- The header, the user bytes and the guard area. -/
def extent (guards : Bool) (x : Allocation) : Extent :=
  ⟨x.header, sizeofSlabHeader + x.size + if guards then kGuardSize else 0⟩

def headersIn (live : List Allocation) (classIdx : Nat) : List Nat :=
  (live.filter fun x => x.classIdx = classIdx).map header

def larges (live : List Allocation) : List Allocation :=
  live.filter fun x => kNumSizeClasses ≤ x.classIdx

end Allocation

open Allocation

def SlabPoolImpl.slabs (pool : SlabPoolImpl) (classIdx : Nat) : List Nat :=
  (pool.blocks classIdx).flatMap Block.slabs

structure Layout (pool : SlabPoolImpl) (outstanding : List Extent) (live : List Allocation) :
    Prop where
  shape : ∀ c < kNumSizeClasses, ∀ block ∈ pool.blocks c,
    block.totalBytes = pool.config.blockSize.toNat ∧ block.slabSize = pool.slabSize c ∧
      block.slabCount = pool.config.blockSize.toNat / pool.slabSize c ∧ 0 < block.slabCount
  addresses : (pool.allBlocks.map Block.address).Nodup
  address_range : ∀ block ∈ pool.allBlocks, 0 < block.address ∧ block.address < 2 ^ 64
  partition : ∀ c < kNumSizeClasses,
    (pool.slabs c).Perm (pool.freeLists c ++ headersIn live c)
  used : ∀ c < kNumSizeClasses, ∀ block ∈ pool.blocks c,
    block.usedCount = (headersIn live c).countP fun hdr => hdr ∈ block.slabs
  large : pool.largeAllocs.Perm ((larges live).map header)
  held : outstanding.Perm (pool.allBlocks.map Block.extent ++
    (larges live).map (extent pool.config.enableGuardBytes))
  apart : outstanding.Pairwise Extent.Disjoint
  room : ∀ extent ∈ outstanding,
    0 < extent.base ∧ 0 < extent.len ∧ extent.base + extent.len ≤ 2 ^ 64
  sizes : ∀ x ∈ live, 0 < x.size ∧ sizeofSlabHeader + x.size + kGuardSize < 2 ^ 64
  unready : pool.inited = false → live = [] ∧ ∀ c, pool.blocks c = []

structure Headers (pool : SlabPoolImpl) (mem : Mem) (live : List Allocation) : Prop where
  owner : ∀ c < kNumSizeClasses, ∀ block ∈ pool.blocks c, ∀ slab ∈ block.slabs,
    SlabHeader.blockOwner mem slab = block.address
  live : ∀ x ∈ live, SlabHeader.magic mem x.header = kSlabMagic ∧
    SlabHeader.classIndex mem x.header =
      (if x.classIdx < kNumSizeClasses then x.classIdx else kLargeClass) ∧
    SlabHeader.userSize mem x.header = x.size

section Classes

theorem size_le_classBytes {size : Nat} (h : sizeClassIndex size < kNumSizeClasses) :
    size ≤ classBytes (sizeClassIndex size) := by
  have hlt : sizeClassIndex size < kSizeClasses.length := h
  have hfound := @List.findIdx_getElem _ (fun bytes => decide (size ≤ bytes)) kSizeClasses hlt
  unfold classBytes
  rw [List.getD_eq_getElem?_getD, List.getElem?_eq_getElem hlt]
  exact of_decide_eq_true hfound

theorem sizeofSlabHeader_le_slabSize (pool : SlabPoolImpl) (c : Nat) :
    sizeofSlabHeader ≤ pool.slabSize c := by
  unfold SlabPoolImpl.slabSize
  omega

theorem slabSize_pos (pool : SlabPoolImpl) (c : Nat) : 0 < pool.slabSize c :=
  Nat.lt_of_lt_of_le (by decide) (sizeofSlabHeader_le_slabSize pool c)

end Classes

section Lists

variable {pool : SlabPoolImpl} {live live' : List Allocation} {c : Nat}

theorem mem_allBlocks {block : Block} :
    block ∈ pool.allBlocks ↔ ∃ c < kNumSizeClasses, block ∈ pool.blocks c := by
  simp [SlabPoolImpl.allBlocks]

theorem mem_slabs {slab : Nat} :
    slab ∈ pool.slabs c ↔ ∃ block ∈ pool.blocks c, slab ∈ block.slabs := by
  simp [SlabPoolImpl.slabs]

theorem mem_headersIn {hdr : Nat} :
    hdr ∈ headersIn live c ↔ ∃ x ∈ live, x.classIdx = c ∧ x.header = hdr := by
  simp [headersIn, and_assoc]

theorem mem_larges {x : Allocation} :
    x ∈ larges live ↔ x ∈ live ∧ kNumSizeClasses ≤ x.classIdx := by
  simp [larges]

theorem headersIn_cons (x : Allocation) :
    headersIn (x :: live) c = if x.classIdx = c then x.header :: headersIn live c
      else headersIn live c := by
  unfold headersIn
  rw [List.filter_cons]
  split_ifs <;> simp_all

theorem larges_cons (x : Allocation) :
    larges (x :: live) = if kNumSizeClasses ≤ x.classIdx then x :: larges live
      else larges live := by
  unfold larges
  rw [List.filter_cons]
  split_ifs <;> simp_all

theorem headersIn_perm (h : live.Perm live') : (headersIn live c).Perm (headersIn live' c) :=
  (h.filter _).map _

theorem larges_perm (h : live.Perm live') : (larges live).Perm (larges live') := h.filter _

end Lists

namespace Layout

variable {pool : SlabPoolImpl} {outstanding : List Extent} {live live' : List Allocation}

theorem perm (h : Layout pool outstanding live) (hperm : live.Perm live') :
    Layout pool outstanding live' where
  shape := h.shape
  addresses := h.addresses
  address_range := h.address_range
  partition := fun c hc => (h.partition c hc).trans ((headersIn_perm hperm).append_left _)
  used := fun c hc block hblock =>
    (h.used c hc block hblock).trans ((headersIn_perm hperm).countP_eq _)
  large := h.large.trans ((larges_perm hperm).map _)
  held := h.held.trans (((larges_perm hperm).map _).append_left _)
  apart := h.apart
  room := h.room
  sizes := fun x hx => h.sizes x (hperm.mem_iff.mpr hx)
  unready := fun hinit => by
    obtain ⟨hlive, hblocks⟩ := h.unready hinit
    subst hlive
    exact ⟨hperm.nil_eq.symm, hblocks⟩

theorem apart' (h : Layout pool outstanding live) :
    (pool.allBlocks.map Block.extent ++
      (larges live).map (extent pool.config.enableGuardBytes)).Pairwise Extent.Disjoint :=
  (h.held.pairwise_iff fun h => h.symm).mp h.apart

theorem blocks_disjoint (h : Layout pool outstanding live) {block block' : Block}
    (hb : block ∈ pool.allBlocks) (hb' : block' ∈ pool.allBlocks) (hne : block ≠ block') :
    block.extent.Disjoint block'.extent :=
  Extent.disjoint_of_pairwise (List.pairwise_append.mp h.apart').1 hb hb' hne

theorem block_disjoint_large (h : Layout pool outstanding live) {block : Block}
    (hb : block ∈ pool.allBlocks) {x : Allocation} (hx : x ∈ larges live) :
    block.extent.Disjoint (x.extent pool.config.enableGuardBytes) :=
  (List.pairwise_append.mp h.apart').2.2 _ (List.mem_map_of_mem hb) _ (List.mem_map_of_mem hx)

theorem larges_disjoint (h : Layout pool outstanding live) {x y : Allocation}
    (hx : x ∈ larges live) (hy : y ∈ larges live) (hne : x ≠ y) :
    (x.extent pool.config.enableGuardBytes).Disjoint (y.extent pool.config.enableGuardBytes) :=
  Extent.disjoint_of_pairwise (List.pairwise_append.mp h.apart').2.1 hx hy hne

theorem within_of_shape {c : Nat} {block : Block}
    (htotal : block.totalBytes = pool.config.blockSize.toNat)
    (hsize : block.slabSize = pool.slabSize c)
    (hcount : block.slabCount = pool.config.blockSize.toNat / pool.slabSize c) {slab : Nat}
    (hs : slab ∈ block.slabs) : Extent.Within ⟨slab, pool.slabSize c⟩ block.extent := by
  have hcell := Extent.cell_within hs
  rw [hsize] at hcell
  apply hcell.trans
  refine ⟨Nat.le_refl _, Nat.add_le_add_left ?_ _⟩
  change block.slabCount * pool.slabSize c ≤ block.totalBytes
  rw [htotal, hcount]
  exact Nat.div_mul_le_self _ _

theorem slab_within (h : Layout pool outstanding live) {c : Nat} (hc : c < kNumSizeClasses)
    {block : Block} (hb : block ∈ pool.blocks c) {slab : Nat} (hs : slab ∈ block.slabs) :
    Extent.Within ⟨slab, pool.slabSize c⟩ block.extent := by
  obtain ⟨htotal, hsize, hcount, -⟩ := h.shape c hc block hb
  exact within_of_shape htotal hsize hcount hs

theorem slabs_disjoint (h : Layout pool outstanding live) {c c' : Nat} (hc : c < kNumSizeClasses)
    (hc' : c' < kNumSizeClasses) {block block' : Block} (hb : block ∈ pool.blocks c)
    (hb' : block' ∈ pool.blocks c') {slab slab' : Nat} (hs : slab ∈ block.slabs)
    (hs' : slab' ∈ block'.slabs) (hne : slab ≠ slab') :
    Extent.Disjoint ⟨slab, pool.slabSize c⟩ ⟨slab', pool.slabSize c'⟩ := by
  by_cases heq : block = block'
  · subst heq
    have hsize := (h.shape c hc block hb).2.1
    have hsize' := (h.shape c' hc' block hb').2.1
    rw [← hsize, ← hsize']
    exact Extent.cells_disjoint hs hs' hne
  · exact (h.blocks_disjoint (mem_allBlocks.mpr ⟨c, hc, hb⟩) (mem_allBlocks.mpr ⟨c', hc', hb'⟩)
      heq).mono (h.slab_within hc hb hs) (h.slab_within hc' hb' hs')

theorem block_of_slab (h : Layout pool outstanding live) {c c' : Nat} (hc : c < kNumSizeClasses)
    (hc' : c' < kNumSizeClasses) {block block' : Block} (hb : block ∈ pool.blocks c)
    (hb' : block' ∈ pool.blocks c') {slab : Nat} (hs : slab ∈ block.slabs)
    (hs' : slab ∈ block'.slabs) : block = block' := by
  by_contra hne
  have hdisj := (h.blocks_disjoint (mem_allBlocks.mpr ⟨c, hc, hb⟩)
    (mem_allBlocks.mpr ⟨c', hc', hb'⟩) hne).mono (h.slab_within hc hb hs)
    (h.slab_within hc' hb' hs')
  have hpos := slabSize_pos pool c
  have hpos' := slabSize_pos pool c'
  unfold Extent.Disjoint at hdisj
  simp only at hdisj
  omega

theorem slabs_nodup (h : Layout pool outstanding live) {c : Nat} (hc : c < kNumSizeClasses) :
    (pool.slabs c).Nodup := by
  have hblocks : (pool.blocks c).Nodup :=
    (List.nodup_flatMap.mp (h.addresses.of_map _)).1 c (List.mem_range.mpr hc)
  apply List.nodup_flatMap.mpr
  refine ⟨fun block hb => ?_, hblocks.pairwise_of_forall_ne fun block hb block' hb' hne => ?_⟩
  · unfold Block.slabs
    rw [(h.shape c hc block hb).2.1]
    exact Extent.cells_nodup (slabSize_pos pool c)
  · exact fun slab hs hs' => hne (h.block_of_slab hc hc hb hb' hs hs')

theorem mem_slabs_of_live (h : Layout pool outstanding live) {x : Allocation} (hx : x ∈ live)
    (hc : x.classIdx < kNumSizeClasses) : x.header ∈ pool.slabs x.classIdx := by
  apply (h.partition _ hc).mem_iff.mpr
  exact List.mem_append_right _ (mem_headersIn.mpr ⟨x, hx, rfl, rfl⟩)

theorem mem_slabs_of_free (h : Layout pool outstanding live) {c slot : Nat}
    (hc : c < kNumSizeClasses) (hslot : slot ∈ pool.freeLists c) : slot ∈ pool.slabs c :=
  (h.partition _ hc).mem_iff.mpr (List.mem_append_left _ hslot)

theorem free_notMem_live (h : Layout pool outstanding live) {c slot : Nat}
    (hc : c < kNumSizeClasses) (hslot : slot ∈ pool.freeLists c) : slot ∉ headersIn live c := by
  have hnodup := (h.partition c hc).nodup_iff.mp (h.slabs_nodup hc)
  exact fun hlive => (List.nodup_append.mp hnodup).2.2 slot hslot slot hlive rfl

theorem block_class (h : Layout pool outstanding live) {c c' : Nat} (hc : c < kNumSizeClasses)
    (hc' : c' < kNumSizeClasses) {block : Block} (hb : block ∈ pool.blocks c)
    (hb' : block ∈ pool.blocks c') : c = c' := by
  by_contra hne
  have hpair := (List.nodup_flatMap.mp (h.addresses.of_map _)).2
  have hsymm : Std.Symm (Function.onFun List.Disjoint pool.blocks) := ⟨fun _ _ h => h.symm⟩
  exact hpair.forall (List.mem_range.mpr hc) (List.mem_range.mpr hc') hne hb hb'

theorem extent_mem (h : Layout pool outstanding live) {block : Block}
    (hb : block ∈ pool.allBlocks) : block.extent ∈ outstanding :=
  h.held.mem_iff.mpr (List.mem_append_left _ (List.mem_map_of_mem hb))

theorem large_mem (h : Layout pool outstanding live) {x : Allocation} (hx : x ∈ larges live) :
    x.extent pool.config.enableGuardBytes ∈ outstanding :=
  h.held.mem_iff.mpr (List.mem_append_right _ (List.mem_map_of_mem hx))

theorem header_within_slab (pool : SlabPoolImpl) (hdr c : Nat) :
    Extent.Within ⟨hdr, sizeofSlabHeader⟩ ⟨hdr, pool.slabSize c⟩ :=
  Extent.within_of_le _ (sizeofSlabHeader_le_slabSize pool c)

theorem header_within_extent (x : Allocation) (guards : Bool) :
    Extent.Within ⟨x.header, sizeofSlabHeader⟩ (x.extent guards) := by
  refine ⟨Nat.le_refl _, ?_⟩
  change x.header + sizeofSlabHeader ≤ x.header + (sizeofSlabHeader + x.size + _)
  omega

theorem user_within_extent (x : Allocation) (guards : Bool) :
    Extent.Within ⟨x.ptr, x.size⟩ (x.extent guards) := by
  constructor
  · exact Nat.le_add_right _ _
  · change x.header + sizeofSlabHeader + x.size ≤ x.header + (sizeofSlabHeader + x.size + _)
    omega

theorem extent_within_slab (pool : SlabPoolImpl) {x : Allocation}
    (hc : x.classIdx < kNumSizeClasses) :
    (x.extent pool.config.enableGuardBytes).Within ⟨x.header, pool.slabSize x.classIdx⟩ := by
  have hle := size_le_classBytes hc
  refine ⟨Nat.le_refl _, Nat.add_le_add_left ?_ _⟩
  change sizeofSlabHeader + x.size + _ ≤ pool.slabSize x.classIdx
  unfold SlabPoolImpl.slabSize
  change x.size ≤ classBytes x.classIdx at hle
  omega

theorem extent_disjoint_slab (h : Layout pool outstanding live) {x : Allocation} (hx : x ∈ live)
    {c : Nat} (hc : c < kNumSizeClasses) {block : Block} (hb : block ∈ pool.blocks c) {slab : Nat}
    (hs : slab ∈ block.slabs) (hne : x.classIdx = c → x.header ≠ slab) :
    (x.extent pool.config.enableGuardBytes).Disjoint ⟨slab, pool.slabSize c⟩ := by
  by_cases hclass : x.classIdx < kNumSizeClasses
  · obtain ⟨block', hb', hs'⟩ := mem_slabs.mp (h.mem_slabs_of_live hx hclass)
    have hheader : x.header ≠ slab := by
      intro heq
      have hsame := h.block_of_slab hc hclass hb hb' hs (heq ▸ hs')
      subst hsame
      exact hne (h.block_class hclass hc hb' hb) heq
    exact (h.slabs_disjoint hclass hc hb' hb hs' hs hheader).mono
      (extent_within_slab pool hclass) (Extent.Within.refl _)
  · have hlarge : x ∈ larges live := mem_larges.mpr ⟨hx, by omega⟩
    exact (h.block_disjoint_large (mem_allBlocks.mpr ⟨c, hc, hb⟩) hlarge).symm.mono
      (Extent.Within.refl _) (h.slab_within hc hb hs)

theorem header_disjoint_slab (h : Layout pool outstanding live) {x : Allocation} (hx : x ∈ live)
    {c : Nat} (hc : c < kNumSizeClasses) {block : Block} (hb : block ∈ pool.blocks c) {slab : Nat}
    (hs : slab ∈ block.slabs) (hne : x.classIdx = c → x.header ≠ slab) :
    Extent.Disjoint ⟨x.header, sizeofSlabHeader⟩ ⟨slab, pool.slabSize c⟩ :=
  (h.extent_disjoint_slab hx hc hb hs hne).mono (header_within_extent x _) (Extent.Within.refl _)

theorem live_in_extent (h : Layout pool outstanding live) {x : Allocation} (hx : x ∈ live) :
    ∃ extent ∈ outstanding, (x.extent pool.config.enableGuardBytes).Within extent := by
  by_cases hclass : x.classIdx < kNumSizeClasses
  · obtain ⟨block, hb, hs⟩ := mem_slabs.mp (h.mem_slabs_of_live hx hclass)
    exact ⟨_, h.extent_mem (mem_allBlocks.mpr ⟨_, hclass, hb⟩),
      (extent_within_slab pool hclass).trans (h.slab_within hclass hb hs)⟩
  · exact ⟨_, h.large_mem (mem_larges.mpr ⟨hx, by omega⟩), Extent.Within.refl _⟩

theorem header_in_extent (h : Layout pool outstanding live) {x : Allocation} (hx : x ∈ live) :
    ∃ extent ∈ outstanding, Extent.Within ⟨x.header, sizeofSlabHeader⟩ extent := by
  obtain ⟨extent, hmem, hwithin⟩ := h.live_in_extent hx
  exact ⟨extent, hmem, (header_within_extent x _).trans hwithin⟩

theorem eq_of_header (h : Layout pool outstanding live) {x y : Allocation} (hx : x ∈ live)
    (hy : y ∈ live) (hcx : x.classIdx < kNumSizeClasses) (hcy : y.classIdx < kNumSizeClasses)
    (heq : x.header = y.header) : x = y := by
  obtain ⟨block, hb, hs⟩ := mem_slabs.mp (h.mem_slabs_of_live hx hcx)
  obtain ⟨block', hb', hs'⟩ := mem_slabs.mp (h.mem_slabs_of_live hy hcy)
  have hblock := h.block_of_slab hcx hcy hb hb' hs (heq ▸ hs')
  have hclass : x.classIdx = y.classIdx := h.block_class hcx hcy hb (hblock ▸ hb')
  have hnodup := (h.partition _ hcx).nodup_iff.mp (h.slabs_nodup hcx)
  exact List.inj_on_of_nodup_map (List.nodup_append.mp hnodup).2.1
    (by simpa using hx) (by simpa [hclass] using hy) heq

theorem live_disjoint (h : Layout pool outstanding live) {x y : Allocation} (hx : x ∈ live)
    (hy : y ∈ live) (hne : x ≠ y) :
    (x.extent pool.config.enableGuardBytes).Disjoint
      (y.extent pool.config.enableGuardBytes) := by
  have hslab : ∀ z ∈ live, z.classIdx < kNumSizeClasses → ∃ block ∈ pool.allBlocks,
      (z.extent pool.config.enableGuardBytes).Within block.extent := by
    intro z hz hcz
    obtain ⟨block, hb, hs⟩ := mem_slabs.mp (h.mem_slabs_of_live hz hcz)
    exact ⟨block, mem_allBlocks.mpr ⟨_, hcz, hb⟩,
      (extent_within_slab pool hcz).trans (h.slab_within hcz hb hs)⟩
  by_cases hcx : x.classIdx < kNumSizeClasses <;> by_cases hcy : y.classIdx < kNumSizeClasses
  · obtain ⟨block, hb, hs⟩ := mem_slabs.mp (h.mem_slabs_of_live hx hcx)
    obtain ⟨block', hb', hs'⟩ := mem_slabs.mp (h.mem_slabs_of_live hy hcy)
    exact (h.slabs_disjoint hcx hcy hb hb' hs hs'
      (fun heq => hne (h.eq_of_header hx hy hcx hcy heq))).mono
      (extent_within_slab pool hcx) (extent_within_slab pool hcy)
  · obtain ⟨block, hb, hwithin⟩ := hslab x hx hcx
    exact (h.block_disjoint_large hb (mem_larges.mpr ⟨hy, by omega⟩)).mono hwithin
      (Extent.Within.refl _)
  · obtain ⟨block, hb, hwithin⟩ := hslab y hy hcy
    exact (h.block_disjoint_large hb (mem_larges.mpr ⟨hx, by omega⟩)).symm.mono
      (Extent.Within.refl _) hwithin
  · exact h.larges_disjoint (mem_larges.mpr ⟨hx, by omega⟩) (mem_larges.mpr ⟨hy, by omega⟩) hne

theorem live_nodup (h : Layout pool outstanding live) : live.Nodup := by
  rw [List.nodup_iff_count_le_one]
  intro x
  by_cases hcx : x.classIdx < kNumSizeClasses
  · have hnodup := (h.partition _ hcx).nodup_iff.mp (h.slabs_nodup hcx)
    have hfilter := ((List.nodup_append.mp hnodup).2.1).of_map _
    have hcount := List.nodup_iff_count_le_one.mp hfilter x
    rwa [List.count_filter (by simp)] at hcount
  · have hpairs := List.pairwise_map.mp (List.pairwise_append.mp h.apart').2.1
    have hlarges : (larges live).Nodup := by
      apply hpairs.imp
      rintro y z hdisj rfl
      unfold Extent.Disjoint at hdisj
      have hpos : 0 < (y.extent pool.config.enableGuardBytes).len := by
        change 0 < sizeofSlabHeader + y.size + _
        unfold sizeofSlabHeader
        omega
      omega
    have hcount := List.nodup_iff_count_le_one.mp hlarges x
    unfold larges at hcount
    rwa [List.count_filter (by simpa using hcx)] at hcount

end Layout

end Corekit.Memory
