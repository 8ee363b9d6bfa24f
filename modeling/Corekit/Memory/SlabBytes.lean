import Corekit.Memory.SlabLayout

/-! The bytes that the calls of the pool write: a header, the guard behind the
user bytes, and the owners in a new block. -/
namespace Corekit.Memory
open Corekit.Foundation

section Fields

variable {mem mem' : Mem}

theorem loadLE_storeLE_of_disjoint {width width' at' addr : Nat} (mem : Mem) (value : Nat)
    (h : Extent.Disjoint ⟨at', width'⟩ ⟨addr, width⟩) :
    (mem.storeLE width addr value).loadLE width' at' = mem.loadLE width' at' :=
  (Mem.SameOutside.storeLE value (Extent.Within.refl _) mem).loadLE_of_disjoint h

theorem SlabHeader.keep {addr len hdr : Nat} (h : Mem.SameOutside addr len mem mem')
    (hdisj : Extent.Disjoint ⟨hdr, sizeofSlabHeader⟩ ⟨addr, len⟩) :
    SlabHeader.magic mem' hdr = SlabHeader.magic mem hdr ∧
      SlabHeader.classIndex mem' hdr = SlabHeader.classIndex mem hdr ∧
      SlabHeader.userSize mem' hdr = SlabHeader.userSize mem hdr ∧
      SlabHeader.blockOwner mem' hdr = SlabHeader.blockOwner mem hdr := by
  unfold Extent.Disjoint sizeofSlabHeader at hdisj
  simp only at hdisj
  refine ⟨h.loadLE_eq ?_, h.loadLE_eq ?_, h.loadLE_eq ?_, h.loadLE_eq ?_⟩ <;> omega

theorem SlabHeader.stamp_sameOutside (mem : Mem) (hdr classIdx : Nat) (guards : Bool) (size : Nat) :
    Mem.SameOutside hdr sizeofSlabHeader mem (SlabHeader.stamp mem hdr classIdx guards size) := by
  unfold SlabHeader.stamp SlabHeader.setMagic SlabHeader.setClassIndex SlabHeader.setFlags
    SlabHeader.setUserSize
  refine Mem.SameOutside.trans (.storeLE _ ?_ _) (.trans (.storeLE _ ?_ _)
    (.trans (.storeLE _ ?_ _) (.storeLE _ ?_ _))) <;>
    simp [Extent.Within, sizeofSlabHeader]

theorem SlabHeader.stamp_fields (mem : Mem) (hdr : Nat) {classIdx : Nat} (guards : Bool)
    {size : Nat} (hclass : classIdx < 2 ^ 16) (hsize : size < 2 ^ 64) :
    SlabHeader.magic (SlabHeader.stamp mem hdr classIdx guards size) hdr = kSlabMagic ∧
      SlabHeader.classIndex (SlabHeader.stamp mem hdr classIdx guards size) hdr = classIdx ∧
      SlabHeader.userSize (SlabHeader.stamp mem hdr classIdx guards size) hdr = size ∧
      SlabHeader.blockOwner (SlabHeader.stamp mem hdr classIdx guards size) hdr =
        SlabHeader.blockOwner mem hdr := by
  unfold SlabHeader.stamp SlabHeader.setMagic SlabHeader.setClassIndex SlabHeader.setFlags
    SlabHeader.setUserSize SlabHeader.magic SlabHeader.classIndex SlabHeader.userSize
    SlabHeader.blockOwner
  refine ⟨?_, ?_, ?_, ?_⟩
  · rw [loadLE_storeLE_of_disjoint, loadLE_storeLE_of_disjoint, loadLE_storeLE_of_disjoint,
      Mem.loadLE_storeLE]
    · decide
    all_goals simp [Extent.Disjoint]
  · rw [loadLE_storeLE_of_disjoint, loadLE_storeLE_of_disjoint, Mem.loadLE_storeLE]
    · exact hclass
    all_goals simp [Extent.Disjoint]
  · rw [Mem.loadLE_storeLE]
    exact hsize
  · rw [loadLE_storeLE_of_disjoint, loadLE_storeLE_of_disjoint, loadLE_storeLE_of_disjoint,
      loadLE_storeLE_of_disjoint]
    all_goals simp [Extent.Disjoint]

theorem SlabHeader.setBlockOwner_sameOutside (mem : Mem) (hdr value : Nat) :
    Mem.SameOutside hdr sizeofSlabHeader mem (SlabHeader.setBlockOwner mem hdr value) :=
  .storeLE _ (by simp [Extent.Within, sizeofSlabHeader]) _

theorem SlabHeader.setBlockOwner_fields (mem : Mem) (hdr : Nat) {value : Nat}
    (hvalue : value < 2 ^ 64) :
    SlabHeader.magic (SlabHeader.setBlockOwner mem hdr value) hdr = SlabHeader.magic mem hdr ∧
      SlabHeader.classIndex (SlabHeader.setBlockOwner mem hdr value) hdr =
        SlabHeader.classIndex mem hdr ∧
      SlabHeader.userSize (SlabHeader.setBlockOwner mem hdr value) hdr =
        SlabHeader.userSize mem hdr ∧
      SlabHeader.blockOwner (SlabHeader.setBlockOwner mem hdr value) hdr = value := by
  refine ⟨loadLE_storeLE_of_disjoint _ _ ?_, loadLE_storeLE_of_disjoint _ _ ?_,
    loadLE_storeLE_of_disjoint _ _ ?_, Mem.loadLE_storeLE _ _ hvalue⟩ <;>
    simp [Extent.Disjoint]

theorem SlabHeader.setMagic_sameOutside (mem : Mem) (hdr value : Nat) :
    Mem.SameOutside hdr sizeofSlabHeader mem (SlabHeader.setMagic mem hdr value) :=
  .storeLE _ (by simp [Extent.Within, sizeofSlabHeader]) _

theorem SlabHeader.blockOwner_setMagic (mem : Mem) (hdr value : Nat) :
    SlabHeader.blockOwner (SlabHeader.setMagic mem hdr value) hdr =
      SlabHeader.blockOwner mem hdr :=
  loadLE_storeLE_of_disjoint _ _ (by simp [Extent.Disjoint])

end Fields

section Guards

/-- The bytes of an allocation in a cell of `data` user bytes: its header is
stamped, the rest of the cell may change. -/
structure Stamped (old new : Mem) (hdr len classIdx size : Nat) : Prop where
  outside : Mem.SameOutside hdr len old new
  magic : SlabHeader.magic new hdr = kSlabMagic
  classIndex : SlabHeader.classIndex new hdr = classIdx
  userSize : SlabHeader.userSize new hdr = size

theorem Stamped.guard {old new : Mem} {hdr len classIdx size : Nat}
    (h : Stamped old new hdr len classIdx size) (guards : Bool) {data : Nat}
    (hlen : sizeofSlabHeader + data ≤ len) (hsize : size ≤ data) :
    Stamped old (if guards then writeGuard new (userFromHeader hdr) size data else new)
        hdr len classIdx size ∧
      SlabHeader.blockOwner
        (if guards then writeGuard new (userFromHeader hdr) size data else new) hdr =
        SlabHeader.blockOwner new hdr := by
  cases guards with
  | false => exact ⟨h, rfl⟩
  | true =>
    have houtside : Mem.SameOutside (hdr + sizeofSlabHeader + size) (min (data - size) kGuardSize)
        new (writeGuard new (userFromHeader hdr) size data) :=
      .fill _ (Extent.Within.refl _) _
    obtain ⟨hmagic, hclass, husize, howner⟩ := @SlabHeader.keep _ _ _ _ hdr houtside (by
      left
      change hdr + sizeofSlabHeader ≤ hdr + sizeofSlabHeader + size
      omega)
    refine ⟨⟨h.outside.trans (houtside.mono ?_), hmagic.trans h.magic, hclass.trans h.classIndex,
      husize.trans h.userSize⟩, howner⟩
    refine ⟨?_, ?_⟩
    · change hdr ≤ hdr + sizeofSlabHeader + size
      omega
    · change hdr + sizeofSlabHeader + size + min (data - size) kGuardSize ≤ hdr + len
      omega

theorem stamped_stamp (mem : Mem) (hdr : Nat) {len classIdx : Nat} (guards : Bool) {size : Nat}
    (hlen : sizeofSlabHeader ≤ len) (hclass : classIdx < 2 ^ 16) (hsize : size < 2 ^ 64) :
    Stamped mem (SlabHeader.stamp mem hdr classIdx guards size) hdr len classIdx size ∧
      SlabHeader.blockOwner (SlabHeader.stamp mem hdr classIdx guards size) hdr =
        SlabHeader.blockOwner mem hdr := by
  obtain ⟨hmagic, hindex, husize, howner⟩ :=
    SlabHeader.stamp_fields mem hdr guards hclass hsize
  exact ⟨⟨(SlabHeader.stamp_sameOutside mem hdr classIdx guards size).mono
    (Extent.within_of_le _ hlen), hmagic, hindex, husize⟩, howner⟩

theorem Stamped.setBlockOwner {old new : Mem} {hdr len classIdx size : Nat}
    (h : Stamped old new hdr len classIdx size) (hlen : sizeofSlabHeader ≤ len) {value : Nat}
    (hvalue : value < 2 ^ 64) :
    Stamped old (SlabHeader.setBlockOwner new hdr value) hdr len classIdx size ∧
      SlabHeader.blockOwner (SlabHeader.setBlockOwner new hdr value) hdr = value := by
  obtain ⟨hmagic, hindex, husize, howner⟩ := SlabHeader.setBlockOwner_fields new hdr hvalue
  exact ⟨⟨h.outside.trans ((SlabHeader.setBlockOwner_sameOutside new hdr value).mono
    (Extent.within_of_le _ hlen)), hmagic.trans h.magic, hindex.trans h.classIndex,
    husize.trans h.userSize⟩, howner⟩

theorem popSlab_bytes (s : PoolState) {c size : Nat} (slot : Nat) (hc : c < 2 ^ 16)
    (hsize : size ≤ classBytes c) (hlt : size < 2 ^ 64) :
    Stamped s.heap.memory (s.popSlab c size slot).heap.memory slot (s.pool.slabSize c) c size ∧
      SlabHeader.blockOwner (s.popSlab c size slot).heap.memory slot =
        SlabHeader.blockOwner s.heap.memory slot := by
  obtain ⟨hstamp, howner⟩ := stamped_stamp s.heap.memory slot s.pool.config.enableGuardBytes
    (sizeofSlabHeader_le_slabSize s.pool c) hc hlt
  have hdata : sizeofSlabHeader + classBytes c ≤ s.pool.slabSize c := by
    unfold SlabPoolImpl.slabSize
    omega
  obtain ⟨hguard, hguardOwner⟩ := hstamp.guard s.pool.config.enableGuardBytes hdata hsize
  exact ⟨hguard, hguardOwner.trans howner⟩

def largeMem (s : PoolState) (size raw : Nat) : Mem :=
  let guards := s.pool.config.enableGuardBytes
  let mem := SlabHeader.stamp s.heap.memory raw kLargeClass guards size
  let mem := SlabHeader.setBlockOwner mem raw 0
  if guards then writeGuard mem (userFromHeader raw) size size else mem

theorem largeMem_bytes (s : PoolState) {size : Nat} (raw : Nat) (hlt : size < 2 ^ 64) :
    Stamped s.heap.memory (largeMem s size raw) raw (Allocation.extent
      s.pool.config.enableGuardBytes ⟨raw, size⟩).len kLargeClass size := by
  have hlen : sizeofSlabHeader + size ≤
      (Allocation.extent s.pool.config.enableGuardBytes ⟨raw, size⟩).len := by
    change sizeofSlabHeader + size ≤ sizeofSlabHeader + size + _
    omega
  have hheader := (Nat.le_add_right sizeofSlabHeader size).trans hlen
  have hstamp := (stamped_stamp s.heap.memory raw s.pool.config.enableGuardBytes hheader
    (by decide : kLargeClass < 2 ^ 16) hlt).1
  exact ((hstamp.setBlockOwner hheader (by decide : 0 < 2 ^ 64)).1.guard
    s.pool.config.enableGuardBytes hlen (Nat.le_refl _)).1

end Guards

section NewBlock

variable {block : Block}

theorem mem_slabs_of_lt {i : Nat} (h : i < block.slabCount) :
    block.base + i * block.slabSize ∈ block.slabs :=
  Extent.mem_cells.mpr ⟨i, h, rfl⟩

theorem populate_spec (hsize : sizeofSlabHeader ≤ block.slabSize) (haddress : block.address < 2 ^ 64)
    {is : List Nat} (hlt : ∀ i ∈ is, i < block.slabCount) (mem : Mem) (freeList : List Nat) :
    (PoolState.populate block is (mem, freeList)).2 =
        freeList ++ is.map (fun i => block.base + i * block.slabSize) ∧
      Mem.SameOutside block.base (block.slabCount * block.slabSize) mem
        (PoolState.populate block is (mem, freeList)).1 ∧
      ∀ i < block.slabCount, SlabHeader.blockOwner
        (PoolState.populate block is (mem, freeList)).1 (block.base + i * block.slabSize) =
          if i ∈ is then block.address
          else SlabHeader.blockOwner mem (block.base + i * block.slabSize) := by
  induction is generalizing mem freeList with
  | nil => exact ⟨by simp [PoolState.populate], .refl mem, by simp [PoolState.populate]⟩
  | cons i rest ih =>
    have hi : i < block.slabCount := hlt i (by simp)
    obtain ⟨hlist, houtside, howner⟩ := ih (fun j hj => hlt j (by simp [hj]))
      (SlabHeader.setBlockOwner mem (block.base + i * block.slabSize) block.address)
      (freeList ++ [block.base + i * block.slabSize])
    have hcell := Extent.cell_within (mem_slabs_of_lt hi)
    have hset := SlabHeader.setBlockOwner_sameOutside mem (block.base + i * block.slabSize)
      block.address
    have hheader : Extent.Within ⟨block.base + i * block.slabSize, sizeofSlabHeader⟩
        ⟨block.base + i * block.slabSize, block.slabSize⟩ := Extent.within_of_le _ hsize
    refine ⟨?_, ?_, fun j hj => ?_⟩
    · rw [PoolState.populate, hlist]
      simp
    · exact (hset.mono (hheader.trans hcell)).trans houtside
    · rw [PoolState.populate, howner j hj]
      by_cases hij : j = i
      · subst hij
        have := (SlabHeader.setBlockOwner_fields mem (block.base + j * block.slabSize)
          haddress).2.2.2
        simp [this]
      · have hne : block.base + j * block.slabSize ≠ block.base + i * block.slabSize := by
          intro heq
          have hpos : 0 < block.slabSize := Nat.lt_of_lt_of_le (by decide) hsize
          exact hij (Nat.eq_of_mul_eq_mul_right hpos (Nat.add_left_cancel heq))
        have hkeep := (SlabHeader.keep hset ((Extent.cells_disjoint (mem_slabs_of_lt hj)
          (mem_slabs_of_lt hi) hne).mono (Extent.within_of_le _ hsize) hheader)).2.2.2
        simp only [List.mem_cons, hij, false_or, hkeep]

theorem carveBlock_bytes (s : PoolState) {c size : Nat} (hslabSize : block.slabSize = s.pool.slabSize c)
    (hfit : block.slabCount * block.slabSize ≤ block.totalBytes) (hcount : 0 < block.slabCount)
    (haddress : block.address < 2 ^ 64) (hc : c < 2 ^ 16) (hsize : size ≤ classBytes c)
    (hlt : size < 2 ^ 64) :
    Stamped s.heap.memory (s.carveBlock c size block).heap.memory block.base block.totalBytes c size ∧
      ∀ slab ∈ block.slabs,
        SlabHeader.blockOwner (s.carveBlock c size block).heap.memory slab = block.address := by
  have hheader : sizeofSlabHeader ≤ block.slabSize :=
    hslabSize ▸ sizeofSlabHeader_le_slabSize s.pool c
  have hdata : sizeofSlabHeader + classBytes c ≤ block.slabSize := by
    rw [hslabSize, SlabPoolImpl.slabSize]
    omega
  obtain ⟨-, hpopulate, howners⟩ := @populate_spec block hheader haddress
    (List.range' 1 (block.slabCount - 1)) (fun i hi => by
      have := (List.mem_range'_1.mp hi).2
      omega) (s.heap.memory.fill block.base block.totalBytes 0) (s.pool.freeLists c)
  have hstamp := (@stamped_stamp (PoolState.populate block (List.range' 1 (block.slabCount - 1))
    (s.heap.memory.fill block.base block.totalBytes 0, s.pool.freeLists c)).1 block.base
    block.slabSize c s.pool.config.enableGuardBytes size hheader hc hlt).1
  obtain ⟨hset, hsetOwner⟩ := hstamp.setBlockOwner hheader haddress
  obtain ⟨hguard, hguardOwner⟩ := hset.guard s.pool.config.enableGuardBytes hdata hsize
  have hfirst : Extent.Within ⟨block.base, block.slabSize⟩ ⟨block.base, block.totalBytes⟩ :=
    Extent.within_of_le _ ((Nat.le_mul_of_pos_left _ hcount).trans hfit)
  have hfill := Mem.SameOutside.fill 0
    (Extent.Within.refl ⟨block.base, block.totalBytes⟩) s.heap.memory
  refine ⟨⟨?_, hguard.magic, hguard.classIndex, hguard.userSize⟩, ?_⟩
  · exact hfill.trans ((hpopulate.mono (Extent.within_of_le _ hfit)).trans
      (hguard.outside.mono hfirst))
  · intro slab hs
    obtain ⟨i, hi, rfl⟩ := Extent.mem_cells.mp hs
    by_cases hzero : i = 0
    · subst hzero
      rw [Nat.zero_mul, Nat.add_zero]
      exact hguardOwner.trans hsetOwner
    · -- the slabs behind the first keep the owner that the loop gave them
      have hfirstMem : block.base ∈ block.slabs := by
        simpa using mem_slabs_of_lt hcount
      have hpos : 0 < i * block.slabSize :=
        Nat.mul_pos (Nat.pos_of_ne_zero hzero) (Nat.lt_of_lt_of_le (by decide) hheader)
      have hdisj := (Extent.cells_disjoint hs hfirstMem (by omega)).mono
        (Extent.within_of_le _ hheader) (Extent.Within.refl _)
      refine (SlabHeader.keep hguard.outside hdisj).2.2.2.trans ?_
      rw [howners i hi, if_pos]
      exact List.mem_range'_1.mpr (by omega)

end NewBlock

end Corekit.Memory
