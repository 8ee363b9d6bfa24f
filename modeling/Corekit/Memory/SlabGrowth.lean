import Corekit.Memory.SlabCalls

/-! The calls that take extents from the underlying allocator and give them
back: large allocations, new blocks and `Shrink`. -/
namespace Corekit.Memory
open Corekit.Foundation Allocation

theorem mem_update_snoc {α : Type} {f : Nat → List α} {c c' : Nat} {a b : α}
    (h : b ∈ Function.update f c (f c ++ [a]) c') : b ∈ f c' ∨ (c' = c ∧ b = a) := by
  by_cases hcc : c' = c
  · subst hcc
    rw [Function.update_self] at h
    rcases List.mem_append.mp h with h | h
    · exact .inl h
    · exact .inr ⟨rfl, List.mem_singleton.mp h⟩
  · rw [Function.update_of_ne hcc] at h
    exact .inl h

namespace Layout

variable {pool : SlabPoolImpl} {outstanding : List Extent} {live : List Allocation}

theorem addLarge (h : Layout pool outstanding live) (hinited : pool.inited = true)
    {x : Allocation} (hclass : kNumSizeClasses ≤ x.classIdx)
    (hsize : 0 < x.size ∧ sizeofSlabHeader + x.size + kGuardSize < 2 ^ 64)
    (hfresh : ∀ extent ∈ outstanding, extent.Disjoint (x.extent pool.config.enableGuardBytes))
    (hroom : 0 < x.header ∧ x.header + (x.extent pool.config.enableGuardBytes).len ≤ 2 ^ 64) :
    Layout { pool with largeAllocs := pool.largeAllocs ++ [x.header] }
      (x.extent pool.config.enableGuardBytes :: outstanding) (x :: live) := by
  have hheadersIn : ∀ c < kNumSizeClasses, headersIn (x :: live) c = headersIn live c := by
    intro c hc
    rw [headersIn_cons, if_neg (by omega)]
  have hlarges : larges (x :: live) = x :: larges live := by rw [larges_cons, if_pos hclass]
  refine ⟨h.shape, h.addresses, h.address_range, ?_, ?_, ?_, ?_, ?_, ?_, ?_, ?_⟩
  · intro c hc
    rw [hheadersIn c hc]
    exact h.partition c hc
  · intro c hc block hb
    rw [hheadersIn c hc]
    exact h.used c hc block hb
  · rw [hlarges]
    exact (h.large.append_right _).trans (List.perm_append_singleton _ _)
  · rw [hlarges]
    exact (h.held.cons _).trans List.perm_middle.symm
  · exact List.pairwise_cons.mpr ⟨fun extent hmem => (hfresh extent hmem).symm, h.apart⟩
  · intro extent hmem
    rcases List.mem_cons.mp hmem with rfl | hmem
    · refine ⟨hroom.1, ?_, hroom.2⟩
      change 0 < sizeofSlabHeader + x.size + _
      have := hsize.1
      omega
    · exact h.room extent hmem
  · intro y hy
    rcases List.mem_cons.mp hy with rfl | hy
    · exact hsize
    · exact h.sizes y hy
  · intro hfalse
    change pool.inited = false at hfalse
    rw [hinited] at hfalse
    cases hfalse

theorem removeLarge {x : Allocation} (h : Layout pool outstanding (x :: live))
    (hclass : kNumSizeClasses ≤ x.classIdx) :
    Layout { pool with largeAllocs := PoolState.swapRemove pool.largeAllocs x.header }
      (outstanding.eraseP fun extent => extent.base = x.header) live := by
  have hheadersIn : ∀ c < kNumSizeClasses, headersIn (x :: live) c = headersIn live c := by
    intro c hc
    rw [headersIn_cons, if_neg (by omega)]
  have hlarges : larges (x :: live) = x :: larges live := by rw [larges_cons, if_pos hclass]
  have herase := Extent.perm_eraseP_base h.apart (fun extent hmem => (h.room extent hmem).2.1)
    (h.large_mem (mem_larges.mpr ⟨List.mem_cons_self, hclass⟩))
  have hsub : ∀ extent ∈ outstanding.eraseP (fun extent => extent.base = x.header),
      extent ∈ outstanding := fun _ hmem => List.mem_of_mem_eraseP hmem
  refine ⟨h.shape, h.addresses, h.address_range, ?_, ?_, ?_, ?_, ?_, ?_, ?_, ?_⟩
  · intro c hc
    rw [← hheadersIn c hc]
    exact h.partition c hc
  · intro c hc block hb
    rw [← hheadersIn c hc]
    exact h.used c hc block hb
  · have hmem : x.header ∈ pool.largeAllocs := by
      rw [h.large.mem_iff, hlarges]
      simp
    have hperm := (swapRemove_perm hmem).symm.trans h.large
    rw [hlarges, List.map_cons] at hperm
    exact hperm.cons_inv
  · have hperm := herase.symm.trans h.held
    rw [hlarges, List.map_cons] at hperm
    exact (hperm.trans List.perm_middle).cons_inv
  · exact h.apart.sublist List.eraseP_sublist
  · exact fun extent hmem => h.room extent (hsub extent hmem)
  · exact fun y hy => h.sizes y (by simp [hy])
  · intro hfalse
    have := (h.unready hfalse).1
    cases this

theorem allBlocks_snoc (pool : SlabPoolImpl) {c : Nat} (hc : c < kNumSizeClasses) (block : Block) :
    ((List.range kNumSizeClasses).flatMap
      (Function.update pool.blocks c (pool.blocks c ++ [block]))).Perm (block :: pool.allBlocks) := by
  have hperm := flatMap_update_perm pool.blocks (pool.blocks c ++ [block]) List.nodup_range
    (List.mem_range.mpr hc)
  rw [List.append_assoc, List.perm_append_left_iff] at hperm
  exact hperm

section AddBlock

variable (h : Layout pool outstanding live) {c : Nat} {block : Block}
  (htotal : block.totalBytes = pool.config.blockSize.toNat)
  (hslabSize : block.slabSize = pool.slabSize c)
  (hcount : block.slabCount = pool.config.blockSize.toNat / pool.slabSize c)
  (hfresh : ∀ extent ∈ outstanding, extent.Disjoint block.extent)
include h htotal hslabSize hcount hfresh

theorem notMem_slabs_of_fresh {c' : Nat} (hc' : c' < kNumSizeClasses) {old : Block}
    (hold : old ∈ pool.blocks c') {slab : Nat} (hs : slab ∈ old.slabs) : slab ∉ block.slabs := by
  intro hs'
  have hdisj := (hfresh _ (h.extent_mem (mem_allBlocks.mpr ⟨c', hc', hold⟩))).mono
    (h.slab_within hc' hold hs) (within_of_shape htotal hslabSize hcount hs')
  have hpos := slabSize_pos pool c
  have hpos' := slabSize_pos pool c'
  unfold Extent.Disjoint at hdisj
  simp only at hdisj
  omega

theorem countP_slabs_of_fresh (hc : c < kNumSizeClasses) :
    (headersIn live c).countP (fun hdr => hdr ∈ block.slabs) = 0 := by
  rw [List.countP_eq_zero]
  intro hdr hmem
  have hslab := (h.partition c hc).mem_iff.mpr (List.mem_append_right _ hmem)
  obtain ⟨old, hold, hs⟩ := mem_slabs.mp hslab
  simpa using h.notMem_slabs_of_fresh htotal hslabSize hcount hfresh hc hold hs

omit htotal hslabSize hcount hfresh in
theorem partition_addBlock {free : List Nat} {x : Allocation} (hempty : pool.freeLists c = [])
    (hslabs : block.slabs = x.header :: free) (hclass : x.classIdx = c) {c' : Nat}
    (hc' : c' < kNumSizeClasses) :
    ((Function.update pool.blocks c (pool.blocks c ++ [block]) c').flatMap Block.slabs).Perm
      (Function.update pool.freeLists c free c' ++ headersIn (x :: live) c') := by
  have hpartition := h.partition c' hc'
  by_cases hcc : c' = c
  · subst hcc
    rw [Function.update_self, Function.update_self, List.flatMap_append, headersIn_cons,
      if_pos hclass, List.flatMap_singleton, hslabs]
    rw [hempty, List.nil_append] at hpartition
    exact (hpartition.append_right _).trans (List.perm_append_comm.trans (by
      rw [List.cons_append]
      exact List.perm_middle.symm))
  · rw [Function.update_of_ne hcc, Function.update_of_ne hcc, headersIn_cons,
      if_neg (fun heq => hcc (heq.symm.trans hclass))]
    exact hpartition

/-- A new block joins a class whose free list is empty: its first slab is live,
the others are free. -/
theorem addBlock (hinited : pool.inited = true) (hc : c < kNumSizeClasses)
    (hempty : pool.freeLists c = []) (hcountPos : 0 < block.slabCount)
    (hused : block.usedCount = 1) (haddress : pool.FreshBlock block.address)
    (hroom : 0 < block.base ∧ block.base + block.totalBytes ≤ 2 ^ 64)
    {x : Allocation} (hheader : x.header = block.base) (hclass : x.classIdx = c)
    (hsize : 0 < x.size ∧ sizeofSlabHeader + x.size + kGuardSize < 2 ^ 64) :
    Layout { pool with
      blocks := Function.update pool.blocks c (pool.blocks c ++ [block])
      freeLists := Function.update pool.freeLists c
        ((List.range' 1 (block.slabCount - 1)).map fun i => block.base + i * block.slabSize) }
      (block.extent :: outstanding) (x :: live) := by
  obtain ⟨haddr, haddrLt, haddrNew⟩ := haddress
  have hall := allBlocks_snoc pool hc block
  have hlarges : larges (x :: live) = larges live := by rw [larges_cons, if_neg (by omega)]
  have hslabs : block.slabs = x.header ::
      (List.range' 1 (block.slabCount - 1)).map fun i => block.base + i * block.slabSize := by
    rw [hheader, ← Extent.cells_succ, Nat.sub_add_cancel hcountPos]
    rfl
  have hfirst : x.header ∈ block.slabs := by simp [hslabs]
  refine ⟨?_, ?_, ?_, fun c' hc' => h.partition_addBlock hempty hslabs hclass hc', ?_, ?_, ?_, ?_,
    ?_, ?_, ?_⟩
  · intro c' hc' block' hb'
    rcases mem_update_snoc hb' with hold | ⟨rfl, rfl⟩
    · exact h.shape c' hc' block' hold
    · exact ⟨htotal, hslabSize, hcount, hcountPos⟩
  · apply ((hall.map Block.address).nodup_iff).mpr
    rw [List.map_cons, List.nodup_cons]
    refine ⟨fun hmem => ?_, h.addresses⟩
    obtain ⟨old, hold, heq⟩ := List.mem_map.mp hmem
    exact haddrNew old hold heq
  · intro block' hb'
    rcases List.mem_cons.mp (hall.mem_iff.mp hb') with rfl | hold
    · exact ⟨haddr, haddrLt⟩
    · exact h.address_range block' hold
  · intro c' hc' block' hb'
    rcases mem_update_snoc hb' with hold | ⟨rfl, rfl⟩
    · have hnot : x.header ∉ block'.slabs := fun hmem =>
        h.notMem_slabs_of_fresh htotal hslabSize hcount hfresh hc' hold hmem hfirst
      rw [h.used c' hc' block' hold, headersIn_cons]
      split_ifs
      · rw [PoolState.Sound.countP_cons_of_notMem hnot]
      · rfl
    · rw [headersIn_cons, if_pos hclass, PoolState.Sound.countP_cons_of_mem hfirst,
        h.countP_slabs_of_fresh htotal hslabSize hcount hfresh hc', hused]
  · rw [hlarges]
    exact h.large
  · rw [hlarges]
    exact (h.held.cons _).trans (List.Perm.append_right _ ((hall.map Block.extent).symm))
  · exact List.pairwise_cons.mpr ⟨fun extent hmem => (hfresh extent hmem).symm, h.apart⟩
  · intro extent hmem
    rcases List.mem_cons.mp hmem with rfl | hmem
    · refine ⟨hroom.1, ?_, hroom.2⟩
      change 0 < block.totalBytes
      rw [htotal]
      rw [hcount] at hcountPos
      exact Nat.pos_of_ne_zero fun hzero => by simp [hzero] at hcountPos
    · exact h.room extent hmem
  · intro y hy
    rcases List.mem_cons.mp hy with rfl | hy
    · exact hsize
    · exact h.sizes y hy
  · intro hfalse
    change pool.inited = false at hfalse
    rw [hinited] at hfalse
    cases hfalse

end AddBlock

theorem foldl_erase_perm {blocks : List Block} {rest : List Extent}
    (hperm : outstanding.Perm (blocks.map Block.extent ++ rest))
    (hapart : outstanding.Pairwise Extent.Disjoint) (hpos : ∀ extent ∈ outstanding, 0 < extent.len) :
    (blocks.foldl (fun o block => o.eraseP fun extent => extent.base = block.base)
      outstanding).Perm rest := by
  induction blocks generalizing outstanding with
  | nil => simpa using hperm
  | cons block blocks ih =>
    have hmem : block.extent ∈ outstanding := hperm.mem_iff.mpr (by simp)
    have herase := Extent.perm_eraseP_base hapart hpos hmem
    apply ih
    · exact (herase.symm.trans (by simpa using hperm)).cons_inv
    · exact hapart.sublist List.eraseP_sublist
    · exact fun extent h => hpos extent (List.mem_of_mem_eraseP h)

/-- A class without live slabs gives all its blocks back. -/
theorem dropClass (h : Layout pool outstanding live) {c : Nat} (hc : c < kNumSizeClasses)
    (hidle : headersIn live c = []) :
    Layout { pool with
      blocks := Function.update pool.blocks c []
      freeLists := Function.update pool.freeLists c [] }
      ((pool.blocks c).foldl (fun o block => o.eraseP fun extent => extent.base = block.base)
        outstanding) live := by
  have hall : ((pool.blocks c) ++ (List.range kNumSizeClasses).flatMap
      (Function.update pool.blocks c [])).Perm pool.allBlocks :=
    flatMap_update_perm pool.blocks [] List.nodup_range (List.mem_range.mpr hc)
  have hold : ∀ {c' block}, block ∈ Function.update pool.blocks c [] c' →
      block ∈ pool.blocks c' := by
    intro c' block hb
    by_cases hcc : c' = c
    · subst hcc
      rw [Function.update_self] at hb
      cases hb
    · rwa [Function.update_of_ne hcc] at hb
  have hheld := @foldl_erase_perm _ (pool.blocks c) _ (h.held.trans (by
    rw [← List.append_assoc, ← List.map_append]
    exact (hall.symm.map _).append_right _)) h.apart fun extent hmem => (h.room extent hmem).2.1
  have hsub : ∀ extent ∈ (pool.blocks c).foldl
      (fun o block => o.eraseP fun extent => extent.base = block.base) outstanding,
      extent ∈ outstanding := by
    intro extent hmem
    rw [h.held.mem_iff, List.mem_append]
    rcases List.mem_append.mp (hheld.mem_iff.mp hmem) with hextent | hlarge
    · obtain ⟨block, hb, rfl⟩ := List.mem_map.mp hextent
      exact .inl (List.mem_map_of_mem (hall.mem_iff.mp (List.mem_append_right _ hb)))
    · exact .inr hlarge
  refine ⟨fun c' hc' block hb => h.shape c' hc' block (hold hb), ?_, ?_, ?_, ?_, h.large, hheld, ?_,
    fun extent hmem => h.room extent (hsub extent hmem), h.sizes, ?_⟩
  · have hnodup := ((hall.map Block.address).nodup_iff).mpr h.addresses
    rw [List.map_append] at hnodup
    exact hnodup.of_append_right
  · exact fun block hb => h.address_range block (hall.mem_iff.mp (List.mem_append_right _ hb))
  · intro c' hc'
    change ((Function.update pool.blocks c [] c').flatMap Block.slabs).Perm
      (Function.update pool.freeLists c [] c' ++ headersIn live c')
    by_cases hcc : c' = c
    · subst hcc
      rw [Function.update_self, Function.update_self, hidle]
      exact List.Perm.refl _
    · rw [Function.update_of_ne hcc, Function.update_of_ne hcc]
      exact h.partition c' hc'
  · exact fun c' hc' block hb => h.used c' hc' block (hold hb)
  · have hpair := (List.Perm.pairwise_iff (fun h => h.symm) (h.held.trans (by
      exact (hall.symm.map Block.extent).append_right _))).mp h.apart
    rw [List.map_append, List.append_assoc] at hpair
    exact (hheld.pairwise_iff fun h => h.symm).mpr (List.pairwise_append.mp hpair).2.1
  · intro hinited
    obtain ⟨hlive, hblocks⟩ := h.unready hinited
    refine ⟨hlive, fun c' => ?_⟩
    apply List.eq_nil_iff_forall_not_mem.mpr
    intro block hb
    have := hold hb
    rw [hblocks c'] at this
    cases this

end Layout

theorem Heap.globalAllocOrNull_cases {heap heap' : Heap} {size alignment : Nat}
    {answer result : Option Nat}
    (h : heap.globalAllocOrNull size alignment answer = some (result, heap')) :
    result = answer ∧ ((result = none ∧ heap' = heap) ∨
      ∃ raw, result = some raw ∧ heap.Grants size raw ∧
        heap' = { heap with outstanding := ⟨raw, size⟩ :: heap.outstanding }) := by
  cases answer with
  | none =>
    cases h
    exact ⟨rfl, .inl ⟨rfl, rfl⟩⟩
  | some raw =>
    simp only [Heap.globalAllocOrNull] at h
    split_ifs at h with hgrants
    cases h
    exact ⟨rfl, .inr ⟨raw, rfl, hgrants, rfl⟩⟩

namespace PoolState

variable {s s' : PoolState} {size alignment : Nat} {answer : Answer} {result : Option Nat}

/-- The tests that `AllocAligned` makes before it looks for memory. -/
def Refuses (s : PoolState) (size : Nat) : Prop :=
  size = 0 ∨ s.pool.inited = false ∨ (0 < s.pool.config.maxBytes.toNat ∧
    s.pool.config.maxBytes.toNat < (s.pool.stats.bytesInUse + size) % 2 ^ 64)

instance (s : PoolState) (size : Nat) : Decidable (s.Refuses size) :=
  inferInstanceAs (Decidable (_ ∨ _ ∨ _))

/-- What `AllocLarge` asks the underlying allocator for. -/
def largeTotal (guards : Bool) (size : Nat) : Nat :=
  (sizeofSlabHeader + size + if guards then kGuardSize else 0) % 2 ^ 64

theorem largeTotal_eq (guards : Bool) (hdr : Nat)
    (h : sizeofSlabHeader + size + kGuardSize < 2 ^ 64) :
    largeTotal guards size = (Allocation.extent guards ⟨hdr, size⟩).len := by
  apply Nat.mod_eq_of_lt
  split_ifs <;> omega

/-- The three ways to a header: the free list, a new block, and the underlying
allocator. -/
inductive Obtains (s : PoolState) (size : Nat) : Nat → PoolState → Prop
  | recycle {slot : Nat} (hc : sizeClassIndex size < kNumSizeClasses)
      (hslot : (s.pool.freeLists (sizeClassIndex size)).getLast? = some slot) :
      Obtains s size slot (s.popSlab (sizeClassIndex size) size slot)
  | carve {raw address : Nat} (hc : sizeClassIndex size < kNumSizeClasses)
      (hempty : s.pool.freeLists (sizeClassIndex size) = [])
      (hcount : s.pool.config.blockSize.toNat / s.pool.slabSize (sizeClassIndex size) ≠ 0)
      (hgrants : s.heap.Grants s.pool.config.blockSize.toNat raw)
      (haddress : s.pool.FreshBlock address) :
      Obtains s size raw (carveBlock
        { s with heap := { s.heap with
          outstanding := ⟨raw, s.pool.config.blockSize.toNat⟩ :: s.heap.outstanding } }
        (sizeClassIndex size) size
        ⟨address, raw, s.pool.config.blockSize.toNat, s.pool.slabSize (sizeClassIndex size),
          s.pool.config.blockSize.toNat / s.pool.slabSize (sizeClassIndex size), 1⟩)
  | large {raw : Nat} (hc : kNumSizeClasses ≤ sizeClassIndex size)
      (hgrants : s.heap.Grants (largeTotal s.pool.config.enableGuardBytes size) raw) :
      Obtains s size raw { s with
        pool := { s.pool with largeAllocs := s.pool.largeAllocs ++ [raw] }
        heap := ⟨largeMem s size raw,
          ⟨raw, largeTotal s.pool.config.enableGuardBytes size⟩ :: s.heap.outstanding⟩ }

def BlockTooSmall (s : PoolState) (size : Nat) : Prop :=
  sizeClassIndex size < kNumSizeClasses ∧
    s.pool.config.blockSize.toNat < s.pool.slabSize (sizeClassIndex size)

/-- The request goes on to the underlying allocator, and that has no memory. -/
def RefusedBy (s : PoolState) (size : Nat) (answer : Answer) : Prop :=
  (sizeClassIndex size < kNumSizeClasses → s.pool.freeLists (sizeClassIndex size) = [] ∧
    s.pool.slabSize (sizeClassIndex size) ≤ s.pool.config.blockSize.toNat) ∧ answer.raw = none

def Origin (s : PoolState) (size : Nat) (answer : Answer) (hdr : Nat) : Prop :=
  (sizeClassIndex size < kNumSizeClasses ∧ hdr ∈ s.pool.freeLists (sizeClassIndex size)) ∨
    answer.raw = some hdr

theorem allocFromSlab_cases (hc : sizeClassIndex size < kNumSizeClasses)
    (hcall : s.allocFromSlab (sizeClassIndex size) size answer = some (result, s')) :
    (result = none ∧ s' = s ∧ (s.RefusedBy size answer ∨ s.BlockTooSmall size)) ∨
      ∃ hdr, result = some (userFromHeader hdr) ∧ s.Obtains size hdr s' ∧
        s.Origin size answer hdr := by
  unfold PoolState.allocFromSlab at hcall
  split at hcall
  · next slot hslot =>
    cases hcall
    exact .inr ⟨slot, rfl, .recycle hc hslot, .inl ⟨hc, List.mem_of_getLast? hslot⟩⟩
  · next hempty =>
    rw [List.getLast?_eq_none_iff] at hempty
    simp only at hcall
    split at hcall
    · next hcount =>
      cases hcall
      exact .inl ⟨rfl, rfl, .inr ⟨hc, (Nat.div_eq_zero_iff_lt (slabSize_pos _ _)).mp hcount⟩⟩
    next hcount =>
    split at hcall
    · cases hcall
    · next heap hglobal =>
      rcases Heap.globalAllocOrNull_cases hglobal with ⟨hraw, ⟨-, rfl⟩ | ⟨raw, hnone, -⟩⟩
      · cases hcall
        exact .inl ⟨rfl, rfl, .inl ⟨fun _ => ⟨hempty, (Nat.div_ne_zero_iff.mp hcount).2⟩, hraw.symm⟩⟩
      · cases hnone
    · next raw heap hglobal =>
      rcases Heap.globalAllocOrNull_cases hglobal with
        ⟨horigin, ⟨hnone, -⟩ | ⟨raw', hraw, hgrants, rfl⟩⟩
      · cases hnone
      cases hraw
      split_ifs at hcall with haddress
      cases hcall
      exact .inr ⟨raw, rfl, .carve hc hempty hcount hgrants haddress, .inr horigin.symm⟩

theorem allocLarge_cases (hc : kNumSizeClasses ≤ sizeClassIndex size)
    (hcall : s.allocLarge size alignment answer = some (result, s')) :
    (result = none ∧ s' = s ∧ (s.RefusedBy size answer ∨ s.BlockTooSmall size)) ∨
      ∃ hdr, result = some (userFromHeader hdr) ∧ s.Obtains size hdr s' ∧
        s.Origin size answer hdr := by
  simp only [PoolState.allocLarge] at hcall
  split at hcall
  · cases hcall
  · next heap hglobal =>
    rcases Heap.globalAllocOrNull_cases hglobal with ⟨hraw, ⟨-, rfl⟩ | ⟨raw, hnone, -⟩⟩
    · cases hcall
      exact .inl ⟨rfl, rfl, .inl ⟨fun hlt => absurd hlt (Nat.not_lt.mpr hc), hraw.symm⟩⟩
    · cases hnone
  · next raw heap hglobal =>
    rcases Heap.globalAllocOrNull_cases hglobal with
      ⟨horigin, ⟨hnone, -⟩ | ⟨raw', hraw, hgrants, rfl⟩⟩
    · cases hnone
    cases hraw
    cases hcall
    exact .inr ⟨raw, rfl, .large hc hgrants, .inr horigin.symm⟩

/-- `AllocAligned` fails for a reason and changes nothing, or obtains a header
and records it. -/
theorem allocAligned_cases (hcall : s.allocAligned size alignment answer = some (result, s')) :
    (result = none ∧ s' = s ∧
      (s.Refuses size ∨ s.RefusedBy size answer ∨ s.BlockTooSmall size)) ∨
      ∃ hdr mid, ¬s.Refuses size ∧ s.Obtains size hdr mid ∧
        result = some (userFromHeader hdr) ∧ s' = mid.recordAlloc size ∧
        s.Origin size answer hdr := by
  unfold PoolState.allocAligned at hcall
  split at hcall
  · next hunready =>
    cases hcall
    exact .inl ⟨rfl, rfl, .inl (hunready.elim .inl fun hinited => .inr (.inl hinited))⟩
  next hready =>
  split at hcall
  · next hover =>
    cases hcall
    exact .inl ⟨rfl, rfl, .inl (.inr (.inr hover))⟩
  next hbudget =>
  have hrefuses : ¬s.Refuses size := by
    rintro (hzero | hinited | hover)
    · exact hready (.inl hzero)
    · exact hready (.inr hinited)
    · exact hbudget hover
  obtain ⟨⟨ptr, mid⟩, hinner, hrecord⟩ := Option.map_eq_some_iff.mp hcall
  have hmid : (ptr = none ∧ mid = s ∧ (s.RefusedBy size answer ∨ s.BlockTooSmall size)) ∨
      ∃ hdr, ptr = some (userFromHeader hdr) ∧ s.Obtains size hdr mid ∧
        s.Origin size answer hdr := by
    by_cases hc : sizeClassIndex size < kNumSizeClasses
    · rw [if_pos hc] at hinner
      exact allocFromSlab_cases hc hinner
    · rw [if_neg hc] at hinner
      exact allocLarge_cases (Nat.not_lt.mp hc) hinner
  rcases hmid with ⟨rfl, rfl, hreason⟩ | ⟨hdr, rfl, hobtains, horigin⟩
  · cases hrecord
    exact .inl ⟨rfl, rfl, .inr hreason⟩
  · cases hrecord
    exact .inr ⟨hdr, mid, hrefuses, hobtains, rfl, rfl, horigin⟩

def recordFree (s : PoolState) (size : Nat) : PoolState :=
  { s with
    pool := { s.pool with stats := s.pool.stats.recordFree size }
    parentStats := s.parentStats.map fun stats => stats.subInUse size }

theorem free_eq {x : Allocation}
    (hheader : SlabHeader.magic s.heap.memory x.header = kSlabMagic ∧
      SlabHeader.classIndex s.heap.memory x.header =
        (if x.classIdx < kNumSizeClasses then x.classIdx else kLargeClass) ∧
      SlabHeader.userSize s.heap.memory x.header = x.size) (hinited : s.pool.inited = true) :
    s.free x.ptr = (if x.classIdx < kNumSizeClasses then s.freeToSlab x.header
      else s.freeLarge x.header).recordFree x.size := by
  obtain ⟨hmagic, hindex, hsize⟩ := hheader
  have hheader : headerFromUser x.ptr = x.header := Nat.add_sub_cancel _ _
  have hptr : ¬(x.ptr = 0 ∨ s.pool.inited = false) := by
    rw [hinited]
    simp [Allocation.ptr, userFromHeader, sizeofSlabHeader]
  unfold PoolState.free
  rw [if_neg hptr]
  simp only [hheader, hmagic, ne_eq, not_true_eq_false, if_false, hsize]
  by_cases hclass : x.classIdx < kNumSizeClasses
  · have hlarge : x.classIdx ≠ kLargeClass := by
      unfold kNumSizeClasses at hclass
      unfold kLargeClass
      omega
    rw [if_pos hclass] at hindex
    rw [hindex, if_neg hlarge, if_pos hclass]
    rfl
  · rw [if_neg hclass] at hindex
    rw [hindex, if_pos rfl, if_neg hclass]
    rfl

theorem allocAligned_of_refuses (h : s.Refuses size) :
    s.allocAligned size alignment answer = some (none, s) := by
  unfold PoolState.allocAligned
  rcases h with hzero | hinited | hover
  · rw [if_pos (.inl hzero)]
  · rw [if_pos (.inr hinited)]
  · rw [if_pos hover, ite_self]

end PoolState

namespace PoolState.Sound

variable {s s' : PoolState} {live : List Allocation} {size : Nat} {result : Option Nat}

theorem freeLarge {x : Allocation} (h : s.Sound (x :: live))
    (hc : kNumSizeClasses ≤ x.classIdx) : (s.freeLarge x.header).Sound live := by
  have hx : x ∈ x :: live := List.mem_cons_self
  have hlarge : x ∈ larges (x :: live) := mem_larges.mpr ⟨hx, hc⟩
  have hout := (SlabHeader.setMagic_sameOutside s.heap.memory x.header 0).mono
    (Layout.header_within_extent x s.pool.config.enableGuardBytes)
  have hrest : Headers s.pool s.heap.memory live :=
    ⟨h.headers.owner, fun y hy => h.headers.live y (by simp [hy])⟩
  refine ⟨h.layout.removeLarge hc, ?_⟩
  have hheaders : Headers s.pool (SlabHeader.setMagic s.heap.memory x.header 0) live := by
    apply hrest.frame hout
    · intro c hc' block hb slab hs
      exact (SlabHeader.keep hout ((h.layout.block_disjoint_large
        (mem_allBlocks.mpr ⟨c, hc', hb⟩) hlarge).mono ((Layout.header_within_slab _ _ _).trans
        (h.layout.slab_within hc' hb hs)) (Extent.Within.refl _))).2.2.2
    · intro y hy
      have hne : x ≠ y := fun heq => (List.nodup_cons.mp h.layout.live_nodup).1 (heq ▸ hy)
      exact (h.layout.live_disjoint hx (List.mem_cons_of_mem _ hy) hne).symm.mono
        (Layout.header_within_extent y _) (Extent.Within.refl _)
  exact ⟨hheaders.owner, hheaders.live⟩

theorem carveBlock (h : s.Sound live) (hinited : s.pool.inited = true) (hpos : 0 < size)
    (hsize : sizeofSlabHeader + size + kGuardSize < 2 ^ 64)
    (hc : sizeClassIndex size < kNumSizeClasses)
    (hempty : s.pool.freeLists (sizeClassIndex size) = []) {raw address : Nat}
    (hcount : s.pool.config.blockSize.toNat / s.pool.slabSize (sizeClassIndex size) ≠ 0)
    (hgrants : s.heap.Grants s.pool.config.blockSize.toNat raw)
    (haddress : s.pool.FreshBlock address) :
    (PoolState.carveBlock
      { s with heap := { s.heap with
        outstanding := ⟨raw, s.pool.config.blockSize.toNat⟩ :: s.heap.outstanding } }
      (sizeClassIndex size) size
      ⟨address, raw, s.pool.config.blockSize.toNat, s.pool.slabSize (sizeClassIndex size),
        s.pool.config.blockSize.toNat / s.pool.slabSize (sizeClassIndex size), 1⟩).Sound
      (⟨raw, size⟩ :: live) := by
  generalize hclass : sizeClassIndex size = c at hc hempty hcount ⊢
  generalize hblock : (⟨address, raw, s.pool.config.blockSize.toNat, s.pool.slabSize c,
    s.pool.config.blockSize.toNat / s.pool.slabSize c, 1⟩ : Block) = block
  have hbase : block.base = raw := by rw [← hblock]
  have htotal : block.totalBytes = s.pool.config.blockSize.toNat := by rw [← hblock]
  have hslabSize : block.slabSize = s.pool.slabSize c := by rw [← hblock]
  have hslabCount : block.slabCount = s.pool.config.blockSize.toNat / s.pool.slabSize c := by
    rw [← hblock]
  have haddr : block.address = address := by rw [← hblock]
  obtain ⟨hrawPos, hrawRoom, hfresh⟩ := hgrants
  have hextent : block.extent = ⟨raw, s.pool.config.blockSize.toNat⟩ := by
    rw [← hbase, ← htotal]
    rfl
  have hcountPos : 0 < block.slabCount := by
    rw [hslabCount]
    exact Nat.pos_of_ne_zero hcount
  have hheader := sizeofSlabHeader_le_slabSize s.pool c
  have hlayout := h.layout.addBlock htotal hslabSize hslabCount (hextent ▸ hfresh) hinited hc hempty
    hcountPos (by rw [← hblock]) (haddr ▸ haddress) ⟨hbase ▸ hrawPos, by
      rw [hbase, htotal]
      exact hrawRoom⟩ (x := ⟨raw, size⟩) hbase.symm hclass ⟨hpos, hsize⟩
  have hle : size ≤ classBytes c := hclass ▸ size_le_classBytes (hclass ▸ hc)
  obtain ⟨hstamped, howners⟩ := @carveBlock_bytes block
    { s with heap := { s.heap with
      outstanding := ⟨raw, s.pool.config.blockSize.toNat⟩ :: s.heap.outstanding } }
    c size hslabSize (by
      rw [hslabCount, hslabSize, htotal]
      exact Nat.div_mul_le_self _ _) hcountPos (haddr ▸ haddress.2.1) (hc.trans (by decide)) hle
    (by omega)
  have hheaders := (h.headers.frame_fresh h.layout hstamped.outside (by
    rw [hbase, htotal]
    exact hfresh)).cons (x := ⟨raw, size⟩) (hbase ▸ hstamped.magic)
    (by
      change SlabHeader.classIndex _ raw = if sizeClassIndex size < kNumSizeClasses
        then sizeClassIndex size else kLargeClass
      rw [hclass, if_pos hc]
      exact hbase ▸ hstamped.classIndex) (hbase ▸ hstamped.userSize)
  refine ⟨?_, ?_, hheaders.live⟩
  · have hfree : (PoolState.populate block (List.range' 1 (block.slabCount - 1))
        (s.heap.memory.fill block.base block.totalBytes 0, s.pool.freeLists c)).2 =
        (List.range' 1 (block.slabCount - 1)).map fun i => block.base + i * block.slabSize := by
      rw [(@populate_spec block (hslabSize ▸ hheader) (haddr ▸ haddress.2.1) _ (fun i hi => by
        have := (List.mem_range'_1.mp hi).2
        omega) _ _).1, hempty, List.nil_append]
    rw [← hfree, hextent] at hlayout
    exact hlayout.stats _
  · intro c' hc' block' hb' slab hs
    rcases mem_update_snoc hb' with hold | ⟨rfl, rfl⟩
    · exact hheaders.owner c' hc' block' hold slab hs
    · exact howners slab hs

theorem obtains (h : s.Sound live) (hinited : s.pool.inited = true) (hpos : 0 < size)
    (hsize : sizeofSlabHeader + size + kGuardSize < 2 ^ 64) {hdr : Nat}
    (hobtains : s.Obtains size hdr s') : s'.Sound (⟨hdr, size⟩ :: live) := by
  cases hobtains with
  | recycle hc hslot => exact h.popSlab hinited hpos hsize hc hslot
  | carve hc hempty hcount hgrants haddress =>
    exact h.carveBlock hinited hpos hsize hc hempty hcount hgrants haddress
  | large hc hgrants =>
    have htotal := largeTotal_eq s.pool.config.enableGuardBytes hdr hsize
    rw [htotal] at hgrants ⊢
    obtain ⟨hrawPos, hrawRoom, hfresh⟩ := hgrants
    have hstamped := largeMem_bytes s hdr (by omega : size < 2 ^ 64)
    have hheaders := (h.headers.frame_fresh h.layout hstamped.outside hfresh).cons
      (x := ⟨hdr, size⟩) hstamped.magic
      (hstamped.classIndex.trans (if_neg (Nat.not_lt.mpr hc)).symm) hstamped.userSize
    exact ⟨h.layout.addLarge hinited (x := ⟨hdr, size⟩) hc ⟨hpos, hsize⟩ hfresh
      ⟨hrawPos, hrawRoom⟩, hheaders.owner, hheaders.live⟩

theorem allocAligned (h : s.Sound live) (hsize : sizeofSlabHeader + size + kGuardSize < 2 ^ 64)
    {alignment : Nat} {answer : Answer}
    (hcall : s.allocAligned size alignment answer = some (result, s')) :
    (result = none ∧ s' = s) ∨
      ∃ hdr, result = some (userFromHeader hdr) ∧ s'.Sound (⟨hdr, size⟩ :: live) := by
  rcases PoolState.allocAligned_cases hcall with
    ⟨hnone, hsame, -⟩ | ⟨hdr, mid, hready, hobtains, rfl, rfl, -⟩
  · exact .inl ⟨hnone, hsame⟩
  · simp only [PoolState.Refuses, not_or, Bool.not_eq_false] at hready
    exact .inr ⟨hdr, rfl,
      (h.obtains hready.2.1 (Nat.pos_of_ne_zero hready.1) hsize hobtains).stats _ _⟩

theorem free {x : Allocation} (h : s.Sound (x :: live)) : (s.free x.ptr).Sound live := by
  have hx : x ∈ x :: live := List.mem_cons_self
  rw [PoolState.free_eq (h.headers.live x hx) (h.inited_of_live hx)]
  by_cases hclass : x.classIdx < kNumSizeClasses
  · rw [if_pos hclass]
    exact (h.freeToSlab hclass).stats _ _
  · rw [if_neg hclass]
    exact (h.freeLarge (Nat.not_lt.mp hclass)).stats _ _

theorem foldl_free (blocks : List Block) (heap : Heap) :
    blocks.foldl (fun heap block => heap.globalFreeIgnore block.base) heap =
      ⟨heap.memory, blocks.foldl
        (fun o block => o.eraseP fun extent => extent.base = block.base) heap.outstanding⟩ := by
  induction blocks generalizing heap with
  | nil => rfl
  | cons block blocks ih =>
    rw [List.foldl_cons, ih]
    rfl

theorem shrinkClass (h : s.Sound live) {c : Nat} (hc : c < kNumSizeClasses)
    (hidle : headersIn live c = []) {addresses : List Nat}
    (hcall : s.shrinkClass c addresses = some s') :
    s'.Sound live ∧ s'.pool.blocks = Function.update s.pool.blocks c [] ∧
      s'.heap.memory = s.heap.memory ∧ s'.pool.config = s.pool.config := by
  have hused : ∀ block ∈ s.pool.blocks c, block.usedCount = 0 := by
    intro block hb
    rw [h.layout.used c hc block hb, hidle]
    rfl
  have hidleAll : (s.pool.blocks c).filter (fun block => block.usedCount = 0) =
      s.pool.blocks c := by
    rw [List.filter_eq_self]
    intro block hb
    simpa using hused block hb
  have hinUse : (s.pool.blocks c).filter (fun block => block.usedCount ≠ 0) = [] := by
    rw [List.filter_eq_nil_iff]
    intro block hb
    simpa using hused block hb
  simp only [PoolState.shrinkClass, hidleAll, hinUse, List.length_nil, List.zipWith_nil_left,
    List.foldl_nil, foldl_free] at hcall
  split_ifs at hcall
  cases hcall
  refine ⟨⟨h.layout.dropClass hc hidle, ?_, h.headers.live⟩, rfl, rfl, rfl⟩
  intro c' hc' block hb slab hs
  by_cases hcc : c' = c
  · subst hcc
    change block ∈ Function.update s.pool.blocks c' [] c' at hb
    rw [Function.update_self] at hb
    cases hb
  · change block ∈ Function.update s.pool.blocks c [] c' at hb
    rw [Function.update_of_ne hcc] at hb
    exact h.headers.owner c' hc' block hb slab hs

theorem shrinkFrom {classes : List Nat} (h : s.Sound live)
    (hclasses : ∀ c ∈ classes, c < kNumSizeClasses)
    (hidle : ∀ c ∈ classes, headersIn live c = []) {addresses : Nat → List Nat}
    (hcall : PoolState.shrinkFrom addresses classes s = some s') :
    s'.Sound live ∧ (∀ c ∈ classes, s'.pool.blocks c = []) ∧
      (∀ c, s.pool.blocks c = [] → s'.pool.blocks c = []) ∧
      s'.heap.memory = s.heap.memory ∧ s'.pool.config = s.pool.config := by
  induction classes generalizing s with
  | nil =>
    cases hcall
    exact ⟨h, by simp, fun _ hempty => hempty, rfl, rfl⟩
  | cons c rest ih =>
    rw [PoolState.shrinkFrom] at hcall
    split at hcall
    · cases hcall
    · next mid hmid =>
      obtain ⟨hsound, hblocks, hmem, hconfig⟩ :=
        h.shrinkClass (hclasses c (by simp)) (hidle c (by simp)) hmid
      obtain ⟨hfinal, hrest, hkeep, hmem', hconfig'⟩ :=
        ih hsound (fun c' hc' => hclasses c' (by simp [hc']))
          (fun c' hc' => hidle c' (by simp [hc'])) hcall
      have hempty : ∀ c', c' = c ∨ s.pool.blocks c' = [] → s'.pool.blocks c' = [] := by
        intro c' hc'
        apply hkeep
        rw [hblocks]
        rcases hc' with rfl | hnil
        · exact Function.update_self _ _ _
        · by_cases hcc : c' = c
          · subst hcc
            exact Function.update_self _ _ _
          · rw [Function.update_of_ne hcc]
            exact hnil
      refine ⟨hfinal, fun c' hc' => ?_, fun c' hnil => hempty c' (.inr hnil), hmem'.trans hmem,
        hconfig'.trans hconfig⟩
      rcases List.mem_cons.mp hc' with rfl | hc'
      · exact hempty c' (.inl rfl)
      · exact hrest c' hc'

theorem shrink (h : s.Sound live) (hidle : ∀ c < kNumSizeClasses, headersIn live c = [])
    {addresses : Nat → List Nat} (hcall : s.shrink addresses = some s') :
    s'.Sound live ∧ s'.pool.blockCount = 0 ∧ s'.heap.memory = s.heap.memory ∧
      s'.pool.config = s.pool.config := by
  obtain ⟨hsound, hempty, -, hmem, hconfig⟩ := h.shrinkFrom (fun c hc => List.mem_range.mp hc)
    (fun c hc => hidle c (List.mem_range.mp hc)) hcall
  refine ⟨hsound, ?_, hmem, hconfig⟩
  unfold SlabPoolImpl.blockCount SlabPoolImpl.allBlocks
  rw [List.length_eq_zero_iff, List.flatMap_eq_nil_iff]
  exact hempty

end PoolState.Sound

end Corekit.Memory
