import Corekit.Memory.SlabBytes

/-! Each call of the pool keeps `Layout` and `Headers`. A slab that is handed
out or taken back moves between the free list and the live list of its class
(`Layout.retag`); a new block or large allocation brings a new extent. -/
namespace Corekit.Memory
open Corekit.Foundation Allocation

section Lists

theorem flatMap_update_of_notMem {α : Type} (f : Nat → List α) {c : Nat} (l : List α)
    {classes : List Nat} (hc : c ∉ classes) :
    classes.flatMap (Function.update f c l) = classes.flatMap f := by
  apply List.flatMap_congr
  intro i hi
  rw [Function.update_of_ne]
  exact fun heq => hc (heq ▸ hi)

theorem flatMap_update_perm {α : Type} (f : Nat → List α) {c : Nat} (l : List α)
    {classes : List Nat} (hnodup : classes.Nodup) (hc : c ∈ classes) :
    (f c ++ classes.flatMap (Function.update f c l)).Perm (l ++ classes.flatMap f) := by
  induction classes with
  | nil => cases hc
  | cons i rest ih =>
    obtain ⟨hi, hrest⟩ := List.nodup_cons.mp hnodup
    rw [List.flatMap_cons, List.flatMap_cons]
    by_cases hic : i = c
    · subst hic
      rw [Function.update_self, flatMap_update_of_notMem f l hi]
      simp only [← List.append_assoc]
      exact List.perm_append_comm.append_right _
    · have hmem : c ∈ rest := by
        rcases List.mem_cons.mp hc with heq | hmem
        · exact absurd heq.symm hic
        · exact hmem
      rw [Function.update_of_ne hic]
      calc f c ++ (f i ++ rest.flatMap (Function.update f c l))
          _ = (f c ++ f i) ++ rest.flatMap (Function.update f c l) := by simp
          List.Perm _ ((f i ++ f c) ++ rest.flatMap (Function.update f c l)) :=
            List.perm_append_comm.append_right _
          _ = f i ++ (f c ++ rest.flatMap (Function.update f c l)) := by simp
          List.Perm _ (f i ++ (l ++ rest.flatMap f)) := (ih hrest hmem).append_left _
          _ = (f i ++ l) ++ rest.flatMap f := by simp
          List.Perm _ ((l ++ f i) ++ rest.flatMap f) := List.perm_append_comm.append_right _
          _ = l ++ (f i ++ rest.flatMap f) := by simp

theorem swapRemove_perm {l : List Nat} {raw : Nat} (h : raw ∈ l) :
    l.Perm (raw :: PoolState.swapRemove l raw) := by
  rcases List.eq_nil_or_concat l with rfl | ⟨front, last, rfl⟩
  · cases h
  rw [List.concat_eq_append] at h ⊢
  have hsome : ((front ++ [last]).findIdx? (· = raw)).isSome := by
    rw [List.findIdx?_isSome]
    exact List.any_eq_true.mpr ⟨raw, h, by simp⟩
  obtain ⟨i, hi⟩ := Option.isSome_iff_exists.mp hsome
  obtain ⟨hlt, hraw, -⟩ := List.findIdx?_eq_some_iff_getElem.mp hi
  simp only [decide_eq_true_eq] at hraw
  simp only [PoolState.swapRemove, hi, List.getLast?_append, List.getLast?_singleton,
    Option.some_or]
  rw [List.length_append, List.length_singleton] at hlt
  by_cases hfront : i < front.length
  · rw [List.set_append_left _ _ hfront, List.dropLast_concat]
    rw [List.getElem_append_left hfront] at hraw
    have herase : front.Perm (raw :: front.eraseIdx i) :=
      hraw ▸ (List.getElem_cons_eraseIdx_perm hfront).symm
    have hset := List.set_perm_cons_eraseIdx hfront last
    calc front ++ [last]
        List.Perm _ (raw :: front.eraseIdx i ++ [last]) := herase.append_right _
        List.Perm _ (raw :: (last :: front.eraseIdx i)) :=
          (List.perm_append_singleton last _).cons raw
        List.Perm _ (raw :: front.set i last) := hset.symm.cons raw
  · have heq : i = front.length := by omega
    subst heq
    rw [List.set_append_right _ _ (Nat.le_refl _), Nat.sub_self, List.set_cons_zero,
      List.dropLast_concat]
    have hlast : last = raw := by simpa using hraw
    rw [hlast]
    exact List.perm_append_singleton raw front

end Lists

section WriteUsed

variable {address : Nat} {f : Nat → Nat} (block : Block)

@[simp] theorem writeUsed_address : (block.writeUsed address f).address = block.address := by
  unfold Block.writeUsed
  split_ifs <;> rfl

@[simp] theorem writeUsed_extent : (block.writeUsed address f).extent = block.extent := by
  unfold Block.writeUsed
  split_ifs <;> rfl

@[simp] theorem writeUsed_slabs : (block.writeUsed address f).slabs = block.slabs := by
  unfold Block.writeUsed
  split_ifs <;> rfl

theorem writeUsed_shape : (block.writeUsed address f).totalBytes = block.totalBytes ∧
    (block.writeUsed address f).slabSize = block.slabSize ∧
    (block.writeUsed address f).slabCount = block.slabCount := by
  unfold Block.writeUsed
  split_ifs <;> exact ⟨rfl, rfl, rfl⟩

theorem allBlocks_updateUsed (pool : SlabPoolImpl) :
    (pool.updateUsed address f).allBlocks = pool.allBlocks.map (Block.writeUsed address f) := by
  simp [SlabPoolImpl.allBlocks, SlabPoolImpl.updateUsed, List.map_flatMap]

end WriteUsed

namespace Layout

variable {pool : SlabPoolImpl} {outstanding : List Extent} {live live' : List Allocation}

theorem block_inj (h : Layout pool outstanding live) {block block' : Block}
    (hb : block ∈ pool.allBlocks) (hb' : block' ∈ pool.allBlocks)
    (heq : block.address = block'.address) : block = block' :=
  List.inj_on_of_nodup_map h.addresses hb hb' heq

theorem used_retag (h : Layout pool outstanding live) {c : Nat} (hc : c < kNumSizeClasses)
    {block : Block} (hb : block ∈ pool.blocks c) {slot : Nat} (hslot : slot ∈ block.slabs)
    {live' : List Allocation} {f : Nat → Nat}
    (hother : ∀ c' ≠ c, headersIn live' c' = headersIn live c')
    (hcount : f block.usedCount = (headersIn live' c).countP fun hdr => hdr ∈ block.slabs)
    (hsame : ∀ slabs : List Nat, slot ∉ slabs →
      ((headersIn live' c).countP fun hdr => hdr ∈ slabs) =
        (headersIn live c).countP fun hdr => hdr ∈ slabs)
    {c' : Nat} (hc' : c' < kNumSizeClasses) {old : Block} (hold : old ∈ pool.blocks c') :
    (old.writeUsed block.address f).usedCount =
      (headersIn live' c').countP fun hdr => hdr ∈ old.slabs := by
  have holdused := h.used c' hc' old hold
  by_cases heq : old = block
  · subst heq
    have hcc : c' = c := h.block_class hc' hc hold hb
    subst hcc
    simp [Block.writeUsed, hcount]
  · have haddress : old.address ≠ block.address := fun haddr =>
      heq (h.block_inj (mem_allBlocks.mpr ⟨c', hc', hold⟩) (mem_allBlocks.mpr ⟨c, hc, hb⟩) haddr)
    simp only [Block.writeUsed, if_neg haddress]
    by_cases hcc : c' = c
    · subst hcc
      rw [hsame]
      · exact holdused
      · exact fun hmem => heq (h.block_of_slab hc' hc' hold hb hmem hslot)
    · rw [hother c' hcc]
      exact holdused

/-- A slab of `block` moves between the free list of its class and the live
list, and `used_count` follows. -/
theorem retag (h : Layout pool outstanding live) (hinited : pool.inited = true) {c : Nat}
    (hc : c < kNumSizeClasses) {block : Block} (hb : block ∈ pool.blocks c) {slot : Nat}
    (hslot : slot ∈ block.slabs) (live' : List Allocation) (f : Nat → Nat) (freeList : List Nat)
    (hlarge : larges live' = larges live)
    (hother : ∀ c' ≠ c, headersIn live' c' = headersIn live c')
    (hperm : (pool.freeLists c ++ headersIn live c).Perm (freeList ++ headersIn live' c))
    (hcount : f block.usedCount = (headersIn live' c).countP fun hdr => hdr ∈ block.slabs)
    (hsame : ∀ slabs : List Nat, slot ∉ slabs →
      ((headersIn live' c).countP fun hdr => hdr ∈ slabs) =
        (headersIn live c).countP fun hdr => hdr ∈ slabs)
    (hsizes : ∀ x ∈ live', 0 < x.size ∧ sizeofSlabHeader + x.size + kGuardSize < 2 ^ 64) :
    Layout { pool.updateUsed block.address f with
      freeLists := Function.update pool.freeLists c freeList } outstanding live' := by
  have hall := @allBlocks_updateUsed block.address f pool
  have hslabs : ∀ c', (pool.updateUsed block.address f).slabs c' = pool.slabs c' := by
    intro c'
    simp [SlabPoolImpl.slabs, SlabPoolImpl.updateUsed, List.flatMap_map]
  refine ⟨?_, ?_, ?_, ?_, ?_, ?_, ?_, h.apart, h.room, hsizes, ?_⟩
  · intro c' hc' block' hb'
    obtain ⟨old, hold, rfl⟩ := List.mem_map.mp hb'
    obtain ⟨htotal, hsize, hslabCount⟩ := @writeUsed_shape block.address f old
    rw [htotal, hsize, hslabCount]
    exact h.shape c' hc' old hold
  · change ((pool.updateUsed block.address f).allBlocks.map Block.address).Nodup
    rw [hall, List.map_map]
    have : Block.address ∘ Block.writeUsed block.address f = Block.address := by
      funext b
      simp
    rw [this]
    exact h.addresses
  · intro block' hb'
    change block' ∈ (pool.updateUsed block.address f).allBlocks at hb'
    rw [hall] at hb'
    obtain ⟨old, hold, rfl⟩ := List.mem_map.mp hb'
    rw [writeUsed_address]
    exact h.address_range old hold
  · intro c' hc'
    change ((pool.updateUsed block.address f).slabs c').Perm
      (Function.update pool.freeLists c freeList c' ++ headersIn live' c')
    rw [hslabs]
    by_cases hcc : c' = c
    · subst hcc
      rw [Function.update_self]
      exact (h.partition c' hc').trans hperm
    · rw [Function.update_of_ne hcc, hother c' hcc]
      exact h.partition c' hc'
  · intro c' hc' block' hb'
    obtain ⟨old, hold, rfl⟩ := List.mem_map.mp hb'
    rw [writeUsed_slabs]
    exact h.used_retag hc hb hslot hother hcount hsame hc' hold
  · rw [hlarge]
    exact h.large
  · change outstanding.Perm ((pool.updateUsed block.address f).allBlocks.map Block.extent ++ _)
    rw [hall, List.map_map, hlarge]
    have : Block.extent ∘ Block.writeUsed block.address f = Block.extent := by
      funext b
      simp
    rw [this]
    exact h.held
  · intro hfalse
    change pool.inited = false at hfalse
    rw [hinited] at hfalse
    cases hfalse

theorem stats (h : Layout pool outstanding live) (stats : AtomicStats) :
    Layout { pool with stats := stats } outstanding live :=
  ⟨h.shape, h.addresses, h.address_range, h.partition, h.used, h.large, h.held, h.apart, h.room,
    h.sizes, h.unready⟩

end Layout

namespace Headers

variable {pool : SlabPoolImpl} {outstanding : List Extent} {live live' : List Allocation}
  {mem mem' : Mem} {addr len : Nat}

theorem perm (h : Headers pool mem live) (hperm : live.Perm live') : Headers pool mem live' :=
  ⟨h.owner, fun x hx => h.live x (hperm.mem_iff.mpr hx)⟩

theorem frame (h : Headers pool mem live) (hout : Mem.SameOutside addr len mem mem')
    (howner : ∀ c < kNumSizeClasses, ∀ block ∈ pool.blocks c, ∀ slab ∈ block.slabs,
      SlabHeader.blockOwner mem' slab = SlabHeader.blockOwner mem slab)
    (hlive : ∀ x ∈ live, Extent.Disjoint ⟨x.header, sizeofSlabHeader⟩ ⟨addr, len⟩) :
    Headers pool mem' live := by
  refine ⟨fun c hc block hb slab hs => ?_, fun x hx => ?_⟩
  · rw [howner c hc block hb slab hs]
    exact h.owner c hc block hb slab hs
  · obtain ⟨hmagic, hclass, husize, -⟩ := SlabHeader.keep hout (hlive x hx)
    rw [hmagic, hclass, husize]
    exact h.live x hx

theorem frame_slab (h : Headers pool mem live') (hlayout : Layout pool outstanding live)
    (hsub : ∀ x ∈ live', x ∈ live) {c : Nat} (hc : c < kNumSizeClasses) {block : Block}
    (hb : block ∈ pool.blocks c) {slot : Nat} (hs : slot ∈ block.slabs)
    (hfree : slot ∉ headersIn live' c)
    (hout : Mem.SameOutside slot (pool.slabSize c) mem mem')
    (howner : SlabHeader.blockOwner mem' slot = SlabHeader.blockOwner mem slot) :
    Headers pool mem' live' := by
  apply h.frame hout
  · intro c' hc' block' hb' slab hs'
    by_cases heq : slab = slot
    · rw [heq]
      exact howner
    · exact (SlabHeader.keep hout ((hlayout.slabs_disjoint hc' hc hb' hb hs' hs heq).mono
        (Layout.header_within_slab pool _ _) (Extent.Within.refl _))).2.2.2
  · intro x hx
    apply hlayout.header_disjoint_slab (hsub x hx) hc hb hs
    exact fun hclass heq => hfree (mem_headersIn.mpr ⟨x, hx, hclass, heq⟩)

theorem frame_fresh (h : Headers pool mem live) (hlayout : Layout pool outstanding live)
    (hout : Mem.SameOutside addr len mem mem')
    (hfresh : ∀ extent ∈ outstanding, extent.Disjoint ⟨addr, len⟩) : Headers pool mem' live := by
  apply h.frame hout
  · intro c hc block hb slab hs
    have hdisj := hfresh _ (hlayout.extent_mem (mem_allBlocks.mpr ⟨c, hc, hb⟩))
    exact (SlabHeader.keep hout (hdisj.mono ((Layout.header_within_slab pool _ _).trans
      (hlayout.slab_within hc hb hs)) (Extent.Within.refl _))).2.2.2
  · intro x hx
    obtain ⟨extent, hmem, hwithin⟩ := hlayout.header_in_extent hx
    exact (hfresh extent hmem).mono hwithin (Extent.Within.refl _)

theorem cons (h : Headers pool mem live) {x : Allocation}
    (hmagic : SlabHeader.magic mem x.header = kSlabMagic)
    (hclass : SlabHeader.classIndex mem x.header =
      if x.classIdx < kNumSizeClasses then x.classIdx else kLargeClass)
    (hsize : SlabHeader.userSize mem x.header = x.size) : Headers pool mem (x :: live) := by
  refine ⟨h.owner, fun y hy => ?_⟩
  rcases List.mem_cons.mp hy with rfl | hy
  · exact ⟨hmagic, hclass, hsize⟩
  · exact h.live y hy

theorem updateUsed (h : Headers pool mem live) (address : Nat) (f : Nat → Nat) :
    Headers (pool.updateUsed address f) mem live := by
  refine ⟨fun c hc block hb slab hs => ?_, h.live⟩
  obtain ⟨old, hold, rfl⟩ := List.mem_map.mp hb
  rw [writeUsed_slabs] at hs
  rw [writeUsed_address]
  exact h.owner c hc old hold slab hs

end Headers

structure PoolState.Sound (s : PoolState) (live : List Allocation) : Prop where
  layout : Layout s.pool s.heap.outstanding live
  headers : Headers s.pool s.heap.memory live

namespace PoolState.Sound

variable {s : PoolState} {live : List Allocation}

theorem perm {live' : List Allocation} (h : s.Sound live) (hperm : live.Perm live') :
    s.Sound live' := ⟨h.layout.perm hperm, h.headers.perm hperm⟩

theorem stats (h : s.Sound live) (stats : AtomicStats) (parentStats : Option AtomicStats) :
    PoolState.Sound { s with
      pool := { s.pool with stats := stats }
      parentStats := parentStats } live :=
  ⟨h.layout.stats stats, h.headers.owner, h.headers.live⟩

theorem countP_cons_of_notMem {hdr : Nat} {headers slabs : List Nat} (h : hdr ∉ slabs) :
    ((hdr :: headers).countP fun hdr => hdr ∈ slabs) = headers.countP fun hdr => hdr ∈ slabs := by
  simp [h]

theorem countP_cons_of_mem {hdr : Nat} {headers slabs : List Nat} (h : hdr ∈ slabs) :
    ((hdr :: headers).countP fun hdr => hdr ∈ slabs) =
      (headers.countP fun hdr => hdr ∈ slabs) + 1 := by
  simp [h]

theorem usedCount_lt (h : s.Sound live) {c : Nat} (hc : c < kNumSizeClasses) {block : Block}
    (hb : block ∈ s.pool.blocks c) : block.usedCount < 2 ^ 64 - 1 := by
  have hnodup := (h.layout.partition c hc).nodup_iff.mp (h.layout.slabs_nodup hc)
  have hsub : ((headersIn live c).filter fun hdr => hdr ∈ block.slabs).Subperm block.slabs := by
    apply List.Nodup.subperm
    · exact (List.nodup_append.mp hnodup).2.1.filter _
    · intro hdr hmem
      simpa using (List.mem_filter.mp hmem).2
  have hle := hsub.length_le
  rw [← List.countP_eq_length_filter, ← h.layout.used c hc block hb] at hle
  obtain ⟨-, -, hcount, -⟩ := h.layout.shape c hc block hb
  have hslabs : block.slabs.length = block.slabCount := by simp [Block.slabs, Extent.cells]
  have hsize := s.pool.config.blockSize.toNat_lt
  have hbytes := sizeofSlabHeader_le_slabSize s.pool c
  have hdiv : s.pool.config.blockSize.toNat / s.pool.slabSize c ≤
      s.pool.config.blockSize.toNat / sizeofSlabHeader := Nat.div_le_div_left hbytes (by decide)
  rw [hslabs, hcount] at hle
  unfold sizeofSlabHeader at hdiv
  omega

theorem popSlab_pool (s : PoolState) (c size slot : Nat) :
    (s.popSlab c size slot).pool =
      if SlabHeader.blockOwner (s.popSlab c size slot).heap.memory slot ≠ 0 then
        SlabPoolImpl.updateUsed { s.pool with
          freeLists := Function.update s.pool.freeLists c (s.pool.freeLists c).dropLast
          stats := { s.pool.stats with slabHits := (s.pool.stats.slabHits + 1) % 2 ^ 64 } }
          (SlabHeader.blockOwner (s.popSlab c size slot).heap.memory slot)
          fun used => (used + 1) % 2 ^ 64
      else { s.pool with
        freeLists := Function.update s.pool.freeLists c (s.pool.freeLists c).dropLast
        stats := { s.pool.stats with slabHits := (s.pool.stats.slabHits + 1) % 2 ^ 64 } } := by
  simp only [PoolState.popSlab]

theorem popSlab (h : s.Sound live) (hinited : s.pool.inited = true) {size slot : Nat}
    (hpos : 0 < size) (hsize : sizeofSlabHeader + size + kGuardSize < 2 ^ 64)
    (hc : sizeClassIndex size < kNumSizeClasses)
    (hslot : (s.pool.freeLists (sizeClassIndex size)).getLast? = some slot) :
    (s.popSlab (sizeClassIndex size) size slot).Sound (⟨slot, size⟩ :: live) := by
  generalize hclass : sizeClassIndex size = c at hc hslot ⊢
  have hxclass : (⟨slot, size⟩ : Allocation).classIdx = c := hclass
  obtain ⟨front, hfront⟩ := List.getLast?_eq_some_iff.mp hslot
  have hmem : slot ∈ s.pool.slabs c := h.layout.mem_slabs_of_free hc (by simp [hfront])
  obtain ⟨block, hb, hs⟩ := mem_slabs.mp hmem
  have hfree := h.layout.free_notMem_live hc (List.mem_of_getLast? hslot)
  have hle : size ≤ classBytes c := hclass ▸ size_le_classBytes (hclass ▸ hc)
  obtain ⟨hstamped, howner⟩ := popSlab_bytes s slot (hc.trans (by decide)) hle (by omega)
  have haddress := h.headers.owner c hc block hb slot hs
  obtain ⟨haddr, -⟩ := h.layout.address_range block (mem_allBlocks.mpr ⟨c, hc, hb⟩)
  have hheaders := (h.headers.frame_slab h.layout (fun _ hx => hx) hc hb hs hfree hstamped.outside
    howner).cons (x := ⟨slot, size⟩) hstamped.magic
    (by rw [hxclass, if_pos hc]; exact hstamped.classIndex) hstamped.userSize
  have hlayout := h.layout.retag hinited hc hb hs (⟨slot, size⟩ :: live)
    (fun used => (used + 1) % 2 ^ 64) (s.pool.freeLists c).dropLast
    (by rw [larges_cons, hxclass, if_neg (by omega)])
    (fun c' hne => by rw [headersIn_cons, hxclass, if_neg hne.symm])
    (by
      rw [headersIn_cons, hxclass, if_pos rfl, hfront, List.dropLast_concat, List.append_assoc]
      rfl)
    (by
      have := h.usedCount_lt hc hb
      rw [headersIn_cons, hxclass, if_pos rfl, countP_cons_of_mem hs,
        ← h.layout.used c hc block hb]
      exact Nat.mod_eq_of_lt (by omega))
    (fun slabs hnot => by rw [headersIn_cons, hxclass, if_pos rfl, countP_cons_of_notMem hnot])
    (by
      intro x hx
      rcases List.mem_cons.mp hx with rfl | hx
      · exact ⟨hpos, hsize⟩
      · exact h.layout.sizes x hx)
  have hpool : (s.popSlab c size slot).pool = SlabPoolImpl.updateUsed { s.pool with
      freeLists := Function.update s.pool.freeLists c (s.pool.freeLists c).dropLast
      stats := { s.pool.stats with slabHits := (s.pool.stats.slabHits + 1) % 2 ^ 64 } }
      block.address fun used => (used + 1) % 2 ^ 64 := by
    rw [popSlab_pool, howner, haddress, if_pos (Nat.pos_iff_ne_zero.mp haddr)]
  refine ⟨?_, ?_⟩
  · rw [hpool]
    exact hlayout.stats _
  · rw [hpool]
    exact ⟨(hheaders.updateUsed _ _).owner, hheaders.live⟩

theorem block_of_live (h : s.Sound live) {x : Allocation} (hx : x ∈ live)
    (hc : x.classIdx < kNumSizeClasses) :
    ∃ block ∈ s.pool.blocks x.classIdx, x.header ∈ block.slabs ∧
      SlabHeader.blockOwner s.heap.memory x.header = block.address := by
  obtain ⟨block, hb, hs⟩ := mem_slabs.mp (h.layout.mem_slabs_of_live hx hc)
  exact ⟨block, hb, hs, h.headers.owner _ hc block hb _ hs⟩

theorem inited_of_live (h : s.Sound live) {x : Allocation} (hx : x ∈ live) :
    s.pool.inited = true := by
  cases hinited : s.pool.inited with
  | true => rfl
  | false =>
    rw [(h.layout.unready hinited).1] at hx
    cases hx

theorem freeToSlab {x : Allocation} (h : s.Sound (x :: live))
    (hc : x.classIdx < kNumSizeClasses) : (s.freeToSlab x.header).Sound live := by
  have hx : x ∈ x :: live := List.mem_cons_self
  obtain ⟨-, hindex, -⟩ := h.headers.live x hx
  rw [if_pos hc] at hindex
  obtain ⟨block, hb, hs, howner⟩ := h.block_of_live hx hc
  obtain ⟨haddr, -⟩ := h.layout.address_range block (mem_allBlocks.mpr ⟨_, hc, hb⟩)
  have hheadersIn : headersIn (x :: live) x.classIdx = x.header :: headersIn live x.classIdx := by
    rw [headersIn_cons, if_pos rfl]
  have hnodup := (h.layout.partition _ hc).nodup_iff.mp (h.layout.slabs_nodup hc)
  rw [hheadersIn] at hnodup
  have hfree : x.header ∉ headersIn live x.classIdx :=
    (List.nodup_cons.mp (List.nodup_append.mp hnodup).2.1).1
  have hused := h.layout.used _ hc block hb
  rw [hheadersIn, countP_cons_of_mem hs] at hused
  have hlayout := h.layout.retag (h.inited_of_live hx) hc hb hs live
    (fun used => if used > 0 then used - 1 else used) (s.pool.freeLists x.classIdx ++ [x.header])
    (by rw [larges_cons, if_neg (by omega)])
    (fun c' hne => by rw [headersIn_cons, if_neg hne.symm])
    (by
      rw [hheadersIn, List.append_assoc]
      rfl)
    (by
      rw [hused, if_pos (by omega)]
      omega)
    (fun slabs hnot => by rw [hheadersIn, countP_cons_of_notMem hnot])
    (fun y hy => h.layout.sizes y (by simp [hy]))
  have hrest : Headers s.pool s.heap.memory live :=
    ⟨h.headers.owner, fun y hy => h.headers.live y (by simp [hy])⟩
  have hout := (SlabHeader.setMagic_sameOutside s.heap.memory x.header 0).mono
    (Layout.header_within_slab s.pool x.header x.classIdx)
  have hheaders := hrest.frame_slab h.layout (fun y hy => by simp [hy]) hc hb hs hfree hout
    (SlabHeader.blockOwner_setMagic _ _ _)
  unfold PoolState.freeToSlab
  simp only [hindex, howner, ne_eq, Nat.pos_iff_ne_zero.mp haddr, not_false_eq_true, if_true,
    if_neg (Nat.not_le.mpr hc)]
  exact ⟨hlayout, (hheaders.updateUsed _ _).owner, hheaders.live⟩

end PoolState.Sound

end Corekit.Memory
