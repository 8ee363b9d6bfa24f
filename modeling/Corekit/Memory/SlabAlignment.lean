import Corekit.Memory.SlabRoom

/-! What alignment a returned pointer has. Every address that the pool works with
is a multiple of 8, whatever happens to the bytes; the 24 bytes of the header
spoil every larger alignment. -/
namespace Corekit.Memory
open Corekit.Foundation Allocation

def requestedAlignment (size alignment : Nat) : Nat :=
  if sizeClassIndex size < kNumSizeClasses then 8 else max alignment 8

/-- The underlying allocator serves powers of two only, and returns addresses
aligned as requested. -/
def PoolAction.AlignedAnswer : PoolAction → Prop
  | .allocAligned size alignment answer => ∀ raw, answer.raw = some raw →
    (∃ k, requestedAlignment size alignment = 2 ^ k) ∧ requestedAlignment size alignment ∣ raw
  | _ => True

theorem PoolAction.AlignedAnswer.eight_dvd {size alignment raw : Nat} {answer : Answer}
    (h : (PoolAction.allocAligned size alignment answer).AlignedAnswer)
    (hraw : answer.raw = some raw) : 8 ∣ raw := by
  obtain ⟨⟨k, hk⟩, hdvd⟩ := h raw hraw
  have hle : 8 ≤ requestedAlignment size alignment := by
    unfold requestedAlignment
    split_ifs
    · exact Nat.le_refl 8
    · exact Nat.le_max_right alignment 8
  have hthree : 3 ≤ k := by
    rw [hk] at hle
    exact (Nat.pow_le_pow_iff_right (by decide : 1 < 2)).mp hle
  rw [hk] at hdvd
  exact (Nat.pow_dvd_pow 2 hthree).trans hdvd

theorem forall_mem_update {α : Type} {P : α → Prop} {f : Nat → List α}
    (h : ∀ c, ∀ a ∈ f c, P a) (c : Nat) {l : List α} (hl : ∀ a ∈ l, P a) :
    ∀ c', ∀ a ∈ Function.update f c l c', P a := by
  intro c' a ha
  by_cases hc' : c' = c
  · subst hc'
    rw [Function.update_self] at ha
    exact hl a ha
  · rw [Function.update_of_ne hc'] at ha
    exact h c' a ha

theorem eight_dvd_slabSize (pool : SlabPoolImpl) (c : Nat) : 8 ∣ pool.slabSize c := by
  have hclass : 8 ∣ classBytes c := by
    by_cases hc : c < kSizeClasses.length
    · have hall : ∀ c < kSizeClasses.length, 8 ∣ classBytes c := by decide
      exact hall c hc
    · rw [classBytes, List.getD_eq_getElem?_getD, List.getElem?_eq_none (Nat.not_lt.mp hc)]
      exact Nat.dvd_zero 8
  have hheader : 8 ∣ sizeofSlabHeader := by decide
  have hguard : 8 ∣ if pool.config.enableGuardBytes then kGuardSize else 0 := by
    split_ifs <;> decide
  exact Nat.dvd_add (Nat.dvd_add hheader hclass) hguard

theorem eight_dvd_slab {block : Block} (hbase : 8 ∣ block.base) (hsize : 8 ∣ block.slabSize)
    {slab : Nat} (hs : slab ∈ block.slabs) : 8 ∣ slab := by
  obtain ⟨i, -, rfl⟩ := Extent.mem_cells.mp hs
  exact Nat.dvd_add hbase (hsize.mul_left i)

namespace PoolState

variable {s s' : PoolState} {size alignment hdr : Nat} {answer : Answer}

/-- All addresses that the pool works with are multiples of 8. -/
structure OnWords (s : PoolState) : Prop where
  free : ∀ c, ∀ slot ∈ s.pool.freeLists c, 8 ∣ slot
  blocks : ∀ c, ∀ block ∈ s.pool.blocks c, 8 ∣ block.base ∧ 8 ∣ block.slabSize

theorem OnWords.updateUsed {pool : SlabPoolImpl} (address : Nat) (f : Nat → Nat)
    (h : ∀ c, ∀ block ∈ pool.blocks c, 8 ∣ block.base ∧ 8 ∣ block.slabSize) (c : Nat) :
    ∀ block ∈ (pool.updateUsed address f).blocks c, 8 ∣ block.base ∧ 8 ∣ block.slabSize := by
  intro block hb
  obtain ⟨old, hold, rfl⟩ := List.mem_map.mp hb
  unfold Block.writeUsed
  split_ifs
  · exact h c old hold
  · exact h c old hold

theorem OnWords.popSlab (h : s.OnWords) (c size slot : Nat) : (s.popSlab c size slot).OnWords := by
  have hfree : ∀ c', ∀ slot' ∈ Function.update s.pool.freeLists c
      (s.pool.freeLists c).dropLast c', 8 ∣ slot' :=
    forall_mem_update h.free c fun slot' hslot' => h.free c slot' (List.mem_of_mem_dropLast hslot')
  have hpool := Sound.popSlab_pool s c size slot
  split_ifs at hpool
  · constructor
    · rw [hpool]
      exact hfree
    · rw [hpool]
      exact OnWords.updateUsed _ _ h.blocks
  · constructor
    · rw [hpool]
      exact hfree
    · rw [hpool]
      exact h.blocks

theorem populate_words {block : Block} (hbase : 8 ∣ block.base) (hsize : 8 ∣ block.slabSize)
    (indices : List Nat) (mem : Mem) (freeList : List Nat) (h : ∀ slot ∈ freeList, 8 ∣ slot) :
    ∀ slot ∈ (populate block indices (mem, freeList)).2, 8 ∣ slot := by
  induction indices generalizing mem freeList with
  | nil => exact h
  | cons i rest ih =>
    apply ih
    exact List.forall_mem_append.mpr
      ⟨h, List.forall_mem_singleton.mpr (Nat.dvd_add hbase (hsize.mul_left i))⟩

theorem OnWords.carveBlock (h : s.OnWords) (c size : Nat) {block : Block}
    (hbase : 8 ∣ block.base) (hsize : 8 ∣ block.slabSize) :
    (s.carveBlock c size block).OnWords where
  free := forall_mem_update h.free c (populate_words hbase hsize _ _ _ (h.free c))
  blocks := forall_mem_update h.blocks c (List.forall_mem_append.mpr
    ⟨h.blocks c, List.forall_mem_singleton.mpr ⟨hbase, hsize⟩⟩)

theorem OnWords.freeToSlab (h : s.OnWords) (hhdr : 8 ∣ hdr) : (s.freeToSlab hdr).OnWords := by
  have hfree : ∀ c, ∀ c', ∀ slot ∈ Function.update s.pool.freeLists c
      (s.pool.freeLists c ++ [hdr]) c', 8 ∣ slot := fun c =>
    forall_mem_update h.free c
      (List.forall_mem_append.mpr ⟨h.free c, List.forall_mem_singleton.mpr hhdr⟩)
  unfold PoolState.freeToSlab
  simp only
  split_ifs with hclass howner
  · exact h
  · exact ⟨hfree _, OnWords.updateUsed _ _ h.blocks⟩
  · exact ⟨hfree _, h.blocks⟩

theorem OnWords.free_call (h : s.OnWords) {ptr : Nat} (hptr : 8 ∣ headerFromUser ptr) :
    (s.free ptr).OnWords := by
  unfold PoolState.free
  simp only
  split_ifs
  · exact h
  · exact h
  · exact ⟨h.free, h.blocks⟩
  · exact ⟨(h.freeToSlab hptr).free, (h.freeToSlab hptr).blocks⟩

theorem rebuildFreeList_words {block : Block} (slots : List Nat) (hslots : ∀ slot ∈ slots, 8 ∣ slot)
    (mem : Mem) (freeList : List Nat) (h : ∀ slot ∈ freeList, 8 ∣ slot) :
    ∀ slot ∈ (rebuildFreeList block slots (mem, freeList)).2, 8 ∣ slot := by
  induction slots generalizing mem freeList with
  | nil => exact h
  | cons slot rest ih =>
    have hrest : ∀ slot ∈ rest, 8 ∣ slot := fun other hother =>
      hslots other (List.mem_cons_of_mem _ hother)
    unfold rebuildFreeList
    split_ifs
    · apply ih hrest
      exact List.forall_mem_append.mpr
        ⟨h, List.forall_mem_singleton.mpr (hslots slot List.mem_cons_self)⟩
    · exact ih hrest _ _ h

theorem rebuild_words (blocks : List Block)
    (hblocks : ∀ block ∈ blocks, 8 ∣ block.base ∧ 8 ∣ block.slabSize)
    (result : Mem × List Nat) (h : ∀ slot ∈ result.2, 8 ∣ slot) :
    ∀ slot ∈ (blocks.foldl (fun result block =>
      rebuildFreeList block block.slabs result) result).2, 8 ∣ slot := by
  induction blocks generalizing result with
  | nil => exact h
  | cons block rest ih =>
    obtain ⟨hbase, hsize⟩ := hblocks block List.mem_cons_self
    apply ih (fun other hother => hblocks other (List.mem_cons_of_mem _ hother))
    exact rebuildFreeList_words block.slabs (fun slot hs => eight_dvd_slab hbase hsize hs) _ _ h

theorem OnWords.shrinkClass (h : s.OnWords) {c : Nat} {addresses : List Nat}
    (hcall : s.shrinkClass c addresses = some s') : s'.OnWords := by
  unfold PoolState.shrinkClass at hcall
  simp only at hcall
  split_ifs at hcall
  cases hcall
  -- the blocks that stay only move to another address
  have hkept : ∀ block ∈ ((s.pool.blocks c).filter fun block => block.usedCount ≠ 0).zipWith
      (fun block address => { block with address := address }) addresses,
      8 ∣ block.base ∧ 8 ∣ block.slabSize := by
    intro block hb
    obtain ⟨i, hi, rfl⟩ := List.getElem_of_mem hb
    have hlt : i < ((s.pool.blocks c).filter fun block => block.usedCount ≠ 0).length := by
      rw [List.length_zipWith] at hi
      omega
    have hold := h.blocks c _ (List.mem_of_mem_filter (List.getElem_mem hlt))
    rw [List.getElem_zipWith]
    exact hold
  have hrebuilt := rebuild_words _ hkept
  exact ⟨forall_mem_update h.free c (hrebuilt _ fun _ hmem => absurd hmem List.not_mem_nil),
    forall_mem_update h.blocks c hkept⟩

theorem OnWords.shrinkFrom {addresses : Nat → List Nat} (classes : List Nat) (h : s.OnWords)
    (hcall : PoolState.shrinkFrom addresses classes s = some s') : s'.OnWords := by
  induction classes generalizing s with
  | nil =>
    cases hcall
    exact h
  | cons c rest ih =>
    unfold PoolState.shrinkFrom at hcall
    split at hcall
    · cases hcall
    · next mid hclass => exact ih (h.shrinkClass hclass) hcall

theorem OnWords.allocAligned (h : s.OnWords) {result : Option Nat}
    (hanswer : (PoolAction.allocAligned size alignment answer).AlignedAnswer)
    (hcall : s.allocAligned size alignment answer = some (result, s')) :
    s'.OnWords ∧ ∀ ptr, result = some ptr → 8 ∣ headerFromUser ptr := by
  obtain ⟨rfl, rfl, -⟩ | ⟨hdr, mid, -, hobtains, rfl, rfl, horigin⟩ := allocAligned_cases hcall
  · exact ⟨h, fun ptr hptr => nomatch hptr⟩
  have hhdr : 8 ∣ hdr := by
    rcases horigin with ⟨-, hslot⟩ | hraw
    · exact h.free _ hdr hslot
    · exact hanswer.eight_dvd hraw
  have hmid : mid.OnWords := by
    cases hobtains with
    | recycle => exact h.popSlab _ _ _
    | carve =>
      have hgranted : OnWords { s with heap := { s.heap with outstanding :=
          ⟨hdr, s.pool.config.blockSize.toNat⟩ :: s.heap.outstanding } } := ⟨h.free, h.blocks⟩
      exact hgranted.carveBlock _ _ hhdr (eight_dvd_slabSize _ _)
    | large => exact ⟨h.free, h.blocks⟩
  refine ⟨⟨hmid.free, hmid.blocks⟩, ?_⟩
  intro ptr hptr
  cases hptr
  exact hhdr

end PoolState

namespace PoolWorld

structure OnWords (w : PoolWorld) : Prop where
  state : w.state.OnWords
  live : ∀ x ∈ w.live, 8 ∣ x.header

variable {w w' : PoolWorld}

theorem OnWords.step (h : w.OnWords) {a : PoolAction} (hanswer : a.AlignedAnswer)
    (hstep : PoolWorld.step w a = some w') : w'.OnWords := by
  cases a with
  | init config =>
    cases hstep
    refine ⟨?_, h.live⟩
    unfold PoolState.init
    split_ifs
    · exact h.state
    · exact ⟨h.state.free, h.state.blocks⟩
  | allocAligned size alignment answer =>
    obtain ⟨⟨result, state⟩, hcall, hnext⟩ := Option.map_eq_some_iff.mp hstep
    obtain ⟨hstate, hheader⟩ := h.state.allocAligned hanswer hcall
    cases result with
    | none =>
      cases hnext
      exact ⟨hstate, h.live⟩
    | some ptr =>
      cases hnext
      refine ⟨hstate, ?_⟩
      intro x hx
      rcases List.mem_cons.mp hx with rfl | hold
      · exact hheader ptr rfl
      · exact h.live x hold
  | free ptr =>
    simp only [PoolWorld.step] at hstep
    split_ifs at hstep with hnull
    · cases hstep
      exact ⟨h.state.free_call (by rw [hnull]; exact Nat.dvd_zero 8), h.live⟩
    · obtain ⟨x, hfind, hnext⟩ := Option.map_eq_some_iff.mp hstep
      have hptr : x.ptr = ptr := by simpa using List.find?_some hfind
      have hheader : headerFromUser ptr = x.header := by
        rw [← hptr]
        exact Nat.add_sub_cancel _ _
      cases hnext
      refine ⟨h.state.free_call ?_, fun y hy => h.live y (List.mem_of_mem_erase hy)⟩
      rw [hheader]
      exact h.live x (List.mem_of_find?_eq_some hfind)
  | shrink addresses =>
    obtain ⟨state, hcall, hnext⟩ := Option.map_eq_some_iff.mp hstep
    cases hnext
    exact ⟨PoolState.OnWords.shrinkFrom _ h.state hcall, h.live⟩
  | store address byte =>
    simp only [PoolWorld.step] at hstep
    split_ifs at hstep
    cases hstep
    exact ⟨⟨h.state.free, h.state.blocks⟩, h.live⟩

theorem runs_onWords {parentStats : Option AtomicStats} {actions : List PoolAction}
    (hmeets : Meets PoolWorld.step (fun _ a => a.AlignedAnswer) (start parentStats) actions)
    (hrun : runs PoolWorld.step (start parentStats) actions = some w) : w.OnWords := by
  have hstart : (start parentStats).OnWords :=
    ⟨⟨fun _ _ hmem => absurd hmem List.not_mem_nil, fun _ _ hmem => absurd hmem List.not_mem_nil⟩,
      fun _ hmem => absurd hmem List.not_mem_nil⟩
  exact runs_invariant_of_meets (fun _ _ _ h hanswer hstep => h.step hanswer hstep)
    hstart hmeets hrun

end PoolWorld

def Returns (size alignment ptr : Nat) : Prop :=
  ∃ parentStats actions w answer state,
    Meets PoolWorld.step (fun _ a => a.AlignedAnswer) (PoolWorld.start parentStats) actions ∧
    runs PoolWorld.step (PoolWorld.start parentStats) actions = some w ∧
    (PoolAction.allocAligned size alignment answer).AlignedAnswer ∧
    w.state.allocAligned size alignment answer = some (some ptr, state)

namespace Returns

variable {size alignment ptr : Nat}

theorem eight_dvd (h : Returns size alignment ptr) : 8 ∣ ptr := by
  obtain ⟨parentStats, actions, w, answer, state, hmeets, hrun, hanswer, hcall⟩ := h
  have hheader := ((PoolWorld.runs_onWords hmeets hrun).state.allocAligned hanswer hcall).2 ptr rfl
  obtain ⟨hnone, -⟩ | ⟨hdr, mid, -, -, hptr, -⟩ := PoolState.allocAligned_cases hcall
  · cases hnone
  · cases hptr
    exact Nat.dvd_add (by simpa [headerFromUser, userFromHeader] using hheader) (by decide)

/-- The underlying allocator aligns the header, and not what follows it. -/
theorem large (h : Returns size alignment ptr) (hsize : 4096 < size) :
    ∃ raw, max alignment 8 ∣ raw ∧ ptr = userFromHeader raw := by
  obtain ⟨parentStats, actions, w, answer, state, hmeets, hrun, hanswer, hcall⟩ := h
  have hclass : ¬sizeClassIndex size < kNumSizeClasses := fun hc =>
    absurd (PoolState.size_le_of_slab hc) (Nat.not_le.mpr hsize)
  obtain ⟨hnone, -⟩ | ⟨hdr, mid, -, -, hptr, -, horigin⟩ := PoolState.allocAligned_cases hcall
  · cases hnone
  · cases hptr
    rcases horigin with ⟨hc, -⟩ | hraw
    · exact absurd hc hclass
    · have hdvd := (hanswer hdr hraw).2
      rw [requestedAlignment, if_neg hclass] at hdvd
      exact ⟨hdr, hdvd, rfl⟩

end Returns

namespace PoolState

variable {s : PoolState} {size raw address : Nat}

theorem allocAligned_carve (hready : ¬s.Refuses size)
    (hc : sizeClassIndex size < kNumSizeClasses)
    (hempty : s.pool.freeLists (sizeClassIndex size) = [])
    (hcount : s.pool.config.blockSize.toNat / s.pool.slabSize (sizeClassIndex size) ≠ 0)
    (hgrants : s.heap.Grants s.pool.config.blockSize.toNat raw)
    (hfresh : s.pool.FreshBlock address) (alignment : Nat) :
    ∃ state, s.allocAligned size alignment ⟨some raw, address⟩ =
      some (some (userFromHeader raw), state) := by
  have hslab : ∃ state, s.allocFromSlab (sizeClassIndex size) size ⟨some raw, address⟩ =
      some (some (userFromHeader raw), state) := by
    simp only [allocFromSlab, hempty, List.getLast?_nil, if_neg hcount, Heap.globalAllocOrNull,
      if_pos hgrants, if_pos hfresh]
    exact ⟨_, rfl⟩
  obtain ⟨state, hslab⟩ := hslab
  have hinit : ¬(size = 0 ∨ s.pool.inited = false) := fun h =>
    hready (h.elim .inl fun hinited => .inr (.inl hinited))
  refine ⟨state.recordAlloc size, ?_⟩
  unfold allocAligned
  rw [if_neg hinit, if_neg fun h => hready (.inr (.inr h))]
  simp only [if_pos hc, hslab, Option.map_some]

end PoolState

theorem Returns.of_first {size alignment ptr : Nat} {answer : Answer}
    (hanswer : (PoolAction.allocAligned size alignment answer).AlignedAnswer)
    (hcall : ((PoolState.init {} {}).2.allocAligned size alignment answer).map Prod.fst =
      some (some ptr)) : Returns size alignment ptr := by
  obtain ⟨⟨result, state⟩, hstate, rfl⟩ := Option.map_eq_some_iff.mp hcall
  exact ⟨none, [.init {}], _, answer, state, ⟨trivial, fun _ _ => trivial⟩, rfl, hanswer, hstate⟩

theorem Returns.first_slab {size : Nat} (hpos : 0 < size) (hsize : size ≤ 4096)
    (alignment : Nat) : Returns size alignment 4120 := by
  have hclass : sizeClassIndex size < kNumSizeClasses :=
    List.findIdx_lt_length_of_exists ⟨4096, by decide, by simpa using hsize⟩
  have hcount : ∀ c < kNumSizeClasses,
      65536 / (PoolState.init {} {}).2.pool.slabSize c ≠ 0 := by decide
  have hready : ¬(PoolState.init {} {}).2.Refuses size := by
    rintro (hzero | hinited | hbudget)
    · exact absurd hzero (Nat.ne_of_gt hpos)
    · cases hinited
    · exact absurd hbudget.1 (by decide)
  have hgrants : (PoolState.init {} {}).2.heap.Grants 65536 4096 := by decide
  have hfresh : (PoolState.init {} {}).2.pool.FreshBlock 100 := by decide
  obtain ⟨state, hcall⟩ := PoolState.allocAligned_carve hready hclass rfl (hcount _ hclass)
    hgrants hfresh alignment
  refine Returns.of_first ?_ (congrArg (Option.map Prod.fst) hcall)
  intro raw hraw
  cases hraw
  rw [requestedAlignment, if_pos hclass]
  exact ⟨⟨3, rfl⟩, by decide⟩

section PowerOfTwo

variable {alignment : Nat} (hpow : ∃ k, alignment = 2 ^ k)
include hpow

theorem dvd_eight_of_le (hle : alignment ≤ 8) : alignment ∣ 8 := by
  obtain ⟨k, rfl⟩ := hpow
  have hk : k ≤ 3 := (Nat.pow_le_pow_iff_right (by decide : 1 < 2)).mp hle
  exact Nat.pow_dvd_pow 2 hk

theorem sixteen_dvd_of_lt (hlt : 8 < alignment) : 16 ∣ alignment := by
  obtain ⟨k, rfl⟩ := hpow
  have hk : 3 < k := (Nat.pow_lt_pow_iff_right (by decide : 1 < 2)).mp hlt
  exact Nat.pow_dvd_pow 2 hk

theorem dvd_userFromHeader_iff {raw : Nat} (hraw : max alignment 8 ∣ raw) :
    alignment ∣ userFromHeader raw ↔ alignment ≤ 8 := by
  constructor
  · intro hdvd
    by_contra hlt
    have hsixteen := sixteen_dvd_of_lt hpow (Nat.not_le.mp hlt)
    rw [Nat.max_eq_left (Nat.le_of_not_le hlt)] at hraw
    have hheader : alignment ∣ sizeofSlabHeader := (Nat.dvd_add_right hraw).mp hdvd
    exact absurd (hsixteen.trans hheader) (by decide)
  · intro hle
    rw [Nat.max_eq_right hle] at hraw
    exact (dvd_eight_of_le hpow hle).trans (Nat.dvd_add hraw (by decide))

end PowerOfTwo

/-- `AllocAligned` honours alignments up to that of a pointer, from every state
that a pool can reach, and no larger ones: a slab may be off, a large allocation
always is. -/
theorem allocAligned_aligned_iff {size alignment : Nat} (hpos : 0 < size)
    (hpow : ∃ k, alignment = 2 ^ k) :
    (size ≤ 4096 → ((∀ ptr, Returns size alignment ptr → alignment ∣ ptr) ↔ alignment ≤ 8)) ∧
    (4096 < size → ∀ ptr, Returns size alignment ptr → (alignment ∣ ptr ↔ alignment ≤ 8)) := by
  constructor
  · intro hsize
    constructor
    · intro hall
      by_contra hlt
      have hdvd := hall 4120 (Returns.first_slab hpos hsize alignment)
      have hsixteen := sixteen_dvd_of_lt hpow (Nat.not_le.mp hlt)
      exact absurd (hsixteen.trans hdvd) (by decide)
    · intro hle ptr hptr
      exact (dvd_eight_of_le hpow hle).trans hptr.eight_dvd
  · intro hsize ptr hptr
    obtain ⟨raw, hraw, rfl⟩ := hptr.large hsize
    exact dvd_userFromHeader_iff hpow hraw

/-- Slabs and large allocations at the alignment of a pointer. -/
theorem allocAligned_aligned_word :
    (Returns 8 8 4120 ∧ ∀ ptr, Returns 8 8 ptr → 8 ∣ ptr) ∧
      Returns 5000 8 4120 ∧ ∀ ptr, Returns 5000 8 ptr → 8 ∣ ptr := by
  refine ⟨⟨.first_slab (by decide) (by decide) 8, ?_⟩, ?_, ?_⟩
  · exact ((allocAligned_aligned_iff (by decide) ⟨3, rfl⟩).1 (by decide)).mpr (by decide)
  · refine @Returns.of_first _ _ _ ⟨some 4096, 0⟩ ?_ (by decide +kernel)
    intro raw hraw
    cases hraw
    exact ⟨⟨3, by decide⟩, by decide⟩
  · exact fun ptr hptr =>
      ((allocAligned_aligned_iff (by decide) ⟨3, rfl⟩).2 (by decide) ptr hptr).mpr (by decide)

/-- A request for an alignment of 16 is served at 4120, on both paths. -/
theorem header_spoils_alignment :
    (Returns 1 16 4120 ∧ Returns 5000 16 4120) ∧ ¬16 ∣ 4120 := by
  refine ⟨⟨.first_slab (by decide) (by decide) 16, ?_⟩, by decide⟩
  refine @Returns.of_first _ _ _ ⟨some 4096, 0⟩ ?_ (by decide +kernel)
  intro raw hraw
  cases hraw
  exact ⟨⟨4, by decide⟩, by decide⟩

end Corekit.Memory
