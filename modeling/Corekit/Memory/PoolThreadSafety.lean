import Corekit.Memory.PoolThreads

/-! Threads that share a pool do not share memory: whatever the order of their
steps, the pool is sound for the allocations that callers hold together with
those of the calls in progress. -/
namespace Corekit.Memory
open Corekit.Foundation Allocation

namespace PoolState

variable {s s' : PoolState} {live : List Allocation} {all : Multiset Allocation}
  {raws : Multiset Nat} {x : Allocation} {size : Nat}

theorem Sound.relist (h : s.Sound live) {larges : List Nat} (hperm : larges.Perm s.pool.largeAllocs) :
    PoolState.Sound { s with pool := { s.pool with largeAllocs := larges } } live where
  layout :=
    { h.layout with large := hperm.trans h.layout.large }
  headers := ⟨h.headers.owner, h.headers.live⟩

/-- The pool is sound for these allocations, once `raws` are on its list. -/
def Keeps (s : PoolState) (all : Multiset Allocation) (raws : Multiset Nat) : Prop :=
  ∃ (live : List Allocation) (missing : List Nat), (live : Multiset Allocation) = all ∧
    (missing : Multiset Nat) = raws ∧ (s.listing missing).Sound live

@[ext] theorem ext (hpool : s.pool = s'.pool) (hparent : s.parentStats = s'.parentStats)
    (hheap : s.heap = s'.heap) : s = s' := by
  cases s
  cases s'
  cases hpool
  cases hparent
  cases hheap
  rfl

theorem listing_pool (s : PoolState) (raws : List Nat) :
    (s.listing raws).pool = s.pool.listing raws := rfl

theorem listing_heap (s : PoolState) (raws : List Nat) : (s.listing raws).heap = s.heap := rfl

theorem shrinkFrom_frame {classes : List Nat} {addresses : Nat → List Nat}
    (hcall : shrinkFrom addresses classes s = some s') :
    s'.pool.config = s.pool.config ∧ s'.pool.inited = s.pool.inited ∧
      s'.pool.stats = s.pool.stats := by
  induction classes generalizing s with
  | nil =>
    cases hcall
    exact ⟨rfl, rfl, rfl⟩
  | cons c rest ih =>
    rw [PoolState.shrinkFrom] at hcall
    split at hcall
    · cases hcall
    · next mid hmid =>
      simp only [shrinkClass, Option.ite_none_right_eq_some] at hmid
      obtain ⟨-, rfl⟩ := hmid.imp_right Option.some.inj
      have hrest := ih hcall
      exact hrest

namespace Keeps

theorem stats (h : s.Keeps all raws) (stats : AtomicStats) (parentStats : Option AtomicStats) :
    PoolState.Keeps { s with
      pool := { s.pool with stats := stats }
      parentStats := parentStats } all raws := by
  obtain ⟨live, missing, hlive, hmissing, hsound⟩ := h
  exact ⟨live, missing, hlive, hmissing, hsound.stats stats parentStats⟩

theorem popSlab_listing (s : PoolState) (c size slot : Nat) (missing : List Nat) :
    (s.listing missing).popSlab c size slot = (s.popSlab c size slot).listing missing := by
  have hheap : ((s.listing missing).popSlab c size slot).heap = (s.popSlab c size slot).heap := rfl
  refine PoolState.ext ?_ rfl (hheap.trans (listing_heap _ _).symm)
  rw [listing_pool, Sound.popSlab_pool, Sound.popSlab_pool, hheap]
  by_cases howner : SlabHeader.blockOwner (s.popSlab c size slot).heap.memory slot = 0
  · simp only [howner, ne_eq, not_true_eq_false, if_false, listing, SlabPoolImpl.listing]
  · simp only [howner, ne_eq, not_false_eq_true, if_true, listing, SlabPoolImpl.listing,
      SlabPoolImpl.updateUsed]

theorem freeToSlab_listing (s : PoolState) (hdr : Nat) (missing : List Nat) :
    (s.listing missing).freeToSlab hdr = (s.freeToSlab hdr).listing missing := by
  have hrecycle : (s.listing missing).recycleSlab hdr = (s.recycleSlab hdr).listing missing := by
    by_cases howner : SlabHeader.blockOwner s.heap.memory hdr = 0 <;>
      simp only [recycleSlab, listing, howner, ne_eq, not_true_eq_false, not_false_eq_true, if_true,
        if_false, SlabPoolImpl.listing, SlabPoolImpl.updateUsed]
  rw [freeToSlab_eq, freeToSlab_eq s, apply_ite fun s : PoolState => s.listing missing, hrecycle]
  rfl

theorem obtains (h : s.Keeps all raws) (hinited : s.pool.inited = true) (hpos : 0 < size)
    (hsize : sizeofSlabHeader + size + kGuardSize < 2 ^ 64)
    (hc : sizeClassIndex size < kNumSizeClasses) {hdr : Nat} (hobtains : s.Obtains size hdr s') :
    s'.Keeps ({⟨hdr, size⟩} + all) raws := by
  obtain ⟨live, missing, rfl, rfl, hsound⟩ := h
  refine ⟨⟨hdr, size⟩ :: live, missing, rfl, rfl, ?_⟩
  refine hsound.obtains hinited hpos hsize ?_
  cases hobtains with
  | recycle _ hslot =>
    rw [← popSlab_listing]
    exact .recycle hc hslot
  | carve _ hempty hcount hgrants haddress => exact .carve hc hempty hcount hgrants haddress
  | large hlarge => exact absurd hc (Nat.not_lt.mpr hlarge)

theorem listing_append (s : PoolState) (left right : List Nat) :
    (s.listing left).listing right = s.listing (left ++ right) := by
  simp only [listing, SlabPoolImpl.listing, List.append_assoc]

theorem takeLarge_cases (hc : kNumSizeClasses ≤ sizeClassIndex size) {alignment : Nat}
    {answer : Answer} {result : Option Nat}
    (hcall : s.takeLarge size alignment answer = some (result, s')) :
    (result = none ∧ s' = s) ∨
      ∃ raw, result = some raw ∧ s.Obtains size raw (s'.listing [raw]) := by
  have heq := s.allocLarge_eq size alignment answer
  rw [hcall] at heq
  cases result with
  | none =>
    rcases allocLarge_cases hc heq with ⟨-, hsame, -⟩ | ⟨hdr, hnone, -⟩
    · exact .inl ⟨rfl, hsame⟩
    · cases hnone
  | some raw =>
    rcases allocLarge_cases hc heq with ⟨hnone, -⟩ | ⟨hdr, hsome, hobtains, -⟩
    · cases hnone
    · cases Nat.add_right_cancel (Option.some.inj hsome)
      exact .inr ⟨raw, rfl, hobtains⟩

theorem takeLarge (h : s.Keeps all raws) (hinited : s.pool.inited = true) (hpos : 0 < size)
    (hsize : sizeofSlabHeader + size + kGuardSize < 2 ^ 64)
    (hc : kNumSizeClasses ≤ sizeClassIndex size) {raw : Nat}
    (hobtains : s.Obtains size raw (s'.listing [raw])) :
    s'.Keeps ({⟨raw, size⟩} + all) ({raw} + raws) := by
  obtain ⟨live, missing, rfl, rfl, hsound⟩ := h
  refine ⟨⟨raw, size⟩ :: live, [raw] ++ missing, rfl, rfl, ?_⟩
  rw [← listing_append]
  generalize s'.listing [raw] = listed at hobtains
  cases hobtains with
  | recycle hslab => exact absurd hc (Nat.not_le.mpr hslab)
  | carve hslab => exact absurd hc (Nat.not_le.mpr hslab)
  | large _ hgrants =>
    refine (hsound.obtains hinited hpos hsize (.large hc hgrants)).relist ?_
    change (s.pool.largeAllocs ++ [raw] ++ missing).Perm (s.pool.largeAllocs ++ missing ++ [raw])
    rw [List.append_assoc, List.append_assoc]
    exact List.perm_append_comm.append_left _

theorem list {raw : Nat} (h : s.Keeps all ({raw} + raws)) : (s.listing [raw]).Keeps all raws := by
  obtain ⟨live, missing, rfl, hmissing, hsound⟩ := h
  obtain ⟨rest, rfl⟩ := Quot.exists_rep raws
  have hperm : missing.Perm (raw :: rest) := Multiset.coe_eq_coe.mp hmissing
  refine ⟨live, rest, rfl, rfl, ?_⟩
  rw [listing_append]
  exact hsound.relist (hperm.symm.append_left _)

theorem freeToSlab (h : s.Keeps ({x} + all) raws) (hc : x.classIdx < kNumSizeClasses) :
    (s.freeToSlab x.header).Keeps all raws := by
  obtain ⟨live, missing, hlive, rfl, hsound⟩ := h
  obtain ⟨rest, rfl⟩ := Quot.exists_rep all
  have hperm : live.Perm (x :: rest) := Multiset.coe_eq_coe.mp hlive
  refine ⟨rest, missing, rfl, rfl, ?_⟩
  rw [← freeToSlab_listing]
  exact (hsound.perm hperm).freeToSlab hc

theorem freeLarge (h : s.Keeps ({x} + all) raws) (hc : kNumSizeClasses ≤ x.classIdx)
    (hraws : ∀ raw ∈ raws, ∃ y ∈ all, y.header = raw) : (s.freeLarge x.header).Keeps all raws := by
  obtain ⟨live, missing, hlive, rfl, hsound⟩ := h
  obtain ⟨rest, rfl⟩ := Quot.exists_rep all
  have hperm : live.Perm (x :: rest) := Multiset.coe_eq_coe.mp hlive
  have hsound := hsound.perm hperm
  have hx : x ∈ x :: rest := List.mem_cons_self
  have hnot : x.header ∉ missing := by
    intro hmem
    obtain ⟨y, hy, heq⟩ := hraws _ hmem
    have hne : x ≠ y := fun hxy => (List.nodup_cons.mp hsound.layout.live_nodup).1 (hxy ▸ hy)
    have hdisj := hsound.layout.live_disjoint hx (List.mem_cons_of_mem _ hy) hne
    unfold Extent.Disjoint Allocation.extent at hdisj
    simp only [heq, sizeofSlabHeader] at hdisj
    omega
  have hlisted : x.header ∈ s.pool.largeAllocs := by
    have hmem := hsound.layout.large.mem_iff.mpr
      (List.mem_map_of_mem (mem_larges.mpr ⟨hx, hc⟩))
    exact (List.mem_append.mp hmem).resolve_right hnot
  refine ⟨rest, missing, rfl, rfl, ?_⟩
  refine (hsound.freeLarge hc).relist (List.Perm.cons_inv (a := x.header) ?_)
  calc x.header :: (PoolState.swapRemove s.pool.largeAllocs x.header ++ missing)
      List.Perm _ (s.pool.largeAllocs ++ missing) := (swapRemove_perm hlisted).symm.append_right _
      List.Perm _ (x.header :: PoolState.swapRemove (s.pool.largeAllocs ++ missing) x.header) :=
        swapRemove_perm (List.mem_append_left _ hlisted)

theorem shrinkFrom_listing {classes : List Nat} {addresses : Nat → List Nat} (missing : List Nat)
    (hcall : shrinkFrom addresses classes s = some s') :
    shrinkFrom addresses classes (s.listing missing) = some (s'.listing missing) := by
  induction classes generalizing s with
  | nil =>
    cases hcall
    rfl
  | cons c rest ih =>
    rw [PoolState.shrinkFrom] at hcall ⊢
    split at hcall
    · cases hcall
    · next mid hmid =>
      have hclass : (s.listing missing).shrinkClass c (addresses c) = some (mid.listing missing) := by
        simp only [shrinkClass] at hmid ⊢
        split_ifs at hmid with haddresses
        cases hmid
        exact if_pos haddresses
      rw [hclass]
      exact ih hcall

theorem shrink (h : s.Keeps all raws) (hidle : ∀ x ∈ all, kNumSizeClasses ≤ x.classIdx)
    {addresses : Nat → List Nat} (hcall : s.shrink addresses = some s') : s'.Keeps all raws := by
  obtain ⟨live, missing, rfl, rfl, hsound⟩ := h
  refine ⟨live, missing, rfl, rfl, ?_⟩
  exact (hsound.shrink (PoolWorld.NoLiveSlab.headersIn (w := ⟨s, live⟩) hidle)
    (shrinkFrom_listing missing hcall)).1

theorem store (h : s.Keeps all raws) {live : List Allocation} (hlive : ∀ x ∈ live, x ∈ all)
    {address : Nat} (hw : PoolWorld.Writable ⟨s, live⟩ address) (byte : UInt8) :
    PoolState.Keeps { s with heap := { s.heap with
      memory := s.heap.memory.write address [byte] } } all raws := by
  obtain ⟨held, missing, rfl, rfl, hsound⟩ := h
  have hwritable : PoolWorld.Writable ⟨s.listing missing, held⟩ address := by
    rcases hw with ⟨x, hx, huser⟩ | houtside
    · exact .inl ⟨x, hlive x hx, huser⟩
    · exact .inr houtside
  have hbyte := PoolWorld.Writable.not_headerByte (w := ⟨s.listing missing, held⟩) hsound hwritable
  exact ⟨held, missing, rfl, rfl,
    PoolWorld.write_sound (w := ⟨s.listing missing, held⟩) hsound hbyte byte⟩

theorem header (h : s.Keeps all raws) (hx : x ∈ all) :
    SlabHeader.magic s.heap.memory x.header = kSlabMagic ∧
      SlabHeader.classIndex s.heap.memory x.header =
        (if x.classIdx < kNumSizeClasses then x.classIdx else kLargeClass) ∧
      SlabHeader.userSize s.heap.memory x.header = x.size := by
  obtain ⟨live, missing, rfl, rfl, hsound⟩ := h
  exact hsound.headers.live x hx

end Keeps
end PoolState

namespace PoolPc

theorem held_of_unlisted {pc : PoolPc} {raw : Nat} (h : pc.unlisted? = some raw) :
    ∃ x, pc.held? = some x ∧ x.header = raw := by
  cases pc with
  | listing x => exact ⟨x, rfl, Option.some.inj h⟩
  | _ => cases h

end PoolPc

namespace PoolThreads

variable {w w' : PoolThreads} {i : Nat} {old new : PoolPc} {x : Allocation}

/-- Requests leave room for header and guard, and `Shrink` is called only while no
slab is in use. -/
def Orderly (w : PoolThreads) : PoolLabel → Prop
  | .call _ (.allocAligned size _) => sizeofSlabHeader + size + kGuardSize < 2 ^ 64
  | .shrink _ => ∀ x ∈ w.allocations, kNumSizeClasses ≤ x.classIdx
  | _ => True

instance (w : PoolThreads) : DecidablePred w.Orderly
  | .call _ (.allocAligned size _) =>
    inferInstanceAs (Decidable (sizeofSlabHeader + size + kGuardSize < 2 ^ 64))
  | .shrink _ => inferInstanceAs (Decidable (∀ x ∈ w.allocations, kNumSizeClasses ≤ x.classIdx))
  | .call _ (.free _) | .step .. | .store .. | .parent _ => inferInstanceAs (Decidable True)

structure Shared (w : PoolThreads) : Prop where
  inited : w.state.pool.inited = true
  valid : ∀ (i : Nat) pc, w.threads[i]? = some pc → pc.Valid
  keeps : w.state.Keeps w.allocations w.unlisted

theorem threads_perm (hold : w.threads[i]? = some old) :
    w.threads.Perm (old :: w.threads.eraseIdx i) := by
  obtain ⟨hi, rfl⟩ := List.getElem?_eq_some_iff.mp hold
  exact (List.getElem_cons_eraseIdx_perm hi).symm

theorem set_perm (hold : w.threads[i]? = some old) :
    (w.threads.set i new).Perm (new :: w.threads.eraseIdx i) :=
  List.set_perm_cons_eraseIdx (List.getElem?_eq_some_iff.mp hold).1 new

theorem allocations_perm {others : List PoolPc} (hperm : w.threads.Perm (old :: others)) :
    (w.allocations : Multiset Allocation) =
      old.held?.toList + ((w.live : Multiset Allocation) + others.filterMap PoolPc.held?) := by
  rw [allocations, ← Multiset.coe_add, Multiset.coe_eq_coe.mpr (hperm.filterMap _),
    List.filterMap_cons, add_left_comm]
  cases old.held? <;> rfl

theorem unlisted_perm {others : List PoolPc} (hperm : w.threads.Perm (old :: others)) :
    (w.unlisted : Multiset Nat) =
      old.unlisted?.toList + (others.filterMap PoolPc.unlisted? : List Nat) := by
  rw [unlisted, Multiset.coe_eq_coe.mpr (hperm.filterMap _), List.filterMap_cons]
  cases old.unlisted? <;> rfl

namespace Shared

/-- The rule for one step of one thread: what leaves the thread goes to the pool
or to the callers, and the other way round. -/
theorem move (h : w.Shared) (hold : w.threads[i]? = some old)
    (hthreads : w'.threads = w.threads.set i new) (hinited : w'.state.pool.inited = true)
    (hvalid : new.Valid)
    (hmove : ∀ (held : Multiset Allocation) (raws : Multiset Nat),
      (∀ raw ∈ raws, ∃ y ∈ held, y.header = raw) →
      w.state.Keeps (old.held?.toList + (w.live + held)) (old.unlisted?.toList + raws) →
      w'.state.Keeps (new.held?.toList + (w'.live + held)) (new.unlisted?.toList + raws)) :
    w'.Shared := by
  refine ⟨hinited, hthreads ▸ forall_slots_set h.valid hvalid, ?_⟩
  have hkeeps := h.keeps
  rw [allocations_perm (threads_perm hold), unlisted_perm (threads_perm hold)] at hkeeps
  have hset : w'.threads.Perm (new :: w.threads.eraseIdx i) := hthreads ▸ set_perm hold
  rw [allocations_perm hset, unlisted_perm hset]
  refine hmove _ _ (fun raw hraw => ?_) hkeeps
  obtain ⟨pc, hpc, hunlisted⟩ := List.mem_filterMap.mp (Multiset.mem_coe.mp hraw)
  obtain ⟨y, hy, heq⟩ := PoolPc.held_of_unlisted hunlisted
  exact ⟨y, List.mem_filterMap.mpr ⟨pc, hpc, hy⟩, heq⟩

theorem quiet (h : w.Shared) (hold : w.threads[i]? = some old)
    (hthreads : w'.threads = w.threads.set i new) (hvalid : new.Valid)
    (hheld : new.held? = old.held?) (hunlisted : new.unlisted? = old.unlisted?)
    (hlive : w'.live = w.live) {stats : AtomicStats} {parentStats : Option AtomicStats}
    (hstate : w'.state = { w.state with
      pool := { w.state.pool with stats := stats }
      parentStats := parentStats }) : w'.Shared := by
  refine h.move hold hthreads (by rw [hstate]; exact h.inited) hvalid fun held raws _ hkeeps => ?_
  rw [hheld, hunlisted, hlive, hstate]
  exact hkeeps.stats stats parentStats

theorem returns (h : w.Shared) (hold : w.threads[i]? = some old) (hheld : old.held? = some x)
    (hunlisted : old.unlisted? = none) (hthreads : w'.threads = w.threads.set i .idle)
    (hlive : w'.live = x :: w.live) {stats : AtomicStats} {parentStats : Option AtomicStats}
    (hstate : w'.state = { w.state with
      pool := { w.state.pool with stats := stats }
      parentStats := parentStats }) : w'.Shared := by
  refine h.move hold hthreads (by rw [hstate]; exact h.inited) trivial fun held raws _ hkeeps => ?_
  have hsame : (PoolPc.idle.held?.toList : Multiset Allocation) + (w'.live + held) =
      old.held?.toList + (w.live + held) := by
    rw [hheld, hlive, ← Multiset.cons_coe, ← Multiset.singleton_add, add_assoc]
    exact zero_add _
  rw [hsame, hstate]
  rw [hunlisted] at hkeeps
  exact hkeeps.stats stats parentStats

theorem recorded (h : w.Shared) (hold : w.threads[i]? = some old) (hheld : old.held? = some x)
    (hunlisted : old.unlisted? = none) (stats : AtomicStats) :
    ((w.withStats stats).recorded i x).Shared := by
  unfold PoolThreads.recorded
  split
  · exact h.quiet hold rfl trivial hheld.symm hunlisted.symm rfl rfl
  · exact h.returns hold hheld hunlisted rfl rfl rfl

theorem taking (h : w.Shared) {size alignment : Nat} {answer : Answer} {spurious : Bool}
    (hold : w.threads[i]? = some (.taking size alignment))
    (hstep : w.advance i answer spurious (.taking size alignment) = some w') : w'.Shared := by
  obtain ⟨hpos, hsize⟩ := h.valid i _ hold
  simp only [advance] at hstep
  split at hstep
  · next hc =>
    obtain ⟨⟨result, state⟩, hcall, hnext⟩ := Option.map_eq_some_iff.mp hstep
    rcases PoolState.allocFromSlab_cases hc hcall with ⟨rfl, rfl, -⟩ | ⟨hdr, rfl, hobtains, -⟩
    · cases hnext
      exact h.quiet hold rfl trivial rfl rfl rfl rfl
    · cases hnext
      refine h.move hold rfl (hobtains.frame.2.1.trans h.inited) trivial fun held raws _ hkeeps => ?_
      rw [headerFromUser, userFromHeader, Nat.add_sub_cancel]
      rw [show (PoolPc.taking size alignment).held?.toList = [] from rfl, Multiset.coe_nil,
        zero_add] at hkeeps
      exact hkeeps.obtains h.inited hpos hsize hc hobtains
  · next hc =>
    obtain ⟨⟨result, state⟩, hcall, hnext⟩ := Option.map_eq_some_iff.mp hstep
    rcases PoolState.Keeps.takeLarge_cases (Nat.not_lt.mp hc) hcall with
      ⟨rfl, rfl⟩ | ⟨raw, rfl, hobtains⟩
    · cases hnext
      exact h.quiet hold rfl trivial rfl rfl rfl rfl
    · cases hnext
      refine h.move hold rfl (hobtains.frame.2.1.trans h.inited) trivial fun held raws _ hkeeps => ?_
      rw [show (PoolPc.taking size alignment).held?.toList = [] from rfl, Multiset.coe_nil, zero_add,
        show (PoolPc.taking size alignment).unlisted?.toList = [] from rfl, Multiset.coe_nil,
        zero_add] at hkeeps
      exact hkeeps.takeLarge h.inited hpos hsize (Nat.not_lt.mp hc) hobtains

theorem listing (h : w.Shared) (hold : w.threads[i]? = some (.listing x)) :
    ({ w with state := w.state.listing [x.header] }.goto i (.counting x)).Shared := by
  refine h.move hold rfl h.inited trivial fun held raws _ hkeeps => ?_
  have hlisted : (w.state.listing [x.header]).Keeps ({x} + (w.live + held)) raws := .list hkeeps
  exact (zero_add raws).symm ▸ hlisted

theorem releasing (h : w.Shared) {answer : Answer} {spurious : Bool}
    (hold : w.threads[i]? = some (.releasing x))
    (hstep : w.advance i answer spurious (.releasing x) = some w') : w'.Shared := by
  have hx : x ∈ (w.allocations : Multiset Allocation) := by
    rw [allocations_perm (threads_perm hold)]
    exact Multiset.mem_add.mpr (.inl (Multiset.mem_singleton_self x))
  obtain ⟨hmagic, hindex, -⟩ := h.keeps.header hx
  have hheader : headerFromUser x.ptr = x.header := Nat.add_sub_cancel _ _
  simp only [advance, hheader, hmagic, ne_eq, not_true_eq_false, if_false] at hstep
  cases hstep
  by_cases hc : x.classIdx < kNumSizeClasses
  · have hslab : ¬SlabHeader.classIndex w.state.heap.memory x.header = kLargeClass := by
      rw [hindex, if_pos hc]
      unfold kNumSizeClasses at hc
      unfold kLargeClass
      omega
    rw [if_neg hslab]
    refine h.move hold rfl (w.state.freeToSlab_frame x.header |>.2.1.trans h.inited) trivial
      fun held raws _ hkeeps => ?_
    have hfreed := PoolState.Keeps.freeToSlab (x := x) hkeeps hc
    exact (zero_add ((w.live : Multiset Allocation) + held)).symm ▸ hfreed
  · have hlarge : SlabHeader.classIndex w.state.heap.memory x.header = kLargeClass := by
      rw [hindex, if_neg hc]
    rw [if_pos hlarge]
    refine h.move hold rfl h.inited trivial fun held raws hraws hkeeps => ?_
    rw [show (PoolPc.releasing x).unlisted?.toList = [] from rfl, Multiset.coe_nil,
      zero_add] at hkeeps
    have hfreed := PoolState.Keeps.freeLarge (x := x) hkeeps (Nat.not_lt.mp hc) fun raw hraw => by
      obtain ⟨y, hy, heq⟩ := hraws raw hraw
      exact ⟨y, Multiset.mem_add.mpr (.inr hy), heq⟩
    change PoolState.Keeps _ (0 + _) (0 + _)
    rw [zero_add, zero_add]
    exact hfreed

theorem enter (h : w.Shared) {call : PoolCall} (horderly : w.Orderly (.call i call))
    (hold : w.threads[i]? = some .idle) (hstep : w.enter i call = some w') : w'.Shared := by
  cases call with
  | allocAligned size alignment =>
    simp only [PoolThreads.enter] at hstep
    split_ifs at hstep with hrefused hlimit
    · cases hstep
      exact h
    all_goals
      cases hstep
      have hpos : 0 < size := Nat.pos_of_ne_zero fun hzero => hrefused (.inl hzero)
      exact h.quiet hold rfl ⟨hpos, horderly⟩ rfl rfl rfl rfl
  | free ptr =>
    simp only [PoolThreads.enter] at hstep
    split_ifs at hstep with hnull
    · cases hstep
      exact h
    · obtain ⟨x, hfind, hnext⟩ := Option.map_eq_some_iff.mp hstep
      cases hnext
      have hperm := List.perm_cons_erase (List.mem_of_find?_eq_some hfind)
      refine h.move hold rfl h.inited trivial fun held raws _ hkeeps => ?_
      change w.state.Keeps ({x} + ((w.live.erase x : List Allocation) + held)) (0 + raws)
      rw [← add_assoc, Multiset.singleton_add, Multiset.cons_coe, ← Multiset.coe_eq_coe.mpr hperm]
      exact (zero_add ((w.live : Multiset Allocation) + held)) ▸ hkeeps

theorem advance (h : w.Shared) {answer : Answer} {spurious : Bool} {pc : PoolPc}
    (hold : w.threads[i]? = some pc) (hstep : w.advance i answer spurious pc = some w') :
    w'.Shared := by
  cases pc with
  | idle => cases hstep
  | checking size alignment =>
    simp only [PoolThreads.advance] at hstep
    have hvalid := h.valid i _ hold
    split_ifs at hstep
    · cases hstep
      exact h.quiet hold rfl trivial rfl rfl rfl rfl
    · cases hstep
      exact h.quiet hold rfl hvalid rfl rfl rfl rfl
  | taking size alignment => exact h.taking hold hstep
  | listing x =>
    cases hstep
    exact h.listing hold
  | raisingPeak x inUse peak =>
    simp only [PoolThreads.advance] at hstep
    split_ifs at hstep
    · cases hstep
      exact h.recorded hold rfl rfl _
    · cases hstep
      exact h.quiet hold rfl trivial rfl rfl rfl rfl
    · cases hstep
      exact h.recorded hold rfl rfl w.state.pool.stats
  | addingParent x =>
    cases hstep
    exact h.returns hold rfl rfl rfl rfl rfl
  | releasing x => exact h.releasing hold hstep
  | lowering size cur =>
    simp only [PoolThreads.advance] at hstep
    split_ifs at hstep <;>
    · cases hstep
      exact h.quiet hold rfl trivial rfl rfl rfl rfl
  | loadingParent size =>
    obtain ⟨stats, -, rfl⟩ := Option.map_eq_some_iff.mp hstep
    exact h.quiet hold rfl trivial rfl rfl rfl rfl
  | loweringParent size pcur =>
    obtain ⟨stats, -, hnext⟩ := Option.map_eq_some_iff.mp hstep
    split_ifs at hnext <;>
    · cases hnext
      exact h.quiet hold rfl trivial rfl rfl rfl rfl
  | counting x | adding x | loadingPeak x inUse | countingFree size | loadingInUse size =>
    cases hstep
    exact h.quiet hold rfl trivial rfl rfl rfl rfl

theorem step (h : w.Shared) {label : PoolLabel} (horderly : w.Orderly label)
    (hstep : w.step label = some w') : w'.Shared := by
  cases label with
  | call thread call =>
    simp only [PoolThreads.step, Option.ite_none_right_eq_some] at hstep
    exact h.enter horderly hstep.1 hstep.2
  | step thread answer spurious =>
    obtain ⟨pc, hpc, hadvance⟩ := Option.bind_eq_some_iff.mp hstep
    exact h.advance hpc hadvance
  | shrink addresses =>
    obtain ⟨state, hcall, hnext⟩ := Option.map_eq_some_iff.mp hstep
    cases hnext
    exact ⟨(PoolState.shrinkFrom_frame hcall).2.1.trans h.inited, h.valid,
      h.keeps.shrink horderly hcall⟩
  | store address byte =>
    simp only [PoolThreads.step] at hstep
    split_ifs at hstep with hw
    cases hstep
    exact ⟨h.inited, h.valid, h.keeps.store (fun _ => List.mem_append_left _) hw byte⟩
  | parent stats =>
    cases hstep
    exact ⟨h.inited, h.valid, h.keeps.stats _ _⟩

theorem start (config : PoolConfig) (parentStats : Option AtomicStats) (count : Nat) :
    (PoolThreads.start config parentStats count).Shared where
  inited := rfl
  valid := by
    intro i pc hpc
    cases List.eq_of_mem_replicate (List.mem_of_getElem? hpc)
    trivial
  keeps := by
    have hheld : (List.replicate count PoolPc.idle).filterMap PoolPc.held? = [] :=
      List.filterMap_eq_nil_iff.mpr fun pc hpc => List.eq_of_mem_replicate hpc ▸ rfl
    have hunlisted : (List.replicate count PoolPc.idle).filterMap PoolPc.unlisted? = [] :=
      List.filterMap_eq_nil_iff.mpr fun pc hpc => List.eq_of_mem_replicate hpc ▸ rfl
    refine ⟨[], [], congrArg _ hheld.symm, congrArg _ hunlisted.symm, ?_⟩
    exact PoolWorld.sound_of_empty (fun _ => rfl) (fun _ _ => rfl) rfl rfl

theorem of_run {config : PoolConfig} {parentStats : Option AtomicStats} {count : Nat}
    {labels : List PoolLabel}
    (hmeets : Meets PoolThreads.step Orderly (.start config parentStats count) labels)
    (hrun : runs PoolThreads.step (.start config parentStats count) labels = some w) : w.Shared :=
  runs_invariant_of_meets (fun _ _ _ h horderly hstep => h.step horderly hstep)
    (.start config parentStats count) hmeets hrun

theorem sound (h : w.Shared) : (w.state.listing w.unlisted).Sound w.allocations := by
  obtain ⟨live, missing, hlive, hmissing, hsound⟩ := h.keeps
  have hperm : w.unlisted.Perm missing := Multiset.coe_eq_coe.mp hmissing.symm
  exact (hsound.perm (Multiset.coe_eq_coe.mp hlive)).relist (hperm.append_left _)

end Shared

end PoolThreads

/-- Any number of threads that allocate and free in any order of their steps, with
`Shrink` only while no slab is in use. No two allocations share a byte, those of
the calls in progress included; each lies in a block or is one that the underlying
allocator handed out, and its header is what `Free` looks for. The slabs of every
class are the free ones and those in use, and a block counts the latter. -/
theorem threads_never_overlap (config : PoolConfig) (parentStats : Option AtomicStats)
    (count : Nat) (labels : List PoolLabel)
    (hmeets : Meets PoolThreads.step PoolThreads.Orderly (.start config parentStats count) labels)
    (w : PoolThreads)
    (hrun : runs PoolThreads.step (.start config parentStats count) labels = some w) :
    (w.allocations.Pairwise fun x y => (x.extent w.state.pool.config.enableGuardBytes).Disjoint
      (y.extent w.state.pool.config.enableGuardBytes)) ∧
    (∀ x ∈ w.allocations,
      ((∃ block ∈ w.state.pool.allBlocks,
        (x.extent w.state.pool.config.enableGuardBytes).Within block.extent) ∨
        x.extent w.state.pool.config.enableGuardBytes ∈ w.state.heap.outstanding) ∧
      SlabHeader.magic w.state.heap.memory x.header = kSlabMagic ∧
      SlabHeader.userSize w.state.heap.memory x.header = x.size) ∧
    (∀ c < kNumSizeClasses, (w.state.pool.slabs c).Nodup ∧
      (w.state.pool.slabs c).Perm (w.state.pool.freeLists c ++ headersIn w.allocations c)) ∧
    (∀ c < kNumSizeClasses, ∀ block ∈ w.state.pool.blocks c,
      block.usedCount = (headersIn w.allocations c).countP fun hdr => hdr ∈ block.slabs) ∧
    w.state.heap.outstanding.Pairwise Extent.Disjoint ∧
    (w.state.heap.outstanding.map Extent.base).Perm
      (w.state.pool.allBlocks.map Block.base ++ (w.state.pool.largeAllocs ++ w.unlisted)) := by
  have h := (PoolThreads.Shared.of_run hmeets hrun).sound
  refine ⟨?_, fun x hx => ⟨?_, (h.headers.live x hx).1, (h.headers.live x hx).2.2⟩,
    fun c hc => ⟨h.layout.slabs_nodup hc, h.layout.partition c hc⟩, h.layout.used, h.layout.apart, ?_⟩
  · exact h.layout.live_nodup.pairwise_of_forall_ne fun x hx y hy hne =>
      h.layout.live_disjoint hx hy hne
  · by_cases hclass : x.classIdx < kNumSizeClasses
    · obtain ⟨block, hb, hs⟩ := mem_slabs.mp (h.layout.mem_slabs_of_live hx hclass)
      exact .inl ⟨block, mem_allBlocks.mpr ⟨_, hclass, hb⟩,
        (Layout.extent_within_slab _ hclass).trans (h.layout.slab_within hclass hb hs)⟩
    · exact .inr (h.layout.large_mem (mem_larges.mpr ⟨hx, Nat.not_lt.mp hclass⟩))
  · have hbases := h.layout.held.map Extent.base
    rw [List.map_append, List.map_map, List.map_map] at hbases
    exact hbases.trans (h.layout.large.symm.append_left _)

/-- One thread has a slab that it is still counting when the other one has a large
allocation that is not listed yet. -/
theorem threads_never_overlap_two :
    ∃ w, runs PoolThreads.step (.start { blockSize := 64 } none 2)
        [.call 0 (.allocAligned 8 8), .call 1 (.allocAligned 5000 8),
          .step 0 ⟨some 4096, 100⟩ false, .step 1 ⟨some 8192, 0⟩ false, .step 0 ⟨none, 0⟩ false] =
        some w ∧
      w.allocations = [⟨4096, 8⟩, ⟨8192, 5000⟩] ∧ w.unlisted = [8192] ∧
      (w.allocations.Pairwise fun x y => (x.extent w.state.pool.config.enableGuardBytes).Disjoint
        (y.extent w.state.pool.config.enableGuardBytes)) := by
  obtain ⟨w, hrun, hw⟩ := Option.map_eq_some_iff.mp
    (show (runs PoolThreads.step (.start { blockSize := 64 } none 2)
        [.call 0 (.allocAligned 8 8), .call 1 (.allocAligned 5000 8),
          .step 0 ⟨some 4096, 100⟩ false, .step 1 ⟨some 8192, 0⟩ false,
          .step 0 ⟨none, 0⟩ false]).map (fun w => (w.allocations, w.unlisted)) =
        some ([⟨4096, 8⟩, ⟨8192, 5000⟩], [8192]) by decide +kernel)
  simp only [Prod.mk.injEq] at hw
  refine ⟨w, hrun, hw.1, hw.2, ?_⟩
  exact (threads_never_overlap _ none 2 _ (.of_decide (by decide +kernel)) w hrun).1

end Corekit.Memory
