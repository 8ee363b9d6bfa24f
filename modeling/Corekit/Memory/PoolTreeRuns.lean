import Corekit.Memory.PoolFrames
import Corekit.Memory.SlabRuns

/-! Whole histories of several pools over one heap. As for one pool, the live
lists are what the callers hold, here for each pool the pointers it handed out
and has not been asked to free. Every pool is sound among its own extents, and
the extents of two pools are disjoint. -/
namespace Corekit.Memory
open Corekit.Foundation Allocation

structure TreeWorld where
  tree : PoolTree := {}
  live : Nat → List Allocation := fun _ => []
  /-- the highest `bytes_in_use` of each pool so far -/
  reached : Nat → Nat := fun _ => 0

inductive TreeAction where
  | create
  | init (i : Nat) (config : PoolConfig)
  | createChild (i : Nat) (config : PoolConfig) (allocated : Bool)
  | allocAligned (i size alignment : Nat) (answer : Answer)
  | free (i ptr : Nat)
  | store (address : Nat) (byte : UInt8)

namespace TreeWorld

def IsLive (w : TreeWorld) (ptr : Nat) : Prop :=
  ∃ i < w.tree.count, ∃ x ∈ w.live i, x.ptr = ptr

instance (w : TreeWorld) (ptr : Nat) : Decidable (w.IsLive ptr) :=
  inferInstanceAs (Decidable (∃ i < _, _))

def Writable (w : TreeWorld) (address : Nat) : Prop :=
  (∃ i < w.tree.count, ∃ x ∈ w.live i, Extent.Contains ⟨x.ptr, x.size⟩ address) ∨
    ∀ extent ∈ w.tree.heap.outstanding, ¬extent.Contains address

instance (w : TreeWorld) (address : Nat) : Decidable (w.Writable address) :=
  inferInstanceAs (Decidable ((∃ i < _, _) ∨ _))

/-- A pointer that pool `i` has not handed out stays live when `i` is asked to
free it. -/
def act (w : TreeWorld) : TreeAction → Option TreeWorld
  | .create => some { w with tree := w.tree.create }
  | .init i config =>
    if i < w.tree.count then some { w with tree := (w.tree.init i config).2 } else none
  | .createChild i config allocated =>
    if hi : i < w.tree.count then
      some { w with tree := (w.tree.createChild i hi config allocated).2 }
    else none
  | .allocAligned i size alignment answer =>
    if i < w.tree.count then
      (w.tree.allocAligned i size alignment answer).map fun
        | (none, tree) => { w with tree := tree }
        | (some ptr, tree) =>
          { w with
            tree := tree
            live := Function.update w.live i (⟨headerFromUser ptr, size⟩ :: w.live i) }
    else none
  | .free i ptr =>
    if i < w.tree.count ∧ (ptr = 0 ∨ w.IsLive ptr) then
      some { w with
        tree := w.tree.free i ptr
        live := Function.update w.live i ((w.live i).eraseP fun x => x.ptr = ptr) }
    else none
  | .store address byte =>
    if w.Writable address then
      some { w with tree := { w.tree with heap := { w.tree.heap with
        memory := w.tree.heap.memory.write address [byte] } } }
    else none

def observe (w : TreeWorld) : TreeWorld :=
  { w with reached := fun i => max (w.reached i) (w.tree.pools i).stats.bytesInUse }

def step (w : TreeWorld) (a : TreeAction) : Option TreeWorld := (w.act a).map observe

/-- Every pointer is freed by the pool that allocated it, or by one that is not
initialized and returns at once; a size that the pool's own tests let through
leaves room for header and guard. -/
def OwnCalls (w : TreeWorld) : TreeAction → Prop
  | .allocAligned i size _ _ =>
    (w.tree.view i).Refuses size ∨ sizeofSlabHeader + size + kGuardSize < 2 ^ 64
  | .free i ptr => ptr = 0 ∨ (w.tree.pools i).inited = false ∨ ∃ x ∈ w.live i, x.ptr = ptr
  | _ => True

instance (w : TreeWorld) : DecidablePred w.OwnCalls
  | .allocAligned .. => inferInstanceAs (Decidable (_ ∨ _))
  | .free .. => inferInstanceAs (Decidable (_ ∨ _ ∨ _))
  | .create => .isTrue trivial
  | .init .. => .isTrue trivial
  | .createChild .. => .isTrue trivial
  | .store .. => .isTrue trivial

/-- `owned` tells which extents belong to which pool. -/
structure Sound (w : TreeWorld) (owned : Nat → List Extent) : Prop where
  pool : ∀ i < w.tree.count, ((w.tree.view i).within (owned i)).Sound (w.live i)
  held : w.tree.heap.outstanding.Perm ((List.range w.tree.count).flatMap owned)
  apart : w.tree.heap.outstanding.Pairwise Extent.Disjoint
  unborn : ∀ i, w.tree.count ≤ i → w.live i = [] ∧ w.tree.pools i = {}
  children : ∀ i p, w.tree.parent i = some p →
    i < w.tree.count ∧ (w.tree.pools p).inited = true

end TreeWorld

namespace Trade

variable {own all own' all' : List Extent}

theorem perm (h : Trade own all own' all') (hown : own.Pairwise Extent.Disjoint)
    (hall : all.Pairwise Extent.Disjoint) (hpos : ∀ extent ∈ all, 0 < extent.len)
    (hsub : ∀ extent ∈ own, extent ∈ all) : (own ++ all').Perm (own' ++ all) := by
  cases h with
  | keep => exact .refl _
  | take extent hfresh => exact List.perm_middle
  | give extent hmem =>
    have herase := Extent.perm_eraseP_base hown (fun other h => hpos other (hsub other h)) hmem
    have herase' := Extent.perm_eraseP_base hall hpos (hsub extent hmem)
    exact (herase.append_right _).trans (List.perm_middle.symm.trans (herase'.symm.append_left _))

theorem apart (h : Trade own all own' all') (hall : all.Pairwise Extent.Disjoint) :
    all'.Pairwise Extent.Disjoint := by
  cases h with
  | keep => exact hall
  | take extent hfresh =>
    exact List.pairwise_cons.mpr ⟨fun other hother => (hfresh other hother).symm, hall⟩
  | give extent hmem => exact hall.sublist List.eraseP_sublist

theorem foreign_apart (h : Trade own all own' all') {extent : Extent} (hmem : extent ∈ all)
    (hapart : ∀ other ∈ own, extent.Disjoint other) :
    ∀ other ∈ own ++ own', extent.Disjoint other := by
  intro other hother
  rcases List.mem_append.mp hother with hother | hother
  · exact hapart other hother
  · cases h with
    | keep => exact hapart other hother
    | take new hfresh =>
      rcases List.mem_cons.mp hother with rfl | hother
      · exact hfresh extent hmem
      · exact hapart other hother
    | give gone hgone => exact hapart other (List.mem_of_mem_eraseP hother)

end Trade

namespace PoolTree

variable (t : PoolTree) {i : Nat}

theorem put_view : t.put i (t.view i) = t := by
  rcases t with ⟨⟨parent, older⟩, count, pools, heap⟩
  simp only [put, view, PoolTree.mk.injEq, true_and, and_true]
  funext j
  split_ifs with hj hp
  · rw [hj]
  · simp [hp]
  · rfl

theorem put_pools_self (s : PoolState) : (t.put i s).pools i = s.pool := if_pos rfl

theorem put_pools_other (s : PoolState) {j : Nat} (hj : j ≠ i) :
    (t.put i s).pools j = { t.pools j with
      stats := if t.parent i = some j then s.parentStats.getD (t.pools j).stats
        else (t.pools j).stats } := by
  simp only [put, if_neg hj]
  split_ifs <;> rfl

theorem init_frame (config : PoolConfig) (j : Nat) :
    ((t.init i config).2.pools j).stats = (t.pools j).stats ∧
      ((t.pools j).inited = true →
        ((t.init i config).2.pools j).config = (t.pools j).config) := by
  cases hinited : (t.pools i).inited with
  | true =>
    have hinit : (t.view i).init config =
        (⟨.kAlreadyInitialized, "pool already initialized", .kCore⟩, t.view i) := if_pos hinited
    have hsame : (t.init i config).2 = t := by
      simp only [init, hinit]
      exact t.put_view
    rw [hsame]
    exact ⟨rfl, fun _ => rfl⟩
  | false =>
    have hinit : (t.view i).init config =
        (.okStatus, { t.view i with pool := { t.pools i with config := config, inited := true } }) :=
      if_neg (show ¬(t.pools i).inited = true by simp [hinited])
    simp only [init, hinit]
    by_cases hj : j = i
    · subst hj
      rw [put_pools_self]
      refine ⟨rfl, fun hready => ?_⟩
      rw [hinited] at hready
      cases hready
    · rw [put_pools_other _ _ hj]
      refine ⟨?_, fun _ => rfl⟩
      dsimp only
      split_ifs with hp
      · simp [view, hp]
      · rfl

end PoolTree

namespace TreeWorld

variable {w w' : TreeWorld} {owned : Nat → List Extent} {i j : Nat}

namespace Sound

theorem owned_sub (h : w.Sound owned) (hi : i < w.tree.count) {extent : Extent}
    (hmem : extent ∈ owned i) : extent ∈ w.tree.heap.outstanding :=
  h.held.mem_iff.mpr (List.mem_flatMap.mpr ⟨i, List.mem_range.mpr hi, hmem⟩)

theorem outstanding_pos (h : w.Sound owned) {extent : Extent}
    (hmem : extent ∈ w.tree.heap.outstanding) : 0 < extent.len := by
  obtain ⟨i, hi, hmem⟩ := List.mem_flatMap.mp (h.held.mem_iff.mp hmem)
  exact ((h.pool i (List.mem_range.mp hi)).layout.room extent hmem).2.1

theorem owned_apart (h : w.Sound owned) (hi : i < w.tree.count) (hj : j < w.tree.count)
    (hne : i ≠ j) {left right : Extent} (hleft : left ∈ owned i) (hright : right ∈ owned j) :
    left.Disjoint right := by
  have hpairs := (h.held.pairwise_iff fun h => h.symm).mp h.apart
  have hsymm : Std.Symm fun i j => ∀ left ∈ owned i, ∀ right ∈ owned j, left.Disjoint right :=
    ⟨fun _ _ h right hright left hleft => (h left hleft right hright).symm⟩
  exact (List.pairwise_flatMap.mp hpairs).2.forall (List.mem_range.mpr hi) (List.mem_range.mpr hj)
    hne left hleft right hright

theorem put (h : w.Sound owned) (hi : i < w.tree.count) {s : PoolState} {own' : List Extent}
    {live' : List Allocation} (hsound : (s.within own').Sound live')
    (htrade : Trade (owned i) w.tree.heap.outstanding own' s.heap.outstanding)
    (hbytes : Mem.SameExcept (owned i ++ own') w.tree.heap.memory s.heap.memory)
    (hinited : (w.tree.pools i).inited = true → s.pool.inited = true) :
    Sound { w with tree := w.tree.put i s, live := Function.update w.live i live' }
      (Function.update owned i own') := by
  have hlayout := (h.pool i hi).layout
  have hperm := htrade.perm hlayout.apart h.apart (fun _ hmem => h.outstanding_pos hmem)
    fun _ hmem => h.owned_sub hi hmem
  have hother : ∀ j ≠ i, ∃ stats, (w.tree.put i s).pools j = { w.tree.pools j with stats := stats } :=
    fun j hj => ⟨_, w.tree.put_pools_other s hj⟩
  refine ⟨?_, ?_, htrade.apart h.apart, ?_, ?_⟩
  · intro j hj
    by_cases hji : j = i
    · subst hji
      simp only [Function.update_self]
      constructor
      · change Layout ((w.tree.put j s).pools j) own' live'
        rw [w.tree.put_pools_self]
        exact hsound.layout
      · change Headers ((w.tree.put j s).pools j) s.heap.memory live'
        rw [w.tree.put_pools_self]
        exact hsound.headers
    · simp only [Function.update_of_ne hji]
      obtain ⟨stats, hpool⟩ := hother j hji
      have hframe := (h.pool j hj).headers.frame_foreign (h.pool j hj).layout hbytes
        fun extent hmem => htrade.foreign_apart (h.owned_sub hj hmem)
          fun other hown => h.owned_apart hj hi hji hmem hown
      constructor
      · change Layout ((w.tree.put i s).pools j) (owned j) (w.live j)
        rw [hpool]
        exact (h.pool j hj).layout.stats stats
      · change Headers ((w.tree.put i s).pools j) s.heap.memory (w.live j)
        rw [hpool]
        exact ⟨hframe.owner, hframe.live⟩
  · have hupdate := flatMap_update_perm owned own' List.nodup_range (List.mem_range.mpr hi)
    apply (List.perm_append_left_iff (owned i)).mp
    exact hperm.trans ((h.held.append_left own').trans hupdate.symm)
  · intro j hj
    change w.tree.count ≤ j at hj
    change Function.update w.live i live' j = [] ∧ (w.tree.put i s).pools j = {}
    have hparent : w.tree.parent i ≠ some j := fun hp => by
      have := w.tree.older i j hp
      omega
    rw [Function.update_of_ne (by omega), w.tree.put_pools_other s (by omega), if_neg hparent]
    exact h.unborn j hj
  · intro j p hp
    obtain ⟨hj, hready⟩ := h.children j p hp
    refine ⟨hj, ?_⟩
    change ((w.tree.put i s).pools p).inited = true
    by_cases hpi : p = i
    · subst hpi
      rw [w.tree.put_pools_self]
      exact hinited hready
    · obtain ⟨stats, hpool⟩ := hother p hpi
      rw [hpool]
      exact hready

theorem grow (h : w.Sound owned) {t : PoolTree} (hcount : t.count = w.tree.count + 1)
    (hpools : t.pools = Function.update w.tree.pools w.tree.count {})
    (hheap : t.heap = w.tree.heap) (hparent : ∀ j ≠ w.tree.count, t.parent j = w.tree.parent j)
    (hnew : ∀ p, t.parent w.tree.count = some p →
      p < w.tree.count ∧ (w.tree.pools p).inited = true) :
    Sound { w with tree := t } (Function.update owned w.tree.count []) := by
  have hrange : (List.range t.count).flatMap (Function.update owned w.tree.count []) =
      (List.range w.tree.count).flatMap owned := by
    rw [hcount, List.range_succ, List.flatMap_append, List.flatMap_singleton, Function.update_self,
      List.append_nil]
    exact flatMap_update_of_notMem owned [] (by simp)
  refine ⟨?_, ?_, ?_, ?_, ?_⟩
  · intro j hj
    change j < t.count at hj
    by_cases hjc : j = w.tree.count
    · have hlive : w.live j = [] := (h.unborn j hjc.ge).1
      have hpool : t.pools j = {} := by rw [hpools, hjc, Function.update_self]
      change PoolState.Sound (PoolState.within (t.view j) _) (w.live j)
      rw [hlive, hjc, Function.update_self]
      rw [hjc] at hpool
      apply PoolWorld.sound_of_empty
      · intro c
        change (t.pools w.tree.count).blocks c = []
        rw [hpool]
      · intro c _
        change (t.pools w.tree.count).freeLists c = []
        rw [hpool]
      · change (t.pools w.tree.count).largeAllocs = []
        rw [hpool]
      · rfl
    · have hpool : t.pools j = w.tree.pools j := by rw [hpools, Function.update_of_ne hjc]
      have hsound := h.pool j (by omega)
      rw [Function.update_of_ne hjc]
      constructor
      · change Layout (t.pools j) (owned j) (w.live j)
        rw [hpool]
        exact hsound.layout
      · change Headers (t.pools j) t.heap.memory (w.live j)
        rw [hpool, hheap]
        exact hsound.headers
  · change t.heap.outstanding.Perm _
    rw [hheap, hrange]
    exact h.held
  · change t.heap.outstanding.Pairwise _
    rw [hheap]
    exact h.apart
  · intro j hj
    change t.count ≤ j at hj
    change w.live j = [] ∧ t.pools j = {}
    rw [hpools, Function.update_of_ne (by omega)]
    exact h.unborn j (by omega)
  · intro j p hp
    change t.parent j = some p at hp
    change j < t.count ∧ (t.pools p).inited = true
    have hready : p < w.tree.count ∧ (w.tree.pools p).inited = true := by
      by_cases hjc : j = w.tree.count
      · subst hjc
        exact hnew p hp
      · rw [hparent j hjc] at hp
        have hlt := w.tree.older j p hp
        obtain ⟨hj, hready⟩ := h.children j p hp
        exact ⟨by omega, hready⟩
    refine ⟨?_, ?_⟩
    · by_cases hjc : j = w.tree.count
      · omega
      · rw [hparent j hjc] at hp
        have := (h.children j p hp).1
        omega
    · rw [hpools, Function.update_of_ne (by omega)]
      exact hready.2

theorem create (h : w.Sound owned) :
    Sound { w with tree := w.tree.create } (Function.update owned w.tree.count []) := by
  refine h.grow (t := w.tree.create) rfl rfl rfl ?_ ?_
  · intro j hj
    exact Function.update_of_ne hj _ _
  · intro p hp
    change Function.update w.tree.parent w.tree.count none w.tree.count = some p at hp
    rw [Function.update_self] at hp
    cases hp

theorem adopt (h : w.Sound owned) (hi : i < w.tree.count)
    (hinited : (w.tree.pools i).inited = true) :
    Sound { w with tree := w.tree.adopt i hi } (Function.update owned w.tree.count []) := by
  refine h.grow (t := w.tree.adopt i hi) rfl rfl rfl ?_ ?_
  · intro j hj
    exact Function.update_of_ne hj _ _
  · intro p hp
    change Function.update w.tree.parent w.tree.count (some i) w.tree.count = some p at hp
    rw [Function.update_self] at hp
    cases hp
    exact ⟨hi, hinited⟩

theorem init (h : w.Sound owned) (hi : i < w.tree.count) (config : PoolConfig) :
    Sound { w with tree := (w.tree.init i config).2 } owned := by
  have hsound : (((w.tree.view i).init config).2.within (owned i)).Sound (w.live i) := by
    have hinit := PoolWorld.init_sound (w := ⟨(w.tree.view i).within (owned i), w.live i⟩)
      (h.pool i hi) config
    unfold PoolState.init at hinit ⊢
    cases hready : (w.tree.view i).pool.inited with
    | true => simpa [PoolState.within, hready] using hinit
    | false => simpa [PoolState.within, hready] using hinit
  have hheap : ((w.tree.view i).init config).2.heap = w.tree.heap := by
    unfold PoolState.init
    split <;> rfl
  have hput := h.put hi hsound (by rw [hheap]; exact .keep _ _) (by
    rw [hheap]
    exact fun _ _ => rfl) (by
    intro hready
    unfold PoolState.init
    rw [if_pos (show (w.tree.view i).pool.inited = true from hready)]
    exact hready)
  rw [Function.update_eq_self, Function.update_eq_self] at hput
  exact hput

theorem createChild_cases (w : TreeWorld) (hi : i < w.tree.count) (config : PoolConfig)
    (allocated : Bool) :
    (w.tree.createChild i hi config allocated).2 = w.tree ∨
      (w.tree.pools i).inited = true ∧ (w.tree.createChild i hi config allocated).2 =
        ((w.tree.adopt i hi).init w.tree.count config).2 := by
  have hfresh : ((w.tree.adopt i hi).pools w.tree.count).inited = false := by
    change (Function.update w.tree.pools w.tree.count {} w.tree.count).inited = false
    rw [Function.update_self]
  have hstatus : ((w.tree.adopt i hi).init w.tree.count config).1 = .okStatus := by
    unfold PoolTree.init PoolState.init
    rw [if_neg (by rw [PoolTree.view, hfresh]; simp)]
  unfold PoolTree.createChild
  split_ifs with hready hallocated
  · exact .inl rfl
  · exact .inl rfl
  · refine .inr ⟨by simpa using hready, ?_⟩
    simp only [hstatus, Api.Status.ok_okStatus, if_true]

theorem createChild (h : w.Sound owned) (hi : i < w.tree.count) (config : PoolConfig)
    (allocated : Bool) :
    ∃ owned', Sound { w with tree := (w.tree.createChild i hi config allocated).2 } owned' := by
  rcases createChild_cases w hi config allocated with hsame | ⟨hinited, hchild⟩
  · rw [hsame]
    exact ⟨owned, h⟩
  · rw [hchild]
    exact ⟨_, (h.adopt hi hinited).init (Nat.lt_succ_self _) config⟩

theorem store (h : w.Sound owned) {address : Nat} (hw : w.Writable address) (byte : UInt8) :
    Sound { w with tree := { w.tree with heap := { w.tree.heap with
      memory := w.tree.heap.memory.write address [byte] } } } owned := by
  refine ⟨fun j hj => ?_, h.held, h.apart, h.unborn, h.children⟩
  have hwritable : PoolWorld.Writable ⟨(w.tree.view j).within (owned j), w.live j⟩ address := by
    rcases hw with ⟨i, hi, x, hx, hcontains⟩ | houtside
    · by_cases hij : i = j
      · subst hij
        exact .inl ⟨x, hx, hcontains⟩
      · -- the byte is in an extent of another pool
        right
        intro extent hmem hin
        obtain ⟨outer, houter, hwithin⟩ := (h.pool i hi).layout.live_in_extent hx
        have huser := ((Layout.user_within_extent x _).trans hwithin).contains hcontains
        exact Extent.not_contains_of_disjoint (h.owned_apart hi hj hij houter hmem) huser hin
    · exact .inr fun extent hmem => houtside extent (h.owned_sub hj hmem)
  have hsound : PoolWorld.Sound ⟨(w.tree.view j).within (owned j), w.live j⟩ := h.pool j hj
  obtain ⟨hlayout, hheaders⟩ := PoolWorld.write_sound hsound (hwritable.not_headerByte hsound) byte
  exact ⟨hlayout, hheaders⟩

theorem recycled_local (h : w.Sound owned) (hi : i < w.tree.count) (size : Nat) :
    w.tree.foreign i ((w.tree.view i).recycledOwner size) = none := by
  rw [PoolTree.foreign, Option.filter_eq_none_iff]
  intro address howner
  obtain ⟨block, hb, haddress⟩ := (h.pool i hi).recycledOwner_here howner
  simp only [decide_eq_true_eq, not_and, not_forall]
  exact fun _ => ⟨block, hb, fun hne => hne haddress⟩

theorem freed_local (h : w.Sound owned) (hi : i < w.tree.count) {x : Allocation}
    (hx : x ∈ w.live i) : w.tree.foreign i ((w.tree.view i).freedOwner x.ptr) = none := by
  rw [PoolTree.foreign, Option.filter_eq_none_iff]
  intro address howner
  obtain ⟨block, hb, haddress⟩ := (h.pool i hi).freedOwner_here hx howner
  simp only [decide_eq_true_eq, not_and, not_forall]
  exact fun _ => ⟨block, hb, fun hne => hne haddress⟩

theorem free_nothing (w : TreeWorld) {ptr : Nat}
    (hnone : ptr = 0 ∨ (w.tree.pools i).inited = false) : w.tree.free i ptr = w.tree := by
  have hfree : (w.tree.view i).free ptr = w.tree.view i := if_pos hnone
  have howner : (w.tree.view i).freedOwner ptr = none := by
    unfold PoolState.freedOwner
    rw [if_pos]
    rcases hnone with hzero | hinited
    · exact .inl hzero
    · exact .inr (.inl hinited)
  unfold PoolTree.free
  rw [hfree, howner, w.tree.put_view]
  rfl

end Sound

inductive Move (w : TreeWorld) : TreeAction → TreeWorld → Prop
  | quiet {a : TreeAction} {w' : TreeWorld} (hlive : w'.live = w.live)
      (hreached : w'.reached = w.reached)
      (hstats : ∀ j, (w'.tree.pools j).stats = (w.tree.pools j).stats)
      (hcount : w.tree.count ≤ w'.tree.count)
      (hparent : ∀ j < w.tree.count, w'.tree.parent j = w.tree.parent j)
      (hconfig : ∀ j, (w.tree.pools j).inited = true →
        (w'.tree.pools j).config = (w.tree.pools j).config) : Move w a w'
  | alloc {i size alignment hdr : Nat} {answer : Answer} {s : PoolState} (hi : i < w.tree.count)
      (hready : ¬(w.tree.view i).Refuses size) (hrecorded : (w.tree.view i).Recorded s size) :
      Move w (.allocAligned i size alignment answer) { w with
        tree := w.tree.put i s
        live := Function.update w.live i (⟨hdr, size⟩ :: w.live i) }
  | free {i ptr : Nat} {x : Allocation} {rest : List Allocation} {s : PoolState}
      (hi : i < w.tree.count) (hperm : (w.live i).Perm (x :: rest))
      (hreturned : (w.tree.view i).Returned s x.size) :
      Move w (.free i ptr) { w with
        tree := w.tree.put i s
        live := Function.update w.live i rest }

theorem Move.refl (w : TreeWorld) (a : TreeAction) : Move w a w :=
  .quiet rfl rfl (fun _ => rfl) le_rfl (fun _ _ => rfl) fun _ _ => rfl

namespace Sound

theorem allocAligned (h : w.Sound owned) {size alignment : Nat} {answer : Answer}
    (hfits : w.OwnCalls (.allocAligned i size alignment answer))
    (hact : w.act (.allocAligned i size alignment answer) = some w') :
    (∃ owned', w'.Sound owned') ∧ Move w (.allocAligned i size alignment answer) w' := by
  simp only [act] at hact
  split_ifs at hact with hi
  obtain ⟨⟨result, tree⟩, hcall, hnext⟩ := Option.map_eq_some_iff.mp hact
  simp only [PoolTree.allocAligned] at hcall
  split_ifs at hcall
  obtain ⟨⟨result', s⟩, hinner, hresult⟩ := Option.map_eq_some_iff.mp hcall
  simp only [h.recycled_local hi size, PoolTree.writeUsed, Prod.mk.injEq] at hresult
  obtain ⟨rfl, rfl⟩ := hresult
  have hfail : result' = none ∧ s = w.tree.view i →
      (∃ owned', w'.Sound owned') ∧ Move w (.allocAligned i size alignment answer) w' := by
    rintro ⟨rfl, rfl⟩
    rw [w.tree.put_view] at hnext
    cases hnext
    exact ⟨⟨owned, h⟩, .refl w _⟩
  rcases hfits with hrefuses | hsize
  · rw [PoolState.allocAligned_of_refuses hrefuses] at hinner
    cases hinner
    exact hfail ⟨rfl, rfl⟩
  · rcases (h.pool i hi).alloc_shared (fun extent hmem => h.owned_sub hi hmem) hsize hinner with
      hnone | ⟨hdr, own', rfl, hready, hsound, htrade, hbytes, hrecorded⟩
    · exact hfail hnone
    · have hheader : headerFromUser (userFromHeader hdr) = hdr := Nat.add_sub_cancel _ _
      simp only [hheader] at hnext
      cases hnext
      refine ⟨⟨_, h.put hi hsound htrade ?_ fun hinited => hrecorded.inited.trans hinited⟩,
        .alloc hi hready hrecorded⟩
      exact fun x hx => hbytes x fun extent hmem => hx extent (List.mem_append_right _ hmem)

theorem free (h : w.Sound owned) {ptr : Nat} (hown : w.OwnCalls (.free i ptr))
    (hact : w.act (.free i ptr) = some w') :
    (∃ owned', w'.Sound owned') ∧ Move w (.free i ptr) w' := by
  simp only [act] at hact
  split_ifs at hact with hcall
  obtain ⟨hi, -⟩ := hcall
  cases hact
  have hnothing : (ptr = 0 ∨ (w.tree.pools i).inited = false) →
      (w.live i).eraseP (fun x => x.ptr = ptr) = w.live i →
      (∃ owned', Sound { w with
        tree := w.tree.free i ptr
        live := Function.update w.live i ((w.live i).eraseP fun x => x.ptr = ptr) } owned') ∧
      Move w (.free i ptr) { w with
        tree := w.tree.free i ptr
        live := Function.update w.live i ((w.live i).eraseP fun x => x.ptr = ptr) } := by
    intro hnone hlive
    rw [free_nothing w hnone, hlive, Function.update_eq_self]
    exact ⟨⟨owned, h⟩, .refl w _⟩
  rcases hown with rfl | hinited | ⟨x, hx, hptr⟩
  · apply hnothing (.inl rfl)
    apply List.eraseP_of_forall_not
    simp [Allocation.ptr, userFromHeader, sizeofSlabHeader]
  · apply hnothing (.inr hinited)
    rw [((h.pool i hi).layout.unready hinited).1]
    rfl
  · obtain ⟨y, left, right, -, hy, hsplit, herase⟩ :=
      List.exists_of_eraseP hx (p := fun x => x.ptr = ptr) (by simpa using hptr)
    have hyptr : y.ptr = ptr := by simpa using hy
    have hymem : y ∈ w.live i := by simp [hsplit]
    have hperm : (w.live i).Perm (y :: (w.live i).eraseP fun x => x.ptr = ptr) := by
      rw [herase]
      nth_rewrite 1 [hsplit]
      exact List.perm_middle
    obtain ⟨⟨own', hsound, htrade⟩, hbytes, hreturned⟩ :=
      ((h.pool i hi).perm hperm).free_shared (s := w.tree.view i)
    have htree : w.tree.free i ptr = w.tree.put i ((w.tree.view i).free y.ptr) := by
      unfold PoolTree.free
      rw [← hyptr, h.freed_local hi hymem]
      rfl
    rw [htree]
    refine ⟨⟨_, h.put hi hsound htrade ?_ fun hinited => hreturned.inited.trans hinited⟩,
      .free hi hperm hreturned⟩
    exact fun x hx => hbytes x fun extent hmem => hx extent (List.mem_append_left _ hmem)

theorem init_move (w : TreeWorld) (config : PoolConfig) (a : TreeAction) :
    Move w a { w with tree := (w.tree.init i config).2 } :=
  .quiet rfl rfl (fun j => (w.tree.init_frame config j).1) le_rfl (fun _ _ => rfl)
    fun j => (w.tree.init_frame config j).2

theorem grow_frame (h : w.Sound owned) (j : Nat) :
    Function.update w.tree.pools w.tree.count {} j = w.tree.pools j := by
  by_cases hj : j = w.tree.count
  · rw [hj, Function.update_self, (h.unborn _ le_rfl).2]
  · exact Function.update_of_ne hj _ _

theorem create_move (h : w.Sound owned) (a : TreeAction) :
    Move w a { w with tree := w.tree.create } := by
  refine .quiet rfl rfl (fun j => congrArg _ (h.grow_frame j)) (Nat.le_succ _) ?_
    fun j _ => congrArg _ (h.grow_frame j)
  exact fun j hj => Function.update_of_ne (Nat.ne_of_lt hj) _ _

theorem createChild_move (h : w.Sound owned) (hi : i < w.tree.count) (config : PoolConfig)
    (allocated : Bool) (a : TreeAction) :
    Move w a { w with tree := (w.tree.createChild i hi config allocated).2 } := by
  rcases createChild_cases w hi config allocated with hsame | ⟨-, hchild⟩
  · rw [hsame]
    exact .refl w a
  · rw [hchild]
    have hinit := fun j => (w.tree.adopt i hi).init_frame (i := w.tree.count) config j
    have hgrow : ∀ j, (w.tree.adopt i hi).pools j = w.tree.pools j := h.grow_frame
    simp only [hgrow] at hinit
    refine .quiet rfl rfl (fun j => (hinit j).1) (Nat.le_succ _) ?_ fun j => (hinit j).2
    exact fun j hj => Function.update_of_ne (Nat.ne_of_lt hj) _ _

theorem act (h : w.Sound owned) {a : TreeAction} (hown : w.OwnCalls a)
    (hact : w.act a = some w') : (∃ owned', w'.Sound owned') ∧ Move w a w' := by
  cases a with
  | create =>
    cases hact
    exact ⟨⟨_, h.create⟩, h.create_move _⟩
  | init i config =>
    simp only [TreeWorld.act] at hact
    split_ifs at hact with hi
    cases hact
    exact ⟨⟨_, h.init hi config⟩, init_move w config _⟩
  | createChild i config allocated =>
    simp only [TreeWorld.act] at hact
    split_ifs at hact with hi
    cases hact
    exact ⟨h.createChild hi config allocated, h.createChild_move hi config allocated _⟩
  | allocAligned i size alignment answer => exact h.allocAligned hown hact
  | free i ptr => exact h.free hown hact
  | store address byte =>
    simp only [TreeWorld.act] at hact
    split_ifs at hact with hw
    cases hact
    exact ⟨⟨_, h.store hw byte⟩,
      .quiet rfl rfl (fun _ => rfl) le_rfl (fun _ _ => rfl) fun _ _ => rfl⟩

theorem observe (h : w.Sound owned) : w.observe.Sound owned :=
  ⟨h.pool, h.held, h.apart, h.unborn, h.children⟩

theorem start : Sound {} fun _ => [] := by
  refine ⟨?_, .refl _, .nil, fun _ _ => ⟨rfl, rfl⟩, ?_⟩
  · intro i hi
    exact absurd hi (Nat.not_lt_zero i)
  · intro i p hp
    cases hp

end Sound

theorem Sound.step (h : w.Sound owned) {a : TreeAction} (hown : w.OwnCalls a)
    (hstep : w.step a = some w') :
    ∃ mid, w' = mid.observe ∧ (∃ owned', mid.Sound owned') ∧ Move w a mid := by
  obtain ⟨mid, hact, rfl⟩ := Option.map_eq_some_iff.mp hstep
  exact ⟨mid, rfl, h.act hown hact⟩

theorem Sound.of_run {actions : List TreeAction}
    (hmeets : Meets TreeWorld.step OwnCalls {} actions)
    (hrun : runs TreeWorld.step {} actions = some w) : ∃ owned, w.Sound owned := by
  have hstep : ∀ (w : TreeWorld) (a : TreeAction) (w' : TreeWorld), (∃ owned, w.Sound owned) →
      w.OwnCalls a → w.step a = some w' → ∃ owned, w'.Sound owned := by
    rintro w a w' ⟨owned, h⟩ hown hstep
    obtain ⟨mid, rfl, ⟨owned', hmid⟩, -⟩ := h.step hown hstep
    exact ⟨owned', hmid.observe⟩
  exact runs_invariant_of_meets hstep ⟨_, Sound.start⟩ hmeets hrun

end TreeWorld

end Corekit.Memory
