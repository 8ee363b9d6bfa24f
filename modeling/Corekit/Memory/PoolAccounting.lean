import Corekit.Memory.PoolTreeRuns

/-! The statistics of a tree of pools. An allocation is added to `bytes_in_use`
of its pool and of the parent, and to no other pool; the peak is raised in the
pool only. So `bytes_in_use` is the live bytes of a pool and its children. -/
namespace Corekit.Memory
open Corekit.Foundation Allocation

namespace PoolTree

variable (t : PoolTree) {i a : Nat}

theorem put_stats (s : PoolState) (a : Nat) :
    ((t.put i s).pools a).stats = if a = i then s.pool.stats
      else if t.parent i = some a then s.parentStats.getD (t.pools a).stats
      else (t.pools a).stats := by
  by_cases ha : a = i
  · rw [if_pos ha, ha, put_pools_self]
  · rw [if_neg ha, put_pools_other t s ha]

theorem view_parentStats (f : AtomicStats → AtomicStats) (hp : t.parent i = some a) :
    ((t.view i).parentStats.map f).getD (t.pools a).stats = f (t.pools a).stats := by
  simp [view, hp]

theorem stats_of_recorded {s : PoolState} {size : Nat} (h : (t.view i).Recorded s size) (a : Nat) :
    ((t.put i s).pools a).stats.bytesInUse =
        (if t.Near a i then ((t.pools a).stats.bytesInUse + size) % 2 ^ 64
          else (t.pools a).stats.bytesInUse) ∧
      ((t.put i s).pools a).stats.bytesPeak =
        (if a = i then max (t.pools a).stats.bytesPeak
            (((t.pools a).stats.bytesInUse + size) % 2 ^ 64)
          else (t.pools a).stats.bytesPeak) ∧
      ((t.put i s).pools a).stats.allocCount =
        (if a = i then ((t.pools a).stats.allocCount + 1) % 2 ^ 64
          else (t.pools a).stats.allocCount) ∧
      ((t.put i s).pools a).stats.freeCount = (t.pools a).stats.freeCount := by
  rw [put_stats]
  by_cases ha : a = i
  · subst ha
    simp only [if_true, Forest.Near, true_or]
    exact ⟨h.bytesInUse, h.bytesPeak, h.allocCount, h.freeCount⟩
  · by_cases hp : t.parent i = some a
    · simp only [if_neg ha, Forest.Near, hp, or_true, if_true, h.parentStats,
        view_parentStats t _ hp]
      exact ⟨rfl, rfl, rfl, rfl⟩
    · have hnear : ¬t.Near a i := fun hnear => hnear.elim (fun h => ha h.symm) hp
      simp only [if_neg ha, if_neg hp, if_neg hnear, and_self]

theorem stats_of_returned {s : PoolState} {size : Nat} (h : (t.view i).Returned s size) (a : Nat) :
    ((t.put i s).pools a).stats.bytesInUse =
        (if t.Near a i then ((t.pools a).stats.subInUse size).bytesInUse
          else (t.pools a).stats.bytesInUse) ∧
      ((t.put i s).pools a).stats.bytesPeak = (t.pools a).stats.bytesPeak ∧
      ((t.put i s).pools a).stats.allocCount = (t.pools a).stats.allocCount ∧
      ((t.put i s).pools a).stats.freeCount =
        (if a = i then ((t.pools a).stats.freeCount + 1) % 2 ^ 64
          else (t.pools a).stats.freeCount) := by
  rw [put_stats]
  by_cases ha : a = i
  · subst ha
    simp only [if_true, Forest.Near, true_or, h.stats]
    exact ⟨rfl, rfl, rfl, rfl⟩
  · by_cases hp : t.parent i = some a
    · simp only [if_neg ha, Forest.Near, hp, or_true, if_true, h.parentStats,
        view_parentStats t _ hp, true_and]
      exact ⟨rfl, rfl, rfl⟩
    · have hnear : ¬t.Near a i := fun hnear => hnear.elim (fun h => ha h.symm) hp
      simp only [if_neg ha, if_neg hp, if_neg hnear, and_self]

theorem put_config {s : PoolState} (h : s.pool.config = (t.pools i).config) (a : Nat) :
    ((t.put i s).pools a).config = (t.pools a).config := by
  by_cases ha : a = i
  · subst ha
    rw [put_pools_self, h]
  · rw [put_pools_other t s ha]

end PoolTree

namespace TreeWorld

variable {w w' mid : TreeWorld} {owned owned' : Nat → List Extent} {i a size : Nat}

/-- The live bytes that a pool has handed out itself. -/
def ownBytes (w : TreeWorld) (i : Nat) : Nat := ((w.live i).map Allocation.size).sum

def nearBytes (w : TreeWorld) (a : Nat) : Nat :=
  gather (w.tree.Near a) w.tree.count w.ownBytes

def treeBytes (w : TreeWorld) (a : Nat) : Nat :=
  gather (fun i => a ∈ w.tree.lineage i) w.tree.count w.ownBytes

def maxBytes (w : TreeWorld) (a : Nat) : Nat := (w.tree.pools a).config.maxBytes.toNat

namespace Sound

theorem live_room (h : w.Sound owned) :
    (((List.range w.tree.count).flatMap w.live).map
      fun x => sizeofSlabHeader + x.size).sum ≤ 2 ^ 64 := by
  have hextent : ∀ i < w.tree.count, ∀ x ∈ w.live i, ∃ extent ∈ owned i,
      Extent.Within ⟨x.header, sizeofSlabHeader + x.size⟩ extent := by
    intro i hi x hx
    obtain ⟨extent, hmem, hwithin⟩ := (h.pool i hi).layout.live_in_extent hx
    exact ⟨extent, hmem, (Extent.within_of_le _ (Nat.le_add_right _ _)).trans hwithin⟩
  have hapart : (((List.range w.tree.count).flatMap w.live).map
      fun x => (⟨x.header, sizeofSlabHeader + x.size⟩ : Extent)).Pairwise Extent.Disjoint := by
    rw [List.pairwise_map, List.pairwise_flatMap]
    constructor
    · intro i hi
      have hlayout := (h.pool i (List.mem_range.mp hi)).layout
      refine hlayout.live_nodup.pairwise_of_forall_ne fun x hx y hy hne => ?_
      exact (hlayout.live_disjoint hx hy hne).mono (Extent.within_of_le _ (Nat.le_add_right _ _))
        (Extent.within_of_le _ (Nat.le_add_right _ _))
    · refine List.nodup_range.pairwise_of_forall_ne fun i hi j hj hne x hx y hy => ?_
      obtain ⟨left, hleft, hwithin⟩ := hextent i (List.mem_range.mp hi) x hx
      obtain ⟨right, hright, hwithin'⟩ := hextent j (List.mem_range.mp hj) y hy
      exact (h.owned_apart (List.mem_range.mp hi) (List.mem_range.mp hj) hne hleft hright).mono
        hwithin hwithin'
  have hroom := @Extent.sum_len_le _ hapart (2 ^ 64) ?_
  · simpa [List.map_map, Function.comp_def] using hroom
  · intro extent hmem
    obtain ⟨x, hx, rfl⟩ := List.mem_map.mp hmem
    obtain ⟨i, hi, hx⟩ := List.mem_flatMap.mp hx
    obtain ⟨outer, houter, hwithin⟩ := hextent i (List.mem_range.mp hi) x hx
    have hspace := ((h.pool i (List.mem_range.mp hi)).layout.room outer houter).2.2
    exact hwithin.2.trans hspace

theorem sum_header_add (l : List Allocation) :
    (l.map fun x => sizeofSlabHeader + x.size).sum =
      sizeofSlabHeader * l.length + (l.map Allocation.size).sum := by
  induction l with
  | nil => rfl
  | cons x rest ih =>
    simp only [List.map_cons, List.sum_cons, List.length_cons, ih]
    ring

theorem allBytes_eq (w : TreeWorld) :
    gather (fun _ => True) w.tree.count w.ownBytes =
      (((List.range w.tree.count).flatMap w.live).map Allocation.size).sum := by
  rw [gather_true, List.map_flatMap, List.flatMap, List.sum_flatten, List.map_map]
  rfl

theorem gather_lt (h : w.Sound owned) (P : Nat → Prop) [DecidablePred P] :
    gather P w.tree.count w.ownBytes < 2 ^ 64 := by
  have hroom := h.live_room
  have hle : gather P w.tree.count w.ownBytes ≤ gather (fun _ => True) w.tree.count w.ownBytes :=
    gather_le fun _ _ _ => trivial
  rw [allBytes_eq] at hle
  rw [sum_header_add] at hroom
  cases hlive : (List.range w.tree.count).flatMap w.live with
  | nil =>
    rw [hlive] at hle
    exact hle.trans_lt (by decide)
  | cons x rest =>
    rw [hlive, List.length_cons] at hroom
    rw [hlive] at hle
    unfold sizeofSlabHeader at hroom
    omega

theorem live_length_lt (h : w.Sound owned) (hi : i < w.tree.count) :
    (w.live i).length < 2 ^ 64 := by
  have hroom := h.live_room
  rw [sum_header_add] at hroom
  have hle : (w.live i).length ≤ ((List.range w.tree.count).flatMap w.live).length := by
    rw [List.length_flatMap]
    exact List.single_le_sum (by simp) _ (List.mem_map_of_mem (List.mem_range.mpr hi))
  unfold sizeofSlabHeader at hroom
  omega

end Sound

section Moves

variable (P : Nat → Prop) [DecidablePred P]

theorem ownBytes_alloc (w : TreeWorld) (hdr size : Nat) (tree : PoolTree) :
    ownBytes { w with
      tree := tree
      live := Function.update w.live i (⟨hdr, size⟩ :: w.live i) } =
      Function.update w.ownBytes i (w.ownBytes i + size) := by
  funext j
  by_cases hj : j = i
  · subst hj
    simp only [ownBytes, Function.update_self, List.map_cons, List.sum_cons]
    exact Nat.add_comm _ _
  · simp only [ownBytes, Function.update_of_ne hj]

theorem ownBytes_free (w : TreeWorld) {x : Allocation} {rest : List Allocation}
    (hperm : (w.live i).Perm (x :: rest)) (tree : PoolTree) :
    ownBytes { w with tree := tree, live := Function.update w.live i rest } =
      Function.update w.ownBytes i (w.ownBytes i - x.size) ∧ x.size ≤ w.ownBytes i := by
  have hsum : w.ownBytes i = x.size + (rest.map Allocation.size).sum := (hperm.map _).sum_eq
  refine ⟨?_, by omega⟩
  funext j
  by_cases hj : j = i
  · subst hj
    simp only [ownBytes, Function.update_self]
    change _ = w.ownBytes j - x.size
    omega
  · simp only [ownBytes, Function.update_of_ne hj]

theorem gather_alloc (w : TreeWorld) (hi : i < w.tree.count) (hdr size : Nat) (tree : PoolTree) :
    gather P w.tree.count (ownBytes { w with
      tree := tree
      live := Function.update w.live i (⟨hdr, size⟩ :: w.live i) }) =
      gather P w.tree.count w.ownBytes + if P i then size else 0 := by
  rw [ownBytes_alloc]
  have hupdate := gather_update (P := P) (f := w.ownBytes) hi (w.ownBytes i + size)
  split_ifs at hupdate ⊢ <;> omega

theorem gather_free (w : TreeWorld) (hi : i < w.tree.count) {x : Allocation}
    {rest : List Allocation} (hperm : (w.live i).Perm (x :: rest)) (tree : PoolTree) :
    gather P w.tree.count
        (ownBytes { w with tree := tree, live := Function.update w.live i rest }) +
      (if P i then x.size else 0) = gather P w.tree.count w.ownBytes := by
  obtain ⟨hown, hle⟩ := ownBytes_free w hperm tree
  rw [hown]
  have hupdate := gather_update (P := P) (f := w.ownBytes) hi (w.ownBytes i - x.size)
  split_ifs at hupdate ⊢ <;> omega

end Moves

section Quiet

variable (h : w.Sound owned) (hlive : w'.live = w.live) (hcount : w.tree.count ≤ w'.tree.count)
  (hparent : ∀ j < w.tree.count, w'.tree.parent j = w.tree.parent j)

include h hlive hcount

theorem gather_quiet (P : Nat → Prop) [DecidablePred P] :
    gather P w'.tree.count w'.ownBytes = gather P w.tree.count w.ownBytes := by
  have hown : w'.ownBytes = w.ownBytes := by
    funext j
    rw [ownBytes, hlive, ownBytes]
  rw [hown]
  apply gather_grow hcount
  intro j hj
  rw [ownBytes, (h.unborn j hj).1]
  rfl

include hparent

theorem nearBytes_quiet (a : Nat) : w'.nearBytes a = w.nearBytes a := by
  rw [nearBytes, gather_quiet h hlive hcount]
  apply gather_congr
  intro j hj
  have hnear : w'.tree.Near a j ↔ w.tree.Near a j := by rw [Forest.Near, hparent j hj, Forest.Near]
  exact if_congr hnear rfl rfl

theorem treeBytes_quiet (a : Nat) : w'.treeBytes a = w.treeBytes a := by
  rw [treeBytes, gather_quiet h hlive hcount]
  apply gather_congr
  intro j hj
  rw [Forest.lineage_congr fun k hk => hparent k (by omega)]

end Quiet

/-- What the statistics of a pool count. -/
structure Counted (w : TreeWorld) : Prop where
  inUse : ∀ a, (w.tree.pools a).stats.bytesInUse = w.nearBytes a
  calls : ∀ a, (w.tree.pools a).stats.allocCount =
    ((w.tree.pools a).stats.freeCount + (w.live a).length) % 2 ^ 64

namespace Counted

theorem size_le (hcounted : w.Counted) (hi : i < w.tree.count) {x : Allocation}
    (hx : x ∈ w.live i) (hnear : w.tree.Near a i) :
    x.size ≤ (w.tree.pools a).stats.bytesInUse := by
  rw [hcounted.inUse]
  have hown : x.size ≤ w.ownBytes i :=
    List.single_le_sum (fun _ _ => Nat.zero_le _) _ (List.mem_map_of_mem hx)
  exact hown.trans (le_gather hi hnear)

/-- The subtraction in `Free` does not stop at zero early. -/
theorem subInUse_eq {stats : AtomicStats} (h : size ≤ stats.bytesInUse) :
    (stats.subInUse size).bytesInUse = stats.bytesInUse - size := by
  unfold AtomicStats.subInUse
  dsimp only
  split_ifs <;> omega

theorem start : Counted {} := by
  constructor
  · intro a
    rfl
  · intro a
    rfl

theorem move (hcounted : w.Counted) (h : w.Sound owned) (hmid : mid.Sound owned')
    {act : TreeAction} (hmove : Move w act mid) : mid.Counted := by
  cases hmove with
  | quiet hlive hreached hstats hcount hparent hconfig =>
    constructor
    · intro a
      rw [hstats, hcounted.inUse, nearBytes_quiet h hlive hcount hparent]
    · intro a
      rw [hstats, hlive]
      exact hcounted.calls a
  | @alloc i size alignment hdr answer s hi hready hrecorded =>
    have hstats := w.tree.stats_of_recorded hrecorded
    constructor
    · intro a
      have hsum := gather_alloc (w.tree.Near a) w hi hdr size (w.tree.put i s)
      have hlt := hmid.gather_lt (w.tree.Near a)
      rw [(hstats a).1, hcounted.inUse]
      change _ = gather (w.tree.Near a) w.tree.count _
      change gather (w.tree.Near a) w.tree.count _ < 2 ^ 64 at hlt
      rw [hsum] at hlt ⊢
      unfold nearBytes
      split_ifs at hlt ⊢
      · exact Nat.mod_eq_of_lt hlt
      · rfl
    · intro a
      rw [(hstats a).2.2.1, (hstats a).2.2.2, hcounted.calls a]
      dsimp only
      split_ifs with ha
      · subst ha
        rw [Function.update_self, List.length_cons]
        omega
      · rw [Function.update_of_ne ha]
  | @free i ptr x rest s hi hperm hreturned =>
    have hstats := w.tree.stats_of_returned hreturned
    have hx : x ∈ w.live i := hperm.mem_iff.mpr List.mem_cons_self
    constructor
    · intro a
      have hsum := gather_free (w.tree.Near a) w hi hperm (w.tree.put i s)
      rw [(hstats a).1]
      change _ = gather (w.tree.Near a) w.tree.count _
      by_cases hnear : w.tree.Near a i
      · rw [if_pos hnear] at hsum ⊢
        rw [subInUse_eq (hcounted.size_le hi hx hnear), hcounted.inUse]
        change gather (w.tree.Near a) w.tree.count w.ownBytes - x.size = _
        omega
      · rw [if_neg hnear] at hsum ⊢
        rw [hcounted.inUse]
        exact hsum.symm
    · intro a
      rw [(hstats a).2.2.1, (hstats a).2.2.2, hcounted.calls a]
      dsimp only
      split_ifs with ha
      · subst ha
        rw [Function.update_self, hperm.length_eq, List.length_cons]
        omega
      · rw [Function.update_of_ne ha]

theorem observe (hcounted : w.Counted) : w.observe.Counted := ⟨hcounted.inUse, hcounted.calls⟩

theorem calls_sub (hcounted : w.Counted) (h : w.Sound owned) (ha : a < w.tree.count) :
    (BitVec.ofNat 64 (w.tree.pools a).stats.allocCount -
      BitVec.ofNat 64 (w.tree.pools a).stats.freeCount).toNat = (w.live a).length := by
  have hlt := h.live_length_lt ha
  have hcalls := hcounted.calls a
  rw [BitVec.toNat_sub, BitVec.toNat_ofNat, BitVec.toNat_ofNat]
  omega

end Counted

/-- `Stats()` counts the live bytes of the whole subtree, and remembers the most
it has counted. -/
structure Exact (w : TreeWorld) : Prop where
  inUse : ∀ a < w.tree.count, (w.tree.pools a).stats.bytesInUse = w.treeBytes a
  peak : ∀ a < w.tree.count, (w.tree.pools a).stats.bytesPeak = w.reached a

/-- An allocation that is not refused is made by a pool without grandparent, and
takes its parent not above the parent's peak. -/
def Tracks (w : TreeWorld) : TreeAction → Prop
  | .allocAligned i size _ _ => (w.tree.view i).Refuses size ∨
      ∀ p ∈ w.tree.parent i, w.tree.parent p = none ∧
        (w.tree.pools p).stats.bytesInUse + size ≤ (w.tree.pools p).stats.bytesPeak
  | _ => True

instance (w : TreeWorld) : DecidablePred w.Tracks
  | .allocAligned .. => inferInstanceAs (Decidable (_ ∨ ∀ p ∈ _, _))
  | .free .. => .isTrue trivial
  | .create => .isTrue trivial
  | .init .. => .isTrue trivial
  | .createChild .. => .isTrue trivial
  | .store .. => .isTrue trivial

structure Tracked (w : TreeWorld) : Prop where
  flat : ∀ i p, w.live i ≠ [] → w.tree.parent i = some p → w.tree.parent p = none
  peak : ∀ a, (w.tree.pools a).stats.bytesPeak = w.reached a
  below : ∀ a, (w.tree.pools a).stats.bytesInUse ≤ w.reached a

namespace Tracked

theorem treeBytes_eq (htracked : w.Tracked) (a : Nat) : w.treeBytes a = w.nearBytes a := by
  apply gather_congr
  intro i _
  by_cases hlive : w.live i = []
  · have hown : w.ownBytes i = 0 := by
      rw [ownBytes, hlive]
      rfl
    rw [hown, ite_self, ite_self]
  · have hiff : a ∈ w.tree.lineage i ↔ w.tree.Near a i :=
      ⟨fun hmem => w.tree.near_of_mem_lineage hmem fun p hp => htracked.flat i p hlive hp,
        w.tree.mem_lineage_of_near⟩
    exact if_congr hiff rfl rfl

theorem exact (htracked : w.Tracked) (hcounted : w.Counted) : w.Exact :=
  ⟨fun a _ => (hcounted.inUse a).trans (htracked.treeBytes_eq a).symm,
    fun a _ => htracked.peak a⟩

theorem observe (hflat : ∀ i p, mid.live i ≠ [] → mid.tree.parent i = some p →
      mid.tree.parent p = none)
    (hpeak : ∀ a, (mid.tree.pools a).stats.bytesPeak =
      max (mid.reached a) (mid.tree.pools a).stats.bytesInUse) : mid.observe.Tracked :=
  ⟨hflat, hpeak, fun _ => le_max_right _ _⟩

theorem move (htracked : w.Tracked) (h : w.Sound owned) {act : TreeAction} (htracks : w.Tracks act)
    (hmove : Move w act mid) : mid.observe.Tracked := by
  have hmax : ∀ a, max (w.reached a) (w.tree.pools a).stats.bytesInUse = w.reached a :=
    fun a => max_eq_left (htracked.below a)
  cases hmove with
  | quiet hlive hreached hstats hcount hparent hconfig =>
    apply observe
    · intro i p hi hp
      rw [hlive] at hi
      have hlt : i < w.tree.count := by
        by_contra hge
        exact hi (h.unborn i (Nat.not_lt.mp hge)).1
      rw [hparent i hlt] at hp
      rw [hparent p ((w.tree.older i p hp).trans hlt)]
      exact htracked.flat i p hi hp
    · intro a
      rw [hstats, hreached, hmax]
      exact htracked.peak a
  | @alloc i size alignment hdr answer s hi hready hrecorded =>
    have hstats := w.tree.stats_of_recorded hrecorded
    have hroom := htracks.resolve_left hready
    apply observe
    · intro j p hj hp
      by_cases hji : j = i
      · subst hji
        exact (hroom p hp).1
      · refine htracked.flat j p (fun hnil => hj ?_) hp
        rw [← hnil]
        exact Function.update_of_ne hji _ _
    · intro a
      obtain ⟨hbytes, hpeak, -, -⟩ := hstats a
      rw [hbytes, hpeak, htracked.peak a]
      change _ = max (w.reached a) _
      by_cases ha : a = i
      · rw [if_pos ha, if_pos (.inl ha.symm)]
      · rw [if_neg ha]
        by_cases hp : w.tree.parent i = some a
        · rw [if_pos (.inr hp)]
          have hle := (hroom a hp).2
          rw [htracked.peak a] at hle
          exact (max_eq_left ((Nat.mod_le _ _).trans hle)).symm
        · rw [if_neg fun hnear => hnear.elim (fun heq => ha heq.symm) hp, hmax]
  | @free i ptr x rest s hi hperm hreturned =>
    have hstats := w.tree.stats_of_returned hreturned
    apply observe
    · intro j p hj hp
      refine htracked.flat j p (fun hnil => hj ?_) hp
      by_cases hji : j = i
      · subst hji
        rw [hnil] at hperm
        exact absurd hperm.length_eq (by simp)
      · rw [← hnil]
        exact Function.update_of_ne hji _ _
    · intro a
      obtain ⟨hbytes, hpeak, -, -⟩ := hstats a
      rw [hbytes, hpeak, htracked.peak a]
      change _ = max (w.reached a) _
      have hsub : ((w.tree.pools a).stats.subInUse x.size).bytesInUse ≤
          (w.tree.pools a).stats.bytesInUse := by
        unfold AtomicStats.subInUse
        dsimp only
        split_ifs <;> omega
      split_ifs
      · exact (max_eq_left (hsub.trans (htracked.below a))).symm
      · exact (hmax a).symm

theorem start : Tracked {} := ⟨fun _ _ h => absurd rfl h, fun _ => rfl, fun _ => le_rfl⟩

theorem of_run {actions : List TreeAction}
    (hmeets : Meets TreeWorld.step (fun w a => w.OwnCalls a ∧ w.Tracks a) {} actions)
    (hrun : runs TreeWorld.step {} actions = some w) :
    (∃ owned, w.Sound owned) ∧ w.Counted ∧ w.Tracked := by
  have hstep : ∀ (w : TreeWorld) (a : TreeAction) (w' : TreeWorld),
      ((∃ owned, w.Sound owned) ∧ w.Counted ∧ w.Tracked) → (w.OwnCalls a ∧ w.Tracks a) →
      w.step a = some w' → (∃ owned, w'.Sound owned) ∧ w'.Counted ∧ w'.Tracked := by
    rintro w a w' ⟨⟨owned, h⟩, hcounted, htracked⟩ ⟨hown, htracks⟩ hstep
    obtain ⟨mid, rfl, ⟨owned', hmid⟩, hmove⟩ := h.step hown hstep
    exact ⟨⟨owned', hmid.observe⟩, (hcounted.move h hmid hmove).observe,
      htracked.move h htracks hmove⟩
  exact runs_invariant_of_meets hstep ⟨⟨_, Sound.start⟩, .start, .start⟩ hmeets hrun

end Tracked

/-- An allocation that hands out a pointer is counted in the whole subtree only
if it tracks. -/
theorem Exact.tracks (hexact : w.Exact) (h : w.Sound owned) (hcounted : w.Counted)
    {alignment : Nat} {answer : Answer}
    (hown : w.OwnCalls (.allocAligned i size alignment answer))
    (hstep : w.step (.allocAligned i size alignment answer) = some w') (hnew : w'.live ≠ w.live)
    (hafter : w'.Exact) : w.Tracks (.allocAligned i size alignment answer) := by
  obtain ⟨mid, rfl, ⟨owned', hmid⟩, hmove⟩ := h.step hown hstep
  have hcounted' := hcounted.move h hmid hmove
  cases hmove with
  | quiet hlive => exact absurd hlive hnew
  | @alloc i size alignment hdr answer s hi hready hrecorded =>
    have hstats := w.tree.stats_of_recorded hrecorded
    have hpos : 0 < size := Nat.pos_of_ne_zero fun hzero => hready (.inl hzero)
    refine .inr fun p hp => ?_
    have hp : w.tree.parent i = some p := hp
    have hpi := w.tree.older i p hp
    constructor
    · -- a grandparent would not hear of the allocation
      by_contra hgrand
      obtain ⟨g, hg⟩ := Option.ne_none_iff_exists'.mp hgrand
      have hgp := w.tree.older p g hg
      have hnear : ¬w.tree.Near g i := by
        rintro (heq | heq)
        · omega
        · rw [hp, Option.some.injEq] at heq
          omega
      have hmem : g ∈ w.tree.lineage i := by
        rw [w.tree.lineage_child hp, w.tree.lineage_child hg]
        exact List.mem_cons_of_mem _ (List.mem_cons_of_mem _ (w.tree.self_mem_lineage g))
      have hbefore := hexact.inUse g (by omega)
      have hthen := hafter.inUse g (by change g < w.tree.count; omega)
      have htree := gather_alloc (fun j => g ∈ w.tree.lineage j) w hi hdr size (w.tree.put i s)
      rw [if_pos hmem] at htree
      have hbytes := (hstats g).1
      rw [if_neg hnear] at hbytes
      have hthen' : (w.tree.pools g).stats.bytesInUse = w.treeBytes g + size :=
        hbytes.symm.trans (hthen.trans htree)
      omega
    · have hpeak := hafter.peak p (by change p < w.tree.count; omega)
      have hkept := (hstats p).2.1
      rw [if_neg (by omega)] at hkept
      have hbytes := hcounted'.inUse p
      have hsum := gather_alloc (w.tree.Near p) w hi hdr size (w.tree.put i s)
      rw [if_pos (.inr hp)] at hsum
      have hthen : ((w.tree.put i s).pools p).stats.bytesInUse =
          (w.tree.pools p).stats.bytesInUse + size := by
        rw [hcounted.inUse p]
        exact hbytes.trans hsum
      have hreached : (w.tree.pools p).stats.bytesPeak =
          max (w.reached p) ((w.tree.put i s).pools p).stats.bytesInUse :=
        hkept.symm.trans hpeak
      rw [hreached, hthen]
      exact le_max_right _ _

end TreeWorld

/-- Histories in which pools without grandparent allocate, and never take their
parent above its peak: `bytes_in_use` is the live bytes of the subtree,
`bytes_peak` the most it has been, the calls balance, and no subtraction in
`Free` stops at zero early. Of the allocations that come next and hand out a
pointer, exactly the others break this. -/
theorem pool_accounting_is_exact (actions : List TreeAction) (w : TreeWorld)
    (hmeets : Meets TreeWorld.step (fun w a => w.OwnCalls a ∧ w.Tracks a) {} actions)
    (hrun : runs TreeWorld.step {} actions = some w) :
    w.Exact ∧
    (∀ a < w.tree.count,
      (w.tree.pools a).stats.bytesInUse ≤ (w.tree.pools a).stats.bytesPeak ∧
      (BitVec.ofNat 64 (w.tree.pools a).stats.allocCount -
        BitVec.ofNat 64 (w.tree.pools a).stats.freeCount).toNat = (w.live a).length) ∧
    (∀ i < w.tree.count, ∀ x ∈ w.live i, ∀ a, a = i ∨ w.tree.parent i = some a →
      x.size ≤ (w.tree.pools a).stats.bytesInUse) ∧
    (∀ i size alignment answer w', w.OwnCalls (.allocAligned i size alignment answer) →
      w.step (.allocAligned i size alignment answer) = some w' → w'.live ≠ w.live →
      (w'.Exact ↔ w.Tracks (.allocAligned i size alignment answer))) := by
  obtain ⟨⟨owned, h⟩, hcounted, htracked⟩ := TreeWorld.Tracked.of_run hmeets hrun
  have hexact := htracked.exact hcounted
  refine ⟨hexact, ?_, ?_, ?_⟩
  · intro a ha
    refine ⟨?_, hcounted.calls_sub h ha⟩
    rw [htracked.peak a]
    exact htracked.below a
  · intro i hi x hx a hnear
    exact hcounted.size_le hi hx (hnear.imp_left Eq.symm)
  · intro i size alignment answer w' hown hstep hnew
    constructor
    · exact hexact.tracks h hcounted hown hstep hnew
    · intro htracks
      obtain ⟨mid, rfl, ⟨owned', hmid⟩, hmove⟩ := h.step hown hstep
      exact (htracked.move h htracks hmove).exact (hcounted.move h hmid hmove).observe

/-- The parent has had 100 bytes in use, so the 50 of the child stay below its
peak. -/
theorem pool_accounting_is_exact_child :
    ∃ w, runs TreeWorld.step {}
        [.create, .init 0 {}, .createChild 0 {} true, .allocAligned 0 100 8 ⟨some 65536, 100⟩,
          .free 0 65560, .allocAligned 1 50 8 ⟨some 131072, 200⟩] = some w ∧
      (w.tree.pools 0).stats.bytesInUse = 50 ∧ (w.tree.pools 0).stats.bytesPeak = w.reached 0 := by
  obtain ⟨w, hrun, hw⟩ := Option.map_eq_some_iff.mp
    (show (runs TreeWorld.step {}
        [.create, .init 0 {}, .createChild 0 {} true, .allocAligned 0 100 8 ⟨some 65536, 100⟩,
          .free 0 65560, .allocAligned 1 50 8 ⟨some 131072, 200⟩]).map
        (fun w => (w.tree.count, w.treeBytes 0)) = some (2, 50) by decide +kernel)
  simp only [Prod.mk.injEq] at hw
  have hexact := (pool_accounting_is_exact _ w (.of_decide (by decide +kernel)) hrun).1
  exact ⟨w, hrun, (hexact.inUse 0 (by omega)).trans hw.2, hexact.peak 0 (by omega)⟩

/-- A grandchild allocates 8 bytes: the grandparent does not count them, and the
peak of the parent, which does, stays at zero. -/
theorem grandparent_misses_bytes :
    ∃ w, runs TreeWorld.step {}
        [.create, .init 0 {}, .createChild 0 {} true, .createChild 1 {} true,
          .allocAligned 2 8 8 ⟨some 65536, 100⟩] = some w ∧
      w.treeBytes 0 = 8 ∧ (w.tree.pools 0).stats.bytesInUse = 0 ∧
      (w.tree.pools 1).stats.bytesInUse = 8 ∧ (w.tree.pools 1).stats.bytesPeak = 0 := by
  obtain ⟨w, hrun, hw⟩ := Option.map_eq_some_iff.mp
    (show (runs TreeWorld.step {}
        [.create, .init 0 {}, .createChild 0 {} true, .createChild 1 {} true,
          .allocAligned 2 8 8 ⟨some 65536, 100⟩]).map
        (fun w => decide (w.treeBytes 0 = 8 ∧ (w.tree.pools 0).stats.bytesInUse = 0 ∧
          (w.tree.pools 1).stats.bytesInUse = 8 ∧ (w.tree.pools 1).stats.bytesPeak = 0)) =
        some true by decide +kernel)
  exact ⟨w, hrun, of_decide_eq_true hw⟩

end Corekit.Memory
