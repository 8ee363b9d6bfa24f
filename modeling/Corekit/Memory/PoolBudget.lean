import Corekit.Memory.PoolAccounting

/-! The limits of a tree of pools. `AllocAligned` compares with the limit of its
own pool only, and with what that pool and its children have in use. -/
namespace Corekit.Memory
open Corekit.Foundation Allocation

namespace TreeWorld

variable {w w' mid : TreeWorld} {owned owned' : Nat → List Extent} {i size alignment : Nat}
  {answer : Answer}

/-- No pool has more live bytes at and below it than its limit. -/
def WithinBudgets (w : TreeWorld) : Prop :=
  ∀ a < w.tree.count, 0 < w.maxBytes a → w.treeBytes a ≤ w.maxBytes a

/-- The request fits under the limit of the pool and of every ancestor. -/
def Fits (w : TreeWorld) (i size : Nat) : Prop :=
  ∀ a ∈ w.tree.lineage i, 0 < w.maxBytes a → w.treeBytes a + size ≤ w.maxBytes a

instance (w : TreeWorld) (i size : Nat) : Decidable (w.Fits i size) :=
  inferInstanceAs (Decidable (∀ a ∈ _, _))

/-- The live bytes of the pool and its children, and the size, in 64 bits, are
above the pool's limit. -/
def OverNear (w : TreeWorld) (i size : Nat) : Prop :=
  0 < w.maxBytes i ∧ w.maxBytes i < (w.nearBytes i + size) % 2 ^ 64

instance (w : TreeWorld) (i size : Nat) : Decidable (w.OverNear i size) :=
  inferInstanceAs (Decidable (_ ∧ _))

/-- A request that the pool and its children leave room for fits under the limit
of the whole subtree and of every ancestor, and leaves room for header and guard. -/
def Budgeted (w : TreeWorld) : TreeAction → Prop
  | .allocAligned i size _ _ =>
    size = 0 ∨ (w.tree.pools i).inited = false ∨ w.OverNear i size ∨
      (w.Fits i size ∧ sizeofSlabHeader + size + kGuardSize < 2 ^ 64)
  | .free i ptr => w.OwnCalls (.free i ptr)
  | _ => True

instance (w : TreeWorld) : DecidablePred w.Budgeted
  | .allocAligned .. => inferInstanceAs (Decidable (_ ∨ _ ∨ _ ∨ _ ∧ _))
  | .free i ptr => inferInstanceAs (Decidable (w.OwnCalls (.free i ptr)))
  | .create => .isTrue trivial
  | .init .. => .isTrue trivial
  | .createChild .. => .isTrue trivial
  | .store .. => .isTrue trivial

theorem Counted.refuses_iff (hcounted : w.Counted) :
    (w.tree.view i).Refuses size ↔
      size = 0 ∨ (w.tree.pools i).inited = false ∨ w.OverNear i size := by
  unfold PoolState.Refuses OverNear
  rw [← hcounted.inUse i]
  rfl

theorem Counted.budgeted_iff (hcounted : w.Counted) :
    w.Budgeted (.allocAligned i size alignment answer) ↔ (w.tree.view i).Refuses size ∨
      (w.Fits i size ∧ sizeofSlabHeader + size + kGuardSize < 2 ^ 64) := by
  rw [hcounted.refuses_iff, or_assoc, or_assoc]
  rfl

theorem Counted.ownCalls (hcounted : w.Counted) {a : TreeAction} (h : w.Budgeted a) :
    w.OwnCalls a := by
  cases a with
  | allocAligned i size alignment answer =>
    exact (hcounted.budgeted_iff.mp h).imp_right And.right
  | free i ptr => exact h
  | _ => trivial

theorem treeBytes_alloc (w : TreeWorld) (hi : i < w.tree.count) (hdr size : Nat) (s : PoolState)
    (a : Nat) :
    treeBytes { w with
      tree := w.tree.put i s
      live := Function.update w.live i (⟨hdr, size⟩ :: w.live i) } a =
      w.treeBytes a + if a ∈ w.tree.lineage i then size else 0 :=
  gather_alloc (fun j => a ∈ w.tree.lineage j) w hi hdr size (w.tree.put i s)

theorem Sound.treeBytes_unready (h : w.Sound owned) {a : Nat}
    (hinited : (w.tree.pools a).inited = false) : w.treeBytes a = 0 := by
  apply gather_eq_zero
  intro j hj hmem
  by_cases haj : a = j
  · subst haj
    rw [ownBytes, ((h.pool a hj).layout.unready hinited).1]
    rfl
  · obtain ⟨child, -, hchild⟩ := w.tree.child_of_mem_lineage hmem haj
    have hready := (h.children child a hchild).2
    rw [hinited] at hready
    cases hready

/-- An allocation that hands out a pointer keeps the budgets exactly if it fits. -/
theorem WithinBudgets.alloc_iff (hbudgets : w.WithinBudgets) (hi : i < w.tree.count)
    {hdr : Nat} {s : PoolState} (hconfig : s.pool.config = (w.tree.pools i).config) :
    WithinBudgets { w with
      tree := w.tree.put i s
      live := Function.update w.live i (⟨hdr, size⟩ :: w.live i) } ↔ w.Fits i size := by
  have hmax : ∀ a, maxBytes { w with
      tree := w.tree.put i s
      live := Function.update w.live i (⟨hdr, size⟩ :: w.live i) } a = w.maxBytes a :=
    fun a => congrArg (fun config => config.maxBytes.toNat) (w.tree.put_config hconfig a)
  unfold WithinBudgets
  simp only [hmax, treeBytes_alloc w hi]
  constructor
  · intro hafter a hmem hlimit
    have hbound := hafter a ((w.tree.le_of_mem_lineage hmem).trans_lt hi) hlimit
    rwa [if_pos hmem] at hbound
  · intro hfits a ha hlimit
    split_ifs with hmem
    · exact hfits a hmem hlimit
    · exact hbudgets a ha hlimit

theorem WithinBudgets.move (hbudgets : w.WithinBudgets) (h : w.Sound owned)
    (hcounted : w.Counted) {a : TreeAction} (hbudgeted : w.Budgeted a) (hmove : Move w a mid) :
    mid.WithinBudgets := by
  cases hmove with
  | quiet hlive hreached hstats hcount hparent hconfig =>
    intro b hb hlimit
    rw [treeBytes_quiet h hlive hcount hparent]
    cases hinited : (w.tree.pools b).inited with
    | false =>
      rw [h.treeBytes_unready hinited]
      exact Nat.zero_le _
    | true =>
      have hlt : b < w.tree.count := by
        by_contra hge
        rw [(h.unborn b (Nat.not_lt.mp hge)).2] at hinited
        cases hinited
      have hmax : mid.maxBytes b = w.maxBytes b :=
        congrArg (fun config => config.maxBytes.toNat) (hconfig b hinited)
      rw [hmax] at hlimit ⊢
      exact hbudgets b hlt hlimit
  | alloc hi hready hrecorded =>
    have hfits := ((hcounted.budgeted_iff.mp hbudgeted).resolve_left hready).1
    exact (hbudgets.alloc_iff hi hrecorded.config).mpr hfits
  | @free i ptr x rest s hi hperm hreturned =>
    intro b hb hlimit
    have hsum := gather_free (fun j => b ∈ w.tree.lineage j) w hi hperm (w.tree.put i s)
    have hle : treeBytes { w with
        tree := w.tree.put i s
        live := Function.update w.live i rest } b ≤ w.treeBytes b :=
      Nat.le.intro hsum
    have hmax : maxBytes { w with
        tree := w.tree.put i s
        live := Function.update w.live i rest } b = w.maxBytes b :=
      congrArg (fun config => config.maxBytes.toNat) (w.tree.put_config hreturned.config b)
    rw [hmax] at hlimit ⊢
    exact hle.trans (hbudgets b hb hlimit)

theorem WithinBudgets.of_run {actions : List TreeAction}
    (hmeets : Meets TreeWorld.step Budgeted {} actions)
    (hrun : runs TreeWorld.step {} actions = some w) :
    (∃ owned, w.Sound owned) ∧ w.Counted ∧ w.WithinBudgets := by
  have hstep : ∀ (w : TreeWorld) (a : TreeAction) (w' : TreeWorld),
      ((∃ owned, w.Sound owned) ∧ w.Counted ∧ w.WithinBudgets) → w.Budgeted a →
      w.step a = some w' → (∃ owned, w'.Sound owned) ∧ w'.Counted ∧ w'.WithinBudgets := by
    rintro w a w' ⟨⟨owned, h⟩, hcounted, hbudgets⟩ hbudgeted hstep
    obtain ⟨mid, rfl, ⟨owned', hmid⟩, hmove⟩ := h.step (hcounted.ownCalls hbudgeted) hstep
    have hafter : mid.WithinBudgets := hbudgets.move h hcounted hbudgeted hmove
    exact ⟨⟨owned', hmid.observe⟩, (hcounted.move h hmid hmove).observe, hafter⟩
  refine runs_invariant_of_meets hstep ⟨⟨_, Sound.start⟩, .start, ?_⟩ hmeets hrun
  exact fun a ha => absurd ha (Nat.not_lt_zero a)

theorem Sound.alloc_refused (h : w.Sound owned) (hi : i < w.tree.count)
    (hrefuses : (w.tree.view i).Refuses size) {result : Option Nat} {tree : PoolTree}
    (hcall : w.tree.allocAligned i size alignment answer = some (result, tree)) :
    result = none ∧ tree = w.tree := by
  simp only [PoolTree.allocAligned, PoolState.allocAligned_of_refuses hrefuses] at hcall
  split_ifs at hcall
  simp only [h.recycled_local hi size, w.tree.put_view, PoolTree.writeUsed, Option.map_some,
    Option.some.injEq, Prod.mk.injEq] at hcall
  exact ⟨hcall.1.symm, hcall.2.symm⟩

/-- A pool without children under ancestors without limits keeps its budget by
its own test, as long as the sum in it does not wrap. -/
theorem budgeted_of_leaf (halone : ∀ j < w.tree.count, w.tree.parent j ≠ some i)
    (hancestors : ∀ a ∈ w.tree.lineage i, a ≠ i → w.maxBytes a = 0)
    (hsize : sizeofSlabHeader + size + kGuardSize < 2 ^ 64)
    (hsum : w.nearBytes i + size < 2 ^ 64) :
    w.Budgeted (.allocAligned i size alignment answer) := by
  have htree : w.treeBytes i = w.nearBytes i := by
    apply gather_congr
    intro j hj
    have hiff : i ∈ w.tree.lineage j ↔ w.tree.Near i j := by
      refine ⟨fun hmem => ?_, w.tree.mem_lineage_of_near⟩
      by_contra hnear
      obtain ⟨child, hlt, hchild⟩ := w.tree.child_of_mem_lineage hmem fun heq =>
        hnear (.inl heq.symm)
      exact halone child (hlt.trans_lt hj) hchild
    exact if_congr hiff rfl rfl
  by_cases hover : w.OverNear i size
  · exact .inr (.inr (.inl hover))
  · refine .inr (.inr (.inr ⟨fun a hmem hlimit => ?_, hsize⟩))
    by_cases ha : a = i
    · subst ha
      rw [OverNear, Nat.mod_eq_of_lt hsum] at hover
      rw [htree]
      omega
    · have := hancestors a hmem ha
      omega

end TreeWorld

/-- Histories in which every request that a pool and its children leave room for
fits under the limits of the whole subtree and of the ancestors: no limit is
exceeded by what is live below it, and a request that would exceed one is answered
with `NULL` and changes nothing. Of the requests that come next and get memory,
exactly the others exceed a limit. -/
theorem pool_budgets_hold (actions : List TreeAction) (w : TreeWorld)
    (hmeets : Meets TreeWorld.step TreeWorld.Budgeted {} actions)
    (hrun : runs TreeWorld.step {} actions = some w) :
    w.WithinBudgets ∧
    (∀ i < w.tree.count, ∀ size alignment answer,
      w.Budgeted (.allocAligned i size alignment answer) → ¬w.Fits i size →
      ∀ result tree, w.tree.allocAligned i size alignment answer = some (result, tree) →
        result = none ∧ tree = w.tree) ∧
    (∀ i size alignment answer w', sizeofSlabHeader + size + kGuardSize < 2 ^ 64 →
      w.step (.allocAligned i size alignment answer) = some w' → w'.live ≠ w.live →
      (w'.WithinBudgets ↔ w.Budgeted (.allocAligned i size alignment answer))) := by
  obtain ⟨⟨owned, h⟩, hcounted, hbudgets⟩ := TreeWorld.WithinBudgets.of_run hmeets hrun
  refine ⟨hbudgets, ?_, ?_⟩
  · intro i hi size alignment answer hbudgeted hover result tree hcall
    rcases hcounted.budgeted_iff.mp hbudgeted with hrefuses | hfits
    · exact h.alloc_refused hi hrefuses hcall
    · exact absurd hfits.1 hover
  · intro i size alignment answer w' hsize hstep hnew
    rw [hcounted.budgeted_iff]
    have hown : w.OwnCalls (.allocAligned i size alignment answer) := .inr hsize
    obtain ⟨mid, rfl, -, hmove⟩ := h.step hown hstep
    cases hmove with
    | quiet hlive => exact absurd hlive hnew
    | alloc hi hready hrecorded =>
      refine (hbudgets.alloc_iff hi hrecorded.config).trans ?_
      exact ⟨fun hfits => .inr ⟨hfits, hsize⟩, fun h => (h.resolve_left hready).1⟩

/-- A pool with a limit of 100 bytes has handed out 60 and refuses 50 more. -/
theorem pool_budgets_hold_one :
    ∃ w, runs TreeWorld.step {}
        [.create, .init 0 { maxBytes := 100 }, .allocAligned 0 60 8 ⟨some 65536, 100⟩] = some w ∧
      w.treeBytes 0 ≤ 100 ∧
      ∀ answer result tree, w.tree.allocAligned 0 50 8 answer = some (result, tree) →
        result = none ∧ tree = w.tree := by
  obtain ⟨w, hrun, hw⟩ := Option.map_eq_some_iff.mp
    (show (runs TreeWorld.step {}
        [.create, .init 0 { maxBytes := 100 }, .allocAligned 0 60 8 ⟨some 65536, 100⟩]).map
        (fun w => decide (w.tree.count = 1 ∧ w.maxBytes 0 = 100 ∧ ¬w.Fits 0 50 ∧
          w.OverNear 0 50)) = some true by decide +kernel)
  obtain ⟨hcount, hmax, hover, hnear⟩ := of_decide_eq_true hw
  obtain ⟨hbudgets, hrefused, -⟩ := pool_budgets_hold _ w (.of_decide (by decide +kernel)) hrun
  refine ⟨w, hrun, ?_, fun answer => ?_⟩
  · have := hbudgets 0 (by omega) (by omega)
    omega
  · exact hrefused 0 (by omega) 50 8 answer (.inr (.inr (.inl hnear))) hover

/-- A child without limit allocates 200 bytes under a parent with a limit of 100. -/
theorem child_exceeds_parent_limit :
    ∃ w, runs TreeWorld.step {}
        [.create, .init 0 { maxBytes := 100 }, .createChild 0 {} true,
          .allocAligned 1 200 8 ⟨some 65536, 100⟩] = some w ∧
      w.live 1 = [⟨65536, 200⟩] ∧ w.treeBytes 0 = 200 ∧ w.maxBytes 0 = 100 := by
  obtain ⟨w, hrun, hw⟩ := Option.map_eq_some_iff.mp
    (show (runs TreeWorld.step {}
        [.create, .init 0 { maxBytes := 100 }, .createChild 0 {} true,
          .allocAligned 1 200 8 ⟨some 65536, 100⟩]).map
        (fun w => decide (w.live 1 = [⟨65536, 200⟩] ∧ w.treeBytes 0 = 200 ∧
          w.maxBytes 0 = 100)) = some true by decide +kernel)
  exact ⟨w, hrun, of_decide_eq_true hw⟩

end Corekit.Memory
