import Mathlib.Algebra.BigOperators.Group.Finset.Basic
import Mathlib.Algebra.Order.BigOperators.Group.Finset
import Mathlib.Data.Nat.Basic
import Mathlib.Algebra.GroupWithZero.Nat

/-! Forests of parent pointers. The nodes are numbered in the order they are
made, so that a parent has a smaller number than its children. Sums over the
nodes that meet a condition (a node and its children, a node and everything
below it) follow the changes at single nodes. -/
namespace Corekit.Foundation

structure Forest where
  parent : Nat → Option Nat := fun _ => none
  older : ∀ i p, parent i = some p → p < i := by simp

namespace Forest

def ancestors (parent : Nat → Option Nat) : Nat → Nat → List Nat
  | 0, _ => []
  | fuel + 1, i =>
    match parent i with
    | none => []
    | some p => p :: ancestors parent fuel p

variable (forest : Forest)

/-- A node and its ancestors. A node has no more ancestors than its number. -/
def lineage (i : Nat) : List Nat := i :: ancestors forest.parent i i

theorem ancestors_eq {fuel i : Nat} (h : i ≤ fuel) :
    ancestors forest.parent fuel i = ancestors forest.parent i i := by
  induction fuel using Nat.strong_induction_on generalizing i with
  | _ fuel ih =>
    cases fuel with
    | zero => rw [Nat.le_zero.mp h]
    | succ fuel =>
      cases hp : forest.parent i with
      | none => cases i <;> simp [ancestors, hp]
      | some p =>
        have hlt := forest.older i p hp
        obtain ⟨i, rfl⟩ := Nat.exists_eq_succ_of_ne_zero (by omega : i ≠ 0)
        simp only [ancestors, hp]
        rw [ih fuel (by omega) (by omega), ih i (by omega) (by omega)]

theorem lineage_root {i : Nat} (h : forest.parent i = none) : forest.lineage i = [i] := by
  cases i <;> simp [lineage, ancestors, h]

theorem lineage_child {i p : Nat} (h : forest.parent i = some p) :
    forest.lineage i = i :: forest.lineage p := by
  have hlt := forest.older i p h
  obtain ⟨i, rfl⟩ := Nat.exists_eq_succ_of_ne_zero (by omega : i ≠ 0)
  simp only [lineage, ancestors, h]
  rw [forest.ancestors_eq (by omega)]

theorem self_mem_lineage (i : Nat) : i ∈ forest.lineage i := List.mem_cons_self

theorem le_of_mem_lineage {a i : Nat} (h : a ∈ forest.lineage i) : a ≤ i := by
  induction i using Nat.strong_induction_on with
  | _ i ih =>
    cases hp : forest.parent i with
    | none =>
      rw [forest.lineage_root hp, List.mem_singleton] at h
      exact h.le
    | some p =>
      rw [forest.lineage_child hp, List.mem_cons] at h
      have hlt := forest.older i p hp
      rcases h with rfl | h
      · exact le_rfl
      · exact (ih p hlt h).trans hlt.le

theorem child_of_mem_lineage {a i : Nat} (h : a ∈ forest.lineage i) (hne : a ≠ i) :
    ∃ j ≤ i, forest.parent j = some a := by
  induction i using Nat.strong_induction_on with
  | _ i ih =>
    cases hp : forest.parent i with
    | none =>
      rw [forest.lineage_root hp, List.mem_singleton] at h
      exact absurd h hne
    | some p =>
      rw [forest.lineage_child hp, List.mem_cons] at h
      have hlt := forest.older i p hp
      by_cases hap : a = p
      · exact ⟨i, le_rfl, hap ▸ hp⟩
      · obtain ⟨j, hj, hchild⟩ := ih p hlt (h.resolve_left hne) hap
        exact ⟨j, hj.trans hlt.le, hchild⟩

theorem lineage_congr {left right : Forest} {i : Nat}
    (h : ∀ j ≤ i, left.parent j = right.parent j) : left.lineage i = right.lineage i := by
  induction i using Nat.strong_induction_on with
  | _ i ih =>
    cases hp : right.parent i with
    | none => rw [lineage_root left ((h i le_rfl).trans hp), lineage_root right hp]
    | some p =>
      have hlt := right.older i p hp
      rw [lineage_child left ((h i le_rfl).trans hp), lineage_child right hp,
        ih p hlt fun j hj => h j (by omega)]

/-- A node itself or a child of it. -/
def Near (a i : Nat) : Prop := i = a ∨ forest.parent i = some a

instance (a i : Nat) : Decidable (forest.Near a i) := inferInstanceAs (Decidable (_ ∨ _))

theorem mem_lineage_of_near {a i : Nat} (h : forest.Near a i) : a ∈ forest.lineage i := by
  rcases h with rfl | h
  · exact forest.self_mem_lineage _
  · rw [forest.lineage_child h]
    exact List.mem_cons_of_mem _ (forest.self_mem_lineage _)

theorem near_of_mem_lineage {a i : Nat} (h : a ∈ forest.lineage i)
    (hflat : ∀ p, forest.parent i = some p → forest.parent p = none) : forest.Near a i := by
  cases hp : forest.parent i with
  | none =>
    rw [forest.lineage_root hp, List.mem_singleton] at h
    exact .inl h.symm
  | some p =>
    rw [forest.lineage_child hp, forest.lineage_root (hflat p hp)] at h
    rcases List.mem_cons.mp h with rfl | h
    · exact .inl rfl
    · exact .inr (by rw [hp, List.mem_singleton.mp h])

end Forest

section Gather

variable {P Q : Nat → Prop} [DecidablePred P] [DecidablePred Q] {count : Nat} {f g : Nat → Nat}

def gather (P : Nat → Prop) [DecidablePred P] (count : Nat) (f : Nat → Nat) : Nat :=
  ∑ i ∈ Finset.range count with P i, f i

theorem gather_congr
    (h : ∀ i < count, (if P i then f i else 0) = if Q i then g i else 0) :
    gather P count f = gather Q count g := by
  unfold gather
  rw [Finset.sum_filter, Finset.sum_filter]
  exact Finset.sum_congr rfl fun i hi => h i (Finset.mem_range.mp hi)

theorem gather_le (hP : ∀ i < count, P i → Q i) : gather P count f ≤ gather Q count f := by
  apply Finset.sum_le_sum_of_subset
  intro i hi
  obtain ⟨hlt, hPi⟩ := Finset.mem_filter.mp hi
  exact Finset.mem_filter.mpr ⟨hlt, hP i (Finset.mem_range.mp hlt) hPi⟩

theorem le_gather {i : Nat} (hi : i < count) (hP : P i) : f i ≤ gather P count f :=
  Finset.single_le_sum_of_canonicallyOrdered
    (Finset.mem_filter.mpr ⟨Finset.mem_range.mpr hi, hP⟩)

theorem gather_eq_zero (h : ∀ i < count, P i → f i = 0) : gather P count f = 0 := by
  apply Finset.sum_eq_zero
  intro i hi
  obtain ⟨hrange, hP⟩ := Finset.mem_filter.mp hi
  exact h i (Finset.mem_range.mp hrange) hP

theorem gather_grow {count' : Nat} (hle : count ≤ count') (h : ∀ i, count ≤ i → f i = 0) :
    gather P count' f = gather P count f := by
  induction count', hle using Nat.le_induction with
  | base => rfl
  | succ count' hle ih =>
    rw [← ih]
    unfold gather
    rw [Finset.sum_filter, Finset.sum_range_succ, h count' hle, ite_self, add_zero,
      ← Finset.sum_filter]

theorem gather_true : gather (fun _ => True) count f = ((List.range count).map f).sum := by
  unfold gather
  rw [Finset.filter_true, Finset.sum_eq_multiset_sum, Finset.range_val, Multiset.range,
    Multiset.map_coe, Multiset.sum_coe]

theorem gather_update {i : Nat} (hi : i < count) (value : Nat) :
    gather P count (Function.update f i value) + (if P i then f i else 0) =
      gather P count f + if P i then value else 0 := by
  unfold gather
  have hsplit : ∀ h : Nat → Nat, (∑ j ∈ Finset.range count with P j, h j) =
      (if P i then h i else 0) + ∑ j ∈ (Finset.range count).erase i, if P j then h j else 0 := by
    intro h
    rw [Finset.sum_filter]
    exact (Finset.add_sum_erase _ (fun j => if P j then h j else 0)
      (Finset.mem_range.mpr hi)).symm
  rw [hsplit, hsplit f, Function.update_self]
  have hrest : (∑ j ∈ (Finset.range count).erase i, if P j then Function.update f i value j else 0) =
      ∑ j ∈ (Finset.range count).erase i, if P j then f j else 0 := by
    apply Finset.sum_congr rfl
    intro j hj
    rw [Function.update_of_ne (Finset.ne_of_mem_erase hj)]
  rw [hrest]
  omega

end Gather

end Corekit.Foundation
