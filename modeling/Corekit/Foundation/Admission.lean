import Mathlib.Algebra.BigOperators.Group.List.Basic
import Mathlib.Algebra.Order.BigOperators.Group.List
import Mathlib.Algebra.Order.Ring.Nat
import Mathlib.Data.List.Basic

/-! Parties that share a limited quantity. A party compares with the limit first
and takes later; the comparison sees what has been taken, and not what others
have been promised. -/
namespace Corekit.Foundation

namespace Admission

variable {limit used used' : Nat} {promised : List Nat} {i old amount : Nat}

structure Bounded (limit used : Nat) (promised : List Nat) : Prop where
  each : ∀ amount ∈ promised, amount ≤ limit
  total : used + promised.sum ≤ promised.length * limit

theorem sum_set (h : promised[i]? = some old) (amount : Nat) :
    (promised.set i amount).sum + old = promised.sum + amount := by
  obtain ⟨hi, rfl⟩ := List.getElem?_eq_some_iff.mp h
  rw [(List.set_perm_cons_eraseIdx hi amount).sum_eq,
    ← (List.getElem_cons_eraseIdx_perm hi).sum_eq, List.sum_cons, List.sum_cons]
  omega

theorem Bounded.others (h : Bounded limit used promised) (hold : promised[i]? = some old) :
    promised.sum + limit ≤ old + promised.length * limit := by
  obtain ⟨hi, rfl⟩ := List.getElem?_eq_some_iff.mp hold
  have hperm := List.getElem_cons_eraseIdx_perm hi
  have hrest : (promised.eraseIdx i).sum ≤ (promised.eraseIdx i).length * limit := by
    have hle := List.sum_le_card_nsmul (promised.eraseIdx i) limit fun amount hmem =>
      h.each amount (List.mem_of_mem_eraseIdx hmem)
    simpa using hle
  have hlength := hperm.length_eq
  rw [← hperm.sum_eq, List.sum_cons, ← hlength, List.length_cons, Nat.succ_mul]
  omega

theorem Bounded.admit (h : Bounded limit used promised) (hold : promised[i]? = some old)
    (hfits : used + amount ≤ limit) : Bounded limit used (promised.set i amount) := by
  constructor
  · intro other hmem
    rcases List.mem_or_eq_of_mem_set hmem with hmem | rfl
    · exact h.each other hmem
    · omega
  · have hothers := h.others hold
    have hsum := sum_set hold amount
    rw [List.length_set]
    omega

theorem Bounded.settle (h : Bounded limit used promised) (hold : promised[i]? = some old)
    (hle : amount ≤ old) (hused : used' + amount ≤ used + old) :
    Bounded limit used' (promised.set i amount) := by
  constructor
  · intro other hmem
    rcases List.mem_or_eq_of_mem_set hmem with hmem | rfl
    · exact h.each other hmem
    · exact hle.trans (h.each old (List.mem_of_getElem? hold))
  · have hsum := sum_set hold amount
    have htotal := h.total
    rw [List.length_set]
    omega

theorem Bounded.start (limit count : Nat) : Bounded limit 0 (List.replicate count 0) := by
  constructor
  · intro amount hmem
    rw [List.eq_of_mem_replicate hmem]
    exact Nat.zero_le _
  · simp

theorem Bounded.taken_le (h : Bounded limit used promised) : used ≤ promised.length * limit :=
  (Nat.le_add_right _ _).trans h.total

theorem Bounded.add_le (h : Bounded limit used promised) (hmem : amount ∈ promised) :
    used + amount ≤ promised.length * limit :=
  (Nat.add_le_add_left (List.single_le_sum (by simp) _ hmem) _).trans h.total

end Admission

end Corekit.Foundation
