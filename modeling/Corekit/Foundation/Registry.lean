import Mathlib.Logic.Function.Basic
import Mathlib.Data.Option.Basic

/-! Names that parties bind to objects of their own. A name is bound by its first
claimant and freed by whoever asks, so that only the protocol of the parties
keeps one of them from freeing another's name. Objects are numbered as they are
made, and no object is made twice. -/
namespace Corekit.Foundation

structure Registry (ι ν : Type) where
  names : ν → Option Nat
  holds : ι → Option (ν × Nat)
  made : Nat

namespace Registry

variable {ι ν : Type} {r r' : Registry ι ν} {i j : ι} {n : ν} {o : Nat}

/-- The bindings are those of the holders, and every holder has an object to itself. -/
structure Exclusive (r : Registry ι ν) : Prop where
  bound : ∀ n o, r.names n = some o ↔ ∃ i, r.holds i = some (n, o)
  single : ∀ i j n m o, r.holds i = some (n, o) → r.holds j = some (m, o) → i = j
  made : ∀ i n o, r.holds i = some (n, o) → o < r.made

inductive Step [DecidableEq ι] [DecidableEq ν] (r : Registry ι ν) : Registry ι ν → Prop where
  | keep : Step r r
  | claim (i : ι) (n : ν) (empty : r.holds i = none) (free : r.names n = none) :
      Step r ⟨Function.update r.names n (some r.made),
        Function.update r.holds i (some (n, r.made)), r.made + 1⟩
  | release (i : ι) (n : ν) (o : Nat) (holder : r.holds i = some (n, o)) :
      Step r ⟨Function.update r.names n none, Function.update r.holds i none, r.made⟩

theorem Exclusive.start : (⟨fun _ => none, fun _ => none, 0⟩ : Registry ι ν).Exclusive :=
  ⟨by simp, by simp, by simp⟩

theorem Exclusive.unique (h : r.Exclusive) {o' : Nat} (hi : r.holds i = some (n, o))
    (hj : r.holds j = some (n, o')) : i = j ∧ o = o' := by
  have hbound := (h.bound n o).mpr ⟨i, hi⟩
  have hbound' := (h.bound n o').mpr ⟨j, hj⟩
  obtain rfl : o = o' := Option.some.inj (hbound.symm.trans hbound')
  exact ⟨h.single i j n n o hi hj, rfl⟩

section Step

variable [DecidableEq ι] [DecidableEq ν]

theorem update_eq_some {α β : Type} [DecidableEq α] {f : α → Option β} {a b : α}
    {value : Option β} {x : β} :
    Function.update f a value b = some x ↔ b = a ∧ value = some x ∨ b ≠ a ∧ f b = some x := by
  by_cases h : b = a <;> simp [h]

theorem Step.exclusive (hstep : Step r r') (h : r.Exclusive) : r'.Exclusive := by
  cases hstep with
  | keep => exact h
  | claim i n empty free =>
    -- the new object is nobody's, and the name was nobody's
    have hfresh : ∀ j m, r.holds j ≠ some (m, r.made) := fun j m hj =>
      absurd (h.made j m _ hj) (Nat.lt_irrefl _)
    have hname : ∀ j o, r.holds j ≠ some (n, o) := fun j o hj => by
      have := (h.bound n o).mpr ⟨j, hj⟩
      rw [free] at this
      cases this
    refine ⟨fun m o => ?_, fun j k m l o hj hk => ?_, fun j m o hj => ?_⟩
    · simp only [update_eq_some, h.bound m o, Option.some.injEq, Prod.mk.injEq]
      constructor
      · rintro (⟨rfl, rfl⟩ | ⟨hm, j, hj⟩)
        · exact ⟨i, .inl ⟨rfl, rfl, rfl⟩⟩
        · exact ⟨j, .inr ⟨fun heq => by simp [heq, empty] at hj, hj⟩⟩
      · rintro ⟨j, ⟨rfl, rfl, rfl⟩ | ⟨hji, hj⟩⟩
        · exact .inl ⟨rfl, rfl⟩
        · exact .inr ⟨fun heq => hname j o (heq ▸ hj), j, hj⟩
    · simp only [update_eq_some, Option.some.injEq, Prod.mk.injEq] at hj hk
      rcases hj with ⟨rfl, rfl, rfl⟩ | ⟨-, hj⟩ <;> rcases hk with ⟨rfl, rfl, hk⟩ | ⟨-, hk⟩
      · rfl
      · exact (hfresh k l hk).elim
      · exact (hfresh j m (hk ▸ hj)).elim
      · exact h.single j k m l o hj hk
    · simp only [update_eq_some, Option.some.injEq, Prod.mk.injEq] at hj
      rcases hj with ⟨rfl, rfl, rfl⟩ | ⟨-, hj⟩
      · exact Nat.lt_succ_self _
      · exact Nat.lt_succ_of_lt (h.made j m o hj)
  | release i n o holder =>
    refine ⟨fun m p => ?_, fun j k m l p hj hk => ?_, fun j m p hj => ?_⟩
    · simp only [update_eq_some, h.bound m p, reduceCtorEq, and_false, false_or]
      constructor
      · rintro ⟨hm, j, hj⟩
        refine ⟨j, fun heq => hm ?_, hj⟩
        rw [heq, holder, Option.some.injEq, Prod.mk.injEq] at hj
        exact hj.1.symm
      · rintro ⟨j, hji, hj⟩
        exact ⟨fun heq => hji (h.unique (heq ▸ hj) holder).1, j, hj⟩
    · simp only [update_eq_some, reduceCtorEq, and_false, false_or] at hj hk
      exact h.single j k m l p hj.2 hk.2
    · simp only [update_eq_some, reduceCtorEq, and_false, false_or] at hj
      exact h.made j m p hj.2

theorem Step.bound_before (hstep : Step r r') (ho : o < r.made) (hn : r'.names n = some o) :
    r.names n = some o := by
  cases hstep with
  | keep => exact hn
  | claim i m empty free =>
    rcases update_eq_some.mp hn with ⟨-, hnew⟩ | ⟨-, hn⟩
    · cases Option.some.inj hnew
      exact absurd ho (Nat.lt_irrefl _)
    · exact hn
  | release i m p holder =>
    rcases update_eq_some.mp hn with ⟨-, hnew⟩ | ⟨-, hn⟩
    · cases hnew
    · exact hn

end Step

end Registry

end Corekit.Foundation
