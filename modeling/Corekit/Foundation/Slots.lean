import Mathlib.Algebra.Order.Group.Multiset
import Mathlib.Algebra.BigOperators.Group.List.Basic
import Mathlib.Data.List.Basic

/-! A fixed family of threads as a list of slots: how a quantity summed over
the slots changes when one of them moves. -/
namespace Corekit.Foundation

variable {α M : Type}

section Sum

variable [AddCommMonoid M]

def slotSum (f : Nat → α → M) (slots : List α) : M := (slots.mapIdx f).sum

@[simp] theorem slotSum_nil (f : Nat → α → M) : slotSum f [] = 0 := rfl

theorem slotSum_cons (f : Nat → α → M) (first : α) (rest : List α) :
    slotSum f (first :: rest) = f 0 first + slotSum (fun i => f (i + 1)) rest := by
  simp [slotSum, List.mapIdx_cons]

theorem slotSum_set (f : Nat → α → M) {slots : List α} {i : Nat} {old : α} (new : α)
    (h : slots[i]? = some old) :
    slotSum f (slots.set i new) + f i old = slotSum f slots + f i new := by
  induction slots generalizing i f with
  | nil => simp at h
  | cons first rest ih =>
    cases i with
    | zero =>
      cases Option.some.inj h
      simp only [List.set_cons_zero, slotSum_cons]
      ac_rfl
    | succ i =>
      have hrest := ih (fun j => f (j + 1)) (i := i) (by simpa using h)
      simp only [List.set_cons_succ, slotSum_cons]
      rw [add_assoc, hrest, add_assoc]

theorem slotSum_split (f : Nat → α → M) {slots : List α} {i : Nat} {old : α}
    (h : slots[i]? = some old) :
    ∃ rest, slotSum f slots = f i old + rest ∧
      ∀ new, slotSum f (slots.set i new) = f i new + rest := by
  induction slots generalizing i f with
  | nil => simp at h
  | cons first others ih =>
    cases i with
    | zero =>
      cases Option.some.inj h
      refine ⟨slotSum (fun j => f (j + 1)) others, slotSum_cons _ _ _, fun new => ?_⟩
      rw [List.set_cons_zero, slotSum_cons]
    | succ i =>
      obtain ⟨rest, hrest, hset⟩ := ih (fun j => f (j + 1)) (by simpa using h)
      refine ⟨f 0 first + rest, ?_, fun new => ?_⟩
      · rw [slotSum_cons, hrest, add_left_comm]
      · rw [List.set_cons_succ, slotSum_cons, hset, add_left_comm]

theorem slotSum_congr {f g : Nat → α → M} {slots : List α}
    (h : ∀ i a, slots[i]? = some a → f i a = g i a) : slotSum f slots = slotSum g slots := by
  induction slots generalizing f g with
  | nil => rfl
  | cons first rest ih =>
    rw [slotSum_cons, slotSum_cons, h 0 first rfl, ih fun i a hi => h (i + 1) a (by simpa using hi)]

theorem slotSum_eq_zero {f : Nat → α → M} {slots : List α}
    (h : ∀ i a, slots[i]? = some a → f i a = 0) : slotSum f slots = 0 := by
  induction slots generalizing f with
  | nil => rfl
  | cons first rest ih =>
    rw [slotSum_cons, h 0 first rfl, ih fun i a hi => h (i + 1) a (by simpa using hi), zero_add]

end Sum

/-- A pool that holds what is outside and what the slots hold, when one slot
moves and trades with both. -/
theorem slotSum_balance [AddCancelCommMonoid M] (f : Nat → α → M) {slots : List α} {i : Nat}
    {old new : α} (hold : slots[i]? = some old) {pool pool' outside outside' : M}
    (hpool : pool = outside + slotSum f slots)
    (htrade : pool' + (outside + f i old) = pool + (outside' + f i new)) :
    pool' = outside' + slotSum f (slots.set i new) := by
  apply add_right_cancel (b := outside + f i old)
  calc pool' + (outside + f i old)
      = outside + slotSum f slots + (outside' + f i new) := by rw [htrade, hpool]
    _ = outside + outside' + (slotSum f slots + f i new) := add_add_add_comm _ _ _ _
    _ = outside' + outside + (slotSum f (slots.set i new) + f i old) := by
        rw [slotSum_set f new hold, add_comm outside]
    _ = outside' + slotSum f (slots.set i new) + (outside + f i old) := add_add_add_comm _ _ _ _

theorem slotSum_le {f g : Nat → α → Multiset M} (h : ∀ i a, f i a ≤ g i a) (slots : List α) :
    slotSum f slots ≤ slotSum g slots := by
  induction slots generalizing f g with
  | nil => simp
  | cons first rest ih =>
    rw [slotSum_cons, slotSum_cons]
    exact add_le_add (h 0 first) (ih fun i => h (i + 1))

theorem slotSum_add_le {f g : Nat → α → Multiset M} (h : ∀ i a, f i a ≤ g i a) {slots : List α}
    {i : Nat} {old : α} (hold : slots[i]? = some old) {m : Multiset M}
    (hmore : f i old + m ≤ g i old) : slotSum f slots + m ≤ slotSum g slots := by
  induction slots generalizing f g i with
  | nil => simp at hold
  | cons first rest ih =>
    rw [slotSum_cons, slotSum_cons]
    cases i with
    | zero =>
      cases Option.some.inj hold
      rw [add_right_comm]
      exact add_le_add hmore (slotSum_le (fun i => h (i + 1)) rest)
    | succ i =>
      rw [add_assoc]
      exact add_le_add (h 0 first) (ih (fun i => h (i + 1)) (by simpa using hold) hmore)

theorem mem_slotSum {f : Nat → α → Multiset M} {slots : List α} {x : M} :
    x ∈ slotSum f slots ↔ ∃ i a, slots[i]? = some a ∧ x ∈ f i a := by
  induction slots generalizing f with
  | nil => simp
  | cons first rest ih =>
    rw [slotSum_cons, Multiset.mem_add, ih]
    constructor
    · rintro (h | ⟨i, a, hi, hx⟩)
      · exact ⟨0, first, rfl, h⟩
      · exact ⟨i + 1, a, by simpa using hi, hx⟩
    · rintro ⟨i, a, hi, hx⟩
      cases i with
      | zero =>
        cases Option.some.inj hi
        exact .inl hx
      | succ i => exact .inr ⟨i, a, by simpa using hi, hx⟩

theorem forall_slots_set {P : Nat → α → Prop} {slots : List α} {i : Nat} {new : α}
    (h : ∀ j a, slots[j]? = some a → P j a) (hnew : P i new) :
    ∀ j a, (slots.set i new)[j]? = some a → P j a := by
  intro j a hj
  by_cases hij : i = j
  · subst hij
    rw [List.getElem?_set_self'] at hj
    cases hold : slots[i]? with
    | none => simp [hold] at hj
    | some old =>
      cases (by simpa [hold] using hj : new = a)
      exact hnew
  · rw [List.getElem?_set_ne hij] at hj
    exact h j a hj

end Corekit.Foundation
