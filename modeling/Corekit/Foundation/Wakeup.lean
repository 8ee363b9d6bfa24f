import Mathlib.Data.Finset.Card
import Mathlib.Data.Finset.SDiff
import Mathlib.Data.Finset.Range

/-! Consumers that sleep on a condition variable while there is nothing to take.
A producer first adds its item and later, outside the lock, notifies one sleeper;
which one, and who wakes up unasked, is not under anyone's control. -/
namespace Corekit.Foundation

/-- The items to take, the notifications still to come, and the consumers that
take nothing at the moment, of which some are asleep. -/
@[ext] structure Signals (ω : Type) where
  items : Nat
  owed : Nat
  idle : Finset ω
  asleep : Finset ω

namespace Signals

variable {ω : Type} [DecidableEq ω] {s s' : Signals ω}

def awake (s : Signals ω) : Finset ω := s.idle \ s.asleep

inductive Step (s : Signals ω) : Signals ω → Prop where
  | quiet : Step s s
  | produce : Step s { s with items := s.items + 1, owed := s.owed + 1 }
  | take {items : Nat} (w : ω) (some_item : s.items = items + 1) (looks : w ∈ s.awake) :
      Step s { s with items := items, idle := s.idle.erase w }
  | retire (w : ω) (no_item : s.items = 0) (looks : w ∈ s.awake) :
      Step s { s with idle := s.idle.erase w }
  | comeBack (w : ω) (busy : w ∉ s.idle) : Step s { s with idle := insert w s.idle }
  | sleep (w : ω) (no_item : s.items = 0) (looks : w ∈ s.awake) :
      Step s { s with asleep := insert w s.asleep }
  | notifyOne {owed : Nat} (w : ω) (due : s.owed = owed + 1) (sleeps : w ∈ s.asleep) :
      Step s { s with owed := owed, asleep := s.asleep.erase w }
  | notifyNobody {owed : Nat} (due : s.owed = owed + 1) (none_asleep : s.asleep = ∅) :
      Step s { s with owed := owed }
  | notifyAll : Step s { s with asleep := ∅ }
  | wake (w : ω) (sleeps : w ∈ s.asleep) : Step s { s with asleep := s.asleep.erase w }

/-- Whoever sleeps leaves no item uncovered: for each of them a notification is
due or a consumer is about to look. -/
structure Covered (s : Signals ω) : Prop where
  sleepers : s.asleep ⊆ s.idle
  enough : s.asleep.Nonempty → s.items ≤ s.owed + s.awake.card

theorem Covered.of_all_awake (h : s.asleep = ∅) : s.Covered := by
  constructor
  · simp [h]
  · simp [h]

theorem card_awake_erase {w : ω} (hs : s.asleep ⊆ s.idle) (hw : w ∈ s.asleep) :
    (awake { s with asleep := s.asleep.erase w }).card = s.awake.card + 1 := by
  have hnot : w ∉ s.idle \ s.asleep := fun h => (Finset.mem_sdiff.mp h).2 hw
  simp only [awake]
  rw [Finset.sdiff_erase (hs hw), Finset.card_insert_of_notMem hnot]

theorem Step.covered (h : Step s s') (hs : s.Covered) : s'.Covered := by
  cases h with
  | quiet => exact hs
  | produce =>
    refine ⟨hs.sleepers, fun hasleep => ?_⟩
    have := hs.enough hasleep
    simp only [awake] at this ⊢
    omega
  | take w some_item looks =>
    obtain ⟨hidle, hawake⟩ := Finset.mem_sdiff.mp looks
    refine ⟨fun v hv => ?_, fun hasleep => ?_⟩
    · exact Finset.mem_erase.mpr ⟨fun hvw => hawake (hvw ▸ hv), hs.sleepers hv⟩
    · have hcard := Finset.card_erase_of_mem looks
      have hpos := Finset.card_pos.mpr ⟨w, looks⟩
      have := hs.enough hasleep
      simp only [awake, Finset.erase_sdiff_comm] at *
      omega
  | retire w no_item looks =>
    obtain ⟨hidle, hawake⟩ := Finset.mem_sdiff.mp looks
    refine ⟨fun v hv => ?_, fun _ => ?_⟩
    · exact Finset.mem_erase.mpr ⟨fun hvw => hawake (hvw ▸ hv), hs.sleepers hv⟩
    · simp [no_item]
  | comeBack w busy =>
    refine ⟨fun v hv => Finset.mem_insert_of_mem (hs.sleepers hv), fun hasleep => ?_⟩
    have hle : s.awake.card ≤ (insert w s.idle \ s.asleep).card :=
      Finset.card_le_card (Finset.sdiff_subset_sdiff (Finset.subset_insert _ _) le_rfl)
    exact (hs.enough hasleep).trans (Nat.add_le_add_left hle _)
  | sleep w no_item looks =>
    refine ⟨Finset.insert_subset (Finset.mem_sdiff.mp looks).1 hs.sleepers, fun _ => ?_⟩
    simp [no_item]
  | notifyOne w due sleeps =>
    refine ⟨(Finset.erase_subset _ _).trans hs.sleepers, fun _ => ?_⟩
    have hcard := card_awake_erase hs.sleepers sleeps
    have := hs.enough ⟨w, sleeps⟩
    simp only [awake] at *
    omega
  | notifyNobody due none_asleep => exact .of_all_awake none_asleep
  | notifyAll => exact .of_all_awake rfl
  | wake w sleeps =>
    refine ⟨(Finset.erase_subset _ _).trans hs.sleepers, fun _ => ?_⟩
    have hcard := card_awake_erase hs.sleepers sleeps
    have := hs.enough ⟨w, sleeps⟩
    simp only [awake] at *
    omega

/-- An item that nobody is notified of is seen by a consumer that is awake. -/
theorem Covered.awake_of_item (hs : s.Covered) (howed : s.owed = 0)
    (hasleep : s.asleep.Nonempty) (hitems : 0 < s.items) : s.awake.Nonempty := by
  have := hs.enough hasleep
  exact Finset.card_pos.mp (by omega)

end Signals

section Slots

variable {α : Type} {p : α → Bool} {slots : List α} {i : Nat} {old new : α}

def slotsWhere (p : α → Bool) (slots : List α) : Finset Nat :=
  (Finset.range slots.length).filter fun i => (slots[i]?).any p

@[simp] theorem mem_slotsWhere : i ∈ slotsWhere p slots ↔ ∃ a, slots[i]? = some a ∧ p a = true := by
  simp only [slotsWhere, Finset.mem_filter, Finset.mem_range, Option.any_eq_true]
  constructor
  · exact fun h => h.2
  · rintro ⟨a, ha, hp⟩
    exact ⟨(List.getElem?_eq_some_iff.mp ha).1, a, ha, hp⟩

theorem slotsWhere_set_true (hold : slots[i]? = some old) (hnew : p new = true) :
    slotsWhere p (slots.set i new) = insert i (slotsWhere p slots) := by
  have hlt := (List.getElem?_eq_some_iff.mp hold).1
  ext j
  by_cases hij : i = j
  · subst hij
    simp [hlt, hnew]
  · simp [hij, Ne.symm hij]

theorem slotsWhere_set_false (slots : List α) (i : Nat) (hnew : p new = false) :
    slotsWhere p (slots.set i new) = (slotsWhere p slots).erase i := by
  ext j
  by_cases hij : i = j
  · subst hij
    simp [List.getElem?_set_self', hnew]
  · simp [hij, Ne.symm hij]

theorem slotsWhere_set_same (hold : slots[i]? = some old) (hsame : p new = p old) :
    slotsWhere p (slots.set i new) = slotsWhere p slots := by
  cases hnew : p new with
  | true =>
    rw [slotsWhere_set_true hold hnew, Finset.insert_eq_of_mem]
    exact mem_slotsWhere.mpr ⟨old, hold, hsame ▸ hnew⟩
  | false =>
    rw [slotsWhere_set_false slots i hnew, Finset.erase_eq_of_notMem]
    intro hmem
    obtain ⟨a, ha, hp⟩ := mem_slotsWhere.mp hmem
    cases Option.some.inj (hold.symm.trans ha)
    rw [← hsame, hnew] at hp
    cases hp

theorem slotsWhere_map {f : α → α} {q : α → Bool} (slots : List α) (hf : ∀ a, p (f a) = q a) :
    slotsWhere p (slots.map f) = slotsWhere q slots := by
  ext i
  simp [hf]

end Slots

end Corekit.Foundation
