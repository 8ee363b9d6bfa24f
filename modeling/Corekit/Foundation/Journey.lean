import Mathlib.Algebra.BigOperators.Group.List.Basic
import Mathlib.Algebra.Order.Group.Multiset
import Mathlib.Data.Multiset.UnionInter

/-! Items that move from station to station. Some arrivals are announced; the
announcements of one item, in order, are the path to where it is. -/
namespace Corekit.Foundation

variable {ι σ : Type} [DecidableEq ι]

def trailOf (trail : List (ι × σ)) (item : ι) : List σ :=
  (trail.filter fun x => x.1 = item).map Prod.snd

@[simp] theorem trailOf_nil (item : ι) : trailOf ([] : List (ι × σ)) item = [] := rfl

theorem trailOf_snoc_self (trail : List (ι × σ)) (item : ι) (s : σ) :
    trailOf (trail ++ [(item, s)]) item = trailOf trail item ++ [s] := by
  simp [trailOf]

theorem trailOf_snoc_ne (trail : List (ι × σ)) {item other : ι} (s : σ) (h : other ≠ item) :
    trailOf (trail ++ [(item, s)]) other = trailOf trail other := by
  simp [trailOf, h.symm]

theorem mem_trailOf {trail : List (ι × σ)} {item : ι} {s : σ} :
    s ∈ trailOf trail item ↔ (item, s) ∈ trail := by
  simp only [trailOf, List.mem_map, List.mem_filter, decide_eq_true_eq]
  constructor
  · rintro ⟨⟨_, _⟩, ⟨hx, rfl⟩, rfl⟩
    exact hx
  · exact fun h => ⟨_, ⟨h, rfl⟩, rfl⟩

theorem count_trailOf [DecidableEq σ] (trail : List (ι × σ)) (item : ι) (s : σ) :
    (trailOf trail item).count s = trail.count (item, s) := by
  induction trail with
  | nil => rfl
  | cons x rest ih =>
    obtain ⟨other, station⟩ := x
    by_cases h : other = item
    · subst h
      have hcons : trailOf ((other, station) :: rest) other = station :: trailOf rest other := by
        simp [trailOf]
      rw [hcons, List.count_cons, List.count_cons, ih]
      simp
    · have hcons : trailOf ((other, station) :: rest) item = trailOf rest item := by
        simp [trailOf, h]
      rw [hcons, List.count_cons, ih]
      simp [h]

/-- Every item is in one place and was announced along the path to it. -/
structure Tracks (path : σ → List σ) (places : Multiset (ι × σ)) (trail : List (ι × σ)) :
    Prop where
  nodup : (places.map Prod.fst).Nodup
  follows : ∀ x ∈ places, trailOf trail x.1 = path x.2
  known : ∀ x ∈ trail, x.1 ∈ places.map Prod.fst

namespace Tracks

variable {path : σ → List σ} {places rest : Multiset (ι × σ)} {trail : List (ι × σ)} {item : ι}
  {s s' : σ}

theorem empty : Tracks path (0 : Multiset (ι × σ)) [] := ⟨by simp, by simp, by simp⟩

theorem count [DecidableEq σ] (h : Tracks path places trail) (hitem : (item, s) ∈ places) (t : σ) :
    trail.count (item, t) = (path s).count t := by
  rw [← count_trailOf, h.follows _ hitem]

theorem enter (h : Tracks path places trail) (hnew : item ∉ places.map Prod.fst)
    (hpath : path s = []) : Tracks path ((item, s) ::ₘ places) trail := by
  constructor
  · rw [Multiset.map_cons]
    exact Multiset.nodup_cons.mpr ⟨hnew, h.nodup⟩
  · intro x hx
    rcases Multiset.mem_cons.mp hx with rfl | hx
    · rw [hpath, trailOf, List.map_eq_nil_iff, List.filter_eq_nil_iff]
      intro x hx heq
      have hitem : x.1 = item := of_decide_eq_true heq
      exact hnew (hitem ▸ h.known x hx)
    · exact h.follows x hx
  · intro x hx
    rw [Multiset.map_cons]
    exact Multiset.mem_cons_of_mem (h.known x hx)

theorem not_mem_rest (h : Tracks path ((item, s) ::ₘ rest) trail) :
    item ∉ rest.map Prod.fst := by
  have hnodup := h.nodup
  rw [Multiset.map_cons] at hnodup
  exact (Multiset.nodup_cons.mp hnodup).1

theorem pass (h : Tracks path ((item, s) ::ₘ rest) trail) (hpath : path s' = path s) :
    Tracks path ((item, s') ::ₘ rest) trail := by
  constructor
  · simpa using h.nodup
  · intro x hx
    rcases Multiset.mem_cons.mp hx with rfl | hx
    · rw [hpath]
      exact h.follows _ (Multiset.mem_cons_self _ _)
    · exact h.follows x (Multiset.mem_cons_of_mem hx)
  · simpa using h.known

theorem move (h : Tracks path ((item, s) ::ₘ rest) trail) (hpath : path s' = path s ++ [s']) :
    Tracks path ((item, s') ::ₘ rest) (trail ++ [(item, s')]) := by
  have hnot := h.not_mem_rest
  constructor
  · simpa using h.nodup
  · intro x hx
    rcases Multiset.mem_cons.mp hx with rfl | hx
    · rw [trailOf_snoc_self, hpath, h.follows _ (Multiset.mem_cons_self _ _)]
    · have hne : x.1 ≠ item := fun heq => hnot (heq ▸ Multiset.mem_map_of_mem Prod.fst hx)
      rw [trailOf_snoc_ne _ _ hne]
      exact h.follows x (Multiset.mem_cons_of_mem hx)
  · intro x hx
    rw [Multiset.map_cons]
    rcases List.mem_append.mp hx with hx | hx
    · simpa using h.known x hx
    · cases List.mem_singleton.mp hx
      exact Multiset.mem_cons_self _ _

end Tracks

section Owners

variable {owns : ι → Multiset σ} {owners : List ι} {a : σ}

omit [DecidableEq ι]

theorem mem_owned : a ∈ (owners.map owns).sum ↔ ∃ x ∈ owners, a ∈ owns x := by
  induction owners with
  | nil => simp
  | cons first rest ih => simp [ih]

theorem owner_unique (h : (owners.map owns).sum.Nodup) {x y : ι} (hx : x ∈ owners)
    (hy : y ∈ owners) (hax : a ∈ owns x) (hay : a ∈ owns y) : x = y := by
  induction owners with
  | nil => cases hx
  | cons first rest ih =>
    rw [List.map_cons, List.sum_cons, Multiset.nodup_add] at h
    have hdisjoint : a ∈ owns first → ∀ z ∈ rest, a ∉ owns z := fun hfirst z hz haz =>
      Multiset.disjoint_left.mp h.2.2 hfirst (mem_owned.mpr ⟨z, hz, haz⟩)
    rcases List.mem_cons.mp hx with rfl | hrest
    · rcases List.mem_cons.mp hy with rfl | hrest
      · rfl
      · exact absurd hay (hdisjoint hax y hrest)
    · rcases List.mem_cons.mp hy with rfl | hrest'
      · exact absurd hax (hdisjoint hay x hrest)
      · exact ih h.2.1 hrest hrest'

end Owners

omit [DecidableEq ι] in
theorem card_eq_four_countP (s : Multiset ι) (p q r t : ι → Prop) [DecidablePred p]
    [DecidablePred q] [DecidablePred r] [DecidablePred t]
    (h : ∀ x ∈ s, (if p x then 1 else 0) + (if q x then 1 else 0) + (if r x then 1 else 0) +
      (if t x then 1 else 0) = 1) :
    s.card = s.countP p + s.countP q + s.countP r + s.countP t := by
  induction s using Multiset.induction_on with
  | empty => simp
  | cons x s ih =>
    have hx := h x (Multiset.mem_cons_self x s)
    have hs := ih fun y hy => h y (Multiset.mem_cons_of_mem hy)
    rw [Multiset.card_cons, Multiset.countP_cons, Multiset.countP_cons, Multiset.countP_cons,
      Multiset.countP_cons]
    omega

end Corekit.Foundation
