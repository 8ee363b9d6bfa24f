import Mathlib.Data.List.Basic
import Mathlib.Order.Basic

/-! Runs of a deterministic labelled transition function. All choices (which
party moves, what the environment answers) sit in the label, so a run is a
list of labels and every property of a run is an induction on that list. -/
namespace Corekit.Foundation

/-- Take the labels in order; `none` as soon as a step is not enabled. -/
def runs (step : σ → α → Option σ) : σ → List α → Option σ
  | s, [] => some s
  | s, a :: rest => (step s a).bind fun s' => runs step s' rest

/-- Every step of the run is taken in a state that meets the condition. -/
def Meets (step : σ → α → Option σ) (condition : σ → α → Prop) : σ → List α → Prop
  | _, [] => True
  | s, a :: rest => condition s a ∧ ∀ s', step s a = some s' → Meets step condition s' rest

def checks (step : σ → α → Option σ) (check : σ → α → Bool) : σ → List α → Bool
  | _, [] => true
  | s, a :: rest => check s a && ((step s a).all fun s' => checks step check s' rest)

section Runs

variable {step : σ → α → Option σ}

@[simp] theorem runs_nil (s : σ) : runs step s [] = some s := rfl

theorem runs_cons_some {s s' : σ} {a : α} {rest : List α} :
    runs step s (a :: rest) = some s' ↔
      ∃ mid, step s a = some mid ∧ runs step mid rest = some s' := by
  simp [runs, Option.bind_eq_some_iff]

theorem runs_append {s s' : σ} {left right : List α} :
    runs step s (left ++ right) = some s' ↔
      ∃ mid, runs step s left = some mid ∧ runs step mid right = some s' := by
  induction left generalizing s with
  | nil => simp
  | cons a rest ih =>
    simp only [List.cons_append, runs_cons_some, ih]
    constructor
    · rintro ⟨m, hm, mid, hleft, hright⟩
      exact ⟨mid, ⟨m, hm, hleft⟩, hright⟩
    · rintro ⟨mid, ⟨m, hm, hleft⟩, hright⟩
      exact ⟨m, hm, mid, hleft, hright⟩

theorem runs_snoc {s s' : σ} {rest : List α} {a : α} :
    runs step s (rest ++ [a]) = some s' ↔
      ∃ mid, runs step s rest = some mid ∧ step mid a = some s' := by
  simp [runs_append, runs_cons_some]

/-- The invariant rule: what every step keeps, every run keeps. -/
theorem runs_invariant {inv : σ → Prop}
    (hstep : ∀ s a s', inv s → step s a = some s' → inv s')
    {s s' : σ} {labels : List α} (hinit : inv s)
    (hrun : runs step s labels = some s') : inv s' := by
  induction labels generalizing s with
  | nil =>
    cases Option.some.inj hrun
    exact hinit
  | cons a rest ih =>
    obtain ⟨mid, hmid, hrest⟩ := runs_cons_some.mp hrun
    exact ih (hstep s a mid hinit hmid) hrest

/-- The invariant rule for the runs whose steps meet a condition. -/
theorem runs_invariant_of_meets {inv : σ → Prop} {condition : σ → α → Prop}
    (hstep : ∀ s a s', inv s → condition s a → step s a = some s' → inv s')
    {s s' : σ} {labels : List α} (hinit : inv s) (hmeets : Meets step condition s labels)
    (hrun : runs step s labels = some s') : inv s' := by
  induction labels generalizing s with
  | nil =>
    cases Option.some.inj hrun
    exact hinit
  | cons a rest ih =>
    obtain ⟨mid, hmid, hrest⟩ := runs_cons_some.mp hrun
    exact ih (hstep s a mid hinit hmeets.1 hmid) (hmeets.2 mid hmid) hrest

section Below

/-! Runs that end below a bound; no step goes back below it. -/

variable {inv below : σ → Prop} {condition : σ → α → Prop}
  (hback : ∀ s a s', step s a = some s' → below s' → below s)
include hback

theorem runs_invariant_of_meets_below
    (hstep : ∀ s a s', inv s → condition s a → below s' → step s a = some s' → inv s')
    {s s' : σ} {labels : List α} (hinit : inv s) (hmeets : Meets step condition s labels)
    (hrun : runs step s labels = some s') (hbelow : below s') : inv s' := by
  have hkept : ∀ s a s', (below s → inv s) → condition s a → step s a = some s' →
      below s' → inv s' := fun s a s' hs hcondition ha hs' =>
    hstep s a s' (hs (hback s a s' ha hs')) hcondition hs' ha
  exact runs_invariant_of_meets hkept (fun _ => hinit) hmeets hrun hbelow

theorem runs_invariant_below
    (hstep : ∀ s a s', inv s → below s' → step s a = some s' → inv s')
    {s s' : σ} {labels : List α} (hinit : inv s) (hrun : runs step s labels = some s')
    (hbelow : below s') : inv s' := by
  have hkept : ∀ s a s', (below s → inv s) → step s a = some s' → below s' → inv s' :=
    fun s a s' hs ha hs' => hstep s a s' (hs (hback s a s' ha hs')) hs' ha
  exact runs_invariant hkept (fun _ => hinit) hrun hbelow

theorem runs_below {s s' : σ} {labels : List α} (hrun : runs step s labels = some s')
    (hbelow : below s') : below s := by
  induction labels generalizing s with
  | nil =>
    cases Option.some.inj hrun
    exact hbelow
  | cons a rest ih =>
    obtain ⟨mid, hmid, hrest⟩ := runs_cons_some.mp hrun
    exact hback s a mid hmid (ih hrest)

end Below

theorem Meets.imp {inv : σ → Prop} {condition condition' : σ → α → Prop}
    (hstep : ∀ s a s', inv s → step s a = some s' → inv s')
    (himp : ∀ s a, inv s → condition s a → condition' s a) {s : σ} {labels : List α}
    (hinit : inv s) (h : Meets step condition s labels) : Meets step condition' s labels := by
  induction labels generalizing s with
  | nil => trivial
  | cons a rest ih =>
    exact ⟨himp s a hinit h.1, fun s' hs' => ih (hstep s a s' hinit hs') (h.2 s' hs')⟩

theorem Meets.congr {inv : σ → Prop} {condition condition' : σ → α → Prop}
    (hiff : ∀ s a, inv s → (condition s a ↔ condition' s a))
    (hstep : ∀ s a s', inv s → condition s a → step s a = some s' → inv s') {s : σ}
    {labels : List α} (hinit : inv s) :
    Meets step condition s labels ↔ Meets step condition' s labels := by
  induction labels generalizing s with
  | nil => exact Iff.rfl
  | cons a rest ih =>
    have hhere := hiff s a hinit
    constructor
    · rintro ⟨ha, hrest⟩
      exact ⟨hhere.mp ha, fun s' hs' => (ih (hstep s a s' hinit ha hs')).mp (hrest s' hs')⟩
    · rintro ⟨ha, hrest⟩
      have ha := hhere.mpr ha
      exact ⟨ha, fun s' hs' => (ih (hstep s a s' hinit ha hs')).mpr (hrest s' hs')⟩

theorem Meets.append {condition : σ → α → Prop} {s : σ} {left right : List α}
    (hleft : Meets step condition s left)
    (hright : ∀ mid, runs step s left = some mid → Meets step condition mid right) :
    Meets step condition s (left ++ right) := by
  induction left generalizing s with
  | nil => exact hright s rfl
  | cons a rest ih =>
    refine ⟨hleft.1, fun s' hs' => ih (hleft.2 s' hs') fun mid hmid => ?_⟩
    exact hright mid (runs_cons_some.mpr ⟨s', hs', hmid⟩)

theorem Meets.suffix {condition : σ → α → Prop} {s mid : σ} {left right : List α}
    (h : Meets step condition s (left ++ right)) (hleft : runs step s left = some mid) :
    Meets step condition mid right := by
  induction left generalizing s with
  | nil =>
    cases Option.some.inj hleft
    exact h
  | cons a rest ih =>
    obtain ⟨s', hs', hrest⟩ := runs_cons_some.mp hleft
    exact ih (h.2 s' hs') hrest

theorem Meets.of_checks {check : σ → α → Bool} {condition : σ → α → Prop}
    (hcheck : ∀ s a, check s a = true → condition s a) {s : σ} {labels : List α}
    (h : checks step check s labels = true) : Meets step condition s labels := by
  induction labels generalizing s with
  | nil => trivial
  | cons a rest ih =>
    simp only [checks, Bool.and_eq_true] at h
    refine ⟨hcheck s a h.1, fun s' hs' => ih ?_⟩
    rw [hs'] at h
    exact h.2

theorem Meets.of_decide {condition : σ → α → Prop} [∀ s, DecidablePred (condition s)] {s : σ}
    {labels : List α} (h : checks step (fun s a => decide (condition s a)) s labels = true) :
    Meets step condition s labels :=
  .of_checks (fun _ _ hcheck => of_decide_eq_true hcheck) h

end Runs

end Corekit.Foundation
