import Corekit.Foundation.Command
import Mathlib.Logic.Relation
import Mathlib.Order.WellFounded

/-! Programs among surroundings that answer their operations and also act on
their own: `act` relates an operation to its possible answers, `env` is one
action of the surroundings. -/
namespace Corekit.Foundation.Cmd

variable {Op : Type} {Res : Op → Type} {σ α β : Type}
variable (act : (o : Op) → σ → Res o → σ → Prop) (env : σ → σ → Prop)

/-- One step of the program or of its surroundings. -/
inductive Move : Cmd Op Res α × σ → Cmd Op Res α × σ → Prop where
  | act {o : Op} {next : Res o → Cmd Op Res α} {s s' : σ} {r : Res o} (h : act o s r s') :
      Move (.op o next, s) (next r, s')
  | env {c : Cmd Op Res α} {s s' : σ} (h : env s s') : Move (c, s) (c, s')

variable (inv : σ → Prop)

/-- Wherever the program and its surroundings get to, `inv` holds, and `post`
once the program has returned. -/
def Holds (post : α → σ → Prop) : Cmd Op Res α → σ → Prop
  | .ret value, s => ∀ s', Relation.ReflTransGen env s s' → inv s' ∧ post value s'
  | .op o next, s => ∀ s', Relation.ReflTransGen env s s' →
      inv s' ∧ ∀ r s'', act o s' r s'' → Holds post (next r) s''

variable {act env inv}

theorem Holds.env_step {post : α → σ → Prop} {c : Cmd Op Res α} {s s' : σ}
    (h : c.Holds act env inv post s) (hstep : env s s') : c.Holds act env inv post s' := by
  cases c with
  | ret value => exact fun s'' hrun => h s'' (hrun.head hstep)
  | op o next => exact fun s'' hrun => h s'' (hrun.head hstep)

theorem Holds.inv_now {post : α → σ → Prop} {c : Cmd Op Res α} {s : σ}
    (h : c.Holds act env inv post s) : inv s := by
  cases c with
  | ret value => exact (h s .refl).1
  | op o next => exact (h s .refl).1

theorem Holds.reachable {post : α → σ → Prop} {x y : Cmd Op Res α × σ}
    (h : x.1.Holds act env inv post x.2) (hrun : Relation.ReflTransGen (Move act env) x y) :
    y.1.Holds act env inv post y.2 := by
  induction hrun with
  | refl => exact h
  | tail _ hstep ih =>
    cases hstep with
    | act hact => exact (ih _ .refl).2 _ _ hact
    | env henv => exact ih.env_step henv

theorem Holds.mono {post post' : α → σ → Prop}
    (hpost : ∀ value s, inv s → post value s → post' value s) {c : Cmd Op Res α} {s : σ} (h : c.Holds act env inv post s) :
    c.Holds act env inv post' s := by
  induction c generalizing s with
  | ret value => exact fun s' hrun => ⟨(h s' hrun).1, hpost value s' (h s' hrun).1 (h s' hrun).2⟩
  | op o next ih => exact fun s' hrun => ⟨(h s' hrun).1, fun r s'' hact =>
      ih r ((h s' hrun).2 r s'' hact)⟩

theorem Holds.bind {post : β → σ → Prop} {c : Cmd Op Res α} {f : α → Cmd Op Res β} {s : σ}
    (h : c.Holds act env inv (fun value s => (f value).Holds act env inv post s) s) :
    (c.bind f).Holds act env inv post s := by
  induction c generalizing s with
  | ret value => exact (h s .refl).2
  | op o next ih => exact fun s' hrun => ⟨(h s' hrun).1, fun r s'' hact =>
      ih r ((h s' hrun).2 r s'' hact)⟩

/-- The frame rule: what every step keeps can be carried along. -/
theorem Holds.frame {post : α → σ → Prop} {kept : σ → Prop}
    (hact : ∀ o s r s', kept s → act o s r s' → kept s')
    (henv : ∀ s s', kept s → env s s' → kept s') {c : Cmd Op Res α} {s : σ} (hs : kept s)
    (h : c.Holds act env inv post s) :
    c.Holds act env inv (fun value s => post value s ∧ kept s) s := by
  have hrun : ∀ {s s'}, kept s → Relation.ReflTransGen env s s' → kept s' := by
    intro s s' hs hrun
    induction hrun with
    | refl => exact hs
    | tail _ hstep ih => exact henv _ _ ih hstep
  induction c generalizing s with
  | ret value => exact fun s' hs' => ⟨(h s' hs').1, (h s' hs').2, hrun hs hs'⟩
  | op o next ih => exact fun s' hs' => ⟨(h s' hs').1, fun r s'' hstep =>
      ih r (hact o s' r s'' (hrun hs hs') hstep) ((h s' hs').2 r s'' hstep)⟩

/-- An assertion that the surroundings keep. -/
structure Stable (env : σ → σ → Prop) (inv : σ → Prop) (assertion : σ → Prop) : Prop where
  keep : ∀ s s', assertion s → env s s' → assertion s'
  sound : ∀ s, assertion s → inv s

theorem Stable.run {assertion : σ → Prop} (hstable : Stable env inv assertion) {s s' : σ}
    (h : assertion s) (hrun : Relation.ReflTransGen env s s') : assertion s' := by
  induction hrun with
  | refl => exact h
  | tail _ hstep ih => exact hstable.keep _ _ ih hstep

theorem Holds.ret {post : α → σ → Prop} {assertion : σ → Prop}
    (hstable : Stable env inv assertion) {value : α} {s : σ} (h : assertion s)
    (hpost : ∀ s, assertion s → post value s) :
    (Cmd.ret value : Cmd Op Res α).Holds act env inv post s := fun s' hrun =>
  have hs' := hstable.run h hrun
  ⟨hstable.sound s' hs', hpost s' hs'⟩

theorem Holds.op {post : α → σ → Prop} {assertion : σ → Prop}
    (hstable : Stable env inv assertion) {o : Op} {next : Res o → Cmd Op Res α} {s : σ}
    (h : assertion s)
    (hnext : ∀ s r s', assertion s → act o s r s' → (next r).Holds act env inv post s') :
    (Cmd.op o next).Holds act env inv post s := fun s' hrun =>
  have hs' := hstable.run h hrun
  ⟨hstable.sound s' hs', fun r s'' hact => hnext s' r s'' hs' hact⟩

theorem move_wellFounded (henv : WellFounded fun s' s => env s s') :
    WellFounded fun y x : Cmd Op Res α × σ => Move act env x y := by
  refine ⟨fun ⟨c, s⟩ => ?_⟩
  induction c generalizing s with
  | ret value =>
    induction s using henv.induction with
    | _ s ih =>
      refine ⟨_, fun y hy => ?_⟩
      cases hy with
      | env h => exact ih _ h
  | op o next ihnext =>
    induction s using henv.induction with
    | _ s ih =>
      refine ⟨_, fun y hy => ?_⟩
      cases hy with
      | act h => exact ihnext _ _
      | env h => exact ih _ h

/-- A system that carries out a program: each of its moves is one of the program, or
uses up what the system has left to do meanwhile. -/
theorem wellFounded_of_program {τ : Type} (program : σ → Cmd Op Res α) (left : σ → τ)
    {less : τ → τ → Prop} (hless : WellFounded less) {move : σ → σ → Prop}
    (hmove : ∀ s s', move s s' →
      (program s' = program s ∧ less (left s') (left s)) ∨
        ∃ o next r, program s = .op o next ∧ program s' = next r) :
    WellFounded fun s' s => move s s' := by
  have hacc : ∀ (c : Cmd Op Res α) (s : σ), program s = c → Acc (fun s' s => move s s') s := by
    intro c
    induction c with
    | ret value =>
      intro s hs
      induction hleft : left s using hless.induction generalizing s with
      | _ n ih =>
        refine ⟨_, fun s' hs' => ?_⟩
        rcases hmove s s' hs' with ⟨hsame, hlt⟩ | ⟨o, next, r, hop, -⟩
        · exact ih _ (hleft ▸ hlt) s' (hsame.trans hs) rfl
        · cases hs.symm.trans hop
    | op o next ihnext =>
      intro s hs
      induction hleft : left s using hless.induction generalizing s with
      | _ n ih =>
        refine ⟨_, fun s' hs' => ?_⟩
        rcases hmove s s' hs' with ⟨hsame, hlt⟩ | ⟨o', next', r, hop, hnext⟩
        · exact ih _ (hleft ▸ hlt) s' (hsame.trans hs) rfl
        · cases hs.symm.trans hop
          exact ihnext r s' hnext
  exact ⟨fun s => hacc _ s rfl⟩

/-- Where every operation gets an answer at last, every run can be finished. -/
theorem exists_return (henv : WellFounded fun s' s => env s s')
    (hanswer : ∀ (o : Op) (next : Res o → Cmd Op Res α) (s : σ), ∃ y, Move act env (.op o next, s) y)
    (x : Cmd Op Res α × σ) :
    ∃ value s', Relation.ReflTransGen (Move act env) x (.ret value, s') := by
  have hwf : WellFounded fun y x : Cmd Op Res α × σ => Move act env x y := move_wellFounded henv
  induction x using hwf.induction with
  | _ x ih =>
    obtain ⟨c, s⟩ := x
    cases c with
    | ret value => exact ⟨value, s, .refl⟩
    | op o next =>
      obtain ⟨y, hy⟩ := hanswer o next s
      obtain ⟨value, s', hrun⟩ := ih y hy
      exact ⟨value, s', hrun.head hy⟩

end Corekit.Foundation.Cmd

namespace Corekit.Foundation

variable {σ τ α : Type} {step : σ → α → Option σ} {abstracts : σ → τ} {move : τ → τ → Prop}
  {inv safe : σ → Prop} {condition : σ → α → Prop}

/-- Each step is one of another system or leaves what that system sees as it is:
then a run is a run of the other system. What is `safe` at the end has been so
all along. -/
theorem runs_simulates (hsafe : ∀ s a s', inv s → step s a = some s' → safe s' → safe s)
    (hstep : ∀ s a s', inv s → condition s a → step s a = some s' →
      inv s' ∧ (safe s' → Relation.ReflGen move (abstracts s) (abstracts s')))
    {s s' : σ} {labels : List α} (hinit : inv s) (hmeets : Meets step condition s labels)
    (hrun : runs step s labels = some s') :
    inv s' ∧ (safe s' → safe s ∧ Relation.ReflTransGen move (abstracts s) (abstracts s')) := by
  induction labels generalizing s with
  | nil =>
    cases Option.some.inj hrun
    exact ⟨hinit, fun h => ⟨h, .refl⟩⟩
  | cons a rest ih =>
    obtain ⟨mid, hmid, hrest⟩ := runs_cons_some.mp hrun
    obtain ⟨hinv, hmove⟩ := hstep s a mid hinit hmeets.1 hmid
    obtain ⟨hlast, htail⟩ := ih hinv (hmeets.2 mid hmid) hrest
    refine ⟨hlast, fun hend => ?_⟩
    obtain ⟨hmiddle, hmoves⟩ := htail hend
    have hfirst := hsafe s a mid hinit hmid hmiddle
    exact ⟨hfirst, (hmove hmiddle).to_reflTransGen.trans hmoves⟩

/-- A system that does not move forever and rests only where it is to get to gets
there. -/
theorem exists_final_of_wellFounded (hwf : WellFounded fun s' s => move s s')
    {kept final : τ → Prop} (hkept : ∀ s s', kept s → move s s' → kept s')
    (hrest : ∀ s, kept s → (∀ s', ¬move s s') → final s) {s : τ} (hs : kept s) :
    ∃ s', Relation.ReflTransGen move s s' ∧ final s' := by
  induction s using hwf.induction with
  | _ s ih =>
    by_cases hstuck : ∀ s', ¬move s s'
    · exact ⟨s, .refl, hrest s hs hstuck⟩
    · push Not at hstuck
      obtain ⟨s', hmove⟩ := hstuck
      obtain ⟨last, hmoves, hfinal⟩ := ih s' hmove (hkept s s' hs hmove)
      exact ⟨last, hmoves.head hmove, hfinal⟩

end Corekit.Foundation
