import Corekit.Foundation.Transition

/-! Shallow programs over an operation signature. `Cmd` exposes each operation
on the shared state, so one definition has both an uninterrupted meaning
(`Cmd.run`) and an interleaved one (`Parallel.step`). -/
namespace Corekit.Foundation

inductive Cmd (Op : Type) (Res : Op → Type) (α : Type) : Type where
  | ret (value : α)
  | op (o : Op) (next : Res o → Cmd Op Res α)

/-- What one operation answers and leaves behind. -/
abbrev Handler (Op : Type) (Res : Op → Type) (σ : Type) :=
  (o : Op) → σ → Res o × σ

namespace Cmd

variable {Op : Type} {Res : Op → Type} {α β σ γ : Type}

def bind : Cmd Op Res α → (α → Cmd Op Res β) → Cmd Op Res β
  | .ret value, f => f value
  | .op o next, f => .op o fun r => (next r).bind f

instance : Monad (Cmd Op Res) where
  pure := .ret
  bind := bind

def perform (o : Op) : Cmd Op Res (Res o) := .op o .ret

def run (handler : Handler Op Res σ) : Cmd Op Res α → σ → α × σ
  | .ret value, s => (value, s)
  | .op o next, s => (next (handler o s).1).run handler (handler o s).2

@[simp] theorem pure_eq_ret (value : α) :
    (pure value : Cmd Op Res α) = .ret value := rfl

@[simp] theorem bind_eq_bind (c : Cmd Op Res α) (f : α → Cmd Op Res β) :
    c >>= f = c.bind f := rfl

@[simp] theorem ret_bind (value : α) (f : α → Cmd Op Res β) :
    (Cmd.ret value).bind f = f value := rfl

@[simp] theorem op_bind (o : Op) (next : Res o → Cmd Op Res α)
    (f : α → Cmd Op Res β) :
    (Cmd.op o next).bind f = .op o fun r => (next r).bind f := rfl

@[simp] theorem perform_bind (o : Op) (f : Res o → Cmd Op Res β) :
    (perform o).bind f = .op o f := rfl

@[simp] theorem run_ret (handler : Handler Op Res σ) (value : α) (s : σ) :
    (Cmd.ret value : Cmd Op Res α).run handler s = (value, s) := rfl

@[simp] theorem run_op (handler : Handler Op Res σ) (o : Op)
    (next : Res o → Cmd Op Res α) (s : σ) :
    (Cmd.op o next).run handler s =
      (next (handler o s).1).run handler (handler o s).2 := rfl

theorem run_bind (handler : Handler Op Res σ) (c : Cmd Op Res α)
    (f : α → Cmd Op Res β) (s : σ) :
    (c.bind f).run handler s =
      (f (c.run handler s).1).run handler (c.run handler s).2 := by
  induction c generalizing s with
  | ret value => rfl
  | op o next ih => exact ih (handler o s).1 (handler o s).2

def embed {Op' : Type} {Res' : Op' → Type} (call : Op → Op')
    (read : (o : Op) → Res' (call o) → Res o) : Cmd Op Res α → Cmd Op' Res' α
  | .ret value => .ret value
  | .op o next => .op (call o) fun r => (next (read o r)).embed call read

theorem embed_bind {Op' : Type} {Res' : Op' → Type} (call : Op → Op')
    (read : (o : Op) → Res' (call o) → Res o) (c : Cmd Op Res α) (f : α → Cmd Op Res β) :
    (c.bind f).embed call read =
      (c.embed call read).bind fun value => (f value).embed call read := by
  induction c with
  | ret value => rfl
  | op o next ih =>
    simp only [op_bind, embed]
    congr 1
    funext r
    exact ih (read o r)

section Answers

variable (allowed : (o : Op) → Res o → Prop)

/-- Whatever the operations answer among what is allowed, the value that comes
back is as said; the state behind the answers is left out. -/
def Ensures (post : α → Prop) : Cmd Op Res α → Prop
  | .ret value => post value
  | .op o next => ∀ r, allowed o r → (next r).Ensures post

variable {allowed}

theorem Ensures.mono {post post' : α → Prop} (hpost : ∀ value, post value → post' value)
    {c : Cmd Op Res α} (h : c.Ensures allowed post) : c.Ensures allowed post' := by
  induction c with
  | ret value => exact hpost value h
  | op o next ih => exact fun r hr => ih r (h r hr)

theorem Ensures.bind {post : β → Prop} {c : Cmd Op Res α} {f : α → Cmd Op Res β}
    (h : c.Ensures allowed fun value => (f value).Ensures allowed post) :
    (c.bind f).Ensures allowed post := by
  induction c with
  | ret value => exact h
  | op o next ih => exact fun r hr => ih r (h r hr)

end Answers

section RelyGuarantee

variable (handler : Handler Op Res σ) (inv : σ → γ → Prop)
variable (rely guar : σ → γ → σ → γ → Prop)

/-- Weakest precondition against an interfering environment. `γ` is ghost
state: each operation chooses how it changes. Before every operation, and
before returning, the environment may move the state along `rely`. -/
def Wp : Cmd Op Res α → (α → σ → γ → Prop) → σ → γ → Prop
  | .ret value, post, s, g =>
      ∀ s' g', rely s g s' g' → inv s' g' → post value s' g'
  | .op o next, post, s, g =>
      ∀ s' g', rely s g s' g' → inv s' g' →
        ∃ g'', guar s' g' (handler o s').2 g'' ∧ inv (handler o s').2 g'' ∧
          (next (handler o s').1).Wp post (handler o s').2 g''

variable {handler inv rely guar}

theorem Wp.mono {c : Cmd Op Res α} {post post' : α → σ → γ → Prop}
    (hpost : ∀ a s g, inv s g → post a s g → post' a s g) {s : σ} {g : γ}
    (h : c.Wp handler inv rely guar post s g) :
    c.Wp handler inv rely guar post' s g := by
  induction c generalizing s g with
  | ret value =>
    intro s' g' hrely hinv
    exact hpost value s' g' hinv (h s' g' hrely hinv)
  | op o next ih =>
    intro s' g' hrely hinv
    obtain ⟨g'', hguar, hinv', hnext⟩ := h s' g' hrely hinv
    exact ⟨g'', hguar, hinv', ih _ hnext⟩

theorem Wp.stable {c : Cmd Op Res α} {post : α → σ → γ → Prop}
    (htrans : ∀ a x b y c z, rely a x b y → rely b y c z → rely a x c z)
    {s s' : σ} {g g' : γ} (h : c.Wp handler inv rely guar post s g)
    (hrely : rely s g s' g') : c.Wp handler inv rely guar post s' g' := by
  cases c with
  | ret value =>
    intro s'' g'' hrely' hinv
    exact h s'' g'' (htrans _ _ _ _ _ _ hrely hrely') hinv
  | op o next =>
    intro s'' g'' hrely' hinv
    exact h s'' g'' (htrans _ _ _ _ _ _ hrely hrely') hinv

theorem Wp.bind {c : Cmd Op Res α} {f : α → Cmd Op Res β}
    {post : β → σ → γ → Prop} (hrefl : ∀ s g, rely s g s g) {s : σ} {g : γ}
    (hinv : inv s g)
    (h : c.Wp handler inv rely guar
      (fun a s g => (f a).Wp handler inv rely guar post s g) s g) :
    (c.bind f).Wp handler inv rely guar post s g := by
  induction c generalizing s g with
  | ret value => exact h s g (hrefl s g) hinv
  | op o next ih =>
    intro s' g' hrely hinv'
    obtain ⟨g'', hguar, hinv'', hnext⟩ := h s' g' hrely hinv'
    exact ⟨g'', hguar, hinv'', ih _ hinv'' hnext⟩

end RelyGuarantee

end Cmd

/-- A party that runs commands between control points. At a control point the
environment supplies an input (a call to make, or a mere tick of a loop) and
the party resumes with the next command. -/
structure Thread (Op : Type) (Res : Op → Type) where
  Point : Type
  Input : Type
  resume : Point → Input → Option (Cmd Op Res Point)

namespace Thread

variable {Op : Type} {Res : Op → Type} {σ : Type}

def step (thread : Thread Op Res) (handler : Handler Op Res σ)
    (c : Cmd Op Res thread.Point) (s : σ) (input : thread.Input) :
    Option (Cmd Op Res thread.Point × σ) :=
  match c with
  | .ret point => (thread.resume point input).map fun next => (next, s)
  | .op o next => some (next (handler o s).1, (handler o s).2)

/-- Run from a command to the end of a call: resume with `tick` at control
points until `stop` recognises one. -/
def finish (thread : Thread Op Res) (handler : Handler Op Res σ)
    (tick : thread.Input) (stop : thread.Point → Option β) :
    Nat → Cmd Op Res thread.Point → σ → Option (β × σ)
  | 0, c, s => (stop (c.run handler s).1).map fun result => (result, (c.run handler s).2)
  | fuel + 1, c, s =>
    match stop (c.run handler s).1 with
    | some result => some (result, (c.run handler s).2)
    | none => (thread.resume (c.run handler s).1 tick).bind fun next =>
        finish thread handler tick stop fuel next (c.run handler s).2

variable {thread : Thread Op Res} {handler : Handler Op Res σ} {tick : thread.Input}
  {stop : thread.Point → Option β} {c next : Cmd Op Res thread.Point} {point : thread.Point}
  {s s' : σ}

theorem finish_stop (fuel : Nat) {result : β} (hrun : c.run handler s = (point, s'))
    (hstop : stop point = some result) :
    thread.finish handler tick stop fuel c s = some (result, s') := by
  cases fuel with
  | zero => simp only [finish, hrun, hstop, Option.map_some]
  | succ fuel => simp only [finish, hrun, hstop]

theorem finish_resume (fuel : Nat) (hrun : c.run handler s = (point, s'))
    (hstop : stop point = none) (hresume : thread.resume point tick = some next) :
    thread.finish handler tick stop (fuel + 1) c s =
      thread.finish handler tick stop fuel next s' := by
  simp only [finish, hrun, hstop, hresume, Option.bind_some]

theorem finish_mono {fuel : Nat} {result : β × σ} (extra : Nat)
    (h : thread.finish handler tick stop fuel c s = some result) :
    thread.finish handler tick stop (fuel + extra) c s = some result := by
  induction fuel generalizing c s with
  | zero =>
    obtain ⟨answer, hstop, rfl⟩ := Option.map_eq_some_iff.mp h
    exact finish_stop _ rfl hstop
  | succ fuel ih =>
    cases hstop : stop (c.run handler s).1 with
    | none =>
      simp only [finish, hstop] at h
      obtain ⟨next, hnext, hrest⟩ := Option.bind_eq_some_iff.mp h
      rw [Nat.add_right_comm, finish_resume _ rfl hstop hnext]
      exact ih hrest
    | some answer =>
      rw [finish_stop _ rfl hstop] at h
      rw [finish_stop _ rfl hstop, h]

end Thread

structure Parallel (Op : Type) (Res : Op → Type) (σ : Type)
    (A B : Thread Op Res) where
  left : Cmd Op Res A.Point
  right : Cmd Op Res B.Point
  shared : σ

namespace Parallel

variable {Op : Type} {Res : Op → Type} {σ γ : Type} {A B : Thread Op Res}

/-- One operation of one party; the label says whose turn it is. -/
def step (handler : Handler Op Res σ) (p : Parallel Op Res σ A B) :
    A.Input ⊕ B.Input → Option (Parallel Op Res σ A B)
  | .inl input => (A.step handler p.left p.shared input).map fun r =>
      { p with left := r.1, shared := r.2 }
  | .inr input => (B.step handler p.right p.shared input).map fun r =>
      { p with right := r.1, shared := r.2 }

variable {handler : Handler Op Res σ} {inv : σ → γ → Prop}

theorem thread_step {T : Thread Op Res} {rely guar : σ → γ → σ → γ → Prop}
    {point : T.Point → σ → γ → Prop} (hrefl : ∀ s g, rely s g s g)
    (hguar : ∀ s g, guar s g s g)
    (hresume : ∀ p input c s g, point p s g → inv s g →
      T.resume p input = some c → c.Wp handler inv rely guar point s g)
    {c c' : Cmd Op Res T.Point} {s s' : σ} {g : γ} {input : T.Input}
    (hinv : inv s g) (hwp : c.Wp handler inv rely guar point s g)
    (hstep : T.step handler c s input = some (c', s')) :
    ∃ g', guar s g s' g' ∧ inv s' g' ∧ c'.Wp handler inv rely guar point s' g' := by
  cases c with
  | ret p =>
    obtain ⟨next, hnext, heq⟩ := Option.map_eq_some_iff.mp hstep
    cases heq
    exact ⟨g, hguar s g, hinv,
      hresume p input _ s g (hwp s g (hrefl s g) hinv) hinv hnext⟩
  | op o next =>
    cases Option.some.inj hstep
    exact hwp s g (hrefl s g) hinv

/-- The parallel composition rule: when each party's guarantee is contained in
the other's rely, joint weakest preconditions are kept by every step. -/
theorem step_wp {relyA guarA relyB guarB : σ → γ → σ → γ → Prop}
    {pointA : A.Point → σ → γ → Prop} {pointB : B.Point → σ → γ → Prop}
    (reflA : ∀ s g, relyA s g s g) (reflB : ∀ s g, relyB s g s g)
    (transA : ∀ a x b y c z, relyA a x b y → relyA b y c z → relyA a x c z)
    (transB : ∀ a x b y c z, relyB a x b y → relyB b y c z → relyB a x c z)
    (guarReflA : ∀ s g, guarA s g s g) (guarReflB : ∀ s g, guarB s g s g)
    (hAB : ∀ s g s' g', inv s g → guarA s g s' g' → relyB s g s' g')
    (hBA : ∀ s g s' g', inv s g → guarB s g s' g' → relyA s g s' g')
    (resumeA : ∀ p input c s g, pointA p s g → inv s g →
      A.resume p input = some c → c.Wp handler inv relyA guarA pointA s g)
    (resumeB : ∀ p input c s g, pointB p s g → inv s g →
      B.resume p input = some c → c.Wp handler inv relyB guarB pointB s g)
    {p p' : Parallel Op Res σ A B} {label : A.Input ⊕ B.Input} {g : γ}
    (hinv : inv p.shared g)
    (hleft : p.left.Wp handler inv relyA guarA pointA p.shared g)
    (hright : p.right.Wp handler inv relyB guarB pointB p.shared g)
    (hstep : p.step handler label = some p') :
    ∃ g', inv p'.shared g' ∧
      p'.left.Wp handler inv relyA guarA pointA p'.shared g' ∧
      p'.right.Wp handler inv relyB guarB pointB p'.shared g' := by
  cases label with
  | inl input =>
    obtain ⟨⟨c, s⟩, hc, rfl⟩ := Option.map_eq_some_iff.mp hstep
    obtain ⟨g', hguar, hinv', hwp⟩ :=
      thread_step reflA guarReflA resumeA hinv hleft hc
    exact ⟨g', hinv', hwp, hright.stable transB (hAB _ _ _ _ hinv hguar)⟩
  | inr input =>
    obtain ⟨⟨c, s⟩, hc, rfl⟩ := Option.map_eq_some_iff.mp hstep
    obtain ⟨g', hguar, hinv', hwp⟩ :=
      thread_step reflB guarReflB resumeB hinv hright hc
    exact ⟨g', hinv', hleft.stable transA (hBA _ _ _ _ hinv hguar), hwp⟩

end Parallel

end Corekit.Foundation
