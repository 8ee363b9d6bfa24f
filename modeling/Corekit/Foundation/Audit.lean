import Corekit.Foundation.Command

/-! Programs under audit: every operation of a run is checked against the state
in which it is made. `traced` writes the operations down, so that the checks are
about a list one can look at. -/
namespace Corekit.Foundation

variable {Op : Type} {Res : Op → Type} {σ α β : Type}

/-- The same handler, with the operations made so far and the states before them. -/
def Handler.traced (handler : Handler Op Res σ) : Handler Op Res (σ × List (σ × Op)) :=
  fun o s => ((handler o s.1).1, (handler o s.1).2, s.2 ++ [(s.1, o)])

namespace Cmd

variable (handler : Handler Op Res σ) (check : σ → Op → Prop)

def Audited (post : α → σ → Prop) : Cmd Op Res α → σ → Prop
  | .ret value, s => post value s
  | .op o next, s => check s o ∧ (next (handler o s).1).Audited post (handler o s).2

variable {handler check}

theorem Audited.mono {post post' : α → σ → Prop} (hpost : ∀ value s, post value s → post' value s)
    {c : Cmd Op Res α} {s : σ} (h : c.Audited handler check post s) :
    c.Audited handler check post' s := by
  induction c generalizing s with
  | ret value => exact hpost value s h
  | op o next ih => exact ⟨h.1, ih _ h.2⟩

theorem Audited.bind {post : β → σ → Prop} {c : Cmd Op Res α} {f : α → Cmd Op Res β} {s : σ}
    (h : c.Audited handler check (fun value s => (f value).Audited handler check post s) s) :
    (c.bind f).Audited handler check post s := by
  induction c generalizing s with
  | ret value => exact h
  | op o next ih => exact ⟨h.1, ih _ h.2⟩

theorem Audited.ite {post : α → σ → Prop} {p : Prop} [Decidable p] {c d : Cmd Op Res α} {s : σ}
    (hpos : p → c.Audited handler check post s) (hneg : ¬p → d.Audited handler check post s) :
    (if p then c else d).Audited handler check post s := by
  split
  · exact hpos ‹_›
  · exact hneg ‹_›

theorem run_traced (c : Cmd Op Res α) (handler : Handler Op Res σ) (s : σ) (trace : List (σ × Op)) :
    (c.run handler.traced (s, trace)).1 = (c.run handler s).1 ∧
      (c.run handler.traced (s, trace)).2.1 = (c.run handler s).2 := by
  induction c generalizing s trace with
  | ret value => exact ⟨rfl, rfl⟩
  | op o next ih => exact ih _ _ _

theorem Audited.traced {post : α → σ → Prop} {c : Cmd Op Res α} {s : σ} {trace : List (σ × Op)}
    (h : c.Audited handler check post s) (htrace : ∀ x ∈ trace, check x.1 x.2) :
    ∃ value s' trace', c.run handler.traced (s, trace) = (value, s', trace') ∧ post value s' ∧
      ∀ x ∈ trace', check x.1 x.2 := by
  induction c generalizing s trace with
  | ret value => exact ⟨value, s, trace, rfl, h, htrace⟩
  | op o next ih =>
    apply ih _ h.2
    intro x hx
    rcases List.mem_append.mp hx with hold | hnew
    · exact htrace x hold
    · cases List.mem_singleton.mp hnew
      exact h.1

end Cmd

namespace Thread

variable (thread : Thread Op Res) (stop : thread.Point → Option β) {handler : Handler Op Res σ}
  {check : σ → Op → Prop} (tick : thread.Input) {done : β → σ → Prop}
  {inv : thread.Point → σ → Prop} {measure : thread.Point → σ → Nat}

/-- The end of the call, or a control point with less than `bound` before it. -/
def Settled (done : β → σ → Prop) (inv : thread.Point → σ → Prop)
    (measure : thread.Point → σ → Nat) (bound : Nat) (point : thread.Point) (s : σ) : Prop :=
  (∃ result, stop point = some result ∧ done result s) ∨
    (stop point = none ∧ inv point s ∧ measure point s < bound)

/-- A loop whose rounds pass the audit and come closer to their end. -/
theorem finish_audited
    (hround : ∀ point s, inv point s → ∃ next, thread.resume point tick = some next ∧
      next.Audited handler check (thread.Settled stop done inv measure (measure point s)) s)
    {bound : Nat} {c : Cmd Op Res thread.Point} {s : σ} {trace : List (σ × Op)}
    (hfirst : c.Audited handler check (thread.Settled stop done inv measure bound) s)
    (htrace : ∀ x ∈ trace, check x.1 x.2) :
    ∃ result s' trace', thread.finish handler.traced tick stop bound c (s, trace) =
      some (result, s', trace') ∧ done result s' ∧ ∀ x ∈ trace', check x.1 x.2 := by
  induction bound generalizing c s trace with
  | zero =>
    obtain ⟨point, s', trace', hrun, hpoint, hchecks⟩ := hfirst.traced htrace
    rcases hpoint with ⟨result, hstop, hdone⟩ | ⟨_, _, hlt⟩
    · exact ⟨result, s', trace', finish_stop 0 hrun hstop, hdone, hchecks⟩
    · exact absurd hlt (Nat.not_lt_zero _)
  | succ bound ih =>
    obtain ⟨point, s', trace', hrun, hpoint, hchecks⟩ := hfirst.traced htrace
    rcases hpoint with ⟨result, hstop, hdone⟩ | ⟨hstop, hinv, hlt⟩
    · exact ⟨result, s', trace', finish_stop _ hrun hstop, hdone, hchecks⟩
    · obtain ⟨next, hnext, haudit⟩ := hround point s' hinv
      rw [finish_resume bound hrun hstop hnext]
      refine ih (haudit.mono fun p q hsettled => ?_) hchecks
      rcases hsettled with hend | ⟨hgo, hinv', hlt'⟩
      · exact .inl hend
      · exact .inr ⟨hgo, hinv', by omega⟩

theorem finish_traced (handler : Handler Op Res σ) (fuel : Nat) (c : Cmd Op Res thread.Point) (s : σ)
    (trace : List (σ × Op)) :
    (thread.finish handler.traced tick stop fuel c (s, trace)).map (fun r => (r.1, r.2.1)) =
      thread.finish handler tick stop fuel c s := by
  induction fuel generalizing c s trace with
  | zero =>
    obtain ⟨hvalue, hstate⟩ := c.run_traced handler s trace
    rw [finish, finish, hvalue, Option.map_map, ← hstate]
    rfl
  | succ fuel ih =>
    obtain ⟨hvalue, hstate⟩ := c.run_traced handler s trace
    rw [finish, finish, hvalue]
    cases stop (c.run handler s).1 with
    | some result => exact congrArg (fun s => some (result, s)) hstate
    | none =>
      rw [Option.map_bind]
      congr 1
      funext next
      rw [← hstate]
      exact ih next _ _

end Thread

end Corekit.Foundation
