import Mathlib.Algebra.Order.Group.Multiset
import Mathlib.Data.Multiset.UnionInter

/-! Work items handed from producers to workers: an item is accepted, later
taken by one worker, and later performed by that worker. The system is stated
over multisets, so an implementation may keep its queue in any order. -/
namespace Corekit.Foundation

@[ext] structure Dispatch (τ ω : Type) where
  queued : Multiset τ
  held : Multiset (τ × ω)
  accepted : Multiset τ
  taken : Multiset (τ × ω)
  performed : Multiset (τ × ω)

namespace Dispatch

variable {τ ω : Type}

def empty : Dispatch τ ω := ⟨0, 0, 0, 0, 0⟩

inductive Step : Dispatch τ ω → Dispatch τ ω → Prop where
  | quiet (d : Dispatch τ ω) : Step d d
  | accept (d : Dispatch τ ω) (t : τ) (fresh : t ∉ d.accepted) :
      Step d { d with queued := t ::ₘ d.queued, accepted := t ::ₘ d.accepted }
  | take (d : Dispatch τ ω) (t : τ) (w : ω) (rest : Multiset τ) (h : d.queued = t ::ₘ rest) :
      Step d { d with queued := rest, held := (t, w) ::ₘ d.held, taken := (t, w) ::ₘ d.taken }
  | perform (d : Dispatch τ ω) (t : τ) (w : ω) (rest : Multiset (τ × ω))
      (h : d.held = (t, w) ::ₘ rest) :
      Step d { d with held := rest, performed := (t, w) ::ₘ d.performed }

/-- Every accepted item is in one place, and what was taken is what is held or
was performed. -/
structure Balanced (d : Dispatch τ ω) : Prop where
  places : d.accepted = d.queued + d.held.map Prod.fst + d.performed.map Prod.fst
  hands : d.taken = d.held + d.performed
  nodup : d.accepted.Nodup

theorem Balanced.empty : (empty : Dispatch τ ω).Balanced := ⟨by simp [Dispatch.empty],
  by simp [Dispatch.empty], by simp [Dispatch.empty]⟩

theorem Step.balanced {d d' : Dispatch τ ω} (h : Step d d') (hd : d.Balanced) :
    d'.Balanced := by
  cases h with
  | quiet => exact hd
  | accept t fresh =>
    refine ⟨?_, hd.hands, Multiset.nodup_cons.mpr ⟨fresh, hd.nodup⟩⟩
    simp only [hd.places, Multiset.cons_add]
  | take t w rest h =>
    refine ⟨?_, ?_, hd.nodup⟩
    · simp only [hd.places, h, Multiset.map_cons, Multiset.cons_add, Multiset.add_cons]
    · simp only [hd.hands, Multiset.cons_add]
  | perform t w rest h =>
    refine ⟨?_, ?_, hd.nodup⟩
    · simp only [hd.places, h, Multiset.map_cons, Multiset.cons_add, Multiset.add_cons]
    · simp only [hd.hands, h, Multiset.cons_add, Multiset.add_cons]

namespace Balanced

variable {d : Dispatch τ ω} (h : d.Balanced)
include h

theorem taken_nodup : (d.taken.map Prod.fst).Nodup := by
  have hle : d.taken.map Prod.fst ≤ d.accepted := by
    rw [h.hands, Multiset.map_add, h.places, add_assoc]
    exact Multiset.le_add_left _ _
  exact Multiset.nodup_of_le hle h.nodup

theorem taken_unique {t : τ} {v w : ω} (hv : (t, v) ∈ d.taken) (hw : (t, w) ∈ d.taken) :
    v = w := by
  have := Multiset.inj_on_of_nodup_map h.taken_nodup _ hv _ hw rfl
  exact congrArg Prod.snd this

theorem performed_le_taken : d.performed ≤ d.taken := by
  rw [h.hands]
  exact Multiset.le_add_left _ _

end Balanced

end Dispatch

end Corekit.Foundation
