import Corekit.Foundation.Transition

/-! Calls that look at a shared state in one critical section and change it in
a later one. In between, other calls may get in; a call whose second section
does what the whole call would do now is as good as one that waited. -/
namespace Corekit.Foundation

/-- What a call does under the lock. `read` ends the call with an answer, or
prepares a change; `direct` calls do both without letting the lock go. -/
structure SectionCall (σ β ρ : Type) where
  direct : Bool := false
  read : σ → Except ρ β
  write : β → σ → ρ × σ

def SectionCall.whole (call : SectionCall σ β ρ) (s : σ) : ρ × σ :=
  match call.read s with
  | .error answer => (answer, s)
  | .ok change => call.write change s

inductive SectionPc (β ρ : Type) where
  | ready
  | prepared (change : β)
  | finished (answer : ρ)

structure SectionMachine (σ β ρ : Type) where
  state : σ
  pcs : Nat → SectionPc β ρ := fun _ => .ready
  log : List (Nat × ρ) := []

namespace SectionMachine

variable {σ β ρ : Type} (calls : List (SectionCall σ β ρ))

def start (s : σ) : SectionMachine σ β ρ := { state := s }

def finish (m : SectionMachine σ β ρ) (i : Nat) (outcome : ρ × σ) : SectionMachine σ β ρ where
  state := outcome.2
  pcs := Function.update m.pcs i (.finished outcome.1)
  log := m.log ++ [(i, outcome.1)]

def step (m : SectionMachine σ β ρ) (i : Nat) : Option (SectionMachine σ β ρ) :=
  match calls[i]?, m.pcs i with
  | none, _ => none
  | some _, .finished _ => none
  | some call, .prepared change => some (m.finish i (call.write change m.state))
  | some call, .ready =>
    if call.direct then some (m.finish i (call.whole m.state))
    else
      match call.read m.state with
      | .error answer => some (m.finish i (answer, m.state))
      | .ok change => some { m with pcs := Function.update m.pcs i (.prepared change) }

/-- A prepared change is what the whole call would do now. -/
def Current (m : SectionMachine σ β ρ) (i : Nat) : Prop :=
  ∀ call change, calls[i]? = some call → m.pcs i = .prepared change →
    call.write change m.state = call.whole m.state

/-- The calls one after the other. -/
def Serial : σ → List (Nat × ρ) → σ → Prop
  | s, [], s' => s = s'
  | s, (i, answer) :: rest, s' =>
    ∃ call mid, calls[i]? = some call ∧ call.whole s = (answer, mid) ∧ Serial mid rest s'

variable {calls} {m m' : SectionMachine σ β ρ} {s s' : σ}

theorem Serial.snoc {log : List (Nat × ρ)} (h : Serial calls s log s') {i : Nat}
    {call : SectionCall σ β ρ} (hi : calls[i]? = some call) :
    Serial calls s (log ++ [(i, (call.whole s').1)]) (call.whole s').2 := by
  induction log generalizing s with
  | nil =>
    cases h
    exact ⟨call, _, hi, rfl, rfl⟩
  | cons entry rest ih =>
    obtain ⟨first, mid, hfirst, hwhole, hrest⟩ := h
    exact ⟨first, mid, hfirst, hwhole, ih hrest⟩

theorem Serial.mem {log : List (Nat × ρ)} (h : Serial calls s log s') {entry : Nat × ρ}
    (hmem : entry ∈ log) : entry.1 < calls.length := by
  induction log generalizing s with
  | nil => cases hmem
  | cons first rest ih =>
    obtain ⟨call, mid, hcall, -, hrest⟩ := h
    rcases List.mem_cons.mp hmem with rfl | hmem
    · exact (List.getElem?_eq_some_iff.mp hcall).1
    · exact ih hrest hmem

structure Logged (calls : List (SectionCall σ β ρ)) (s : σ) (m : SectionMachine σ β ρ) : Prop where
  serial : Serial calls s m.log m.state
  nodup : (m.log.map Prod.fst).Nodup
  finished : ∀ i answer, (i, answer) ∈ m.log ↔ m.pcs i = .finished answer

theorem Logged.start (calls : List (SectionCall σ β ρ)) (s : σ) : Logged calls s (start s) :=
  ⟨rfl, by simp [SectionMachine.start], by simp [SectionMachine.start]⟩

theorem Logged.finish (h : Logged calls s m) {i : Nat} {call : SectionCall σ β ρ}
    (hi : calls[i]? = some call) (hrunning : ∀ answer, m.pcs i ≠ .finished answer) :
    Logged calls s (m.finish i (call.whole m.state)) := by
  have hnew : ∀ answer, (i, answer) ∉ m.log := fun answer hmem =>
    hrunning answer ((h.finished i answer).mp hmem)
  refine ⟨h.serial.snoc hi, ?_, fun j answer => ?_⟩
  · change ((m.log ++ [(i, (call.whole m.state).1)]).map Prod.fst).Nodup
    rw [List.map_append, List.nodup_append]
    refine ⟨h.nodup, by simp, ?_⟩
    rintro a ha b hb rfl
    obtain ⟨⟨j, answer⟩, hmem, rfl⟩ := List.mem_map.mp ha
    cases List.mem_singleton.mp hb
    exact hnew answer hmem
  · change (j, answer) ∈ m.log ++ [(i, (call.whole m.state).1)] ↔
      Function.update m.pcs i (.finished (call.whole m.state).1) j = .finished answer
    rw [List.mem_append, List.mem_singleton, h.finished j answer]
    by_cases hji : j = i
    · subst hji
      simp [hrunning answer, eq_comm]
    · simp [hji]

theorem Logged.perm_range (h : Logged calls s m)
    (hdone : ∀ i < calls.length, ∃ answer, m.pcs i = .finished answer) :
    (m.log.map Prod.fst).Perm (List.range calls.length) := by
  rw [List.perm_ext_iff_of_nodup h.nodup List.nodup_range]
  intro i
  rw [List.mem_range, List.mem_map]
  constructor
  · rintro ⟨entry, hmem, rfl⟩
    exact h.serial.mem hmem
  · intro hi
    obtain ⟨answer, hanswer⟩ := hdone i hi
    exact ⟨(i, answer), (h.finished i answer).mpr hanswer, rfl⟩

theorem Logged.step (h : Logged calls s m) {i : Nat} (hcurrent : m.Current calls i)
    (hstep : m.step calls i = some m') : Logged calls s m' := by
  unfold SectionMachine.step at hstep
  split at hstep
  · cases hstep
  · cases hstep
  · next call change hi hpc =>
    cases hstep
    rw [hcurrent call change hi hpc]
    exact h.finish hi fun answer hfinished => by
      rw [hpc] at hfinished
      cases hfinished
  · next call hi hpc =>
    have hrunning : ∀ answer, m.pcs i ≠ .finished answer := fun answer hfinished => by
      rw [hpc] at hfinished
      cases hfinished
    split_ifs at hstep
    · cases hstep
      exact h.finish hi hrunning
    · split at hstep
      · next answer hread =>
        cases hstep
        have hwhole : call.whole m.state = (answer, m.state) := by
          rw [SectionCall.whole, hread]
        rw [← hwhole]
        exact h.finish hi hrunning
      · next change hread =>
        cases hstep
        refine ⟨h.serial, h.nodup, fun j answer => (h.finished j answer).trans ?_⟩
        by_cases hji : j = i
        · subst hji
          simp [hpc]
        · simp [Function.update_of_ne hji]

/-- In a run of current changes, the state is that of the finished calls, one
after the other in the order in which they finished. -/
theorem runs_serial {labels : List Nat}
    (hcurrent : Meets (SectionMachine.step calls) (Current calls) (start s) labels)
    (hrun : runs (SectionMachine.step calls) (start s) labels = some m) :
    Logged calls s m := by
  exact runs_invariant_of_meets (fun _ _ _ h hcurrent hstep => h.step hcurrent hstep)
    (Logged.start calls s) hcurrent hrun

end SectionMachine

end Corekit.Foundation
