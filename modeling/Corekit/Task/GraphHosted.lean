import Corekit.Task.Cancellation
import Corekit.Task.Quiescence
import Corekit.Task.GraphComplete
import Corekit.Task.Statistics

/-! `RunWithExecutor` on the thread pool itself. One client of the pool runs the
calls of `RunInternal`; the closures it submits are those that the workers take
and call. The surroundings of `RunInternal` are read off what the pool does, and
every step of the two together is a step among an executor as `RunInternal`
expects it. -/
namespace Corekit.Task
open Corekit.Api Corekit.Foundation

def Station.phase : Station → Phase
  | .queued => .queued
  | .waiting => .queued
  | .running => .running
  | .ended _ => .ended
  | .recorded _ => .ended

namespace Surroundings

variable (throws : TaskId → Bool) (s : Surroundings)

def closureOf (fn : Closure) : Option (Nat × GraphClosure) :=
  (s.closures.findIdx? fun c => fn.id? == some c.id).bind fun i => s.closures[i]?.map (i, ·)

/-- What the arrival of a closure at a station means for the graph: its function
is called, or it ends and an exception is recorded. A canceled closure ends
without a call. -/
def arrive (x : TaskEntry × Station) : Surroundings :=
  match s.closureOf x.1.fn with
  | none => s
  | some (i, c) =>
    match x.2 with
    | .running => { s with
        closures := s.closures.set i { c with phase := .running }
        started := s.started ++ [c.node] }
    | .ended .skipped => { s with closures := s.closures.set i { c with phase := .ended } }
    | .ended _ => { s with
        closures := s.closures.set i { c with phase := .ended }
        flags := if throws c.node then Function.update s.flags c.slot true else s.flags
        ended := s.ended ++ [c.node] }
    | _ => s

/-- What the return of a call means: the inline branch has called the function, or
a closure is with the executor and its `NodeCtx` has a cleared flag. -/
def answered : GraphOp → Answer → Surroundings
  | .invoke node, _ => { s with started := s.started ++ [node], ended := s.ended ++ [node] }
  | .submitEx slot node _, result =>
    match result.asTask with
    | .ok id => { s with
        closures := s.closures ++ [⟨id, node, slot, .queued⟩]
        flags := Function.update s.flags slot false }
    | .error _ => { s with flags := Function.update s.flags slot false }
  | .waitBatch _, _ => s
  | .failed _, _ => s

end Surroundings

/-- A run of a graph by one client of the pool: the pool, what is left of the
calls, and what has become of the closures. -/
structure Hosted (α : Type) where
  watch : Watch
  program : GraphProgram α
  around : Surroundings := {}

namespace Hosted

variable {α : Type} (throws : TaskId → Bool) (c : Nat) (h : Hosted α)

abbrev machine : Machine := h.watch.machine

/-- The closures of `RunInternal` catch what their function throws. -/
def catches (i : Nat) : Bool :=
  match h.machine.workers[i]? with
  | some (.inside entry _) => (h.around.closureOf entry.fn).isSome
  | _ => false

def reads (choice : Bool) : Bool :=
  match h.program with
  | .op (.invoke node) _ => throws node
  | .op (.failed slot) _ => h.around.flags slot
  | _ => choice

/-- The environment decides neither how a closure of the graph ends nor what the
graph finds in its own memory. -/
def resolve : Label → Label
  | .worker i threw => .worker i (threw && !h.catches i)
  | .client d choice => .client d (if d = c then h.reads throws choice else choice)
  | .stop => .stop

def answerOf (before after : Machine) : Option Answer :=
  (after.clients c).log[(before.clients c).log.length]?.map Prod.snd

def advance (w : Watch) (around : Surroundings) : Hosted α :=
  match h.program, answerOf c h.machine w.machine with
  | .op o next, some result => ⟨w, next (o.read result), around.answered o result⟩
  | program, _ => ⟨w, program, around⟩

def step (label : Label) : Option (Hosted α) :=
  (h.watch.step (h.resolve throws c label)).map fun w => h.advance c w
    ((h.machine.arrivals (h.resolve throws c label)).foldl (·.arrive throws) h.around)

end Hosted

namespace Surroundings

variable {throws : TaskId → Bool} {s : Surroundings} {fn : Closure}

theorem closureOf_some {i : Nat} {c : GraphClosure} (h : s.closureOf fn = some (i, c)) :
    s.closures[i]? = some c ∧ fn.id? = some c.id := by
  obtain ⟨j, hj, hmap⟩ := Option.bind_eq_some_iff.mp h
  obtain ⟨c', hc', heq⟩ := Option.map_eq_some_iff.mp hmap
  cases heq
  obtain ⟨hlt, hid, -⟩ := List.findIdx?_eq_some_iff_getElem.mp hj
  refine ⟨hc', ?_⟩
  rw [List.getElem?_eq_getElem hlt] at hc'
  cases Option.some.inj hc'
  exact beq_iff_eq.mp hid

theorem closureOf_none (h : s.closureOf fn = none) {c : GraphClosure} (hc : c ∈ s.closures) :
    fn.id? ≠ some c.id := by
  intro hid
  cases hfind : s.closures.findIdx? fun c => fn.id? == some c.id with
  | none =>
    have := List.findIdx?_eq_none_iff.mp hfind c hc
    simp [hid] at this
  | some i =>
    obtain ⟨hlt, -⟩ := List.findIdx?_eq_some_iff_getElem.mp hfind
    simp [closureOf, hfind, List.getElem?_eq_getElem hlt] at h

theorem arrive_none {x : TaskEntry × Station} (h : s.closureOf x.1.fn = none) :
    s.arrive throws x = s := by
  unfold arrive
  rw [h]

theorem ids_arrive (x : TaskEntry × Station) :
    (s.arrive throws x).closures.map GraphClosure.id = s.closures.map GraphClosure.id := by
  cases hof : s.closureOf x.1.fn with
  | none => rw [arrive_none hof]
  | some found =>
    obtain ⟨i, c⟩ := found
    have hset : ∀ phase, (s.closures.set i { c with phase := phase }).map GraphClosure.id =
        s.closures.map GraphClosure.id := fun phase =>
      map_set_phase (closureOf_some hof).1 phase _ fun _ => rfl
    simp only [arrive, hof]
    split
    · exact hset _
    · exact hset _
    · exact hset _
    · rfl

theorem ids_foldl_arrive (arrivals : List (TaskEntry × Station)) :
    (arrivals.foldl (·.arrive throws) s).closures.map GraphClosure.id =
      s.closures.map GraphClosure.id := by
  induction arrivals generalizing s with
  | nil => rfl
  | cons x rest ih => exact ih.trans (ids_arrive x)

theorem ids_answered (o : GraphOp) (result : Answer) {id : TaskId}
    (h : id ∈ s.closures.map GraphClosure.id) :
    id ∈ (s.answered o result).closures.map GraphClosure.id := by
  cases o with
  | submitEx slot node options =>
    simp only [answered]
    split
    · rw [List.map_append]
      exact List.mem_append_left _ h
    · exact h
  | _ => exact h

theorem mem_ids_answered {o : GraphOp} {result : Answer} {pending : List TaskId}
    (hpending : ∀ id ∈ pending, id ∈ s.closures.map GraphClosure.id) {id : TaskId}
    (h : id ∈ unwaited o.call result pending) :
    id ∈ (s.answered o result).closures.map GraphClosure.id := by
  cases o with
  | invoke node => exact hpending id h
  | failed slot => exact hpending id h
  | waitBatch ids => exact hpending id (List.mem_filter.mp h).1
  | submitEx slot node options =>
    rcases result with _ | (error | new) | _ | _ | _
    · exact hpending id h
    · exact hpending id h
    · simp only [answered, Answer.asTask, List.map_append, List.map_singleton]
      rcases List.mem_cons.mp h with rfl | h
      · exact List.mem_append_right _ (by simp)
      · exact List.mem_append_left _ (hpending id h)
    · exact hpending id h
    · exact hpending id h
    · exact hpending id h

/-- Every closure of the graph is where its phase says, and has an id of its own. -/
structure Placed (s : Surroundings) (places : Multiset (TaskEntry × Station)) : Prop where
  nodup : (s.closures.map GraphClosure.id).Nodup
  placed : ∀ c ∈ s.closures, ∃ x ∈ places, x.1.fn.id? = some c.id ∧ x.2.phase = c.phase

theorem Placed.same {s' : Surroundings} {places places' : Multiset (TaskEntry × Station)}
    (hs : s.Placed places) (hclosures : s'.closures = s.closures)
    (hplaces : ∀ x ∈ places, x ∈ places') : s'.Placed places' := by
  constructor
  · rw [hclosures]
    exact hs.nodup
  · rw [hclosures]
    intro c hc
    obtain ⟨x, hx, hid⟩ := hs.placed c hc
    exact ⟨x, hplaces x hx, hid⟩

variable {p q : Pool} {entry : TaskEntry} {station station' : Station}
  {arrivals : List (TaskEntry × Station)} {rest : Multiset (TaskEntry × Station)}

/-- The closures after an entry has moved: the one of the entry, if any, is in the
phase of the new station. -/
theorem closures_arrive (hmove : EntryMove p q entry station station' arrivals) {i : Nat}
    {c : GraphClosure} (hof : s.closureOf entry.fn = some (i, c))
    (hphase : station.phase = c.phase) :
    (arrivals.foldl (·.arrive throws) s).closures =
      s.closures.set i { c with phase := station'.phase } := by
  obtain ⟨hc, -⟩ := closureOf_some hof
  have hsame : s.closures.set i { c with phase := station.phase } = s.closures := by
    obtain ⟨hlt, rfl⟩ := List.getElem?_eq_some_iff.mp hc
    rw [hphase]
    exact List.set_getElem_self hlt
  cases hmove with
  | take same => exact hsame.symm
  | callPlain fn same => simp [arrive, hof, Station.phase]
  | call fn canceled heap table tally => simp [arrive, hof, Station.phase]
  | skip fn canceled heap table tally => simp [arrive, hof, Station.phase]
  | finish threw same => cases threw <;> simp [arrive, hof, Station.phase, Task.Outcome.of]
  | record failed fn heap table tally =>
    simp only [List.foldl_cons, List.foldl_nil, arrive, hof]
    exact hsame.symm
  | mark outcome fn pool =>
    simp only [List.foldl_cons, List.foldl_nil, arrive, hof]
    exact hsame.symm

theorem foldl_arrive_none (hmove : EntryMove p q entry station station' arrivals)
    (hof : s.closureOf entry.fn = none) : arrivals.foldl (·.arrive throws) s = s := by
  rcases hmove.path with ⟨rfl, -⟩ | ⟨rfl, -⟩
  · rfl
  · exact arrive_none hof

theorem Placed.move (hs : s.Placed ((entry, station) ::ₘ rest))
    (hunique : ∀ x ∈ (entry, station) ::ₘ rest, ∀ id, entry.fn.id? = some id →
      x.1.fn.id? = some id → x = (entry, station))
    (hmove : EntryMove p q entry station station' arrivals) :
    (arrivals.foldl (·.arrive throws) s).Placed ((entry, station') ::ₘ rest) := by
  -- a closure of another entry is where it was
  have hother : ∀ c ∈ s.closures, entry.fn.id? ≠ some c.id →
      ∃ x ∈ (entry, station') ::ₘ rest, x.1.fn.id? = some c.id ∧ x.2.phase = c.phase := by
    intro c hc hne
    obtain ⟨x, hx, hid, hphase⟩ := hs.placed c hc
    refine ⟨x, Multiset.mem_cons_of_mem ((Multiset.mem_cons.mp hx).resolve_left ?_), hid, hphase⟩
    rintro rfl
    exact hne hid
  cases hof : s.closureOf entry.fn with
  | none =>
    rw [foldl_arrive_none hmove hof]
    exact ⟨hs.nodup, fun c hc => hother c hc (closureOf_none hof hc)⟩
  | some found =>
    obtain ⟨i, c⟩ := found
    obtain ⟨hc, hid⟩ := closureOf_some hof
    obtain ⟨x, hx, hxid, hphase⟩ := hs.placed c (List.mem_of_getElem? hc)
    cases hunique x hx c.id hid hxid
    have hclosures : (arrivals.foldl (·.arrive throws) s).closures = _ :=
      closures_arrive hmove hof hphase
    constructor
    · rw [ids_foldl_arrive]
      exact hs.nodup
    · intro c' hc'
      rw [hclosures] at hc'
      obtain ⟨j, hj⟩ := List.mem_iff_getElem?.mp hc'
      rw [List.getElem?_set] at hj
      split_ifs at hj with hij hlt
      · cases Option.some.inj hj
        exact ⟨(entry, station'), Multiset.mem_cons_self _ _, hid, rfl⟩
      · apply hother c' (List.mem_of_getElem? hj)
        intro hsame
        rw [hid] at hsame
        apply hij
        refine (List.getElem?_inj ?_ hs.nodup).mp ?_
        · rw [List.length_map]
          exact (List.getElem?_eq_some_iff.mp hc).1
        · rw [List.getElem?_map, List.getElem?_map, hc, hj]
          exact hsame

theorem Placed.executes (hs : s.Placed ((entry, station) ::ₘ rest))
    (hunique : ∀ x ∈ (entry, station) ::ₘ rest, ∀ id, entry.fn.id? = some id →
      x.1.fn.id? = some id → x = (entry, station))
    (hspared : ∀ c ∈ s.closures, ∀ state serialKey, entry.fn = .tracked c.id state serialKey →
      (p.heap state).canceled = false)
    (hmove : EntryMove p q entry station station' arrivals) :
    Relation.ReflGen (Executes throws) s (arrivals.foldl (·.arrive throws) s) := by
  cases hof : s.closureOf entry.fn with
  | none =>
    rw [foldl_arrive_none hmove hof]
  | some found =>
    obtain ⟨i, c⟩ := found
    obtain ⟨hc, hid⟩ := closureOf_some hof
    obtain ⟨x, hx, hxid, hphase⟩ := hs.placed c (List.mem_of_getElem? hc)
    cases hunique x hx c.id hid hxid
    cases hmove with
    | take same => exact .refl
    | callPlain fn same => simp [fn, Closure.id?] at hid
    | call fn canceled heap table tally =>
      simp only [List.foldl_cons, List.foldl_nil, arrive, hof]
      exact .single (.start s i c hc hphase.symm)
    | skip fn canceled heap table tally =>
      rw [fn] at hid
      cases Option.some.inj hid
      rw [hspared c (List.mem_of_getElem? hc) _ _ fn] at canceled
      cases canceled
    | finish threw same =>
      have hstep : Executes throws s _ := .finish s i c hc hphase.symm
      cases threw with
      | false =>
        simp only [List.foldl_cons, List.foldl_nil, arrive, hof, Task.Outcome.of]
        exact .single hstep
      | true =>
        simp only [List.foldl_cons, List.foldl_nil, arrive, hof, Task.Outcome.of]
        exact .single hstep
    | record failed fn heap table tally =>
      simp only [List.foldl_cons, List.foldl_nil, arrive, hof]
      exact .refl
    | mark outcome fn pool =>
      simp only [List.foldl_cons, List.foldl_nil, arrive, hof]
      exact .refl

end Surroundings

end Corekit.Task
