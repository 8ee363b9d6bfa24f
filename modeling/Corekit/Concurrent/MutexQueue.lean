import Corekit.Concurrent.RingFifo

/-! The mutex-guarded queue, and what a pop that fails leaves behind in it and in
the ring buffer. Every call holds `mu_` from end to end. -/
namespace Corekit.Concurrent
open Corekit.Api Corekit.Foundation

variable {T : Type}

structure MutexQueue (T : Type) where
  capacity : Nat
  items : List T

namespace MutexQueue

variable (q : MutexQueue T)

def atCapacity : Bool := q.capacity > 0 ∧ q.items.length ≥ q.capacity

/-- `queue_.push_back` with the two handlers around it. A deque that throws is as
it was before. -/
def pushBack (value : T) : Option Thrown → Status × MutexQueue T
  | some .badAlloc => (ringStatus .kInternalError "queue allocation failed", q)
  | some .other => (ringStatus .kInternalError "queue push failed", q)
  | none => (.okStatus, { q with items := q.items ++ [value] })

def tryPush (value : T) (fault : Option Thrown) : Status × MutexQueue T :=
  if q.atCapacity then (ringStatus .kWouldBlock "queue is full", q) else q.pushBack value fault

/-- `left` is what the move leaves in the variable of the caller. -/
def tryPushMove (value left : T) (fault : Option Thrown) : Status × T × MutexQueue T :=
  if q.atCapacity then (ringStatus .kWouldBlock "queue is full", value, q)
  else
    let (status, q) := q.pushBack value fault
    (status, left, q)

/-- The loop of `TryPushBatch`; `fault` answers for the element of each index. -/
def pushLoop (fault : Nat → Option Thrown) :
    MutexQueue T → Nat → List T → Status × Nat × MutexQueue T
  | q, done, [] => (.okStatus, done, q)
  | q, done, value :: rest =>
    if q.atCapacity then (ringStatus .kWouldBlock "queue is full", done, q)
    else
      match fault done with
      | some thrown => ((q.pushBack value (some thrown)).1, done, q)
      | none => pushLoop fault (q.pushBack value none).2 (done + 1) rest

/-- `values` is `none` for a null pointer, and has `count` elements otherwise. -/
def tryPushBatch (values : Option (List T)) (count : Nat) (pushed : Option Nat)
    (fault : Nat → Option Thrown) : Status × Option Nat × MutexQueue T :=
  match values with
  | none =>
    if count > 0 then
      (ringStatus .kInvalidArgument "values is null", pushed.map fun _ => 0, q)
    else (.okStatus, pushed.map fun _ => 0, q)
  | some values =>
    let (status, done, q) := q.pushLoop fault 0 values
    (status, pushed.map fun _ => done, q)

/-- `none` is an exception that leaves the call. -/
def tryPop (faults : PopFaults T) : Option (Result T) × MutexQueue T :=
  match q.items with
  | [] => (some (.error (ringStatus .kWouldBlock "queue is empty")), q)
  | value :: rest =>
    match faults.move with
    | .error left => (none, { q with items := left :: rest })
    | .ok _ =>
      if faults.copyThrows then (none, { q with items := rest })
      else (some (.ok value), { q with items := rest })

/-- `fault` is what a throwing assignment leaves in the variable of the caller;
its exception leaves the call. -/
def tryPeek (out fault : Option T) : Option Status × Option T :=
  match out, q.items, fault with
  | none, _, _ => (some (ringStatus .kInvalidArgument "out is null"), none)
  | some kept, [], _ => (some (ringStatus .kWouldBlock "queue is empty"), some kept)
  | some _, value :: _, none => (some .okStatus, some value)
  | some _, _ :: _, some left => (none, some left)

/-- The loop of `TryPopBatch`. `fault` answers for the assignment to the place of
each index: what a throwing one leaves in the element, and in that place. -/
def popLoop (fault : Nat → Option (T × T)) :
    Nat → Nat → List T → List T → Status × Nat × List T × List T
  | 0, done, items, out => (.okStatus, done, items, out)
  | _ + 1, done, [], out => (.okStatus, done, [], out)
  | room + 1, done, value :: rest, out =>
    match fault done with
    | none => popLoop fault room (done + 1) rest (out.set done value)
    | some (kept, written) =>
      (ringStatus .kInternalError "queue pop batch failed", done, kept :: rest,
        out.set done written)

def tryPopBatch (out : Option (List T)) (capacity : Nat) (popped : Option Nat)
    (fault : Nat → Option (T × T)) : Status × Option (List T) × Option Nat × MutexQueue T :=
  match out with
  | none =>
    if capacity > 0 then
      (ringStatus .kInvalidArgument "out_values is null", none, popped.map fun _ => 0, q)
    else if q.items.isEmpty then
      (ringStatus .kWouldBlock "queue is empty", none, popped.map fun _ => 0, q)
    else (.okStatus, none, popped.map fun _ => 0, q)
  | some out =>
    if q.items.isEmpty then
      (ringStatus .kWouldBlock "queue is empty", some out, popped.map fun _ => 0, q)
    else
      let (status, done, items, out) := popLoop fault capacity 0 q.items out
      (status, some out, popped.map fun _ => done, { q with items := items })

def clear : Status × MutexQueue T := (.okStatus, { q with items := [] })

/-- A batch takes an element out of the queue only when it is in the hands of the
caller: delivered and remaining elements are those there were. -/
theorem popLoop_keeps {fault : Nat → Option (T × T)} {room done : Nat} {items out : List T}
    (hroom : done + room ≤ out.length)
    (hfault : ∀ i kept written, fault (done + i) = some (kept, written) → items[i]? = some kept) :
    let (_, count, left, written) := popLoop fault room done items out
    written.take count ++ left = out.take done ++ items := by
  fun_induction popLoop fault room done items out with
  | case1 => rfl
  | case2 => rfl
  | case3 room done value rest out hnone ih =>
    have hdone : done < out.length := by omega
    have hnext := ih (by rw [List.length_set]; omega) fun i kept written h => by
      have := hfault (i + 1) kept written (by rwa [Nat.add_right_comm] at h)
      simpa using this
    have htake : (out.set done value).take (done + 1) = out.take done ++ [value] := by
      rw [List.take_add_one, List.take_set_of_le (Nat.le_refl done),
        List.getElem?_set_self hdone]
      rfl
    rw [htake, List.append_assoc] at hnext
    exact hnext
  | case4 room done value rest out kept written hsome =>
    have hkept : some value = some kept := hfault 0 kept written hsome
    dsimp only
    rw [List.take_set_of_le (Nat.le_refl done), Option.some.inj hkept]

end MutexQueue

namespace RingBuffer

variable {r r' : RingBuffer T}

theorem Sound.of_call (h : r.Sound) {call : RingCall T} {answer : RingAnswer T}
    (hcall : r.call call = some (answer, r')) : r'.Sound := by
  cases call with
  | tryPush value fault =>
    cases fault with
    | none =>
      have hclean : RingCall.Faultless (.tryPush value none) := rfl
      obtain ⟨answer', r'', hcall', hsound, _⟩ := h.call hclean
      rw [hcall'] at hcall
      cases hcall
      exact hsound
    | some fault =>
      obtain ⟨thrown, left⟩ := fault
      simp only [RingBuffer.call, tryPush] at hcall
      split at hcall
      · cases hcall
        exact h
      · rename_i hfull
        rw [if_pos h.tail_lt] at hcall
        have hset := (h.set_tail (by omega) left).1
        cases thrown <;> cases hcall <;> exact hset
  | tryPop faults =>
    obtain ⟨r'', hpop, hsound, _⟩ := h.tryPop faults
    rw [RingBuffer.call, hpop] at hcall
    cases hcall
    exact hsound
  | tryPeek out fault =>
    obtain ⟨_, _, hsame⟩ := Option.map_eq_some_iff.mp hcall
    cases hsame
    exact h
  | clear =>
    cases hcall
    refine ⟨Nat.zero_le _, h.cells, ?_, ?_, fun _ => (Nat.zero_mod _).symm⟩
    · exact Nat.zero_lt_of_lt h.head_lt
    · exact Nat.zero_lt_of_lt h.tail_lt
  | size | isEmpty | isFull =>
    cases hcall
    exact h

theorem sound_of_run {capacity : Nat} {fresh : T} {calls : List (RingCall T)} {last : RingWorld T}
    (hrun : runs RingWorld.step (.start capacity fresh) calls = some last) : last.ring.Sound := by
  have hkeep : ∀ (w : RingWorld T) (call : RingCall T) (w' : RingWorld T), w.ring.Sound →
      w.step call = some w' → w'.ring.Sound := by
    intro w call w' hsound hstep
    obtain ⟨⟨answer, ring⟩, hcall, rfl⟩ := Option.map_eq_some_iff.mp hstep
    exact hsound.of_call hcall
  exact runs_invariant hkeep (sound_create capacity fresh) hrun

end RingBuffer

def PopFaults.Harmless (faults : PopFaults T) (front : T) : Prop :=
  match faults.move with
  | .error left => left = front
  | .ok _ => faults.copyThrows = false

/-- A pop that returns a value returns the oldest element and takes just it; one
that does not leaves the elements as they were. -/
@[mk_iff losesNothing_iff]
structure LosesNothing (before : List T) (outcome : Option (Result T)) (after : List T) : Prop where
  delivers : ∀ value, outcome = some (.ok value) → before = value :: after
  keeps : (∀ value, outcome ≠ some (.ok value)) → after = before

theorem losesNothing_popContents_iff (contents : List T) (faults : PopFaults T) :
    LosesNothing contents (some (RingBuffer.popContents contents faults).1)
      (RingBuffer.popContents contents faults).2 ↔
      ∀ front ∈ contents.head?, faults.Harmless front := by
  rw [losesNothing_iff]
  cases contents with
  | nil => simp [RingBuffer.popContents]
  | cons value rest =>
    cases hmove : faults.move with
    | error left => simp [RingBuffer.popContents, PopFaults.Harmless, hmove]
    | ok left =>
      cases hcopy : faults.copyThrows <;>
        simp [RingBuffer.popContents, PopFaults.Harmless, hmove, hcopy]

theorem MutexQueue.tryPop_eq (q : MutexQueue T) (faults : PopFaults T) :
    (∀ value, (q.tryPop faults).1 = some (.ok value) ↔
      (RingBuffer.popContents q.items faults).1 = .ok value) ∧
    (q.tryPop faults).2.items = (RingBuffer.popContents q.items faults).2 := by
  obtain ⟨capacity, items⟩ := q
  cases items with
  | nil => simp [MutexQueue.tryPop, RingBuffer.popContents]
  | cons value rest =>
    cases hmove : faults.move with
    | error left => simp [MutexQueue.tryPop, RingBuffer.popContents, hmove]
    | ok left =>
      cases hcopy : faults.copyThrows <;>
        simp [MutexQueue.tryPop, RingBuffer.popContents, hmove, hcopy]

/-- Which pops lose nothing: for the buffer in every state that any calls with any
failures lead to, for the queue in every state. -/
theorem tryPop_loses_nothing_iff (faults : PopFaults T) :
    (∀ (capacity : Nat) (fresh : T) (calls : List (RingCall T)) (last : RingWorld T),
      runs RingWorld.step (.start capacity fresh) calls = some last →
      ∃ result after, last.ring.tryPop faults = some (result, after) ∧
        (LosesNothing last.ring.contents (some result) after.contents ↔
          ∀ front ∈ last.ring.contents.head?, faults.Harmless front)) ∧
    ∀ q : MutexQueue T,
      LosesNothing q.items (q.tryPop faults).1 (q.tryPop faults).2.items ↔
        ∀ front ∈ q.items.head?, faults.Harmless front := by
  constructor
  · intro capacity fresh calls last hrun
    obtain ⟨after, hpop, -, -, hafter⟩ := (RingBuffer.sound_of_run hrun).tryPop faults
    refine ⟨_, after, hpop, ?_⟩
    rw [hafter]
    exact losesNothing_popContents_iff ..
  · intro q
    obtain ⟨hok, hitems⟩ := q.tryPop_eq faults
    rw [hitems, ← losesNothing_popContents_iff, losesNothing_iff, losesNothing_iff]
    simp only [ne_eq, hok, Option.some.injEq]

/-- A move that throws and leaves the element alone. -/
theorem tryPop_loses_nothing_seven :
    ∃ last, runs RingWorld.step (.start 2 0) [.tryPush 7 none] = some last ∧
      ∃ result after, last.ring.tryPop ⟨.error 7, false⟩ = some (result, after) ∧
        LosesNothing last.ring.contents (some result) after.contents ∧
        LosesNothing [7] (MutexQueue.tryPop ⟨0, [7]⟩ ⟨.error 7, false⟩).1
          (MutexQueue.tryPop ⟨0, [7]⟩ ⟨.error 7, false⟩).2.items := by
  obtain ⟨hring, hqueue⟩ := tryPop_loses_nothing_iff (T := Nat) ⟨.error 7, false⟩
  refine ⟨_, rfl, ?_⟩
  obtain ⟨result, after, hpop, hiff⟩ := hring 2 0 [.tryPush 7 none] _ rfl
  refine ⟨result, after, hpop, hiff.mpr ?_, (hqueue ⟨0, [7]⟩).mpr ?_⟩
  · intro front hfront
    exact Option.some.inj hfront
  · intro front hfront
    exact Option.some.inj hfront

/-- The copy into the result throws: the element is gone from the buffer, and from
the queue. -/
theorem tryPop_loses_seven :
    ∃ last, runs RingWorld.step (.start 2 0) [.tryPush 7 none] = some last ∧
      last.ring.contents = [7] ∧
      (∃ after, last.ring.tryPop ⟨.ok 0, true⟩ =
        some (.error (ringStatus .kInternalError "ring buffer pop failed"), after) ∧
        after.contents = []) ∧
      (MutexQueue.tryPop ⟨0, [7]⟩ ⟨.ok 0, true⟩).1 = none ∧
      (MutexQueue.tryPop ⟨0, [7]⟩ ⟨.ok 0, true⟩).2.items = [] :=
  ⟨_, rfl, rfl, ⟨_, rfl, rfl⟩, rfl, rfl⟩

end Corekit.Concurrent
