import Corekit.Concurrent.RingBuffer

/-! The ring buffer against a queue that is a bounded list: sequences of calls,
what each answers, and the two side by side. -/
namespace Corekit.Concurrent
open Corekit.Api Corekit.Foundation

variable {T : Type}

inductive RingCall (T : Type) where
  | tryPush (value : T) (fault : Option (Thrown × T))
  | tryPop (faults : PopFaults T)
  | tryPeek (out fault : Option T)
  | clear
  | size
  | isEmpty
  | isFull

inductive RingAnswer (T : Type) where
  | status (status : Status)
  | popped (result : Result T)
  | peeked (status : Status) (out : Option T)
  | count (size : Nat)
  | flag (value : Bool)
  deriving Repr

/-- No copy and no move of an element fails. What a move leaves in the element is
still open. -/
def RingCall.Faultless : RingCall T → Prop
  | .tryPush _ fault => fault = none
  | .tryPop faults => (∃ left, faults.move = .ok left) ∧ faults.copyThrows = false
  | .tryPeek _ fault => fault = none
  | .clear | .size | .isEmpty | .isFull => True

def RingBuffer.call (r : RingBuffer T) : RingCall T → Option (RingAnswer T × RingBuffer T)
  | .tryPush value fault => (r.tryPush value fault).map fun (status, r) => (.status status, r)
  | .tryPop faults => (r.tryPop faults).map fun (result, r) => (.popped result, r)
  | .tryPeek out fault => (r.tryPeek out fault).map fun (status, out) => (.peeked status out, r)
  | .clear => some (.status r.clear.1, r.clear.2)
  | .size => some (.count r.size, r)
  | .isEmpty => some (.flag r.isEmpty, r)
  | .isFull => some (.flag r.isFull, r)

structure RingWorld (T : Type) where
  ring : RingBuffer T
  answers : List (RingAnswer T)

namespace RingWorld

def start (capacity : Nat) (fresh : T) : RingWorld T := ⟨.create capacity fresh, []⟩

def step (w : RingWorld T) (call : RingCall T) : Option (RingWorld T) :=
  (w.ring.call call).map fun (answer, ring) => ⟨ring, w.answers ++ [answer]⟩

end RingWorld

/-- The queue as a list that never gets longer than its capacity. -/
structure BoundedFifo (T : Type) where
  capacity : Nat
  items : List T

namespace BoundedFifo

variable (q : BoundedFifo T)

def full : Bool := q.capacity ≤ q.items.length

/-- What is reported as full: never a queue without any room at all. -/
def reportsFull : Bool := 0 < q.capacity ∧ q.capacity ≤ q.items.length

/-- `isFull` decides what the call of that name answers. -/
def call (isFull : BoundedFifo T → Bool) : RingCall T → RingAnswer T × BoundedFifo T
  | .tryPush value _ =>
    if q.items.length < q.capacity then
      (.status .okStatus, { q with items := q.items ++ [value] })
    else (.status (ringStatus .kWouldBlock "ring buffer is full"), q)
  | .tryPop _ =>
    match q.items with
    | [] => (.popped (.error (ringStatus .kWouldBlock "ring buffer is empty")), q)
    | value :: rest => (.popped (.ok value), { q with items := rest })
  | .tryPeek none _ => (.peeked (ringStatus .kInvalidArgument "out is null") none, q)
  | .tryPeek (some kept) _ =>
    match q.items with
    | [] => (.peeked (ringStatus .kWouldBlock "ring buffer is empty") (some kept), q)
    | value :: _ => (.peeked .okStatus (some value), q)
  | .clear => (.status .okStatus, { q with items := [] })
  | .size => (.count q.items.length, q)
  | .isEmpty => (.flag q.items.isEmpty, q)
  | .isFull => (.flag (isFull q), q)

def serve (isFull : BoundedFifo T → Bool) :
    BoundedFifo T → List (RingCall T) → List (RingAnswer T) × BoundedFifo T
  | q, [] => ([], q)
  | q, call :: rest =>
    let (answer, next) := q.call isFull call
    let (answers, last) := serve isFull next rest
    (answer :: answers, last)

end BoundedFifo

namespace RingBuffer

variable {r : RingBuffer T}

def toFifo (r : RingBuffer T) : BoundedFifo T := ⟨r.capacity, r.contents⟩

theorem create_pos (capacity : Nat) (fresh : T) : 0 < (create capacity fresh).data.length := by
  rw [create, List.length_replicate]
  split <;> omega

theorem sound_create (capacity : Nat) (fresh : T) : (create capacity fresh).Sound where
  size_le := Nat.zero_le _
  cells := List.length_replicate ..
  head_lt := create_pos capacity fresh
  tail_lt := create_pos capacity fresh
  tail_eq _ := (Nat.zero_mod _).symm

theorem Sound.isEmpty_contents (h : r.Sound) : r.contents.isEmpty = r.isEmpty := by
  rw [isEmpty, ← h.length_contents]
  cases r.contents <;> rfl

theorem Sound.call (h : r.Sound) {call : RingCall T} (hcall : call.Faultless) :
    ∃ answer r', r.call call = some (answer, r') ∧ r'.Sound ∧
      r.toFifo.call BoundedFifo.reportsFull call = (answer, r'.toFifo) := by
  have hlength := h.length_contents
  cases call with
  | tryPush value fault =>
    cases hcall
    by_cases hfull : r.capacity = 0 ∨ r.size ≥ r.capacity
    · have hroom : ¬ r.contents.length < r.capacity := by omega
      refine ⟨_, r, by rw [RingBuffer.call, tryPush, if_pos hfull]; rfl, h, ?_⟩
      rw [BoundedFifo.call, toFifo, if_neg hroom]
    · have hroom : r.contents.length < r.capacity := by omega
      obtain ⟨hsound, hcontents⟩ := h.push (by omega) value
      refine ⟨.status .okStatus, _, ?_, hsound, ?_⟩
      · rw [RingBuffer.call, tryPush, if_neg hfull, if_pos h.tail_lt, modulo, if_neg (by omega)]
        rfl
      · rw [BoundedFifo.call, toFifo, if_pos hroom, toFifo, hcontents]
  | tryPop faults =>
    obtain ⟨⟨left, hleft⟩, hcopy⟩ := hcall
    obtain ⟨r', hpop, hsound, hcapacity, hcontents⟩ := h.tryPop faults
    refine ⟨_, r', by rw [RingBuffer.call, hpop]; rfl, hsound, ?_⟩
    rw [BoundedFifo.call, toFifo, toFifo, hcapacity, hcontents]
    cases r.contents <;> simp [popContents, hleft, hcopy]
  | tryPeek out fault =>
    cases hcall
    cases out with
    | none => exact ⟨_, r, rfl, h, rfl⟩
    | some kept =>
      by_cases hsize : r.size = 0
      · refine ⟨_, r, by rw [RingBuffer.call, tryPeek, if_pos hsize]; rfl, h, ?_⟩
        simp only [BoundedFifo.call, toFifo, h.contents_of_empty hsize]
      · obtain ⟨value, rest, hvalue, hcontents⟩ := h.front hsize
        refine ⟨_, r, by rw [RingBuffer.call, tryPeek, if_neg hsize, hvalue]; rfl, h, ?_⟩
        simp only [BoundedFifo.call, toFifo, hcontents]
  | clear =>
    refine ⟨_, _, rfl, ⟨Nat.zero_le _, h.cells, ?_, ?_, fun _ => (Nat.zero_mod _).symm⟩, rfl⟩
    · exact Nat.zero_lt_of_lt h.head_lt
    · exact Nat.zero_lt_of_lt h.tail_lt
  | size => exact ⟨_, r, rfl, h, by rw [BoundedFifo.call, toFifo, hlength]⟩
  | isEmpty => exact ⟨_, r, rfl, h, by rw [BoundedFifo.call, toFifo, h.isEmpty_contents]⟩
  | isFull =>
    refine ⟨_, r, rfl, h, ?_⟩
    rw [BoundedFifo.call, BoundedFifo.reportsFull, toFifo, isFull, hlength]

end RingBuffer

namespace RingWorld

variable {w : RingWorld T}

theorem serves (h : w.ring.Sound) (calls : List (RingCall T))
    (hcalls : ∀ call ∈ calls, call.Faultless) :
    ∃ last, runs step w calls = some last ∧ last.ring.Sound ∧
      w.ring.toFifo.serve BoundedFifo.reportsFull calls = (last.answers.drop w.answers.length,
        last.ring.toFifo) ∧ w.answers <+: last.answers := by
  induction calls generalizing w with
  | nil => exact ⟨w, rfl, h, by rw [List.drop_length]; rfl, List.prefix_rfl⟩
  | cons call rest ih =>
    obtain ⟨answer, ring, hcall, hsound, hfifo⟩ := h.call (hcalls call List.mem_cons_self)
    have hstep : step w call = some ⟨ring, w.answers ++ [answer]⟩ := by
      rw [step, hcall]
      rfl
    obtain ⟨last, hlast, hsoundLast, hserve, later, hlater⟩ :=
      ih (w := ⟨ring, w.answers ++ [answer]⟩) hsound
        fun call hmem => hcalls call (List.mem_cons_of_mem _ hmem)
    refine ⟨last, runs_cons_some.mpr ⟨_, hstep, hlast⟩, hsoundLast, ?_, ?_⟩
    · rw [BoundedFifo.serve, hfifo]
      dsimp only
      rw [hserve, ← hlater]
      simp
    · rw [← hlater, List.append_assoc]
      exact List.prefix_append ..

/-- From construction on, whatever the capacity: no call is undefined, and the
answers are those of the list. -/
theorem answers_of_bounded_list (capacity : Nat) (fresh : T) (calls : List (RingCall T))
    (hcalls : ∀ call ∈ calls, call.Faultless) :
    ∃ last, runs step (start capacity fresh) calls = some last ∧
      last.answers = (BoundedFifo.serve BoundedFifo.reportsFull ⟨capacity, []⟩ calls).1 ∧
      last.ring.toFifo = (BoundedFifo.serve BoundedFifo.reportsFull ⟨capacity, []⟩ calls).2 ∧
      last.ring.Sound := by
  obtain ⟨last, hrun, hsound, hserve, _⟩ :=
    serves (w := start capacity fresh) (RingBuffer.sound_create capacity fresh) calls hcalls
  have hserve : BoundedFifo.serve BoundedFifo.reportsFull ⟨capacity, []⟩ calls =
      (last.answers, last.ring.toFifo) := hserve
  exact ⟨last, hrun, by rw [hserve], by rw [hserve], hsound⟩

/-- Three elements around a buffer of two cells. -/
theorem answers_of_bounded_list_two :
    ∃ last, runs step (start 2 0) [.tryPush 7 none, .tryPush 8 none, .tryPush 9 none, .isFull,
        .tryPop ⟨.ok 0, false⟩, .tryPush 9 none, .tryPeek (some 0) none] = some last ∧
      last.answers = [.status .okStatus, .status .okStatus,
        .status (ringStatus .kWouldBlock "ring buffer is full"), .flag true, .popped (.ok 7),
        .status .okStatus, .peeked .okStatus (some 8)] := by
  obtain ⟨last, hrun, hanswers, -⟩ := answers_of_bounded_list 2 0 [.tryPush 7 none,
    .tryPush 8 none, .tryPush 9 none, .isFull, .tryPop ⟨.ok 0, false⟩, .tryPush 9 none,
    .tryPeek (some 0) none] (by simp [RingCall.Faultless])
  exact ⟨last, hrun, hanswers.trans (by rfl)⟩

/-- A buffer without room refuses a push as full and says that it is not full. -/
theorem isFull_without_room :
    ∃ last, runs step (start 0 0) [.tryPush 7 none, .isFull] = some last ∧
      last.answers = [.status (ringStatus .kWouldBlock "ring buffer is full"), .flag false] ∧
      last.answers ≠ (BoundedFifo.serve BoundedFifo.full ⟨0, []⟩ [.tryPush 7 none, .isFull]).1 := by
  refine ⟨_, rfl, rfl, ?_⟩
  intro hsame
  have hflag := congrArg (·[1]?) hsame
  cases hflag

end RingWorld

end Corekit.Concurrent
