import Corekit.Concurrent.Map
import Corekit.Foundation.CyclicWindow
import Corekit.Foundation.Transition

/-! The bounded ring buffer. Every call holds `mu_` from end to end. How the
copies and moves of elements end is answered from outside. The outer `none` of a
call is what the language leaves undefined: an index outside of `data_`, or a
division by zero. -/
namespace Corekit.Concurrent
open Corekit.Api Corekit.Foundation

variable {T : Type}

structure RingBuffer (T : Type) where
  capacity : Nat
  data : List T
  head : Nat
  tail : Nat
  size : Nat
  deriving DecidableEq, Repr

/-- How the move of an element out of its place ends, with what it leaves there,
and whether the copy into the result throws. -/
structure PopFaults (T : Type) where
  move : Except T T
  copyThrows : Bool := false

def ringStatus (code : StatusCode) (message : String) : Status := ⟨code, message, .kConcurrent⟩

def modulo (value divisor : Nat) : Option Nat :=
  if divisor = 0 then none else some (value % divisor)

namespace RingBuffer

/-- `fresh` is a default-constructed element. -/
def create (capacity : Nat) (fresh : T) : RingBuffer T where
  capacity := capacity
  data := List.replicate (if capacity = 0 then 1 else capacity) fresh
  head := 0
  tail := 0
  size := 0

variable (r : RingBuffer T)

/-- `fault` is what the assignment throws, with what it leaves in the slot. -/
def tryPush (value : T) (fault : Option (Thrown × T)) : Option (Status × RingBuffer T) :=
  if r.capacity = 0 ∨ r.size ≥ r.capacity then
    some (ringStatus .kWouldBlock "ring buffer is full", r)
  else if r.tail < r.data.length then
    match fault with
    | some (.badAlloc, left) => some (ringStatus .kInternalError "ring buffer allocation failed",
        { r with data := r.data.set r.tail left })
    | some (.other, left) => some (ringStatus .kInternalError "ring buffer push failed",
        { r with data := r.data.set r.tail left })
    | none => (modulo (r.tail + 1) r.capacity).map fun tail =>
        (.okStatus, { r with data := r.data.set r.tail value, tail := tail, size := r.size + 1 })
  else none

def tryPop (faults : PopFaults T) : Option (Result T × RingBuffer T) :=
  if r.size = 0 then some (.error (ringStatus .kWouldBlock "ring buffer is empty"), r)
  else
    r.data[r.head]?.bind fun value =>
      match faults.move with
      | .error left => some (.error (ringStatus .kInternalError "ring buffer pop failed"),
          { r with data := r.data.set r.head left })
      | .ok left => (modulo (r.head + 1) r.capacity).map fun head =>
          let popped := { r with
            data := r.data.set r.head left
            head := head
            size := r.size - 1 }
          if faults.copyThrows then
            (.error (ringStatus .kInternalError "ring buffer pop failed"), popped)
          else (.ok value, popped)

/-- `out` is the variable of the caller, `none` for a null pointer; `fault` is
what a throwing assignment leaves in it. -/
def tryPeek (out fault : Option T) : Option (Status × Option T) :=
  match out with
  | none => some (ringStatus .kInvalidArgument "out is null", none)
  | some kept =>
    if r.size = 0 then some (ringStatus .kWouldBlock "ring buffer is empty", some kept)
    else
      r.data[r.head]?.map fun value =>
        match fault with
        | none => (.okStatus, some value)
        | some left => (ringStatus .kInternalError "ring buffer peek failed", some left)

def clear : Status × RingBuffer T :=
  (.okStatus, { r with head := 0, tail := 0, size := 0 })

def isEmpty : Bool := r.size = 0

def isFull : Bool := r.capacity > 0 ∧ r.size ≥ r.capacity

def contents : List T := window r.data r.capacity r.head r.size

structure Sound : Prop where
  size_le : r.size ≤ r.capacity
  cells : r.data.length = if r.capacity = 0 then 1 else r.capacity
  head_lt : r.head < r.data.length
  tail_lt : r.tail < r.data.length
  tail_eq : 0 < r.capacity → r.tail = (r.head + r.size) % r.capacity

variable {r}

namespace Sound

theorem cells_eq (h : r.Sound) (hpos : 0 < r.capacity) : r.data.length = r.capacity := by
  rw [h.cells, if_neg (Nat.ne_of_gt hpos)]

theorem head_lt_capacity (h : r.Sound) (hpos : 0 < r.capacity) : r.head < r.capacity :=
  h.cells_eq hpos ▸ h.head_lt

theorem length_contents (h : r.Sound) : r.contents.length = r.size := by
  rcases Nat.eq_zero_or_pos r.capacity with hzero | hpos
  · have hsize : r.size = 0 := by
      have := h.size_le
      omega
    rw [contents, hsize]
    rfl
  · exact window_length (h.cells_eq hpos) (h.head_lt_capacity hpos) r.size

theorem set_tail (h : r.Sound) (hroom : r.size < r.capacity) (cell : T) :
    Sound { r with data := r.data.set r.tail cell } ∧
      contents { r with data := r.data.set r.tail cell } = r.contents := by
  have hpos : 0 < r.capacity := Nat.zero_lt_of_lt hroom
  refine ⟨⟨h.size_le, ?_, ?_, ?_, h.tail_eq⟩, ?_⟩
  · rw [List.length_set]
    exact h.cells
  · rw [List.length_set]
    exact h.head_lt
  · rw [List.length_set]
    exact h.tail_lt
  · apply window_set (h.head_lt_capacity hpos)
    intro offset hoffset
    change offset < r.size at hoffset
    rw [h.tail_eq hpos]
    exact mod_ne_of_window (by omega) (by omega)

theorem push (h : r.Sound) (hroom : r.size < r.capacity) (value : T) :
    Sound { r with
      data := r.data.set r.tail value
      tail := (r.tail + 1) % r.capacity
      size := r.size + 1 } ∧
    contents { r with
      data := r.data.set r.tail value
      tail := (r.tail + 1) % r.capacity
      size := r.size + 1 } = r.contents ++ [value] := by
  have hpos : 0 < r.capacity := Nat.zero_lt_of_lt hroom
  have hcells := h.cells_eq hpos
  refine ⟨⟨hroom, ?_, ?_, ?_, ?_⟩, ?_⟩
  · rw [List.length_set]
    exact h.cells
  · rw [List.length_set]
    exact h.head_lt
  · rw [List.length_set, hcells]
    exact Nat.mod_lt _ hpos
  · intro _
    dsimp only
    rw [h.tail_eq hpos, Nat.mod_add_mod, Nat.add_assoc]
  · rw [contents, contents]
    dsimp only
    rw [h.tail_eq hpos]
    exact window_push hcells (h.head_lt_capacity hpos) hroom value

theorem pop (h : r.Sound) (hsize : 0 < r.size) {value : T} (hvalue : r.data[r.head]? = some value)
    (left : T) :
    Sound { r with
      data := r.data.set r.head left
      head := (r.head + 1) % r.capacity
      size := r.size - 1 } ∧
    r.contents = value :: contents { r with
      data := r.data.set r.head left
      head := (r.head + 1) % r.capacity
      size := r.size - 1 } := by
  have hle := h.size_le
  have hpos : 0 < r.capacity := by omega
  have hnext : (r.head + 1) % r.capacity < r.capacity := Nat.mod_lt _ hpos
  refine ⟨⟨?_, ?_, ?_, ?_, ?_⟩, ?_⟩
  · dsimp only
    omega
  · rw [List.length_set]
    exact h.cells
  · rw [List.length_set, h.cells_eq hpos]
    exact hnext
  · rw [List.length_set]
    exact h.tail_lt
  · intro _
    dsimp only
    rw [h.tail_eq hpos, Nat.mod_add_mod]
    congr 1
    omega
  · obtain ⟨size, hsucc⟩ := Nat.exists_eq_succ_of_ne_zero (Nat.ne_of_gt hsize)
    rw [contents, contents, hsucc, Nat.succ_eq_add_one, window_succ hvalue, Nat.add_sub_cancel]
    dsimp only
    rw [window_set hnext]
    intro offset hoffset
    have hhead := h.head_lt_capacity hpos
    rw [Nat.mod_add_mod]
    nth_rewrite 2 [← Nat.mod_eq_of_lt hhead]
    exact (mod_ne_of_window (by omega) (by omega)).symm

theorem set_head (h : r.Sound) (hsize : 0 < r.size) {value : T}
    (hvalue : r.data[r.head]? = some value) (left : T) :
    Sound { r with data := r.data.set r.head left } ∧
      contents { r with data := r.data.set r.head left } = left :: r.contents.tail := by
  have hset : Sound { r with data := r.data.set r.head left } := by
    refine ⟨h.size_le, ?_, ?_, ?_, h.tail_eq⟩
    · rw [List.length_set]
      exact h.cells
    · rw [List.length_set]
      exact h.head_lt
    · rw [List.length_set]
      exact h.tail_lt
  refine ⟨hset, ?_⟩
  have hafter := (hset.pop hsize (List.getElem?_set_self h.head_lt) left).2
  rw [hafter, (h.pop hsize hvalue left).2]
  dsimp only
  rw [List.set_set, List.tail_cons]

theorem front (h : r.Sound) (hsize : r.size ≠ 0) :
    ∃ value rest, r.data[r.head]? = some value ∧ r.contents = value :: rest := by
  obtain ⟨value, hvalue⟩ : ∃ value, r.data[r.head]? = some value :=
    ⟨_, List.getElem?_eq_getElem h.head_lt⟩
  exact ⟨value, _, hvalue, (h.pop (Nat.pos_of_ne_zero hsize) hvalue value).2⟩

theorem contents_of_empty (h : r.Sound) (hsize : r.size = 0) : r.contents = [] :=
  List.eq_nil_of_length_eq_zero (h.length_contents.trans hsize)

end Sound

def popContents (contents : List T) (faults : PopFaults T) : Result T × List T :=
  match contents, faults.move with
  | [], _ => (.error (ringStatus .kWouldBlock "ring buffer is empty"), [])
  | _ :: rest, .error left =>
    (.error (ringStatus .kInternalError "ring buffer pop failed"), left :: rest)
  | value :: rest, .ok _ =>
    (if faults.copyThrows then .error (ringStatus .kInternalError "ring buffer pop failed")
      else .ok value, rest)

theorem Sound.tryPop (h : r.Sound) (faults : PopFaults T) :
    ∃ r', r.tryPop faults = some ((popContents r.contents faults).1, r') ∧ r'.Sound ∧
      r'.capacity = r.capacity ∧ r'.contents = (popContents r.contents faults).2 := by
  by_cases hsize : r.size = 0
  · have hcontents := h.contents_of_empty hsize
    refine ⟨r, ?_, h, rfl, ?_⟩
    · rw [RingBuffer.tryPop, if_pos hsize, hcontents, popContents]
    · rw [hcontents, popContents]
  · obtain ⟨value, rest, hvalue, hcontents⟩ := h.front hsize
    have hpos := Nat.pos_of_ne_zero hsize
    rw [RingBuffer.tryPop, if_neg hsize, hvalue, Option.bind_some]
    cases hmove : faults.move with
    | error left =>
      obtain ⟨hsound, hset⟩ := h.set_head hpos hvalue left
      rw [hcontents, List.tail_cons] at hset
      simp only [popContents, hcontents, hmove]
      exact ⟨_, rfl, hsound, rfl, hset⟩
    | ok left =>
      obtain ⟨hsound, hpop⟩ := h.pop hpos hvalue left
      have hcapacity : r.capacity ≠ 0 := by
        have := h.size_le
        omega
      rw [hcontents] at hpop
      simp only [popContents, hcontents, hmove, modulo, if_neg hcapacity, Option.map_some]
      cases faults.copyThrows <;> exact ⟨_, rfl, hsound, rfl, (List.cons.inj hpop).2.symm⟩

end RingBuffer

end Corekit.Concurrent
