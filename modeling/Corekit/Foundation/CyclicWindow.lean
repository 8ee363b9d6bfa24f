import Corekit.Foundation.CyclicMemory

/-! A window on a ring of cells: `size` cells from `head` on, in the order in
which they are met. -/
namespace Corekit.Foundation

variable {α : Type} {cells : List α} {capacity head size : Nat}

def window (cells : List α) (capacity : Nat) : Nat → Nat → List α
  | _, 0 => []
  | head, size + 1 => cells[head]?.toList ++ window cells capacity ((head + 1) % capacity) size

@[simp] theorem window_zero (head : Nat) : window cells capacity head 0 = [] := rfl

theorem window_succ {cell : α} (hcell : cells[head]? = some cell) (size : Nat) :
    window cells capacity head (size + 1) =
      cell :: window cells capacity ((head + 1) % capacity) size := by
  rw [window, hcell]
  rfl

theorem window_length (hcells : cells.length = capacity) (hhead : head < capacity) (size : Nat) :
    (window cells capacity head size).length = size := by
  induction size generalizing head with
  | zero => rfl
  | succ size ih =>
    rw [window_succ (List.getElem?_eq_getElem (hcells.symm ▸ hhead)), List.length_cons,
      ih (Nat.mod_lt _ (Nat.zero_lt_of_lt hhead))]

theorem window_snoc (hhead : head < capacity) (size : Nat) :
    window cells capacity head (size + 1) =
      window cells capacity head size ++ cells[(head + size) % capacity]?.toList := by
  induction size generalizing head with
  | zero => simp [window, Nat.mod_eq_of_lt hhead]
  | succ size ih =>
    have hnext := ih (Nat.mod_lt (head + 1) (Nat.zero_lt_of_lt hhead))
    rw [Nat.mod_add_mod] at hnext
    rw [window, hnext, ← List.append_assoc, ← window]
    congr 4
    omega

theorem window_set (hhead : head < capacity) {i : Nat}
    (hout : ∀ offset < size, (head + offset) % capacity ≠ i) (cell : α) :
    window (cells.set i cell) capacity head size = window cells capacity head size := by
  induction size generalizing head with
  | zero => rfl
  | succ size ih =>
    have hfirst : i ≠ head := by
      have := hout 0 (Nat.succ_pos size)
      rw [Nat.add_zero, Nat.mod_eq_of_lt hhead] at this
      exact this.symm
    rw [window, window, List.getElem?_set_ne hfirst]
    rw [ih (Nat.mod_lt _ (Nat.zero_lt_of_lt hhead))]
    intro offset hoffset
    rw [Nat.mod_add_mod, Nat.add_assoc, Nat.add_comm 1]
    exact hout (offset + 1) (Nat.succ_lt_succ hoffset)

theorem window_push (hcells : cells.length = capacity) (hhead : head < capacity)
    (hroom : size < capacity) (cell : α) :
    window (cells.set ((head + size) % capacity) cell) capacity head (size + 1) =
      window cells capacity head size ++ [cell] := by
  have hlast : (head + size) % capacity < cells.length := by
    rw [hcells]
    exact Nat.mod_lt _ (Nat.zero_lt_of_lt hhead)
  rw [window_snoc hhead, List.getElem?_set_self hlast, window_set hhead]
  · rfl
  · intro offset hoffset
    exact mod_ne_of_window (by omega) (by omega)

end Corekit.Foundation
