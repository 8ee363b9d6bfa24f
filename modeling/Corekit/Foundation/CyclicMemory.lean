import Corekit.Foundation.ByteMemory
import Mathlib.Data.Nat.ModEq

/-! A memory of `size` bytes seen as an endless tape: position `i` lives at
`i % size`. Blocks that do not cross the end of the memory are contiguous on
the tape, and writing one leaves alone every position of the window of `size`
positions around it. -/
namespace Corekit.Foundation

theorem lap_end_eq {size : Nat} (i : Nat) (hsize : 0 < size) :
    i + (size - i % size) = size * (i / size + 1) := by
  have hlt := Nat.mod_lt i hsize
  have hdiv := Nat.div_add_mod i size
  rw [Nat.mul_add, Nat.mul_one]
  omega

theorem lap_end_mod {size : Nat} (i : Nat) (hsize : 0 < size) :
    (i + (size - i % size)) % size = 0 := by
  rw [lap_end_eq i hsize, Nat.mul_mod_right]

theorem lap_end_le {size bound i : Nat} (hsize : 0 < size) (hdvd : size ∣ bound)
    (hi : i < bound) : i + (size - i % size) ≤ bound := by
  obtain ⟨laps, rfl⟩ := hdvd
  rw [lap_end_eq i hsize]
  exact Nat.mul_le_mul_left size (Nat.div_lt_of_lt_mul hi)

theorem mod_add_of_fit {size i d : Nat} (hd : i % size + d < size) :
    (i + d) % size = i % size + d := by
  rw [Nat.add_mod, Nat.mod_eq_of_lt (show d < size by omega)]
  exact Nat.mod_eq_of_lt hd

/-- Two positions less than a lap apart share a byte only if they are equal. -/
theorem mod_ne_of_window {size i j : Nat} (hlt : j < i) (hwin : i < j + size) :
    j % size ≠ i % size := by
  intro heq
  have hdvd : size ∣ i - j := (Nat.modEq_iff_dvd' hlt.le).mp heq
  have := Nat.le_of_dvd (by omega) hdvd
  omega

/-- A block at position `i` that does not cross the end misses the positions
before it, as long as it ends less than a lap behind them. -/
theorem outside_block {size i j len : Nat} (hfit : i % size + len ≤ size)
    (hlt : j < i) (hwin : i + len ≤ j + size) :
    j % size < i % size ∨ i % size + len ≤ j % size := by
  by_contra hin
  have hpos : (i + (j % size - i % size)) % size = j % size := by
    rw [mod_add_of_fit (by omega)]
    omega
  exact mod_ne_of_window (show j < i + (j % size - i % size) by omega)
    (by omega) hpos.symm

end Corekit.Foundation
