import Mathlib.Data.Nat.Size
import Mathlib.Algebra.Group.Nat.Defs

/-! Rounding up to a power of two by smearing the highest bit downwards.
`Spread source x n` says that `x` has a bit wherever `source` has one at most
`n - 1` places higher; one or-shift doubles `n`. -/
namespace Corekit.Foundation

def Spread (source x n : Nat) : Prop :=
  ∀ i, x.testBit i = true ↔ ∃ j < n, source.testBit (i + j) = true

theorem Spread.one (source : Nat) : Spread source source 1 := by
  intro i
  simp

theorem Spread.double {source x n : Nat} (h : Spread source x n) :
    Spread source (x ||| x >>> n) (2 * n) := by
  intro i
  rw [Nat.testBit_or, Nat.testBit_shiftRight, Bool.or_eq_true, h i, h (n + i)]
  constructor
  · rintro (⟨j, hj, hbit⟩ | ⟨j, hj, hbit⟩)
    · exact ⟨j, by omega, hbit⟩
    · exact ⟨n + j, by omega, by rwa [show i + (n + j) = n + i + j by omega]⟩
  · rintro ⟨j, hj, hbit⟩
    by_cases hlow : j < n
    · exact .inl ⟨j, hlow, hbit⟩
    · exact .inr ⟨j - n, by omega, by
        rwa [show n + i + (j - n) = i + j by omega]⟩

/-- Once the spread covers the whole word, only ones remain below the highest
bit of the source. -/
theorem Spread.eq_size {source x width : Nat} (h : Spread source x width)
    (hsource : source < 2 ^ width) : x = 2 ^ source.size - 1 := by
  apply Nat.eq_of_testBit_eq
  intro i
  rw [Nat.testBit_two_pow_sub_one, Bool.eq_iff_iff, h i, decide_eq_true_eq,
    Nat.lt_size]
  constructor
  · rintro ⟨j, -, hbit⟩
    have hpow : 2 ^ i ≤ 2 ^ (i + j) := Nat.pow_le_pow_right (by decide) (by omega)
    exact Nat.le_trans hpow (Nat.ge_two_pow_of_testBit hbit)
  · intro hle
    obtain ⟨k, hk, hbit⟩ := Nat.exists_ge_and_testBit_of_ge_two_pow hle
    have hpow : 2 ^ k < 2 ^ width :=
      Nat.lt_of_le_of_lt (Nat.ge_two_pow_of_testBit hbit) hsource
    have hwidth : k < width := (Nat.pow_lt_pow_iff_right (by decide)).mp hpow
    exact ⟨k - i, by omega, by rwa [show i + (k - i) = k by omega]⟩

end Corekit.Foundation
