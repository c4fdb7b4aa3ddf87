import Mathlib.Data.Nat.Bitwise
import Mathlib.Data.Nat.Size
import Mathlib.Tactic

/-!
Bit smearing: each step copies every set bit further down, twice as far as
the step before. When the steps reach the whole word all bits below the
highest set one are set, which is one less than a power of two.
-/

namespace CsPrimer.Foundation

/-- The set bits of `x` are those of `n`, each with the places below it that
are fewer than `reach` away. -/
def Smeared (n reach x : Nat) : Prop :=
  ∀ i, x.testBit i = true ↔ ∃ j < reach, n.testBit (i + j) = true

variable {n reach x : Nat}

theorem Smeared.start (n : Nat) : Smeared n 1 n := by
  intro i
  constructor
  · intro hbit
    exact ⟨0, Nat.zero_lt_one, hbit⟩
  · rintro ⟨j, hj, hbit⟩
    obtain rfl : j = 0 := by omega
    exact hbit

theorem Smeared.double (h : Smeared n reach x) :
    Smeared n (reach + reach) (x ||| x >>> reach) := by
  intro i
  rw [Nat.testBit_or, Bool.or_eq_true, Nat.testBit_shiftRight, h i, h (reach + i)]
  constructor
  · rintro (⟨j, hj, hbit⟩ | ⟨j, hj, hbit⟩)
    · exact ⟨j, by omega, hbit⟩
    · refine ⟨reach + j, by omega, ?_⟩
      rwa [← Nat.add_assoc, Nat.add_comm i reach]
  · rintro ⟨j, hj, hbit⟩
    rcases Nat.lt_or_ge j reach with hlt | hge
    · exact .inl ⟨j, hlt, hbit⟩
    · refine .inr ⟨j - reach, by omega, ?_⟩
      have hplace : reach + i + (j - reach) = i + j := by omega
      rwa [hplace]

/-- The highest bit of a number that is not zero. -/
theorem testBit_size_sub_one (h : n ≠ 0) : n.testBit (n.size - 1) = true := by
  have hpos : 0 < n.size := Nat.size_pos.mpr (Nat.pos_of_ne_zero h)
  apply Nat.testBit_of_two_pow_le_and_two_pow_add_one_gt
  · exact Nat.lt_size.mp (by omega)
  · rw [Nat.sub_add_cancel hpos]
    exact Nat.lt_size_self n

theorem Smeared.eq_ones (h : Smeared n reach x) (hlt : n < 2 ^ reach) :
    x = 2 ^ n.size - 1 := by
  apply Nat.eq_of_testBit_eq
  intro i
  rw [Nat.testBit_two_pow_sub_one, Bool.eq_iff_iff, decide_eq_true_iff, h i]
  constructor
  · rintro ⟨j, -, hbit⟩
    have hle : i + j < n.size := Nat.lt_size.mpr (Nat.ge_two_pow_of_testBit hbit)
    omega
  · intro hi
    have hne : n ≠ 0 := by
      rintro rfl
      simp at hi
    have hsize := Nat.size_le.mpr hlt
    refine ⟨n.size - 1 - i, by omega, ?_⟩
    have hplace : i + (n.size - 1 - i) = n.size - 1 := by omega
    rw [hplace]
    exact testBit_size_sub_one hne

/-- The least power of two that is not below `n`. -/
theorem isLeast_two_pow_size (hpos : 0 < n) :
    IsLeast {m | (∃ k, m = 2 ^ k) ∧ n ≤ m} (2 ^ (n - 1).size) := by
  constructor
  · refine ⟨⟨_, rfl⟩, ?_⟩
    have hlt := Nat.lt_size_self (n - 1)
    omega
  · rintro m ⟨⟨k, rfl⟩, hle⟩
    apply Nat.pow_le_pow_right (by omega)
    exact Nat.size_le.mpr (by omega)

end CsPrimer.Foundation
