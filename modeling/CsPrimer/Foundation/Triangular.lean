import Mathlib.Algebra.Group.Nat.Even
import Mathlib.Data.Fintype.EquivFin
import Mathlib.Data.Nat.ModEq
import Mathlib.Tactic

/-!
Triangular numbers modulo a power of two. The first `2 ^ k` of them leave
each remainder once, so that steps of 1, 2, 3 and so on from any place visit
every place of a table of that size.
-/

namespace CsPrimer.Foundation

def triangle (i : Nat) : Nat := i * (i + 1) / 2

variable {i j k : Nat}

theorem two_mul_triangle (i : Nat) : 2 * triangle i = i * (i + 1) :=
  Nat.mul_div_cancel' (Nat.even_mul_succ_self i).two_dvd

@[simp]
theorem triangle_zero : triangle 0 = 0 := rfl

theorem triangle_succ (i : Nat) : triangle (i + 1) = triangle i + (i + 1) := by
  have hsucc := two_mul_triangle (i + 1)
  have hself := two_mul_triangle i
  nlinarith

/-- Of the two factors of a difference one is odd, so a power of two that
divides the product divides the other, and neither is large enough. -/
theorem triangle_mod_injective (hi : i < 2 ^ k) (hj : j < 2 ^ k)
    (h : triangle i % 2 ^ k = triangle j % 2 ^ k) : i = j := by
  wlog hle : i ≤ j generalizing i j
  · exact (this hj hi h.symm (Nat.le_of_not_le hle)).symm
  obtain ⟨d, rfl⟩ := Nat.exists_eq_add_of_le hle
  have hdvd : 2 ^ k ∣ triangle (i + d) - triangle i :=
    (Nat.modEq_iff_dvd' (by
      have hself := two_mul_triangle i
      have hsum := two_mul_triangle (i + d)
      nlinarith)).mp h
  have hproduct : 2 * (triangle (i + d) - triangle i) = d * (2 * i + d + 1) := by
    have hself := two_mul_triangle i
    have hsum := two_mul_triangle (i + d)
    rw [Nat.mul_sub, hself, hsum]
    apply Nat.sub_eq_of_eq_add
    ring
  have hpow : 2 ^ (k + 1) ∣ d * (2 * i + d + 1) := by
    rw [← hproduct, pow_succ']
    exact Nat.mul_dvd_mul_left 2 hdvd
  have hsmall : d < 2 ^ (k + 1) := by
    rw [pow_succ]
    omega
  rcases Nat.even_or_odd d with heven | hodd
  · have hcoprime : Nat.Coprime (2 ^ (k + 1)) (2 * i + d + 1) := by
      apply Nat.Coprime.pow_left
      rw [Nat.coprime_two_left]
      obtain ⟨c, rfl⟩ := heven
      exact ⟨i + c, by ring⟩
    have hzero := Nat.eq_zero_of_dvd_of_lt (hcoprime.dvd_of_dvd_mul_right hpow) hsmall
    omega
  · have hcoprime : Nat.Coprime (2 ^ (k + 1)) d :=
      Nat.Coprime.pow_left _ (Nat.coprime_two_left.mpr hodd)
    have hlarge := Nat.le_of_dvd (by omega) (hcoprime.dvd_of_dvd_mul_left hpow)
    rw [pow_succ] at hlarge
    omega

/-- Every remainder is that of one of the first `2 ^ k`. -/
theorem exists_triangle_mod {place : Nat} (hplace : place < 2 ^ k) :
    ∃ i < 2 ^ k, triangle i % 2 ^ k = place := by
  have hpos : 0 < 2 ^ k := by positivity
  let visit (i : Fin (2 ^ k)) : Fin (2 ^ k) := ⟨triangle i % 2 ^ k, Nat.mod_lt _ hpos⟩
  have hinjective : Function.Injective visit := by
    intro i j h
    exact Fin.ext (triangle_mod_injective i.isLt j.isLt (Fin.mk.inj h))
  obtain ⟨i, hi⟩ := Finite.surjective_of_injective hinjective ⟨place, hplace⟩
  exact ⟨i, i.isLt, Fin.mk.inj hi⟩

/-- The remainder zero comes at the start and not again before the next
round. -/
theorem triangle_mod_ne_zero (hk : 0 < k) (hpos : 0 < i) (hi : i ≤ 2 ^ k) :
    triangle i % 2 ^ k ≠ 0 := by
  intro hzero
  rcases Nat.lt_or_eq_of_le hi with hlt | rfl
  · have heq := triangle_mod_injective (j := 0) hlt (by positivity)
      (by rw [hzero, triangle_zero, Nat.zero_mod])
    omega
  · -- half of `2 ^ k` is left, since the other factor is odd
    obtain ⟨m, rfl⟩ := Nat.exists_eq_add_of_lt hk
    have hdvd := Nat.dvd_of_mod_eq_zero hzero
    have htwo := two_mul_triangle (2 ^ (0 + m + 1))
    obtain ⟨c, hc⟩ := hdvd
    rw [hc, ← mul_assoc, mul_comm 2, mul_assoc] at htwo
    have hodd := Nat.eq_of_mul_eq_mul_left (by positivity) htwo
    rw [pow_succ] at hodd
    omega

end CsPrimer.Foundation
