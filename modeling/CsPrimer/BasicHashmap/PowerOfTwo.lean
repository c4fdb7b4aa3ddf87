import CsPrimer.BasicHashmap.Growth
import CsPrimer.Foundation.BitSmear

/-!
`next_power_of_2` on all 64 bits. The six steps smear the highest bit of
`n - 1` over the word; the decrement wraps for zero and the increment for
everything above `2 ^ 63`. On the capacities of the map the function is the
identity, in the middle of a growth as well.
-/

namespace CsPrimer.BasicHashmap

open Foundation

/-- What the six steps leave, before the increment. -/
theorem nextPowerOf2_eq_size {n m : Nat} (hm : (n + (sizeModulus - 1)) % sizeModulus = m) :
    nextPowerOf2 n = 2 ^ m.size % sizeModulus := by
  have hlt : m < 2 ^ 64 := hm ▸ Nat.mod_lt _ (by decide)
  have hones := ((Smeared.start m).double.double.double.double.double.double).eq_ones hlt
  have hpos : 0 < 2 ^ m.size := by positivity
  simp only [nextPowerOf2, hm]
  rw [hones, Nat.sub_add_cancel hpos]

theorem pred_wraps {n : Nat} (hpos : 0 < n) (hlt : n < sizeModulus) :
    (n + (sizeModulus - 1)) % sizeModulus = n - 1 := by
  have hwrap : n + (sizeModulus - 1) = n - 1 + sizeModulus := by
    unfold sizeModulus
    omega
  rw [hwrap, Nat.add_mod_right, Nat.mod_eq_of_lt (by omega)]

theorem nextPowerOf2_isLeast {n : Nat} (hpos : 0 < n) (hle : n ≤ 2 ^ 63) :
    IsLeast {m | (∃ k, m = 2 ^ k) ∧ n ≤ m} (nextPowerOf2 n) := by
  have hsize : (n - 1).size < 64 := by
    rw [Nat.lt_succ_iff, Nat.size_le]
    omega
  have hlt : 2 ^ (n - 1).size < sizeModulus := Nat.pow_lt_pow_right (by omega) hsize
  rw [nextPowerOf2_eq_size (pred_wraps hpos (by unfold sizeModulus; omega)),
    Nat.mod_eq_of_lt hlt]
  exact isLeast_two_pow_size hpos

theorem nextPowerOf2_zero : nextPowerOf2 0 = 0 := by
  have hsize : (2 ^ 64 - 1 : Nat).size = 64 := by
    apply Nat.le_antisymm
    · exact Nat.size_le.mpr (by omega)
    · exact Nat.lt_size.mpr (by omega)
  rw [nextPowerOf2_eq_size (m := 2 ^ 64 - 1) (by decide), hsize]
  rfl

theorem nextPowerOf2_of_lt {n : Nat} (hgt : 2 ^ 63 < n) (hlt : n < sizeModulus) :
    nextPowerOf2 n = 0 := by
  have hsize : (n - 1).size = 64 := by
    apply Nat.le_antisymm
    · apply Nat.size_le.mpr
      unfold sizeModulus at hlt
      omega
    · exact Nat.lt_size.mpr (by omega)
  rw [nextPowerOf2_eq_size (pred_wraps (by omega) hlt), hsize]
  rfl

structure ProbesWhole {V : Type} (map : Hashmap V) : Prop where
  modulus : nextPowerOf2 map.cap = map.cap
  not_skipped : map.cap ≠ 0 → ∀ hv i,
    ¬ map.cap ≤ probeIndex hv i (nextPowerOf2 map.cap)

theorem Intact.probesWhole {V : Type} [Zero V] {hash : Key → UInt64} {map : Hashmap V}
    (h : Intact hash map) : ProbesWhole map where
  modulus := h.capacity.nextPowerOf2_eq
  not_skipped := by
    intro _ hv i
    rw [h.capacity.nextPowerOf2_eq, Nat.not_le]
    exact probeIndex_lt h.capacity.pos hv i

/-- A capacity that has overflowed is zero, and a call on it does not get to
its loop. -/
theorem During.probesWhole {V : Type} [Zero V] {hash : Key → UInt64}
    {map table : Hashmap V} {fuel : Nat} {key : Key} {value : V}
    (h : During hash fuel map key value table) (hmap : Intact hash map) :
    ProbesWhole table := by
  rcases eq_or_ne table.cap 0 with hzero | hcap
  · refine ⟨?_, fun hcap => absurd hzero hcap⟩
    rw [hzero]
    exact nextPowerOf2_zero
  · exact (h.intact hmap hcap).probesWhole

/-- For every 64-bit `n`; and for every table that calls on a new map lead to,
those in the middle of a call included. -/
theorem next_power_of_2_least {V : Type} [Zero V] (n : UInt64) (hash : Key → UInt64) :
    (1 ≤ n.toNat → n.toNat ≤ 2 ^ 63 →
        IsLeast {m | (∃ k, m = 2 ^ k) ∧ n.toNat ≤ m} (nextPowerOf2 n.toNat)) ∧
      (n.toNat = 0 ∨ 2 ^ 63 < n.toNat → nextPowerOf2 n.toNat = 0) ∧
      ∀ map : Hashmap V, Reachable hash map → ProbesWhole map ∧
        ∀ key value table, During hash 64 map key value table → ProbesWhole table := by
  refine ⟨nextPowerOf2_isLeast, ?_, ?_⟩
  · rintro (hzero | hgt)
    · rw [hzero]
      exact nextPowerOf2_zero
    · exact nextPowerOf2_of_lt hgt n.toNat_lt
  · intro map hmap
    exact ⟨hmap.intact.probesWhole,
      fun _ _ _ hduring => hduring.probesWhole hmap.intact⟩

end CsPrimer.BasicHashmap
