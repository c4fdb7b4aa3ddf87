import CsPrimer.BasicHashmap.Probe
import CsPrimer.Foundation.Triangular

/-!
Which buckets a probe can get to. `+` binds tighter than `>>` in the index,
so the home bucket is halved along with `i + i * i`: the loop visits the
places that triangular steps reach from half the home bucket, without that
place itself.
-/

namespace CsPrimer.BasicHashmap

open Foundation

variable {cap hv bucket i k : Nat}

/-- The probe gets to the bucket: it would stop there and nowhere else. -/
def examines (cap hv bucket : Nat) : Bool :=
  (probe (fun pos => decide (pos = bucket)) false cap hv).isSome

theorem examines_iff (hcap : IsCapacity cap) :
    examines cap hv bucket = true ↔ ∃ j ≤ cap, probeSeq cap hv j = bucket := by
  unfold examines
  constructor
  · intro hsome
    obtain ⟨⟨p, found⟩, hprobe⟩ := Option.isSome_iff_exists.mp hsome
    obtain ⟨j, hj, rfl, rfl, hne, -⟩ := probe_some hcap hprobe
    exact ⟨j, hj, by simpa using hne⟩
  · rintro ⟨j, hj, rfl⟩
    rw [Option.isSome_iff_ne_none]
    intro hnone
    simpa using probe_none hcap hnone j hj

/-- A wrap of the sum takes a multiple of `2 ^ 64` away, which the halved sum
does not show modulo a capacity. -/
theorem probeIndex_eq (hk : k < 64) (hv i : Nat) :
    probeIndex hv i (2 ^ k) = (hv / 2 + triangle i) % 2 ^ k := by
  have hsum : hv + (i + i * i) = hv + 2 * triangle i := by
    rw [two_mul_triangle]
    ring
  have hmodulus : sizeModulus = 2 * 2 ^ 63 := rfl
  rw [probeIndex, hsum, Nat.shiftRight_eq_div_pow, pow_one, hmodulus,
    Nat.mod_mul_right_div_self, Nat.add_mul_div_left _ _ (by omega),
    Nat.mod_mod_of_dvd _ (Nat.pow_dvd_pow 2 (by omega))]

/-- Half the home bucket is the one place that the loop does not visit. -/
theorem loop_visits_iff (hk : 0 < k) (hk' : k < 64) (hhv : hv < 2 ^ k)
    (hbucket : bucket < 2 ^ k) :
    (∃ i, 0 < i ∧ i ≤ 2 ^ k ∧ probeIndex hv i (2 ^ k) = bucket) ↔ bucket ≠ hv / 2 := by
  constructor
  · rintro ⟨i, hpos, hi, hindex⟩ rfl
    rw [probeIndex_eq hk'] at hindex
    have hstart : (hv / 2 + triangle i) % 2 ^ k = (hv / 2 + 0) % 2 ^ k := by
      rw [hindex, Nat.add_zero, Nat.mod_eq_of_lt hbucket]
    have hzero := Nat.ModEq.add_left_cancel' _ hstart
    exact triangle_mod_ne_zero hk hpos hi hzero
  · intro hne
    have hhalf : hv / 2 < 2 ^ k := by omega
    obtain ⟨i, hi, hmod⟩ := exists_triangle_mod
      (Nat.mod_lt (bucket + (2 ^ k - hv / 2)) (by positivity : 0 < 2 ^ k))
    have hindex : probeIndex hv i (2 ^ k) = bucket := by
      have hround : hv / 2 + (bucket + (2 ^ k - hv / 2)) = bucket + 2 ^ k := by omega
      rw [probeIndex_eq hk', Nat.add_mod, hmod, ← Nat.add_mod, hround,
        Nat.add_mod_right, Nat.mod_eq_of_lt hbucket]
    refine ⟨i, Nat.pos_of_ne_zero ?_, Nat.le_of_lt hi, hindex⟩
    rintro rfl
    rw [probeIndex_eq hk', triangle_zero, Nat.add_zero, Nat.mod_eq_of_lt hhalf] at hindex
    exact hne hindex.symm

/-- For every capacity and every home bucket, also where the sum wraps. -/
theorem probe_covers_iff (k hv : Nat) (hk : k < 61) (hhv : hv < 8 * 2 ^ k) :
    (∀ bucket < 8 * 2 ^ k, examines (8 * 2 ^ k) hv bucket = true) ↔ hv = 0 := by
  obtain ⟨m, hm⟩ : ∃ m, m = k + 3 := ⟨_, rfl⟩
  have hcap : 8 * 2 ^ k = 2 ^ m := by
    rw [hm, pow_add, mul_comm]
    rfl
  rw [hcap] at hhv ⊢
  have hcapacity : IsCapacity (2 ^ m) := ⟨m, by omega, by omega, rfl⟩
  constructor
  · intro hcovers
    obtain ⟨j, hj, hplace⟩ := (examines_iff hcapacity).mp
      (hcovers (hv / 2) (by omega))
    cases j with
    | zero =>
        rw [probeSeq_zero] at hplace
        omega
    | succ j =>
        have hvisits := (loop_visits_iff (by omega) (by omega) hhv (by omega)).mp
          ⟨j + 1, Nat.succ_pos j, hj, hplace⟩
        exact absurd rfl hvisits
  · rintro rfl bucket hbucket
    apply (examines_iff hcapacity).mpr
    rcases eq_or_ne bucket 0 with rfl | hne
    · exact ⟨0, Nat.zero_le _, rfl⟩
    · obtain ⟨i, hpos, hi, hindex⟩ :=
        (loop_visits_iff (by omega) (by omega) hhv hbucket).mpr hne
      refine ⟨i, hi, ?_⟩
      rw [probeSeq, if_neg (by omega), hindex]

theorem home_zero_reaches_seven : examines (8 * 2 ^ 0) 0 7 = true :=
  (probe_covers_iff 0 0 (by decide) (by decide)).mpr rfl 7 (by decide)

/-- From home bucket 1 of a new map no probe gets to bucket 0. -/
theorem home_one_misses_zero : examines (8 * 2 ^ 0) 1 0 = false := by decide

end CsPrimer.BasicHashmap
