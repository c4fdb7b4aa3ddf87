import CsPrimer.BasicHashmap.Table

/-!
The positions a probe examines. For a power-of-two capacity the modulus of
the loops is the capacity itself and no position is skipped, so a probe is a
search along one fixed sequence of in-range positions.
-/

namespace CsPrimer.BasicHashmap

/-- Position `j` of the probe sequence of home bucket `h`: the bucket itself,
then what the loop computes for `i = j`. -/
def probeSeq (cap h j : Nat) : Nat := if j = 0 then h else probeIndex h j cap

@[simp]
theorem probeSeq_zero (cap h : Nat) : probeSeq cap h 0 = h := rfl

@[simp]
theorem probeSeq_succ (cap h j : Nat) :
    probeSeq cap h (j + 1) = probeIndex h (j + 1) cap := rfl

theorem probeIndex_lt {cap : Nat} (hcap : 0 < cap) (h i : Nat) :
    probeIndex h i cap < cap := Nat.mod_lt _ hcap

theorem probeSeq_lt {cap h : Nat} (hh : h < cap) (j : Nat) :
    probeSeq cap h j < cap := by
  cases j with
  | zero => exact hh
  | succ j => exact probeIndex_lt (by omega) h (j + 1)

/-- The capacities a table can have: eight doubled, below 64 bits. -/
def IsCapacity (cap : Nat) : Prop := ∃ k, 3 ≤ k ∧ k < 64 ∧ cap = 2 ^ k

theorem IsCapacity.pos {cap : Nat} (h : IsCapacity cap) : 0 < cap := by
  obtain ⟨k, -, -, rfl⟩ := h
  positivity

private theorem ones_or_shiftRight (k s : Nat) :
    (2 ^ k - 1) ||| (2 ^ k - 1) >>> s = 2 ^ k - 1 := by
  apply Nat.eq_of_testBit_eq
  intro i
  simp only [Nat.testBit_or, Nat.testBit_shiftRight, Nat.testBit_two_pow_sub_one]
  rcases Nat.lt_or_ge i k with hi | hi
  · simp [hi]
  · have hshifted : k ≤ s + i := by omega
    simp [hshifted]

theorem nextPowerOf2_two_pow {k : Nat} (hk : k < 64) :
    nextPowerOf2 (2 ^ k) = 2 ^ k := by
  have hlt : 2 ^ k < sizeModulus := Nat.pow_lt_pow_right (by omega) hk
  have hpos : 0 < 2 ^ k := by positivity
  have hwrap : 2 ^ k + (sizeModulus - 1) = 2 ^ k - 1 + sizeModulus := by omega
  have hpred : (2 ^ k + (sizeModulus - 1)) % sizeModulus = 2 ^ k - 1 := by
    rw [hwrap, Nat.add_mod_right, Nat.mod_eq_of_lt (by omega)]
  have hsucc : 2 ^ k - 1 + 1 = 2 ^ k := by omega
  simp only [nextPowerOf2, hpred, ones_or_shiftRight]
  rw [hsucc, Nat.mod_eq_of_lt hlt]

theorem IsCapacity.nextPowerOf2_eq {cap : Nat} (h : IsCapacity cap) :
    nextPowerOf2 cap = cap := by
  obtain ⟨k, -, hk, rfl⟩ := h
  exact nextPowerOf2_two_pow hk

section Search

variable {Flag : Type} [DecidableEq Flag] {flag : Nat → Flag} {proceed : Flag}
  {cap h : Nat}

private theorem probeLoop_some (hcap : 0 < cap) {left i p : Nat} {f : Flag}
    (hloop : probeLoop flag proceed cap h cap left i = some (p, f)) :
    ∃ j, i ≤ j ∧ j < i + left ∧ p = probeIndex h j cap ∧ f = flag p ∧
      f ≠ proceed ∧
      ∀ e, i ≤ e → e < j → flag (probeIndex h e cap) = proceed := by
  induction left generalizing i with
  | zero => simp [probeLoop] at hloop
  | succ left ih =>
      have hlt : ¬ cap ≤ probeIndex h i cap := by
        have := probeIndex_lt hcap h i
        omega
      simp only [probeLoop, hlt, if_false] at hloop
      split at hloop
      · rename_i hflag
        obtain ⟨j, hij, hj, hp, hf, hne, hearlier⟩ := ih hloop
        refine ⟨j, by omega, by omega, hp, hf, hne, fun e hie hej => ?_⟩
        rcases Nat.eq_or_lt_of_le hie with rfl | hlt
        · exact hflag
        · exact hearlier e hlt hej
      · rename_i hflag
        simp only [Option.some.injEq, Prod.mk.injEq] at hloop
        obtain ⟨rfl, rfl⟩ := hloop
        exact ⟨i, le_rfl, by omega, rfl, rfl, hflag, fun e _ _ => by omega⟩

private theorem probeLoop_none (hcap : 0 < cap) {left i : Nat}
    (hloop : probeLoop flag proceed cap h cap left i = none) :
    ∀ j, i ≤ j → j < i + left → flag (probeIndex h j cap) = proceed := by
  induction left generalizing i with
  | zero =>
      intro j hij hj
      omega
  | succ left ih =>
      have hlt : ¬ cap ≤ probeIndex h i cap := by
        have := probeIndex_lt hcap h i
        omega
      simp only [probeLoop, hlt, if_false] at hloop
      split at hloop
      · rename_i hflag
        intro j hij hj
        rcases Nat.eq_or_lt_of_le hij with rfl | hlt
        · exact hflag
        · exact ih hloop j hlt (by omega)
      · simp at hloop

/-- A probe that ends at a slot has passed over every earlier position. -/
theorem probe_some (hcap : IsCapacity cap) {p : Nat} {f : Flag}
    (hprobe : probe flag proceed cap h = some (p, f)) :
    ∃ j ≤ cap, p = probeSeq cap h j ∧ f = flag p ∧ f ≠ proceed ∧
      ∀ i < j, flag (probeSeq cap h i) = proceed := by
  simp only [probe, hcap.nextPowerOf2_eq] at hprobe
  split at hprobe
  · rename_i hhome
    obtain ⟨j, hj, hlt, hp, hf, hne, hearlier⟩ :=
      probeLoop_some hcap.pos hprobe
    have hpast : j ≠ 0 := by omega
    refine ⟨j, by omega, ?_, hf, hne, fun i hi => ?_⟩
    · simpa [probeSeq, hpast] using hp
    · cases i with
      | zero => exact hhome
      | succ i => exact hearlier (i + 1) (by omega) hi
  · rename_i hhome
    simp only [Option.some.injEq, Prod.mk.injEq] at hprobe
    obtain ⟨rfl, rfl⟩ := hprobe
    exact ⟨0, by omega, rfl, rfl, hhome, fun i hi => by omega⟩

/-- A probe that ends nowhere has passed over the home bucket and over every
position of the loop. -/
theorem probe_none (hcap : IsCapacity cap)
    (hprobe : probe flag proceed cap h = none) :
    ∀ j ≤ cap, flag (probeSeq cap h j) = proceed := by
  simp only [probe, hcap.nextPowerOf2_eq] at hprobe
  split at hprobe
  · rename_i hhome
    intro j hj
    cases j with
    | zero => exact hhome
    | succ j =>
        exact probeLoop_none hcap.pos hprobe (j + 1) (by omega) (by omega)
  · simp at hprobe

end Search

end CsPrimer.BasicHashmap
