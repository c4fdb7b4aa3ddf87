import CsPrimer.MultiThreadedMergesort.Sort

/-!
The part of the array each spawned thread is told to sort, through the `int`
of its context, and the part its parent sorts meanwhile.
-/

namespace CsPrimer.MultiThreadedMergesort

open Foundation

variable {arr n tcnt : Nat}

/-- One call of `sort` that spawns a thread: the array it is given, the
context of the thread and the arguments of its own recursive call. -/
structure Level where
  arr : Nat
  n : Nat
  ctx : Context
  restArr : Nat
  restN : Nat
  restTcnt : Nat

def sortBorder (n tcnt : Nat) : Nat := if 2 < tcnt then n / tcnt else n >>> 1

def sortLevel (arr n tcnt : Nat) : Level where
  arr := arr
  n := n
  ctx := ⟨arr, intOfSize (sortBorder n tcnt)⟩
  restArr := arr + sortBorder n tcnt
  restN := n - sortBorder n tcnt
  restTcnt := if 2 < tcnt then tcnt - 1 else 1

/-- The calls of the recursion that spawn a thread. The thread itself sorts
with a count of 1 and spawns none. -/
def sortLevels (arr n tcnt : Nat) : List Level :=
  if n < 2 ∨ tcnt ≤ 1 then []
  else
    let level := sortLevel arr n tcnt
    level :: sortLevels level.restArr level.restN level.restTcnt
termination_by tcnt
decreasing_by
  simp only [sortLevel]
  split <;> omega

/-- A level is what `sort` does: it spawns `routine` with the context and
calls itself with the rest. -/
theorem sort_eq_level (hn : 2 ≤ n) (htcnt : 1 < tcnt) :
    ∃ level, (sortLevels arr n tcnt).head? = some level ∧
      sort arr n tcnt = .fork (routine level.ctx)
        (sort level.restArr level.restN level.restTcnt)
        (merge arr n (level.restArr - arr)) := by
  refine ⟨sortLevel arr n tcnt, ?_, ?_⟩
  · rw [sortLevels, if_neg (by omega)]
    rfl
  · rw [sort, if_neg (by omega)]
    simp only [if_pos htcnt, mtSort]
    simp only [sortLevel, sortBorder, Nat.add_sub_cancel_left]

namespace Level

def threadRange (level : Level) : Set Nat :=
  Set.Ico level.ctx.arr (level.ctx.arr + sizeOfInt level.ctx.n)

def callerRange (level : Level) : Set Nat :=
  Set.Ico level.restArr (level.restArr + level.restN)

/-- The two ranges share no element, and together they are the whole. -/
def Splits (level : Level) : Prop :=
  Disjoint level.threadRange level.callerRange ∧
    level.threadRange ∪ level.callerRange = Set.Ico level.arr (level.arr + level.n)

end Level

theorem sortBorder_lt (hn : 2 ≤ n) (htcnt : 1 < tcnt) : sortBorder n tcnt < n := by
  rw [sortBorder, Nat.shiftRight_eq_div_pow, pow_one]
  split
  · exact Nat.div_lt_self (by omega) htcnt
  · omega

/-- With threads to spare the part before the border is one of `tcnt`. -/
theorem sortBorder_eq (htcnt : 1 < tcnt) : sortBorder n tcnt = n / tcnt := by
  rw [sortBorder, Nat.shiftRight_eq_div_pow, pow_one]
  split
  · rfl
  · rw [show tcnt = 2 by omega]

theorem sortLevel_restTcnt_lt (htcnt : 1 < tcnt) :
    (sortLevel arr n tcnt).restTcnt < tcnt := by
  simp only [sortLevel]
  split <;> omega

/-- The rest starts at the border, so the thread has to end there. -/
theorem splits_iff_size (hborder : sortBorder n tcnt < n) :
    (sortLevel arr n tcnt).Splits ↔
      sizeOfInt (intOfSize (sortBorder n tcnt)) = sortBorder n tcnt := by
  have hrest : arr + sortBorder n tcnt + (n - sortBorder n tcnt) = arr + n := by omega
  unfold Level.Splits Level.threadRange Level.callerRange
  simp only [sortLevel, hrest]
  constructor
  · rintro ⟨hdisjoint, hunion⟩
    rw [Set.Ico_disjoint_Ico] at hdisjoint
    have hend : arr + sizeOfInt (intOfSize (sortBorder n tcnt)) ∉
        Set.Ico arr (arr + sizeOfInt (intOfSize (sortBorder n tcnt))) := by simp
    have hge : sizeOfInt (intOfSize (sortBorder n tcnt)) ≤ sortBorder n tcnt := by omega
    have hmem : arr + sizeOfInt (intOfSize (sortBorder n tcnt)) ∈
        Set.Ico arr (arr + n) := ⟨by omega, by omega⟩
    rw [← hunion] at hmem
    have hle := (hmem.resolve_left hend).1
    omega
  · intro hsize
    rw [hsize]
    refine ⟨?_, Set.Ico_union_Ico_eq_Ico (by omega) (by omega)⟩
    rw [Set.Ico_disjoint_Ico]
    omega

/-- A length comes back from the `int` of the context up to `INT_MAX`. -/
theorem sizeOfInt_intOfSize_iff {size : Nat} (hsize : size < 2 ^ 63) :
    sizeOfInt (intOfSize size) = size ↔ size ≤ intMax := by
  unfold sizeOfInt intOfSize intMax
  rw [Int.bmod_def]
  split <;> omega

theorem splits_iff (arr : Nat) (hn : 2 ≤ n) (hsize : n < 2 ^ 64) (htcnt : 1 < tcnt) :
    (sortLevel arr n tcnt).Splits ↔ n / tcnt ≤ intMax := by
  have hhalf : n / tcnt ≤ n / 2 := Nat.div_le_div_left htcnt (by decide)
  rw [splits_iff_size (sortBorder_lt hn htcnt), sortBorder_eq htcnt]
  exact sizeOfInt_intOfSize_iff (by omega)

/-- The first of `tcnt` parts fits and the others fit in what the rest of the
threads may have, exactly when the whole fits. -/
theorem parts_fit_iff (bound : Nat) (htcnt : 1 < tcnt) :
    n / tcnt ≤ bound ∧ n - n / tcnt ≤ (tcnt - 1) * bound + 1 ↔ n ≤ tcnt * bound + 1 := by
  obtain ⟨others, rfl⟩ := Nat.exists_eq_add_of_lt htcnt
  have hothers : 1 + others + 1 - 1 = others + 1 := by omega
  have hwhole := Nat.div_add_mod n (1 + others + 1)
  have hrem := Nat.mod_lt n (by omega : 0 < 1 + others + 1)
  rw [hothers]
  generalize n / (1 + others + 1) = part at *
  generalize n % (1 + others + 1) = left at *
  have hpart : (1 + others + 1) * part = (others + 1) * part + part := by ring
  have hbound : (1 + others + 1) * bound = (others + 1) * bound + bound := by ring
  constructor
  · rintro ⟨hle, hrest⟩
    omega
  · intro hn
    have hle : part ≤ bound := by
      by_contra hlt
      have hmul : (1 + others + 1) * (bound + 1) ≤ (1 + others + 1) * part :=
        Nat.mul_le_mul_left _ (by omega)
      rw [Nat.mul_succ] at hmul
      omega
    refine ⟨hle, ?_⟩
    rcases Nat.lt_or_eq_of_le hle with hlt | rfl
    · have hmul : (others + 1) * (part + 1) ≤ (others + 1) * bound :=
        Nat.mul_le_mul_left _ hlt
      rw [Nat.mul_succ] at hmul
      omega
    · omega

theorem sortLevels_split_iff (hsize : n < 2 ^ 64) :
    (∀ level ∈ sortLevels arr n tcnt, level.Splits) ↔
      tcnt < 2 ∨ n ≤ tcnt * intMax + 1 := by
  induction tcnt using Nat.strong_induction_on generalizing arr n with
  | _ tcnt ih =>
      rw [sortLevels]
      split
      · rename_i hnone
        simp only [List.not_mem_nil, false_implies, implies_true, true_iff]
        rcases hnone with hshort | halone
        · exact Or.inr (by omega)
        · exact Or.inl (by omega)
      · rename_i hsome
        have htcnt : 1 < tcnt := by omega
        have hone : ¬ tcnt < 2 := by omega
        have hlevel := splits_iff arr (by omega : 2 ≤ n) hsize htcnt
        have hrest : (sortLevel arr n tcnt).restN = n - n / tcnt := by
          rw [← sortBorder_eq htcnt]
          rfl
        have hrestSize : (sortLevel arr n tcnt).restN < 2 ^ 64 :=
          lt_of_le_of_lt (Nat.sub_le _ _) hsize
        rw [List.forall_mem_cons, hlevel, ih _ (sortLevel_restTcnt_lt htcnt) hrestSize,
          hrest, ← parts_fit_iff intMax htcnt]
        rcases Nat.lt_or_ge 2 tcnt with htwo | htwo
        · have hothers : (sortLevel arr n tcnt).restTcnt = tcnt - 1 := if_pos htwo
          have hmore : ¬ tcnt - 1 < 2 := by omega
          simp only [hothers, hmore, hone, false_or]
        · obtain rfl : tcnt = 2 := by omega
          have hothers : (sortLevel arr n 2).restTcnt = 1 := rfl
          have hfits : n / 2 ≤ intMax → n - n / 2 ≤ (2 - 1) * intMax + 1 := by omega
          simp only [hothers, hone, false_or, Nat.one_lt_ofNat, true_or, and_true]
          exact ⟨fun hle => ⟨hle, hfits hle⟩, fun h => h.1⟩

/-- For every array, length and count: the lengths of all parts but the last
have to fit in an `int`. -/
theorem thread_ranges_split_iff (arr : Nat) (n tcnt : UInt64) :
    (∀ level ∈ sortLevels arr n.toNat tcnt.toNat, level.Splits) ↔
      tcnt.toNat < 2 ∨ n.toNat ≤ tcnt.toNat * intMax + 1 :=
  sortLevels_split_iff n.toNat_lt

/-- Two threads for `2 ^ 32` elements: half the length is negative as an
`int`, and a length of almost `2 ^ 64` as a `size_t` again. -/
theorem half_overlaps_rest :
    ¬ ∀ level ∈ sortLevels 0 (4294967296 : UInt64).toNat (2 : UInt64).toNat,
      level.Splits := by
  intro hsplit
  have hlevel := hsplit (sortLevel 0 4294967296 2) (by
    rw [show (4294967296 : UInt64).toNat = 4294967296 by decide,
      show (2 : UInt64).toNat = 2 by decide, sortLevels, if_neg (by decide)]
    exact List.mem_cons_self)
  have hdisjoint := hlevel.1
  unfold Level.threadRange Level.callerRange at hdisjoint
  rw [Set.Ico_disjoint_Ico] at hdisjoint
  revert hdisjoint
  decide

end CsPrimer.MultiThreadedMergesort
