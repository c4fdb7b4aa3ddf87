import CsPrimer.MultiThreadedMergesort.Ranges

/-!
How evenly `sort` shares the array out. Every level takes one part of as many
as there are threads, so rounding down leaves at most one element more for
each of the others.
-/

namespace CsPrimer.MultiThreadedMergesort

open Foundation

/-- The lengths that are sorted by one thread each: that of every spawned
thread, as it reads it from its context, and that of the caller at the end. -/
def workloads (arr n tcnt : Nat) : List Nat :=
  match sortLevels arr n tcnt with
  | [] => [n]
  | level :: levels =>
      (level :: levels).map (fun level => sizeOfInt level.ctx.n) ++
        [((level :: levels).getLast (List.cons_ne_nil _ _)).restN]

variable {arr n tcnt least : Nat}

theorem sortLevels_eq_nil (htcnt : tcnt ≤ 1) : sortLevels arr n tcnt = [] := by
  rw [sortLevels, if_pos (.inr htcnt)]

theorem workloads_one (htcnt : tcnt ≤ 1) : workloads arr n tcnt = [n] := by
  rw [workloads, sortLevels_eq_nil htcnt]

/-- The part of the first thread, and the workloads of the rest. -/
theorem workloads_cons (hn : 2 ≤ n) (htcnt : 1 < tcnt) :
    workloads arr n tcnt = sizeOfInt (intOfSize (n / tcnt)) ::
      workloads (arr + n / tcnt) (n - n / tcnt) (tcnt - 1) := by
  have hlevels : sortLevels arr n tcnt =
      sortLevel arr n tcnt :: sortLevels (arr + n / tcnt) (n - n / tcnt) (tcnt - 1) := by
    have hothers : (if 2 < tcnt then tcnt - 1 else 1) = tcnt - 1 := by
      split <;> omega
    rw [sortLevels, if_neg (by omega)]
    simp only [sortLevel, sortBorder_eq htcnt, hothers]
  have hborder : sizeOfInt (sortLevel arr n tcnt).ctx.n = sizeOfInt (intOfSize (n / tcnt)) := by
    simp only [sortLevel, sortBorder_eq htcnt]
  have hrest : (sortLevel arr n tcnt).restN = n - n / tcnt := by
    simp only [sortLevel, sortBorder_eq htcnt]
  unfold workloads
  rw [hlevels]
  cases sortLevels (arr + n / tcnt) (n - n / tcnt) (tcnt - 1) with
  | nil => simp only [List.map_cons, List.map_nil, List.getLast_singleton, hborder, hrest,
      List.cons_append, List.nil_append]
  | cons level levels => simp only [List.map_cons, List.cons_append, hborder,
      List.getLast_cons_cons]

/-- With two elements or more, the rest has two or more while there are
threads for it. -/
theorem two_le_rest (hn : 2 ≤ n) (htcnt : 2 < tcnt) : 2 ≤ n - n / tcnt := by
  have hthird : n / tcnt ≤ n / 3 := Nat.div_le_div_left htcnt (by decide)
  omega

/-- The rounded part of `n` elements for `tcnt` threads leaves the others
between the same bounds. -/
theorem rest_between (htcnt : 1 < tcnt) (hlow : least * tcnt ≤ n)
    (hhigh : n ≤ (least + 1) * tcnt) :
    (n / tcnt = least ∨ n / tcnt = least + 1) ∧
      least * (tcnt - 1) ≤ n - n / tcnt ∧ n - n / tcnt ≤ (least + 1) * (tcnt - 1) := by
  have hle : least ≤ n / tcnt := (Nat.le_div_iff_mul_le (by omega)).mpr hlow
  have hge : n / tcnt ≤ least + 1 := by
    have hdiv := Nat.div_le_div_right (c := tcnt) hhigh
    rwa [Nat.mul_div_cancel _ (by omega)] at hdiv
  have hmul := Nat.div_mul_le_self n tcnt
  have hlt := Nat.lt_mul_div_succ n (by omega : 0 < tcnt)
  obtain ⟨others, rfl⟩ := Nat.exists_eq_add_of_lt htcnt
  have hfloor : least * (1 + others + 1) = least * (1 + others + 1 - 1) + least := by
    rw [Nat.add_sub_cancel, Nat.mul_succ]
  have hceil : (least + 1) * (1 + others + 1) =
      (least + 1) * (1 + others + 1 - 1) + (least + 1) := by
    rw [Nat.add_sub_cancel, Nat.mul_succ]
  have hsucc : (1 + others + 1) * (least + 1) = (least + 1) * (1 + others + 1) := Nat.mul_comm ..
  obtain heq | heq : n / (1 + others + 1) = least ∨ n / (1 + others + 1) = least + 1 := by
    omega
  · rw [heq] at hlt ⊢
    exact ⟨.inl rfl, by omega, by omega⟩
  · rw [heq] at hmul ⊢
    refine ⟨.inr rfl, ?_, by omega⟩
    have hmono : least * (1 + others + 1 - 1) ≤ (least + 1) * (1 + others + 1 - 1) :=
      Nat.mul_le_mul_right _ (Nat.le_succ least)
    omega

/-- The workloads add up to the array, there is one for each thread, and they
are `least` or one more. -/
structure Balanced (least n tcnt : Nat) (loads : List Nat) : Prop where
  length_eq : loads.length = tcnt
  sum_eq : loads.sum = n
  even : ∀ load ∈ loads, load = least ∨ load = least + 1

theorem workloads_balanced_of (hn : 2 ≤ n) (hint : n ≤ intMax) (htcnt : 1 ≤ tcnt)
    (hlow : least * tcnt ≤ n) (hhigh : n ≤ (least + 1) * tcnt) :
    Balanced least n tcnt (workloads arr n tcnt) := by
  induction tcnt, htcnt using Nat.le_induction generalizing arr n with
  | base =>
      rw [workloads_one le_rfl]
      refine ⟨rfl, List.sum_singleton, ?_⟩
      intro load hload
      rw [List.mem_singleton] at hload
      omega
  | succ tcnt htcnt ih =>
      obtain ⟨hpart, hlow', hhigh'⟩ := rest_between (by omega) hlow hhigh
      have hle : n / (tcnt + 1) ≤ n := Nat.div_le_self ..
      have hsize : sizeOfInt (intOfSize (n / (tcnt + 1))) = n / (tcnt + 1) := by
        rw [sizeOfInt_intOfSize_iff]
        · omega
        · unfold intMax at hint
          omega
      have hrest : Balanced least (n - n / (tcnt + 1)) tcnt
          (workloads (arr + n / (tcnt + 1)) (n - n / (tcnt + 1)) tcnt) := by
        rcases Nat.lt_or_eq_of_le htcnt with hmore | rfl
        · exact ih (two_le_rest hn (by omega)) (by omega) hlow' hhigh'
        · rw [workloads_one le_rfl]
          refine ⟨rfl, List.sum_singleton, ?_⟩
          intro load hload
          rw [List.mem_singleton] at hload
          omega
      rw [workloads_cons hn (by omega), hsize, Nat.add_sub_cancel]
      refine ⟨?_, ?_, ?_⟩
      · rw [List.length_cons, hrest.length_eq]
      · rw [List.sum_cons, hrest.sum_eq]
        omega
      · exact List.forall_mem_cons.mpr ⟨hpart, hrest.even⟩

/-- For every array of two elements or more, and every number of threads: one
less is spawned, and no thread sorts more than one element more than another. -/
theorem workloads_balanced (arr n tcnt : Nat) (hn : 2 ≤ n) (hint : n ≤ intMax)
    (htcnt : 1 ≤ tcnt) :
    (sortLevels arr n tcnt).length = tcnt - 1 ∧
      Balanced (n / tcnt) n tcnt (workloads arr n tcnt) := by
  have hhigh := Nat.lt_mul_div_succ n (by omega : 0 < tcnt)
  rw [Nat.mul_comm] at hhigh
  have hbalanced : Balanced (n / tcnt) n tcnt (workloads arr n tcnt) :=
    workloads_balanced_of hn hint htcnt (Nat.div_mul_le_self n tcnt) hhigh.le
  refine ⟨?_, hbalanced⟩
  have hlength := hbalanced.length_eq
  unfold workloads at hlength
  split at hlength
  · rename_i hnil
    rw [List.length_singleton] at hlength
    rw [hnil, ← hlength]
    rfl
  · rename_i level levels hlevels
    rw [List.length_append, List.length_map, List.length_singleton] at hlength
    rw [hlevels]
    omega

/-- The call of `main`. -/
theorem four_threads_balanced :
    (sortLevels 0 (2 ^ 24) 4).length = 4 - 1 ∧
      Balanced (2 ^ 24 / 4) (2 ^ 24) 4 (workloads 0 (2 ^ 24) 4) :=
  workloads_balanced 0 (2 ^ 24) 4 (by decide) (by decide) (by decide)

end CsPrimer.MultiThreadedMergesort
