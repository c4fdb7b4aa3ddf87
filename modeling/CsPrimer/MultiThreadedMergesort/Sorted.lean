import CsPrimer.Foundation.Segment
import CsPrimer.MultiThreadedMergesort.Sort

/-!
Every interleaving of the multi-threaded sort ends with the array sorted. Each
thread stays inside the part it is told to sort, and the merge reads the left
part after the join, so the sequential execution is the only case to compute.
-/

namespace CsPrimer.MultiThreadedMergesort

open Foundation Prog

variable {arr n border : Nat}

theorem copyBack_within {values : List Int} {low high : Nat} (hlow : low ≤ arr)
    (hhigh : arr + values.length ≤ high) :
    Within (Set.Ico low high) (copyBack arr values) := by
  induction values generalizing arr with
  | nil => trivial
  | cons value rest ih =>
      simp only [List.length_cons] at hhigh
      refine ⟨⟨hlow, by omega⟩, ?_⟩
      apply ih
      · omega
      · omega

theorem copyBack_eval (arr : Nat) (values : List Int) (mem : Nat → Int) :
    segment ((copyBack arr values).eval mem) arr values.length = values := by
  induction values generalizing arr mem with
  | nil => rfl
  | cons value rest ih =>
      simp only [copyBack, eval, List.length_cons, segment_succ]
      rw [ih]
      congr 1
      have hwithin : Within (Set.Ico (arr + 1) (arr + 1 + rest.length))
          (copyBack (arr + 1) rest) := copyBack_within le_rfl le_rfl
      rw [hwithin.eval_outside (by simp), Function.update_self]

/-- Where the merge loop stands: `count` items of the two parts are left. -/
structure Merging (n border count left right : Nat) (x : List Int) : Prop where
  left_le : left ≤ border
  right_ge : border ≤ right
  right_le : right ≤ n
  rest : count = border - left + (n - right)
  copied : x.length + count = n

namespace Merging

variable {count left right : Nat} {x : List Int}

theorem start (hborder : border ≤ n) : Merging n border n 0 border [] :=
  ⟨Nat.zero_le _, le_rfl, hborder, by omega, by simp⟩

theorem take_left (h : Merging n border (count + 1) left right x)
    (hleft : left < border) (value : Int) :
    Merging n border count (left + 1) right (x ++ [value]) := by
  have hrest := h.rest
  have hcopied := h.copied
  refine ⟨hleft, h.right_ge, h.right_le, by omega, ?_⟩
  simp only [List.length_append, List.length_singleton]
  omega

theorem take_right (h : Merging n border (count + 1) left right x)
    (hright : right < n) (value : Int) :
    Merging n border count left (right + 1) (x ++ [value]) := by
  have hrest := h.rest
  have hcopied := h.copied
  have hge := h.right_ge
  refine ⟨h.left_le, by omega, hright, by omega, ?_⟩
  simp only [List.length_append, List.length_singleton]
  omega

/-- With the right part used up, the left one is not. -/
theorem left_lt (h : Merging n border (count + 1) left right x)
    (hright : right = n) : left < border := by
  have := h.rest
  omega

end Merging

theorem mergeLoop_within {count left right : Nat} {x : List Int}
    (h : Merging n border count left right x) :
    Within (Set.Ico arr (arr + n))
      (mergeLoop arr n border count left right x) := by
  induction count generalizing left right x with
  | zero =>
      have hcopied := h.copied
      exact copyBack_within le_rfl (by omega)
  | succ count ih =>
      have hge := h.right_ge
      have hle := h.right_le
      simp only [mergeLoop]
      split
      · rename_i hright
        have hleft := h.left_lt hright
        exact ⟨⟨by omega, by omega⟩, fun value => ih (h.take_left hleft value)⟩
      · split
        · have hright : right < n := by omega
          exact ⟨⟨by omega, by omega⟩,
            fun value => ih (h.take_right hright value)⟩
        · have hright : right < n := by omega
          have hleft : left < border := by
            have := h.left_le
            omega
          refine ⟨⟨by omega, by omega⟩, fun rightValue =>
            ⟨⟨by omega, by omega⟩, fun leftValue => ?_⟩⟩
          dsimp only
          split
          · exact ⟨⟨by omega, by omega⟩,
              fun value => ih (h.take_right hright value)⟩
          · exact ⟨⟨by omega, by omega⟩,
              fun value => ih (h.take_left hleft value)⟩

/-- The loop copies the merge of what is left of the two parts. -/
theorem mergeLoop_eval {count left right : Nat} {x : List Int}
    (h : Merging n border count left right x) (mem : Nat → Int) :
    (mergeLoop arr n border count left right x).eval mem =
      (copyBack arr (x ++ (segment mem (arr + left) (border - left)).merge
        (segment mem (arr + right) (n - right)))).eval mem := by
  induction count generalizing left right x with
  | zero =>
      have hrest := h.rest
      obtain ⟨hleft, hright⟩ : border - left = 0 ∧ n - right = 0 := by omega
      simp [mergeLoop, hleft, hright]
  | succ count ih =>
      have hge := h.right_ge
      have hle := h.right_le
      simp only [mergeLoop]
      split
      · rename_i hright
        have hleft := h.left_lt hright
        simp only [eval]
        rw [ih (h.take_left hleft _), hright, Nat.sub_self, segment_zero,
          List.merge_right, List.merge_right, List.append_assoc,
          segment_pos (by omega : 0 < border - left)]
        rfl
      · split
        · rename_i hleft
          have hright : right < n := by omega
          simp only [eval]
          rw [ih (h.take_right hright _), hleft, Nat.sub_self, segment_zero,
            List.nil_merge, List.nil_merge, List.append_assoc,
            segment_pos (by omega : 0 < n - right)]
          rfl
        · have hright : right < n := by omega
          have hleft : left < border := by
            have := h.left_le
            omega
          simp only [eval]
          rw [segment_pos (by omega : 0 < border - left),
            segment_pos (by omega : 0 < n - right), List.cons_merge_cons]
          split
          · rename_i hlt
            simp only [eval]
            rw [ih (h.take_right hright _), if_neg (by simpa using hlt),
              List.append_assoc, segment_pos (by omega : 0 < border - left)]
            rfl
          · rename_i hge'
            simp only [eval]
            rw [ih (h.take_left hleft _), if_pos (by simpa using hge'),
              List.append_assoc, segment_pos (by omega : 0 < n - right)]
            rfl

theorem merge_within (hborder : border ≤ n) :
    Within (Set.Ico arr (arr + n)) (merge arr n border) :=
  mergeLoop_within (Merging.start hborder)

/-- The merge of two sorted parts. -/
theorem merge_segment (hborder : border ≤ n) (mem : Nat → Int) :
    segment ((merge arr n border).eval mem) arr n =
      (segment mem arr border).merge
        (segment mem (arr + border) (n - border)) := by
  unfold merge
  rw [mergeLoop_eval (Merging.start hborder)]
  have hlength : ([] ++ (segment mem (arr + 0) (border - 0)).merge
      (segment mem (arr + border) (n - border))).length = n := by
    simp
    omega
  have hcopied := copyBack_eval arr ([] ++
    (segment mem (arr + 0) (border - 0)).merge
      (segment mem (arr + border) (n - border))) mem
  rw [hlength] at hcopied
  exact hcopied

structure Sorts (thread : Thread) (arr n : Nat) : Prop where
  within : Within (Set.Ico arr (arr + n)) thread
  sorts : ∀ mem, SortedInPlace mem (thread.eval mem) arr n

/-- First one part is sorted, then the other, then they are merged. -/
theorem merge_sorts {mem leftMem rightMem : Nat → Int} (hborder : border ≤ n)
    (hleft : SortedInPlace mem leftMem arr border)
    (hright : SortedInPlace leftMem rightMem (arr + border) (n - border)) :
    SortedInPlace mem ((merge arr n border).eval rightMem) arr n := by
  have hleftKept : segment rightMem arr border = segment leftMem arr border := by
    apply segment_congr
    intro addr hlow hhigh
    apply hright.frame
    simp only [Set.mem_Ico, not_and, not_lt]
    omega
  have hrightKept : segment leftMem (arr + border) (n - border) =
      segment mem (arr + border) (n - border) := by
    apply segment_congr
    intro addr hlow hhigh
    apply hleft.frame
    simp only [Set.mem_Ico, not_and, not_lt]
    omega
  refine ⟨⟨?_, ?_⟩, ?_⟩
  · rw [merge_segment hborder, hleftKept]
    exact hleft.sorted.merge hright.sorted
  · rw [merge_segment hborder, hleftKept]
    have hwhole := segment_add mem arr border (n - border)
    rw [Nat.add_sub_cancel' hborder] at hwhole
    rw [hwhole, ← hrightKept]
    exact (List.merge_perm_append ..).trans (hleft.perm.append hright.perm)
  · intro addr haddr
    simp only [Set.mem_Ico, not_and, not_lt] at haddr
    rw [(merge_within hborder).eval_outside (by simpa using haddr),
      hright.frame, hleft.frame]
    · simp only [Set.mem_Ico, not_and, not_lt]
      omega
    · simp only [Set.mem_Ico, not_and, not_lt]
      omega

theorem left_part_subset (hborder : border ≤ n) :
    Set.Ico arr (arr + border) ⊆ Set.Ico arr (arr + n) :=
  Set.Ico_subset_Ico_right (by omega)

theorem right_part_subset (hborder : border ≤ n) :
    Set.Ico (arr + border) (arr + border + (n - border)) ⊆
      Set.Ico arr (arr + n) :=
  Set.Ico_subset_Ico (by omega) (by omega)

theorem parts_disjoint :
    Disjoint (Set.Ico arr (arr + border))
      (Set.Ico (arr + border) (arr + border + (n - border))) := by
  rw [Set.Ico_disjoint_Ico]
  omega

/-- The two parts one after the other in one thread. -/
theorem Sorts.andThen {left right : Thread} (hborder : border ≤ n)
    (hleft : Sorts left arr border)
    (hright : Sorts right (arr + border) (n - border)) :
    Sorts ((left.andThen right).andThen (merge arr n border)) arr n where
  within := ((hleft.within.mono (left_part_subset hborder)).andThen
    (hright.within.mono (right_part_subset hborder))).andThen
      (merge_within hborder)
  sorts := by
    intro mem
    rw [eval_andThen, eval_andThen]
    exact merge_sorts hborder (hleft.sorts mem) (hright.sorts _)

/-- The left part in a thread of its own. -/
theorem Sorts.fork {left right : Thread} (hborder : border ≤ n)
    (hleft : Sorts left arr border)
    (hright : Sorts right (arr + border) (n - border)) :
    Sorts (.fork left right (merge arr n border)) arr n where
  within := ⟨⟨_, _, parts_disjoint, left_part_subset hborder,
    right_part_subset hborder, hleft.within, hright.within⟩,
    merge_within hborder⟩
  sorts := by
    intro mem
    exact merge_sorts hborder (hleft.sorts mem) (hright.sorts _)

/-- Without threads to spare only the length goes down. -/
theorem sort_sorts_alone {tcnt : Nat} (htcnt : tcnt ≤ 1) :
    Sorts (sort arr n tcnt) arr n := by
  induction n using Nat.strong_induction_on generalizing arr tcnt with
  | _ n ih =>
      rw [sort]
      split
      · exact ⟨trivial, fun mem => SortedInPlace.of_short (by omega) mem⟩
      · have hhalf : n >>> 1 = n / 2 := by
          rw [Nat.shiftRight_eq_div_pow, pow_one]
        have htwo : ¬ 2 < tcnt := by omega
        have hone : ¬ 1 < tcnt := by omega
        simp only [if_neg htwo, if_neg hone, hhalf]
        apply Sorts.andThen (by omega)
        · exact ih _ (by omega) le_rfl
        · exact ih _ (by omega) le_rfl

/-- A part of at most `INT_MAX` items survives the `int` of its context. -/
theorem mtSort_eq (hn : n ≤ intMax) : mtSort arr n = sort arr n 1 := by
  have hsize : sizeOfInt (intOfSize n) = n := by
    unfold intMax at hn
    unfold sizeOfInt intOfSize
    rw [Int.bmod_eq_of_le (by omega) (by omega)]
    omega
  rw [mtSort, routine, hsize]

/-- With threads to spare their number goes down, whatever the length does. -/
theorem sort_sorts {tcnt : Nat} (hn : n ≤ intMax) :
    Sorts (sort arr n tcnt) arr n := by
  induction tcnt using Nat.strong_induction_on generalizing arr n with
  | _ tcnt ih =>
      rcases Nat.lt_or_ge 1 tcnt with htcnt | halone
      · rw [sort]
        split
        · exact ⟨trivial, fun mem => SortedInPlace.of_short (by omega) mem⟩
        · have hborder : (if 2 < tcnt then n / tcnt else n >>> 1) ≤ n := by
            split
            · exact Nat.div_le_self _ _
            · rw [Nat.shiftRight_eq_div_pow]
              exact Nat.div_le_self _ _
          apply Sorts.fork hborder
          · rw [mtSort_eq (hborder.trans hn)]
            exact sort_sorts_alone le_rfl
          · apply ih
            · split <;> omega
            · omega
      · exact sort_sorts_alone halone

/-- For every array, length and thread count, every interleaving of the sort
terminates with the array sorted. -/
theorem sort_terminates_sorted (arr n tcnt : Nat) (hn : n ≤ intMax)
    (mem : Nat → Int) :
    ∃ final, Terminates (sort arr n tcnt) mem final ∧
      SortedInPlace mem final arr n := by
  have hsorts : Sorts (sort arr n tcnt) arr n := sort_sorts hn
  exact ⟨_, hsorts.within.terminates mem, hsorts.sorts mem⟩

/-- Two items for four threads: the first part is empty. -/
theorem sort_two_by_four :
    ∃ final, Terminates (sort 0 2 4) (fun i => 5 - i) final ∧
      SortedInPlace (fun i => 5 - (i : Int)) final 0 2 :=
  sort_terminates_sorted 0 2 4 (by decide) _

end CsPrimer.MultiThreadedMergesort
