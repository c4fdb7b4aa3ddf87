import CsPrimer.Foundation.Segment
import CsPrimer.MergeSort.Sort

/-!
The bottom-up sort leaves a sorted permutation in the caller's buffer. Each
pass doubles the length of the sorted runs and swaps the buffers, so `sz`
counts the swaps as well: after `k` passes it is `2 ^ (k + 1)`, and the mask
has the bits of even weight.
-/

namespace CsPrimer.MergeSort

open Foundation

variable {len : Nat} {src dst : Buf} {mem mem' : Mem}

structure Emitted (src dst : Buf) (mem mem' : Mem) (i e : Nat)
    (values : List Int) : Prop where
  source : mem' src = mem src
  frame : ∀ k, k < i ∨ e ≤ k → mem' dst k = mem dst k
  emitted : segment (mem' dst) i (e - i) = values

theorem memcpy_emits (hne : src ≠ dst) (mem : Mem) (len i j count : Nat)
    (hi : i + count ≤ len) (hj : j + count ≤ len) :
    ∃ mem', memcpy len mem dst i src j count = some mem' ∧
      Emitted src dst mem mem' i (i + count) (segment (mem src) j count) := by
  refine ⟨_, if_pos ⟨hi, hj⟩, ?_, ?_, ?_⟩
  · exact Function.update_of_ne hne _ _
  · intro k hk
    rw [Function.update_self, if_neg (by omega)]
  · rw [Function.update_self, Nat.add_sub_cancel_left]
    apply segment_shift
    intro k hk
    rw [if_pos (by omega), Nat.add_sub_cancel_left]

/-- One value first, then the rest. -/
theorem Emitted.cons {mem₁ : Mem} {i e : Nat} {value : Int} {rest : List Int}
    (hne : src ≠ dst) (hlt : i < e)
    (hstore : mem₁ = Function.update mem dst
      (Function.update (mem dst) i value))
    (h : Emitted src dst mem₁ mem' (i + 1) e rest) :
    Emitted src dst mem mem' i e (value :: rest) := by
  have hdst : mem₁ dst = Function.update (mem dst) i value := by
    rw [hstore, Function.update_self]
  refine ⟨?_, ?_, ?_⟩
  · rw [h.source, hstore, Function.update_of_ne hne]
  · intro k hk
    rw [h.frame k (by omega), hdst, Function.update_of_ne (by omega)]
  · rw [segment_pos (by omega), h.frame i (by omega), hdst,
      Function.update_self, Nat.sub_sub, h.emitted]

/-- What is left after the loop is one of the runs. -/
theorem mergeTail_emits {i s m s2 e : Nat} (hne : src ≠ dst) (mem : Mem)
    (hsm : s ≤ m) (hms : m ≤ s2) (hse : s2 ≤ e) (he : e ≤ len)
    (hi : i = s + (s2 - m)) (hend : ¬ (s < m ∧ s2 < e)) :
    ∃ mem', mergeTail len src dst m e mem i s s2 = some mem' ∧
      Emitted src dst mem mem' i e ((segment (mem src) s2 (e - s2)).merge
        (segment (mem src) s (m - s))) := by
  unfold mergeTail
  split
  · have hright : e - s2 = 0 := by omega
    have hend' : i + (m - s) = e := by omega
    obtain ⟨mem', hcopy, hemitted⟩ := memcpy_emits hne mem len i s
      (m - s) (by omega) (by omega)
    rw [hend'] at hemitted
    refine ⟨mem', hcopy, ?_⟩
    rwa [hright, segment_zero, List.nil_merge]
  · have hleft : m - s = 0 := by omega
    rw [hleft, segment_zero, List.merge_right]
    split
    · have hend' : i + (e - s2) = e := by omega
      obtain ⟨mem', hcopy, hemitted⟩ := memcpy_emits hne mem len i s2
        (e - s2) (by omega) (by omega)
      rw [hend'] at hemitted
      exact ⟨mem', hcopy, hemitted⟩
    · have hright : e - s2 = 0 := by omega
      have hnothing : e - i = 0 := by omega
      refine ⟨mem, rfl, rfl, fun _ _ => rfl, ?_⟩
      rw [hright, hnothing]
      rfl

/-- The loop and what follows it emit the merge of the two runs. On equal
items the right one comes first. -/
theorem mergeLoop_emits (hne : src ≠ dst) (mem : Mem) {m e : Nat}
    (len i s s2 : Nat)
    (hsm : s ≤ m) (hms : m ≤ s2) (hse : s2 ≤ e) (he : e ≤ len)
    (hi : i = s + (s2 - m)) :
    ∃ mem₁ i₁ s₁ s2₁ mem',
      mergeLoop len src dst m e mem i s s2 = some (mem₁, i₁, s₁, s2₁) ∧
      mergeTail len src dst m e mem₁ i₁ s₁ s2₁ = some mem' ∧
      Emitted src dst mem mem' i e ((segment (mem src) s2 (e - s2)).merge
        (segment (mem src) s (m - s))) := by
  induction hrest : (m - s) + (e - s2) using Nat.strong_induction_on
    generalizing mem i s s2 with
  | _ rest ih =>
      by_cases hgo : s < m ∧ s2 < e
      · have hstore : ∀ value, store len mem dst i value = some
            (Function.update mem dst (Function.update (mem dst) i value)) :=
          fun value => if_pos (by omega)
        have hsource : ∀ value, Function.update mem dst
            (Function.update (mem dst) i value) src = mem src :=
          fun value => Function.update_of_ne hne _ _
        have hloop := mergeLoop.eq_def len src dst m e mem i s s2
        rw [if_pos hgo, load, if_pos (by omega), load, if_pos (by omega)] at hloop
        simp only [Option.bind_eq_bind, Option.bind_some, hstore] at hloop
        rw [segment_pos (by omega : 0 < m - s),
          segment_pos (by omega : 0 < e - s2), List.cons_merge_cons]
        split at hloop
        · rename_i hlt
          obtain ⟨mem₁, i₁, s₁, s2₁, mem', hrest, htail, hemitted⟩ :=
            ih _ (by omega) (Function.update mem dst
              (Function.update (mem dst) i (mem src s))) (i + 1) (s + 1) s2
              (by omega) hms hse (by omega) rfl
          refine ⟨mem₁, i₁, s₁, s2₁, mem', hloop.trans hrest, htail, ?_⟩
          rw [if_neg (by simpa using hlt)]
          apply Emitted.cons hne (by omega) rfl
          rw [hsource, segment_pos (by omega : 0 < e - s2)] at hemitted
          exact hemitted
        · rename_i hge
          obtain ⟨mem₁, i₁, s₁, s2₁, mem', hrest, htail, hemitted⟩ :=
            ih _ (by omega) (Function.update mem dst
              (Function.update (mem dst) i (mem src s2))) (i + 1) s (s2 + 1)
              hsm (by omega) (by omega) (by omega) rfl
          refine ⟨mem₁, i₁, s₁, s2₁, mem', hloop.trans hrest, htail, ?_⟩
          rw [if_pos (by simpa using hge)]
          apply Emitted.cons hne (by omega) rfl
          rw [hsource, segment_pos (by omega : 0 < m - s)] at hemitted
          exact hemitted
      · obtain ⟨mem', htail, hemitted⟩ :=
          mergeTail_emits hne mem hsm hms hse he hi hgo
        refine ⟨mem, i, s, s2, mem', ?_, htail, hemitted⟩
        rw [mergeLoop, if_neg hgo]

/-- A merge of two runs inside the buffers stays inside them. -/
theorem merge_emits (hne : src ≠ dst) (mem : Mem) (len s m e : Nat) (hsm : s ≤ m)
    (hme : m ≤ e) (he : e ≤ len) :
    ∃ mem', merge len src dst mem s m e = some mem' ∧
      Emitted src dst mem mem' s e ((segment (mem src) m (e - m)).merge
        (segment (mem src) s (m - s))) := by
  obtain ⟨mem₁, i₁, s₁, s2₁, mem', hloop, htail, hemitted⟩ :=
    mergeLoop_emits hne mem len s s m hsm le_rfl hme he (by omega)
  refine ⟨mem', ?_, hemitted⟩
  simp only [merge, hloop]
  exact htail

/-- All runs of `width` items are sorted; the last may be shorter. -/
def RunsSorted (width len : Nat) (cells : Nat → Int) : Prop :=
  ∀ k, k * width < len →
    (segment cells (k * width) (min width (len - k * width))).Pairwise (· ≤ ·)

theorem RunsSorted.one (len : Nat) (cells : Nat → Int) :
    RunsSorted 1 len cells := by
  intro k hk
  rw [Nat.mul_one, Nat.min_eq_left (by omega)]
  exact List.pairwise_singleton _ _

/-- One run is the whole. -/
theorem RunsSorted.sorted {width : Nat} {cells : Nat → Int}
    (h : RunsSorted width len cells) (hwidth : len ≤ width) :
    (segment cells 0 len).Pairwise (· ≤ ·) := by
  rcases Nat.eq_zero_or_pos len with rfl | hpos
  · exact List.Pairwise.nil
  · have hwhole := h 0 (by omega)
    rwa [Nat.zero_mul, Nat.sub_zero, Nat.min_eq_right hwidth] at hwhole

/-- Where a pass over `before` stands after `j` pairs of runs. -/
structure PassAt (len width j : Nat) (before after : Nat → Int) : Prop where
  runs : ∀ k, k < j → k * (2 * width) < len →
    (segment after (k * (2 * width))
      (min (2 * width) (len - k * (2 * width)))).Pairwise (· ≤ ·)
  perm : (segment after 0 (min (j * (2 * width)) len)).Perm
    (segment before 0 (min (j * (2 * width)) len))

theorem PassAt.start (len width : Nat) (before after : Nat → Int) :
    PassAt len width 0 before after where
  runs := fun k hk => absurd hk (Nat.not_lt_zero k)
  perm := by simp

/-- The two runs of the pair at `s` are sorted, the second one possibly
empty. -/
theorem RunsSorted.pair {width j s m e : Nat} {cells : Nat → Int}
    (h : RunsSorted width len cells) (hs : s = j * (2 * width)) (hlt : s < len)
    (hm : m = min (s + width) len) (he : e = min (s + 2 * width) len) :
    (segment cells s (m - s)).Pairwise (· ≤ ·) ∧
      (segment cells m (e - m)).Pairwise (· ≤ ·) := by
  have hfirst : 2 * j * width = s := by rw [hs, Nat.mul_left_comm, Nat.mul_assoc]
  have hsecond : (2 * j + 1) * width = s + width := by
    rw [Nat.add_mul, Nat.one_mul, hfirst]
  constructor
  · have hlength : min width (len - s) = m - s := by omega
    have hleft := h (2 * j) (by omega)
    rwa [hfirst, hlength] at hleft
  · rcases Nat.lt_or_ge (s + width) len with hinside | houtside
    · have hmiddle : s + width = m := by omega
      have hlength : min width (len - m) = e - m := by omega
      have hright := h (2 * j + 1) (by omega)
      rwa [hsecond, hmiddle, hlength] at hright
    · have hempty : e - m = 0 := by omega
      rw [hempty]
      exact List.Pairwise.nil

/-- The next pair of runs is merged. -/
theorem PassAt.next {width j : Nat} {before after after' : Nat → Int}
    (h : PassAt len width j before after) (hruns : RunsSorted width len before)
    {s m e : Nat} (hs : s = j * (2 * width)) (hlt : s < len)
    (hm : m = min (s + width) len) (he : e = min (s + 2 * width) len)
    (hframe : ∀ k, k < s ∨ e ≤ k → after' k = after k)
    (hmerged : segment after' s (e - s) =
      (segment before m (e - m)).merge (segment before s (m - s))) :
    PassAt len width (j + 1) before after' where
  runs := by
    obtain ⟨hleft, hright⟩ := hruns.pair hs hlt hm he
    intro k hk hinside
    rcases Nat.lt_or_ge k j with hbefore | hlast
    · have hend : k * (2 * width) + 2 * width ≤ s := by
        rw [hs, ← Nat.succ_mul]
        exact Nat.mul_le_mul_right _ hbefore
      have hkept : segment after' (k * (2 * width))
            (min (2 * width) (len - k * (2 * width))) =
          segment after (k * (2 * width))
            (min (2 * width) (len - k * (2 * width))) := by
        apply segment_congr
        intro addr _ hhigh
        exact hframe addr (by omega)
      rw [hkept]
      exact h.runs k hbefore hinside
    · have hlength : min (2 * width) (len - s) = e - s := by omega
      obtain rfl : k = j := by omega
      rw [← hs, hlength, hmerged]
      exact hright.merge hleft
  perm := by
    have hreached : min s len = s := by omega
    have hdone := h.perm
    rw [← hs, hreached] at hdone
    have hkept : segment after' 0 s = segment after 0 s := by
      apply segment_congr
      intro addr _ hhigh
      exact hframe addr (by omega)
    have hpair : (segment after' s (e - s)).Perm (segment before s (e - s)) := by
      have hlength : m - s + (e - m) = e - s := by omega
      have hmiddle : s + (m - s) = m := by omega
      have hsplit := segment_add before s (m - s) (e - m)
      rw [hlength, hmiddle] at hsplit
      rw [hmerged, hsplit]
      exact (List.merge_perm_append ..).trans List.perm_append_comm
    have hwhole : ∀ cells : Nat → Int,
        segment cells 0 e = segment cells 0 s ++ segment cells s (e - s) := by
      intro cells
      have hend : s + (e - s) = e := by omega
      have hsplit := segment_add cells 0 s (e - s)
      rwa [Nat.zero_add, hend] at hsplit
    rw [Nat.succ_mul, ← hs, ← he, hwhole, hwhole, hkept]
    exact hdone.append hpair

/-- Nothing is left of a pass that has reached the end. -/
theorem PassAt.done {width j : Nat} {before after : Nat → Int}
    (h : PassAt len width j before after) (hend : len ≤ j * (2 * width)) :
    RunsSorted (2 * width) len after ∧
      (segment after 0 len).Perm (segment before 0 len) := by
  constructor
  · intro k hk
    apply h.runs k _ hk
    exact Nat.lt_of_mul_lt_mul_right (hk.trans_le hend)
  · have hperm := h.perm
    rwa [Nat.min_eq_right hend] at hperm

theorem wrap_of_lt {n : Nat} (h : n < 2 ^ 64) : wrap n = n := Nat.mod_eq_of_lt h

/-- Clipping an index to the length. -/
theorem clip_eq (i len : Nat) : (if i < len then i else len) = min i len := by
  split <;> omega

/-- One pass doubles the width of the runs and leaves its source alone. -/
theorem mergePass_runs {width fuel s j : Nat} (hne : src ≠ dst) (mem : Mem)
    (hruns : RunsSorted width len (mem src)) (hwidth : 0 < width)
    (hfits : len + 2 * width < 2 ^ 64) (hs : s = j * (2 * width))
    (hsome : 0 < fuel) (hfuel : len < s + fuel)
    (hat : PassAt len width j (mem src) (mem dst)) :
    ∃ mem', mergePass len (2 * width) src dst fuel mem s = some mem' ∧
      mem' src = mem src ∧ RunsSorted (2 * width) len (mem' dst) ∧
      (segment (mem' dst) 0 len).Perm (segment (mem src) 0 len) := by
  induction fuel generalizing mem s j with
  | zero => exact absurd hsome (Nat.lt_irrefl 0)
  | succ fuel ih =>
      simp only [mergePass]
      split
      · rename_i hlt
        have hhalf : (2 * width) >>> 1 = width := by
          rw [Nat.shiftRight_eq_div_pow]
          omega
        rw [hhalf, wrap_of_lt (by omega), wrap_of_lt (by omega), clip_eq, clip_eq]
        obtain ⟨mem₁, hmerge, hemitted⟩ := merge_emits hne mem len s
          (min (s + width) len) (min (s + 2 * width) len) (by omega) (by omega) (by omega)
        have hsource := hemitted.source
        have hnext : PassAt len width (j + 1) (mem₁ src) (mem₁ dst) := by
          rw [hsource]
          exact hat.next hruns hs hlt rfl rfl hemitted.frame hemitted.emitted
        obtain ⟨mem', hrest, hsource', hdone⟩ := ih mem₁ (hsource ▸ hruns)
          (s := s + 2 * width) (j := j + 1) (by rw [hs, Nat.add_mul j 1, Nat.one_mul])
          (by omega) (by omega) hnext
        refine ⟨mem', ?_, hsource'.trans hsource, ?_⟩
        · rw [hmerge]
          exact hrest
        · rwa [hsource] at hdone
      · refine ⟨mem, rfl, rfl, ?_⟩
        exact hat.done (by omega)

/-- After `k` passes: `arr` holds a permutation of the caller's items in
sorted runs, and it is the caller's buffer after an even number of passes. -/
structure Passed (len : Nat) (cells : Nat → Int) (k : Nat) (mem : Mem)
    (arr wk : Buf) : Prop where
  arr_eq : arr = if k % 2 = 0 then .caller else .work
  wk_eq : wk = if k % 2 = 0 then .work else .caller
  runs : RunsSorted (2 ^ k) len (mem arr)
  perm : (segment (mem arr) 0 len).Perm (segment cells 0 len)

theorem Passed.ne {cells : Nat → Int} {k : Nat} {arr wk : Buf}
    (h : Passed len cells k mem arr wk) : arr ≠ wk := by
  rw [h.arr_eq, h.wk_eq]
  split <;> simp

theorem pass_count_lt {k : Nat} (hlen : len < 2 ^ 62)
    (hgrown : k = 0 ∨ 2 ^ k < 2 * len) : k < 63 := by
  rcases hgrown with rfl | hgrown
  · exact Nat.succ_pos _
  · apply (Nat.pow_lt_pow_iff_right (a := 2) (by omega)).mp
    omega

/-- The passes end with runs as long as the array, before `sz` overflows. -/
theorem passes_end {fuel k : Nat} {cells : Nat → Int} {arr wk : Buf}
    (hlen : len < 2 ^ 62) (hfuel : fuel + k = 64)
    (hgrown : k = 0 ∨ 2 ^ k < 2 * len) (h : Passed len cells k mem arr wk) :
    ∃ k' mem' arr' wk', passes len fuel mem arr wk (2 ^ (k + 1)) =
        some (mem', arr', wk', 2 ^ (k' + 1)) ∧
      Passed len cells k' mem' arr' wk' ∧ len ≤ 2 ^ k' ∧ k' < 63 := by
  have hdouble : wrap (len <<< 1) = 2 * len := by
    rw [Nat.shiftLeft_eq, wrap_of_lt (by omega)]
    omega
  induction fuel generalizing k mem arr wk with
  | zero =>
      have hk := pass_count_lt hlen hgrown
      omega
  | succ fuel ih =>
      simp only [passes, hdouble]
      split
      · rename_i hlt
        have hpow : 2 ^ (k + 1) = 2 * 2 ^ k := by rw [Nat.pow_succ, Nat.mul_comm]
        obtain ⟨mem₁, hpass, hsource, hruns, hperm⟩ :=
          mergePass_runs h.ne mem h.runs (Nat.two_pow_pos k) (by omega)
            (Nat.zero_mul _).symm (Nat.succ_pos len) (by omega)
            (PassAt.start ..)
        have hshift : wrap (2 ^ (k + 1) <<< 1) = 2 ^ (k + 1 + 1) := by
          rw [Nat.shiftLeft_eq, ← Nat.pow_succ, wrap_of_lt]
          rw [Nat.pow_succ]
          omega
        have hnext : Passed len cells (k + 1) mem₁ wk arr := by
          refine ⟨?_, ?_, hpow ▸ hruns, hperm.trans h.perm⟩
          · rw [h.wk_eq]
            split <;> split <;> first | rfl | omega
          · rw [h.arr_eq]
            split <;> split <;> first | rfl | omega
        obtain ⟨k', mem', arr', wk', hrest, hend⟩ :=
          ih (by omega) (.inr hlt) hnext
        refine ⟨k', mem', arr', wk', ?_, hend⟩
        rw [hpow, hpass, ← hpow, hshift]
        exact hrest
      · rename_i hge
        refine ⟨k, mem, arr, wk, rfl, h, ?_, pass_count_lt hlen hgrown⟩
        rw [Nat.pow_succ] at hge
        omega

/-- The mask has the bits of even weight. -/
theorem mask_ne_zero_iff : ∀ k < 63,
    0x5555555555555555 &&& 2 ^ (k + 1) ≠ 0 ↔ k % 2 = 1 := by
  decide

/-- For every array and every length that can be allocated, `sort` leaves a
sorted permutation in the caller's buffer and frees its own. -/
theorem sort_in_place (len : Nat) (hlen : len < 2 ^ 62) (cells : Nat → Int) :
    ∃ mem, sort len cells = some (mem, .work) ∧
      SortedPermutation cells (mem .caller) 0 len := by
  have hstart : Passed len cells 0 (allocate cells) .caller .work :=
    ⟨rfl, rfl, RunsSorted.one len cells, List.Perm.refl _⟩
  obtain ⟨k, mem, arr, wk, hpasses, hpassed, hwidth, hk⟩ :=
    passes_end hlen (rfl : 64 + 0 = 64) (.inl rfl) hstart
  have hsorted := hpassed.runs.sorted hwidth
  have hperm := hpassed.perm
  have harr := hpassed.arr_eq
  have hwk := hpassed.wk_eq
  have hwidthOne : (2 : Nat) = 2 ^ (0 + 1) := rfl
  simp only [sort, Option.bind_eq_bind]
  rw [hwidthOne, hpasses, Option.bind_some]
  rcases eq_or_ne (k % 2) 1 with hodd | heven
  · -- the result is in the work buffer and is copied back
    rw [if_neg (by omega)] at harr hwk
    subst harr hwk
    have hdistinct : Buf.work ≠ Buf.caller := by simp
    obtain ⟨mem', hcopy, hemitted⟩ := memcpy_emits hdistinct mem len 0 0 len
      (by omega) (by omega)
    have hcopied := hemitted.emitted
    rw [Nat.zero_add, Nat.sub_zero] at hcopied
    refine ⟨mem', ?_, ?_, ?_⟩
    · simp only [if_pos ((mask_ne_zero_iff k hk).mpr hodd), hcopy]
      rfl
    · rwa [hcopied]
    · rwa [hcopied]
  · rw [if_pos (by omega)] at harr hwk
    subst harr hwk
    refine ⟨mem, ?_, hsorted, hperm⟩
    simp only [if_neg (mt (mask_ne_zero_iff k hk).mp heven)]
    rfl

/-- Three items take two passes. -/
theorem sort_three :
    ∃ mem, sort 3 (fun i => 7 - i) = some (mem, .work) ∧
      SortedPermutation (fun i => 7 - (i : Int)) (mem .caller) 0 3 :=
  sort_in_place 3 (by decide) _

end CsPrimer.MergeSort
