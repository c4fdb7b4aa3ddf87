import Mathlib.Data.List.TakeWhile
import Mathlib.Tactic

/-!
Words of a text: the maximal runs of characters that are not separators. A
tokeniser that takes one word at a time needs two facts, what a text without a
word is made of, and where its first word is.
-/

namespace CsPrimer.Foundation

variable {α : Type} [DecidableEq α]

/-- The maximal runs without separators, in order. -/
def words (seps text : List α) : List (List α) :=
  (text.splitOnP (fun c => c ∈ seps)).filter (fun word => word ≠ [])

variable {seps text word rest : List α} {others : List (List α)} {c : α}

@[simp]
theorem words_nil : words seps ([] : List α) = [] := by
  simp [words]

/-- Text without separators is one word, if it is not empty. -/
theorem words_of_no_sep (hword : ∀ c ∈ word, c ∉ seps) :
    words seps word = if word = [] then [] else [word] := by
  rw [words, List.splitOnP_eq_singleton (by simpa using hword)]
  by_cases hempty : word = [] <;> simp [hempty]

theorem words_append_sep (before : List α) (hc : c ∈ seps) :
    words seps (before ++ c :: rest) = words seps before ++ words seps rest := by
  rw [words, List.splitOnP_append_cons before rest (by simpa using hc),
    List.filter_append]
  rfl

theorem words_cons_sep (hc : c ∈ seps) : words seps (c :: rest) = words seps rest :=
  words_append_sep [] hc

theorem words_append_of_seps {before : List α} (hbefore : ∀ c ∈ before, c ∈ seps) :
    words seps (before ++ text) = words seps text := by
  induction before with
  | nil => rfl
  | cons c before ih =>
      rw [List.cons_append, words_cons_sep (hbefore c (List.mem_cons_self ..))]
      exact ih fun d hd => hbefore d (List.mem_cons_of_mem _ hd)

/-- A word ends where the text does or at a separator. -/
theorem words_append_of_no_sep (hword : ∀ c ∈ word, c ∉ seps) (hne : word ≠ [])
    (hrest : ∀ c ∈ rest.head?, c ∈ seps) :
    words seps (word ++ rest) = word :: words seps rest := by
  cases rest with
  | nil => rw [List.append_nil, words_of_no_sep hword, if_neg hne, words_nil]
  | cons c rest =>
      have hc : c ∈ seps := hrest c rfl
      rw [words_append_sep word hc, words_cons_sep hc, words_of_no_sep hword,
        if_neg hne]
      rfl

omit [DecidableEq α] in
theorem dropWhile_head {p : α → Bool} (hc : c ∈ (text.dropWhile p).head?) :
    p c = false := by
  have hne : text.dropWhile p ≠ [] := by
    intro hnil
    rw [hnil] at hc
    cases hc
  have hnot := List.head_dropWhile_not p hne
  rw [List.head?_eq_some_head hne] at hc
  cases hc
  exact hnot

/-- Separators, and a text that does not begin with one. -/
theorem exists_skip (seps text : List α) :
    ∃ before rest, text = before ++ rest ∧ (∀ c ∈ before, c ∈ seps) ∧
      (∀ c ∈ rest.head?, c ∉ seps) ∧ words seps text = words seps rest := by
  have hseps : ∀ c ∈ text.takeWhile (fun c => c ∈ seps), c ∈ seps := by
    intro c hc
    simpa using List.mem_takeWhile_imp hc
  have htext := List.takeWhile_append_dropWhile (p := fun c => decide (c ∈ seps))
    (l := text)
  refine ⟨_, _, htext.symm, hseps, ?_, ?_⟩
  · intro c hc
    simpa using dropWhile_head hc
  · conv_lhs => rw [← htext]
    exact words_append_of_seps hseps

/-- A text that begins with a character of a word is that word and a rest. -/
theorem exists_word (hhead : ∀ c ∈ text.head?, c ∉ seps) (hne : text ≠ []) :
    ∃ word rest, text = word ++ rest ∧ word ≠ [] ∧ (∀ c ∈ word, c ∉ seps) ∧
      (∀ c ∈ rest.head?, c ∈ seps) := by
  have hword : ∀ c ∈ text.takeWhile (fun c => c ∉ seps), c ∉ seps := by
    intro c hc
    simpa using List.mem_takeWhile_imp hc
  refine ⟨_, _, List.takeWhile_append_dropWhile.symm, ?_, hword, ?_⟩
  · obtain ⟨c, tail, rfl⟩ := List.exists_cons_of_ne_nil hne
    simp [hhead c rfl]
  · intro c hc
    simpa using dropWhile_head hc

theorem words_eq_nil (h : words seps text = []) : ∀ c ∈ text, c ∈ seps := by
  obtain ⟨before, rest, rfl, hbefore, hhead, hwords⟩ := exists_skip seps text
  rcases eq_or_ne rest [] with rfl | hne
  · simpa using hbefore
  · obtain ⟨word, after, rfl, hword, hplain, hafter⟩ := exists_word hhead hne
    rw [hwords, words_append_of_no_sep hplain hword hafter] at h
    cases h

/-- A text has a word exactly if it has a character that is not a separator. -/
theorem words_ne_nil_iff : words seps text ≠ [] ↔ ∃ c ∈ text, c ∉ seps := by
  constructor
  · intro hwords
    by_contra hnone
    have hseps : ∀ c ∈ text, c ∈ seps := by simpa using hnone
    have hskip : words seps (text ++ []) = words seps [] := words_append_of_seps hseps
    rw [List.append_nil, words_nil] at hskip
    exact hwords hskip
  · rintro ⟨c, hc, hplain⟩ hnil
    exact hplain (words_eq_nil hnil c hc)

/-- Where the first word is. -/
theorem words_eq_cons (h : words seps text = word :: others) :
    ∃ before rest, text = before ++ (word ++ rest) ∧ (∀ c ∈ before, c ∈ seps) ∧
      word ≠ [] ∧ (∀ c ∈ word, c ∉ seps) ∧ (∀ c ∈ rest.head?, c ∈ seps) ∧
      words seps rest = others := by
  obtain ⟨before, rest, rfl, hbefore, hhead, hwords⟩ := exists_skip seps text
  rcases eq_or_ne rest [] with rfl | hne
  · rw [hwords, words_nil] at h
    cases h
  · obtain ⟨first, after, rfl, hfirst, hplain, hafter⟩ := exists_word hhead hne
    rw [hwords, words_append_of_no_sep hplain hfirst hafter] at h
    cases h
    exact ⟨before, after, rfl, hbefore, hfirst, hplain, hafter, rfl⟩

end CsPrimer.Foundation
