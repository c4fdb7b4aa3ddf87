import CsPrimer.Foundation.Words
import CsPrimer.ShellPipes.Shell

/-!
Segments of a prompt. Repeated `strsep` gives what lies between the `|`
characters, repeated `strtok` the words of a segment, and the recursion of
`run` ends early at a segment without a word.
-/

namespace CsPrimer.ShellPipes

open Foundation

def segments (prompt : List Char) : List (List Char) := prompt.splitOn pipeChar

def argvOf (segment : List Char) : List (List Char) := words sep segment

/-- The segments that `run` looks at: the first blank one is the last. -/
def reached : List (List Char) → List (List Char)
  | [] => []
  | token :: rest =>
      if argvOf token = [] then [token] else token :: reached rest

variable {delim : Char} {text token rest : List Char}

theorem strsep_some (h : strsep delim text = (token, some rest)) :
    text = token ++ delim :: rest ∧ delim ∉ token := by
  induction text generalizing token with
  | nil => cases h
  | cons c text ih =>
      simp only [strsep] at h
      split at h
      · rename_i heq
        cases h
        exact ⟨congrArg (· :: _) heq, List.not_mem_nil⟩
      · rename_i hne
        obtain ⟨rfl, hrest⟩ := Prod.mk.inj h
        obtain ⟨htext, hmem⟩ := ih (Prod.ext rfl hrest)
        exact ⟨congrArg (c :: ·) htext, by simpa [Ne.symm hne] using hmem⟩

theorem strsep_none (h : strsep delim text = (token, none)) :
    text = token ∧ delim ∉ token := by
  induction text generalizing token with
  | nil =>
      cases h
      exact ⟨rfl, List.not_mem_nil⟩
  | cons c text ih =>
      simp only [strsep] at h
      split at h
      · cases h
      · rename_i hne
        obtain ⟨rfl, hrest⟩ := Prod.mk.inj h
        obtain ⟨htext, hmem⟩ := ih (Prod.ext rfl hrest)
        exact ⟨congrArg (c :: ·) htext, by simpa [Ne.symm hne] using hmem⟩

theorem segments_of_some (h : strsep pipeChar text = (token, some rest)) :
    segments text = token :: segments rest := by
  obtain ⟨rfl, hmem⟩ := strsep_some h
  rw [segments, List.splitOn_eq_splitOnP,
    List.splitOnP_append_cons_of_forall_mem _ _ (by simp)]
  · rfl
  · intro c hc
    have hne : c ≠ pipeChar := fun heq => hmem (heq ▸ hc)
    simpa using hne

theorem segments_of_none (h : strsep pipeChar text = (token, none)) :
    segments text = [token] := by
  obtain ⟨rfl, hmem⟩ := strsep_none h
  rw [segments, List.splitOn_eq_splitOnP]
  apply List.splitOnP_eq_singleton
  intro c hc
  have hne : c ≠ pipeChar := fun heq => hmem (heq ▸ hc)
  simpa using hne

/-- Repeated `strtok` gives the words. -/
theorem strtok_eq_words {seps word : List Char} (hword : ∀ c ∈ word, c ∉ seps) :
    strtok seps word text = words seps (word ++ text) := by
  induction text generalizing word with
  | nil => rw [strtok, List.append_nil, words_of_no_sep hword]
  | cons c text ih =>
      rw [strtok]
      split
      · rename_i hc
        rw [words_append_sep word hc, words_of_no_sep hword, ih (by simp)]
        split <;> rfl
      · rename_i hc
        rw [ih, List.append_assoc]
        · rfl
        · intro d hd
          rcases List.mem_append.mp hd with hd | hd
          · exact hword d hd
          · rwa [List.mem_singleton.mp hd]

theorem strtok_eq_argvOf (segment : List Char) :
    strtok sep [] segment = argvOf segment :=
  strtok_eq_words (by simp)

end CsPrimer.ShellPipes
