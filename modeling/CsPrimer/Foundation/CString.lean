import CsPrimer.Foundation.Words

/-!
Strings in a memory, and the tokenisers of the C library on them. A string
goes from its position to the first NUL; `strsep` and `strtok` read on to the
end of a token and put a NUL there. Reading past the end of the memory gives
no result.
-/

namespace CsPrimer.Foundation.CString

variable {α : Type} [DecidableEq α]

/-- The first position from `p` on where the scan stops. -/
def scan (stops : α → Bool) (mem : List α) (p : Nat) : Option Nat :=
  ((mem.drop p).findIdx? stops).map (p + ·)

/-- Where the characters of `accept` end. -/
def strspn (accept mem : List α) (p : Nat) : Option Nat :=
  scan (fun c => c ∉ accept) mem p

/-- Where the first character of `reject` is, or the NUL. -/
def strcspn (nul : α) (reject mem : List α) (p : Nat) : Option Nat :=
  scan (fun c => c = nul ∨ c ∈ reject) mem p

/-- The token before the first delimiter is at `p`; what follows, if there is
a delimiter, is a string of its own. -/
def strsep (nul : α) (delims mem : List α) (p : Nat) :
    Option (List α × Option Nat) := do
  let stop ← strcspn nul delims mem p
  if mem[stop]? = some nul then return (mem, none)
  return (mem.set stop nul, some (stop + 1))

structure Token (α : Type) where
  token : Option Nat
  mem : List α
  save : Nat
  deriving DecidableEq, Repr

def strtok (nul : α) (seps mem : List α) (save : Nat) : Option (Token α) := do
  let first ← strspn seps mem save
  if mem[first]? = some nul then return ⟨none, mem, first⟩
  let stop ← strcspn nul seps mem first
  if mem[stop]? = some nul then return ⟨some first, mem, stop⟩
  return ⟨some first, mem.set stop nul, stop + 1⟩

def StringAt (nul : α) (mem : List α) (p : Nat) (text : List α) : Prop :=
  nul ∉ text ∧ ∃ front back, mem = front ++ (text ++ nul :: back) ∧
    front.length = p

variable {nul c : α} {seps delims mem front back text word run : List α}
  {others : List (List α)} {p i : Nat}

omit [DecidableEq α] in
theorem scan_eq {stops : α → Bool} (hrun : ∀ x ∈ run, stops x = false)
    (hc : stops c = true) :
    scan stops (front ++ (run ++ c :: back)) front.length =
      some (front.length + run.length) := by
  have hfind : (run ++ c :: back).findIdx? stops = some run.length := by
    rw [List.findIdx?_append, List.findIdx?_eq_none_iff.mpr hrun,
      List.findIdx?_cons, hc]
    simp
  rw [scan, List.drop_left, hfind]
  rfl

omit [DecidableEq α] in
theorem scan_bounds {stops : α → Bool} {stop : Nat}
    (h : scan stops mem p = some stop) : p ≤ stop ∧ stop < mem.length := by
  obtain ⟨k, hfind, rfl⟩ := Option.map_eq_some_iff.mp h
  obtain ⟨hk, -, -⟩ := List.findIdx?_eq_some_iff_getElem.mp hfind
  rw [List.length_drop] at hk
  omega

omit [DecidableEq α] in
/-- The character right after a run of the memory. -/
theorem getElem?_after (front run back : List α) (c : α) :
    (front ++ (run ++ c :: back))[front.length + run.length]? = some c := by
  rw [List.getElem?_append_right (by omega), Nat.add_sub_cancel_left,
    List.getElem?_append_right (Nat.le_refl _), Nat.sub_self]
  rfl

omit [DecidableEq α] in
theorem set_after (front run back : List α) (c d : α) :
    (front ++ (run ++ c :: back)).set (front.length + run.length) d =
      front ++ (run ++ d :: back) := by
  rw [List.set_append_right _ _ (by omega), Nat.add_sub_cancel_left,
    List.set_append_right _ _ (Nat.le_refl _), Nat.sub_self]
  rfl

omit [DecidableEq α] in
/-- A character other than a NUL that comes after the text of a string may be
overwritten. -/
theorem StringAt.set (h : StringAt nul mem p text) (hafter : p + text.length ≤ i)
    (hchar : mem[i]? ≠ some nul) : StringAt nul (mem.set i nul) p text := by
  obtain ⟨hplain, front, back, rfl, rfl⟩ := h
  have hne : i ≠ front.length + text.length := by
    rintro rfl
    exact hchar (getElem?_after ..)
  obtain ⟨k, rfl⟩ : ∃ k, i = front.length + (text.length + (k + 1)) :=
    ⟨i - front.length - text.length - 1, by omega⟩
  refine ⟨hplain, front, back.set k nul, ?_, rfl⟩
  rw [List.set_append_right _ _ (by omega), Nat.add_sub_cancel_left,
    List.set_append_right _ _ (by omega), Nat.add_sub_cancel_left]
  rfl

theorem strsep_bounds {next : List α} {rest : Nat}
    (h : strsep nul delims mem p = some (next, some rest)) :
    next.length = mem.length ∧ p < rest ∧ rest ≤ mem.length := by
  obtain ⟨stop, hstop, h⟩ := Option.bind_eq_some_iff.mp h
  obtain ⟨hle, hlt⟩ := scan_bounds hstop
  split at h
  · cases h
  · cases h
    exact ⟨List.length_set, by omega, by omega⟩

/-- The last token is not cut off. -/
theorem strsep_last (hplain : nul ∉ text) (hdelims : ∀ c ∈ text, c ∉ delims) :
    strsep nul delims (front ++ (text ++ nul :: back)) front.length =
      some (front ++ (text ++ nul :: back), none) := by
  have hstop : strcspn nul delims (front ++ (text ++ nul :: back)) front.length =
      some (front.length + text.length) := by
    apply scan_eq
    · intro c hc
      have hne : c ≠ nul := fun heq => hplain (heq ▸ hc)
      simp [hne, hdelims c hc]
    · simp
  simp only [strsep, hstop, Option.bind_eq_bind, Option.bind_some,
    getElem?_after, if_pos]
  rfl

theorem strsep_cut (hplain : nul ∉ text) (hdelims : ∀ c ∈ text, c ∉ delims)
    (hc : c ∈ delims) (hne : c ≠ nul) :
    strsep nul delims (front ++ (text ++ c :: back)) front.length =
      some (front ++ (text ++ nul :: back),
        some (front.length + text.length + 1)) := by
  have hstop : strcspn nul delims (front ++ (text ++ c :: back)) front.length =
      some (front.length + text.length) := by
    apply scan_eq
    · intro d hd
      have hne : d ≠ nul := fun heq => hplain (heq ▸ hd)
      simp [hne, hdelims d hd]
    · simp [hc]
  simp only [strsep, hstop, Option.bind_eq_bind, Option.bind_some,
    getElem?_after, set_after, Option.some.injEq, if_neg hne]
  rfl

theorem strtok_length {t : Token α} (h : strtok nul seps mem p = some t) :
    t.mem.length = mem.length := by
  obtain ⟨first, -, h⟩ := Option.bind_eq_some_iff.mp h
  split at h
  · cases h
    rfl
  · obtain ⟨stop, -, h⟩ := Option.bind_eq_some_iff.mp h
    split at h <;> cases h
    · rfl
    · exact List.length_set

omit [DecidableEq α] in
theorem scan_stops {stops : α → Bool} {stop : Nat}
    (h : scan stops mem p = some stop) : ∃ c, mem[stop]? = some c ∧ stops c = true := by
  obtain ⟨k, hfind, rfl⟩ := Option.map_eq_some_iff.mp h
  obtain ⟨hk, hstops, -⟩ := List.findIdx?_eq_some_iff_getElem.mp hfind
  rw [List.getElem_drop] at hstops
  exact ⟨_, List.getElem?_eq_getElem _, hstops⟩

/-- A call that finds a word goes on behind the first character of it. -/
theorem strtok_save {t : Token α} {save : Nat} (h : strtok nul seps mem save = some t)
    (htoken : t.token ≠ none) : save < t.save ∧ t.save ≤ mem.length := by
  obtain ⟨first, hfirst, h⟩ := Option.bind_eq_some_iff.mp h
  obtain ⟨hle, hlt⟩ := scan_bounds hfirst
  obtain ⟨letter, hletter, hword⟩ := scan_stops hfirst
  split at h
  · cases h
    exact absurd rfl htoken
  · rename_i hnul
    obtain ⟨stop, hstop, h⟩ := Option.bind_eq_some_iff.mp h
    obtain ⟨hle', hlt'⟩ := scan_bounds hstop
    obtain ⟨c, hc, hend⟩ := scan_stops hstop
    have hne : stop ≠ first := by
      rintro rfl
      rw [hletter] at hnul hc
      cases hc
      simp only [Option.some.injEq] at hnul
      simp only [decide_eq_true_eq] at hword hend
      exact hend.elim hnul hword
    split at h <;> cases h
    · exact ⟨by simp only; omega, by simp only; omega⟩
    · exact ⟨by simp only; omega, by simp only; omega⟩

/-- A buffer of a line, a NUL and what was there before holds a string, also
when the line has a NUL of its own. -/
theorem exists_text (nul : α) (line left : List α) :
    nul ∉ line.takeWhile (fun c => c ≠ nul) ∧
      ∃ back, line ++ nul :: left = line.takeWhile (fun c => c ≠ nul) ++ nul :: back := by
  constructor
  · intro hmem
    simpa using List.mem_takeWhile_imp hmem
  · have hline := List.takeWhile_append_dropWhile (p := fun c => decide (c ≠ nul))
      (l := line)
    cases hrest : line.dropWhile (fun c => c ≠ nul) with
    | nil =>
        rw [hrest, List.append_nil] at hline
        exact ⟨left, by rw [hline]⟩
    | cons c rest =>
        have hhead : c ∈ (line.dropWhile (fun c => c ≠ nul)).head? := by
          rw [hrest]
          rfl
        have hc : c = nul := by simpa using dropWhile_head hhead
        refine ⟨rest ++ nul :: left, ?_⟩
        rw [hrest, hc] at hline
        conv_lhs => rw [← hline]
        simp

/-- No word is left: the call stops at the NUL. -/
theorem strtok_none (front back : List α) (hseps : nul ∉ seps)
    (hwords : words seps text = []) :
    strtok nul seps (front ++ (text ++ nul :: back)) front.length =
      some ⟨none, front ++ (text ++ nul :: back), front.length + text.length⟩ := by
  have hfirst : strspn seps (front ++ (text ++ nul :: back)) front.length =
      some (front.length + text.length) := by
    apply scan_eq
    · simpa using words_eq_nil hwords
    · simpa using hseps
  simp only [strtok, hfirst, Option.bind_eq_bind, Option.bind_some,
    getElem?_after, if_pos]
  rfl

/-- A call that finds a word. What ends it is a NUL afterwards, and the next
call goes on behind it unless it was the NUL of the text. -/
theorem strtok_word (front tail : List α) {before : List α}
    (hbefore : ∀ c ∈ before, c ∈ seps) (hword : word ≠ [])
    (hletters : ∀ c ∈ word, c ∉ seps) (hplain : nul ∉ word)
    (hc : c = nul ∨ c ∈ seps) :
    strtok nul seps (front ++ (before ++ (word ++ c :: tail))) front.length =
      some ⟨some (front.length + before.length),
        front ++ (before ++ (word ++ nul :: tail)),
        front.length + before.length + word.length + if c = nul then 0 else 1⟩ := by
  obtain ⟨letter, letters, hcons⟩ := List.exists_cons_of_ne_nil hword
  have hletter : letter ∉ seps := hletters letter (hcons ▸ List.mem_cons_self ..)
  have hnul : letter ≠ nul := by
    rintro rfl
    exact hplain (hcons ▸ List.mem_cons_self ..)
  have hmem : ∀ d, front ++ (before ++ (word ++ d :: tail)) =
      (front ++ before) ++ (word ++ d :: tail) := by
    intro d
    rw [List.append_assoc]
  have hfirst : strspn seps (front ++ (before ++ (word ++ c :: tail)))
      front.length = some (front.length + before.length) := by
    rw [hcons]
    apply scan_eq
    · simpa using hbefore
    · simpa using hletter
  have hchar : (front ++ (before ++ (word ++ c :: tail)))[
      front.length + before.length]? = some letter := by
    rw [hcons]
    exact getElem?_after ..
  have hstop : strcspn nul seps (front ++ (before ++ (word ++ c :: tail)))
      (front.length + before.length) =
        some (front.length + before.length + word.length) := by
    rw [hmem, ← List.length_append]
    apply scan_eq
    · intro d hd
      have hne : d ≠ nul := fun heq => hplain (heq ▸ hd)
      simp [hne, hletters d hd]
    · simpa using hc
  have hend : (front ++ (before ++ (word ++ c :: tail)))[
      front.length + before.length + word.length]? = some c := by
    rw [hmem, ← List.length_append]
    exact getElem?_after ..
  have hset : (front ++ (before ++ (word ++ c :: tail))).set
      (front.length + before.length + word.length) nul =
        front ++ (before ++ (word ++ nul :: tail)) := by
    rw [hmem, ← List.length_append, set_after, hmem]
  simp only [strtok, hfirst, Option.bind_eq_bind, Option.bind_some, hchar,
    Option.some.injEq, if_neg hnul, hstop, hend, hset]
  split
  · rename_i heq
    subst heq
    rfl
  · rfl

/-- What is left after a call that found a word: the word at `p`, the strings
before it as they were, and the rest of the text up to the same end. -/
structure Cut (nul : α) (seps mem back : List α) (save stop : Nat)
    (word : List α) (others : List (List α)) (p : Nat) (t : Token α) : Prop where
  token : t.token = some p
  word_at : StringAt nul t.mem p word
  word_start : save ≤ p
  word_end : p + word.length ≤ t.save
  kept : ∀ q v, StringAt nul mem q v → q + v.length ≤ save →
    StringAt nul t.mem q v
  rest : ∃ front text, t.mem = front ++ (text ++ nul :: back) ∧
    t.save = front.length ∧ front.length + text.length = stop ∧
    nul ∉ text ∧ words seps text = others

theorem strtok_some (front back : List α) (hseps : nul ∉ seps)
    (hplain : nul ∉ text) (hwords : words seps text = word :: others) :
    ∃ p t, strtok nul seps (front ++ (text ++ nul :: back)) front.length = some t ∧
      Cut nul seps (front ++ (text ++ nul :: back)) back front.length
        (front.length + text.length) word others p t := by
  obtain ⟨before, rest, rfl, hbefore, hword, hletters, hhead, hothers⟩ :=
    words_eq_cons hwords
  simp only [List.mem_append, not_or] at hplain
  obtain ⟨_, hplainWord, hplainRest⟩ := hplain
  refine ⟨front.length + before.length, ?_⟩
  cases rest with
  | nil =>
      -- the NUL of the text ends the word, and nothing is written
      have hcall := strtok_word front back hbefore hword hletters hplainWord
        (.inl (rfl : nul = nul))
      rw [if_pos rfl] at hcall
      have hmem : front ++ ((before ++ (word ++ [])) ++ nul :: back) =
          front ++ (before ++ (word ++ nul :: back)) := by simp
      refine ⟨_, by rw [hmem]; exact hcall, rfl, ?_, by simp, by simp, ?_, ?_⟩
      · exact ⟨hplainWord, front ++ before, back, by simp, by simp⟩
      · intro q v hstring _
        rwa [hmem] at hstring
      · exact ⟨front ++ (before ++ word), [], by simp, by simp; omega, by simp,
          by simp, hothers⟩
  | cons c rest =>
      have hc : c ∈ seps := hhead c rfl
      have hne : c ≠ nul := by
        rintro rfl
        exact hseps hc
      have hcall := strtok_word front (rest ++ nul :: back) hbefore hword hletters
        hplainWord (.inr hc)
      rw [if_neg hne] at hcall
      have hmem : front ++ ((before ++ (word ++ c :: rest)) ++ nul :: back) =
          (front ++ before) ++ (word ++ c :: (rest ++ nul :: back)) := by simp
      refine ⟨_, by rw [hmem, List.append_assoc]; exact hcall, rfl, ?_, by simp,
        by simp, ?_, ?_⟩
      · exact ⟨hplainWord, front ++ before, rest ++ nul :: back, by simp, by simp⟩
      · intro q v hstring hend
        rw [hmem] at hstring
        have hkept := hstring.set (i := (front ++ before).length + word.length)
          (by simp; omega) (by rw [getElem?_after]; simpa using hne)
        rwa [set_after, List.append_assoc] at hkept
      · refine ⟨front ++ (before ++ (word ++ [nul])), rest, by simp,
          by simp; omega, by simp; omega, ?_, ?_⟩
        · exact fun hnul => hplainRest (List.mem_cons_of_mem _ hnul)
        · rwa [words_cons_sep hc] at hothers

/-- Calls one after the other, up to the one that finds no word: the pointers
they give, and the memory that is left. -/
inductive Calls (nul : α) (seps : List α) : List α → Nat → List Nat → List α → Prop where
  | last {mem : List α} {save : Nat} {call : Token α} :
      strtok nul seps mem save = some call → call.token = none →
        Calls nul seps mem save [] call.mem
  | word {mem mem' : List α} {save p : Nat} {call : Token α} {pointers : List Nat} :
      strtok nul seps mem save = some call → call.token = some p →
        Calls nul seps call.mem call.save pointers mem' →
          Calls nul seps mem save (p :: pointers) mem'

/-- The calls on a text find its words. The strings before the text are left
alone, among them the words that earlier calls have found. -/
theorem calls_of_words {ws : List (List α)} (front back : List α) (hseps : nul ∉ seps)
    (hplain : nul ∉ text) (hwords : words seps text = ws) :
    ∃ pointers front', Calls nul seps (front ++ (text ++ nul :: back)) front.length pointers
        (front' ++ nul :: back) ∧
      front'.length = front.length + text.length ∧
      List.Forall₂ (StringAt nul (front' ++ nul :: back)) pointers ws ∧
      ∀ p v, StringAt nul (front ++ (text ++ nul :: back)) p v →
        p + v.length ≤ front.length → StringAt nul (front' ++ nul :: back) p v := by
  induction ws generalizing front text with
  | nil =>
      have hcall := strtok_none front back hseps hwords
      refine ⟨[], front ++ text, ?_, by simp, .nil, ?_⟩
      · rw [List.append_assoc]
        exact .last hcall rfl
      · intro p v hstring _
        simpa using hstring
  | cons word ws ih =>
      obtain ⟨p, t, hcall, htoken, hword, hstart, hend, hkept, hrest⟩ :=
        strtok_some front back hseps hplain hwords
      obtain ⟨front₁, text₁, hmem, hsave, hlength, hplain₁, hwords₁⟩ := hrest
      obtain ⟨pointers, front', hcalls, hlength', hpointers, hkept'⟩ :=
        ih front₁ hplain₁ hwords₁
      rw [← hmem, ← hsave] at hcalls
      rw [hmem] at hword
      refine ⟨p :: pointers, front', .word hcall htoken hcalls, by omega, ?_, ?_⟩
      · exact .cons (hkept' p word hword (hsave ▸ hend)) hpointers
      · intro q v hstring hbefore
        apply hkept' q v
        · exact hmem ▸ hkept q v hstring hbefore
        · omega

end CsPrimer.Foundation.CString
