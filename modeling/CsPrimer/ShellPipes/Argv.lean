import CsPrimer.Foundation.CString
import CsPrimer.Foundation.CTypes
import CsPrimer.ShellPipes.Segments

/-!
The tokenising loop of `run` on the memory of the prompt, at every level of
the recursion. The loop stores a pointer for each word and a NULL, and has no
check against `MAX_ARGV`; a store behind the array is a fault here. So are
reads behind the prompt. The system calls between two levels are taken to
succeed.
-/

namespace CsPrimer.ShellPipes

open Foundation

def maxPrompt : Nat := 4096

def maxArgv : Nat := 256

inductive Fault where
  | readPastEnd
  | argvOverflow (argc : Nat)
  deriving DecidableEq, Repr

/-- The loop over `strtok`, with what is in `argv` so far. -/
def fillArgv (mem : List Char) (save : Nat) (argv : List (Option Nat)) :
    Except Fault (List (Option Nat) × List Char) :=
  match CString.strtok nul sep mem save with
  | none => .error .readPastEnd
  | some subtok =>
      if argv.length < maxArgv then
        match subtok.token with
        | none => .ok (argv ++ [none], subtok.mem)
        | some p => fillArgv subtok.mem subtok.save (argv ++ [some p])
      else .error (.argvOverflow argv.length)
termination_by maxArgv - argv.length
decreasing_by
  rw [List.length_append, List.length_singleton]
  omega

structure Level where
  argv : List (Option Nat)
  mem : List Char
  deriving DecidableEq, Repr

theorem fillArgv_length {mem mem' : List Char} {save : Nat}
    {argv argv' : List (Option Nat)}
    (h : fillArgv mem save argv = .ok (argv', mem')) :
    mem'.length = mem.length := by
  induction mem, save, argv using fillArgv.induct with
  | case1 mem save argv hcall =>
      rw [fillArgv, hcall] at h
      cases h
  | case2 mem save argv subtok hcall hroom htoken =>
      rw [fillArgv] at h
      simp only [hcall, if_pos hroom, htoken] at h
      cases h
      exact CString.strtok_length hcall
  | case3 mem save argv subtok hcall hroom p htoken ih =>
      rw [fillArgv] at h
      simp only [hcall, if_pos hroom, htoken] at h
      rw [ih h, CString.strtok_length hcall]
  | case4 mem save argv subtok hcall hfull =>
      rw [fillArgv] at h
      simp only [hcall, if_neg hfull] at h
      cases h

/-- One level of `run` on the string at `prompt`, and the prompt for the
next. -/
def tokeniseLevel (mem : List Char) (prompt : Nat) :
    Except Fault (Level × Option Nat) :=
  match CString.strsep nul [pipeChar] mem prompt with
  | none => .error .readPastEnd
  | some (cut, rest) =>
      match fillArgv cut prompt [] with
      | .error fault => .error fault
      | .ok (argv, mem') => .ok (⟨argv, mem'⟩, rest)

/-- `argc` counts the words, not the NULL. -/
def Level.argc (level : Level) : Nat := level.argv.length - 1

theorem tokeniseLevel_bounds {mem : List Char} {prompt next : Nat} {level : Level}
    (h : tokeniseLevel mem prompt = .ok (level, some next)) :
    level.mem.length - next < mem.length - prompt := by
  unfold tokeniseLevel at h
  split at h
  · cases h
  · rename_i cut rest hcut
    split at h
    · cases h
    · rename_i argv mem' hfill
      cases h
      obtain ⟨hlength, hlt, hle⟩ := CString.strsep_bounds hcut
      rw [fillArgv_length hfill]
      omega

/-- The levels of the recursion of `run` in order. It ends at a level without
a word, or without a rest. -/
def tokenise (mem : List Char) (prompt : Nat) : Except Fault (List Level) :=
  match _h : tokeniseLevel mem prompt with
  | .error fault => .error fault
  | .ok (level, none) => .ok [level]
  | .ok (level, some next) =>
      if 0 = level.argc then .ok [level]
      else (tokenise level.mem next).map (level :: ·)
termination_by mem.length - prompt
decreasing_by exact tokeniseLevel_bounds _h

/-- `prompt` after `fgets`: the line, a NUL, and what was there before. -/
structure Prompt where
  line : List Char
  left : List Char
  size : line.length + 1 + left.length = maxPrompt

def Prompt.mem (prompt : Prompt) : List Char := prompt.line ++ nul :: prompt.left

def Prompt.text (prompt : Prompt) : List Char :=
  prompt.line.takeWhile (fun c => c ≠ nul)

structure Level.Holds (level : Level) (words : List (List Char)) : Prop where
  in_argv : level.argv.length ≤ maxArgv
  stored : ∃ pointers, level.argv = pointers.map some ++ [none] ∧
    List.Forall₂ (CString.StringAt nul level.mem) pointers words

/-- At every level `argv` holds the words of the level's segment. -/
def Tokenised (mem : List Char) (prompt : Nat) (text : List Char) : Prop :=
  ∃ levels, tokenise mem prompt = .ok levels ∧
    List.Forall₂ Level.Holds levels ((reached (segments text)).map argvOf)

/-- The line as `run` gets it is tokenised as it should be. -/
def Prompt.Tokenised (prompt : Prompt) : Prop :=
  ShellPipes.Tokenised prompt.mem 0 prompt.text

variable {mem text : List Char}

theorem nul_not_mem_sep : nul ∉ sep := by decide

theorem segment_calls {token : List Char} (front back : List Char) (hplain : nul ∉ token) :
    ∃ pointers front', CString.Calls nul sep (front ++ (token ++ nul :: back)) front.length
        pointers (front' ++ nul :: back) ∧
      front'.length = front.length + token.length ∧
      List.Forall₂ (CString.StringAt nul (front' ++ nul :: back)) pointers
        (argvOf token) := by
  obtain ⟨pointers, front', hcalls, hlength, hpointers, -⟩ :=
    CString.calls_of_words front back nul_not_mem_sep hplain (rfl : _ = argvOf token)
  exact ⟨pointers, front', hcalls, hlength, hpointers⟩

/-- With room for the words and the NULL the loop stores them. -/
theorem fillArgv_ok {mem' : List Char} {save : Nat} {pointers : List Nat}
    (argv : List (Option Nat)) (h : CString.Calls nul sep mem save pointers mem')
    (hroom : argv.length + pointers.length < maxArgv) :
    fillArgv mem save argv = .ok (argv ++ (pointers.map some ++ [none]), mem') := by
  induction h generalizing argv with
  | last hcall htoken =>
      rw [fillArgv]
      simp only [hcall, htoken, if_pos (by simpa using hroom)]
      rfl
  | word hcall htoken _ ih =>
      rw [List.length_cons] at hroom
      rw [fillArgv]
      simp only [hcall, htoken, if_pos (by omega : argv.length < maxArgv)]
      rw [ih _ (by simp; omega)]
      simp

/-- Without the room a store misses the array. -/
theorem fillArgv_overflow {mem' : List Char} {save : Nat} {pointers : List Nat}
    (argv : List (Option Nat)) (h : CString.Calls nul sep mem save pointers mem')
    (hlength : argv.length ≤ maxArgv) (hfull : maxArgv ≤ argv.length + pointers.length) :
    fillArgv mem save argv = .error (.argvOverflow maxArgv) := by
  induction h generalizing argv with
  | last hcall _ =>
      have heq : argv.length = maxArgv := by
        rw [List.length_nil] at hfull
        omega
      rw [fillArgv]
      simp only [hcall, heq, if_neg (Nat.lt_irrefl _)]
  | word hcall htoken _ ih =>
      rw [List.length_cons] at hfull
      rw [fillArgv]
      simp only [hcall, htoken]
      split
      · exact ih _ (by simp; omega) (by simp; omega)
      · rw [show argv.length = maxArgv by omega]

/-- `strsep` in the memory follows `strsep` on the text. -/
theorem strsep_text (front back : List Char) {token : List Char}
    {rest : Option (List Char)} (hplain : nul ∉ text)
    (h : strsep pipeChar text = (token, rest)) :
    nul ∉ token ∧
      match rest with
      | none => segments text = [token] ∧
          CString.strsep nul [pipeChar] (front ++ (text ++ nul :: back)) front.length =
            some (front ++ (token ++ nul :: back), none)
      | some rest => segments text = token :: segments rest ∧ nul ∉ rest ∧
          CString.strsep nul [pipeChar] (front ++ (text ++ nul :: back)) front.length =
            some (front ++ (token ++ nul :: (rest ++ nul :: back)),
              some (front.length + token.length + 1)) := by
  cases rest with
  | none =>
      obtain ⟨rfl, hdelim⟩ := strsep_none h
      refine ⟨hplain, segments_of_none h, CString.strsep_last hplain ?_⟩
      intro c hc
      have hne : c ≠ pipeChar := fun heq => hdelim (heq ▸ hc)
      simpa using hne
  | some rest =>
      have hsegments := segments_of_some h
      obtain ⟨rfl, hdelim⟩ := strsep_some h
      simp only [List.mem_append, List.mem_cons, not_or] at hplain
      obtain ⟨hplain₁, hplain₂, hplain₃⟩ := hplain
      refine ⟨hplain₁, hsegments, hplain₃, ?_⟩
      rw [List.append_assoc, List.cons_append]
      apply CString.strsep_cut hplain₁ _ (by simp) (Ne.symm hplain₂)
      intro c hc
      have hne : c ≠ pipeChar := fun heq => hdelim (heq ▸ hc)
      simpa using hne

theorem reached_head {token : List Char} {rest : List (List Char)} :
    token ∈ reached (token :: rest) := by
  rw [reached]
  split <;> exact List.mem_cons_self ..

theorem level_holds {token : List Char} {pointers : List Nat}
    (hroom : (argvOf token).length < maxArgv)
    (hpointers : List.Forall₂ (CString.StringAt nul mem) pointers (argvOf token)) :
    Level.Holds ⟨pointers.map some ++ [none], mem⟩ (argvOf token) where
  in_argv := by
    have hlength := hpointers.length_eq
    simp only [List.length_append, List.length_map, List.length_singleton]
    omega
  stored := ⟨pointers, rfl, hpointers⟩

/-- A level whose words fit: they are in `argv`, and the next level finds the
rest of the text behind them. -/
theorem tokeniseLevel_ok (front back : List Char) {token : List Char}
    {rest : Option (List Char)} (hplain : nul ∉ text)
    (hsep : strsep pipeChar text = (token, rest))
    (hroom : (argvOf token).length < maxArgv) :
    ∃ level front' next,
      tokeniseLevel (front ++ (text ++ nul :: back)) front.length = .ok (level, next) ∧
      level.Holds (argvOf token) ∧ level.argc = (argvOf token).length ∧
      match rest with
      | none => next = none ∧ segments text = [token]
      | some rest => next = some front'.length ∧ nul ∉ rest ∧
          rest.length < text.length ∧ segments text = token :: segments rest ∧
          level.mem = front' ++ (rest ++ nul :: back) := by
  obtain ⟨hplain', hrest⟩ := strsep_text front back hplain hsep
  cases rest with
  | none =>
      obtain ⟨hsegments, hcut⟩ := hrest
      obtain ⟨pointers, front', hcalls, -, hpointers⟩ := segment_calls front back hplain'
      have hfill := fillArgv_ok [] hcalls (by simpa [hpointers.length_eq] using hroom)
      refine ⟨_, front', none, ?_, level_holds hroom hpointers, ?_, rfl, hsegments⟩
      · simp only [tokeniseLevel, hcut, hfill, List.nil_append]
      · simp [Level.argc, hpointers.length_eq]
  | some rest =>
      obtain ⟨hsegments, hplain'', hcut⟩ := hrest
      obtain ⟨pointers, front', hcalls, hlength, hpointers⟩ :=
        segment_calls front (rest ++ nul :: back) hplain'
      have hfill := fillArgv_ok [] hcalls (by simpa [hpointers.length_eq] using hroom)
      have hshorter : rest.length < text.length :=
        strsep_length (congrArg Prod.snd hsep)
      refine ⟨_, front' ++ [nul], some (front.length + token.length + 1), ?_,
        level_holds hroom hpointers, ?_, by simp [hlength], hplain'', hshorter,
        hsegments, by simp⟩
      · simp only [tokeniseLevel, hcut, hfill, List.nil_append]
      · simp [Level.argc, hpointers.length_eq]

/-- A level whose words do not fit. -/
theorem tokeniseLevel_overflow (front back : List Char) {token : List Char}
    {rest : Option (List Char)} (hplain : nul ∉ text)
    (hsep : strsep pipeChar text = (token, rest))
    (hfull : maxArgv ≤ (argvOf token).length) :
    tokeniseLevel (front ++ (text ++ nul :: back)) front.length =
      .error (.argvOverflow maxArgv) := by
  obtain ⟨hplain', hrest⟩ := strsep_text front back hplain hsep
  cases rest with
  | none =>
      obtain ⟨pointers, front', hcalls, -, hpointers⟩ := segment_calls front back hplain'
      have hfill := fillArgv_overflow [] hcalls (Nat.zero_le _)
        (by simpa [hpointers.length_eq] using hfull)
      simp only [tokeniseLevel, hrest.2, hfill]
  | some rest =>
      obtain ⟨pointers, front', hcalls, -, hpointers⟩ :=
        segment_calls front (rest ++ nul :: back) hplain'
      have hfill := fillArgv_overflow [] hcalls (Nat.zero_le _)
        (by simpa [hpointers.length_eq] using hfull)
      simp only [tokeniseLevel, hrest.2, hfill]

theorem tokenise_error {fault : Fault} {prompt : Nat}
    (h : tokeniseLevel mem prompt = .error fault) :
    tokenise mem prompt = .error fault := by
  rw [tokenise]
  split <;> rename_i hlevel <;> rw [h] at hlevel <;> cases hlevel
  rfl

theorem tokenise_last {level : Level} {next : Option Nat} {prompt : Nat}
    (h : tokeniseLevel mem prompt = .ok (level, next))
    (hlast : next = none ∨ level.argc = 0) :
    tokenise mem prompt = .ok [level] := by
  rw [tokenise]
  split <;> rename_i hlevel <;> rw [h] at hlevel <;> cases hlevel
  · rfl
  · rcases hlast with hnone | hblank
    · cases hnone
    · rw [if_pos hblank.symm]

theorem tokenise_more {level : Level} {prompt next : Nat}
    (h : tokeniseLevel mem prompt = .ok (level, some next))
    (hwords : level.argc ≠ 0) :
    tokenise mem prompt = (tokenise level.mem next).map (level :: ·) := by
  conv_lhs => rw [tokenise]
  split <;> rename_i hlevel <;> rw [h] at hlevel <;> cases hlevel
  rw [if_neg (Ne.symm hwords)]

/-- A level with a word and a rest stands as the level below does. -/
theorem tokenised_more {token rest : List Char} {level : Level} {prompt next : Nat}
    (hlevel : tokeniseLevel mem prompt = .ok (level, some next))
    (hargc : level.argc ≠ 0) (hholds : level.Holds (argvOf token))
    (hreached : reached (segments text) = token :: reached (segments rest)) :
    Tokenised mem prompt text ↔ Tokenised level.mem next rest := by
  rw [Tokenised, Tokenised, hreached, List.map_cons, tokenise_more hlevel hargc]
  constructor
  · rintro ⟨levels, hmore, hall⟩
    cases hlevels : tokenise level.mem next with
    | error fault =>
        rw [hlevels] at hmore
        cases hmore
    | ok levels' =>
        rw [hlevels] at hmore
        cases hmore
        exact ⟨levels', rfl, (List.forall₂_cons.mp hall).2⟩
  · rintro ⟨levels, hlevels, hall⟩
    exact ⟨level :: levels, by rw [hlevels]; rfl, .cons hholds hall⟩

theorem tokenised_last {token : List Char} {level : Level} {prompt : Nat}
    {next : Option Nat} (hlevel : tokeniseLevel mem prompt = .ok (level, next))
    (hlast : next = none ∨ level.argc = 0) (hholds : level.Holds (argvOf token))
    (hreached : reached (segments text) = [token]) :
    Tokenised mem prompt text :=
  ⟨[level], tokenise_last hlevel hlast, by simpa [hreached] using hholds⟩

theorem not_tokenised {fault : Fault} {prompt : Nat}
    (h : tokeniseLevel mem prompt = .error fault) : ¬ Tokenised mem prompt text := by
  rintro ⟨levels, hlevels, -⟩
  rw [tokenise_error h] at hlevels
  cases hlevels

/-- A text is tokenised exactly if the words of every segment that is reached
fit. The induction follows the levels. -/
theorem tokenised_iff (front back : List Char) (hplain : nul ∉ text) :
    Tokenised (front ++ (text ++ nul :: back)) front.length text ↔
      ∀ segment ∈ reached (segments text), (argvOf segment).length < maxArgv := by
  induction hlength : text.length using Nat.strong_induction_on
    generalizing front text with
  | _ length ih =>
      obtain ⟨token, rest, hsep⟩ : ∃ token rest, strsep pipeChar text = (token, rest) :=
        ⟨_, _, rfl⟩
      by_cases hroom : (argvOf token).length < maxArgv
      · obtain ⟨level, front', next, hlevel, hholds, hargc, hnext⟩ :=
          tokeniseLevel_ok front back hplain hsep hroom
        cases rest with
        | none =>
            have hreached : reached (segments text) = [token] := by
              rw [hnext.2, reached]
              split <;> rfl
            have htokenised := tokenised_last hlevel (.inl hnext.1) hholds hreached
            simpa [htokenised, hreached] using hroom
        | some rest =>
            obtain ⟨rfl, hplain', hshorter, hsegments, hmem⟩ := hnext
            by_cases hblank : argvOf token = []
            · have hreached : reached (segments text) = [token] := by
                rw [hsegments, reached, if_pos hblank]
              have hzero : level.argc = 0 := by rw [hargc, hblank, List.length_nil]
              have htokenised := tokenised_last hlevel (.inr hzero) hholds hreached
              simpa [htokenised, hreached] using hroom
            · have hreached : reached (segments text) =
                  token :: reached (segments rest) := by
                rw [hsegments, reached, if_neg hblank]
              have hwords : level.argc ≠ 0 := by
                rwa [hargc, Ne, List.length_eq_zero_iff]
              have hrest := ih rest.length (hlength ▸ hshorter) front' hplain' rfl
              rw [tokenised_more hlevel hwords hholds hreached, hmem, hrest, hreached,
                List.forall_mem_cons]
              exact (and_iff_right hroom).symm
      · have hfault := tokeniseLevel_overflow front back hplain hsep
          (Nat.le_of_not_lt hroom)
        have hhead : token ∈ reached (segments text) := by
          cases rest with
          | none => exact segments_of_none hsep ▸ reached_head
          | some rest => exact segments_of_some hsep ▸ reached_head
        exact iff_of_false (not_tokenised hfault) fun hall => hroom (hall token hhead)

theorem Prompt.mem_eq (prompt : Prompt) :
    nul ∉ prompt.text ∧ ∃ back, prompt.mem = prompt.text ++ nul :: back :=
  CString.exists_text nul prompt.line prompt.left

/-- For every line that fits the prompt, whatever was in the buffer. -/
theorem argv_holds_words_iff (prompt : Prompt) :
    prompt.Tokenised ↔ ∀ segment ∈ reached (segments prompt.text),
      (argvOf segment).length < maxArgv := by
  obtain ⟨hplain, back, hmem⟩ := prompt.mem_eq
  have hiff := tokenised_iff [] back hplain
  rwa [List.nil_append, List.length_nil, ← hmem] at hiff

def crowdedPrompt : Prompt where
  line := (List.replicate 256 ['a', ' ']).flatten
  left := List.replicate 3583 nul
  size := by decide +kernel

/-- The NULL after the last word misses `argv`. -/
theorem crowded_prompt_overflows : ¬ crowdedPrompt.Tokenised := by
  obtain ⟨hplain, back, hmem⟩ := crowdedPrompt.mem_eq
  have hiff := tokenised_iff [] back hplain
  rw [List.nil_append, List.length_nil, ← hmem] at hiff
  rw [Prompt.Tokenised, hiff]
  decide +kernel

end CsPrimer.ShellPipes
