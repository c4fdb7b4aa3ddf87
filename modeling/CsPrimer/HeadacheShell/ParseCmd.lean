import CsPrimer.BasicShell.ParseCmd

/-!
`parse_cmd` of the older headache shell, whose other functions are those of
the basic shell. It makes room before a word is stored, and stores NULL behind
the loop without a test of its own, so the NULL of a full array falls behind
the cells. The later `parse_cmd` stores NULL within the loop and makes room
after each store.
-/

namespace CsPrimer.HeadacheShell

open Foundation
open BasicShell (Cell Fault Parsed growCmd delim initArgCnt parseCmd)

/-- The loop of `parse_cmd` from a call of `strtok` on, and `cmd[n] = NULL`. -/
def parseLoop (mem : List Char) (save : Nat) (cmd : List Cell) (sz n : Nat) :
    Except Fault Parsed :=
  match _hcall : CString.strtok nul delim mem save with
  | none => .error .readPastEnd
  | some call =>
      if _hword : call.token = none then
        if n < cmd.length then .ok ⟨cmd.set n (some none), call.mem⟩
        else .error (.storePastEnd n)
      else
        match growCmd cmd sz n with
        | .error fault => .error fault
        | .ok (cmd, sz) =>
            if n < cmd.length then
              parseLoop call.mem call.save (cmd.set n (some call.token)) sz (n + 1)
            else .error (.storePastEnd n)
termination_by mem.length - save
decreasing_by
  have hsave := CString.strtok_save _hcall _hword
  rw [CString.strtok_length _hcall]
  omega

def parseCmdMem (mem : List Char) : Except Fault Parsed :=
  parseLoop mem 0 (List.replicate initArgCnt (some none)) initArgCnt 0

variable {mem mem' : List Char} {save sz sz' n p : Nat} {cmd cmd' : List Cell}
  {call : CString.Token Char} {pointers : List Nat}

theorem parseLoop_end (hcall : CString.strtok nul delim mem save = some call)
    (htoken : call.token = none) :
    parseLoop mem save cmd sz n =
      if n < cmd.length then .ok ⟨cmd.set n (some none), call.mem⟩
      else .error (.storePastEnd n) := by
  rw [parseLoop]
  split <;> rename_i hother <;> rw [hcall] at hother <;> cases hother
  rw [dif_pos htoken]

theorem parseLoop_overflow (hcall : CString.strtok nul delim mem save = some call)
    (htoken : call.token = some p) {fault : Fault} (hgrow : growCmd cmd sz n = .error fault) :
    parseLoop mem save cmd sz n = .error fault := by
  rw [parseLoop]
  split <;> rename_i hother <;> rw [hcall] at hother <;> cases hother
  rw [dif_neg (by rw [htoken]; exact Option.some_ne_none p), hgrow]

theorem parseLoop_word (hcall : CString.strtok nul delim mem save = some call)
    (htoken : call.token = some p) (hgrow : growCmd cmd sz n = .ok (cmd', sz'))
    (hroom : n < cmd'.length) :
    parseLoop mem save cmd sz n =
      parseLoop call.mem call.save (cmd'.set n (some (some p))) sz' (n + 1) := by
  conv_lhs => rw [parseLoop]
  split <;> rename_i hother <;> rw [hcall] at hother <;> cases hother
  rw [dif_neg (by rw [htoken]; exact Option.some_ne_none p), hgrow]
  dsimp only
  rw [if_pos hroom, htoken]

/-- The growth test leaves the array or doubles it. -/
theorem growCmd_cases (hlength : cmd.length = sz) (hroom : n ≤ sz) :
    (n < sz ∧ growCmd cmd sz n = .ok (cmd, sz)) ∨
    (n = sz ∧ intMax < sz * 2 ∧ growCmd cmd sz n = .error .sizeOverflow) ∨
    (n = sz ∧ sz * 2 ≤ intMax ∧
      growCmd cmd sz n = .ok (cmd ++ List.replicate sz none, sz * 2)) := by
  have hshift : sz <<< 1 = sz * 2 := by rw [Nat.shiftLeft_eq, pow_one]
  rcases Nat.lt_or_eq_of_le hroom with hlt | rfl
  · refine .inl ⟨hlt, ?_⟩
    rw [growCmd, if_neg (Nat.ne_of_lt hlt)]
  · apply Or.inr
    rw [growCmd, if_pos rfl, hshift, hlength]
    have hspare : n * 2 - n = n := by omega
    by_cases hlarge : intMax < n * 2
    · exact .inl ⟨rfl, hlarge, if_pos hlarge⟩
    · exact .inr ⟨rfl, Nat.not_lt.mp hlarge, by rw [if_neg hlarge, hspare]⟩

/-- As many words as the array has cells when it is full: NULL is stored
behind the last of them. -/
theorem parseLoop_full (hcalls : CString.Calls nul delim mem save pointers mem')
    (hlength : cmd.length = sz) (hroom : n ≤ sz) (hpos : 0 < sz) {k : Nat}
    (hcount : n + pointers.length = sz * 2 ^ k) (hbound : n + pointers.length ≤ intMax) :
    parseLoop mem save cmd sz n = .error (.storePastEnd (n + pointers.length)) := by
  induction hcalls generalizing cmd sz n k with
  | last hcall htoken =>
      have hle : sz * 1 ≤ sz * 2 ^ k := Nat.mul_le_mul_left sz Nat.one_le_two_pow
      rw [List.length_nil] at hcount ⊢
      rw [parseLoop_end hcall htoken, if_neg (by omega), Nat.add_zero]
  | @word _ _ _ p call pointers hcall htoken _ ih =>
      rw [List.length_cons] at hcount hbound ⊢
      rw [← Nat.add_assoc, Nat.add_right_comm] at hcount hbound ⊢
      rcases growCmd_cases hlength hroom with ⟨hlt, hgrow⟩ | ⟨rfl, hlarge, -⟩ | ⟨rfl, -, hgrow⟩
      · rw [parseLoop_word hcall htoken hgrow (by omega)]
        exact ih (by rw [List.length_set, hlength]) hlt hpos hcount hbound
      · -- another word, so the count is a later size
        obtain _ | k := k
        · omega
        · have hle : n * 2 * 1 ≤ n * 2 * 2 ^ k := Nat.mul_le_mul_left _ Nat.one_le_two_pow
          rw [pow_succ', ← mul_assoc] at hcount
          omega
      · have hlength' : (cmd ++ List.replicate n none).length = n * 2 := by
          rw [List.length_append, List.length_replicate, hlength, Nat.mul_two]
        obtain _ | k := k
        · omega
        · rw [pow_succ', ← mul_assoc] at hcount
          rw [parseLoop_word hcall htoken hgrow (by omega)]
          exact ih (by rw [List.length_set, hlength']) (by omega) (by omega) hcount hbound

/-- The later loop stores the word, and then makes room. -/
theorem later_parseLoop_word (hcall : CString.strtok nul delim mem save = some call)
    (htoken : call.token = some p) (hroom : n < cmd.length) :
    BasicShell.parseLoop mem save cmd sz n =
      (growCmd (cmd.set n (some (some p))) sz (n + 1)).bind fun grown =>
        BasicShell.parseLoop call.mem call.save grown.1 grown.2 (n + 1) := by
  cases hgrow : growCmd (cmd.set n (some (some p))) sz (n + 1) with
  | ok grown => exact BasicShell.parseLoop_word hcall htoken hroom hgrow
  | error fault =>
      rw [BasicShell.parseLoop]
      split <;> rename_i hother <;> rw [hcall] at hother <;> cases hother
      rw [if_pos hroom, dif_neg (by rw [htoken]; exact Option.some_ne_none p), htoken, hgrow]
      rfl

/-- With any other number of words the two loops agree, the later one being
ahead by the growth test. -/
theorem parseLoop_agrees (hcalls : CString.Calls nul delim mem save pointers mem')
    (hlength : cmd.length = sz) (hroom : n ≤ sz) (hpos : 0 < sz) (hsize : sz ≤ intMax)
    (hcount : ∀ k, n + pointers.length = sz * 2 ^ k → intMax < n + pointers.length) :
    parseLoop mem save cmd sz n =
      (growCmd cmd sz n).bind fun grown =>
        BasicShell.parseLoop mem save grown.1 grown.2 n := by
  induction hcalls generalizing cmd sz n with
  | last hcall htoken =>
      have hne : n ≠ sz := by
        rintro rfl
        have hlarge := hcount 0 (by rw [List.length_nil, pow_zero, mul_one, Nat.add_zero])
        rw [List.length_nil] at hlarge
        omega
      have hlt : n < sz := by omega
      rw [growCmd, if_neg hne, parseLoop_end hcall htoken, if_pos (by omega)]
      exact (BasicShell.parseLoop_end hcall htoken (by omega)).symm
  | @word _ _ _ p call pointers hcall htoken _ ih =>
      rw [List.length_cons, ← Nat.add_assoc, Nat.add_right_comm] at hcount
      rcases growCmd_cases hlength hroom with ⟨hlt, hgrow⟩ | ⟨-, -, hgrow⟩ | ⟨rfl, hsmall, hgrow⟩
      · rw [hgrow, parseLoop_word hcall htoken hgrow (by omega),
          ih (by rw [List.length_set, hlength]) hlt hpos hsize hcount]
        exact (later_parseLoop_word hcall htoken (by omega)).symm
      · rw [hgrow]
        exact parseLoop_overflow hcall htoken hgrow
      · have hlength' : (cmd ++ List.replicate n none).length = n * 2 := by
          rw [List.length_append, List.length_replicate, hlength, Nat.mul_two]
        rw [hgrow, parseLoop_word hcall htoken hgrow (by omega),
          ih (by rw [List.length_set, hlength']) (by omega) (by omega) hsmall (by
            intro k hk
            rw [mul_assoc, ← pow_succ'] at hk
            exact hcount (k + 1) hk)]
        exact (later_parseLoop_word hcall htoken (by omega)).symm

/-- The words fill the array, at one of its sizes. -/
def FillsArray (count : Nat) : Prop := ∃ k, count = initArgCnt * 2 ^ k ∧ count ≤ intMax

/-- For every line, whatever was in its buffer: when its words fill the array,
NULL is stored behind the last cell, and otherwise the two versions of
`parse_cmd` leave the same array and the same line. -/
theorem parse_cmd_agrees (line left : List Char) :
    (FillsArray (parseCmd line).length → parseCmdMem (line ++ nul :: left) =
      .error (.storePastEnd (parseCmd line).length)) ∧
    (¬ FillsArray (parseCmd line).length →
      parseCmdMem (line ++ nul :: left) = BasicShell.parseCmdMem (line ++ nul :: left)) := by
  obtain ⟨hplain, back, hmem⟩ := CString.exists_text nul line left
  obtain ⟨pointers, front', hcalls, -, hpointers, -⟩ :=
    CString.calls_of_words [] back BasicShell.nul_not_mem_delim hplain
      (BasicShell.parseCmd_eq line).symm
  have hcells : (List.replicate initArgCnt (some none) : List Cell).length = initArgCnt :=
    List.length_replicate
  rw [hmem, ← hpointers.length_eq]
  constructor
  · rintro ⟨k, hk, hbound⟩
    have hfault := parseLoop_full hcalls hcells (Nat.zero_le initArgCnt) (by decide) (k := k)
      (by rw [Nat.zero_add, hk]) (by rw [Nat.zero_add]; exact hbound)
    rw [Nat.zero_add] at hfault
    exact hfault
  · intro hother
    exact parseLoop_agrees hcalls hcells (Nat.zero_le initArgCnt) (by decide) (by decide) (by
      intro k hk
      rw [Nat.zero_add] at hk ⊢
      exact Nat.not_le.mp fun hbound => hother ⟨k, hk, hbound⟩)

end CsPrimer.HeadacheShell
