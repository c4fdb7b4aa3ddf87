import CsPrimer.BasicShell.Shell
import CsPrimer.Foundation.CString
import CsPrimer.Foundation.CTypes

/-!
`parse_cmd` on the memory of the line, with the array it fills and grows. A
store is checked against the cells that are allocated, not against `sz`; a
store behind them is a fault, and so are reads behind the line and an overflow
of `sz`. Allocation succeeds.
-/

namespace CsPrimer.BasicShell

open Foundation

def initArgCnt : Nat := 10

def delim : List Char := [' ', '\t', '\n']

/-- One cell of the array: nothing in particular behind what `reallocarray`
keeps, else a pointer into the line or NULL. -/
abbrev Cell := Option (Option Nat)

inductive Fault where
  | readPastEnd
  | storePastEnd (index : Nat)
  | sizeOverflow
  deriving DecidableEq, Repr

structure Parsed where
  cmd : List Cell
  mem : List Char
  deriving DecidableEq, Repr

/-- The growth test in the body of the loop. -/
def growCmd (cmd : List Cell) (sz n : Nat) : Except Fault (List Cell × Nat) :=
  if n = sz then
    if intMax < sz <<< 1 then .error .sizeOverflow
    else .ok (cmd ++ List.replicate (sz <<< 1 - cmd.length) none, sz <<< 1)
  else .ok (cmd, sz)

/-- The loop of `parse_cmd` from a call of `strtok` on. -/
def parseLoop (mem : List Char) (save : Nat) (cmd : List Cell) (sz n : Nat) :
    Except Fault Parsed :=
  match _hcall : CString.strtok nul delim mem save with
  | none => .error .readPastEnd
  | some call =>
      if n < cmd.length then
        if _hword : call.token = none then .ok ⟨cmd.set n (some call.token), call.mem⟩
        else
          match growCmd (cmd.set n (some call.token)) sz (n + 1) with
          | .error fault => .error fault
          | .ok (cmd, sz) => parseLoop call.mem call.save cmd sz (n + 1)
      else .error (.storePastEnd n)
termination_by mem.length - save
decreasing_by
  -- a call that finds a word goes on behind it
  have hsave := CString.strtok_save _hcall _hword
  rw [CString.strtok_length _hcall]
  omega

/-- `parse_cmd` of the line at the start of the memory. -/
def parseCmdMem (mem : List Char) : Except Fault Parsed :=
  parseLoop mem 0 (List.replicate initArgCnt (some none)) initArgCnt 0

def Parsed.Holds (parsed : Parsed) (words : List (List Char)) : Prop :=
  ∃ pointers unused,
    parsed.cmd = pointers.map (fun p => some (some p)) ++ some none :: unused ∧
    List.Forall₂ (CString.StringAt nul parsed.mem) pointers words

variable {mem : List Char} {cmd : List Cell} {stored : List Nat} {sz n count : Nat}

theorem nul_not_mem_delim : nul ∉ delim := by decide

theorem parseLoop_end {save : Nat} {call : CString.Token Char}
    (hcall : CString.strtok nul delim mem save = some call) (htoken : call.token = none)
    (hroom : n < cmd.length) :
    parseLoop mem save cmd sz n = .ok ⟨cmd.set n (some none), call.mem⟩ := by
  rw [parseLoop]
  split <;> rename_i hother <;> rw [hcall] at hother <;> cases hother
  rw [if_pos hroom, dif_pos htoken, htoken]

theorem parseLoop_word {save p : Nat} {call : CString.Token Char} {cmd' : List Cell}
    {sz' : Nat} (hcall : CString.strtok nul delim mem save = some call)
    (htoken : call.token = some p) (hroom : n < cmd.length)
    (hgrow : growCmd (cmd.set n (some (some p))) sz (n + 1) = .ok (cmd', sz')) :
    parseLoop mem save cmd sz n = parseLoop call.mem call.save cmd' sz' (n + 1) := by
  conv_lhs => rw [parseLoop]
  split <;> rename_i hother <;> rw [hcall] at hother <;> cases hother
  rw [if_pos hroom, dif_neg (by rw [htoken]; exact Option.some_ne_none p), htoken, hgrow]

structure Filling (cmd : List Cell) (sz n : Nat) (stored : List Nat) : Prop where
  room : n < sz
  allocated : cmd.length = sz
  filled : cmd.take n = stored.map (fun p => some (some p))

/-- With `count` words, every size that the array grows to is below
`INT_MAX`. -/
def SizesFit (sz count : Nat) : Prop :=
  ∀ k, sz * 2 ^ k ≤ count → sz * 2 ^ (k + 1) < intMax

theorem Filling.start :
    Filling (List.replicate initArgCnt (some none)) initArgCnt 0 [] :=
  ⟨by decide, by decide, rfl⟩

theorem SizesFit.double (h : SizesFit sz count) : SizesFit (sz * 2) count := by
  intro k hcount
  rw [mul_assoc, ← pow_succ'] at hcount ⊢
  exact h (k + 1) hcount

/-- The store of a pointer, and the growth test after it. -/
theorem Filling.store (h : Filling cmd sz n stored) (hfit : SizesFit sz count)
    (hcount : n < count) (p : Nat) :
    ∃ cmd' sz', growCmd (cmd.set n (some (some p))) sz (n + 1) = .ok (cmd', sz') ∧
      Filling cmd' sz' (n + 1) (stored ++ [p]) ∧ SizesFit sz' count := by
  have hroom := h.room
  have hlength := h.allocated
  have hcells : (stored.map (fun p => some (some p))).length = n := by
    rw [← h.filled, List.length_take]
    omega
  have hfilled : (cmd.set n (some (some p))).take (n + 1) =
      (stored ++ [p]).map (fun p => some (some p)) := by
    rw [List.set_eq_take_append_cons_drop, if_pos (by omega), h.filled, List.map_append,
      List.take_append, hcells, Nat.add_sub_cancel_left, List.take_of_length_le (by omega)]
    rfl
  unfold growCmd
  split
  · rename_i hfull
    have hsizes := hfit 0 (by omega)
    have hshift : sz <<< 1 = sz * 2 := by rw [Nat.shiftLeft_eq, pow_one]
    rw [if_neg (by omega)]
    refine ⟨_, _, rfl, ⟨by omega, ?_, ?_⟩, hshift ▸ hfit.double⟩
    · rw [List.length_append, List.length_set, List.length_replicate]
      omega
    · rw [List.take_append_of_le_length (by rw [List.length_set]; omega), hfilled]
  · exact ⟨_, _, rfl, ⟨by omega, by rw [List.length_set, hlength], hfilled⟩, hfit⟩

/-- The loop from a call on, with the words that are left. -/
theorem parseLoop_ok {mem' : List Char} {save : Nat} {pointers : List Nat}
    (hcalls : CString.Calls nul delim mem save pointers mem') (h : Filling cmd sz n stored)
    (hfit : SizesFit sz count) (hcount : n + pointers.length = count) :
    ∃ unused, parseLoop mem save cmd sz n =
      .ok ⟨(stored ++ pointers).map (fun p => some (some p)) ++ some none :: unused, mem'⟩ := by
  induction hcalls generalizing cmd sz n stored with
  | last hcall htoken =>
      have hroom : n < cmd.length := h.allocated ▸ h.room
      refine ⟨cmd.drop (n + 1), ?_⟩
      rw [parseLoop_end hcall htoken hroom, List.set_eq_take_append_cons_drop, if_pos hroom,
        h.filled, List.append_nil]
  | @word _ _ _ p _ _ hcall htoken _ ih =>
      have hroom : n < cmd.length := h.allocated ▸ h.room
      rw [List.length_cons] at hcount
      obtain ⟨cmd', sz', hgrow, hfilling, hfit'⟩ := h.store hfit (by omega) p
      obtain ⟨unused, hloop⟩ := ih hfilling hfit' (by omega)
      refine ⟨unused, ?_⟩
      rw [parseLoop_word hcall htoken hroom hgrow, hloop]
      simp

theorem parseCmd_eq (line : List Char) :
    parseCmd line = words delim (cString line) := rfl

/-- For every line, whatever was in its buffer, and for every number of words
with which the array stays below `INT_MAX`. -/
theorem parse_cmd_holds_words (line left : List Char)
    (hfit : SizesFit initArgCnt (parseCmd line).length) :
    ∃ parsed, parseCmdMem (line ++ nul :: left) = .ok parsed ∧
      parsed.Holds (parseCmd line) := by
  obtain ⟨hplain, back, hmem⟩ := CString.exists_text nul line left
  obtain ⟨pointers, front', hcalls, -, hpointers, -⟩ :=
    CString.calls_of_words [] back nul_not_mem_delim hplain (parseCmd_eq line).symm
  obtain ⟨unused, hloop⟩ := parseLoop_ok hcalls Filling.start hfit
    (by rw [Nat.zero_add, hpointers.length_eq])
  rw [hmem]
  exact ⟨_, hloop, pointers, unused, rfl, hpointers⟩

def tenWords : List Char := (List.replicate 10 ['a', ' ']).flatten ++ ['\n']

theorem ten_words_held :
    ∃ parsed, parseCmdMem (tenWords ++ nul :: []) = .ok parsed ∧
      parsed.Holds (parseCmd tenWords) := by
  have hlength : (parseCmd tenWords).length = 10 := by decide +kernel
  apply parse_cmd_holds_words
  rw [hlength]
  intro k hk
  have hzero : k = 0 := by
    by_contra hne
    have htwo : 2 ^ 1 ≤ 2 ^ k := Nat.pow_le_pow_right (by decide) (by omega)
    unfold initArgCnt at hk
    omega
  rw [hzero]
  decide

end CsPrimer.BasicShell
