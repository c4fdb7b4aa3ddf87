import CsPrimer.Foundation.Letters
import CsPrimer.Foundation.X86

/-!
The two versions of the pangram test, `ispangram` in C and `pangram` in
assembly. They differ in what they do with `@`, and in that the one looks at
the set of letters at the end and the other after every letter.
-/

namespace CsPrimer.X86Pangram

open Foundation.Letters Foundation.X86

def mask : BitVec 32 := 0x07fffffe

/-- The loop of `ispangram`; the list is the string up to its NUL, and `char`
is signed. -/
def ispangramLoop : List Byte → BitVec 32 → BitVec 32
  | [], bs => bs
  | c :: s, bs =>
      if c.slt 0x40 then ispangramLoop s bs
      else ispangramLoop s (bs ||| 1#32 <<< (c &&& 0x1f).toNat)

def ispangram (s : List Byte) : Bool := ispangramLoop s 0 &&& mask == mask

/-- `pangram.asm`; `.loop` is the instruction with index 2, `.not_pangram` that
with index 14. -/
def pangram : List Instr :=
  [.xor64 .rax .rax,
   .xor64 .rcx .rcx,
   .load8 .rcx .rdi,
   .inc64 .rdi,
   .test8 .rcx .rcx,
   .jcc .z 14,
   .cmpImm8 .rcx 0x40,
   .jcc .le 2,
   .bts32 .rax .rcx,
   .andImm32 .rax mask,
   .cmpImm32 .rax mask,
   .jcc .nz 2,
   .movImm32 .rax 1,
   .ret,
   .xor32 .rax .rax,
   .ret]

variable {code : Code} {s t : State} {ret : Word} {c : Byte} {rest : List Byte}
  {bits : BitVec 32}

theorem mask_isMask : IsMask 26 mask := by decide

theorem ispangramLoop_marks {s rest : List Byte} (h : Marks 26 bits s) :
    Marks 26 (ispangramLoop rest bits) (s ++ rest) := by
  induction rest generalizing s bits with
  | nil => simpa [ispangramLoop] using h
  | cons c rest ih =>
      have happend : s ++ c :: rest = (s ++ [c]) ++ rest := by simp
      rw [ispangramLoop, happend]
      split
      · rename_i hc
        exact ih (h.skip (not_isLetter_of_low c (sle_of_slt hc)))
      · rename_i hc
        rw [low_bits]
        exact ih (h.add le_rfl (by simpa using hc))

theorem ispangram_iff (s : List Byte) : ispangram s = true ↔ HasLetters 26 s := by
  have hmarks : Marks 26 (ispangramLoop s 0) ([] ++ s) := ispangramLoop_marks marks_nil
  rw [List.nil_append] at hmarks
  rw [ispangram, beq_iff_eq, hmarks.covers_iff le_rfl mask_isMask]

def skips (c : Byte) : Bool := c.sle 0x40

def add (bits : BitVec 32) (c : Byte) : BitVec 32 := (bits ||| 1#32 <<< (c.toNat % 32)) &&& mask

def done (bits : BitVec 32) : Bool := bits == mask

structure AtLoop (code : Code) (ret : Word) (rest : List Byte) (bits : BitVec 32)
    (s : State) : Prop where
  rip : s.rip = code.address 2
  string : s.mem.StringAt (s.regs .rdi) rest
  eax : s.get32 .rax = bits
  top : s.top = ret

/-- The read and the test for the NUL. -/
def readBlock : List Instr :=
  [.load8 .rcx .rdi, .inc64 .rdi, .test8 .rcx .rcx, .jcc .z 14]

/-- The end of the string. -/
theorem round_end (hcode : code.instrs = pangram) (h : AtLoop code ret [] bits s) :
    ∃ t, code.Reaches s t ∧ t.rip = ret ∧ t.get32 .rax = 0 := by
  have hnul : s.mem (s.regs .rdi) = 0 := h.string
  have htop := h.top
  have hread := Code.Reaches.block hcode h.rip readBlock (by decide) rfl
  refine ⟨_, hread.trans (.block hcode (i := 14) ?_ [.xor32 .rax .rax, .ret] (by decide) rfl),
    ?_, ?_⟩
  · simp [readBlock, Code.execBlock, Instr.exec, hnul]
  · simpa [readBlock, Code.execBlock, Instr.exec, State.top] using htop
  · simp [readBlock, Code.execBlock, Instr.exec]

/-- What the loop has read of a character other than the NUL. -/
theorem round_read (hcode : code.instrs = pangram) (h : AtLoop code ret (c :: rest) bits s) :
    ∃ t, code.Reaches s t ∧ t.rip = code.address 6 ∧ t.get8 .rcx = c ∧
      (t.get32 .rcx).toNat % 32 = c.toNat % 32 ∧ t.mem.StringAt (t.regs .rdi) rest ∧
      t.get32 .rax = bits ∧ t.top = ret := by
  obtain ⟨hbyte, hne, hrest⟩ := h.string
  have hnul : c ≠ 0#8 := hne
  have htop := h.top
  refine ⟨_, .block hcode h.rip readBlock (by decide) rfl, ?_, ?_, ?_, ?_, ?_, ?_⟩
  · simp [readBlock, Code.execBlock, Instr.exec, hbyte, hnul]
  · simp [readBlock, Code.execBlock, Instr.exec, hbyte]
  · simp [readBlock, Code.execBlock, Instr.exec, hbyte]
  · simpa [readBlock, Code.execBlock, Instr.exec] using hrest
  · simpa [readBlock, Code.execBlock, Instr.exec] using h.eax
  · simpa [readBlock, Code.execBlock, Instr.exec, State.top] using htop

theorem toInt_le_of_skips : skips c = true ↔ c.toInt ≤ 64 := by
  rw [skips, BitVec.sle_iff_toInt_le]
  rfl

/-- A character up to `@`. -/
theorem round_skip (hcode : code.instrs = pangram) (h : AtLoop code ret (c :: rest) bits s)
    (hc : skips c = true) : ∃ t, code.Reaches s t ∧ AtLoop code ret rest bits t := by
  obtain ⟨t, hread, hrip, hcl, -, hrest, heax, htop⟩ := round_read hcode h
  have hle := toInt_le_of_skips.mp hc
  refine ⟨_, hread.trans (.block hcode hrip [.cmpImm8 .rcx 0x40, .jcc .le 2] (by decide) rfl),
    ?_, ?_, ?_, ?_⟩
  · simp [Code.execBlock, Instr.exec, hcl, hle]
  · simpa [Code.execBlock, Instr.exec] using hrest
  · simpa [Code.execBlock, Instr.exec] using heax
  · simpa [Code.execBlock, Instr.exec, State.top] using htop

/-- A character above `@`, whose bit is set. -/
theorem round_add (hcode : code.instrs = pangram) (h : AtLoop code ret (c :: rest) bits s)
    (hc : skips c = false) :
    ∃ t, code.Reaches s t ∧
      t.rip = code.address (if done (add bits c) then 12 else 2) ∧
      t.mem.StringAt (t.regs .rdi) rest ∧ t.get32 .rax = add bits c ∧ t.top = ret := by
  obtain ⟨t, hread, hrip, hcl, hecx, hrest, heax, htop⟩ := round_read hcode h
  have hgt : ¬ c.toInt ≤ 64 := by
    rw [← toInt_le_of_skips, hc]
    exact Bool.false_ne_true
  have hpass := Code.Reaches.block hcode hrip [.cmpImm8 .rcx 0x40, .jcc .le 2] (by decide) rfl
  refine ⟨_, hread.trans (hpass.trans (.block hcode (i := 8) ?_
    [.bts32 .rax .rcx, .andImm32 .rax mask, .cmpImm32 .rax mask, .jcc .nz 2]
    (by decide) rfl)), ?_, ?_, ?_, ?_⟩
  · simp [Code.execBlock, Instr.exec, hcl, hgt]
  · simp [Code.execBlock, Instr.exec, hecx, heax, done, add, apply_ite code.address]
  · simpa [Code.execBlock, Instr.exec] using hrest
  · simp [Code.execBlock, Instr.exec, hecx, heax, add]
  · simpa [Code.execBlock, Instr.exec, State.top] using htop

theorem one_returned (hcode : code.instrs = pangram) (hrip : s.rip = code.address 12) :
    ∃ t, code.Reaches s t ∧ t.rip = s.top ∧ t.get32 .rax = 1 := by
  refine ⟨_, .block hcode hrip [.movImm32 .rax 1, .ret] (by decide) rfl, ?_, ?_⟩
  · simp [Code.execBlock, Instr.exec, State.top]
  · simp [Code.execBlock, Instr.exec]

/-- The loop of the assembly, character by character. -/
theorem loop_runs (hcode : code.instrs = pangram) (h : AtLoop code ret rest bits s) :
    ∃ t, code.Reaches s t ∧ t.rip = ret ∧
      t.get32 .rax = if collectUntil skips add done rest bits then 1 else 0 := by
  induction rest generalizing bits s with
  | nil => exact round_end hcode h
  | cons c rest ih =>
      rw [collectUntil]
      cases hc : skips c with
      | true =>
          obtain ⟨t, hround, hloop⟩ := round_skip hcode h hc
          obtain ⟨u, hrest, hend⟩ := ih hloop
          exact ⟨u, hround.trans hrest, hend⟩
      | false =>
          obtain ⟨t, hround, hrip, hstring, heax, htop⟩ := round_add hcode h hc
          rw [if_neg Bool.false_ne_true]
          cases hdone : done (add bits c) with
          | true =>
              rw [hdone, if_pos rfl] at hrip
              obtain ⟨u, hrest, hret, hone⟩ := one_returned hcode hrip
              exact ⟨u, hround.trans hrest, hret.trans htop, hone⟩
          | false =>
              rw [hdone, if_neg Bool.false_ne_true] at hrip
              obtain ⟨u, hrest, hend⟩ := ih ⟨hrip, hstring, heax, htop⟩
              exact ⟨u, hround.trans hrest, hend⟩

theorem loop_start (hcode : code.instrs = pangram) (hrip : s.rip = code.address 0)
    (hstring : s.mem.StringAt (s.regs .rdi) rest) :
    ∃ t, code.Reaches s t ∧ AtLoop code s.top rest 0 t := by
  refine ⟨_, .block hcode hrip [.xor64 .rax .rax, .xor64 .rcx .rcx] (by decide) rfl, rfl,
    ?_, ?_, ?_⟩
  · simpa [Code.execBlock, Instr.exec] using hstring
  · simp [Code.execBlock, Instr.exec]
  · simp [Code.execBlock, Instr.exec, State.top]

/-- Stopping early gives the answer for the whole string. -/
theorem collects_iff (s : List Byte) :
    collectUntil skips add done s 0 = true ↔ HasLetters 26 s := by
  refine collectUntil_iff (s := []) (fun c hc => not_isLetter_of_low c hc) ?_ ?_ marks_nil ?_
  · intro bits s c hmarks hc
    exact (hmarks.add le_rfl (slt_of_not_sle hc)).and_mask le_rfl mask_isMask
  · intro bits c s hmarks
    rw [← hmarks.covers_iff le_rfl mask_isMask, done, beq_iff_eq, add, BitVec.and_assoc,
      BitVec.and_self]
  · intro hall
    obtain ⟨c, hc, -⟩ := hall 0 (by decide)
    cases hc

/-- For every string and every call of the assembly with it. -/
theorem pangram_same {code : Code} {s : State} (hcode : code.instrs = pangram)
    (hcall : code.Called 0 s) (text : List Byte) (htext : s.mem.StringAt (s.regs .rdi) text) :
    code.returned s = Part.some (if ispangram text then 1 else 0) ∧
      (ispangram text = true ↔ HasLetters 26 text) ∧
      ispangram (text.filter isLetter) = ispangram text := by
  have hsame : collectUntil skips add done text 0 = ispangram text := by
    rw [Bool.eq_iff_iff, collects_iff, ispangram_iff]
  obtain ⟨t, hstart, hloop⟩ := loop_start hcode hcall.rip htext
  obtain ⟨u, hrest, hret, heax⟩ := loop_runs hcode hloop
  refine ⟨?_, ispangram_iff text, ?_⟩
  · rw [hcall.returned_eq (hstart.trans hrest) hret, heax, hsame]
  · rw [Bool.eq_iff_iff, ispangram_iff, ispangram_iff, hasLetters_filter le_rfl]

def mixedCase : List Byte :=
  (List.range 26).map fun i => BitVec.ofNat 8 (if i % 2 = 0 then 0x41 + i else 0x61 + i)

theorem mixed_case_is_pangram :
    (Code.fromOne pangram (by decide)).returned (.calling 4096 (.ofText 4096 mixedCase)) =
      Part.some 1 := by
  have hcall : (Code.fromOne pangram (by decide)).Called 0
      (.calling 4096 (.ofText 4096 mixedCase)) :=
    Code.fromOne_called (by decide) (by decide +kernel)
  rw [(pangram_same rfl hcall mixedCase (by decide +kernel)).1, if_pos (by decide +kernel)]

end CsPrimer.X86Pangram
