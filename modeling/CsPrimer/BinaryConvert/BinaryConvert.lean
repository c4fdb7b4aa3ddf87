import CsPrimer.Foundation.X86Call

/-!
The assembly of `binary_convert`. Of every character up to the NUL it takes the
lowest bit, so `0` and `1` are the digits that they look like, and the digits
above the lowest 32 are lost.
-/

namespace CsPrimer.BinaryConvert

open Foundation.X86

/-- `binary_convert.asm`; `.next` is the instruction with index 2, `.done` that
with index 10. -/
def binaryConvert : List Instr :=
  [.xor32 .rax .rax,
   .xor32 .rcx .rcx,
   .load8 .rcx .rdi,
   .test8 .rcx .rcx,
   .jcc .z 10,
   .andImm8 .rcx 1,
   .shl32 .rax 1,
   .or32 .rax .rcx,
   .inc64 .rdi,
   .jmp 2,
   .ret]

/-- The digits of a string, the first one the highest. -/
def value (text : List (BitVec 8)) : Nat :=
  Nat.ofDigits 2 (text.reverse.map fun c => c.toNat % 2)

variable {code : Code} {s t : State} {c : BitVec 8} {text before rest : List (BitVec 8)}

theorem value_append_singleton (text : List (BitVec 8)) (c : BitVec 8) :
    value (text ++ [c]) = 2 * value text + c.toNat % 2 := by
  rw [value, List.reverse_append, List.reverse_singleton, List.singleton_append, List.map_cons,
    Nat.ofDigits_cons, value]
  omega

/-- The lowest byte of a register whose other bytes are clear. -/
theorem clear_above (c d : BitVec 8) :
    ((c.setWidth 64).extractLsb' 8 56 ++ d : BitVec 64) = d.setWidth 64 := by
  apply BitVec.eq_of_getLsbD_eq
  intro i hi
  rw [BitVec.getLsbD_append, BitVec.getLsbD_setWidth]
  split
  · simp [hi]
  · rename_i hge
    simp [BitVec.getLsbD_of_ge, Nat.not_lt.mp hge]

/-- The next digit, shifted in. -/
theorem shift_in (n : Nat) (c : BitVec 8) :
    BitVec.ofNat 32 n <<< 1 ||| (c &&& 1).setWidth 32 =
      BitVec.ofNat 32 (2 * n + c.toNat % 2) := by
  have hdigit : (c &&& 1).setWidth 32 = BitVec.ofNat 32 (c.toNat % 2) := by
    apply BitVec.eq_of_toNat_eq
    rw [BitVec.toNat_setWidth, BitVec.toNat_and, BitVec.toNat_ofNat]
    exact congrArg (· % 2 ^ 32) (Nat.and_one_is_mod c.toNat)
  have hshift : BitVec.ofNat 32 n <<< 1 = BitVec.ofNat 32 (2 * n) := by
    apply BitVec.eq_of_toNat_eq
    rw [BitVec.toNat_shiftLeft, BitVec.toNat_ofNat, BitVec.toNat_ofNat, Nat.shiftLeft_eq,
      pow_one, Nat.mod_mul_mod, Nat.mul_comm]
  have hdisjoint : BitVec.ofNat 32 (2 * n) &&& BitVec.ofNat 32 (c.toNat % 2) = 0#32 := by
    rw [← hshift, ← hdigit]
    apply BitVec.eq_of_getLsbD_eq
    intro i _
    rw [BitVec.getLsbD_and, BitVec.getLsbD_shiftLeft, BitVec.getLsbD_setWidth,
      BitVec.getLsbD_and]
    rcases i with _ | i
    · simp
    · simp [BitVec.getLsbD_one]
  rw [hdigit, hshift, ← BitVec.add_eq_or_of_and_eq_zero _ _ hdisjoint, BitVec.ofNat_add]

/-- At `.next`, with the digits `before` read and those of `rest` to come. -/
structure AtNext (code : Code) (s : State) (before rest : List (BitVec 8))
    (t : State) : Prop where
  rip : t.rip = code.address 2
  string : t.mem.StringAt (t.regs .rdi) rest
  eax : t.get32 .rax = BitVec.ofNat 32 (value before)
  ecx : ∃ d : BitVec 8, t.regs .rcx = d.setWidth 64
  mem : t.mem = s.mem
  keeps : State.Keeps [.rax, .rcx, .rdi] s t

theorem next_start (hcode : code.instrs = binaryConvert)
    (hrip : s.rip = code.address 0) (hstring : s.mem.StringAt (s.regs .rdi) text) :
    ∃ t, code.Reaches s t ∧ AtNext code s [] text t := by
  refine ⟨_, .block hcode hrip [.xor32 .rax .rax, .xor32 .rcx .rcx]
    (by decide) rfl, rfl, ?_, ?_, ⟨0, ?_⟩, ?_, ?_⟩
  · simpa [Code.execBlock, Instr.exec] using hstring
  · simp [Code.execBlock, Instr.exec, value]
  · simp [Code.execBlock, Instr.exec]
  · simp [Code.execBlock, Instr.exec]
  · intro r hr
    simp only [List.mem_cons, List.not_mem_nil, not_or] at hr
    simp [Code.execBlock, Instr.exec, hr]

/-- The end of the string. -/
theorem round_end (hcode : code.instrs = binaryConvert)
    (h : AtNext code s before [] t) :
    ∃ u, code.Reaches t u ∧ CameBack s u ∧ u.mem = s.mem ∧
      u.get32 .rax = BitVec.ofNat 32 (value before) ∧
      State.Keeps [.rax, .rcx, .rdi, .rsp] s u := by
  have hnul : t.mem (t.regs .rdi) = 0 := h.string
  have hrsp : t.regs .rsp = s.regs .rsp := h.keeps .rsp (by decide)
  have htop : t.top = s.top := by rw [State.top, h.mem, hrsp, State.top]
  have hread := Code.Reaches.block hcode h.rip
    [.load8 .rcx .rdi, .test8 .rcx .rcx, .jcc .z 10] (by decide) rfl
  refine ⟨_, hread.trans (.block hcode (i := 10) ?_ [.ret] (by decide) rfl),
    ⟨?_, ?_, ?_⟩, ?_, ?_, ?_⟩
  · simp [Code.execBlock, Instr.exec, hnul]
  · simpa [Code.execBlock, Instr.exec, State.top] using htop
  · simp [Code.execBlock, Instr.exec, hrsp]
  · intro addr _
    simp [Code.execBlock, Instr.exec, h.mem]
  · simp [Code.execBlock, Instr.exec, h.mem]
  · simpa [Code.execBlock, Instr.exec] using h.eax
  · intro r hr
    have hkept := h.keeps r (by simp_all)
    simp only [List.mem_cons, List.not_mem_nil, not_or] at hr
    simpa [Code.execBlock, Instr.exec, hr] using hkept

/-- A character other than the NUL. Only the lowest byte of `ecx` is written, so
the others must be clear for the digit to be all of it. -/
theorem round_digit (hcode : code.instrs = binaryConvert)
    (h : AtNext code s before (c :: rest) t) :
    ∃ u, code.Reaches t u ∧ AtNext code s (before ++ [c]) rest u := by
  obtain ⟨hbyte, hne, hrest⟩ := h.string
  have hnul : c ≠ 0#8 := hne
  obtain ⟨d, hecx⟩ := h.ecx
  have hread := Code.Reaches.block hcode h.rip
    [.load8 .rcx .rdi, .test8 .rcx .rcx, .jcc .z 10] (by decide) rfl
  refine ⟨_, hread.trans (.block hcode (i := 5) ?_
    [.andImm8 .rcx 1, .shl32 .rax 1, .or32 .rax .rcx, .inc64 .rdi, .jmp 2]
    (by decide) rfl), rfl, ?_, ?_, ⟨c &&& 1, ?_⟩, ?_, ?_⟩
  · simp [Code.execBlock, Instr.exec, hbyte, hnul]
  · simpa [Code.execBlock, Instr.exec] using hrest
  · rw [value_append_singleton, ← shift_in, ← h.eax]
    simp [Code.execBlock, Instr.exec, State.get32,
      hbyte, hecx, clear_above]
  · simp [Code.execBlock, Instr.exec, hbyte, hecx, clear_above]
  · simpa [Code.execBlock, Instr.exec] using h.mem
  · intro r hr
    have hkept := h.keeps r hr
    simp only [List.mem_cons, List.not_mem_nil, not_or] at hr
    simpa [Code.execBlock, Instr.exec, hr] using hkept

/-- The loop, character by character. -/
theorem loop_runs (hcode : code.instrs = binaryConvert)
    (h : AtNext code s before rest t) :
    ∃ u, code.Reaches t u ∧ CameBack s u ∧ u.mem = s.mem ∧
      u.get32 .rax = BitVec.ofNat 32 (value (before ++ rest)) ∧
      State.Keeps [.rax, .rcx, .rdi, .rsp] s u := by
  induction rest generalizing before t with
  | nil =>
      rw [List.append_nil]
      exact round_end hcode h
  | cons c rest ih =>
      obtain ⟨u, hround, hnext⟩ := round_digit hcode h
      obtain ⟨v, hrest, hend⟩ := ih hnext
      rw [List.append_assoc, List.singleton_append] at hend
      exact ⟨v, hround.trans hrest, hend⟩

/-- For every string, also one with other characters than digits and one with
more than 32 of them, whatever is in the registers and wherever the code lies. -/
theorem binary_convert_returns {code : Code} {s : State}
    (text : List (BitVec 8)) (hcode : code.instrs = binaryConvert)
    (hrip : s.rip = code.address 0) (hstring : s.mem.StringAt (s.regs .rdi) text) :
    ∃ t, code.Reaches s t ∧ CameBack s t ∧ t.mem = s.mem ∧
      t.get32 .rax = BitVec.ofNat 32 (value text) ∧
      State.Keeps [.rax, .rcx, .rdi, .rsp] s t := by
  obtain ⟨t, hstart, hnext⟩ := next_start hcode hrip hstring
  obtain ⟨u, hloop, hend⟩ := loop_runs hcode hnext
  exact ⟨u, hstart.trans hloop, hend⟩

theorem binary_convert_six :
    ∃ t, (Code.fromOne binaryConvert (by decide)).Reaches
        (.calling 16 (.ofText 16 [49, 49, 48])) t ∧
      CameBack (.calling 16 (.ofText 16 [49, 49, 48])) t ∧
      t.mem = Memory.ofText 16 [49, 49, 48] ∧ t.get32 .rax = BitVec.ofNat 32 6 ∧
      State.Keeps [.rax, .rcx, .rdi, .rsp] (.calling 16 (.ofText 16 [49, 49, 48])) t :=
  binary_convert_returns [49, 49, 48] rfl rfl (by decide)

end CsPrimer.BinaryConvert
