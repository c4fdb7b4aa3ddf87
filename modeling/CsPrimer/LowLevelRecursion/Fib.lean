import CsPrimer.Foundation.X86Call
import Mathlib.Data.Nat.Fib.Basic

/-!
The recursive `fib`. The two pushes keep the argument and the first value
over the calls that destroy `edi` and `ecx`, so that value, registers and
stack are right together, by induction on the argument.
-/

namespace CsPrimer.LowLevelRecursion

open Foundation.X86

/-- `fib.asm`; `fib` is the instruction with index 0, `.return` that with
index 13. -/
def fib : List Instr :=
  [.mov32 .rax .rdi,
   .cmpImm32 .rdi 1,
   .jcc .le 13,
   .dec32 .rdi,
   .push .rdi,
   .call 0,
   .pop .rdi,
   .mov32 .rcx .rax,
   .dec32 .rdi,
   .push .rcx,
   .call 0,
   .pop .rcx,
   .add32 .rax .rcx,
   .ret]

variable {code : Code} {s t u : State} {n : Nat}

structure Returns (n : Nat) (s t : State) : Prop extends CameBack s t where
  eax : t.get32 .rax = BitVec.ofNat 32 (Nat.fib n)

/-- `edi` up to 1 is returned at once. -/
theorem small_returns (hcode : code.instrs = fib) (hrip : s.rip = code.address 0)
    (hedi : s.get32 .rdi = BitVec.ofNat 32 n) (hn : n ≤ 1) :
    ∃ t, code.Reaches s t ∧ Returns n s t := by
  have hle : (s.get32 .rdi).toInt ≤ 1 := by
    rw [hedi]
    interval_cases n <;> decide
  have hfib : Nat.fib n = n := by
    interval_cases n <;> rfl
  have hjump := Code.Reaches.block hcode hrip
    [.mov32 .rax .rdi, .cmpImm32 .rdi 1, .jcc .le 13] (by decide) rfl
  refine ⟨_, hjump.trans (.block hcode (i := 13) ?_ [.ret] (by decide) rfl), ⟨?_, ?_, ?_⟩, ?_⟩
  · simp [Code.execBlock, Instr.exec, hle]
  · simp [Code.execBlock, Instr.exec, State.top]
  · simp [Code.execBlock, Instr.exec]
  · intro addr _
    simp [Code.execBlock, Instr.exec]
  · simp [Code.execBlock, Instr.exec, hfib, hedi]

/-- From the start to the first call. -/
theorem runs_to_first_call (hcode : code.instrs = fib) (hrip : s.rip = code.address 0)
    (hgt : 1 < (s.get32 .rdi).toInt) :
    ∃ t, code.Reaches s t ∧ t.rip = code.address 0 ∧
      t.get32 .rdi = s.get32 .rdi - 1 ∧ t.regs .rsp = s.regs .rsp - 8 - 8 ∧
      t.mem = nestedCall s.mem (s.regs .rsp) ((s.get32 .rdi - 1).setWidth 64)
        (code.address 6) := by
  have hpass := Code.Reaches.block hcode hrip
    [.mov32 .rax .rdi, .cmpImm32 .rdi 1, .jcc .le 13] (by decide) rfl
  refine ⟨_, hpass.trans (.block hcode (i := 3) ?_ [.dec32 .rdi, .push .rdi, .call 0]
    (by decide) rfl), rfl, ?_, ?_, ?_⟩
  · simp [Code.execBlock, Instr.exec, hgt]
  · simp [Code.execBlock, Instr.exec]
  · simp [Code.execBlock, Instr.exec]
  · simp [Code.execBlock, Instr.exec, nestedCall]

/-- From the return of the first call to the second. The argument is back
from the stack, and the first value goes there. -/
theorem runs_to_second_call (hcode : code.instrs = fib) (hrip : s.rip = code.address 6) :
    ∃ t, code.Reaches s t ∧ t.rip = code.address 0 ∧
      t.get32 .rdi = s.top.setWidth 32 - 1 ∧ t.regs .rsp = s.regs .rsp - 8 ∧
      t.mem = (s.mem.write64 (s.regs .rsp) ((s.get32 .rax).setWidth 64)).write64
        (s.regs .rsp - 8) (code.address 11) := by
  refine ⟨_, .block hcode hrip [.pop .rdi, .mov32 .rcx .rax, .dec32 .rdi, .push .rcx,
    .call 0] (by decide) rfl, rfl, ?_, ?_, ?_⟩
  · simp [Code.execBlock, Instr.exec]
  · simp [Code.execBlock, Instr.exec]
  · simp [Code.execBlock, Instr.exec]

/-- From the return of the second call to that of the routine. -/
theorem runs_to_return (hcode : code.instrs = fib) (hrip : s.rip = code.address 11) :
    ∃ t, code.Reaches s t ∧ t.rip = s.mem.read64 (s.regs .rsp + 8) ∧
      t.get32 .rax = s.get32 .rax + s.top.setWidth 32 ∧
      t.regs .rsp = s.regs .rsp + 8 + 8 ∧ t.mem = s.mem := by
  refine ⟨_, .block hcode hrip [.pop .rcx, .add32 .rax .rcx, .ret] (by decide) rfl,
    ?_, ?_, ?_, ?_⟩
  · simp [Code.execBlock, Instr.exec, State.top]
  · simp [Code.execBlock, Instr.exec]
  · simp [Code.execBlock, Instr.exec]
  · simp [Code.execBlock, Instr.exec]

/-- Both calls are by induction: each needs less of the stack, and leaves what
the other and the caller have on it. -/
theorem fib_runs (hcode : code.instrs = fib) (hn : n < 2 ^ 31)
    (hrip : s.rip = code.address 0) (hedi : s.get32 .rdi = BitVec.ofNat 32 n)
    (hstack : StackSuffices (n - 1) s) : ∃ t, code.Reaches s t ∧ Returns n s t := by
  induction n using Nat.strong_induction_on generalizing s with
  | _ n ih =>
      obtain hle | ⟨m, rfl⟩ : n ≤ 1 ∨ ∃ m, n = m + 2 := by
        rcases n with _ | _ | m
        · exact .inl (by omega)
        · exact .inl (by omega)
        · exact .inr ⟨m, rfl⟩
      · exact small_returns hcode hrip hedi hle
      have hgt : 1 < (s.get32 .rdi).toInt := by
        rw [hedi, toInt_ofNat_of_lt (by omega)]
        omega
      -- `fib` of the number below, with that number on the stack
      obtain ⟨t, hcall₁, hrip₁, hedi₁, hrsp₁, hmem₁⟩ := runs_to_first_call hcode hrip hgt
      rw [hedi, ofNat_succ_sub_one] at hedi₁ hmem₁
      obtain ⟨hroom, hstack₁⟩ := hstack.nested hrsp₁
      obtain ⟨u, hrun₁, hret₁⟩ := ih (m + 1) (by omega) (by omega) hrip₁ hedi₁ hstack₁
      obtain ⟨hback₁, hrspu, htop₁, hsame₁⟩ := hret₁.after_push hrsp₁ hmem₁ hroom
      -- `fib` of the second number below, with the first value on the stack
      obtain ⟨v, hcall₂, hrip₂, hedi₂, hrsp₂, hmem₂⟩ := runs_to_second_call hcode hback₁
      rw [htop₁, BitVec.setWidth_setWidth_of_le _ (by decide), BitVec.setWidth_eq,
        ofNat_succ_sub_one] at hedi₂
      rw [hrspu] at hrsp₂ hmem₂
      have hstack₂ := (hstack.nested hrsp₂).2.mono (Nat.sub_le m 1)
      obtain ⟨w, hrun₂, hret₂⟩ := ih m (by omega) (by omega) hrip₂ hedi₂ hstack₂
      obtain ⟨hback₂, hrspw, htop₂, hsame₂⟩ := hret₂.after_push hrsp₂ hmem₂ hroom
      obtain ⟨x, hrun₃, hripx, heaxx, hrspx, hmemx⟩ := runs_to_return hcode hback₂
      have hsame := hsame₁.trans hsame₂
      have hend : s.regs .rsp - 8 + 8 = s.regs .rsp := BitVec.sub_add_cancel _ _
      refine ⟨x, hcall₁.trans (hrun₁.trans (hcall₂.trans (hrun₂.trans hrun₃))),
        ⟨?_, ?_, ?_⟩, ?_⟩
      · rw [hripx, hrspw, hend, hsame.read64 le_rfl hstack.above, State.top]
      · rw [hrspx, hrspw, hend]
      · rw [hmemx]
        exact hsame
      · rw [heaxx, htop₂, BitVec.setWidth_setWidth_of_le _ (by decide), BitVec.setWidth_eq,
          hret₁.eax, hret₂.eax, Nat.fib_add_two, BitVec.ofNat_add]

/-- For every `int` from 0 on, whatever is in the other registers, in the flags
and on the stack, and wherever the code lies. -/
theorem fib_returns {code : Code} {s : State} (n : Nat) (hcode : code.instrs = fib)
    (hrip : s.rip = code.address 0) (hn : n < 2 ^ 31)
    (hedi : s.get32 .rdi = BitVec.ofNat 32 n) (hstack : StackSuffices (n - 1) s) :
    ∃ t, code.Reaches s t ∧ Returns n s t ∧
      State.Keeps [.rax, .rcx, .rdi, .rsp] s t := by
  obtain ⟨t, hrun, hreturns⟩ := fib_runs hcode hn hrip hedi hstack
  refine ⟨t, hrun, hreturns, hrun.keeps ?_⟩
  rw [hcode]
  decide

theorem fib_ten_returns :
    ∃ t, (Code.fromOne fib (by decide)).Reaches (.calling 10 (.ofText 0 [])) t ∧
      Returns 10 (.calling 10 (.ofText 0 [])) t ∧
      State.Keeps [.rax, .rcx, .rdi, .rsp] (.calling 10 (.ofText 0 [])) t :=
  fib_returns 10 rfl rfl (by decide) (by decide) ⟨by decide, by decide⟩

end CsPrimer.LowLevelRecursion
