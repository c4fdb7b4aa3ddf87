import CsPrimer.Foundation.X86Call
import Mathlib.Data.Nat.Factorial.Basic

/-!
The recursive `factorial`. The comparison is signed, so a number from `2 ^ 63`
on is a negative one and gives 1. The push keeps the argument over the nested
call, and the pop gives it back to the caller too.
-/

namespace CsPrimer.OldAssembly

open Foundation.X86

/-- `factorial.asm`; `factorial` is the instruction with index 0, `.L1` that with
index 4. -/
def factorial : List Instr :=
  [.cmpImm64 .rdi 1,
   .jcc .g 4,
   .movImm64 .rax 1,
   .ret,
   .push .rdi,
   .dec64 .rdi,
   .call 0,
   .pop .rdi,
   .imul64 .rax .rdi,
   .ret]

variable {code : Code} {s t : State} {n : Nat}

/-- The argument, with the negative numbers as 0. -/
def argument (s : State) : Nat := (s.regs .rdi).toInt.toNat

/-- What a call gives back; `rdi` is as it was. -/
structure Returns (s t : State) : Prop extends CameBack s t where
  rax : t.regs .rax = BitVec.ofNat 64 (Nat.factorial (argument s))
  keeps : State.Keeps [.rax, .rsp] s t

/-- Numbers up to 1 give 1 at once. -/
theorem small_returns (hcode : code.instrs = factorial)
    (hrip : s.rip = code.address 0) (hle : (s.regs .rdi).toInt ≤ 1) :
    ∃ t, code.Reaches s t ∧ Returns s t := by
  have hone : Nat.factorial (argument s) = 1 := by
    rw [Nat.factorial_eq_one, argument]
    omega
  have hgt : ¬ 1 < (s.regs .rdi).toInt := by omega
  have hpass := Code.Reaches.block hcode hrip
    [.cmpImm64 .rdi 1, .jcc .g 4] (by decide) rfl
  refine ⟨_, hpass.trans (.block hcode (i := 2) ?_ [.movImm64 .rax 1, .ret]
    (by decide) rfl), ⟨?_, ?_, ?_⟩, ?_, ?_⟩
  · simp [Code.execBlock, Instr.exec, hgt]
  · simp [Code.execBlock, Instr.exec, State.top]
  · simp [Code.execBlock, Instr.exec]
  · intro addr _
    simp [Code.execBlock, Instr.exec]
  · simp [Code.execBlock, Instr.exec, hone]
  · intro r hr
    simp only [List.mem_cons, List.not_mem_nil, not_or] at hr
    simp [Code.execBlock, Instr.exec, hr]

/-- From the start to the nested call, with the argument on the stack. -/
theorem runs_to_call (hcode : code.instrs = factorial)
    (hrip : s.rip = code.address 0) (hgt : 1 < (s.regs .rdi).toInt) :
    ∃ t, code.Reaches s t ∧ t.rip = code.address 0 ∧
      t.regs .rdi = s.regs .rdi - 1 ∧ t.regs .rsp = s.regs .rsp - 8 - 8 ∧
      t.mem = nestedCall s.mem (s.regs .rsp) (s.regs .rdi) (code.address 7) ∧
      State.Keeps [.rdi, .rsp] s t := by
  have hpass := Code.Reaches.block hcode hrip
    [.cmpImm64 .rdi 1, .jcc .g 4] (by decide) rfl
  refine ⟨_, hpass.trans (.block hcode (i := 4) ?_
    [.push .rdi, .dec64 .rdi, .call 0] (by decide) rfl), rfl, ?_, ?_, ?_, ?_⟩
  · simp [Code.execBlock, Instr.exec, hgt]
  · simp [Code.execBlock, Instr.exec]
  · simp [Code.execBlock, Instr.exec]
  · simp [Code.execBlock, Instr.exec, nestedCall]
  · intro r hr
    simp only [List.mem_cons, List.not_mem_nil, not_or] at hr
    simp [Code.execBlock, Instr.exec, hr]

/-- From the return of the nested call to that of the routine. -/
theorem runs_to_return (hcode : code.instrs = factorial)
    (hrip : s.rip = code.address 7) :
    ∃ t, code.Reaches s t ∧ t.rip = s.mem.read64 (s.regs .rsp + 8) ∧
      t.regs .rax = s.regs .rax * s.top ∧ t.regs .rdi = s.top ∧
      t.regs .rsp = s.regs .rsp + 8 + 8 ∧ t.mem = s.mem ∧
      State.Keeps [.rax, .rdi, .rsp] s t := by
  refine ⟨_, .block hcode hrip [.pop .rdi, .imul64 .rax .rdi, .ret]
    (by decide) rfl, ?_, ?_, ?_, ?_, ?_, ?_⟩
  · simp [Code.execBlock, Instr.exec, State.top]
  · simp [Code.execBlock, Instr.exec]
  · simp [Code.execBlock, Instr.exec]
  · simp [Code.execBlock, Instr.exec]
  · simp [Code.execBlock, Instr.exec]
  · intro r hr
    simp only [List.mem_cons, List.not_mem_nil, not_or] at hr
    simp [Code.execBlock, Instr.exec, hr]

/-- The argument of the nested call. -/
theorem argument_sub_one (hgt : 1 < (s.regs .rdi).toInt)
    (hrdi : t.regs .rdi = s.regs .rdi - 1) : argument s = argument t + 1 := by
  have hsub : (t.regs .rdi).toInt = (s.regs .rdi).toInt - 1 := by
    rw [hrdi]
    apply BitVec.toInt_sub_of_not_ssubOverflow
    have hlt := (s.regs .rdi).toInt_lt
    simp [BitVec.ssubOverflow]
    omega
  rw [argument, argument, hsub]
  omega

/-- Every level multiplies by its own argument, which the push has kept. -/
theorem factorial_runs (hcode : code.instrs = factorial)
    (hrip : s.rip = code.address 0) (hstack : StackSuffices (argument s - 1) s) :
    ∃ t, code.Reaches s t ∧ Returns s t := by
  induction hn : argument s generalizing s with
  | zero =>
      apply small_returns hcode hrip
      rw [argument] at hn
      omega
  | succ n ih =>
      by_cases hgt : 1 < (s.regs .rdi).toInt
      · obtain ⟨t, hcall, hript, hrdi, hrspt, hmemt, hkeepst⟩ := runs_to_call hcode hrip hgt
        have hargument := argument_sub_one hgt hrdi
        have htwo : 2 ≤ argument s := by
          rw [argument]
          omega
        obtain ⟨hroom, hstackt⟩ :=
          (hstack.mono (by omega : argument t - 1 + 1 ≤ argument s - 1)).nested hrspt
        obtain ⟨u, hrun, hback, hraxu, hkeepsu⟩ := ih hript hstackt (by omega)
        obtain ⟨hripu, hrspu, htop, hsame⟩ := hback.after_push hrspt hmemt hroom
        obtain ⟨v, hreturn, hripv, hraxv, hrdiv, hrspv, hmemv, hkeepsv⟩ :=
          runs_to_return hcode hripu
        have hend : s.regs .rsp - 8 + 8 = s.regs .rsp := BitVec.sub_add_cancel _ _
        refine ⟨v, hcall.trans (hrun.trans hreturn), ⟨?_, ?_, ?_⟩, ?_, ?_⟩
        · rw [hripv, hrspu, hend, hsame.read64 le_rfl hstack.above, State.top]
        · rw [hrspv, hrspu, hend]
        · rw [hmemv]
          exact hsame
        · have hself : s.regs .rdi = BitVec.ofNat 64 (argument s) := by
            rw [argument, ← BitVec.ofInt_natCast, Int.toNat_of_nonneg (by omega),
              BitVec.ofInt_toInt]
          rw [hraxv, htop, hraxu, hself, hargument, ← BitVec.ofNat_mul, Nat.factorial_succ,
            Nat.mul_comm]
        · intro r hr
          simp only [List.mem_cons, List.not_mem_nil, not_or] at hr
          by_cases hr' : r = .rdi
          · rw [hr', hrdiv, htop]
          · rw [hkeepsv r (by simp [hr, hr']), hkeepsu r (by simp [hr]),
              hkeepst r (by simp [hr, hr'])]
      · exact small_returns hcode hrip (by omega)

/-- The last factorial that fits is that of 20. -/
theorem Returns.exact (h : Returns s t) (hn : argument s ≤ 20) :
    (t.regs .rax).toNat = Nat.factorial (argument s) := by
  have hlt : Nat.factorial (argument s) < 2 ^ 64 :=
    (Nat.factorial_le hn).trans_lt (by decide)
  rw [h.rax, BitVec.toNat_ofNat, Nat.mod_eq_of_lt hlt]

/-- From 66 on the factorials have 64 factors 2. -/
theorem Returns.vanishes (h : Returns s t) (hn : 66 ≤ argument s) : t.regs .rax = 0 := by
  have hdvd : 2 ^ 64 ∣ Nat.factorial (argument s) :=
    (by decide : 2 ^ 64 ∣ Nat.factorial 66).trans (Nat.factorial_dvd_factorial hn)
  apply BitVec.eq_of_toNat_eq
  rw [h.rax, BitVec.toNat_ofNat, Nat.mod_eq_zero_of_dvd hdvd]
  rfl

/-- For every argument, whatever is in the other registers, in the flags and on
the stack, and wherever the code lies. -/
theorem factorial_returns {code : Code} {s : State}
    (hcode : code.instrs = factorial) (hrip : s.rip = code.address 0)
    (hstack : StackSuffices (argument s - 1) s) :
    ∃ t, code.Reaches s t ∧ Returns s t ∧
      (argument s ≤ 20 → (t.regs .rax).toNat = Nat.factorial (argument s)) ∧
      (66 ≤ argument s → t.regs .rax = 0) := by
  obtain ⟨t, hrun, hreturns⟩ := factorial_runs hcode hrip hstack
  exact ⟨t, hrun, hreturns, hreturns.exact, hreturns.vanishes⟩

theorem factorial_hundred_returns :
    ∃ t, (Code.fromOne factorial (by decide)).Reaches (.calling 100 (.ofText 0 [])) t ∧
      Returns (.calling 100 (.ofText 0 [])) t ∧
      (argument (.calling 100 (.ofText 0 [])) ≤ 20 → (t.regs .rax).toNat =
        Nat.factorial (argument (.calling 100 (.ofText 0 [])))) ∧
      (66 ≤ argument (.calling 100 (.ofText 0 [])) → t.regs .rax = 0) :=
  factorial_returns rfl rfl ⟨by decide, by decide⟩

end CsPrimer.OldAssembly
