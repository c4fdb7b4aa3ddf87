import CsPrimer.Foundation.Triangular
import CsPrimer.Foundation.X86

/-!
The two versions of `sum_to_n`, an adding loop and a closed form. The closed
form halves a product of 32 bits, and so gives the sum without its highest
bit.
-/

namespace CsPrimer.SumToN

open Foundation Foundation.X86

/-- `sum_to_n.asm`; `.loop` is the instruction with index 1. -/
def sumToN : List Instr :=
  [.xor32 .rax .rax,
   .add32 .rax .rdi,
   .dec32 .rdi,
   .jcc .g 1,
   .ret]

def sumToN2 : List Instr :=
  [.lea32 .rax .rdi 1,
   .imul32 .rax .rdi,
   .shr32 .rax 1,
   .ret]

variable {code : Code} {s t : State} {n : Nat}

/-- One round from `.loop`; it goes on while `edi` was above 1. -/
theorem loop_round (hcode : code.instrs = sumToN) (hrip : s.rip = code.address 1) :
    ∃ t, code.Reaches s t ∧
      t.rip = code.address (if 1 < (s.get32 .rdi).toInt then 1 else 4) ∧
      t.get32 .rax = s.get32 .rax + s.get32 .rdi ∧
      t.get32 .rdi = s.get32 .rdi - 1 ∧ t.top = s.top := by
  refine ⟨_, .block hcode hrip [.add32 .rax .rdi, .dec32 .rdi, .jcc .g 1] (by decide) rfl, ?_⟩
  simp [Code.execBlock, Instr.exec, State.top, apply_ite code.address]

theorem done_returns (hcode : code.instrs = sumToN) (hrip : s.rip = code.address 4) :
    ∃ t, code.Reaches s t ∧ t.rip = s.top ∧ t.get32 .rax = s.get32 .rax := by
  refine ⟨_, .block hcode hrip [.ret] (by decide) rfl, ?_⟩
  simp [Code.execBlock, Instr.exec]

/-- From `.loop` on all numbers from `edi` down are added to `eax`; the 0 of
an empty sum is added as well. -/
theorem loop_runs (hcode : code.instrs = sumToN) (hn : n < 2 ^ 31)
    (hrip : s.rip = code.address 1) (hedi : s.get32 .rdi = BitVec.ofNat 32 n) :
    ∃ t, code.Reaches s t ∧ t.rip = s.top ∧
      t.get32 .rax = s.get32 .rax + BitVec.ofNat 32 (triangle n) := by
  induction n generalizing s with
  | zero =>
      obtain ⟨t, hround, hnext, hrax, -, htop⟩ := loop_round hcode hrip
      rw [hedi] at hnext hrax
      obtain ⟨u, hdone, hret, hu⟩ := done_returns hcode hnext
      exact ⟨u, hround.trans hdone, hret.trans htop, hu.trans hrax⟩
  | succ n ih =>
      obtain ⟨t, hround, hnext, hrax, hrdi, htop⟩ := loop_round hcode hrip
      rw [hedi, toInt_ofNat_of_lt (by omega)] at hnext
      rw [hedi] at hrax
      rw [hedi, ofNat_succ_sub_one] at hrdi
      have hsum : BitVec.ofNat 32 (triangle (n + 1)) =
          BitVec.ofNat 32 (n + 1) + BitVec.ofNat 32 (triangle n) := by
        rw [triangle_succ, BitVec.ofNat_add, BitVec.add_comm]
      rcases Nat.eq_zero_or_pos n with rfl | hpos
      · obtain ⟨u, hdone, hret, hu⟩ := done_returns hcode hnext
        exact ⟨u, hround.trans hdone, hret.trans htop, hu.trans hrax⟩
      · rw [if_pos (by omega)] at hnext
        obtain ⟨u, hrest, hret, hu⟩ := ih (by omega) hnext hrdi
        refine ⟨u, hround.trans hrest, hret.trans htop, ?_⟩
        rw [hu, hrax, hsum, BitVec.add_assoc]

theorem loop_start (hcode : code.instrs = sumToN) (hrip : s.rip = code.address 0) :
    ∃ t, code.Reaches s t ∧ t.rip = code.address 1 ∧ t.get32 .rax = 0 ∧
      t.get32 .rdi = s.get32 .rdi ∧ t.top = s.top := by
  refine ⟨_, .block hcode hrip [.xor32 .rax .rax] (by decide) rfl, rfl, ?_⟩
  simp [Code.execBlock, Instr.exec, State.top]

theorem sumToN_returns (hcode : code.instrs = sumToN) (hcall : code.Called 0 s)
    (hn : n < 2 ^ 31) (hedi : s.get32 .rdi = BitVec.ofNat 32 n) :
    code.returned s = Part.some (BitVec.ofNat 32 (triangle n)) := by
  obtain ⟨t, hstart, hrip, hrax, hrdi, htop⟩ := loop_start hcode hcall.rip
  obtain ⟨u, hloop, hret, hsum⟩ := loop_runs hcode hn hrip (hrdi.trans hedi)
  rw [hcall.returned_eq (hstart.trans hloop) (hret.trans htop), hsum, hrax]
  exact congrArg Part.some (BitVec.zero_add _)

theorem sumToN2_returns (hcode : code.instrs = sumToN2) (hcall : code.Called 0 s)
    (hedi : s.get32 .rdi = BitVec.ofNat 32 n) :
    code.returned s = Part.some (BitVec.ofNat 32 ((n + 1) * n) >>> 1) := by
  have hproduct : BitVec.ofNat 32 ((n + 1) * n) = (s.get32 .rdi + 1) * s.get32 .rdi := by
    rw [hedi, BitVec.ofNat_mul, BitVec.ofNat_add]
    rfl
  obtain ⟨t, hruns, hret, hrax⟩ : ∃ t, code.Reaches s t ∧ t.rip = s.top ∧
      t.get32 .rax = ((s.get32 .rdi + 1) * s.get32 .rdi) >>> 1 := by
    refine ⟨_, .block hcode hcall.rip sumToN2 (by decide) rfl, ?_⟩
    simp [sumToN2, Code.execBlock, Instr.exec, State.top]
  rw [hcall.returned_eq hruns hret, hrax, hproduct]

/-- Half of the product of 32 bits is the sum, unless the sum has bit 31. -/
theorem half_product_eq_iff (n : Nat) :
    BitVec.ofNat 32 ((n + 1) * n) >>> 1 = BitVec.ofNat 32 (triangle n) ↔
      n * (n + 1) % 2 ^ 33 < 2 ^ 32 := by
  rw [← BitVec.toNat_inj, BitVec.toNat_ushiftRight, BitVec.toNat_ofNat, BitVec.toNat_ofNat,
    Nat.shiftRight_eq_div_pow, mul_comm, ← two_mul_triangle]
  omega

/-- For every `int` from 0 on, and for every call of the two. -/
theorem sum_to_n_same_iff {loop closed : Code} {s s' : State} (n : Nat)
    (hloop : loop.instrs = sumToN) (hclosed : closed.instrs = sumToN2)
    (hs : loop.Called 0 s) (hs' : closed.Called 0 s') (hn : n < 2 ^ 31)
    (hedi : s.get32 .rdi = BitVec.ofNat 32 n) (hedi' : s'.get32 .rdi = BitVec.ofNat 32 n) :
    loop.returned s = Part.some (BitVec.ofNat 32 (triangle n)) ∧
      (closed.returned s' = Part.some (BitVec.ofNat 32 (triangle n)) ↔
        n * (n + 1) % 2 ^ 33 < 2 ^ 32) := by
  refine ⟨sumToN_returns hloop hs hn hedi, ?_⟩
  rw [sumToN2_returns hclosed hs' hedi', Part.some_inj, half_product_eq_iff]

theorem sum_to_1000_same :
    (Code.fromOne sumToN (by decide)).returned (.calling 1000 (.ofText 0 [])) =
        Part.some 500500 ∧
      (Code.fromOne sumToN2 (by decide)).returned (.calling 1000 (.ofText 0 [])) =
        Part.some 500500 := by
  have hcall : (Code.fromOne sumToN (by decide)).Called 0 (.calling 1000 (.ofText 0 [])) :=
    Code.fromOne_called (by decide) (by decide)
  have hcall' : (Code.fromOne sumToN2 (by decide)).Called 0 (.calling 1000 (.ofText 0 [])) :=
    Code.fromOne_called (by decide) (by decide)
  obtain ⟨hloop, hclosed⟩ := sum_to_n_same_iff 1000 rfl rfl hcall hcall' (by decide)
    (by decide) (by decide)
  exact ⟨hloop, hclosed.mpr (by decide)⟩

/-- The product of 65536 and 65537 has 33 bits. -/
theorem sum_to_65536_differs :
    (Code.fromOne sumToN (by decide)).returned (.calling 65536 (.ofText 0 [])) =
        Part.some 2147516416 ∧
      (Code.fromOne sumToN2 (by decide)).returned (.calling 65536 (.ofText 0 [])) =
        Part.some 32768 ∧
      (32768 : BitVec 32) ≠ BitVec.ofNat 32 (triangle 65536) := by
  refine ⟨?_, ?_, by decide⟩
  · exact sumToN_returns rfl (Code.fromOne_called (by decide) (by decide)) (n := 65536)
      (by decide) (by decide)
  · exact sumToN2_returns rfl (Code.fromOne_called (by decide) (by decide)) (n := 65536)
      (by decide)

end CsPrimer.SumToN
