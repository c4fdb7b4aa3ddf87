import CsPrimer.Foundation.X86

/-!
Calls and the stack: what it is for a call to come back, and that one made
within a routine leaves what the routine has saved.
-/

namespace CsPrimer.Foundation.X86

variable {s t : State}

/-- A call has come back: to the return address, with the stack as it was from
there on. -/
structure CameBack (s t : State) : Prop where
  rip : t.rip = s.top
  rsp : t.regs .rsp = s.regs .rsp + 8
  stack : Memory.SameFrom (s.regs .rsp).toNat s.mem t.mem

/-- The memory of a nested call: `saved` was pushed, then the return address. -/
def nestedCall (mem : Memory) (rsp saved ret : Word) : Memory :=
  (mem.write64 (rsp - 8) saved).write64 (rsp - 8 - 8) ret

/-- A nested call comes back to where it was made, with the word that was pushed
before it on top of the stack, and what the caller has from `rsp` on untouched. -/
theorem CameBack.after_push {mem : Memory} {rsp saved ret : Word}
    (h : CameBack s t) (hrsp : s.regs .rsp = rsp - 8 - 8)
    (hmem : s.mem = nestedCall mem rsp saved ret) (hroom : 16 ≤ rsp.toNat) :
    t.rip = ret ∧ t.regs .rsp = rsp - 8 ∧ t.top = saved ∧
      Memory.SameFrom rsp.toNat mem t.mem := by
  have hfirst : (rsp - 8).toNat = rsp.toNat - 8 := by bv_omega
  have hsecond : (rsp - 8 - 8).toNat = rsp.toNat - 16 := by bv_omega
  have hlt := rsp.isLt
  have hword : Memory.SameFrom (rsp - 8).toNat (mem.write64 (rsp - 8) saved) s.mem := by
    rw [hmem]
    exact .write64 _ _ (by omega)
  have hstack := h.stack
  have htop : t.regs .rsp = rsp - 8 := by
    rw [h.rsp, hrsp]
    exact BitVec.sub_add_cancel _ _
  rw [hrsp] at hstack
  refine ⟨?_, htop, ?_, ?_⟩
  · rw [h.rip, State.top, hrsp, hmem, nestedCall, Memory.read64_write64]
  · rw [State.top, htop, hstack.read64 (by omega) (by omega),
      hword.read64 le_rfl (by omega), Memory.read64_write64]
  · have hbelow : Memory.SameFrom rsp.toNat mem (mem.write64 (rsp - 8) saved) :=
      .write64 _ _ (by omega)
    exact hbelow.trans ((hword.mono (by omega)).trans (hstack.mono (by omega)))

/-- The stack has the return address, and below it a saved word and a return
address for each of so many calls. -/
structure StackSuffices (depth : Nat) (s : State) : Prop where
  below : 16 * depth ≤ (s.regs .rsp).toNat
  above : (s.regs .rsp).toNat + 8 ≤ 2 ^ 64

theorem StackSuffices.nested {depth : Nat} (h : StackSuffices (depth + 1) s)
    (hrsp : t.regs .rsp = s.regs .rsp - 8 - 8) :
    16 ≤ (s.regs .rsp).toNat ∧ StackSuffices depth t := by
  obtain ⟨hbelow, habove⟩ := h
  have hsub : (s.regs .rsp - 8 - 8).toNat = (s.regs .rsp).toNat - 16 := by bv_omega
  refine ⟨by omega, ?_, ?_⟩
  · rw [hrsp, hsub]
    omega
  · rw [hrsp, hsub]
    omega

theorem StackSuffices.mono {depth depth' : Nat} (h : StackSuffices depth s)
    (hle : depth' ≤ depth) : StackSuffices depth' s :=
  ⟨(Nat.mul_le_mul_left 16 hle).trans h.below, h.above⟩

end CsPrimer.Foundation.X86
