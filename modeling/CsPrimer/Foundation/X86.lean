import Mathlib.Computability.StateTransition
import Mathlib.Data.BitVec
import Mathlib.Data.Nat.Digits.Defs
import Mathlib.Tactic

/-!
A part of the x86-64 instruction set. The code is apart from the memory and
may lie at any addresses; a memory of bytes holds data and stack. Of the flags
there are those that the signed jumps read, and where the architecture leaves
one of these undefined it is kept, but for the shifts.
-/

namespace CsPrimer.Foundation.X86

inductive Reg where
  | rax | rcx | rdx | rbx | rsp | rbp | rsi | rdi
  | r8 | r9 | r10 | r11 | r12 | r13 | r14 | r15
  deriving DecidableEq, Repr

abbrev Word := BitVec 64

structure Flags where
  zf : Bool
  sf : Bool
  of : Bool
  deriving DecidableEq, Repr

abbrev Memory := Word → BitVec 8

structure State where
  regs : Reg → Word
  flags : Flags
  mem : Memory
  rip : Word

def Flags.ofResult {w : Nat} (value : BitVec w) : Flags :=
  ⟨value == 0, value.msb, false⟩

def Flags.ofAdd {w : Nat} (a b : BitVec w) : Flags :=
  ⟨a + b == 0, (a + b).msb, a.saddOverflow b⟩

def Flags.ofSub {w : Nat} (a b : BitVec w) : Flags :=
  ⟨a - b == 0, (a - b).msb, a.ssubOverflow b⟩

inductive Cond where
  | z
  | nz
  | le
  | g
  deriving DecidableEq, Repr

/-- The condition of a jump; `le` and `g` are the signed ones. -/
def Cond.holds (flags : Flags) : Cond → Bool
  | .z => flags.zf
  | .nz => !flags.zf
  | .le => flags.zf || flags.sf != flags.of
  | .g => !flags.zf && flags.sf == flags.of

/-- The eight bytes at an address, the lowest first. -/
def Memory.read64 (mem : Memory) (addr : Word) : Word :=
  BitVec.ofNat 64 (Nat.ofDigits 256
    ((List.range 8).map fun k => (mem (addr + BitVec.ofNat 64 k)).toNat))

def Memory.write64 (mem : Memory) (addr value : Word) : Memory := fun a =>
  if (a - addr).toNat < 8 then value.extractLsb' (8 * (a - addr).toNat) 8 else mem a

namespace State

def get32 (s : State) (r : Reg) : BitVec 32 := (s.regs r).setWidth 32

def get8 (s : State) (r : Reg) : BitVec 8 := (s.regs r).setWidth 8

def set64 (s : State) (r : Reg) (value : Word) : State :=
  { s with regs := Function.update s.regs r value }

/-- Writing the lower half of a register clears the upper one. -/
def set32 (s : State) (r : Reg) (value : BitVec 32) : State :=
  s.set64 r (value.setWidth 64)

/-- Writing the lowest byte of a register keeps the others. -/
def set8 (s : State) (r : Reg) (value : BitVec 8) : State :=
  s.set64 r ((s.regs r).extractLsb' 8 56 ++ value)

def setFlags (s : State) (flags : Flags) : State := { s with flags := flags }

def goto (s : State) (rip : Word) : State := { s with rip := rip }

def push (s : State) (value : Word) : State :=
  { s.set64 .rsp (s.regs .rsp - 8) with
    mem := s.mem.write64 (s.regs .rsp - 8) value }

def top (s : State) : Word := s.mem.read64 (s.regs .rsp)

def drop (s : State) : State := s.set64 .rsp (s.regs .rsp + 8)

section Updates

variable (s : State) (r r' : Reg) (value rip : Word) (half : BitVec 32) (byte : BitVec 8)
  (flags : Flags)

@[simp] theorem set64_regs : (s.set64 r value).regs = Function.update s.regs r value := rfl
@[simp] theorem set64_mem : (s.set64 r value).mem = s.mem := rfl
@[simp] theorem set64_flags : (s.set64 r value).flags = s.flags := rfl
@[simp] theorem set32_regs :
    (s.set32 r half).regs = Function.update s.regs r (half.setWidth 64) := rfl
@[simp] theorem set32_mem : (s.set32 r half).mem = s.mem := rfl
@[simp] theorem set32_flags : (s.set32 r half).flags = s.flags := rfl
@[simp] theorem setFlags_regs : (s.setFlags flags).regs = s.regs := rfl
@[simp] theorem setFlags_mem : (s.setFlags flags).mem = s.mem := rfl
@[simp] theorem setFlags_flags : (s.setFlags flags).flags = flags := rfl
@[simp] theorem goto_regs : (s.goto rip).regs = s.regs := rfl
@[simp] theorem goto_mem : (s.goto rip).mem = s.mem := rfl
@[simp] theorem goto_flags : (s.goto rip).flags = s.flags := rfl
@[simp] theorem goto_rip : (s.goto rip).rip = rip := rfl
@[simp] theorem push_regs :
    (s.push value).regs = Function.update s.regs .rsp (s.regs .rsp - 8) := rfl
@[simp] theorem push_mem :
    (s.push value).mem = s.mem.write64 (s.regs .rsp - 8) value := rfl
@[simp] theorem drop_regs :
    s.drop.regs = Function.update s.regs .rsp (s.regs .rsp + 8) := rfl
@[simp] theorem drop_mem : s.drop.mem = s.mem := rfl

@[simp]
theorem get32_set32 :
    (s.set32 r half).get32 r' = if r' = r then half else s.get32 r' := by
  rw [get32, set32_regs, Function.update_apply]
  split
  · exact BitVec.setWidth_setWidth_of_le half (by decide)
  · rfl

@[simp]
theorem get32_set64 :
    (s.set64 r value).get32 r' = if r' = r then value.setWidth 32 else s.get32 r' := by
  rw [get32, set64_regs, Function.update_apply]
  split
  · rfl
  · rfl

@[simp]
theorem get32_push :
    (s.push value).get32 r = if r = .rsp then (s.regs .rsp - 8).setWidth 32 else s.get32 r :=
  get32_set64 ..

@[simp]
theorem get32_drop :
    s.drop.get32 r = if r = .rsp then (s.regs .rsp + 8).setWidth 32 else s.get32 r :=
  get32_set64 ..

@[simp] theorem get32_setFlags : (s.setFlags flags).get32 r = s.get32 r := rfl
@[simp] theorem get32_goto : (s.goto rip).get32 r = s.get32 r := rfl

@[simp] theorem set8_regs : (s.set8 r byte).regs =
    Function.update s.regs r ((s.regs r).extractLsb' 8 56 ++ byte) := rfl
@[simp] theorem set8_mem : (s.set8 r byte).mem = s.mem := rfl
@[simp] theorem set8_flags : (s.set8 r byte).flags = s.flags := rfl

@[simp]
theorem get8_set8 : (s.set8 r byte).get8 r' = if r' = r then byte else s.get8 r' := by
  rw [get8, set8_regs, Function.update_apply]
  split
  · exact BitVec.setWidth_append_eq_right
  · rfl

@[simp]
theorem get8_set64 :
    (s.set64 r value).get8 r' = if r' = r then value.setWidth 8 else s.get8 r' := by
  rw [get8, set64_regs, Function.update_apply]
  split
  · rfl
  · rfl

@[simp] theorem get8_setFlags : (s.setFlags flags).get8 r = s.get8 r := rfl
@[simp] theorem get8_goto : (s.goto rip).get8 r = s.get8 r := rfl

@[simp]
theorem get32_set8_of_ne (hne : r' ≠ r) : (s.set8 r byte).get32 r' = s.get32 r' := by
  rw [get32, set8_regs, Function.update_of_ne hne]
  rfl

/-- The low bits of a register are those of its lowest byte. -/
@[simp]
theorem get32_set8_mod : ((s.set8 r byte).get32 r).toNat % 32 = byte.toNat % 32 := by
  have hlow : (s.set8 r byte).get8 r = byte := by rw [get8_set8, if_pos rfl]
  have hnat := congrArg BitVec.toNat hlow
  rw [get8, BitVec.toNat_setWidth] at hnat
  rw [get32, BitVec.toNat_setWidth]
  omega

end Updates

def Keeps (regs : List Reg) (s t : State) : Prop := ∀ r, r ∉ regs → t.regs r = s.regs r

end State

/-- A number that fits is itself in a register, also as a signed number. -/
theorem toInt_ofNat_of_lt {w n : Nat} (hn : 2 * n < 2 ^ w) :
    (BitVec.ofNat w n).toInt = n := by
  have htoNat : (BitVec.ofNat w n).toNat = n := by
    rw [BitVec.toNat_ofNat, Nat.mod_eq_of_lt (by omega)]
  rw [BitVec.toInt_eq_toNat_of_lt (by omega), htoNat]

theorem ofNat_succ_sub_one (w n : Nat) :
    BitVec.ofNat w (n + 1) - 1 = BitVec.ofNat w n := by
  rw [BitVec.ofNat_add]
  exact BitVec.add_sub_cancel _ _

section Flags

variable {w : Nat}

@[simp]
theorem holds_z_ofResult (value : BitVec w) :
    Cond.z.holds (.ofResult value) = decide (value = 0) := rfl

/-- After a subtraction: signs and overflow together order the operands. -/
theorem sf_ne_of_ofSub (a b : BitVec w) :
    ((Flags.ofSub a b).sf != (Flags.ofSub a b).of) = decide (a.toInt < b.toInt) := by
  unfold Flags.ofSub
  cases hoverflow : a.ssubOverflow b with
  | false =>
      have hsub := BitVec.toInt_sub_of_not_ssubOverflow (x := a) (y := b) (by simp [hoverflow])
      rw [Bool.bne_false, BitVec.msb_eq_toInt, hsub, decide_eq_decide]
      omega
  | true =>
      -- the operands differ in sign, and the difference has the sign of the second
      have hcases : a.msb = false ∧ b.msb = true ∧ (a - b).msb = true ∨
          a.msb = true ∧ b.msb = false ∧ (a - b).msb = false := by
        rw [BitVec.ssubOverflow_eq] at hoverflow
        simpa [and_assoc] using hoverflow
      rcases hcases with ⟨ha, hb, hsub⟩ | ⟨ha, hb, hsub⟩
      · rw [BitVec.msb_eq_toInt, decide_eq_false_iff_not] at ha
        rw [BitVec.msb_eq_toInt, decide_eq_true_eq] at hb
        rw [hsub]
        exact (decide_eq_false (by omega)).symm
      · rw [BitVec.msb_eq_toInt, decide_eq_true_eq] at ha
        rw [BitVec.msb_eq_toInt, decide_eq_false_iff_not] at hb
        rw [hsub]
        exact (decide_eq_true (by omega)).symm

theorem zf_ofSub (a b : BitVec w) :
    (Flags.ofSub a b).zf = decide (a.toInt = b.toInt) := by
  have hzero : a - b = 0 ↔ a = b := by
    rw [BitVec.sub_eq_iff_eq_add, BitVec.ofNat_eq_ofNat, BitVec.zero_add]
  unfold Flags.ofSub
  rw [beq_eq_decide, decide_eq_decide, hzero, BitVec.toInt_inj]

@[simp]
theorem holds_le_ofSub (a b : BitVec w) :
    Cond.le.holds (.ofSub a b) = decide (a.toInt ≤ b.toInt) := by
  rw [Cond.holds, zf_ofSub, sf_ne_of_ofSub, ← Bool.decide_or, decide_eq_decide]
  omega

theorem holds_g (flags : Flags) : Cond.g.holds flags = !Cond.le.holds flags := by
  obtain ⟨zf, sf, of⟩ := flags
  cases zf <;> cases sf <;> cases of <;> rfl

@[simp]
theorem holds_g_ofSub (a b : BitVec w) :
    Cond.g.holds (.ofSub a b) = decide (b.toInt < a.toInt) := by
  rw [holds_g, holds_le_ofSub, ← decide_not, decide_eq_decide]
  omega

@[simp]
theorem holds_nz_ofSub (a b : BitVec w) :
    Cond.nz.holds (.ofSub a b) = decide (a ≠ b) := by
  rw [Cond.holds, zf_ofSub, ← decide_not, decide_eq_decide, Ne, BitVec.toInt_inj]

end Flags

namespace Memory

variable {mem mem' : Memory} {addr value : Word} {top : Nat}

theorem read64_write64 (mem : Memory) (addr value : Word) :
    (mem.write64 addr value).read64 addr = value := by
  have hbyte : ∀ k < 8, (mem.write64 addr value) (addr + BitVec.ofNat 64 k) =
      value.extractLsb' (8 * k) 8 := by
    intro k hk
    have hoffset : (addr + BitVec.ofNat 64 k - addr).toNat = k := by
      rw [BitVec.add_comm, BitVec.add_sub_cancel, BitVec.toNat_ofNat,
        Nat.mod_eq_of_lt (by omega)]
    rw [write64, hoffset, if_pos hk]
  have hbytes : (List.range 8).map
      (fun k => ((mem.write64 addr value) (addr + BitVec.ofNat 64 k)).toNat) =
        (List.range 8).map (fun k => value.toNat >>> (8 * k) % 256) := by
    apply List.map_congr_left
    intro k hk
    rw [hbyte k (List.mem_range.mp hk), BitVec.extractLsb'_toNat]
  have hlt := value.isLt
  rw [read64, hbytes]
  apply BitVec.eq_of_toNat_eq
  simp only [List.range, List.range.loop, List.map_cons, List.map_nil, Nat.ofDigits,
    Nat.shiftRight_eq_div_pow, BitVec.toNat_ofNat]
  norm_num
  omega

def StringAt (mem : Memory) (addr : Word) : List (BitVec 8) → Prop
  | [] => mem addr = 0
  | c :: rest => mem addr = c ∧ c ≠ 0 ∧ StringAt mem (addr + 1) rest

instance StringAt.decidable (mem : Memory) :
    ∀ (addr : Word) (text : List (BitVec 8)), Decidable (StringAt mem addr text)
  | addr, [] => inferInstanceAs (Decidable (mem addr = 0))
  | addr, c :: rest =>
      have := StringAt.decidable mem (addr + 1) rest
      inferInstanceAs (Decidable (mem addr = c ∧ c ≠ 0 ∧ StringAt mem (addr + 1) rest))

def ofText (addr : Word) (text : List (BitVec 8)) : Memory :=
  fun a => text.getD (a - addr).toNat 0

/-- The bytes from an address on are the same. -/
def SameFrom (top : Nat) (mem mem' : Memory) : Prop :=
  ∀ addr : Word, top ≤ addr.toNat → mem' addr = mem addr

theorem SameFrom.trans {mem'' : Memory} (h : SameFrom top mem mem')
    (h' : SameFrom top mem' mem'') : SameFrom top mem mem'' :=
  fun addr haddr => (h' addr haddr).trans (h addr haddr)

theorem SameFrom.mono {top' : Nat} (h : SameFrom top mem mem') (hle : top ≤ top') :
    SameFrom top' mem mem' :=
  fun addr haddr => h addr (hle.trans haddr)

theorem SameFrom.read64 (h : SameFrom top mem mem') (haddr : top ≤ addr.toNat)
    (hend : addr.toNat + 8 ≤ 2 ^ 64) : mem'.read64 addr = mem.read64 addr := by
  unfold Memory.read64
  congr 2
  apply List.map_congr_left
  intro k hk
  have hk' := List.mem_range.mp hk
  rw [h]
  rw [BitVec.toNat_add, BitVec.toNat_ofNat, Nat.mod_eq_of_lt (by omega : k < 2 ^ 64),
    Nat.mod_eq_of_lt (by omega)]
  omega

theorem SameFrom.write64 (mem : Memory) (value : Word) (hend : addr.toNat + 8 ≤ top) :
    SameFrom top mem (mem.write64 addr value) := by
  intro a ha
  have hle : addr.toNat ≤ a.toNat := by omega
  have hsub : (a - addr).toNat = a.toNat - addr.toNat :=
    BitVec.toNat_sub_of_le (BitVec.le_def.mpr hle)
  rw [Memory.write64, hsub, if_neg (by omega)]

end Memory

/-- The suffix is the width of the operands. A jump has the index of the
instruction it goes to. -/
inductive Instr where
  | mov32 (dst src : Reg)
  | movImm32 (dst : Reg) (imm : BitVec 32)
  | movImm64 (dst : Reg) (imm : Word)
  | load8 (dst base : Reg)
  | lea32 (dst base : Reg) (disp : BitVec 32)
  | xor32 (dst src : Reg)
  | xor64 (dst src : Reg)
  | or32 (dst src : Reg)
  | add32 (dst src : Reg)
  | imul32 (dst src : Reg)
  | imul64 (dst src : Reg)
  | inc64 (dst : Reg)
  | dec32 (dst : Reg)
  | dec64 (dst : Reg)
  | shr32 (dst : Reg) (count : Nat)
  | shl32 (dst : Reg) (count : Nat)
  | andImm8 (dst : Reg) (imm : BitVec 8)
  | andImm32 (dst : Reg) (imm : BitVec 32)
  | bts32 (dst src : Reg)
  | test8 (dst src : Reg)
  | cmpImm8 (dst : Reg) (imm : BitVec 8)
  | cmpImm32 (dst : Reg) (imm : BitVec 32)
  | cmpImm64 (dst : Reg) (imm : Word)
  | push (src : Reg)
  | pop (dst : Reg)
  | jmp (target : Nat)
  | jcc (cond : Cond) (target : Nat)
  | call (target : Nat)
  | ret
  deriving DecidableEq, Repr

/-- One instruction; `next` is the address behind it. -/
def Instr.exec (address : Nat → Word) (next : Word) (s : State) : Instr → State
  | .mov32 dst src => (s.set32 dst (s.get32 src)).goto next
  | .movImm32 dst imm => (s.set32 dst imm).goto next
  | .movImm64 dst imm => (s.set64 dst imm).goto next
  | .load8 dst base => (s.set8 dst (s.mem (s.regs base))).goto next
  | .lea32 dst base disp => (s.set32 dst (s.get32 base + disp)).goto next
  | .xor32 dst src =>
      let value := s.get32 dst ^^^ s.get32 src
      ((s.set32 dst value).setFlags (.ofResult value)).goto next
  | .xor64 dst src =>
      let value := s.regs dst ^^^ s.regs src
      ((s.set64 dst value).setFlags (.ofResult value)).goto next
  | .or32 dst src =>
      let value := s.get32 dst ||| s.get32 src
      ((s.set32 dst value).setFlags (.ofResult value)).goto next
  | .add32 dst src =>
      ((s.set32 dst (s.get32 dst + s.get32 src)).setFlags
        (.ofAdd (s.get32 dst) (s.get32 src))).goto next
  | .imul32 dst src =>
      let overflow := (s.get32 dst).smulOverflow (s.get32 src)
      ((s.set32 dst (s.get32 dst * s.get32 src)).setFlags
        { s.flags with of := overflow }).goto next
  | .imul64 dst src =>
      let overflow := (s.regs dst).smulOverflow (s.regs src)
      ((s.set64 dst (s.regs dst * s.regs src)).setFlags
        { s.flags with of := overflow }).goto next
  | .inc64 dst =>
      ((s.set64 dst (s.regs dst + 1)).setFlags (.ofAdd (s.regs dst) 1)).goto next
  | .dec32 dst =>
      ((s.set32 dst (s.get32 dst - 1)).setFlags (.ofSub (s.get32 dst) 1)).goto next
  | .dec64 dst =>
      ((s.set64 dst (s.regs dst - 1)).setFlags (.ofSub (s.regs dst) 1)).goto next
  | .shr32 dst count =>
      let count := count % 32
      let value := s.get32 dst >>> count
      -- `of` is defined for a shift by one only, and is set as for that one
      if count = 0 then (s.set32 dst value).goto next
      else ((s.set32 dst value).setFlags
        ⟨value == 0, value.msb, (s.get32 dst).msb⟩).goto next
  | .shl32 dst count =>
      let count := count % 32
      let value := s.get32 dst <<< count
      if count = 0 then (s.set32 dst value).goto next
      else ((s.set32 dst value).setFlags
        ⟨value == 0, value.msb, value.msb != (s.get32 dst).msb⟩).goto next
  | .andImm8 dst imm =>
      let value := s.get8 dst &&& imm
      ((s.set8 dst value).setFlags (.ofResult value)).goto next
  | .andImm32 dst imm =>
      let value := s.get32 dst &&& imm
      ((s.set32 dst value).setFlags (.ofResult value)).goto next
  | .bts32 dst src =>
      (s.set32 dst (s.get32 dst ||| 1#32 <<< ((s.get32 src).toNat % 32))).goto next
  | .test8 dst src => (s.setFlags (.ofResult (s.get8 dst &&& s.get8 src))).goto next
  | .cmpImm8 dst imm => (s.setFlags (.ofSub (s.get8 dst) imm)).goto next
  | .cmpImm32 dst imm => (s.setFlags (.ofSub (s.get32 dst) imm)).goto next
  | .cmpImm64 dst imm => (s.setFlags (.ofSub (s.regs dst) imm)).goto next
  | .push src => (s.push (s.regs src)).goto next
  | .pop dst => (s.drop.set64 dst s.top).goto next
  | .jmp target => s.goto (address target)
  | .jcc cond target => s.goto (if cond.holds s.flags then address target else next)
  | .call target => (s.push next).goto (address target)
  | .ret => s.drop.goto s.top

/-- The registers that an instruction may change. -/
def Instr.writes : Instr → List Reg
  | .mov32 dst _ | .movImm32 dst _ | .movImm64 dst _ | .load8 dst _ | .lea32 dst _ _
  | .xor32 dst _ | .xor64 dst _ | .or32 dst _ | .add32 dst _ | .imul32 dst _ | .imul64 dst _
  | .inc64 dst | .dec32 dst | .dec64 dst | .shr32 dst _ | .shl32 dst _ | .andImm8 dst _
  | .andImm32 dst _ | .bts32 dst _ => [dst]
  | .test8 _ _ | .cmpImm8 _ _ | .cmpImm32 _ _ | .cmpImm64 _ _ | .jmp _ | .jcc _ _ => []
  | .push _ | .call _ | .ret => [.rsp]
  | .pop dst => [.rsp, dst]

theorem Instr.exec_keeps (instr : Instr) (address : Nat → Word) (next : Word) (s : State) :
    State.Keeps instr.writes s (instr.exec address next s) := by
  intro r hr
  cases instr with
  | shr32 dst count | shl32 dst count =>
      simp only [writes, List.mem_singleton] at hr
      simp only [exec]
      split <;> simp [hr]
  | _ => simp_all [writes, exec, State.set8]

/-- The instruction behind is the next one to run. -/
def Instr.straight : Instr → Bool
  | .jmp _ | .jcc _ _ | .call _ | .ret => false
  | _ => true

theorem Instr.exec_rip {instr : Instr} (h : instr.straight = true) (address : Nat → Word)
    (next : Word) (s : State) : (instr.exec address next s).rip = next := by
  cases instr with
  | jmp _ | jcc _ _ | call _ | ret => cases h
  | shr32 dst count | shl32 dst count =>
      simp only [exec]
      split <;> rfl
  | _ => rfl

structure Code where
  instrs : List Instr
  address : Nat → Word
  distinct : ∀ i < instrs.length, ∀ j < instrs.length, address i = address j → i = j

namespace Code

variable {code : Code} {s t : State} {i : Nat} {instr : Instr}

def indexAt (code : Code) (rip : Word) : Option Nat :=
  (List.range code.instrs.length).find? fun i => code.address i == rip

def step (code : Code) (s : State) : Option State := do
  let i ← code.indexAt s.rip
  let instr ← code.instrs[i]?
  return instr.exec code.address (code.address (i + 1)) s

abbrev Reaches (code : Code) : State → State → Prop := StateTransition.Reaches code.step

theorem indexAt_address (hi : i < code.instrs.length) :
    code.indexAt (code.address i) = some i := by
  rw [indexAt, List.find?_range_eq_some]
  refine ⟨by simp, List.mem_range.mpr hi, fun j hj => ?_⟩
  have hne : code.address j ≠ code.address i :=
    fun heq => Nat.ne_of_lt hj (code.distinct j (hj.trans hi) i hi heq)
  simpa using hne

theorem step_eq (hrip : s.rip = code.address i) (hinstr : code.instrs[i]? = some instr) :
    code.step s = some (instr.exec code.address (code.address (i + 1)) s) := by
  have hi : i < code.instrs.length := (List.getElem?_eq_some_iff.mp hinstr).1
  simp only [step, hrip, indexAt_address hi, hinstr, Option.bind_eq_bind, Option.bind_some,
    Option.pure_def]

/-- The first step of a run, at the instruction with index `i`. -/
theorem Reaches.head {instrs : List Instr} (hcode : code.instrs = instrs)
    (hrip : s.rip = code.address i) (hinstr : instrs[i]? = some instr)
    (h : code.Reaches (instr.exec code.address (code.address (i + 1)) s) t) :
    code.Reaches s t :=
  Relation.ReflTransGen.head (step_eq hrip (hcode ▸ hinstr)) h

/-- Instructions run one after the other, from the one with index `i` on. -/
def execBlock (code : Code) : (i : Nat) → List Instr → State → State
  | _, [], s => s
  | i, instr :: rest, s =>
      code.execBlock (i + 1) rest (instr.exec code.address (code.address (i + 1)) s)

theorem Reaches.refl : code.Reaches s s := Relation.ReflTransGen.refl

theorem Reaches.trans {u : State} (h : code.Reaches s t) (h' : code.Reaches t u) :
    code.Reaches s u :=
  Relation.ReflTransGen.trans h h'

/-- A block of which the last instruction alone may jump. -/
theorem Reaches.block {instrs : List Instr} (hcode : code.instrs = instrs)
    (hrip : s.rip = code.address i) (block : List Instr) (hblock : block <+: instrs.drop i)
    (hstraight : block.dropLast.all Instr.straight = true) :
    code.Reaches s (code.execBlock i block s) := by
  induction block generalizing i s with
  | nil => exact .refl
  | cons instr rest ih =>
      obtain ⟨after, hdrop⟩ := hblock
      have hinstr : instrs[i]? = some instr := by
        rw [← List.head?_drop, ← hdrop]
        rfl
      apply Reaches.head hcode hrip hinstr
      cases rest with
      | nil => exact .refl
      | cons next rest =>
          rw [List.dropLast_cons_cons, List.all_cons, Bool.and_eq_true] at hstraight
          refine ih (Instr.exec_rip hstraight.1 ..) ⟨after, ?_⟩ hstraight.2
          rw [← List.drop_drop, ← hdrop]
          rfl

theorem step_cases (h : code.step s = some t) :
    ∃ i, ∃ instr ∈ code.instrs,
      t = instr.exec code.address (code.address (i + 1)) s := by
  obtain ⟨i, -, h⟩ := Option.bind_eq_some_iff.mp h
  obtain ⟨instr, hinstr, h⟩ := Option.bind_eq_some_iff.mp h
  cases h
  exact ⟨i, instr, List.mem_of_getElem? hinstr, rfl⟩

/-- Registers that no instruction of the code writes keep their values over
any run. -/
theorem Reaches.keeps {regs : List Reg} (h : code.Reaches s t)
    (hwrites : ∀ instr ∈ code.instrs, ∀ r ∈ instr.writes, r ∈ regs) :
    State.Keeps regs s t := by
  induction h with
  | refl => exact fun _ _ => rfl
  | @tail u _ _ hstep ih =>
      obtain ⟨i, instr, hinstr, rfl⟩ := step_cases hstep
      intro r hr
      have hkept := instr.exec_keeps code.address (code.address (i + 1)) u r
        fun hwritten => hr (hwrites instr hinstr r hwritten)
      exact hkept.trans (ih r hr)

/-- The code has been called at an instruction, from outside. -/
structure Called (code : Code) (entry : Nat) (s : State) : Prop where
  rip : s.rip = code.address entry
  outside : ∀ i < code.instrs.length, code.address i ≠ s.top

/-- What a call leaves in `eax`, if it returns. -/
def returned (code : Code) (s : State) : Part (BitVec 32) :=
  (StateTransition.eval code.step s).map fun t => t.get32 .rax

theorem step_outside (h : ∀ i < code.instrs.length, code.address i ≠ s.rip) :
    code.step s = none := by
  have hnone : code.indexAt s.rip = none := by
    rw [indexAt, List.find?_range_eq_none]
    intro i hi
    simpa using h i hi
  rw [step, hnone]
  rfl

theorem Called.returned_eq {entry : Nat} (h : code.Called entry s) (hreach : code.Reaches s t)
    (hrip : t.rip = s.top) : code.returned s = Part.some (t.get32 .rax) := by
  have hstop : code.step t = none := step_outside (hrip ▸ h.outside)
  have heval : t ∈ StateTransition.eval code.step s :=
    StateTransition.mem_eval.mpr ⟨hreach, hstop⟩
  rw [returned, Part.eq_some_iff.mpr heval, Part.map_some]

def fromOne (instrs : List Instr) (h : instrs.length < 2 ^ 32) : Code where
  instrs := instrs
  address i := BitVec.ofNat 64 (i + 1)
  distinct := by
    intro i hi j hj heq
    have hnat := congrArg BitVec.toNat heq
    rw [BitVec.toNat_ofNat, BitVec.toNat_ofNat] at hnat
    omega

end Code

/-- A call of code from address 1 on, with one argument, a stack and the
return address that the memory has there. -/
def State.calling (arg : Word) (mem : Memory) : State where
  regs
    | .rdi => arg
    | .rsp => 65536
    | _ => 0
  flags := ⟨false, false, false⟩
  mem := mem
  rip := 1

/-- A call from address 0. -/
theorem Code.fromOne_called {instrs : List Instr} (h : instrs.length < 2 ^ 32)
    {arg : Word} {mem : Memory} (htop : mem.read64 65536 = 0) :
    (Code.fromOne instrs h).Called 0 (.calling arg mem) where
  rip := rfl
  outside := by
    intro i hi heq
    have hnat := congrArg BitVec.toNat heq
    rw [State.top, State.calling, htop, Code.fromOne, BitVec.toNat_ofNat] at hnat
    change i < instrs.length at hi
    simp at hnat
    omega

end CsPrimer.Foundation.X86
