import Mathlib.Tactic

/-!
Sets of the letters of a text as bits of a word: the bit of a letter is the
low five bits of its code, in either case. A loop may collect all letters and
look at the set once, or look at it after every letter and stop early.
-/

namespace CsPrimer.Foundation.Letters

abbrev Byte := BitVec 8

/-- The letter with number `i` of the alphabet, from 0 on, in lower or upper
case. -/
def IsLetter (c : Byte) (i : Nat) : Prop :=
  c = BitVec.ofNat 8 (0x61 + i) ∨ c = BitVec.ofNat 8 (0x41 + i)

instance (c : Byte) (i : Nat) : Decidable (IsLetter c i) :=
  inferInstanceAs (Decidable (_ ∨ _))

def HasLetter (s : List Byte) (i : Nat) : Prop := ∃ c ∈ s, IsLetter c i

/-- The first `k` letters of the alphabet are all there. -/
def HasLetters (k : Nat) (s : List Byte) : Prop := ∀ i < k, HasLetter s i

def isLetter (c : Byte) : Bool := (List.range 26).any fun i => IsLetter c i

/-- The bits are those of the letters of the text. -/
def Marks (k : Nat) (bits : BitVec 32) (s : List Byte) : Prop :=
  ∀ i < k, (bits.getLsbD (i + 1) = true ↔ HasLetter s i)

def IsMask (k : Nat) (mask : BitVec 32) : Prop :=
  ∀ j < 32, mask.getLsbD j = decide (1 ≤ j ∧ j ≤ k)

instance (k : Nat) (mask : BitVec 32) : Decidable (IsMask k mask) :=
  inferInstanceAs (Decidable (∀ j < 32, _))

variable {k i : Nat} {c : Byte} {s rest : List Byte} {bits mask : BitVec 32}

theorem hasLetter_append : HasLetter (s ++ rest) i ↔ HasLetter s i ∨ HasLetter rest i := by
  simp only [HasLetter, List.mem_append, or_and_right, exists_or]

theorem hasLetter_singleton : HasLetter [c] i ↔ IsLetter c i := by
  simp [HasLetter]

theorem HasLetters.append (h : HasLetters k s) : HasLetters k (s ++ rest) :=
  fun i hi => hasLetter_append.mpr (.inl (h i hi))

/-- Other characters do not count. -/
theorem hasLetters_filter (hk : k ≤ 26) :
    HasLetters k (s.filter isLetter) ↔ HasLetters k s := by
  apply forall₂_congr
  intro i hi
  constructor
  · rintro ⟨c, hc, hletter⟩
    exact ⟨c, (List.mem_filter.mp hc).1, hletter⟩
  · rintro ⟨c, hc, hletter⟩
    refine ⟨c, List.mem_filter.mpr ⟨hc, ?_⟩, hletter⟩
    exact List.any_eq_true.mpr ⟨i, List.mem_range.mpr (by omega), by simpa using hletter⟩

/-- Characters below the letters, those of a negative code among them. -/
theorem not_isLetter_of_low : ∀ c : Byte, c.sle 0x40 = true → ∀ i < 26, ¬ IsLetter c i := by
  decide +kernel

/-- Above them the low five bits tell the letter. -/
theorem isLetter_iff_bit :
    ∀ c : Byte, c.slt 0x40 = false → ∀ i < 26, (IsLetter c i ↔ c.toNat % 32 = i + 1) := by
  decide +kernel

theorem sle_of_slt (hc : c.slt 0x40 = true) : c.sle 0x40 = true := by
  rw [BitVec.slt_iff_toInt_lt] at hc
  rw [BitVec.sle_iff_toInt_le]
  omega

theorem slt_of_not_sle (hc : c.sle 0x40 = false) : c.slt 0x40 = false := by
  cases hlow : c.slt 0x40 with
  | false => rfl
  | true => cases hc.symm.trans (sle_of_slt hlow)

theorem low_bits (c : Byte) : (c &&& 0x1f).toNat = c.toNat % 32 := by
  rw [BitVec.toNat_and]
  exact Nat.and_two_pow_sub_one_eq_mod c.toNat 5

theorem marks_nil : Marks k 0 [] := by
  intro i _
  simp [HasLetter]

/-- A character that is no letter may be skipped. -/
theorem Marks.skip (h : Marks k bits s) (hskip : ∀ i < k, ¬ IsLetter c i) :
    Marks k bits (s ++ [c]) := by
  intro i hi
  rw [h i hi, hasLetter_append, hasLetter_singleton, or_iff_left (hskip i hi)]

/-- The bit of a character is set. -/
theorem Marks.add (h : Marks k bits s) (hk : k ≤ 26) (hc : c.slt 0x40 = false) :
    Marks k (bits ||| 1#32 <<< (c.toNat % 32)) (s ++ [c]) := by
  intro i hi
  have hbit : (1#32 <<< (c.toNat % 32)).getLsbD (i + 1) = true ↔ IsLetter c i := by
    have hlt : i + 1 < 32 := by omega
    rw [isLetter_iff_bit c hc i (by omega)]
    simp [hlt]
    omega
  rw [BitVec.getLsbD_or, Bool.or_eq_true, h i hi, hbit, hasLetter_append,
    hasLetter_singleton]

theorem Marks.and_mask (h : Marks k bits s) (hk : k ≤ 26) (hmask : IsMask k mask) :
    Marks k (bits &&& mask) s := by
  intro i hi
  have hbit : mask.getLsbD (i + 1) = true := by
    rw [hmask (i + 1) (by omega)]
    simpa using hi
  rw [BitVec.getLsbD_and, hbit, Bool.and_true, h i hi]

/-- All letters are there when the bits cover the mask. -/
theorem Marks.covers_iff (h : Marks k bits s) (hk : k ≤ 26) (hmask : IsMask k mask) :
    bits &&& mask = mask ↔ HasLetters k s := by
  constructor
  · intro hcover i hi
    have hbit := h.and_mask hk hmask i hi
    rw [hcover, hmask (i + 1) (by omega)] at hbit
    exact hbit.mp (by simpa using hi)
  · intro hall
    apply BitVec.eq_of_getLsbD_eq
    intro j hj
    rw [BitVec.getLsbD_and, hmask j hj, Bool.and_eq_right_iff_imp]
    intro hrange
    obtain ⟨hpos, hle⟩ := of_decide_eq_true hrange
    obtain ⟨i, rfl⟩ := Nat.exists_eq_add_of_le' hpos
    exact (h i (by omega)).mpr (hall i (by omega))

/-- A loop that collects until it is done. -/
def collectUntil (skip : Byte → Bool) (add : BitVec 32 → Byte → BitVec 32)
    (done : BitVec 32 → Bool) : List Byte → BitVec 32 → Bool
  | [], _ => false
  | c :: s, bits =>
      if skip c then collectUntil skip add done s bits
      else if done (add bits c) then true
      else collectUntil skip add done s (add bits c)

/-- It does not matter that the loop stops early: no letter gets lost. The
invariant is that the bits are those of the text read so far. -/
theorem collectUntil_iff {skip : Byte → Bool} {add : BitVec 32 → Byte → BitVec 32}
    {done : BitVec 32 → Bool}
    (hskip : ∀ c, skip c = true → ∀ i < k, ¬ IsLetter c i)
    (hadd : ∀ bits s c, Marks k bits s → skip c = false → Marks k (add bits c) (s ++ [c]))
    (hdone : ∀ bits c s, Marks k (add bits c) s → (done (add bits c) = true ↔ HasLetters k s))
    (hmarks : Marks k bits s) (hnot : ¬ HasLetters k s) :
    collectUntil skip add done rest bits = true ↔ HasLetters k (s ++ rest) := by
  induction rest generalizing bits s with
  | nil => simpa [collectUntil] using hnot
  | cons c rest ih =>
      have happend : s ++ c :: rest = (s ++ [c]) ++ rest := by simp
      rw [collectUntil, happend]
      cases hc : skip c with
      | true =>
          rw [if_pos rfl]
          have hnone : ¬ HasLetters k (s ++ [c]) := by
            intro hall
            apply hnot
            intro i hi
            have hletter := hall i hi
            rwa [hasLetter_append, hasLetter_singleton, or_iff_left (hskip c hc i hi)]
              at hletter
          exact ih (hmarks.skip (hskip c hc)) hnone
      | false =>
          have hmarks' := hadd bits s c hmarks hc
          rw [if_neg Bool.false_ne_true]
          split
          · rename_i hall
            exact iff_of_true rfl ((hdone bits c _ hmarks').mp hall).append
          · rename_i hmore
            exact ih hmarks' (mt (hdone bits c _ hmarks').mpr hmore)

end CsPrimer.Foundation.Letters
