import CsPrimer.Foundation.Letters

/-!
The fast pangram test and the one it is to be as good as, `find_pangrams.py`.
The mask of the fast one ends with the bit of the letter y.
-/

namespace CsPrimer.FastPangram

open Foundation.Letters

def mask : BitVec 32 := 0x03fffffe

/-- `ispangram`; the list is the string up to its NUL, and `char` is signed. -/
def ispangram (s : List Byte) : Bool :=
  collectUntil (fun ch => ch.sle 0x40) (fun bits ch => bits ||| 1#32 <<< (ch &&& 0x1f).toNat)
    (fun bits => mask == bits &&& mask) s 0

/-- `set(ch for ch in phrase.lower() if ch.isalpha())` -/
def letters (phrase : List Char) : Finset Char :=
  ((phrase.map Char.toLower).filter Char.isAlpha).toFinset

def isPangram (phrase : List Char) : Bool := (letters phrase).card == 26

/-- A line of ASCII characters, without a NUL. -/
structure Line where
  chars : List Char
  ascii : ∀ c ∈ chars, 0 < c.toNat ∧ c.toNat < 128

/-- The line as the program in C has it. -/
def Line.bytes (line : Line) : List Byte :=
  line.chars.map fun c => BitVec.ofNat 8 c.toNat

variable {line : Line} {c : Char} {i : Nat}

/-- The bits of a to y only. -/
theorem mask_isMask : IsMask 25 mask := by decide

theorem ispangram_iff (s : List Byte) : ispangram s = true ↔ HasLetters 25 s := by
  refine collectUntil_iff (s := []) ?_ ?_ ?_ marks_nil ?_
  · intro c hc i hi
    exact not_isLetter_of_low c hc i (by omega)
  · intro bits s c hmarks hc
    rw [low_bits]
    exact hmarks.add (by decide) (slt_of_not_sle hc)
  · intro bits c s hmarks
    rw [← hmarks.covers_iff (by decide) mask_isMask, beq_iff_eq, eq_comm]
  · intro hall
    obtain ⟨c, hc, -⟩ := hall 0 (by decide)
    cases hc

def lowerLetter (i : Nat) : Char := Char.ofNat (0x61 + i)

def alphabet : Finset Char := ((List.range 26).map lowerLetter).toFinset

theorem toLower_iff : ∀ code < 128, ∀ i < 26,
    ((Char.ofNat code).toLower = lowerLetter i ↔ IsLetter (BitVec.ofNat 8 code) i) := by
  decide +kernel

theorem toLower_mem_alphabet : ∀ code < 128, (Char.ofNat code).toLower.isAlpha = true →
    (Char.ofNat code).toLower ∈ alphabet := by
  decide +kernel

theorem lowerLetter_isAlpha : ∀ i < 26, (lowerLetter i).isAlpha = true := by
  decide +kernel

theorem lowerLetter_ascii :
    ∀ i < 26, 0 < (lowerLetter i).toNat ∧ (lowerLetter i).toNat < 128 := by
  decide +kernel

theorem mem_letters {phrase : List Char} :
    c ∈ letters phrase ↔ ∃ d ∈ phrase, d.toLower = c ∧ c.isAlpha = true := by
  simp only [letters, List.mem_toFinset, List.mem_filter, List.mem_map]
  constructor
  · rintro ⟨⟨d, hd, hlower⟩, halpha⟩
    exact ⟨d, hd, hlower, halpha⟩
  · rintro ⟨d, hd, hlower, halpha⟩
    exact ⟨⟨d, hd, hlower⟩, halpha⟩

theorem letters_subset (line : Line) : letters line.chars ⊆ alphabet := by
  intro c hc
  obtain ⟨d, hd, rfl, halpha⟩ := mem_letters.mp hc
  have hmem := toLower_mem_alphabet d.toNat (line.ascii d hd).2
  rw [Char.ofNat_toNat] at hmem
  exact hmem halpha

theorem lowerLetter_mem_iff (hi : i < 26) :
    lowerLetter i ∈ letters line.chars ↔ HasLetter line.bytes i := by
  have hletter : ∀ d ∈ line.chars,
      (d.toLower = lowerLetter i ↔ IsLetter (BitVec.ofNat 8 d.toNat) i) := by
    intro d hd
    have hcode := toLower_iff d.toNat (line.ascii d hd).2 i hi
    rwa [Char.ofNat_toNat] at hcode
  rw [mem_letters]
  constructor
  · rintro ⟨d, hd, hlower, -⟩
    exact ⟨_, List.mem_map_of_mem hd, (hletter d hd).mp hlower⟩
  · rintro ⟨b, hb, his⟩
    obtain ⟨d, hd, rfl⟩ := List.mem_map.mp hb
    exact ⟨d, hd, (hletter d hd).mpr his, lowerLetter_isAlpha i hi⟩

theorem isPangram_iff (line : Line) :
    isPangram line.chars = true ↔ HasLetters 26 line.bytes := by
  have hcard : alphabet.card = 26 := by decide +kernel
  have hsubset := letters_subset line
  rw [isPangram, beq_iff_eq]
  constructor
  · intro h i hi
    have heq : letters line.chars = alphabet :=
      Finset.eq_of_subset_of_card_le hsubset (by omega)
    rw [← lowerLetter_mem_iff hi, heq, alphabet, List.mem_toFinset]
    exact List.mem_map_of_mem (List.mem_range.mpr hi)
  · intro hall
    have hsuperset : alphabet ⊆ letters line.chars := by
      intro c hc
      obtain ⟨i, hi, rfl⟩ := List.mem_map.mp (List.mem_toFinset.mp hc)
      have hlt := List.mem_range.mp hi
      exact (lowerLetter_mem_iff hlt).mpr (hall i hlt)
    rw [hsubset.antisymm hsuperset, hcard]

/-- For every line: the tests agree unless z is the one letter that is not
there. -/
theorem fast_pangram_same_iff (line : Line) :
    (isPangram line.chars = true ↔ HasLetters 26 line.bytes) ∧
      (ispangram line.bytes = isPangram line.chars ↔
        HasLetter line.bytes 25 ∨ ¬ HasLetters 25 line.bytes) := by
  have hlast : HasLetters 26 line.bytes ↔
      HasLetters 25 line.bytes ∧ HasLetter line.bytes 25 := Nat.forall_lt_succ_right
  refine ⟨isPangram_iff line, ?_⟩
  rw [Bool.eq_iff_iff, ispangram_iff, isPangram_iff, hlast]
  tauto

def withoutZ : Line where
  chars := (List.range 25).map lowerLetter
  ascii := by
    intro c hc
    obtain ⟨i, hi, rfl⟩ := List.mem_map.mp hc
    have hlt := List.mem_range.mp hi
    exact lowerLetter_ascii i (by omega)

theorem without_z_differs :
    ispangram withoutZ.bytes = true ∧ isPangram withoutZ.chars = false := by
  decide +kernel

end CsPrimer.FastPangram
