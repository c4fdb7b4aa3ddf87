import Mathlib.Data.Finset.Card
import Mathlib.Data.Finset.Image
import Mathlib.Tactic

/-!
The values a sequence takes on an initial segment. Probe chains are such
sets: they grow one position at a time, so two of them are always nested and
their sizes decide which contains which.
-/

namespace CsPrimer.Foundation

variable {α : Type*} [DecidableEq α] {f : Nat → α} {i j bound : Nat}

/-- The values of `f` below `j`; repeated values count once. -/
def visited (f : Nat → α) (j : Nat) : Finset α := (Finset.range j).image f

@[simp]
theorem mem_visited {a : α} : a ∈ visited f j ↔ ∃ i < j, f i = a := by
  simp [visited]

theorem visited_mono (h : i ≤ j) : visited f i ⊆ visited f j :=
  Finset.image_subset_image (Finset.range_subset_range.mpr h)

theorem card_visited_le : (visited f j).card ≤ j := by
  simpa [visited] using Finset.card_image_le (s := Finset.range j) (f := f)

/-- Initial segments are nested, so the smaller one is contained. -/
theorem visited_subset_of_card_le
    (hcard : (visited f i).card ≤ (visited f j).card) :
    visited f i ⊆ visited f j := by
  rcases Nat.le_total i j with h | h
  · exact visited_mono h
  · exact (Finset.eq_of_subset_of_card_le (visited_mono h) hcard).ge

/-- A strictly larger initial segment reaches the next position. -/
theorem lt_of_card_visited_lt
    (hcard : (visited f i).card < (visited f j).card) : i < j := by
  by_contra hle
  have hsubset : visited f j ⊆ visited f i := visited_mono (by omega)
  have := Finset.card_le_card hsubset
  omega

/-- A finite set all of whose members are reached through members is an
initial segment, and the segment stops at the first non-member. -/
theorem exists_visited_eq (S : Finset α)
    (hreach : ∀ a ∈ S, ∃ j ≤ bound, f j = a ∧ ∀ i < j, f i ∈ S) :
    ∃ j ≤ bound + 1, S = visited f j ∧ (j ≤ bound → f j ∉ S) := by
  by_cases hall : ∀ j ≤ bound, f j ∈ S
  · refine ⟨bound + 1, le_rfl, ?_, fun h => absurd h (by omega)⟩
    ext a
    constructor
    · intro ha
      obtain ⟨j, hj, hja, -⟩ := hreach a ha
      exact mem_visited.mpr ⟨j, by omega, hja⟩
    · intro ha
      obtain ⟨j, hj, rfl⟩ := mem_visited.mp ha
      exact hall j (by omega)
  · push Not at hall
    have hfirst := Nat.find_spec hall
    have hbefore : ∀ i < Nat.find hall, f i ∈ S := by
      intro i hi
      by_contra hmem
      exact Nat.find_min hall hi ⟨by omega, hmem⟩
    refine ⟨Nat.find hall, by omega, ?_, fun _ => hfirst.2⟩
    ext a
    constructor
    · intro ha
      obtain ⟨j, hj, rfl, hearlier⟩ := hreach a ha
      refine mem_visited.mpr ⟨j, ?_, rfl⟩
      rcases Nat.lt_trichotomy j (Nat.find hall) with hlt | heq | hgt
      · exact hlt
      · exact absurd (heq ▸ ha) hfirst.2
      · exact absurd (hearlier _ hgt) hfirst.2
    · intro ha
      obtain ⟨j, hj, rfl⟩ := mem_visited.mp ha
      exact hbefore j hj

end CsPrimer.Foundation
