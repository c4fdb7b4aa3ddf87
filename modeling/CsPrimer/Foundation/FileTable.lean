import Mathlib.Logic.Function.Basic
import Mathlib.Tactic

/-!
Descriptor tables. A table says which open file a descriptor stands for;
`close` and `dup2` fail on a descriptor that is not open. What they leave in a
table was in it before, so a table that goes through them holds no new file.
-/

namespace CsPrimer.Foundation

abbrev FileTable (File : Type*) := Nat → Option File

namespace FileTable

variable {File : Type*}

def close (table : FileTable File) (fd : Nat) : Option (FileTable File) :=
  match table fd with
  | none => none
  | some _ => some (Function.update table fd none)

def dup2 (table : FileTable File) (old new : Nat) : Option (FileTable File) :=
  match table old with
  | none => none
  | some _ => some (Function.update table new (table old))

/-- The files of a table, whatever their descriptors. -/
def Holds (table : FileTable File) (file : File) : Prop :=
  ∃ fd, table fd = some file

variable {table next : FileTable File} {file : File} {fd old new : Nat}

theorem close_eq (h : table.close fd = some next) :
    next = Function.update table fd none := by
  unfold close at h
  split at h
  · cases h
  · exact (Option.some.inj h).symm

theorem dup2_eq (h : table.dup2 old new = some next) :
    next = Function.update table new (table old) := by
  unfold dup2 at h
  split at h
  · cases h
  · exact (Option.some.inj h).symm

theorem close_of_open (h : table fd = some file) :
    table.close fd = some (Function.update table fd none) := by
  simp only [close, h]

theorem dup2_of_open (h : table old = some file) :
    table.dup2 old new = some (Function.update table new (table old)) := by
  simp only [dup2, h]

theorem close_ne_none (h : table fd ≠ none) : table.close fd ≠ none := by
  obtain ⟨file, hfile⟩ := Option.ne_none_iff_exists'.mp h
  rw [close_of_open hfile]
  exact Option.some_ne_none _

theorem dup2_ne_none (h : table old ≠ none) : table.dup2 old new ≠ none := by
  obtain ⟨file, hfile⟩ := Option.ne_none_iff_exists'.mp h
  rw [dup2_of_open hfile]
  exact Option.some_ne_none _

theorem holds_of_update_none (h : Holds (Function.update table fd none) file) :
    table.Holds file := by
  obtain ⟨other, hother⟩ := h
  rcases eq_or_ne other fd with rfl | hne
  · rw [Function.update_self] at hother
    cases hother
  · rw [Function.update_of_ne hne] at hother
    exact ⟨other, hother⟩

theorem holds_of_update_copy
    (h : Holds (Function.update table new (table old)) file) : table.Holds file := by
  obtain ⟨other, hother⟩ := h
  rcases eq_or_ne other new with rfl | hne
  · rw [Function.update_self] at hother
    exact ⟨old, hother⟩
  · rw [Function.update_of_ne hne] at hother
    exact ⟨other, hother⟩

theorem not_holds_empty : ¬ Holds (fun _ => none) file := by
  rintro ⟨fd, hfd⟩
  cases hfd

end FileTable

end CsPrimer.Foundation
