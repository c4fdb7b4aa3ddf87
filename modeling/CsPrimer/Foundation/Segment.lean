import Mathlib.Data.List.Sort
import Mathlib.Order.Interval.Set.Basic
import Mathlib.Tactic

/-!
Stretches of a memory addressed by numbers, as lists, and what it means to
sort one in place.
-/

namespace CsPrimer.Foundation

variable {V : Type*}

def segment (mem : Nat → V) (start : Nat) : Nat → List V
  | 0 => []
  | count + 1 => mem start :: segment mem (start + 1) count

variable {mem mem' : Nat → V} {start count : Nat}

@[simp] theorem segment_zero : segment mem start 0 = [] := rfl

@[simp] theorem segment_succ :
    segment mem start (count + 1) =
      mem start :: segment mem (start + 1) count := rfl

@[simp] theorem segment_length : (segment mem start count).length = count := by
  induction count generalizing start with
  | zero => rfl
  | succ count ih => simp [ih]

theorem segment_add (mem : Nat → V) (start count more : Nat) :
    segment mem start (count + more) =
      segment mem start count ++ segment mem (start + count) more := by
  induction count generalizing start with
  | zero => simp
  | succ count ih =>
      rw [Nat.add_right_comm, segment_succ, segment_succ, ih, List.cons_append,
        Nat.add_assoc, Nat.add_comm 1 count]

/-- Stretches with the same values, at different places. -/
theorem segment_shift {start' : Nat}
    (h : ∀ k, k < count → mem (start + k) = mem' (start' + k)) :
    segment mem start count = segment mem' start' count := by
  induction count generalizing start start' with
  | zero => rfl
  | succ count ih =>
      have hfirst := h 0 (Nat.succ_pos count)
      simp only [Nat.add_zero] at hfirst
      rw [segment_succ, segment_succ, hfirst, ih]
      intro k hk
      rw [Nat.add_assoc, Nat.add_assoc, Nat.add_comm 1 k]
      exact h (k + 1) (by omega)

theorem segment_congr
    (h : ∀ addr, start ≤ addr → addr < start + count →
      mem addr = mem' addr) :
    segment mem start count = segment mem' start count := by
  apply segment_shift
  intro k hk
  exact h (start + k) (by omega) (by omega)

/-- A nonempty stretch starts with its first value. -/
theorem segment_pos (h : 0 < count) :
    segment mem start count =
      mem start :: segment mem (start + 1) (count - 1) := by
  obtain ⟨rest, rfl⟩ := Nat.exists_eq_succ_of_ne_zero h.ne'
  rfl

structure SortedPermutation [LE V] (before after : Nat → V)
    (start count : Nat) : Prop where
  sorted : (segment after start count).Pairwise (· ≤ ·)
  perm : (segment after start count).Perm (segment before start count)

structure SortedInPlace [LE V] (before after : Nat → V) (start count : Nat) :
    Prop extends SortedPermutation before after start count where
  frame : ∀ addr, addr ∉ Set.Ico start (start + count) →
    after addr = before addr

/-- Fewer than two values are sorted. -/
theorem SortedInPlace.of_short [LE V] (hcount : count < 2) (mem : Nat → V) :
    SortedInPlace mem mem start count where
  sorted := by
    rcases count with _ | _ | count
    · exact List.Pairwise.nil
    · exact List.pairwise_singleton _ _
    · omega
  perm := List.Perm.refl _
  frame := fun _ _ => rfl

end CsPrimer.Foundation
