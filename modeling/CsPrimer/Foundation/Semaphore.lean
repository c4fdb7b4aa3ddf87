import Mathlib.Tactic

/-!
POSIX semaphores by their value.
-/

namespace CsPrimer.Foundation

variable {value left raised : Nat}

def semValueMax : Nat := 2 ^ 31 - 1

/-- `sem_init` takes an `unsigned int` and fails above `SEM_VALUE_MAX`. -/
def semInit (value : Nat) : Option Nat :=
  if value % 2 ^ 32 ≤ semValueMax then some (value % 2 ^ 32) else none

/-- `sem_wait`; `none` while it blocks. -/
def semWait (value : Nat) : Option Nat :=
  if value = 0 then none else some (value - 1)

/-- `sem_post`; `none` when it fails with `EOVERFLOW`. -/
def semPost (value : Nat) : Option Nat :=
  if value < semValueMax then some (value + 1) else none

theorem semInit_cases {initial : Nat} (h : semInit value = some initial) :
    initial = value % 2 ^ 32 ∧ initial ≤ semValueMax := by
  unfold semInit at h
  split at h
  · cases h
    exact ⟨rfl, ‹_›⟩
  · cases h

theorem semWait_eq (h : semWait value = some left) : value = left + 1 := by
  unfold semWait at h
  split at h
  · cases h
  · cases h
    omega

theorem semWait_eq_none (h : semWait value = none) : value = 0 := by
  unfold semWait at h
  split at h
  · assumption
  · cases h

theorem semPost_eq (h : semPost value = some raised) : raised = value + 1 := by
  unfold semPost at h
  split at h
  · cases h
    rfl
  · cases h

end CsPrimer.Foundation
