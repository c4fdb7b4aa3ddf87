import Mathlib.Tactic

/-!
Mutual exclusion by control point. A mutex protects a section when it is owned
exactly by the thread that is inside.
-/

namespace CsPrimer.Foundation

variable {Thread Point : Type*} {inside : Point → Bool}
  {pc : Thread → Point} {mutex : Option Thread} {thread other : Thread}
  {old old' point : Point}

/-- The owner of the mutex is the one thread inside the section. -/
def Owned (inside : Point → Bool) (pc : Thread → Point)
    (mutex : Option Thread) : Prop :=
  ∀ thread, inside (pc thread) = true ↔ mutex = some thread

theorem Owned.free (houtside : ∀ thread, inside (pc thread) = false) : Owned inside pc none := by
  intro thread
  rw [houtside thread]
  simp

theorem Owned.unique (h : Owned inside pc mutex) (hpc : pc thread = old)
    (hpc' : pc other = old') (hthread : inside old = true)
    (hother : inside old' = true) : thread = other := by
  subst hpc hpc'
  exact Option.some.inj (((h thread).mp hthread).symm.trans ((h other).mp hother))

variable [DecidableEq Thread]

/-- A thread moves within the section, or outside it. -/
theorem Owned.keep (h : Owned inside pc mutex) (hpc : pc thread = old)
    (hsame : inside point = inside old) :
    Owned inside (Function.update pc thread point) mutex := by
  intro other
  rcases eq_or_ne other thread with rfl | hne
  · rw [Function.update_self, hsame, ← hpc]
    exact h other
  · rw [Function.update_of_ne hne]
    exact h other

/-- A thread enters the section with the free mutex. -/
theorem Owned.acquire (h : Owned inside pc none)
    (hinside : inside point = true) :
    Owned inside (Function.update pc thread point) (some thread) := by
  intro other
  rcases eq_or_ne other thread with rfl | hne
  · rw [Function.update_self, hinside]
    simp
  · rw [Function.update_of_ne hne, h other]
    simp [hne.symm]

/-- The thread inside leaves and frees the mutex. -/
theorem Owned.release (h : Owned inside pc mutex) (hpc : pc thread = old)
    (hinside : inside old = true) (houtside : inside point = false) :
    Owned inside (Function.update pc thread point) none := by
  intro other
  rcases eq_or_ne other thread with rfl | hne
  · rw [Function.update_self, houtside]
    simp
  · rw [Function.update_of_ne hne]
    refine iff_of_false ?_ (by simp)
    intro hother
    exact hne (h.unique rfl hpc hother hinside)

end CsPrimer.Foundation
