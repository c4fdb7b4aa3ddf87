import Mathlib.Algebra.Order.BigOperators.Group.Finset
import Mathlib.Tactic

/-!
Counting threads by control point. A weight says how many tokens a thread
holds at each point, and the total changes with the one thread that moves.
-/

namespace CsPrimer.Foundation

variable {Thread Point : Type*} [Fintype Thread]

def tokens (weight : Point → Nat) (pc : Thread → Point) : Nat :=
  ∑ thread, weight (pc thread)

variable {weight : Point → Nat} {pc : Thread → Point} {thread : Thread}
  {old point : Point}

/-- The mover gives up the tokens of its old point for those of the new. -/
theorem tokens_update [DecidableEq Thread] (weight : Point → Nat)
    (hpc : pc thread = old) (point : Point) :
    tokens weight (Function.update pc thread point) + weight old =
      tokens weight pc + weight point := by
  have hrest : ∑ other ∈ Finset.univ.erase thread,
      weight (Function.update pc thread point other) =
        ∑ other ∈ Finset.univ.erase thread, weight (pc other) := by
    apply Finset.sum_congr rfl
    intro other hother
    rw [Function.update_of_ne (Finset.ne_of_mem_erase hother)]
  have hbefore := Finset.add_sum_erase Finset.univ
    (fun other => weight (pc other)) (Finset.mem_univ thread)
  have hafter := Finset.add_sum_erase Finset.univ
    (fun other => weight (Function.update pc thread point other))
    (Finset.mem_univ thread)
  simp only [Function.update_self] at hafter
  rw [hrest] at hafter
  rw [hpc] at hbefore
  unfold tokens
  omega

theorem tokens_keep [DecidableEq Thread] (hpc : pc thread = old)
    (hsame : weight point = weight old) :
    tokens weight (Function.update pc thread point) = tokens weight pc := by
  have hmoved := tokens_update weight hpc point
  omega

/-- No thread holds more than all together. -/
theorem weight_le_tokens (weight : Point → Nat) (hpc : pc thread = old) :
    weight old ≤ tokens weight pc := by
  subst hpc
  exact Finset.single_le_sum (f := fun other => weight (pc other))
    (fun _ _ => Nat.zero_le _) (Finset.mem_univ thread)

theorem one_le_tokens (hpc : pc thread = old) (hone : weight old = 1) :
    1 ≤ tokens weight pc :=
  hone.ge.trans (weight_le_tokens weight hpc)

theorem tokens_eq_zero (h : ∀ thread, weight (pc thread) = 0) :
    tokens weight pc = 0 :=
  Finset.sum_eq_zero (fun thread _ => h thread)

end CsPrimer.Foundation
