import CsPrimer.DynamicArray.ListRefinement

/-!
What growth costs. `realloc` may move all elements to a new place, but the
capacity has become half as large again since it last did so. Each push pays
for itself and saves up for the next move; that the factor 1.5 is cut off
costs one element more.
-/

namespace CsPrimer.DynamicArray

open Foundation

variable {V : Type} {da next : DA V} {xs : List V}

/-- The elements that the call may move, all of them in a `realloc`. -/
def moved (da : DA V) : Call V → Nat
  | .push _ => if da.size = da.cap then da.size else 0
  | .pop | .set _ _ | .get _ | .size => 0

def charge : Call V → Nat
  | .push _ => 4
  | .pop | .set _ _ | .get _ | .size => 0

/-- What is saved up for the next `realloc`. -/
def DA.saved (da : DA V) : Nat := 3 * da.size - 2 * da.cap

def Call.isPush : Call V → Bool
  | .push _ => true
  | .pop | .set _ _ | .get _ | .size => false

theorem sum_charge (calls : List (Call V)) :
    (calls.map charge).sum = 4 * calls.countP Call.isPush := by
  induction calls with
  | nil => rfl
  | cons call calls ih =>
      rw [List.map_cons, List.sum_cons, ih, List.countP_cons]
      cases call with
      | push x =>
          rw [charge, Call.isPush, if_pos rfl]
          omega
      | pop | set x i | get i | size => exact Nat.zero_add _

theorem Holds.push_sizes (h : Holds da xs) (hroom : da.size < intMax) {x : V}
    (hpush : daPush da x = .ok next) :
    next.size = da.size + 1 ∧
      next.cap = if da.size = da.cap then 3 * da.cap / 2 else da.cap := by
  by_cases hfull : da.size = da.cap
  · obtain ⟨hgrown, hcap⟩ := h.grow hfull hroom
    simp only [daPush, if_pos hfull, hgrown.write hcap] at hpush
    cases hpush
    exact ⟨rfl, (if_pos hfull).symm⟩
  · have hcap : da.size < da.cap := by
      have hle := h.size_le_cap
      omega
    simp only [daPush, if_neg hfull, h.write hcap] at hpush
    cases hpush
    exact ⟨rfl, (if_neg hfull).symm⟩

/-- A push that makes the array grow uses up what was saved. -/
theorem Holds.push_paid (h : Holds da xs) (hroom : da.size < intMax) {x : V}
    (hpush : daPush da x = .ok next) :
    moved da (.push x) + next.saved ≤ da.saved + charge (.push x) := by
  obtain ⟨hsize, hcap⟩ := h.push_sizes hroom hpush
  have hlow := h.bounds.low
  have hle := h.size_le_cap
  simp only [moved, charge, DA.saved, hsize, hcap, startingCapacity] at hlow ⊢
  split <;> omega

/-- The array has kept its capacity and grown by nothing. -/
def DA.Within (da next : DA V) : Prop := next.size ≤ da.size ∧ next.cap = da.cap

theorem DA.Within.paid (h : da.Within next) : next.saved ≤ da.saved := by
  obtain ⟨hsize, hcap⟩ := h
  rw [DA.saved, DA.saved, hcap]
  omega

theorem daPop_within [Zero V] {x : V} (hpop : daPop da = .ok (next, x)) : da.Within next := by
  unfold daPop at hpop
  split at hpop
  · dsimp only at hpop
    cases hread : DA.read { da with size := da.size - 1 } (da.size - 1) with
    | error fault =>
        rw [hread] at hpop
        cases hpop
    | ok value =>
        rw [hread] at hpop
        cases hpop
        exact ⟨Nat.sub_le _ _, rfl⟩
  · cases hpop
    exact ⟨le_rfl, rfl⟩

theorem daSet_within {x : V} {i : Int} (hset : daSet da x i = .ok next) : da.Within next := by
  unfold daSet at hset
  split at hset
  · unfold DA.write at hset
    split at hset <;> cases hset
    exact ⟨le_rfl, rfl⟩
  · cases hset
    exact ⟨le_rfl, rfl⟩

/-- No call moves more than it pays and takes off what is saved. -/
theorem Holds.answer_paid [Zero V] (h : Holds da xs) {call : Call V} (hroom : HasRoom da call)
    {out : Answer V} (hanswer : DynamicArray.answer da call = .ok (next, out)) :
    moved da call + next.saved ≤ da.saved + charge call := by
  cases call with
  | push x =>
      cases hpush : daPush da x with
      | error fault =>
          simp only [DynamicArray.answer, hpush] at hanswer
          cases hanswer
      | ok pushed =>
          simp only [DynamicArray.answer, hpush] at hanswer
          cases hanswer
          exact h.push_paid hroom hpush
  | pop =>
      cases hpop : daPop da with
      | error fault =>
          simp only [DynamicArray.answer, hpop] at hanswer
          cases hanswer
      | ok popped =>
          simp only [DynamicArray.answer, hpop] at hanswer
          cases hanswer
          rw [moved, charge, Nat.zero_add]
          exact (daPop_within hpop).paid
  | set x i =>
      cases hset : daSet da x i with
      | error fault =>
          simp only [DynamicArray.answer, hset] at hanswer
          cases hanswer
      | ok written =>
          simp only [DynamicArray.answer, hset] at hanswer
          cases hanswer
          rw [moved, charge, Nat.zero_add]
          exact (daSet_within hset).paid
  | get i =>
      simp only [DynamicArray.answer, h.get i] at hanswer
      cases hanswer
      rw [moved, charge, Nat.zero_add, Nat.add_zero]
  | size =>
      simp only [DynamicArray.answer] at hanswer
      cases hanswer
      rw [moved, charge, Nat.zero_add, Nat.add_zero]

/-- For every run of calls from `DA_new`: growth moves at most four elements
for each push, however pushes and pops alternate. -/
theorem pushes_amortized [Zero V] (calls : List (Call V))
    (hroom : Along HasRoom answer daNew calls) :
    serveTotal answer moved daNew calls ≤ 4 * calls.countP Call.isPush := by
  have hpaid : ∀ (da : DA V) (call : Call V) (next : DA V) (out : Answer V),
      (∃ xs, Holds da xs) → HasRoom da call → answer da call = .ok (next, out) →
        (∃ xs, Holds next xs) ∧ moved da call + next.saved ≤ da.saved + charge call := by
    rintro da call next out ⟨xs, h⟩ hcall hanswer
    refine ⟨?_, h.answer_paid hcall hanswer⟩
    obtain ⟨next', hanswer', hnext⟩ := h.answer hcall
    rw [hanswer'] at hanswer
    cases hanswer
    exact ⟨_, hnext⟩
  have htotal := serveTotal_le_charges charge DA.saved hpaid ⟨[], daNew_holds⟩ hroom
  have hnothing : (daNew : DA V).saved = 0 := rfl
  rwa [sum_charge, hnothing, Nat.zero_add] at htotal

theorem growing_calls_amortized :
    serveTotal answer moved daNew growingCalls ≤ 4 * growingCalls.countP Call.isPush :=
  pushes_amortized growingCalls (by decide)

end CsPrimer.DynamicArray
