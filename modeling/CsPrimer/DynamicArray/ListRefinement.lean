import CsPrimer.DynamicArray.Array

/-!
The dynamic array as a list. While it holds at most `INT_MAX` elements the
capacity is far from the end of `size_t`, so that the allocation has `cap`
slots; and a capacity from 8 on becomes larger when it is multiplied by 1.5
and cut off, so that there is a slot for the element that made it grow.
-/

namespace CsPrimer.DynamicArray

open Foundation

variable {V : Type} {da next : DA V} {xs : List V} {x : V} {i : Nat}

/-- The list: indices outside do nothing, and `0` is `NULL`. -/
def specAnswer [Zero V] (xs : List V) : Call V → List V × Answer V
  | .push x => (xs ++ [x], .void)
  | .pop => (xs.dropLast, .pointer (xs.getLast?.getD 0))
  | .set x i =>
      (if 0 ≤ i ∧ i < xs.length then xs.set i.toNat x else xs, .void)
  | .get i =>
      (xs, .pointer (if 0 ≤ i ∧ i < xs.length then xs.getD i.toNat 0 else 0))
  | .size => (xs, .int xs.length)

/-- The call leaves at most `INT_MAX` elements. -/
def HasRoom (da : DA V) : Call V → Prop
  | .push _ => da.size < intMax
  | _ => True

instance (da : DA V) (call : Call V) : Decidable (HasRoom da call) :=
  match call with
  | .push _ => inferInstanceAs (Decidable (da.size < intMax))
  | .pop | .set _ _ | .get _ | .size => isTrue trivial

structure CapacityBounds (cap : Nat) : Prop where
  low : startingCapacity ≤ cap
  high : 2 * cap ≤ 3 * intMax

structure Holds (da : DA V) (xs : List V) : Prop where
  size_eq : da.size = xs.length
  size_le : da.size ≤ intMax
  size_le_cap : da.size ≤ da.cap
  bounds : CapacityBounds da.cap
  allocated : da.arr.length = da.cap
  elements : ∀ i < da.size, da.arr[i]? = xs[i]?.map some

/-- So many bytes are no overflow. -/
theorem CapacityBounds.slots {cap : Nat} (h : CapacityBounds cap) :
    cap * pointerSize % sizeModulus / pointerSize = cap := by
  have hhigh := h.high
  simp only [intMax] at hhigh
  rw [Nat.mod_eq_of_lt (by simp only [pointerSize, sizeModulus]; omega)]
  exact Nat.mul_div_cancel cap (by decide)

theorem CapacityBounds.grown {cap : Nat} (h : CapacityBounds cap)
    (hroom : cap < intMax) : CapacityBounds (3 * cap / 2) where
  low := by
    have hlow := h.low
    simp only [startingCapacity] at hlow ⊢
    omega
  high := by omega

/-- Truncated multiplication by 1.5 enlarges every capacity of an array. -/
theorem CapacityBounds.lt_grown {cap : Nat} (h : CapacityBounds cap) :
    cap < 3 * cap / 2 := by
  have hlow := h.low
  simp only [startingCapacity] at hlow
  omega

theorem starting_bounds : CapacityBounds startingCapacity where
  low := le_rfl
  high := by decide

theorem daNew_holds : Holds (daNew : DA V) [] where
  size_eq := rfl
  size_le := Nat.zero_le _
  size_le_cap := Nat.zero_le _
  bounds := starting_bounds
  allocated := by
    simp [daNew, malloc, startingCapacity, pointerSize]
  elements := by
    intro i hi
    simp [daNew] at hi

theorem Holds.grow_arr (h : Holds da xs) (hfull : da.size = da.cap)
    (hroom : da.size < intMax) :
    da.grow.arr = da.arr ++ List.replicate (3 * da.cap / 2 - da.cap) none := by
  have hgrown := h.bounds.grown (hfull ▸ hroom)
  have hlt := h.bounds.lt_grown
  simp only [DA.grow, realloc, hgrown.slots, h.allocated]
  rw [List.take_of_length_le (by rw [h.allocated]; omega)]

/-- A growth keeps all elements and makes room for one more. -/
theorem Holds.grow (h : Holds da xs) (hfull : da.size = da.cap)
    (hroom : da.size < intMax) :
    Holds da.grow xs ∧ da.grow.size < da.grow.cap := by
  have hlt := h.bounds.lt_grown
  have harr := h.grow_arr hfull hroom
  have hsize : da.grow.size = da.size := rfl
  have hcap : da.grow.cap = 3 * da.cap / 2 := rfl
  refine ⟨⟨h.size_eq, h.size_le, ?_, h.bounds.grown (hfull ▸ hroom), ?_, ?_⟩, ?_⟩
  · omega
  · rw [harr, List.length_append, List.length_replicate, h.allocated]
    omega
  · intro i hi
    rw [harr, List.getElem?_append_left (by rw [h.allocated]; omega)]
    exact h.elements i hi
  · omega

theorem Holds.write (h : Holds da xs) (hi : i < da.cap) :
    da.write i x = .ok { da with arr := da.arr.set i (some x) } :=
  if_pos (h.allocated ▸ hi)

theorem Holds.read (h : Holds da xs) (hi : i < da.size) :
    da.read i = .ok (xs.getD i x) := by
  have hlength : i < xs.length := h.size_eq ▸ hi
  simp only [DA.read, h.elements i hi, List.getElem?_eq_getElem hlength,
    Option.map_some, List.getD_eq_getElem?_getD, Option.getD_some]

/-- A store at the end of the array, where there is room for it. -/
theorem Holds.append (h : Holds da xs) (hroom : da.size < intMax)
    (hcap : da.size < da.cap) :
    Holds { da with arr := da.arr.set da.size (some x), size := da.size + 1 }
      (xs ++ [x]) where
  size_eq := by simp [h.size_eq]
  size_le := hroom
  size_le_cap := hcap
  bounds := h.bounds
  allocated := by simp [h.allocated]
  elements := by
    intro i hi
    have hallocated := h.allocated
    simp only at hi
    rcases Nat.lt_or_eq_of_le (Nat.le_of_lt_succ hi) with hlt | rfl
    · rw [List.getElem?_set_ne (by omega), h.elements i hlt,
        List.getElem?_append_left (h.size_eq ▸ hlt)]
    · rw [List.getElem?_set_self (by omega), h.size_eq]
      simp

theorem Holds.push (h : Holds da xs) (hroom : da.size < intMax) (x : V) :
    ∃ next, daPush da x = .ok next ∧ Holds next (xs ++ [x]) := by
  by_cases hfull : da.size = da.cap
  · obtain ⟨hgrown, hcap⟩ := h.grow hfull hroom
    refine ⟨_, ?_, hgrown.append hroom hcap⟩
    simp only [daPush, if_pos hfull, hgrown.write hcap]
    rfl
  · have hcap : da.size < da.cap := by
      have := h.size_le_cap
      omega
    refine ⟨_, ?_, h.append hroom hcap⟩
    simp only [daPush, if_neg hfull, h.write hcap]
    rfl

/-- The slot of a popped element stays behind, above the new size. -/
theorem Holds.shrink (h : Holds da xs) :
    Holds { da with size := da.size - 1 } xs.dropLast where
  size_eq := by simp [h.size_eq]
  size_le := (Nat.sub_le _ _).trans h.size_le
  size_le_cap := (Nat.sub_le _ _).trans h.size_le_cap
  bounds := h.bounds
  allocated := h.allocated
  elements := by
    intro i hi
    simp only at hi
    have hsize := h.size_eq
    rw [h.elements i (by omega), List.getElem?_dropLast, if_pos (by omega)]

theorem Holds.pop [Zero V] (h : Holds da xs) :
    ∃ next, daPop da = .ok (next, xs.getLast?.getD 0) ∧
      Holds next xs.dropLast := by
  by_cases hempty : da.size = 0
  · obtain rfl : xs = [] := List.length_eq_zero_iff.mp (h.size_eq ▸ hempty)
    exact ⟨da, by simp [daPop, hempty, pure, Except.pure], h⟩
  · refine ⟨_, ?_, h.shrink⟩
    have hread : da.read (da.size - 1) = .ok (xs.getLast?.getD 0) := by
      rw [h.read (x := 0) (by omega), List.getD_eq_getElem?_getD, h.size_eq,
        List.getLast?_eq_getElem?]
    simp only [daPop, if_pos hempty]
    have hsame : DA.read { da with size := da.size - 1 } (da.size - 1) =
        da.read (da.size - 1) := rfl
    rw [hsame, hread]
    rfl

theorem Holds.set (h : Holds da xs) (x : V) (i : Int) :
    ∃ next, daSet da x i = .ok next ∧
      Holds next (if 0 ≤ i ∧ i < xs.length then xs.set i.toNat x else xs) := by
  have hsize := h.size_eq
  have hcap := h.size_le_cap
  by_cases hin : 0 ≤ i ∧ i < da.size
  · refine ⟨_, by simp only [daSet, if_pos hin]; exact h.write (by omega), ?_⟩
    rw [if_pos (by omega)]
    refine ⟨?_, h.size_le, h.size_le_cap, h.bounds, ?_, ?_⟩
    · simp [h.size_eq]
    · simp [h.allocated]
    · intro j hj
      have hallocated := h.allocated
      simp only at hj
      rcases eq_or_ne i.toNat j with rfl | hne
      · rw [List.getElem?_set_self (by omega), List.getElem?_set_self (by omega)]
        rfl
      · rw [List.getElem?_set_ne hne, List.getElem?_set_ne hne, h.elements j hj]
  · refine ⟨da, by simp only [daSet, if_neg hin]; rfl, ?_⟩
    rw [if_neg (by omega)]
    exact h

theorem Holds.get [Zero V] (h : Holds da xs) (i : Int) :
    daGet da i =
      .ok (if 0 ≤ i ∧ i < xs.length then xs.getD i.toNat 0 else 0) := by
  have hsize := h.size_eq
  by_cases hin : 0 ≤ i ∧ i < da.size
  · rw [daGet, if_pos hin, if_pos (by omega)]
    exact h.read (by omega)
  · rw [daGet, if_neg hin, if_neg (by omega)]
    rfl

theorem Holds.daSize_eq (h : Holds da xs) : daSize da = xs.length := by
  have hsize := h.size_eq
  have hle := h.size_le
  simp only [intMax] at hle
  unfold daSize
  rw [Int.bmod_def]
  push_cast
  split_ifs <;> omega

/-- Each call answers as the list does. -/
theorem Holds.answer [Zero V] (h : Holds da xs) {call : Call V}
    (hroom : HasRoom da call) :
    ∃ next, answer da call = .ok (next, (specAnswer xs call).2) ∧
      Holds next (specAnswer xs call).1 := by
  cases call with
  | push x =>
      obtain ⟨next, hpush, hnext⟩ := h.push hroom x
      exact ⟨next, by simp only [DynamicArray.answer, hpush]; rfl, hnext⟩
  | pop =>
      obtain ⟨next, hpop, hnext⟩ := h.pop
      exact ⟨next, by simp only [DynamicArray.answer, hpop]; rfl, hnext⟩
  | set x i =>
      obtain ⟨next, hset, hnext⟩ := h.set x i
      exact ⟨next, by simp only [DynamicArray.answer, hset]; rfl, hnext⟩
  | get i => exact ⟨da, by simp only [DynamicArray.answer, h.get i]; rfl, h⟩
  | size => exact ⟨da, by simp only [DynamicArray.answer, h.daSize_eq]; rfl, h⟩

/-- What is claimed of a run that starts with `DA_new`: every call returns, no
call touches a slot outside the allocation or reads one that was not written,
the answers are those of the list, and the array holds it. -/
structure BehavesAsList [Zero V] (calls : List (Call V)) (final : DA V)
    (outs : List (Answer V)) : Prop where
  returns : serve answer daNew calls = .ok (final, outs)
  answers : outs = (specify specAnswer [] calls).2
  elements : ∀ i < final.size,
    final.arr[i]? = (specify specAnswer [] calls).1[i]?.map some
  size_eq : final.size = (specify specAnswer [] calls).1.length
  size_le_cap : final.size ≤ final.cap
  allocated : final.arr.length = final.cap

/-- For every run of calls that never exceeds `INT_MAX` elements. -/
theorem dynamic_array_behaves_as_list [Zero V] (calls : List (Call V))
    (hroom : Along HasRoom answer daNew calls) :
    ∃ final outs, BehavesAsList calls final outs := by
  have hholds : ∀ (da : DA V) (call : Call V), (∃ xs, Holds da xs) →
      HasRoom da call →
        ∃ next out, answer da call = .ok (next, out) ∧ ∃ xs, Holds next xs := by
    rintro da call ⟨xs, h⟩ hcall
    obtain ⟨next, hanswer, hnext⟩ := h.answer hcall
    exact ⟨next, _, hanswer, _, hnext⟩
  obtain ⟨final, outs, hserve⟩ :=
    serve_returns HasRoom hholds ⟨[], daNew_holds⟩ hroom
  have hrefines : outs = (specify specAnswer [] calls).2 ∧
      Holds final (specify specAnswer [] calls).1 := by
    refine serve_refines ?_ daNew_holds hroom hserve
    intro da xs call next out h hcall hanswer
    obtain ⟨next', hanswer', hnext⟩ := h.answer hcall
    rw [hanswer'] at hanswer
    cases hanswer
    exact ⟨rfl, hnext⟩
  obtain ⟨houts, h⟩ := hrefines
  exact ⟨final, outs, hserve, houts, h.elements, h.size_eq, h.size_le_cap,
    h.allocated⟩

/-- Nine elements make the array grow; a popped slot is written again. -/
def growingCalls : List (Call Nat) :=
  [.push 1, .pop, .pop] ++ (List.range 9).map Call.push ++
    [.set 7 0, .set 7 9, .get 0, .get (-1), .get 8, .size, .pop, .get 8]

theorem growing_calls_behave_as_list :
    ∃ final outs, BehavesAsList growingCalls final outs :=
  dynamic_array_behaves_as_list growingCalls (by decide)

end CsPrimer.DynamicArray
