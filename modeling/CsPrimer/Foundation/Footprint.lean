import CsPrimer.Foundation.Heap

/-!
What a computation does to a heap, told by the cells it takes over and the
cells it hands on: a cell that is neither is as it was, and one that is taken
over and not handed on has been given back. Such steps compose, and a step may
be framed by cells it does not know of.
-/

namespace CsPrimer.Foundation.Heap

variable {α : Type*} {heap heap' heap'' : Heap α} {id : Nat} {a : α}
  {before middle after rest : Set Nat}

structure Transfers (heap heap' : Heap α) (before after : Set Nat) : Prop where
  frame : ∀ id, id ∉ before → id ∉ after → heap'.cell id = heap.cell id
  taken : ∀ id ∈ after, id ∈ before ∨ heap.next ≤ id
  given : ∀ id ∈ before, id ∉ after → heap'.cell id = none
  next_le : heap.next ≤ heap'.next

/-- A live cell outside the footprint is left alone. -/
theorem Transfers.keeps (h : Transfers heap heap' before after) (hout : id ∉ before)
    (hlive : (heap.cell id).isSome) : heap'.cell id = heap.cell id := by
  apply h.frame id hout
  intro hafter
  rcases h.taken id hafter with hbefore | hnew
  · exact hout hbefore
  · exact Nat.lt_irrefl _ (Nat.lt_of_lt_of_le (lt_next hlive) hnew)

/-- What lives outside the footprint is not handed on. -/
theorem Transfers.not_mem (h : Transfers heap heap' before after) (hout : id ∉ before)
    (hlive : (heap.cell id).isSome) : id ∉ after := by
  intro hafter
  rcases h.taken id hafter with hbefore | hnew
  · exact hout hbefore
  · exact Nat.lt_irrefl _ (Nat.lt_of_lt_of_le (lt_next hlive) hnew)

theorem Transfers.refl : Transfers heap heap before before where
  frame := fun _ _ _ => rfl
  taken := fun _ hid => .inl hid
  given := fun _ hid hout => absurd hid hout
  next_le := le_rfl

theorem Transfers.trans (h : Transfers heap heap' before middle)
    (h' : Transfers heap' heap'' middle after) : Transfers heap heap'' before after where
  frame := by
    intro id hbefore hafter
    by_cases hmiddle : id ∈ middle
    · rw [h'.given id hmiddle hafter]
      -- a cell in the middle only is a new one
      rcases h.taken id hmiddle with hid | hnew
      · exact absurd hid hbefore
      · exact (heap.unused id hnew).symm
    · rw [h'.frame id hmiddle hafter, h.frame id hbefore hmiddle]
  taken := by
    intro id hafter
    rcases h'.taken id hafter with hmiddle | hnew
    · exact h.taken id hmiddle
    · exact .inr (h.next_le.trans hnew)
  given := by
    intro id hbefore hafter
    by_cases hmiddle : id ∈ middle
    · exact h'.given id hmiddle hafter
    · rw [h'.frame id hmiddle hafter, h.given id hbefore hmiddle]
  next_le := h.next_le.trans h'.next_le

/-- The same step among more cells. -/
theorem Transfers.framed (h : Transfers heap heap' before after) (rest : Set Nat) :
    Transfers heap heap' (before ∪ rest) (after ∪ rest) where
  frame := by
    intro id hbefore hafter
    exact h.frame id (fun hid => hbefore (.inl hid)) (fun hid => hafter (.inl hid))
  taken := by
    rintro id (hid | hid)
    · exact (h.taken id hid).imp .inl fun hnew => hnew
    · exact .inl (.inr hid)
  given := by
    rintro id (hid | hid) hafter
    · exact h.given id hid fun hid' => hafter (.inl hid')
    · exact absurd (.inr hid) hafter
  next_le := h.next_le

/-- The sets may be given by other descriptions. -/
theorem Transfers.of_iff {before' after' : Set Nat} (h : Transfers heap heap' before after)
    (hbefore : ∀ id, id ∈ before ↔ id ∈ before') (hafter : ∀ id, id ∈ after ↔ id ∈ after') :
    Transfers heap heap' before' after' := by
  obtain rfl := Set.ext hbefore
  obtain rfl := Set.ext hafter
  exact h

/-- A further step with some of the cells that were handed on. -/
theorem Transfers.andThen (h : Transfers heap heap' before (middle ∪ rest))
    (h' : Transfers heap' heap'' middle after) : Transfers heap heap'' before (after ∪ rest) :=
  h.trans (h'.framed rest)

theorem transfers_alloc (heap : Heap α) (a : α) :
    Transfers heap (heap.alloc a) ∅ {heap.next} where
  frame := fun _ _ hnew => Function.update_of_ne hnew ..
  taken := by
    rintro id rfl
    exact .inr le_rfl
  given := fun _ hid => absurd hid (Set.notMem_empty _)
  next_le := Nat.le_succ _

theorem transfers_store (h : heap.store id a = some heap') :
    Transfers heap heap' {id} {id} ∧ heap'.cell id = some a := by
  unfold Heap.store at h
  split at h
  · cases h
    refine ⟨⟨?_, fun _ hid => .inl hid, fun _ hid hout => absurd hid hout, le_rfl⟩,
      Function.update_self ..⟩
    exact fun other hother _ => Function.update_of_ne hother ..
  · cases h

theorem transfers_free (h : heap.free id = some heap') : Transfers heap heap' {id} ∅ := by
  unfold Heap.free at h
  split at h
  · cases h
    refine ⟨?_, fun _ hid => absurd hid (Set.notMem_empty _), ?_, le_rfl⟩
    · exact fun other hother _ => Function.update_of_ne hother ..
    · rintro _ rfl -
      exact Function.update_self ..
  · cases h

theorem freePointer_ok {ε : Type*} (fault : ε) (hlive : (heap.cell id).isSome) :
    ∃ heap', freePointer fault heap (some id) = .ok heap' ∧ Transfers heap heap' {id} ∅ := by
  obtain ⟨heap', hfree, -⟩ := free_of_live hlive
  exact ⟨heap', by simp only [freePointer, hfree], transfers_free hfree⟩

/-- When everything that was taken over from nothing has been given back,
every cell that was handed out has been given back once. -/
theorem Transfers.all_released (h : Transfers Heap.empty heap' before ∅) (id : Nat) :
    heap'.cell id = none ∧ (id < heap'.next → heap'.released.count id = 1) := by
  have hnone : heap'.cell id = none := by
    by_cases hid : id ∈ before
    · exact h.given id hid (Set.notMem_empty _)
    · rw [h.frame id hid (Set.notMem_empty _)]
      rfl
  refine ⟨hnone, fun hlt => ?_⟩
  rw [released_once hlt, hnone]
  rfl

/-- The live cells are shared out: each is among those of one owner. -/
structure SharedOut {ι : Type*} (heap : Heap α) (cells : ι → Set Nat) : Prop where
  live : ∀ {k id}, id ∈ cells k → (heap.cell id).isSome
  apart : ∀ {j k id}, id ∈ cells j → id ∈ cells k → j = k
  owned : ∀ {id}, (heap.cell id).isSome → ∃ k, id ∈ cells k

variable {ι : Type*} [DecidableEq ι] {cells : ι → Set Nat} {j k : ι}

omit [DecidableEq ι] in
theorem sharedOut_empty : SharedOut (Heap.empty : Heap α) fun _ : ι => ∅ where
  live := fun hid => absurd hid (Set.notMem_empty _)
  apart := fun hid => absurd hid (Set.notMem_empty _)
  owned := by
    intro id hlive
    cases hlive

omit [DecidableEq ι] in
/-- A step on the cells of one owner leaves those of another alone. -/
theorem SharedOut.keeps (h : SharedOut heap cells) (hmoved : Transfers heap heap' (cells k) after)
    (hne : j ≠ k) (hid : id ∈ cells j) : heap'.cell id = heap.cell id :=
  hmoved.keeps (fun hmine => hne (h.apart hid hmine)) (h.live hid)

/-- After a step on the cells of one owner they are shared out as before, with
what this owner has then. -/
theorem SharedOut.step (h : SharedOut heap cells) (hmoved : Transfers heap heap' (cells k) after)
    (hlive : ∀ id ∈ after, (heap'.cell id).isSome) :
    SharedOut heap' (Function.update cells k after) where
  live := by
    intro j id hid
    rcases eq_or_ne j k with rfl | hne
    · rw [Function.update_self] at hid
      exact hlive id hid
    · rw [Function.update_of_ne hne] at hid
      rw [h.keeps hmoved hne hid]
      exact h.live hid
  apart := by
    have hother : ∀ {i id}, i ≠ k → id ∈ cells i → id ∉ after := fun hne hid =>
      hmoved.not_mem (fun hmine => hne (h.apart hid hmine)) (h.live hid)
    intro i j id hi hj
    rcases eq_or_ne i k with rfl | hik <;> rcases eq_or_ne j i with rfl | hji
    · rfl
    · rw [Function.update_self] at hi
      rw [Function.update_of_ne hji] at hj
      exact absurd hi (hother hji hj)
    · rfl
    · rw [Function.update_of_ne hik] at hi
      rcases eq_or_ne j k with rfl | hjk
      · rw [Function.update_self] at hj
        exact absurd hj (hother hik hi)
      · rw [Function.update_of_ne hjk] at hj
        exact h.apart hi hj
  owned := by
    intro id hid
    by_cases hafter : id ∈ after
    · exact ⟨k, by rwa [Function.update_self]⟩
    by_cases hbefore : id ∈ cells k
    · rw [hmoved.given id hbefore hafter] at hid
      cases hid
    rw [hmoved.frame id hbefore hafter] at hid
    obtain ⟨j, hj⟩ := h.owned hid
    refine ⟨j, ?_⟩
    rw [Function.update_of_ne]
    · exact hj
    · rintro rfl
      exact hbefore hj

omit [DecidableEq ι] in
/-- Nothing is live when no owner has a cell, and all has been given back once. -/
theorem SharedOut.all_released (h : SharedOut heap cells) (hnone : ∀ k, cells k = ∅) (id : Nat) :
    heap.cell id = none ∧ (id < heap.next → heap.released.count id = 1) := by
  have hdead : ¬ (heap.cell id).isSome := by
    intro hlive
    obtain ⟨k, hid⟩ := h.owned hlive
    rw [hnone k] at hid
    exact hid
  refine ⟨Option.not_isSome_iff_eq_none.mp hdead, fun hlt => ?_⟩
  rw [released_once hlt, if_neg hdead]

end CsPrimer.Foundation.Heap
