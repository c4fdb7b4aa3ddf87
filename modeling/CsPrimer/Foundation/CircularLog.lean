import Mathlib.Tactic

/-!
A bounded first-in first-out log kept in a circular array. The history is the
sequence of values put and of values taken, with the slots whose value has
been put and not yet taken. Put number `i` belongs in slot `i % cap`; as long
as at most `cap` values are pending, pending values have slots of their own.
-/

namespace CsPrimer.Foundation

variable {V : Type*}

structure History (V : Type*) where
  puts : List V
  takes : List V
  unread : Nat → Bool

namespace History

def empty : History V := ⟨[], [], fun _ => false⟩

def put (history : History V) (slot : Nat) (value : V) : History V :=
  { history with
    puts := history.puts ++ [value]
    unread := Function.update history.unread slot true }

def take (history : History V) (slot : Nat) (value : V) : History V :=
  { history with
    takes := history.takes ++ [value]
    unread := Function.update history.unread slot false }

/-- Number of values put and not yet taken. -/
def pending (history : History V) : Nat :=
  history.puts.length - history.takes.length

end History

structure Consistent (cap : Nat) (slots : Nat → V) (history : History V) :
    Prop where
  taken_le : history.takes.length ≤ history.puts.length
  within : history.puts.length ≤ history.takes.length + cap
  fifo : history.takes <+: history.puts
  content : ∀ i, history.takes.length ≤ i →
    ∀ hi : i < history.puts.length, slots (i % cap) = history.puts[i]
  unread_iff : ∀ slot, history.unread slot = true ↔
    ∃ i, history.takes.length ≤ i ∧ i < history.puts.length ∧ i % cap = slot

/-- Positions less than `cap` apart have different slots. -/
theorem mod_ne_mod {cap i j : Nat} (hlt : i < j) (hnear : j < i + cap) :
    i % cap ≠ j % cap := by
  intro heq
  have hzero := Nat.sub_mod_eq_zero_of_mod_eq heq.symm
  rw [Nat.mod_eq_of_lt (by omega)] at hzero
  omega

variable {cap : Nat} {slots : Nat → V} {history : History V}

theorem Consistent.empty (cap : Nat) (slots : Nat → V) :
    Consistent cap slots History.empty where
  taken_le := le_rfl
  within := by simp [History.empty]
  fifo := List.nil_prefix
  content := by simp [History.empty]
  unread_iff := by simp [History.empty]

/-- With room left, the next slot holds nothing pending. -/
theorem Consistent.next_slot_free (h : Consistent cap slots history)
    (hroom : history.puts.length < history.takes.length + cap) :
    history.unread (history.puts.length % cap) = false := by
  rw [Bool.eq_false_iff]
  intro hunread
  obtain ⟨i, htaken, hput, hslot⟩ := (h.unread_iff _).mp hunread
  exact mod_ne_mod hput (by omega) hslot

/-- With a value pending, the next slot to take from holds one. -/
theorem Consistent.next_slot_full (h : Consistent cap slots history)
    (hpending : history.takes.length < history.puts.length) :
    history.unread (history.takes.length % cap) = true :=
  (h.unread_iff _).mpr ⟨_, le_rfl, hpending, rfl⟩

/-- As many slots hold a pending value as there are pending values. -/
theorem Consistent.card_unread (h : Consistent cap slots history) :
    ((Finset.range cap).filter (fun slot => history.unread slot = true)).card =
      history.pending := by
  have himage : (Finset.range cap).filter
        (fun slot => history.unread slot = true) =
      (Finset.Ico history.takes.length history.puts.length).image
        (fun i => i % cap) := by
    ext slot
    simp only [Finset.mem_filter, Finset.mem_range, Finset.mem_image,
      Finset.mem_Ico, h.unread_iff]
    constructor
    · rintro ⟨-, i, htaken, hput, hslot⟩
      exact ⟨i, ⟨htaken, hput⟩, hslot⟩
    · rintro ⟨i, ⟨htaken, hput⟩, rfl⟩
      have hwithin := h.within
      exact ⟨Nat.mod_lt i (by omega), i, htaken, hput, rfl⟩
  have hdistinct : Set.InjOn (fun i => i % cap)
      (Finset.Ico history.takes.length history.puts.length) := by
    intro i hi j hj heq
    have hwithin := h.within
    simp only [Finset.coe_Ico, Set.mem_Ico] at hi hj
    rcases Nat.lt_trichotomy i j with hlt | rfl | hlt
    · exact absurd heq (mod_ne_mod hlt (by omega))
    · rfl
    · exact absurd heq.symm (mod_ne_mod hlt (by omega))
  rw [himage, Finset.card_image_of_injOn hdistinct, Nat.card_Ico, History.pending]

/-- Writing a slot without a pending value does not disturb the log. -/
theorem Consistent.store (h : Consistent cap slots history) {slot : Nat}
    (hfree : history.unread slot = false) (value : V) :
    Consistent cap (Function.update slots slot value) history where
  taken_le := h.taken_le
  within := h.within
  fifo := h.fifo
  content := by
    intro i htaken hput
    rw [Function.update_of_ne]
    · exact h.content i htaken hput
    · intro heq
      have := (h.unread_iff slot).mpr ⟨i, htaken, hput, heq⟩
      rw [hfree] at this
      cases this
  unread_iff := h.unread_iff

/-- A value in the next slot can be put on the log while there is room. -/
theorem Consistent.put (h : Consistent cap slots history)
    (hroom : history.puts.length < history.takes.length + cap) {value : V}
    (hvalue : slots (history.puts.length % cap) = value) :
    Consistent cap slots (history.put (history.puts.length % cap) value) where
  taken_le := by
    have := h.taken_le
    simp only [History.put, List.length_append, List.length_singleton]
    omega
  within := by
    simp only [History.put, List.length_append, List.length_singleton]
    omega
  fifo := h.fifo.trans (List.prefix_append _ _)
  content := by
    intro i htaken hput
    simp only [History.put, List.length_append, List.length_singleton] at hput ⊢
    rcases Nat.lt_or_ge i history.puts.length with hlt | hge
    · rw [List.getElem_append_left hlt]
      exact h.content i htaken hlt
    · obtain rfl : i = history.puts.length := by omega
      simpa using hvalue
  unread_iff := by
    intro slot
    simp only [History.put, List.length_append, List.length_singleton]
    rcases eq_or_ne slot (history.puts.length % cap) with hslot | hslot
    · subst hslot
      rw [Function.update_self]
      have := h.taken_le
      exact iff_of_true rfl ⟨_, this, by omega, rfl⟩
    · rw [Function.update_of_ne hslot, h.unread_iff slot]
      constructor
      · intro ⟨i, htaken, hput, hi⟩
        exact ⟨i, htaken, by omega, hi⟩
      · intro ⟨i, htaken, hput, hi⟩
        refine ⟨i, htaken, ?_, hi⟩
        by_contra hge
        obtain rfl : i = history.puts.length := by omega
        exact hslot hi.symm

/-- The next slot to take from holds the first pending value. -/
theorem Consistent.next_value (h : Consistent cap slots history)
    (hpending : history.takes.length < history.puts.length) :
    slots (history.takes.length % cap) = history.puts[history.takes.length] :=
  h.content _ le_rfl hpending

/-- Taking the first pending value keeps the order. -/
theorem Consistent.take (h : Consistent cap slots history)
    (hpending : history.takes.length < history.puts.length) {value : V}
    (hvalue : slots (history.takes.length % cap) = value) :
    Consistent cap slots (history.take (history.takes.length % cap) value) where
  taken_le := by
    simp only [History.take, List.length_append, List.length_singleton]
    omega
  within := by
    have := h.within
    simp only [History.take, List.length_append, List.length_singleton]
    omega
  fifo := by
    have htakes := List.prefix_iff_eq_take.mp h.fifo
    have hnext : history.takes ++ [value] =
        history.puts.take (history.takes.length + 1) := by
      rw [List.take_add_one, ← htakes, List.getElem?_eq_getElem hpending,
        ← h.next_value hpending, hvalue]
      rfl
    simp only [History.take]
    rw [hnext]
    exact List.take_prefix _ _
  content := by
    intro i htaken hput
    simp only [History.take, List.length_append, List.length_singleton] at htaken
    exact h.content i (by omega) hput
  unread_iff := by
    intro slot
    simp only [History.take, List.length_append, List.length_singleton]
    rcases eq_or_ne slot (history.takes.length % cap) with hslot | hslot
    · subst hslot
      rw [Function.update_self]
      apply iff_of_false (by simp)
      intro ⟨i, htaken, hput, hi⟩
      have := h.within
      exact mod_ne_mod (by omega) (by omega) hi.symm
    · rw [Function.update_of_ne hslot, h.unread_iff slot]
      constructor
      · intro ⟨i, htaken, hput, hi⟩
        refine ⟨i, ?_, hput, hi⟩
        by_contra hle
        obtain rfl : i = history.takes.length := by omega
        exact hslot hi.symm
      · intro ⟨i, htaken, hput, hi⟩
        exact ⟨i, by omega, hput, hi⟩

end CsPrimer.Foundation
