import CsPrimer.Foundation.EventRun

/-!
Systems that come to an end. If every step lowers a measure, no run goes on
for ever; if a state that no event leaves is a final one, no run stops too
early. Together, every way to go on from any state that is reached ends in a
final state.
-/

namespace CsPrimer.Foundation

variable {State Event : Type*}

def Stuck (step : State → Event → Option State) (state : State) : Prop :=
  ∀ event, step state event = none

/-- Every run from the start ends after a bounded number of events, and can
go on unless it is in a final state. -/
structure Completes (step : State → Event → Option State) (start : State)
    (final : State → Prop) (bound : Nat) : Prop where
  bounded : ∀ events state, runEvents step start events = some state →
    events.length ≤ bound
  final_of_stuck : ∀ state, Reaches step start state → Stuck step state → final state

variable {step : State → Event → Option State} {start state : State}
  {final : State → Prop} {bound : Nat}

theorem completes_of_measure (invariant : State → Prop) (measure : State → Nat)
    (hstep : ∀ state event next, invariant state → step state event = some next →
      invariant next ∧ measure next < measure state)
    (hstuck : ∀ state, invariant state → Stuck step state → final state)
    (hstart : invariant start) : Completes step start final (measure start) where
  bounded := by
    intro events
    induction events generalizing start with
    | nil => exact fun _ _ => Nat.zero_le _
    | cons event events ih =>
        intro state hrun
        obtain ⟨next, hnext, hrest⟩ := runEvents_cons hrun
        obtain ⟨hinvariant, hlower⟩ := hstep start event next hstart hnext
        have hlength := ih hinvariant state hrest
        rw [List.length_cons]
        omega
  final_of_stuck := by
    intro state hreaches
    exact hstuck state
      (hreaches.invariant (fun s e n h hnext => (hstep s e n h hnext).1) hstart)

/-- From every state that is reached a final one can still be reached. -/
theorem Completes.exists_final (h : Completes step start final bound)
    (hreaches : Reaches step start state) :
    ∃ last, Reaches step state last ∧ final last := by
  obtain ⟨events, hrun⟩ := hreaches
  -- by the number of events that are left
  obtain ⟨left, hleft⟩ : ∃ left, bound - events.length = left := ⟨_, rfl⟩
  induction left using Nat.strong_induction_on generalizing events state with
  | _ left ih =>
      by_cases hstuck : Stuck step state
      · exact ⟨state, .refl, h.final_of_stuck state ⟨events, hrun⟩ hstuck⟩
      · obtain ⟨event, hevent⟩ := not_forall.mp hstuck
        obtain ⟨next, hnext⟩ := Option.ne_none_iff_exists'.mp hevent
        have hlonger : runEvents step start (events ++ [event]) = some next := by
          rw [runEvents_append hrun]
          simp only [runEvents, hnext]
        have hlength := h.bounded _ _ hlonger
        rw [List.length_append, List.length_singleton] at hlength
        obtain ⟨last, hlast, hfinal⟩ := ih (bound - (events ++ [event]).length)
          (by rw [List.length_append, List.length_singleton]; omega) _ hlonger rfl
        exact ⟨last, hlast.head hnext, hfinal⟩

end CsPrimer.Foundation
