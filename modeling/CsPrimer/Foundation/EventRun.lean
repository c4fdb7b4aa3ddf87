import Mathlib.Tactic

/-!
Systems driven by events. An event that is not enabled has no successor, and
a run is any finite sequence of enabled events; with an event for each thread
and each of its statements, the runs are all interleavings.
-/

namespace CsPrimer.Foundation

variable {State Event : Type*}

/-- The state after a sequence of events, if each is enabled in turn. -/
def runEvents (step : State → Event → Option State) :
    State → List Event → Option State
  | state, [] => some state
  | state, event :: events =>
      match step state event with
      | none => none
      | some next => runEvents step next events

/-- Some run leads from the start to the state. -/
def Reaches (step : State → Event → Option State) (start state : State) :
    Prop :=
  ∃ events, runEvents step start events = some state

variable {step : State → Event → Option State} {start state next : State}

theorem Reaches.refl : Reaches step start start := ⟨[], rfl⟩

theorem runEvents_cons {event : Event} {events : List Event}
    (h : runEvents step start (event :: events) = some state) :
    ∃ next, step start event = some next ∧
      runEvents step next events = some state := by
  simp only [runEvents] at h
  split at h
  · cases h
  · rename_i next hstep
    exact ⟨next, hstep, h⟩

/-- A run may be gone on with. -/
theorem runEvents_append {events more : List Event}
    (hrun : runEvents step start events = some state) :
    runEvents step start (events ++ more) = runEvents step state more := by
  induction events generalizing start with
  | nil =>
      cases hrun
      rfl
  | cons event events ih =>
      obtain ⟨next, hnext, hrest⟩ := runEvents_cons hrun
      rw [List.cons_append, ← ih hrest]
      simp only [runEvents, hnext]

/-- What holds at the start and is kept by every step holds in every state
that is reached. -/
theorem Reaches.invariant {invariant : State → Prop}
    (hstep : ∀ state event next, invariant state →
      step state event = some next → invariant next)
    (hstart : invariant start) (h : Reaches step start state) :
    invariant state := by
  obtain ⟨events, hrun⟩ := h
  induction events generalizing start with
  | nil =>
      simp only [runEvents, Option.some.injEq] at hrun
      exact hrun ▸ hstart
  | cons event events ih =>
      obtain ⟨next, hnext, hrest⟩ := runEvents_cons hrun
      exact ih (hstep start event next hstart hnext) hrest

theorem Reaches.head {event : Event} (hstep : step start event = some next)
    (h : Reaches step next state) : Reaches step start state := by
  obtain ⟨events, hrun⟩ := h
  refine ⟨event :: events, ?_⟩
  simp only [runEvents, hstep]
  exact hrun

theorem Reaches.single {event : Event} (hstep : step start event = some next) :
    Reaches step start next := Reaches.refl.head hstep

theorem Reaches.trans {middle : State} (h : Reaches step start middle)
    (h' : Reaches step middle state) : Reaches step start state := by
  obtain ⟨events, hrun⟩ := h
  induction events generalizing start with
  | nil =>
      cases hrun
      exact h'
  | cons event events ih =>
      obtain ⟨next, hnext, hrest⟩ := runEvents_cons hrun
      exact (ih hrest).head hnext

/-- A run from a state with a property to one without it has a step that loses
the property. -/
theorem Reaches.exists_loss (holds : State → Prop) (h : Reaches step start state)
    (hstart : holds start) (hstate : ¬ holds state) :
    ∃ before event after, Reaches step start before ∧ holds before ∧
      step before event = some after ∧ ¬ holds after := by
  by_contra hnone
  have hkept : ∀ s event next, Reaches step start s ∧ holds s → step s event = some next →
      Reaches step start next ∧ holds next := by
    rintro s event next ⟨hs, hholds⟩ hnext
    refine ⟨hs.trans (.single hnext), ?_⟩
    by_contra hlost
    exact hnone ⟨s, event, next, hs, hholds, hnext, hlost⟩
  exact hstate (h.invariant hkept ⟨.refl, hstart⟩).2

/-- Each step of a run satisfies `ok` in the state it starts from. -/
def EachStep (step : State → Event → Option State)
    (ok : State → Event → Prop) : State → List Event → Prop
  | _, [] => True
  | state, event :: events =>
      ok state event ∧
        match step state event with
        | none => True
        | some next => EachStep step ok next events

instance EachStep.decidable (step : State → Event → Option State)
    (ok : State → Event → Prop) [∀ state event, Decidable (ok state event)] :
    ∀ start events, Decidable (EachStep step ok start events)
  | _, [] => inferInstanceAs (Decidable True)
  | state, event :: events =>
      match h : step state event with
      | none => decidable_of_iff (ok state event) (by simp [EachStep, h])
      | some next =>
          match EachStep.decidable step ok next events with
          | isTrue hrest =>
              decidable_of_iff (ok state event) (by simp [EachStep, h, hrest])
          | isFalse hrest => isFalse (by simp [EachStep, h, hrest])

theorem eachStep_cons {ok : State → Event → Prop} {event : Event}
    {events : List Event} (hstep : step start event = some next) :
    EachStep step ok start (event :: events) ↔
      ok start event ∧ EachStep step ok next events := by
  simp only [EachStep, hstep]

/-- A kind of step that only the event tells. -/
theorem eachStep_of_forall {ok : State → Event → Prop} {events : List Event}
    (h : ∀ event ∈ events, ∀ state, ok state event) : EachStep step ok start events := by
  induction events generalizing start with
  | nil => trivial
  | cons event events ih =>
      refine ⟨h event List.mem_cons_self start, ?_⟩
      split
      · trivial
      · exact ih fun later hlater => h later (List.mem_cons_of_mem _ hlater)

theorem EachStep.and {ok ok' : State → Event → Prop} {events : List Event}
    (h : EachStep step ok start events) (h' : EachStep step ok' start events) :
    EachStep step (fun state event => ok state event ∧ ok' state event) start events := by
  induction events generalizing start with
  | nil => trivial
  | cons event events ih =>
      refine ⟨⟨h.1, h'.1⟩, ?_⟩
      cases hnext : step start event with
      | none => trivial
      | some next =>
          exact ih ((eachStep_cons hnext).mp h).2 ((eachStep_cons hnext).mp h').2

/-- What the steps of a certain kind keep, their runs keep. -/
theorem EachStep.invariant {ok : State → Event → Prop} {invariant : State → Prop}
    {events : List Event} (hok : EachStep step ok start events)
    (hstep : ∀ state event next, invariant state → ok state event →
      step state event = some next → invariant next)
    (hstart : invariant start) (hrun : runEvents step start events = some state) :
    invariant state := by
  induction events generalizing start with
  | nil =>
      cases hrun
      exact hstart
  | cons event events ih =>
      obtain ⟨next, hnext, hrest⟩ := runEvents_cons hrun
      obtain ⟨hevent, hevents⟩ := (eachStep_cons hnext).mp hok
      exact ih hevents (hstep start event next hstart hevent hnext) hrest

/-- Conditions that agree on every step from a state with the invariant agree
on runs. -/
theorem eachStep_congr {ok ok' : State → Event → Prop}
    {invariant : State → Prop} {events : List Event}
    (hstep : ∀ state event next, invariant state →
      step state event = some next → invariant next)
    (hok : ∀ state event next, invariant state →
      step state event = some next → (ok state event ↔ ok' state event))
    (hstart : invariant start) (hrun : runEvents step start events = some state) :
    EachStep step ok start events ↔ EachStep step ok' start events := by
  induction events generalizing start with
  | nil => exact Iff.rfl
  | cons event events ih =>
      obtain ⟨next, hnext, hrest⟩ := runEvents_cons hrun
      rw [eachStep_cons hnext, eachStep_cons hnext,
        hok start event next hstart hnext,
        ih (hstep start event next hstart hnext) hrest]

/-- A defect that stays, and that comes from the steps that are not of a
certain kind only. -/
theorem defect_iff_not_eachStep {ok : State → Event → Prop}
    {invariant defect : State → Prop} {events : List Event}
    (hstep : ∀ state event next, invariant state →
      step state event = some next →
      invariant next ∧ (defect next ↔ defect state ∨ ¬ ok state event))
    (hstart : invariant start) (hrun : runEvents step start events = some state) :
    defect state ↔ defect start ∨ ¬ EachStep step ok start events := by
  induction events generalizing start with
  | nil =>
      cases hrun
      simp [EachStep]
  | cons event events ih =>
      obtain ⟨next, hnext, hrest⟩ := runEvents_cons hrun
      obtain ⟨hinvariant, hdefect⟩ := hstep start event next hstart hnext
      rw [ih hinvariant hrest, hdefect, eachStep_cons hnext, or_assoc,
        not_and_or]

/-- Steps of a certain kind that another system can follow make runs that it
can follow. -/
theorem EachStep.simulated {State' Event' : Type*}
    {step' : State' → Event' → Option State'} {start' : State'}
    {ok : State → Event → Prop} {related : State → State' → Prop}
    {events : List Event} (hok : EachStep step ok start events)
    (hstep : ∀ state state' event next, related state state' →
      ok state event → step state event = some next →
      ∃ next', Reaches step' state' next' ∧ related next next')
    (hstart : related start start')
    (hrun : runEvents step start events = some state) :
    ∃ state', Reaches step' start' state' ∧ related state state' := by
  induction events generalizing start start' with
  | nil =>
      cases hrun
      exact ⟨start', Reaches.refl, hstart⟩
  | cons event events ih =>
      obtain ⟨next, hnext, hrest⟩ := runEvents_cons hrun
      obtain ⟨hevent, hevents⟩ := (eachStep_cons hnext).mp hok
      obtain ⟨next', hreach, hrelated⟩ :=
        hstep start start' event next hstart hevent hnext
      obtain ⟨state', hreach', hstate⟩ := ih hevents hrelated hrest
      exact ⟨state', hreach.trans hreach', hstate⟩

def runTotal (step : State → Event → Option State)
    (cost : State → Event → Nat) : State → List Event → Nat
  | _, [] => 0
  | state, event :: events =>
      cost state event +
        match step state event with
        | none => 0
        | some next => runTotal step cost next events

theorem runTotal_cons {cost : State → Event → Nat} {event : Event}
    {events : List Event} (hstep : step start event = some next) :
    runTotal step cost start (event :: events) =
      cost start event + runTotal step cost next events := by
  simp only [runTotal, hstep]

/-- An account that every step brings forward by its cost. -/
theorem runTotal_invariant {cost : State → Event → Nat}
    {account : Nat → State → Prop} {events : List Event} {total : Nat}
    (hstep : ∀ total state event next, account total state →
      step state event = some next →
      account (total + cost state event) next)
    (hstart : account total start)
    (hrun : runEvents step start events = some state) :
    account (total + runTotal step cost start events) state := by
  induction events generalizing start total with
  | nil =>
      cases hrun
      exact hstart
  | cons event events ih =>
      obtain ⟨next, hnext, hrest⟩ := runEvents_cons hrun
      rw [runTotal_cons hnext, ← Nat.add_assoc]
      exact ih (hstep total start event next hstart hnext) hrest

/-- A run costs nothing exactly if none of its steps does. -/
theorem runTotal_eq_zero_iff {cost : State → Event → Nat}
    {events : List Event} (hrun : runEvents step start events = some state) :
    runTotal step cost start events = 0 ↔
      EachStep step (fun state event => cost state event = 0) start events := by
  induction events generalizing start with
  | nil => exact iff_of_true rfl trivial
  | cons event events ih =>
      obtain ⟨next, hnext, hrest⟩ := runEvents_cons hrun
      rw [runTotal_cons hnext, eachStep_cons hnext, ← ih hrest]
      omega

/-- The method of potentials. Where every step is paid for, by what it takes
off the potential, by the gain it makes or by what its event allows, a long run
has made its gains. -/
theorem length_le_of_potential (potential gain : State → Nat) (allowance : Event → Nat)
    {invariant : State → Prop} {events : List Event}
    (hstep : ∀ state event next, invariant state → step state event = some next →
      invariant next ∧
        1 + potential next + gain state ≤ potential state + gain next + allowance event)
    (hstart : invariant start) (hrun : runEvents step start events = some state) :
    events.length + potential state + gain start ≤
      potential start + gain state + (events.map allowance).sum := by
  induction events generalizing start with
  | nil =>
      cases hrun
      rw [List.length_nil, List.map_nil, List.sum_nil]
      omega
  | cons event events ih =>
      obtain ⟨next, hnext, hrest⟩ := runEvents_cons hrun
      obtain ⟨hinvariant, hpaid⟩ := hstep start event next hstart hnext
      have hlength := ih hinvariant hrest
      rw [List.length_cons, List.map_cons, List.sum_cons]
      omega

/-- Systems side by side, in any order of their events. -/
def stepAt {Index : Type*} [DecidableEq Index]
    (step : State → Event → Option State) (states : Index → State)
    (event : Index × Event) : Option (Index → State) :=
  match step (states event.1) event.2 with
  | none => none
  | some next => some (Function.update states event.1 next)

theorem stepAt_cases {Index : Type*} [DecidableEq Index]
    {states states' : Index → State} {event : Index × Event}
    (h : stepAt step states event = some states') :
    ∃ next, step (states event.1) event.2 = some next ∧
      states' = Function.update states event.1 next := by
  unfold stepAt at h
  split at h
  · cases h
  · rename_i next hnext
    exact ⟨next, hnext, (Option.some.inj h).symm⟩

/-- What the steps of one system keep is kept in all of them. -/
theorem stepAt_invariant {Index : Type*} [DecidableEq Index]
    {invariant : State → Prop} {states states' : Index → State}
    {event : Index × Event}
    (hstep : ∀ state event next, invariant state →
      step state event = some next → invariant next)
    (hstates : ∀ index, invariant (states index))
    (h : stepAt step states event = some states') (index : Index) :
    invariant (states' index) := by
  obtain ⟨next, hnext, rfl⟩ := stepAt_cases h
  rcases eq_or_ne index event.1 with rfl | hother
  · rw [Function.update_self]
    exact hstep _ _ next (hstates _) hnext
  · rw [Function.update_of_ne hother]
    exact hstates index

/-- Each of the systems runs on its own. -/
theorem Reaches.component {Index : Type*} [DecidableEq Index]
    {first last : Index → State} (h : Reaches (stepAt step) first last)
    (index : Index) : Reaches step (first index) (last index) := by
  obtain ⟨events, hrun⟩ := h
  induction events generalizing first with
  | nil =>
      simp only [runEvents, Option.some.injEq] at hrun
      exact hrun ▸ Reaches.refl
  | cons event events ih =>
      obtain ⟨middle, hmiddle, hrest⟩ := runEvents_cons hrun
      have hreaches := ih hrest
      obtain ⟨next, hnext, rfl⟩ := stepAt_cases hmiddle
      rcases eq_or_ne index event.1 with rfl | hother
      · rw [Function.update_self] at hreaches
        exact hreaches.head hnext
      · rwa [Function.update_of_ne hother] at hreaches

end CsPrimer.Foundation
