import CsPrimer.Foundation.EventRun

/-!
What the runs of a system show. An event shows an observation or nothing, and
a system implements another if every sequence of observations of the one is
one of the other. A simulation, in which each step is followed by steps that
show the same, is how this is proved.
-/

namespace CsPrimer.Foundation

variable {State State' Event Event' Shown : Type*}

def observed (step : State → Event → Option State)
    (shows : State → Event → Option Shown) : State → List Event → List Shown
  | _, [] => []
  | state, event :: events =>
      (shows state event).toList ++
        match step state event with
        | none => []
        | some next => observed step shows next events

/-- All that the runs from a state can show. -/
def Traces (step : State → Event → Option State)
    (shows : State → Event → Option Shown) (start : State) : Set (List Shown) :=
  {trace | ∃ events state, runEvents step start events = some state ∧
    observed step shows start events = trace}

variable {step : State → Event → Option State} {shows : State → Event → Option Shown}
  {start state next : State} {events events' : List Event}

theorem observed_cons {event : Event} (hstep : step start event = some next) :
    observed step shows start (event :: events) =
      (shows start event).toList ++ observed step shows next events := by
  simp only [observed, hstep]

theorem observed_append (hrun : runEvents step start events = some state) :
    observed step shows start (events ++ events') =
      observed step shows start events ++ observed step shows state events' := by
  induction events generalizing start with
  | nil =>
      cases hrun
      rfl
  | cons event events ih =>
      obtain ⟨next, hnext, hrest⟩ := runEvents_cons hrun
      rw [List.cons_append, observed_cons hnext, observed_cons hnext, ih hrest,
        List.append_assoc]

/-- A step that the second system can follow: by some steps, none included,
that show what the step shows. -/
def Follows (step' : State' → Event' → Option State') (shows' : State' → Event' → Option Shown)
    (related : State' → Prop) (shown : Option Shown) (state' : State') : Prop :=
  ∃ events next', runEvents step' state' events = some next' ∧
    observed step' shows' state' events = shown.toList ∧ related next'

variable {step' : State' → Event' → Option State'} {shows' : State' → Event' → Option Shown}
  {start' state' next' : State'}

/-- A step that shows nothing may be followed by no step. -/
theorem Follows.none {related : State' → Prop} (hrelated : related state') :
    Follows step' shows' related none state' :=
  ⟨[], state', rfl, rfl, hrelated⟩

theorem Follows.single {related : State' → Prop} (event' : Event') {shown : Option Shown}
    (hstep : step' state' event' = some next') (hshown : shows' state' event' = shown)
    (hrelated : related next') : Follows step' shows' related shown state' := by
  refine ⟨[event'], next', ?_, ?_, hrelated⟩
  · simp only [runEvents, hstep]
  · rw [observed_cons hstep, hshown]
    exact List.append_nil _

theorem Follows.imp {related related' : State' → Prop} {shown : Option Shown}
    (h : Follows step' shows' related shown state')
    (himp : ∀ next', related next' → related' next') :
    Follows step' shows' related' shown state' := by
  obtain ⟨events, next', hrun, hshown, hrelated⟩ := h
  exact ⟨events, next', hrun, hshown, himp next' hrelated⟩

/-- A run whose steps can be followed shows what a run of the second system
shows, and related states are reached. -/
theorem exists_followed {ok : State → Event → Prop} (related : State → State' → Prop)
    (hfollow : ∀ state state' event next, related state state' → ok state event →
      step state event = some next →
      Follows step' shows' (related next) (shows state event) state')
    (hstart : related start start') (hrun : runEvents step start events = some state)
    (hok : EachStep step ok start events) :
    ∃ events' state', runEvents step' start' events' = some state' ∧
      observed step' shows' start' events' = observed step shows start events ∧
      related state state' := by
  induction events generalizing start start' with
  | nil =>
      cases hrun
      exact ⟨[], start', rfl, rfl, hstart⟩
  | cons event events ih =>
      obtain ⟨next, hnext, hrest⟩ := runEvents_cons hrun
      obtain ⟨hevent, hevents⟩ := (eachStep_cons hnext).mp hok
      obtain ⟨first, next', hfirst, hshown, hrelated⟩ :=
        hfollow start start' event next hstart hevent hnext
      obtain ⟨rest, state', hrest', htrace, hstate⟩ := ih hrelated hrest hevents
      refine ⟨first ++ rest, state', ?_, ?_, hstate⟩
      · rw [runEvents_append hfirst, hrest']
      · rw [observed_append hfirst, observed_cons hnext, hshown, htrace]

/-- A simulation makes every trace one of the second system. -/
theorem traces_subset (related : State → State' → Prop)
    (hfollow : ∀ state state' event next, related state state' →
      step state event = some next →
      Follows step' shows' (related next) (shows state event) state')
    (hstart : related start start') :
    Traces step shows start ⊆ Traces step' shows' start' := by
  rintro _ ⟨events, state, hrun, rfl⟩
  obtain ⟨events', state', hrun', htrace, -⟩ := exists_followed related
    (fun state state' event next hrelated _ hnext =>
      hfollow state state' event next hrelated hnext) hstart hrun
    (eachStep_of_forall fun _ _ _ => trivial)
  exact ⟨events', state', hrun', htrace⟩

end CsPrimer.Foundation
