import CsPrimer.BasicShell.Signals

/-!
What the handler of the basic shell kills. `pid` is set from `fork` to the
reset behind `block_sigint`, so it names a child that has been forked. It
names one that has not been waited for exactly while `waitid` has not returned.
-/

namespace CsPrimer.BasicShell

open Foundation

/-- A signal that comes now makes the handler kill a child that has not been
waited for, if it makes it kill at all. -/
def KillsChild (s : State) (event : Event) : Prop :=
  event = .sigint → s.disposition = .handler → ¬ 0 ≥ s.pid →
    s.children s.pid ≠ none

/-- No signal is taken from the return of `waitid` to that of the
`block_sigint` behind it. -/
def NotReaped (s : State) (event : Event) : Prop :=
  event = .sigint → s.point.reaped = false

instance (s : State) (event : Event) : Decidable (KillsChild s event) :=
  inferInstanceAs (Decidable (_ → _ → _ → _))

instance (s : State) (event : Event) : Decidable (NotReaped s event) :=
  inferInstanceAs (Decidable (_ → _))

variable {s next : State} {event : Event}

theorem Sound.running_of_reaped (h : Sound s) (hreaped : s.point.reaped = true) :
    s.Running := by
  have hplaced := h.placed
  unfold State.Placed at hplaced
  unfold Point.reaped at hreaped
  split at hreaped
  · rename_i hpoint
    simp only [hpoint] at hplaced
    exact hplaced.1
  · rename_i hpoint
    simp only [hpoint] at hplaced
    exact hplaced.1
  · cases hreaped

theorem State.sigint_enabled (h : s.sigint = some next) :
    s.point.alive = true ∧ s.blocked = false := by
  unfold State.sigint at h
  split at h
  · rename_i hopen
    exact hopen
  · cases h

/-- Where the handler runs with the pid of a child, the child is gone once
`waitid` has returned, and not before. -/
theorem Sound.killsChild_iff (h : Sound s) (hnext : s.sigint = some next) :
    KillsChild s .sigint ↔ NotReaped s .sigint := by
  obtain ⟨halive, hblocked⟩ := State.sigint_enabled hnext
  have hidle : ¬ s.Running → NotReaped s .sigint := by
    intro hnot _
    by_contra hreaped
    exact hnot (h.running_of_reaped (by simpa using hreaped))
  by_cases hhandler : s.disposition = .handler
  · rcases h.canTake ⟨halive, hblocked, hhandler⟩ with
      ⟨hpid, -⟩ | ⟨hrunning, -, hgone⟩
    · apply iff_of_true
      · exact fun _ _ hpos => absurd hpid.2 hpos
      · exact hidle fun hrunning => absurd hpid.2 (Int.not_le.mpr hrunning.2)
    · have hpos : ¬ 0 ≥ s.pid := Int.not_le.mpr hrunning.2
      simp only [KillsChild, NotReaped, hhandler, hpos, forall_const,
        not_false_eq_true, ne_eq, hgone, Bool.not_eq_true]
  · apply iff_of_true
    · exact fun _ hinstalled => absurd hinstalled hhandler
    · exact hidle fun hrunning => hhandler hrunning.1

/-- For every run from the start. -/
theorem handler_kills_child_iff (blocked ignored : Bool) (events : List Event)
    (s : State) (hrun : runEvents step (start blocked ignored) events = some s) :
    EachStep step KillsChild (start blocked ignored) events ↔
      EachStep step NotReaped (start blocked ignored) events := by
  refine eachStep_congr (fun _ _ _ hsound hnext => Sound.step hsound hnext) ?_
    (Sound.start blocked ignored) hrun
  intro s event next hsound hnext
  cases event with
  | sigint => exact hsound.killsChild_iff hnext
  | _ => exact iff_of_true (fun h => by cases h) (fun h => by cases h)

def commandRun : List Event :=
  [.advance, .advance, .advance, .advance, .advance,
    .getline (some ['l', 's', '\n']), .advance, .advance, .advance, .fork 7,
    .advance, .advance, .childAdvance 7, .childAdvance 7, .childAdvance 7]

def killedRun : List Event :=
  commandRun ++ [.sigint, .childDies 7 ⟨.killed, 2⟩, .advance]

/-- The signal comes right after `waitid` has returned. -/
def reapedRun : List Event :=
  commandRun ++ [.childDies 7 ⟨.exited, 0⟩, .advance, .sigint]

theorem killed_run_kills_child_iff :
    ∃ s, runEvents step (start false false) killedRun = some s ∧
      EachStep step KillsChild (start false false) killedRun := by
  have hsome : (runEvents step (start false false) killedRun).isSome = true := by
    decide +kernel
  obtain ⟨s, hrun⟩ := Option.isSome_iff_exists.mp hsome
  exact ⟨s, hrun,
    (handler_kills_child_iff false false killedRun s hrun).mpr (by decide +kernel)⟩

theorem reaped_run_kills_reaped :
    (runEvents step (start false false) reapedRun).isSome = true ∧
      ¬ EachStep step KillsChild (start false false) reapedRun := by
  decide +kernel

end CsPrimer.BasicShell
