import CsPrimer.BasicShell.Shell

/-!
The name of the command that `main` of the basic shell looks up. `handle_input`
keeps back the line that is a newline only; `parse_cmd` finds no word in any
line of separators. What lies between the two is handed on and has no name.
-/

namespace CsPrimer.BasicShell

open Foundation

/-- The step is the `parse_cmd` of a line that was handed on, and then the
line is as `ok` says. -/
def OnParse (ok : List Char → Prop) (s : State) (event : Event) : Prop :=
  match s.point, event with
  | .dispatch line, .advance => ok line
  | _, _ => True

instance (ok : List Char → Prop) [DecidablePred ok] (s : State) (event : Event) :
    Decidable (OnParse ok s event) := by
  unfold OnParse
  split
  · infer_instance
  · infer_instance

/-- `parse_cmd` finds a command name, so that none is NULL. -/
def NamesCommand (line : List Char) : Prop := parseCmd line ≠ []

/-- Before its first NUL the line has a character other than a space, a tab
or a newline. -/
def HasWord (line : List Char) : Prop :=
  ∃ c ∈ cString line, c ∉ [' ', '\t', '\n']

instance : DecidablePred NamesCommand := fun _ => inferInstanceAs (Decidable (_ ≠ _))

instance : DecidablePred HasWord := fun line => List.decidableBEx _ (cString line)

variable {s next : State} {event : Event} {line : List Char}

theorem namesCommand_iff : NamesCommand line ↔ HasWord line := words_ne_nil_iff

/-- Without a word the call of `strcmp` has NULL for a name. -/
theorem runLine_crashed_iff : (s.runLine line).point = .crashed ↔ ¬ NamesCommand line := by
  unfold State.runLine NamesCommand
  split
  · rename_i hwords
    exact iff_of_true rfl (by simp [hwords])
  · rename_i name args hwords
    refine iff_of_false ?_ (by simp [hwords])
    dsimp only
    split_ifs <;> simp [State.call]

theorem waitid_point (hnext : s.waitid = some next) : next.point = .runBlock := by
  unfold State.waitid at hnext
  split at hnext
  · cases hnext
    rfl
  · split at hnext <;> cases hnext
    rfl

/-- Of the statements of the shell only the lookup of a name crashes. -/
theorem advance_crashed_iff (hnext : s.advance = some next) :
    next.point = .crashed ↔ ¬ OnParse NamesCommand s .advance := by
  unfold State.advance at hnext
  unfold OnParse
  cases hpoint : s.point <;> simp only [hpoint] at hnext ⊢
  case dispatch line =>
    cases hnext
    exact runLine_crashed_iff
  case waitid => simp [waitid_point hnext]
  case inputTest result =>
    cases result with
    | none =>
        cases hnext
        simp [State.ret]
    | some line =>
        simp only at hnext
        split at hnext <;> cases hnext <;> simp [State.ret]
  all_goals cases hnext
  all_goals simp [State.call, State.ret]

theorem fails_point (hnext : s.fails = some next) : next.point ≠ .crashed := by
  unfold State.fails at hnext
  split at hnext <;> cases hnext <;> exact Point.noConfusion

theorem getline_point {result : Option (List Char)} (hnext : s.getline result = some next) :
    next.point ≠ .crashed := by
  unfold State.getline at hnext
  split at hnext <;> cases hnext
  exact Point.noConfusion

theorem fork_point {pid : Int} (hnext : s.fork pid = some next) :
    next.point ≠ .crashed := by
  unfold State.fork at hnext
  split at hnext
  · split at hnext <;> cases hnext
    exact Point.noConfusion
  · cases hnext

theorem siglongjmp_point {buffer : Option JmpBuf} {point : Point} (hpoint : point ≠ .crashed) :
    (s.siglongjmp buffer point).point ≠ .crashed := by
  unfold State.siglongjmp
  split
  · exact Point.noConfusion
  · split
    · exact hpoint
    · exact Point.noConfusion

theorem sigint_point (hnext : s.sigint = some next) : next.point ≠ .crashed := by
  unfold State.sigint at hnext
  split at hnext
  · rename_i hopen
    have halive : s.point ≠ .crashed := by
      intro hcrashed
      rw [hcrashed] at hopen
      cases hopen.1
    split at hnext <;> cases hnext
    · exact Point.noConfusion
    · exact halive
    · unfold State.handler
      split <;> exact siglongjmp_point Point.noConfusion
  · cases hnext

theorem withChild_point {pid : Int} {act : Child → Option Child}
    (hnext : s.withChild pid act = some next) : next.point = s.point := by
  unfold State.withChild at hnext
  split at hnext <;> cases hnext
  rfl

theorem onParse_of_ne {ok : List Char → Prop} (hevent : event ≠ .advance) :
    OnParse ok s event := by
  unfold OnParse
  split
  · exact absurd rfl hevent
  · trivial

/-- Nothing but its children moves after a crash. -/
theorem crash_lasts (hnext : step s event = some next) (hcrashed : s.point = .crashed) :
    next.point = .crashed := by
  cases event with
  | advance => simp [step, State.advance, hcrashed] at hnext
  | fails => simp [step, State.fails, hcrashed] at hnext
  | getline result => simp [step, State.getline, hcrashed] at hnext
  | fork pid => simp [step, State.fork, hcrashed] at hnext
  | sigint => simp [step, State.sigint, Point.alive, hcrashed] at hnext
  | childAdvance pid => exact (withChild_point hnext).trans hcrashed
  | childDies pid info => exact (withChild_point hnext).trans hcrashed

/-- A crash comes from a line without a name only. -/
theorem step_crashed_iff (hnext : step s event = some next) :
    next.point = .crashed ↔ s.point = .crashed ∨ ¬ OnParse NamesCommand s event := by
  have hlasts := crash_lasts hnext
  have hother (hevent : event ≠ .advance)
      (hpoint : next.point = .crashed → s.point = .crashed) :
      next.point = .crashed ↔ s.point = .crashed ∨ ¬ OnParse NamesCommand s event := by
    rw [or_iff_left (not_not_intro (onParse_of_ne hevent))]
    exact ⟨hpoint, hlasts⟩
  cases event with
  | advance =>
      have hadvance := advance_crashed_iff hnext
      exact ⟨fun h => .inr (hadvance.mp h), fun h => h.elim hlasts hadvance.mpr⟩
  | fails => exact hother (by simp) fun h => absurd h (fails_point hnext)
  | getline result => exact hother (by simp) fun h => absurd h (getline_point hnext)
  | fork pid => exact hother (by simp) fun h => absurd h (fork_point hnext)
  | sigint => exact hother (by simp) fun h => absurd h (sigint_point hnext)
  | childAdvance pid => exact hother (by simp) fun h => (withChild_point hnext).symm.trans h
  | childDies pid info => exact hother (by simp) fun h => (withChild_point hnext).symm.trans h

/-- For every run from the start: all lines that are parsed have a name
exactly if all have a word, and the shell crashes exactly if not. -/
theorem commands_named_iff (blocked ignored : Bool) (events : List Event) (s : State)
    (hrun : runEvents step (start blocked ignored) events = some s) :
    (EachStep step (OnParse NamesCommand) (start blocked ignored) events ↔
        EachStep step (OnParse HasWord) (start blocked ignored) events) ∧
      (s.point = .crashed ↔
        ¬ EachStep step (OnParse HasWord) (start blocked ignored) events) := by
  have hsame : OnParse NamesCommand = OnParse HasWord := by
    congr 1
    funext line
    exact propext namesCommand_iff
  have hdefect := defect_iff_not_eachStep
    (fun _ _ _ _ hnext => ⟨trivial, step_crashed_iff hnext⟩) trivial hrun
  have hstart : (start blocked ignored).point ≠ .crashed := by simp [start]
  rw [or_iff_right hstart] at hdefect
  rw [← hsame]
  exact ⟨Iff.rfl, hdefect⟩

def lookupRun (line : List Char) : List Event :=
  [.advance, .advance, .advance, .advance, .advance, .getline (some line),
    .advance, .advance, .advance]

theorem ls_is_named :
    ∃ s, runEvents step (start false false) (lookupRun ['l', 's', '\n']) = some s ∧
      s.point ≠ .crashed := by
  have hsome :
      (runEvents step (start false false) (lookupRun ['l', 's', '\n'])).isSome = true := by
    decide +kernel
  obtain ⟨s, hrun⟩ := Option.isSome_iff_exists.mp hsome
  have hcrash := (commands_named_iff false false _ s hrun).2
  exact ⟨s, hrun, fun h => hcrash.mp h (by decide +kernel)⟩

/-- A space and a newline are handed on, and there is no word. -/
theorem blank_has_no_name :
    (runEvents step (start false false) (lookupRun [' ', '\n'])).map State.point =
        some .crashed ∧
      ¬ EachStep step (OnParse NamesCommand) (start false false)
        (lookupRun [' ', '\n']) := by
  decide +kernel

end CsPrimer.BasicShell
