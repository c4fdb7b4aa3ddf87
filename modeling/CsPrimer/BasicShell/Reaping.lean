import CsPrimer.BasicShell.Signals

/-!
What becomes of the children. `run_cmd` does not return before its child has
been waited for, whatever signals come, so there is never more than one, and
none while a prompt is shown. Beside the state there is a record of how the
command ended that was typed last; a builtin counts as one that has succeeded.
A SIGINT that comes when the child has been waited for goes back to `waitid`,
which has no child then and clears what it told of the first.
-/

namespace CsPrimer.BasicShell

open Foundation

/-- The state, how the last command ended, and whether a SIGINT came after its
child had been waited for. -/
structure Watched where
  state : State
  ended : Option ChildInfo
  late : Bool

def watchedStart (blocked ignored : Bool) : Watched where
  state := start blocked ignored
  ended := none
  late := false

/-- A line starts from success; then the end of the child counts. -/
def endedBy (w : Watched) : Event → Option ChildInfo
  | .childDies _ info => some info
  | .advance =>
      match w.state.point with
      | .dispatch _ => some ⟨.exited, 0⟩
      | _ => w.ended
  | _ => w.ended

def lateBy (w : Watched) : Event → Bool
  | .sigint => w.late || w.state.point.reaped
  | .advance =>
      match w.state.point with
      | .dispatch _ => false
      | _ => w.late
  | _ => w.late

def watchedStep (w : Watched) (event : Event) : Option Watched :=
  match step w.state event with
  | none => none
  | some next => some ⟨next, endedBy w event, lateBy w event⟩

/-- Where a child may be there. The others are reached with every child waited
for. -/
def Point.hasChild : Point → Bool
  | .runSetjmp | .runUnblock | .waitid | .error _ | .exited _ | .killed => true
  | _ => false

def Point.forks : Point → Bool
  | .fork _ => true
  | _ => false

/-- What is known of the record while the child lives, and after. -/
def Recorded (ended : Option ChildInfo) (late : Bool) (s : State) : Prop :=
  match s.children s.pid with
  | none =>
      if late then s.point = .waitid ∨ s.point.alive = false ∨
        s.childInfo = none ∧ s.point.forks = false
      else s.point ≠ .waitid ∧ s.childInfo = ended
  | some child =>
      late = false ∧
        match child.point with
        | .dead info => some info = ended
        | _ => s.childInfo = ended

structure Attended (w : Watched) : Prop where
  sound : Sound w.state
  only_child : ∀ pid, w.state.children pid ≠ none →
    pid = w.state.pid ∧ 0 < pid ∧ w.state.point.hasChild = true
  recorded : Recorded w.ended w.late w.state

variable {w w' : Watched} {s next : State} {ended : Option ChildInfo} {late : Bool}

theorem watchedStart_attended (blocked ignored : Bool) :
    Attended (watchedStart blocked ignored) where
  sound := Sound.start blocked ignored
  only_child := by
    intro pid hpid
    exact absurd rfl hpid
  recorded := ⟨by simp [watchedStart, start], rfl⟩

/-- Where there is no child, none is left behind. -/
theorem Attended.childless (h : Attended w) (hpoint : w.state.point.hasChild = false) (pid : Int) :
    w.state.children pid = none := by
  by_contra hchild
  have hhas := (h.only_child pid hchild).2.2
  rw [hpoint] at hhas
  cases hhas

/-- What is known of the record without children. -/
theorem recorded_of_childless (hnone : ∀ pid, s.children pid = none) :
    Recorded ended late s ↔
      if late then s.point = .waitid ∨ s.point.alive = false ∨
        s.childInfo = none ∧ s.point.forks = false
      else s.point ≠ .waitid ∧ s.childInfo = ended := by
  unfold Recorded
  rw [hnone]

/-- Outside `waitid`, a record that is not that of the shell is one that it has
cleared. -/
theorem Attended.childInfo_eq (h : Attended w) (hnone : ∀ pid, w.state.children pid = none)
    (hpoint : w.state.point ≠ .waitid) (halive : w.state.point.alive = true) :
    w.state.childInfo = if w.late then none else w.ended := by
  have hrecorded := (recorded_of_childless hnone).mp h.recorded
  split at hrecorded
  · rw [if_pos ‹_›]
    exact ((hrecorded.resolve_left hpoint).resolve_left (by simp [halive])).1
  · rw [if_neg ‹_›]
    exact hrecorded.2

/-- A step without children, from a point behind `waitid` or before it. -/
theorem Attended.quiet (h : Attended w) (hsound : Sound next)
    (hnone : ∀ pid, w.state.children pid = none) (hchildren : next.children = w.state.children)
    (hpoint : w.state.point ≠ .waitid) (halive : w.state.point.alive = true)
    (hnext : next.point ≠ .waitid ∧ next.point.forks = false)
    (hinfo : next.childInfo = w.state.childInfo) :
    Attended ⟨next, w.ended, w.late⟩ := by
  have hnone' : ∀ pid, next.children pid = none := fun pid => hchildren ▸ hnone pid
  refine ⟨hsound, fun pid hpid => absurd (hnone' pid) hpid, (recorded_of_childless hnone').mpr ?_⟩
  have hinfo' := hinfo.trans (h.childInfo_eq hnone hpoint halive)
  dsimp only
  split
  · rw [if_pos ‹_›] at hinfo'
    exact .inr (.inr ⟨hinfo', hnext.2⟩)
  · rw [if_neg ‹_›] at hinfo'
    exact ⟨hnext.1, hinfo'⟩

/-- A step that leaves child, pid and record alone, and that the shell survives
only with a child. -/
theorem Attended.waiting (h : Attended w) (hsound : Sound next)
    (hpoint : next.point.hasChild = true) (hpid : next.pid = w.state.pid)
    (hchildren : next.children = w.state.children)
    (hgone : w.state.children w.state.pid = none → next.point.alive = false)
    (hinfo : next.childInfo = w.state.childInfo) : Attended ⟨next, w.ended, w.late⟩ := by
  refine ⟨hsound, ?_, ?_⟩
  · intro pid hchild
    rw [hchildren] at hchild
    obtain ⟨hself, hpos, -⟩ := h.only_child pid hchild
    exact ⟨hself.trans hpid.symm, hpos, hpoint⟩
  · have hrecorded := h.recorded
    unfold Recorded at hrecorded ⊢
    dsimp only
    rw [hpid, hchildren, hinfo]
    split at hrecorded
    · have hdead := hgone ‹_›
      split at hrecorded
      · rw [if_pos ‹_›]
        exact .inr (.inl hdead)
      · rw [if_neg ‹_›]
        refine ⟨?_, hrecorded.2⟩
        intro hwaitid
        rw [hwaitid] at hdead
        cases hdead
    · exact hrecorded

/-- A line is looked up before there is a child. -/
theorem Attended.runLine (h : Attended w) {line : List Char}
    (hpoint : w.state.point = .dispatch line) (hsound : Sound (w.state.runLine line)) :
    Attended ⟨w.state.runLine line, some ⟨.exited, 0⟩, false⟩ := by
  have hquiet : w.state.point.hasChild = false := by rw [hpoint]; rfl
  have hkept : (w.state.runLine line).children = w.state.children ∧
      (w.state.runLine line).point ≠ .waitid ∧
      (w.state.runLine line).childInfo = some ⟨.exited, 0⟩ := by
    unfold State.runLine
    split
    · exact ⟨rfl, by simp, rfl⟩
    · dsimp only
      split_ifs <;> exact ⟨rfl, by simp [State.call], rfl⟩
  have hnone : ∀ pid, (w.state.runLine line).children pid = none := by
    intro pid
    rw [hkept.1]
    exact h.childless hquiet pid
  exact ⟨hsound, fun pid hpid => absurd (hnone pid) hpid,
    (recorded_of_childless hnone).mpr hkept.2⟩

/-- `waitid` takes the child away, and its end into the record of the shell. -/
theorem Attended.waitid (h : Attended w) (hsound : Sound next)
    (hpoint : w.state.point = .waitid) (hnext : w.state.waitid = some next) :
    Attended ⟨next, w.ended, w.late⟩ := by
  have hrecorded := h.recorded
  unfold Recorded at hrecorded
  unfold State.waitid at hnext
  split at hnext
  · rename_i hgone
    cases hnext
    rw [hgone] at hrecorded
    refine ⟨hsound, ?_, ?_⟩
    · intro pid hchild
      obtain ⟨rfl, -, -⟩ := h.only_child pid hchild
      exact absurd hgone hchild
    · unfold Recorded
      dsimp only
      rw [hgone]
      cases hlate : w.late with
      | true => exact .inr (.inr ⟨rfl, rfl⟩)
      | false =>
          rw [hlate] at hrecorded
          exact absurd hpoint hrecorded.1
  · rename_i child hchild
    split at hnext <;> cases hnext
    rename_i info hdead
    rw [hchild] at hrecorded
    simp only [hdead] at hrecorded
    have hnone : ∀ pid, Function.update w.state.children w.state.pid none pid = none := by
      intro pid
      rcases eq_or_ne pid w.state.pid with rfl | hne
      · exact Function.update_self ..
      · rw [Function.update_of_ne hne]
        by_contra hother
        exact hne (h.only_child pid hother).1
    refine ⟨hsound, fun pid hpid => absurd (hnone pid) hpid, (recorded_of_childless hnone).mpr ?_⟩
    dsimp only
    rw [hrecorded.1]
    exact ⟨by simp, hrecorded.2⟩

theorem Attended.advance (h : Attended w) (hnext : w.state.advance = some next) :
    Attended ⟨next, endedBy w .advance, lateBy w .advance⟩ := by
  have hsound : Sound next := h.sound.advance hnext
  have hchildless := h.childless
  have hplaced := h.sound.placed
  unfold State.Placed at hplaced
  unfold State.advance at hnext
  unfold endedBy lateBy
  cases hpoint : w.state.point <;> rw [hpoint] at hchildless <;>
    simp only [hpoint] at hnext hplaced ⊢
  case begin | install | callInput | inputSetjmp | inputLoop | inputBlock | runBlock | resetPid =>
    cases hnext
    exact h.quiet hsound (hchildless rfl) rfl (by simp [hpoint]) (by rw [hpoint]; rfl)
      ⟨by simp [State.call, State.ret], rfl⟩ rfl
  case inputTest result =>
    have hkept : next.children = w.state.children ∧
        (next.point ≠ .waitid ∧ next.point.forks = false) ∧
        next.childInfo = w.state.childInfo := by
      cases result with
      | none =>
          cases hnext
          exact ⟨rfl, ⟨by simp [State.ret], rfl⟩, rfl⟩
      | some line =>
          simp only at hnext
          split at hnext <;> cases hnext <;> exact ⟨rfl, ⟨by simp [State.ret], rfl⟩, rfl⟩
    exact h.quiet hsound (hchildless rfl) hkept.1 (by simp [hpoint]) (by rw [hpoint]; rfl)
      hkept.2.1 hkept.2.2
  case dispatch line =>
    cases hnext
    exact h.runLine hpoint hsound
  case runSetjmp | runUnblock =>
    cases hnext
    exact h.waiting hsound rfl rfl rfl (fun hgone => absurd hgone hplaced.2.2.2) rfl
  case error =>
    cases hnext
    exact h.waiting hsound rfl rfl rfl (fun _ => rfl) rfl
  case waitid => exact h.waitid hsound hpoint hnext
  all_goals cases hnext

theorem Attended.fails (h : Attended w) (hnext : w.state.fails = some next) :
    Attended ⟨next, w.ended, w.late⟩ := by
  have hsound : Sound next := h.sound.fails hnext
  have hchildless := h.childless
  have hplaced := h.sound.placed
  unfold State.Placed at hplaced
  unfold State.fails at hnext
  cases hpoint : w.state.point <;> rw [hpoint] at hchildless <;>
    simp only [hpoint] at hnext hplaced
  case begin | install | inputLoop | inputBlock | dispatch | fork | runBlock =>
    cases hnext
    exact h.quiet hsound (hchildless rfl) rfl (by simp [hpoint]) (by rw [hpoint]; rfl)
      ⟨by simp, rfl⟩ rfl
  case runUnblock =>
    cases hnext
    exact h.waiting hsound rfl rfl rfl (fun hgone => absurd hgone hplaced.2.2.2) rfl
  all_goals cases hnext

theorem Attended.getline (h : Attended w) {result : Option (List Char)}
    (hnext : w.state.getline result = some next) : Attended ⟨next, w.ended, w.late⟩ := by
  have hsound : Sound next := h.sound.getline hnext
  unfold State.getline at hnext
  split at hnext <;> cases hnext
  rename_i hpoint
  exact h.quiet hsound (h.childless (by rw [hpoint]; rfl)) rfl (by simp [hpoint])
    (by rw [hpoint]; rfl) ⟨by simp, rfl⟩ rfl

/-- The only child, from now on. -/
theorem Attended.fork (h : Attended w) {pid : Int} (hnext : w.state.fork pid = some next) :
    Attended ⟨next, w.ended, w.late⟩ := by
  have hsound : Sound next := h.sound.fork hnext
  unfold State.fork at hnext
  split at hnext
  · rename_i cmd hpoint
    have hnone := h.childless (by rw [hpoint]; rfl)
    have hrecorded := (recorded_of_childless hnone).mp h.recorded
    rw [hpoint] at hrecorded
    split at hnext <;> cases hnext
    rename_i hpid
    refine ⟨hsound, ?_, ?_⟩
    · intro other hother
      dsimp only at hother
      rcases eq_or_ne other pid with rfl | hne
      · exact ⟨rfl, hpid.1, rfl⟩
      · rw [Function.update_of_ne hne] at hother
        exact absurd (hnone other) hother
    · unfold Recorded
      dsimp only
      rw [Function.update_self]
      cases hlate : w.late with
      | false =>
          rw [hlate] at hrecorded
          exact ⟨rfl, hrecorded.2⟩
      | true => simp [hlate, Point.alive, Point.forks] at hrecorded
  · cases hnext

theorem Sound.running (h : Sound s) (hpoint : s.point = .waitid ∨ s.point.reaped = true) :
    s.Running := by
  have hplaced := h.placed
  unfold State.Placed at hplaced
  rcases hpoint with hwaitid | hreaped
  · rw [hwaitid] at hplaced
    exact hplaced.1
  · unfold Point.reaped at hreaped
    split at hreaped
    · rw [‹s.point = _›] at hplaced
      exact hplaced.1
    · rw [‹s.point = _›] at hplaced
      exact hplaced.1
    · cases hreaped

theorem lateBy_of_early (hearly : w.state.point.reaped = false) : lateBy w .sigint = w.late := by
  simp only [lateBy, hearly, Bool.or_false]

/-- Another disposition than that of the handler is never late. -/
theorem Attended.early (h : Attended w) (hother : w.state.disposition ≠ .handler) :
    lateBy w .sigint = w.late :=
  lateBy_of_early (Bool.eq_false_iff.mpr fun hreaped => hother (h.sound.running (.inr hreaped)).1)

/-- The handler goes back to a prompt when there is no child, and to `waitid`
when there is one. -/
theorem Attended.sigint (h : Attended w) (hnext : w.state.sigint = some next) :
    Attended ⟨next, w.ended, lateBy w .sigint⟩ := by
  have hsound : Sound next := h.sound.sigint hnext
  unfold State.sigint at hnext
  split at hnext
  · rename_i hopen
    cases hdisposition : w.state.disposition <;> simp only [hdisposition] at hnext
    case default =>
      cases hnext
      rw [h.early (by simp [hdisposition])]
      exact h.waiting hsound rfl rfl rfl (fun _ => rfl) rfl
    case ignored =>
      cases hnext
      rw [h.early (by simp [hdisposition])]
      exact h
    case handler =>
      cases hnext
      have htake : w.state.CanTake := ⟨hopen.1, hopen.2, hdisposition⟩
      unfold State.handler at hsound ⊢
      rcases h.sound.canTake htake with ⟨hidle, hfilled⟩ | ⟨hrunning, hfilled, hreaped⟩
      · rw [if_pos hidle.2, hfilled.siglongjmp] at hsound ⊢
        have hnone : ∀ pid, w.state.children pid = none := by
          intro pid
          by_contra hchild
          obtain ⟨rfl, hpos, -⟩ := h.only_child pid hchild
          exact absurd hidle.2 (Int.not_le.mpr hpos)
        have hnot (hpoint : w.state.point = .waitid ∨ w.state.point.reaped = true) : False :=
          absurd hidle.2 (Int.not_le.mpr (h.sound.running hpoint).2)
        rw [lateBy_of_early (Bool.eq_false_iff.mpr fun hreaped => hnot (.inr hreaped))]
        exact h.quiet hsound hnone rfl (fun hwaitid => hnot (.inl hwaitid)) hopen.1
          ⟨by simp, rfl⟩ rfl
      · rw [if_neg (Int.not_le.mpr hrunning.2), hfilled.siglongjmp] at hsound ⊢
        cases hwhere : w.state.point.reaped with
        | false =>
            rw [lateBy_of_early hwhere]
            refine h.waiting hsound rfl rfl rfl (fun hgone => ?_) rfl
            rw [hreaped.mp hgone] at hwhere
            cases hwhere
        | true =>
            -- back at `waitid`, which has no child any more
            have hgone := hreaped.mpr hwhere
            refine ⟨hsound, ?_, ?_⟩
            · intro pid hchild
              obtain ⟨rfl, -, -⟩ := h.only_child pid hchild
              exact absurd hgone hchild
            · unfold Recorded lateBy
              dsimp only
              rw [hgone, hwhere, Bool.or_true]
              exact .inl rfl
  · cases hnext

/-- A step of the child, with the record that goes with it. -/
theorem Attended.withChild (h : Attended w) {pid : Int} {act : Child → Option Child}
    (hsound : Sound next) (hnext : w.state.withChild pid act = some next)
    (hrecorded : ∀ child child', act child = some child' →
      Recorded w.ended w.late { w.state with
        children := Function.update w.state.children w.state.pid (some child) } →
      Recorded ended w.late { w.state with
        children := Function.update w.state.children w.state.pid (some child') }) :
    Attended ⟨next, ended, w.late⟩ := by
  unfold State.withChild at hnext
  split at hnext
  · cases hnext
  · rename_i child' hbind
    obtain ⟨child, hchild, hact⟩ := Option.bind_eq_some_iff.mp hbind
    cases hnext
    have hthere : w.state.children pid ≠ none := by
      rw [hchild]
      exact Option.some_ne_none child
    obtain ⟨rfl, hpos, hpoint⟩ := h.only_child pid hthere
    refine ⟨hsound, ?_, ?_⟩
    · intro other hother
      dsimp only at hother
      rcases eq_or_ne other w.state.pid with rfl | hne
      · exact ⟨rfl, hpos, hpoint⟩
      · rw [Function.update_of_ne hne] at hother
        exact h.only_child other hother
    · apply hrecorded child child' hact
      rw [Function.update_eq_self_iff.mpr hchild.symm]
      exact h.recorded

theorem recorded_update (child : Child) :
    Recorded ended late { s with children := Function.update s.children s.pid (some child) } ↔
      late = false ∧
        match child.point with
        | .dead info => some info = ended
        | _ => s.childInfo = ended := by
  unfold Recorded
  dsimp only
  rw [Function.update_self]

theorem Attended.step {event : Event} (h : Attended w)
    (hnext : watchedStep w event = some w') : Attended w' := by
  unfold watchedStep at hnext
  split at hnext <;> cases hnext
  rename_i next hnext
  have hsound : Sound next := h.sound.step hnext
  cases event with
  | advance => exact h.advance hnext
  | fails => exact h.fails hnext
  | getline result => exact h.getline hnext
  | fork pid => exact h.fork hnext
  | sigint => exact h.sigint hnext
  | childAdvance pid =>
      apply h.withChild hsound hnext
      intro child child' hact hrecorded
      rw [recorded_update] at hrecorded ⊢
      unfold Child.advance at hact
      split at hact <;> cases hact
      all_goals
        rename_i hpoint
        simp only [hpoint] at hrecorded
        exact hrecorded
  | childDies pid info =>
      apply h.withChild hsound hnext
      intro child child' hact hrecorded
      rw [recorded_update] at hrecorded ⊢
      have hdead : child'.point = .dead info := by
        unfold Child.dies at hact
        split at hact
        · cases hact
        · cases hact
          rfl
        · split at hact <;> cases hact
          rfl
      simp only [hdead]
      exact ⟨hrecorded.1, rfl⟩

/-- Every run of the shell has its record. -/
theorem exists_watched (first : Watched) {events : List Event}
    (hrun : runEvents step first.state events = some s) :
    ∃ ended late, runEvents watchedStep first events = some ⟨s, ended, late⟩ := by
  induction events generalizing first with
  | nil =>
      cases hrun
      exact ⟨first.ended, first.late, rfl⟩
  | cons event events ih =>
      obtain ⟨next, hnext, hrest⟩ := runEvents_cons hrun
      obtain ⟨ended, late, hended⟩ := ih ⟨next, endedBy first event, lateBy first event⟩ hrest
      refine ⟨ended, late, ?_⟩
      simp only [runEvents, watchedStep, hnext]
      exact hended

/-- There is one child at most, and none outside `run_cmd` while the shell
lives; the prompt after a command is the one for how the command ended, or, if
a SIGINT came late, the one for a `siginfo_t` that is zero. -/
structure Reaped (w : Watched) : Prop where
  at_most_one : ∀ pid pid', w.state.children pid ≠ none → w.state.children pid' ≠ none →
    pid = pid'
  none_left : w.state.point.hasChild = false → ∀ pid, w.state.children pid = none
  prompt : w.state.point = .inputSetjmp → ∀ next, w.state.advance = some next →
    next.prompt = promptFor (if w.late then none else w.ended)

theorem Attended.reaped (h : Attended w) : Reaped w where
  at_most_one := by
    intro pid pid' hpid hpid'
    exact (h.only_child pid hpid).1.trans (h.only_child pid' hpid').1.symm
  none_left := h.childless
  prompt := by
    intro hpoint next hnext
    have hinfo := h.childInfo_eq (h.childless (by rw [hpoint]; rfl)) (by simp [hpoint])
      (by rw [hpoint]; rfl)
    simp only [State.advance, hpoint] at hnext
    cases hnext
    exact congrArg promptFor hinfo

/-- For every run from the start, with any lines, any ends of the children and
signals where none is blocked. -/
theorem children_reaped (blocked ignored : Bool) (events : List Event) (s : State)
    (hrun : runEvents step (start blocked ignored) events = some s) :
    ∃ ended late,
      runEvents watchedStep (watchedStart blocked ignored) events = some ⟨s, ended, late⟩ ∧
      Reaped ⟨s, ended, late⟩ := by
  obtain ⟨ended, late, hwatched⟩ := exists_watched (watchedStart blocked ignored) hrun
  refine ⟨ended, late, hwatched, Attended.reaped ?_⟩
  exact Reaches.invariant (fun _ _ _ h hnext => h.step hnext)
    (watchedStart_attended blocked ignored) ⟨events, hwatched⟩

def interruptedCommand : List Event :=
  [.advance, .advance, .advance, .advance, .advance, .getline (some ['l', 's', '\n']),
    .advance, .advance, .advance, .fork 7, .advance, .advance, .sigint,
    .childDies 7 ⟨.killed, 2⟩, .advance, .advance, .advance, .advance]

theorem interrupted_command_reaped :
    ∃ s ended late, runEvents watchedStep (watchedStart false false) interruptedCommand =
        some ⟨s, ended, late⟩ ∧ s.point = .inputSetjmp ∧ Reaped ⟨s, ended, late⟩ := by
  have hany : (runEvents step (start false false) interruptedCommand).any
      (fun s => s.point = .inputSetjmp) = true := by decide +kernel
  obtain ⟨s, hrun, hs⟩ := (Option.any_eq_true _ _).mp hany
  obtain ⟨ended, late, hwatched, hreaped⟩ :=
    children_reaped false false interruptedCommand s hrun
  exact ⟨s, ended, late, hwatched, of_decide_eq_true hs, hreaped⟩

end CsPrimer.BasicShell
