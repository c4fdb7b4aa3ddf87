import CsPrimer.BasicShell.Shell

/-!
SIGINT in the basic shell. Whenever the handler can run, the jump buffer it
would use is that of the call that is running, so no jump goes into a dead
frame. What the handler kills is another matter: between the return of
`waitid` and the end of `block_sigint` behind it `pid` is that of a process
that has been reaped.
-/

namespace CsPrimer.BasicShell

open Foundation

/-- The buffer that the handler would use, and the function that fills it. -/
def State.buffer (s : State) : Option JmpBuf :=
  if 0 ≥ s.pid then s.jmpHandleInput else s.jmpRunCmd

def State.owner (s : State) : Function :=
  if 0 ≥ s.pid then .handleInput else .runCmd

def State.CanTake (s : State) : Prop :=
  s.point.alive = true ∧ s.blocked = false ∧ s.disposition = .handler

instance (s : State) : Decidable s.CanTake :=
  inferInstanceAs (Decidable (_ ∧ _ ∧ _))

/-- The buffer was filled in a call of its function that has not returned. -/
def State.Ready (s : State) : Prop :=
  ∃ buf, s.buffer = some buf ∧ s.live = some buf.frame ∧
    buf.frame.function = s.owner

/-- `main` is running with the handler installed, between calls of the two
functions. -/
def State.BetweenCalls (s : State) : Prop :=
  s.point.alive = true ∧ s.disposition = .handler ∧ s.live = none

structure SignalSafe (s : State) : Prop where
  ready : s.CanTake → s.Ready
  defined : s.point ≠ .undefined
  main_blocked : s.BetweenCalls → s.blocked = true
  child_blocked : ∀ pid child, s.children pid = some child →
    child.disposition = .handler → child.blocked = true

/-- The running call of a function has filled its buffer, with the signal
blocked. -/
def Filled (s : State) (buffer : Option JmpBuf) (function : Function) : Prop :=
  ∃ call, s.live = some ⟨function, call⟩ ∧ buffer = some ⟨⟨function, call⟩, true⟩

def Calling (s : State) (function : Function) : Prop :=
  ∃ call, s.live = some ⟨function, call⟩

/-- The handler is installed, and `pid` is not that of a child. -/
def State.Idle (s : State) : Prop := s.disposition = .handler ∧ s.pid ≤ 0

def State.Running (s : State) : Prop := s.disposition = .handler ∧ 0 < s.pid

def State.Placed (s : State) : Prop :=
  match s.point with
  | .begin => s.disposition ≠ .handler ∧ s.pid ≤ 0
  | .install => s.blocked = true ∧ s.pid ≤ 0
  | .callInput | .dispatch _ => s.Idle ∧ s.blocked = true
  | .inputSetjmp => s.Idle ∧ s.blocked = true ∧ Calling s .handleInput
  | .inputLoop | .inputTest _ =>
      s.Idle ∧ s.blocked = true ∧ Filled s s.jmpHandleInput .handleInput
  | .getline | .inputBlock _ => s.Idle ∧ Filled s s.jmpHandleInput .handleInput
  | .fork _ => s.Idle ∧ s.blocked = true ∧ Calling s .runCmd
  | .runSetjmp => s.Running ∧ s.blocked = true ∧ Calling s .runCmd ∧
      s.children s.pid ≠ none
  | .runUnblock => s.Running ∧ s.blocked = true ∧ Filled s s.jmpRunCmd .runCmd ∧
      s.children s.pid ≠ none
  | .waitid => s.Running ∧ Filled s s.jmpRunCmd .runCmd ∧
      (s.blocked = false → s.children s.pid ≠ none)
  | .runBlock | .error true => s.Running ∧ Filled s s.jmpRunCmd .runCmd ∧
      s.children s.pid = none
  | .resetPid => s.Running ∧ s.blocked = true ∧ Filled s s.jmpRunCmd .runCmd
  | .error false => s.disposition ≠ .handler ∨ s.blocked = true ∨
      s.Idle ∧ Filled s s.jmpHandleInput .handleInput
  | .exited _ | .killed | .crashed => True
  | .undefined => False

/-- `waitid` has returned in the running call of `run_cmd`, and `block_sigint`
has not. -/
def Point.reaped : Point → Bool
  | .runBlock | .error true => true
  | _ => false

/-- A child gives the handler up before it unblocks the signal. -/
def Child.Shielded (child : Child) : Prop :=
  child.disposition = .handler → child.blocked = true ∧ child.point ≠ .unblock

structure Sound (s : State) : Prop where
  placed : s.Placed
  children : ∀ pid child, s.children pid = some child → child.Shielded

variable {s next : State} {function : Function} {buffer : Option JmpBuf}

theorem State.buffer_of_idle (h : s.Idle) :
    s.buffer = s.jmpHandleInput ∧ s.owner = .handleInput :=
  ⟨if_pos h.2, if_pos h.2⟩

theorem State.buffer_of_running (h : s.Running) :
    s.buffer = s.jmpRunCmd ∧ s.owner = .runCmd :=
  ⟨if_neg (Int.not_le.mpr h.2), if_neg (Int.not_le.mpr h.2)⟩

theorem Filled.ready_idle (h : Filled s s.jmpHandleInput .handleInput)
    (hidle : s.Idle) : s.Ready := by
  obtain ⟨call, hlive, hbuffer⟩ := h
  obtain ⟨hbuf, howner⟩ := State.buffer_of_idle hidle
  exact ⟨_, hbuf.trans hbuffer, hlive, howner.symm⟩

theorem Filled.ready_running (h : Filled s s.jmpRunCmd .runCmd)
    (hrunning : s.Running) : s.Ready := by
  obtain ⟨call, hlive, hbuffer⟩ := h
  obtain ⟨hbuf, howner⟩ := State.buffer_of_running hrunning
  exact ⟨_, hbuf.trans hbuffer, hlive, howner.symm⟩

/-- A buffer of the running call takes the jump to where it was filled. -/
theorem Filled.siglongjmp (h : Filled s buffer function) (point : Point) :
    s.siglongjmp buffer point = { s with point := point, blocked := true } := by
  obtain ⟨call, hlive, rfl⟩ := h
  simp only [State.siglongjmp, hlive, if_pos]

theorem Calling.sigsetjmp (h : Calling s function) (hblocked : s.blocked = true) :
    ∃ call, s.live = some ⟨function, call⟩ ∧
      s.sigsetjmp = some ⟨⟨function, call⟩, true⟩ := by
  obtain ⟨call, hlive⟩ := h
  exact ⟨call, hlive, by rw [State.sigsetjmp, hlive, hblocked]; rfl⟩

theorem Sound.update (h : Sound s) {pid : Int} {entry : Option Child}
    (hentry : ∀ child, entry = some child → child.Shielded) :
    ∀ other child, Function.update s.children pid entry other = some child →
      child.Shielded := by
  intro other child hchild
  rcases eq_or_ne other pid with rfl | hne
  · rw [Function.update_self] at hchild
    exact hentry child hchild
  · rw [Function.update_of_ne hne] at hchild
    exact h.children other child hchild

theorem Sound.start (blocked ignored : Bool) : Sound (start blocked ignored) where
  placed := by
    cases ignored <;> simp [BasicShell.start, State.Placed]
  children := by
    intro pid child h
    cases h

/-- `parse_cmd` and what follows in `main`, up to the next call. -/
theorem Sound.runLine (h : Sound s) (hidle : s.Idle) (hblocked : s.blocked = true)
    (line : List Char) : Sound (s.runLine line) := by
  unfold State.runLine
  split
  · exact ⟨trivial, h.children⟩
  · dsimp only
    split_ifs
    · exact ⟨⟨hidle, hblocked⟩, h.children⟩
    · exact ⟨trivial, h.children⟩
    · exact ⟨⟨hidle, hblocked, _, rfl⟩, h.children⟩

theorem Sound.waitid (h : Sound s) (hrunning : s.Running)
    (hfilled : Filled s s.jmpRunCmd .runCmd) (hnext : s.waitid = some next) :
    Sound next := by
  unfold State.waitid at hnext
  split at hnext
  · rename_i hnone
    cases hnext
    exact ⟨⟨hrunning, hfilled, hnone⟩, h.children⟩
  · split at hnext
    · cases hnext
      refine ⟨⟨hrunning, hfilled, Function.update_self ..⟩, h.update ?_⟩
      intro child hchild
      cases hchild
    · cases hnext

/-- The statements of the shell, point by point. -/
theorem Sound.advance (h : Sound s) (hnext : s.advance = some next) : Sound next := by
  have hplaced := h.placed
  unfold State.Placed at hplaced
  unfold State.advance at hnext
  cases hpoint : s.point <;> simp only [hpoint] at hplaced hnext
  case begin =>
    cases hnext
    exact ⟨⟨rfl, hplaced.2⟩, h.children⟩
  case install =>
    cases hnext
    exact ⟨⟨⟨rfl, hplaced.2⟩, hplaced.1⟩, h.children⟩
  case callInput =>
    cases hnext
    exact ⟨⟨hplaced.1, hplaced.2, _, rfl⟩, h.children⟩
  case inputSetjmp =>
    obtain ⟨hidle, hblocked, hcalling⟩ := hplaced
    cases hnext
    exact ⟨⟨hidle, hblocked, hcalling.sigsetjmp hblocked⟩, h.children⟩
  case inputLoop =>
    cases hnext
    exact ⟨⟨hplaced.1, hplaced.2.2⟩, h.children⟩
  case inputBlock =>
    cases hnext
    exact ⟨⟨hplaced.1, rfl, hplaced.2⟩, h.children⟩
  case inputTest result =>
    cases result with
    | none =>
        cases hnext
        exact ⟨trivial, h.children⟩
    | some line =>
        simp only at hnext
        split at hnext <;> cases hnext
        · exact ⟨hplaced, h.children⟩
        · exact ⟨⟨hplaced.1, hplaced.2.1⟩, h.children⟩
  case dispatch line =>
    cases hnext
    exact h.runLine hplaced.1 hplaced.2 line
  case runSetjmp =>
    obtain ⟨hrunning, hblocked, hcalling, hchild⟩ := hplaced
    cases hnext
    exact ⟨⟨hrunning, hblocked, hcalling.sigsetjmp hblocked, hchild⟩, h.children⟩
  case runUnblock =>
    obtain ⟨hrunning, _, hfilled, hchild⟩ := hplaced
    cases hnext
    exact ⟨⟨hrunning, hfilled, fun _ => hchild⟩, h.children⟩
  case waitid => exact h.waitid hplaced.1 hplaced.2.1 hnext
  case runBlock =>
    cases hnext
    exact ⟨⟨hplaced.1, rfl, hplaced.2.1⟩, h.children⟩
  case resetPid =>
    have hpid : (-1 : Int) ≤ 0 := by decide
    cases hnext
    exact ⟨⟨⟨hplaced.1.1, hpid⟩, hplaced.2.1⟩, h.children⟩
  case error =>
    cases hnext
    exact ⟨trivial, h.children⟩
  all_goals cases hnext

/-- A call fails. The signal is blocked, except where `block_sigint` itself
fails: in `handle_input`, in `run_cmd`, and before the handler is installed. -/
theorem Sound.fails (h : Sound s) (hnext : s.fails = some next) : Sound next := by
  have hplaced := h.placed
  unfold State.Placed at hplaced
  unfold State.fails at hnext
  cases hpoint : s.point <;> simp only [hpoint] at hplaced hnext
  case begin =>
    cases hnext
    exact ⟨.inl hplaced.1, h.children⟩
  case install =>
    cases hnext
    exact ⟨.inr (.inl hplaced.1), h.children⟩
  case inputBlock =>
    cases hnext
    exact ⟨.inr (.inr hplaced), h.children⟩
  case runBlock =>
    cases hnext
    exact ⟨hplaced, h.children⟩
  case dispatch =>
    cases hnext
    exact ⟨.inr (.inl hplaced.2), h.children⟩
  case inputLoop | fork | runUnblock =>
    cases hnext
    exact ⟨.inr (.inl hplaced.2.1), h.children⟩
  all_goals cases hnext

theorem Sound.getline {result : Option (List Char)} (h : Sound s)
    (hnext : s.getline result = some next) : Sound next := by
  have hplaced := h.placed
  unfold State.Placed at hplaced
  unfold State.getline at hnext
  cases hpoint : s.point <;> simp only [hpoint] at hplaced hnext
  case getline =>
    cases hnext
    exact ⟨hplaced, h.children⟩
  all_goals cases hnext

theorem Sound.fork {pid : Int} (h : Sound s) (hnext : s.fork pid = some next) :
    Sound next := by
  have hplaced := h.placed
  unfold State.Placed at hplaced
  unfold State.fork at hnext
  cases hpoint : s.point <;> simp only [hpoint] at hplaced hnext
  case fork cmd =>
    obtain ⟨hidle, hblocked, hcalling⟩ := hplaced
    split at hnext
    · rename_i hpid
      cases hnext
      refine ⟨⟨⟨hidle.1, hpid.1⟩, hblocked, hcalling, ?_⟩, h.update ?_⟩
      · simp
      · intro child hchild _
        cases hchild
        exact ⟨hblocked, by simp⟩
    · cases hnext
  all_goals cases hnext

/-- Where the handler can run: in `handle_input`, with no child, or in
`run_cmd`, where the child is gone once `waitid` has returned. -/
theorem Sound.canTake (h : Sound s) (htake : s.CanTake) :
    s.Idle ∧ Filled s s.jmpHandleInput .handleInput ∨
      s.Running ∧ Filled s s.jmpRunCmd .runCmd ∧
        (s.children s.pid = none ↔ s.point.reaped = true) := by
  obtain ⟨halive, hblocked, hhandler⟩ := htake
  have hopen : s.blocked ≠ true := by simp [hblocked]
  have hplaced := h.placed
  unfold State.Placed at hplaced
  cases hpoint : s.point <;> simp only [hpoint] at hplaced
  case begin => exact absurd hhandler hplaced.1
  case install => exact absurd hplaced.1 hopen
  case callInput | dispatch => exact absurd hplaced.2 hopen
  case inputSetjmp | inputLoop | inputTest | fork | runSetjmp | runUnblock | resetPid =>
    exact absurd hplaced.2.1 hopen
  case getline | inputBlock => exact .inl hplaced
  case waitid =>
    refine .inr ⟨hplaced.1, hplaced.2.1, ?_⟩
    exact iff_of_false (hplaced.2.2 hblocked) (by simp [Point.reaped])
  case runBlock => exact .inr ⟨hplaced.1, hplaced.2.1, iff_of_true hplaced.2.2 rfl⟩
  case error reaping =>
    cases reaping with
    | true => exact .inr ⟨hplaced.1, hplaced.2.1, iff_of_true hplaced.2.2 rfl⟩
    | false =>
        rcases hplaced with hdefault | hset | hidle
        · exact absurd hhandler hdefault
        · exact absurd hset hopen
        · exact .inl hidle
  case exited | killed | crashed =>
    rw [hpoint] at halive
    cases halive

/-- The handler jumps to the running call, whose buffer has the signal
blocked. -/
theorem Sound.handler (h : Sound s) (htake : s.CanTake) : Sound s.handler := by
  have hclosed : true = false → s.children s.pid ≠ none := fun hfalse => by cases hfalse
  unfold State.handler
  rcases h.canTake htake with ⟨hidle, hfilled⟩ | ⟨hrunning, hfilled, -⟩
  · rw [if_pos hidle.2, hfilled.siglongjmp]
    exact ⟨⟨hidle, rfl, hfilled⟩, h.children⟩
  · rw [if_neg (Int.not_le.mpr hrunning.2), hfilled.siglongjmp]
    exact ⟨⟨hrunning, hfilled, hclosed⟩, h.children⟩

theorem Sound.sigint (h : Sound s) (hnext : s.sigint = some next) : Sound next := by
  unfold State.sigint at hnext
  split at hnext
  · rename_i hopen
    cases hdisposition : s.disposition <;> simp only [hdisposition] at hnext
    case default =>
      cases hnext
      exact ⟨trivial, h.children⟩
    case ignored =>
      cases hnext
      exact h
    case handler =>
      cases hnext
      exact h.handler ⟨hopen.1, hopen.2, hdisposition⟩
  · cases hnext

/-- Where the shell is placed depends on whether its child is there only. -/
theorem State.Placed.withChildren {children : Int → Option Child} (h : s.Placed)
    (hsame : children s.pid = none ↔ s.children s.pid = none) :
    ({ s with children := children } : State).Placed := by
  have hkept : s.children s.pid ≠ none → children s.pid ≠ none := mt hsame.mp
  unfold State.Placed at h ⊢
  cases hpoint : s.point <;> simp only [hpoint] at h ⊢
  case runSetjmp | runUnblock => exact ⟨h.1, h.2.1, h.2.2.1, hkept h.2.2.2⟩
  case waitid => exact ⟨h.1, h.2.1, fun hopen => hkept (h.2.2 hopen)⟩
  case runBlock => exact ⟨h.1, h.2.1, hsame.mpr h.2.2⟩
  case error reaping =>
    cases reaping with
    | true => exact ⟨h.1, h.2.1, hsame.mpr h.2.2⟩
    | false => exact h
  all_goals exact h

/-- A step of a child leaves it a child that has not been waited for. -/
theorem Sound.withChild {pid : Int} {act : Child → Option Child} (h : Sound s)
    (hact : ∀ child child', act child = some child' → child.Shielded →
      child'.Shielded)
    (hnext : s.withChild pid act = some next) : Sound next := by
  unfold State.withChild at hnext
  split at hnext
  · cases hnext
  · rename_i child' hbind
    obtain ⟨child, hchild, hstep⟩ := Option.bind_eq_some_iff.mp hbind
    cases hnext
    refine ⟨h.placed.withChildren ?_, h.update ?_⟩
    · rcases eq_or_ne s.pid pid with rfl | hne
      · simp [hchild]
      · rw [Function.update_of_ne hne]
    · intro entry hentry
      cases hentry
      exact hact child child' hstep (h.children pid child hchild)

theorem Child.advance_shielded {child child' : Child}
    (h : child.advance = some child') (hshielded : child.Shielded) :
    child'.Shielded := by
  unfold Child.advance at h
  split at h
  · cases h
    intro hdefault
    cases hdefault
  · rename_i hpoint
    cases h
    intro hhandler
    exact absurd hpoint (hshielded hhandler).2
  · cases h
    exact fun hhandler => ⟨(hshielded hhandler).1, by simp⟩
  all_goals cases h

theorem Child.dies_shielded {child child' : Child} {info : ChildInfo}
    (h : child.dies info = some child') (hshielded : child.Shielded) :
    child'.Shielded := by
  have hdead : ({ child with point := .dead info } : Child).Shielded :=
    fun hhandler => ⟨(hshielded hhandler).1, by simp⟩
  unfold Child.dies at h
  split at h
  · cases h
  · cases h
    exact hdead
  · split at h <;> cases h
    exact hdead

/-- Every event keeps it. -/
theorem Sound.step {event : Event} (h : Sound s)
    (hnext : BasicShell.step s event = some next) : Sound next := by
  cases event with
  | advance => exact h.advance hnext
  | fails => exact h.fails hnext
  | getline result => exact h.getline hnext
  | fork pid => exact h.fork hnext
  | sigint => exact h.sigint hnext
  | childAdvance pid =>
      exact h.withChild (fun _ _ => Child.advance_shielded) hnext
  | childDies pid info =>
      exact h.withChild (fun _ _ => Child.dies_shielded) hnext

theorem sound_of_reaches {blocked ignored : Bool}
    (h : Reaches step (start blocked ignored) s) : Sound s :=
  h.invariant (fun _ _ _ hsound hnext => hsound.step hnext)
    (Sound.start blocked ignored)

theorem Sound.defined (h : Sound s) : s.point ≠ .undefined := by
  intro hpoint
  have hplaced := h.placed
  unfold State.Placed at hplaced
  rw [hpoint] at hplaced
  exact hplaced

theorem Sound.main_blocked (h : Sound s) (hbetween : s.BetweenCalls) :
    s.blocked = true := by
  obtain ⟨halive, hhandler, hlive⟩ := hbetween
  by_contra hopen
  have htake : s.CanTake := ⟨halive, by simpa using hopen, hhandler⟩
  rcases h.canTake htake with ⟨-, call, hcall, -⟩ | ⟨-, ⟨call, hcall, -⟩, -⟩
  all_goals
    rw [hlive] at hcall
    cases hcall

/-- For every run, whatever the mask and disposition the shell starts with. -/
theorem sigint_jumps_to_live_frame (blocked ignored : Bool) (s : State)
    (h : Reaches step (start blocked ignored) s) : SignalSafe s := by
  have hsound := sound_of_reaches h
  refine ⟨?_, hsound.defined, hsound.main_blocked, ?_⟩
  · intro htake
    rcases hsound.canTake htake with ⟨hidle, hfilled⟩ | ⟨hrunning, hfilled, -⟩
    · exact hfilled.ready_idle hidle
    · exact hfilled.ready_running hrunning
  · intro pid child hchild hhandler
    exact (hsound.children pid child hchild hhandler).1

def interruptedRun : List Event :=
  [.advance, .advance, .advance, .advance, .advance, .sigint, .advance,
    .getline (some ['l', 's', '\n']), .advance, .advance, .advance, .fork 7,
    .advance, .advance]

theorem interrupted_run_jumps_to_live_frame :
    ∃ s, runEvents step (start false false) interruptedRun = some s ∧
      s.CanTake ∧ 0 < s.pid ∧ SignalSafe s := by
  have hany : (runEvents step (start false false) interruptedRun).any
      (fun s => s.CanTake ∧ 0 < s.pid) = true := by decide +kernel
  obtain ⟨s, hrun, hs⟩ := (Option.any_eq_true _ _).mp hany
  obtain ⟨htake, hpid⟩ := of_decide_eq_true hs
  exact ⟨s, hrun, htake, hpid,
    sigint_jumps_to_live_frame false false s ⟨interruptedRun, hrun⟩⟩

end CsPrimer.BasicShell
