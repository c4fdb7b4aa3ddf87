import CsPrimer.ShellPipes.Pipeline

/-!
The process group of the first pipeline, with the children running. Only the
parent calls `setpgid` for a child, and the child may have executed its program
by then. The group itself is always there: nothing is waited for before the
last command has been started.
-/

namespace CsPrimer.ShellPipes.Pipeline

open Foundation

/-- Every `setpgid` of the shell succeeded, and the commands it was called for
are in the group of the first. -/
structure OneGroup (s : State) : Prop where
  no_abort : s.point ≠ .exited 11
  member : ∀ i < s.forked, ¬ (s.point = .setpgid ∧ i = s.level) →
    (s.procs i).pgrp = (s.commands 0).pid

/-- A `setpgid` of the shell is made before the child's `execve`. -/
def InTime (s : State) (event : Event) : Prop :=
  event = .advance → s.point = .setpgid → (s.procs s.level).execed = false

instance (s : State) (event : Event) : Decidable (InTime s event) :=
  inferInstanceAs (Decidable (_ → _ → _))

def State.registered (s : State) : Nat :=
  if s.point = .setpgid then s.level else s.forked

def State.Descends (s : State) : Prop :=
  match s.point with
  | .enter | .pipe | .fork | .setpgid | .closeWrite => True
  | _ => False

def State.Leveled (s : State) : Prop :=
  match s.point with
  | .enter | .pipe | .fork => s.forked = s.level
  | .setpgid | .closeWrite => s.forked = s.level + 1
  | .closeRead | .wait => s.level < s.forked
  | .returned | .exited _ => True

/-- `pgid` is the pid of the first command once that has been registered. -/
structure Led (s : State) : Prop where
  leveled : s.Leveled
  unreaped : s.Descends → ∀ i < s.forked, (s.procs i).point ≠ .reaped
  positive : 0 < s.forked → 0 < (s.commands 0).pid
  leader : s.point ≠ .exited 11 →
    s.pgid = if s.registered = 0 then 0 else (s.commands 0).pid
  member : s.point ≠ .exited 11 → ∀ i < s.registered,
    (s.procs i).pgrp = (s.commands 0).pid

variable {s next : State}

theorem Led.start (setup : Setup) (hfirst : setup.pgid = 0) (line : List Char) :
    Led (start setup line) where
  leveled := rfl
  unreaped := fun _ i hi => absurd hi (Nat.not_lt_zero i)
  positive := fun hpos => absurd hpos (Nat.lt_irrefl 0)
  leader := fun _ => hfirst
  member := fun _ i hi => absurd hi (Nat.not_lt_zero i)

theorem Led.oneGroup (h : Led s) (hno : s.point ≠ .exited 11) : OneGroup s := by
  refine ⟨hno, ?_⟩
  intro i hi hdone
  apply h.member hno
  unfold State.registered
  split
  · rename_i hpoint
    have hleveled := h.leveled
    simp only [State.Leveled, hpoint] at hleveled
    have hne : i ≠ s.level := fun heq => hdone ⟨hpoint, heq⟩
    omega
  · exact hi

theorem State.registered_of_ne (h : s.point ≠ .setpgid) : s.registered = s.forked :=
  if_neg h

structure SameBooks (s next : State) : Prop where
  forked : next.forked = s.forked
  commands : next.commands = s.commands
  procs : next.procs = s.procs
  pgid : next.pgid = s.pgid

/-- A step of the shell that forks and registers nothing, and does not go down
again once it has gone up. -/
theorem Led.keep (h : Led s) (hsame : SameBooks s next)
    (hfrom : s.point ≠ .setpgid) (hno : s.point ≠ .exited 11)
    (hto : next.point ≠ .setpgid) (hleveled : next.Leveled)
    (hdown : next.Descends → s.Descends) : Led next := by
  obtain ⟨hforked, hcommands, hprocs, hpgid⟩ := hsame
  have hregistered : next.registered = s.registered := by
    rw [State.registered_of_ne hto, State.registered_of_ne hfrom, hforked]
  refine ⟨hleveled, ?_, ?_, ?_, ?_⟩
  · intro hdescends
    rw [hforked, hprocs]
    exact h.unreaped (hdown hdescends)
  · rw [hforked, hcommands]
    exact h.positive
  · intro _
    rw [hpgid, hregistered, hcommands]
    exact h.leader hno
  · intro _
    rw [hregistered, hprocs, hcommands]
    exact h.member hno

/-- A step of a child: it stays in its group. -/
theorem Led.setProc (h : Led s) (i : Nat) (proc : Process)
    (hpgrp : proc.pgrp = (s.procs i).pgrp)
    (hreaped : s.Descends → (s.procs i).point ≠ .reaped → proc.point ≠ .reaped) :
    Led (s.setProc i proc) := by
  refine ⟨h.leveled, ?_, h.positive, h.leader, ?_⟩
  · intro hdescends j hj
    have hold := h.unreaped hdescends j hj
    rcases eq_or_ne j i with rfl | hne
    · simpa [State.setProc] using hreaped hdescends hold
    · simpa [State.setProc, Function.update_of_ne hne] using hold
  · intro hno j hj
    have hold := h.member hno j hj
    rcases eq_or_ne j i with rfl | hne
    · simpa [State.setProc, hpgrp] using hold
    · simpa [State.setProc, Function.update_of_ne hne] using hold

/-- Back to the caller. -/
theorem Led.ret (h : Led s) (hfrom : s.point ≠ .setpgid) (hno : s.point ≠ .exited 11)
    (hlevel : s.level ≤ s.forked) : Led s.ret ∧ s.ret.point ≠ .exited 11 := by
  unfold State.ret
  split
  · exact ⟨h.keep ⟨rfl, rfl, rfl, rfl⟩ hfrom hno (by simp) trivial False.elim, by simp⟩
  · rename_i level hsucc
    have hlt : level < s.forked := by omega
    exact ⟨h.keep ⟨rfl, rfl, rfl, rfl⟩ hfrom hno (by simp) hlt False.elim, by simp⟩

theorem Led.enter (h : Led s) (hpoint : s.point = .enter) (hnext : s.enter = some next) :
    Led next ∧ next.point ≠ .exited 11 := by
  have hleveled := h.leveled
  simp only [State.Leveled, hpoint] at hleveled
  have hdescends : s.Descends := by simp [State.Descends, hpoint]
  have hfrom : s.point ≠ .setpgid := by simp [hpoint]
  have hno : s.point ≠ .exited 11 := by simp [hpoint]
  unfold State.enter at hnext
  split at hnext
  · cases hnext
  · dsimp only at hnext
    split_ifs at hnext
    · cases hnext
      exact h.ret hfrom hno hleveled.ge
    · split at hnext <;> cases hnext
      all_goals exact ⟨h.keep ⟨rfl, rfl, rfl, rfl⟩ hfrom hno (by simp) hleveled
        (fun _ => hdescends), by simp⟩

theorem Led.pipe {fds : Nat × Nat} (h : Led s) (hnext : s.pipe fds = some next) :
    Led next ∧ next.point ≠ .exited 11 := by
  have hleveled := h.leveled
  unfold State.pipe at hnext
  cases hpoint : s.point <;> simp only [hpoint] at hnext
  case pipe =>
    simp only [State.Leveled, hpoint] at hleveled
    have hdescends : s.Descends := by simp [State.Descends, hpoint]
    split at hnext
    · cases hnext
      exact ⟨h.keep ⟨rfl, rfl, rfl, rfl⟩ (by simp [hpoint]) (by simp [hpoint]) (by simp)
        hleveled (fun _ => hdescends), by simp⟩
    · cases hnext
  all_goals cases hnext

/-- The first command of the line becomes the one that leads. -/
theorem Led.fork {pid : Nat} (h : Led s) (hnext : s.fork pid = some next) :
    Led next ∧ next.point ≠ .exited 11 := by
  have hleveled := h.leveled
  unfold State.fork at hnext
  cases hpoint : s.point <;> simp only [hpoint] at hnext
  case fork =>
    simp only [State.Leveled, hpoint] at hleveled
    have hdescends : s.Descends := by simp [State.Descends, hpoint]
    have hno : s.point ≠ .exited 11 := by simp [hpoint]
    have hregistered := State.registered_of_ne (s := s) (by simp [hpoint])
    split at hnext
    · rename_i hfresh
      cases hnext
      have hleader := h.leader hno
      have hmember := h.member hno
      rw [hregistered, hleveled] at hleader hmember
      refine ⟨⟨congrArg (· + 1) hleveled, ?_, ?_, ?_, ?_⟩, by simp⟩
      · intro _ i hi
        rcases Nat.lt_succ_iff_lt_or_eq.mp hi with hold | rfl
        · have hne : i ≠ s.level := by omega
          simpa [Function.update_of_ne hne] using h.unreaped hdescends i hold
        · simp [hleveled]
      · intro _
        rcases eq_or_ne 0 s.level with hzero | hne
        · simpa [← hzero] using hfresh.1
        · simpa [Function.update_of_ne hne] using h.positive (by omega)
      · intro _
        rcases eq_or_ne s.level 0 with hzero | hne
        · simpa [State.registered, hzero] using hleader
        · simpa [State.registered, hne, Function.update_of_ne hne.symm] using hleader
      · intro _ i hi
        have hi : i < s.level := by simpa [State.registered] using hi
        have hne : (0 : Nat) ≠ s.level := by omega
        simpa [Function.update_of_ne hne, Function.update_of_ne (Nat.ne_of_lt hi)]
          using hmember i hi
    · cases hnext
  all_goals cases hnext

/-- `pgid` behind its assignment is the pid of the first command. -/
theorem Led.newPgid (h : Led s) (hpoint : s.point = .setpgid) :
    s.newPgid = (s.commands 0).pid := by
  have hleveled := h.leveled
  simp only [State.Leveled, hpoint] at hleveled
  have hpos := h.positive (by omega)
  have hleader := h.leader (by simp [hpoint])
  rw [State.registered, if_pos hpoint] at hleader
  unfold State.newPgid State.command
  rw [hleader]
  rcases eq_or_ne s.level 0 with hzero | hne
  · rw [if_pos hzero, if_pos rfl, hzero]
  · rw [if_neg hne, if_neg (Nat.ne_of_lt hpos)]

/-- The group is that of the child or exists, so `setpgid` fails for one
reason only. -/
theorem Led.canSetpgid_iff (h : Led s) (hpoint : s.point = .setpgid) :
    s.CanSetpgid s.newPgid ↔ (s.procs s.level).execed = false := by
  have hleveled := h.leveled
  simp only [State.Leveled, hpoint] at hleveled
  have hmember := h.member (by simp [hpoint])
  rw [State.registered, if_pos hpoint] at hmember
  have hgroup : s.newPgid = s.command.pid ∨ s.GroupExists s.newPgid := by
    rw [h.newPgid hpoint]
    rcases Nat.eq_zero_or_pos s.level with hzero | hpos
    · exact .inl (by rw [State.command, hzero])
    · have hdescends : s.Descends := by simp [State.Descends, hpoint]
      exact .inr (.inr (.inr ⟨0, by omega, h.unreaped hdescends 0 (by omega),
        hmember 0 hpos⟩))
  exact and_iff_left hgroup

theorem Led.setpgid (h : Led s) (hpoint : s.point = .setpgid) :
    Led s.setpgid ∧
      (s.setpgid.point = .exited 11 ↔ (s.procs s.level).execed ≠ false) := by
  have hcan := h.canSetpgid_iff hpoint
  have hpgid := h.newPgid hpoint
  have hleveled := h.leveled
  simp only [State.Leveled, hpoint] at hleveled
  have hdescends : s.Descends := by simp [State.Descends, hpoint]
  have hmember := h.member (by simp [hpoint])
  rw [State.registered, if_pos hpoint] at hmember
  unfold State.setpgid
  split
  · rename_i hsucceeds
    have hto : (if 1 ≠ s.command.fds.2 then Point.closeWrite else Point.wait) =
        .closeWrite ∨
        (if 1 ≠ s.command.fds.2 then Point.closeWrite else Point.wait) = .wait := by
      split_ifs <;> simp
    generalize (if 1 ≠ s.command.fds.2 then Point.closeWrite else Point.wait) = point
      at hto ⊢
    have hne : point ≠ .setpgid := by rcases hto with rfl | rfl <;> simp
    have hno : point ≠ .exited 11 := by rcases hto with rfl | rfl <;> simp
    refine ⟨⟨?_, ?_, h.positive, ?_, ?_⟩, iff_of_false hno ?_⟩
    · rcases hto with rfl | rfl
      · exact hleveled
      · have hlt : s.level < s.forked := by omega
        exact hlt
    · intro _ i hi
      have hold := h.unreaped hdescends i hi
      rcases eq_or_ne i s.level with rfl | hother
      · simpa [State.setProc] using hold
      · simpa [State.setProc, Function.update_of_ne hother] using hold
    · intro _
      rw [State.registered_of_ne hne]
      exact hpgid.trans (if_neg (by simp [State.setProc, hleveled])).symm
    · intro _ i hi
      rw [State.registered_of_ne hne] at hi
      have hi : i < s.level + 1 := hleveled ▸ hi
      rcases Nat.lt_succ_iff_lt_or_eq.mp hi with hold | rfl
      · have hother : i ≠ s.level := Nat.ne_of_lt hold
        simpa [State.setProc, Function.update_of_ne hother] using hmember i hold
      · simpa [State.setProc] using hpgid
    · exact not_not_intro (hcan.mp hsucceeds)
  · rename_i hfails
    refine ⟨⟨trivial, False.elim, h.positive, fun hno => absurd rfl hno,
      fun hno => absurd rfl hno⟩, iff_of_true rfl ?_⟩
    exact fun hopen => hfails (hcan.mpr hopen)

theorem Led.closeWrite (h : Led s) (hpoint : s.point = .closeWrite) :
    Led s.closeWrite ∧ s.closeWrite.point ≠ .exited 11 := by
  have hleveled := h.leveled
  simp only [State.Leveled, hpoint] at hleveled
  have hdescends : s.Descends := by simp [State.Descends, hpoint]
  have hfrom : s.point ≠ .setpgid := by simp [hpoint]
  have hno : s.point ≠ .exited 11 := by simp [hpoint]
  unfold State.closeWrite
  split
  · exact ⟨h.keep ⟨rfl, rfl, rfl, rfl⟩ hfrom hno (by simp [State.error]) trivial
      False.elim, by simp [State.error]⟩
  · exact ⟨h.keep ⟨rfl, rfl, rfl, rfl⟩ hfrom hno (by simp) hleveled
      (fun _ => hdescends), by simp⟩

theorem Led.closeRead (h : Led s) (hpoint : s.point = .closeRead) :
    Led s.closeRead ∧ s.closeRead.point ≠ .exited 11 := by
  have hleveled := h.leveled
  simp only [State.Leveled, hpoint] at hleveled
  have hfrom : s.point ≠ .setpgid := by simp [hpoint]
  have hno : s.point ≠ .exited 11 := by simp [hpoint]
  unfold State.closeRead
  split
  · exact ⟨h.keep ⟨rfl, rfl, rfl, rfl⟩ hfrom hno (by simp [State.error]) trivial
      False.elim, by simp [State.error]⟩
  · exact ⟨h.keep ⟨rfl, rfl, rfl, rfl⟩ hfrom hno (by simp) hleveled False.elim, by simp⟩

theorem Led.wait (h : Led s) (hpoint : s.point = .wait) (hnext : s.wait = some next) :
    Led next ∧ next.point ≠ .exited 11 := by
  have hleveled := h.leveled
  simp only [State.Leveled, hpoint] at hleveled
  have hup : ¬ s.Descends := by simp [State.Descends, hpoint]
  have hfrom : s.point ≠ .setpgid := by simp [hpoint]
  have hno : s.point ≠ .exited 11 := by simp [hpoint]
  unfold State.wait at hnext
  split at hnext
  · cases hnext
    have hset := h.setProc s.level { s.procs s.level with point := .reaped } rfl
      (fun hdown => absurd hdown hup)
    have hwaited : Led { s.setProc s.level { s.procs s.level with point := .reaped } with
        waited := s.waited ++ [s.command.pid] } :=
      ⟨hset.leveled, hset.unreaped, hset.positive, hset.leader, hset.member⟩
    exact hwaited.ret hfrom hno (Nat.le_of_lt hleveled)
  · cases hnext
    exact h.ret hfrom hno (Nat.le_of_lt hleveled)
  · cases hnext

theorem Led.child {i : Nat} (act : Process → Option Process) (h : Led s)
    (hkept : ∀ proc, act (s.procs i) = some proc → (s.procs i).Kept proc)
    (hnext : s.child i act = some next) : Led next ∧ next.point = s.point := by
  unfold State.child at hnext
  split at hnext
  · obtain ⟨proc, hproc, rfl⟩ := Option.map_eq_some_iff.mp hnext
    obtain ⟨-, hreaped, hpgrp⟩ := hkept proc hproc
    exact ⟨h.setProc i proc hpgrp (fun _ _ => hreaped), rfl⟩
  · cases hnext

/-- Every event keeps it, and the shell aborts at a `setpgid` that comes too
late and nowhere else. -/
theorem Led.step {event : Event} (h : Led s) (hnext : Pipeline.step s event = some next) :
    Led next ∧ (next.point = .exited 11 ↔ s.point = .exited 11 ∨ ¬ InTime s event) := by
  have hgoes : s.point ≠ .exited 11 → InTime s event →
      Led next ∧ next.point ≠ .exited 11 →
        Led next ∧
          (next.point = .exited 11 ↔ s.point = .exited 11 ∨ ¬ InTime s event) := by
    rintro hno htime ⟨hled, hgo⟩
    exact ⟨hled, iff_of_false hgo (by simp [hno, htime])⟩
  have hchild : InTime s event → Led next ∧ next.point = s.point →
      Led next ∧
        (next.point = .exited 11 ↔ s.point = .exited 11 ∨ ¬ InTime s event) := by
    rintro htime ⟨hled, hsame⟩
    exact ⟨hled, by simp [hsame, htime]⟩
  cases event with
  | advance =>
      simp only [Pipeline.step, State.advance] at hnext
      cases hpoint : s.point <;> simp only [hpoint] at hnext
      case setpgid =>
        obtain ⟨hled, habort⟩ := h.setpgid hpoint
        cases hnext
        exact ⟨hled, by simp [habort, InTime, hpoint]⟩
      case enter =>
        exact hpoint ▸ hgoes (by simp [hpoint]) (by simp [InTime, hpoint])
          (h.enter hpoint hnext)
      case closeWrite =>
        cases hnext
        exact hpoint ▸ hgoes (by simp [hpoint]) (by simp [InTime, hpoint])
          (h.closeWrite hpoint)
      case closeRead =>
        cases hnext
        exact hpoint ▸ hgoes (by simp [hpoint]) (by simp [InTime, hpoint])
          (h.closeRead hpoint)
      case wait =>
        exact hpoint ▸ hgoes (by simp [hpoint]) (by simp [InTime, hpoint])
          (h.wait hpoint hnext)
      all_goals cases hnext
  | pipe fds =>
      have hno : s.point ≠ .exited 11 := by
        intro hpoint
        simp [Pipeline.step, State.pipe, hpoint] at hnext
      exact hgoes hno (by simp [InTime]) (h.pipe hnext)
  | fork pid =>
      have hno : s.point ≠ .exited 11 := by
        intro hpoint
        simp [Pipeline.step, State.fork, hpoint] at hnext
      exact hgoes hno (by simp [InTime]) (h.fork hnext)
  | child i =>
      exact hchild (by simp [InTime])
        (Led.child (fun proc => proc.advance (s.commands i)) h
          (fun _ hproc => Process.advance_kept hproc) hnext)
  | childEnds i =>
      exact hchild (by simp [InTime])
        (Led.child Process.ends h (fun _ hproc => Process.ends_kept hproc) hnext)

theorem led_of_reaches {setup : Setup} (hfirst : setup.pgid = 0) {line : List Char}
    (h : Reaches Pipeline.step (Pipeline.start setup line) s) : Led s :=
  h.invariant (fun _ _ _ hled hnext => (hled.step hnext).1)
    (Led.start setup hfirst line)

/-- For every line that is the first with a command in its session, and every
interleaving of the shell's steps with those of the children. -/
theorem one_group_iff_in_time (setup : Setup) (hfirst : setup.pgid = 0)
    (line : List Char) (events : List Event) (s : State)
    (hrun : runEvents step (start setup line) events = some s) :
    OneGroup s ↔ EachStep step InTime (start setup line) events := by
  have hled : Led s := led_of_reaches hfirst ⟨events, hrun⟩
  have habort : s.point = .exited 11 ↔
      ¬ EachStep step InTime (start setup line) events := by
    have hiff : s.point = .exited 11 ↔ (start setup line).point = .exited 11 ∨
        ¬ EachStep step InTime (start setup line) events :=
      defect_iff_not_eachStep (fun _ _ _ h hnext => Led.step h hnext)
        (Led.start setup hfirst line) hrun
    simpa [start] using hiff
  constructor
  · intro hone
    exact not_not.mp (mt habort.mpr hone.no_abort)
  · intro htime
    exact hled.oneGroup fun hpoint => habort.mp hpoint htime

def registeredRun : List Event :=
  [.advance, .pipe (3, 4), .fork 10, .child 0, .advance, .advance, .advance, .fork 11,
    .child 0, .advance]

theorem registered_run_one_group :
    ∃ s, runEvents step (start terminal ['a', '|', 'b']) registeredRun = some s ∧
      s.point = .wait ∧ OneGroup s := by
  have hany : (runEvents step (start terminal ['a', '|', 'b']) registeredRun).any
      (fun s => s.point = .wait) = true := by decide +kernel
  obtain ⟨s, hrun, hs⟩ := (Option.any_eq_true _ _).mp hany
  exact ⟨s, hrun, of_decide_eq_true hs,
    (one_group_iff_in_time terminal rfl ['a', '|', 'b'] registeredRun s hrun).mpr
      (by decide +kernel)⟩

/-- The child runs its program before the shell goes on. -/
def lateRun : List Event :=
  [.advance, .fork 10, .child 0, .child 0, .child 0, .advance]

theorem late_run_aborts :
    ∃ s, runEvents step (start terminal ['a']) lateRun = some s ∧
      s.point = .exited 11 ∧ ¬ OneGroup s := by
  have hany : (runEvents step (start terminal ['a']) lateRun).any
      (fun s => s.point = .exited 11) = true := by decide +kernel
  obtain ⟨s, hrun, hs⟩ := (Option.any_eq_true _ _).mp hany
  have hpoint := of_decide_eq_true hs
  exact ⟨s, hrun, hpoint, fun hone => hone.no_abort hpoint⟩

end CsPrimer.ShellPipes.Pipeline
