import CsPrimer.Foundation.Completion
import CsPrimer.ShellPipes.InheritedEnds

/-!
How the run of a line ends. The shell forks a command for each segment up to the
first without words, where `run` returns, and unwinds: at every level it closes
the read end and waits for the child. Each step of the shell or of a child brings
the end nearer, and there is a next step unless the shell is back at the prompt,
with the descriptors it had and no child left, or has left through `error` behind
a `setpgid`.
-/

namespace CsPrimer.ShellPipes.Pipeline

open Foundation

/-- The segments that a line starts commands for. -/
def startedSegments (segs : List (List Char)) : List (List Char) :=
  segs.takeWhile fun token => argvOf token ≠ []

def Point.descends : Point → Bool
  | .closeRead | .wait | .returned => false
  | _ => true

structure Descending (base : Table) (segs : List (List Char)) (s : State) : Prop where
  sound : Sound base segs s
  down : s.point.descends = true
  named : ∀ i < s.forked, (s.commands i).argv ≠ []
  ready : s.point = .pipe ∨ s.point = .fork → s.argv ≠ []

def State.Rises (s : State) (base : Table) (segs : List (List Char)) : Prop :=
  match s.point with
  | .closeRead => s.level < s.forked ∧ s.level + 1 < segs.length ∧
      s.table = reads base s.commands (s.level + 1) ∧ s.waited = s.pidsFrom (s.level + 1)
  | .wait => s.level < s.forked ∧ s.table = reads base s.commands s.level ∧
      s.waited = s.pidsFrom (s.level + 1)
  | .returned => s.table = base ∧ s.waited = s.pidsFrom 0
  | _ => False

structure Unwinding (base : Table) (segs : List (List Char)) (s : State) : Prop where
  rises : s.Rises base segs
  commands : ∀ i < s.forked, segs[i]?.map argvOf = some (s.commands i).argv
  fresh : ∀ i < s.forked, i + 1 < segs.length →
    Fresh (reads base s.commands i) (s.commands i).fds
  reaped : ∀ i < s.forked, ((s.procs i).point = .reaped ↔ s.Unwound i)
  pids : (s.pidsFrom 0).Nodup
  named : ∀ i < s.forked, (s.commands i).argv ≠ []
  last : s.forked < segs.length → segs[s.forked]?.map argvOf = some []

/-- The steps that a child has left, at most. -/
def ChildPoint.left : ChildPoint → Nat
  | .dupIn => 7
  | .closeIn => 6
  | .dupOut => 5
  | .closeRead => 4
  | .closeWrite => 3
  | .exec => 2
  | .running => 1
  | .zombie | .reaped => 0

def State.unread (s : State) : Nat :=
  match s.prompt with
  | none => 0
  | some prompt => (segments prompt).length

/-- The steps of the shell, and of the children that it has not forked yet. -/
def State.shellLeft (s : State) : Nat :=
  match s.point with
  | .enter => 14 * s.unread + 2 * s.level
  | .pipe => 14 * s.unread + 2 * s.level + 13
  | .fork => 14 * s.unread + 2 * s.level + 12
  | .setpgid => 14 * s.unread + 2 * s.level + 4
  | .closeWrite => 14 * s.unread + 2 * s.level + 3
  | .closeRead => 2 * s.level + 2
  | .wait => 2 * s.level + 1
  | .returned | .exited _ => 0

def State.left (s : State) : Nat :=
  s.shellLeft + ∑ i ∈ Finset.range s.forked, (s.procs i).point.left

structure Ended (setup : Setup) (line : List Char) (s : State) : Prop where
  children : ∀ i < s.forked, (s.procs i).point = .zombie ∨ (s.procs i).point = .reaped
  shell : s.point = .exited 11 ∨
    s.point = .returned ∧ s.table = setup.table ∧
      (List.range s.forked).map (fun i => (s.commands i).argv) =
        (startedSegments (segments line)).map argvOf ∧
      s.waited = s.pidsFrom 0 ∧ s.waited.Nodup ∧ ∀ i < s.forked, (s.procs i).point = .reaped

variable {base : Table} {segs : List (List Char)} {s next : State}

/-- The last command was forked. -/
theorem Descending.unwinding (h : Descending base segs s) (hnext : Sound base segs next)
    (hpoint : next.point = .wait) (hforked : next.forked = s.forked)
    (hcommands : next.commands = s.commands) : Unwinding base segs next := by
  have hplaced := hnext.placed
  simp only [State.Placed, hpoint] at hplaced
  obtain ⟨hall, hlt, htable, hwaited⟩ := hplaced
  refine ⟨?_, fun i hi => (hnext.commands i hi).argv, fun i hi => (hnext.commands i hi).piped,
    hnext.reaped, hnext.pids_nodup, ?_, ?_⟩
  · simp only [State.Rises, hpoint]
    exact ⟨hall ▸ hlt, htable, hwaited⟩
  · rw [hforked, hcommands]
    exact h.named
  · exact fun hmore => absurd hall (Nat.ne_of_lt hmore)

/-- A segment without words. -/
theorem Sound.ret_unwinding (h : Sound base segs s) (hpoint : s.point = .enter)
    (hnamed : ∀ i < s.forked, (s.commands i).argv ≠ [])
    (hblank : segs[s.level]?.map argvOf = some []) : Unwinding base segs s.ret := by
  have hplaced := h.placed
  simp only [State.Placed, hpoint] at hplaced
  obtain ⟨⟨hforked, -, hwaited⟩, -, -, htable⟩ := hplaced
  have hlt := lt_length_of_argv hblank
  have hunreaped := h.unreaped (by simp [State.Unwound, hpoint])
  have hnone : s.waited = s.pidsFrom s.level := by
    rw [hwaited, State.pidsFrom, hforked, List.drop_eq_nil_of_le (by simp)]
    rfl
  have hcommands := fun i hi => (h.commands i hi).argv
  have hfresh := fun i hi => (h.commands i hi).piped
  unfold State.ret
  split
  · rename_i hzero
    have hzero : s.level = 0 := hzero
    rw [hzero] at htable hnone
    refine ⟨⟨htable, hnone⟩, hcommands, hfresh, ?_, h.pids_nodup, hnamed, ?_⟩
    · intro i hi
      have hi : i < s.forked := hi
      omega
    · exact fun _ => hforked ▸ hblank
  · rename_i k hk
    have hk : s.level = k + 1 := hk
    rw [hk] at htable hnone
    refine ⟨⟨?_, ?_, htable, hnone⟩, hcommands, hfresh, ?_, h.pids_nodup, hnamed, ?_⟩
    · exact (by omega : k < s.forked)
    · exact (by omega : k + 1 < segs.length)
    · intro i hi
      have hi : i < s.forked := hi
      exact iff_of_false (hunreaped i hi) (by simp only [State.Unwound]; omega)
    · exact fun _ => hforked ▸ hblank

/-- What a level reads of the line. -/
theorem Sound.enter_cases (h : Sound base segs s) (hpoint : s.point = .enter) :
    ∃ token, segs[s.level]? = some token ∧
      (argvOf token = [] ∧ s.enter = some s.ret ∨ argvOf token ≠ [] ∧
        (s.level + 1 = segs.length ∧ s.enter = some { s with
            point := .fork, prompt := none, argv := argvOf token, fds := (0, 1) } ∨
          s.level + 1 < segs.length ∧ ∃ rest, segments rest = segs.drop (s.level + 1) ∧
            s.enter = some { s with
              point := .pipe, prompt := some rest, argv := argvOf token, fds := (0, 1) })) := by
  have hplaced := h.placed
  simp only [State.Placed, hpoint] at hplaced
  obtain ⟨-, ⟨text, hprompt, hsegments⟩, -, -⟩ := hplaced
  obtain ⟨token, rest, hsep⟩ : ∃ token rest, strsep pipeChar text = (token, rest) :=
    ⟨_, _, rfl⟩
  simp only [State.enter, hprompt, hsep, strtok_eq_argvOf]
  cases rest with
  | none =>
      rw [segments_of_none hsep] at hsegments
      obtain ⟨htoken, hdrop, hlt⟩ := drop_eq_cons hsegments.symm
      have hlast : s.level + 1 = segs.length := by
        have hle := List.drop_eq_nil_iff.mp hdrop
        omega
      refine ⟨token, htoken, ?_⟩
      by_cases hblank : argvOf token = []
      · exact .inl ⟨hblank, if_pos hblank⟩
      · exact .inr ⟨hblank, .inl ⟨hlast, if_neg hblank⟩⟩
  | some rest =>
      rw [segments_of_some hsep] at hsegments
      obtain ⟨htoken, hdrop, hlt⟩ := drop_eq_cons hsegments.symm
      have hmore : s.level + 1 < segs.length := by
        by_contra hge
        rw [List.drop_eq_nil_of_le (Nat.le_of_not_lt hge)] at hdrop
        exact segments_ne_nil rest hdrop.symm
      refine ⟨token, htoken, ?_⟩
      by_cases hblank : argvOf token = []
      · exact .inl ⟨hblank, if_pos hblank⟩
      · exact .inr ⟨hblank, .inr ⟨hmore, rest, hdrop.symm, if_neg hblank⟩⟩

theorem Descending.enter (h : Descending base segs s) (hpoint : s.point = .enter)
    (hnext : s.enter = some next) : Descending base segs next ∨ Unwinding base segs next := by
  have hplaced := h.sound.placed
  simp only [State.Placed, hpoint] at hplaced
  obtain ⟨hlevel, -, hpipes, htable⟩ := hplaced
  have hunreaped := h.sound.unreaped (by simp [State.Unwound, hpoint])
  obtain ⟨token, htoken, hcases⟩ := h.sound.enter_cases hpoint
  rcases hcases with ⟨hblank, hret⟩ | ⟨hwords, ⟨hlast, hfork⟩ | ⟨hmore, rest, hrest, hpipe⟩⟩
  · rw [hret] at hnext
    cases hnext
    refine .inr (h.sound.ret_unwinding hpoint h.named ?_)
    rw [htoken, Option.map_some, hblank]
  · rw [hfork] at hnext
    cases hnext
    refine .inl ⟨⟨⟨hlevel, ?_, ?_, fun _ => ⟨rfl, htable⟩⟩, h.sound.commands,
      h.sound.children, fun i hi => iff_of_false (hunreaped i hi) id, h.sound.pids⟩,
      rfl, h.named, fun _ => hwords⟩
    · rw [htoken, Option.map_some]
    · exact fun hmore => absurd hlast (Nat.ne_of_lt hmore)
  · rw [hpipe] at hnext
    cases hnext
    refine .inl ⟨⟨⟨hlevel, ⟨rest, rfl, hrest⟩, hpipes, htable, ?_, hmore⟩, h.sound.commands,
      h.sound.children, fun i hi => iff_of_false (hunreaped i hi) id, h.sound.pids⟩,
      rfl, h.named, fun _ => hwords⟩
    rw [htoken, Option.map_some]

theorem Descending.pipe {fds : Nat × Nat} (h : Descending base segs s)
    (hnext : s.pipe fds = some next) : Descending base segs next := by
  have hsound := h.sound.pipe hnext
  unfold State.pipe at hnext
  cases hpoint : s.point <;> simp only [hpoint] at hnext
  case pipe =>
    split at hnext
    · cases hnext
      exact ⟨hsound, rfl, h.named, fun _ => h.ready (.inl hpoint)⟩
    · cases hnext
  all_goals cases hnext

theorem Descending.fork {pid : Nat} (h : Descending base segs s)
    (hnext : s.fork pid = some next) : Descending base segs next := by
  have hsound := h.sound.fork hnext
  unfold State.fork at hnext
  cases hpoint : s.point <;> simp only [hpoint] at hnext
  case fork =>
    have hplaced := h.sound.placed
    simp only [State.Placed, hpoint] at hplaced
    have hforked := hplaced.1.1
    split at hnext
    · cases hnext
      refine ⟨hsound, rfl, ?_, by simp⟩
      intro i hi
      dsimp only
      rcases Nat.lt_succ_iff_lt_or_eq.mp hi with hold | rfl
      · have hne : i ≠ s.level := Nat.ne_of_lt (hforked ▸ hold)
        rw [Function.update_of_ne hne]
        exact h.named i hold
      · rw [hforked, Function.update_self]
        exact h.ready (.inr hpoint)
    · cases hnext
  all_goals cases hnext

theorem Descending.setpgid (h : Descending base segs s) (hbase : Base base)
    (hpoint : s.point = .setpgid) :
    Descending base segs s.setpgid ∨ Unwinding base segs s.setpgid := by
  have hsound := h.sound.setpgid hbase hpoint
  have hsame : s.setpgid.forked = s.forked ∧ s.setpgid.commands = s.commands := by
    unfold State.setpgid
    split <;> exact ⟨rfl, rfl⟩
  have hcases : s.setpgid.point = .wait ∨ s.setpgid.point.descends = true ∧
      s.setpgid.point ≠ .pipe ∧ s.setpgid.point ≠ .fork := by
    unfold State.setpgid
    split
    · by_cases hout : 1 ≠ s.command.fds.2
      · simp [hout, Point.descends]
      · simp [hout]
    · simp [State.error, Point.descends]
  rcases hcases with hwait | ⟨hdown, hpipe, hfork⟩
  · exact .inr (h.unwinding hsound hwait hsame.1 hsame.2)
  · refine .inl ⟨hsound, hdown, ?_, ?_⟩
    · rw [hsame.1, hsame.2]
      exact h.named
    · rintro (heq | heq)
      · exact absurd heq hpipe
      · exact absurd heq hfork

theorem Descending.closeWrite (h : Descending base segs s) (hpoint : s.point = .closeWrite) :
    Descending base segs s.closeWrite := by
  have hsound := h.sound.closeWrite hpoint
  have hclose := h.sound.close_write_end hpoint
  unfold State.closeWrite at hsound ⊢
  rw [hclose] at hsound ⊢
  exact ⟨hsound, rfl, h.named, by simp⟩

/-- The close of the read end succeeds: nothing else was done to the descriptor. -/
theorem Unwinding.closeRead (h : Unwinding base segs s) (hpoint : s.point = .closeRead) :
    Unwinding base segs s.closeRead := by
  have hrises := h.rises
  simp only [State.Rises, hpoint] at hrises
  obtain ⟨hlevel, hlt, htable, hwaited⟩ := hrises
  have hclose : s.table.close s.command.fds.1 = some (reads base s.commands s.level) := by
    rw [htable]
    exact update_close (h.fresh s.level hlevel hlt).read_free _
  have hreaped := h.reaped
  simp only [State.Unwound, hpoint] at hreaped
  unfold State.closeRead
  rw [hclose]
  exact ⟨⟨hlevel, rfl, hwaited⟩, h.commands, h.fresh, hreaped, h.pids, h.named, h.last⟩

/-- A change of one child that does not concern whether it was waited for. -/
theorem Unwinding.setProc_reaped (h : Unwinding base segs s) (i : Nat) (proc : Process)
    (hold : (s.procs i).point ≠ .reaped) (hproc : proc.point ≠ .reaped) :
    ∀ j < s.forked, ((Function.update s.procs i proc j).point = .reaped ↔ s.Unwound j) := by
  intro j hj
  rcases eq_or_ne j i with rfl | hne
  · rw [Function.update_self]
    exact iff_of_false hproc fun hunwound => hold ((h.reaped j hj).mpr hunwound)
  · rw [Function.update_of_ne hne]
    exact h.reaped j hj

/-- The child of the level is waited for, and was not before. -/
theorem Unwinding.wait (h : Unwinding base segs s) (hpoint : s.point = .wait)
    (hnext : s.wait = some next) : Unwinding base segs next := by
  have hrises := h.rises
  simp only [State.Rises, hpoint] at hrises
  obtain ⟨hlevel, htable, hwaited⟩ := hrises
  have hreaped := h.reaped
  simp only [State.Unwound, hpoint] at hreaped
  unfold State.wait at hnext
  split at hnext
  · have hnow : ∀ i < s.forked, ((Function.update s.procs s.level
        { s.procs s.level with point := .reaped } i).point = .reaped ↔ s.level ≤ i) := by
      intro i hi
      rcases eq_or_ne i s.level with rfl | hne
      · rw [Function.update_self]
        exact iff_of_true rfl (Nat.le_refl _)
      · rw [Function.update_of_ne hne, hreaped i hi]
        omega
    have hpids : s.waited ++ [s.command.pid] = s.pidsFrom s.level := by
      rw [hwaited, State.pidsFrom_of_lt hlevel, State.command]
    cases hnext
    unfold State.ret
    split
    · rename_i hzero
      have hzero : s.level = 0 := hzero
      rw [hzero] at htable hpids
      exact ⟨⟨htable, hpids⟩, h.commands, h.fresh,
        fun i hi => (hnow i hi).trans (iff_of_true (by omega) trivial), h.pids, h.named, h.last⟩
    · rename_i k hk
      have hk : s.level = k + 1 := hk
      have hlt : k + 1 < segs.length := hk ▸ lt_length_of_argv (h.commands s.level hlevel)
      have hle : ∀ i, s.level ≤ i ↔ k < i := by omega
      rw [hk] at htable hpids
      exact ⟨⟨(by omega : k < s.forked), hlt, htable, hpids⟩, h.commands, h.fresh,
        fun i hi => (hnow i hi).trans (hle i), h.pids, h.named, h.last⟩
  · rename_i hgone
    exact absurd ((hreaped s.level hlevel).mp hgone) (Nat.lt_irrefl _)
  · cases hnext

/-- The shell's side of a step of a child. -/
theorem Unwinding.child {i : Nat} (act : Process → Option Process)
    (h : Unwinding base segs s)
    (hkept : ∀ proc, act (s.procs i) = some proc → (s.procs i).Kept proc)
    (hnext : s.child i act = some next) : Unwinding base segs next := by
  unfold State.child at hnext
  split at hnext
  · obtain ⟨proc, hproc, rfl⟩ := Option.map_eq_some_iff.mp hnext
    obtain ⟨hold, hnew, -⟩ := hkept proc hproc
    exact ⟨h.rises, h.commands, h.fresh, h.setProc_reaped i proc hold hnew, h.pids,
      h.named, h.last⟩
  · cases hnext

theorem Unwinding.step {event : Event} (h : Unwinding base segs s)
    (hnext : Pipeline.step s event = some next) : Unwinding base segs next := by
  have hrises := h.rises
  simp only [State.Rises] at hrises
  cases event with
  | advance =>
      simp only [Pipeline.step, State.advance] at hnext
      cases hpoint : s.point <;> simp only [hpoint] at hnext hrises
      case closeRead =>
        cases hnext
        exact h.closeRead hpoint
      case wait => exact h.wait hpoint hnext
      all_goals cases hnext
  | pipe fds =>
      simp only [Pipeline.step, State.pipe] at hnext
      cases hpoint : s.point <;> simp only [hpoint] at hnext hrises
      all_goals cases hnext
  | fork pid =>
      simp only [Pipeline.step, State.fork] at hnext
      cases hpoint : s.point <;> simp only [hpoint] at hnext hrises
      all_goals cases hnext
  | child i =>
      exact Unwinding.child (fun proc => proc.advance (s.commands i)) h
        (fun _ hproc => Process.advance_kept hproc) hnext
  | childEnds i =>
      exact Unwinding.child Process.ends h (fun _ hproc => Process.ends_kept hproc) hnext

theorem Descending.child {i : Nat} (act : Process → Option Process)
    (h : Descending base segs s) (hsound : Sound base segs next)
    (hnext : s.child i act = some next) : Descending base segs next := by
  unfold State.child at hnext
  split at hnext
  · obtain ⟨proc, hproc, rfl⟩ := Option.map_eq_some_iff.mp hnext
    exact ⟨hsound, h.down, h.named, h.ready⟩
  · cases hnext

theorem Descending.step {event : Event} (h : Descending base segs s) (hbase : Base base)
    (hnext : Pipeline.step s event = some next) :
    Descending base segs next ∨ Unwinding base segs next := by
  have hdown := h.down
  cases event with
  | advance =>
      simp only [Pipeline.step, State.advance] at hnext
      cases hpoint : s.point <;> simp only [hpoint, Point.descends] at hnext hdown
      case enter => exact h.enter hpoint hnext
      case setpgid =>
        cases hnext
        exact h.setpgid hbase hpoint
      case closeWrite =>
        cases hnext
        exact .inl (h.closeWrite hpoint)
      case closeRead | wait => cases hdown
      all_goals cases hnext
  | pipe fds => exact .inl (h.pipe hnext)
  | fork pid => exact .inl (h.fork hnext)
  | child i =>
      have hsound := Sound.child (fun proc => proc.advance (s.commands i)) h.sound
        (fun _ hproc hat => hat.advance hproc)
        (fun _ hproc => Process.advance_kept hproc) hnext
      exact .inl (Descending.child (fun proc => proc.advance (s.commands i)) h hsound hnext)
  | childEnds i =>
      have hsound := Sound.child Process.ends h.sound (fun _ hproc _ => ChildAt.ends hproc)
        (fun _ hproc => Process.ends_kept hproc) hnext
      exact .inl (Descending.child Process.ends h hsound hnext)

def OnLine (base : Table) (segs : List (List Char)) (s : State) : Prop :=
  Descending base segs s ∨ Unwinding base segs s

theorem OnLine.step {event : Event} (h : OnLine base segs s) (hbase : Base base)
    (hnext : Pipeline.step s event = some next) : OnLine base segs next := by
  rcases h with hdown | hup
  · exact hdown.step hbase hnext
  · exact .inr (hup.step hnext)

theorem start_onLine (setup : Setup) (line : List Char) :
    OnLine setup.table (segments line) (start setup line) :=
  .inl ⟨Sound.start setup line, rfl, fun i hi => absurd hi (Nat.not_lt_zero i), by
    rintro (hpoint | hpoint) <;> cases hpoint⟩

theorem Process.advance_left {proc after : Process} {command : Command}
    (h : proc.advance command = some after) : after.point.left < proc.point.left := by
  have hcall : ∀ result point, point.left < proc.point.left → 0 < proc.point.left →
      (proc.call result point).point.left < proc.point.left := by
    intro result point hless hpos
    rcases Process.call_point result point with hpoint | hpoint <;> rw [hpoint]
    · exact hpos
    · exact hless
  unfold Process.advance at h
  cases hpoint : proc.point <;> simp only [hpoint] at h hcall
  case dupIn | dupOut =>
    split at h <;> cases h
    · exact hcall _ _ (by decide) (by decide)
    · simp [ChildPoint.left]
  case closeIn | closeRead | closeWrite =>
    cases h
    exact hcall _ _ (by decide) (by decide)
  case exec =>
    cases h
    simp [ChildPoint.left]
  all_goals cases h

theorem Process.ends_left {proc after : Process} (h : proc.ends = some after) :
    after.point.left < proc.point.left := by
  unfold Process.ends at h
  cases hpoint : proc.point <;> simp only [hpoint] at h <;> cases h <;>
    simp [Process.exit, ChildPoint.left]

/-- The step of a child is one less for it, and the same for everybody else. -/
theorem State.child_left {i : Nat} (act : Process → Option Process)
    (hact : ∀ proc, act (s.procs i) = some proc → proc.point.left < (s.procs i).point.left)
    (hnext : s.child i act = some next) : next.left < s.left := by
  unfold State.child at hnext
  split at hnext
  · rename_i hi
    obtain ⟨proc, hproc, rfl⟩ := Option.map_eq_some_iff.mp hnext
    have hless := hact proc hproc
    have hshell : (s.setProc i proc).shellLeft = s.shellLeft := rfl
    have hchildren : ∑ j ∈ Finset.range s.forked, ((s.setProc i proc).procs j).point.left <
        ∑ j ∈ Finset.range s.forked, (s.procs j).point.left := by
      apply Finset.sum_lt_sum
      · intro j _
        simp only [State.setProc]
        rcases eq_or_ne j i with rfl | hne
        · rw [Function.update_self]
          exact hless.le
        · rw [Function.update_of_ne hne]
      · refine ⟨i, Finset.mem_range.mpr hi, ?_⟩
        simp only [State.setProc, Function.update_self]
        exact hless
    exact Nat.add_lt_add_left hchildren _
  · cases hnext

/-- A step of the shell that leaves the children where they are. -/
theorem left_lt_of_shell (hshell : next.shellLeft < s.shellLeft)
    (hforked : next.forked = s.forked)
    (hprocs : ∀ i < s.forked, (next.procs i).point.left = (s.procs i).point.left) :
    next.left < s.left := by
  have hchildren : ∑ i ∈ Finset.range next.forked, (next.procs i).point.left =
      ∑ i ∈ Finset.range s.forked, (s.procs i).point.left := by
    rw [hforked]
    exact Finset.sum_congr rfl fun i hi => hprocs i (Finset.mem_range.mp hi)
  unfold State.left
  omega

theorem State.ret_left (hleft : 2 * s.level + 1 ≤ s.shellLeft) : s.ret.left < s.left := by
  unfold State.ret
  split
  · refine left_lt_of_shell ?_ rfl fun _ _ => rfl
    change 0 < s.shellLeft
    omega
  · rename_i level hlevel
    have hlevel : s.level = level + 1 := hlevel
    refine left_lt_of_shell ?_ rfl fun _ _ => rfl
    change 2 * level + 2 < s.shellLeft
    omega

theorem Descending.enter_left (h : Descending base segs s) (hpoint : s.point = .enter)
    (hnext : s.enter = some next) : next.left < s.left := by
  have hplaced := h.sound.placed
  simp only [State.Placed, hpoint] at hplaced
  obtain ⟨-, ⟨text, hprompt, hsegments⟩, -, -⟩ := hplaced
  have hunread : s.unread = segs.length - s.level := by
    simp only [State.unread, hprompt, hsegments, List.length_drop]
  have hshell : s.shellLeft = 14 * s.unread + 2 * s.level := by
    simp only [State.shellLeft, hpoint]
  obtain ⟨token, htoken, hcases⟩ := h.sound.enter_cases hpoint
  have hlt := (List.getElem?_eq_some_iff.mp htoken).1
  rcases hcases with ⟨-, hret⟩ | ⟨-, ⟨hlast, hfork⟩ | ⟨hmore, rest, hrest, hpipe⟩⟩
  · rw [hret] at hnext
    cases hnext
    apply State.ret_left
    omega
  · rw [hfork] at hnext
    cases hnext
    refine left_lt_of_shell ?_ rfl fun _ _ => rfl
    change 14 * 0 + 2 * s.level + 12 < s.shellLeft
    omega
  · rw [hpipe] at hnext
    cases hnext
    refine left_lt_of_shell ?_ rfl fun _ _ => rfl
    change 14 * (segments rest).length + 2 * s.level + 13 < s.shellLeft
    rw [hrest, List.length_drop]
    omega

theorem State.pipe_left {fds : Nat × Nat} (hnext : s.pipe fds = some next) :
    next.left < s.left := by
  unfold State.pipe at hnext
  cases hpoint : s.point <;> simp only [hpoint] at hnext
  case pipe =>
    split at hnext
    · cases hnext
      refine left_lt_of_shell ?_ rfl fun _ _ => rfl
      simp only [State.shellLeft, State.unread, hpoint]
      omega
    · cases hnext
  all_goals cases hnext

/-- What the shell has for a child is enough for it. -/
theorem Descending.fork_left {pid : Nat} (h : Descending base segs s)
    (hnext : s.fork pid = some next) : next.left < s.left := by
  unfold State.fork at hnext
  cases hpoint : s.point <;> simp only [hpoint] at hnext
  case fork =>
    have hplaced := h.sound.placed
    simp only [State.Placed, hpoint] at hplaced
    have hforked := hplaced.1.1
    split at hnext
    · cases hnext
      have hshell : s.shellLeft = 14 * s.unread + 2 * s.level + 12 := by
        simp only [State.shellLeft, hpoint]
      have hold : ∀ i ∈ Finset.range s.forked,
          (Function.update s.procs s.level ⟨.dupIn, s.table, s.group, false⟩ i).point.left =
            (s.procs i).point.left := by
        intro i hi
        have hne : i ≠ s.level := Nat.ne_of_lt (hforked ▸ Finset.mem_range.mp hi)
        rw [Function.update_of_ne hne]
      have hnew : (Function.update s.procs s.level
          ⟨.dupIn, s.table, s.group, false⟩ s.forked).point.left = 7 := by
        rw [hforked, Function.update_self]
        rfl
      unfold State.left
      dsimp only
      rw [Finset.sum_range_succ, Finset.sum_congr rfl hold, hnew, hshell]
      simp only [State.shellLeft, State.unread]
      omega
    · cases hnext
  all_goals cases hnext

theorem State.setpgid_left (hpoint : s.point = .setpgid) : s.setpgid.left < s.left := by
  have hshell : s.shellLeft = 14 * s.unread + 2 * s.level + 4 := by
    simp only [State.shellLeft, hpoint]
  unfold State.setpgid
  split
  · refine left_lt_of_shell ?_ rfl ?_
    · by_cases hout : 1 ≠ s.command.fds.2
      · rw [if_pos hout]
        change 14 * s.unread + 2 * s.level + 3 < s.shellLeft
        omega
      · rw [if_neg hout]
        change 2 * s.level + 1 < s.shellLeft
        omega
    · intro i _
      simp only [State.setProc]
      rcases eq_or_ne i s.level with rfl | hne
      · rw [Function.update_self]
      · rw [Function.update_of_ne hne]
  · refine left_lt_of_shell ?_ rfl fun _ _ => rfl
    change 0 < s.shellLeft
    omega

theorem State.closeWrite_left (hpoint : s.point = .closeWrite) :
    s.closeWrite.left < s.left := by
  have hshell : s.shellLeft = 14 * s.unread + 2 * s.level + 3 := by
    simp only [State.shellLeft, hpoint]
  unfold State.closeWrite
  split
  · refine left_lt_of_shell ?_ rfl fun _ _ => rfl
    change 0 < s.shellLeft
    omega
  · refine left_lt_of_shell ?_ rfl fun _ _ => rfl
    change 14 * s.unread + 2 * (s.level + 1) < s.shellLeft
    omega

theorem State.closeRead_left (hpoint : s.point = .closeRead) : s.closeRead.left < s.left := by
  have hshell : s.shellLeft = 2 * s.level + 2 := by
    simp only [State.shellLeft, hpoint]
  unfold State.closeRead
  split
  · refine left_lt_of_shell ?_ rfl fun _ _ => rfl
    change 0 < s.shellLeft
    omega
  · refine left_lt_of_shell ?_ rfl fun _ _ => rfl
    change 2 * s.level + 1 < s.shellLeft
    omega

theorem State.wait_left (hpoint : s.point = .wait) (hnext : s.wait = some next) :
    next.left < s.left := by
  have hshell : s.shellLeft = 2 * s.level + 1 := by
    simp only [State.shellLeft, hpoint]
  unfold State.wait at hnext
  split at hnext
  · rename_i hzombie
    cases hnext
    generalize hs : ({ s.setProc s.level { s.procs s.level with point := .reaped } with
      waited := s.waited ++ [s.command.pid] } : State) = s'
    have hsame : s'.left = s.left := by
      subst hs
      have hprocs : ∀ i ∈ Finset.range s.forked,
          (Function.update s.procs s.level
            { s.procs s.level with point := .reaped } i).point.left =
              (s.procs i).point.left := by
        intro i _
        rcases eq_or_ne i s.level with rfl | hne
        · rw [Function.update_self, hzombie]
          rfl
        · rw [Function.update_of_ne hne]
      exact congrArg (s.shellLeft + ·) (Finset.sum_congr rfl hprocs)
    have hshell' : s'.shellLeft = 2 * s'.level + 1 := by
      subst hs
      exact hshell
    exact hsame ▸ State.ret_left hshell'.ge
  · cases hnext
    exact State.ret_left hshell.ge
  · cases hnext

/-- Every step of the shell or of a child brings the end nearer. -/
theorem OnLine.left_lt {event : Event} (h : OnLine base segs s)
    (hnext : Pipeline.step s event = some next) : next.left < s.left := by
  cases event with
  | advance =>
      simp only [Pipeline.step, State.advance] at hnext
      cases hpoint : s.point <;> simp only [hpoint] at hnext
      case enter =>
        rcases h with hdown | hup
        · exact hdown.enter_left hpoint hnext
        · have hrises := hup.rises
          simp only [State.Rises, hpoint] at hrises
      case setpgid =>
        cases hnext
        exact State.setpgid_left hpoint
      case closeWrite =>
        cases hnext
        exact State.closeWrite_left hpoint
      case closeRead =>
        cases hnext
        exact State.closeRead_left hpoint
      case wait => exact State.wait_left hpoint hnext
      all_goals cases hnext
  | pipe fds => exact State.pipe_left hnext
  | fork pid =>
      rcases h with hdown | hup
      · exact hdown.fork_left hnext
      · have hrises := hup.rises
        simp only [Pipeline.step, State.fork] at hnext
        cases hpoint : s.point <;> simp only [State.Rises, hpoint] at hnext hrises
        all_goals cases hnext
  | child i =>
      exact State.child_left (fun proc => proc.advance (s.commands i))
        (fun _ hproc => Process.advance_left hproc) hnext
  | childEnds i =>
      exact State.child_left Process.ends (fun _ hproc => Process.ends_left hproc) hnext

/-- A child that is not gone can end. -/
theorem children_gone (hstuck : Stuck Pipeline.step s) (i : Nat) (hi : i < s.forked) :
    (s.procs i).point = .zombie ∨ (s.procs i).point = .reaped := by
  have hnone := hstuck (.childEnds i)
  simp only [Pipeline.step, State.child, if_pos hi, Option.map_eq_none_iff] at hnone
  unfold Process.ends at hnone
  cases hpoint : (s.procs i).point <;> simp only [hpoint] at hnone
  case zombie => exact .inl rfl
  case reaped => exact .inr rfl
  all_goals cases hnone

/-- On the way down there is always a next step but behind a failed `setpgid`. -/
theorem Descending.exited {setup : Setup} (h : Descending setup.table segs s)
    (hstuck : Stuck Pipeline.step s) : s.point = .exited 11 := by
  have hdown := h.down
  have hplaced := h.sound.placed
  have hadvance := hstuck .advance
  simp only [Pipeline.step, State.advance] at hadvance
  cases hpoint : s.point <;> simp only [hpoint, Point.descends] at hadvance hdown
  case enter =>
    obtain ⟨token, -, hcases⟩ := h.sound.enter_cases hpoint
    rcases hcases with ⟨-, hret⟩ | ⟨-, ⟨-, hfork⟩ | ⟨-, rest, -, hpipe⟩⟩
    · rw [hret] at hadvance
      cases hadvance
    · rw [hfork] at hadvance
      cases hadvance
    · rw [hpipe] at hadvance
      cases hadvance
  case pipe =>
    obtain ⟨fds, next, hnext, -⟩ := h.sound.exists_pipe hpoint
    have hnone : s.pipe fds = none := hstuck (.pipe fds)
    rw [hnext] at hnone
    cases hnone
  case fork =>
    obtain ⟨pid, next, hnext, -⟩ := State.exists_fork hpoint
    have hnone : s.fork pid = none := hstuck (.fork pid)
    rw [hnext] at hnone
    cases hnone
  case setpgid | closeWrite => cases hadvance
  case exited status =>
    simp only [State.Placed, hpoint] at hplaced
    rw [hplaced.1]
  all_goals cases hdown

/-- On the way back there is always a next step, once the children are gone,
up to the prompt. -/
theorem Unwinding.returned (h : Unwinding base segs s) (hstuck : Stuck Pipeline.step s) :
    s.point = .returned := by
  have hrises := h.rises
  have hadvance := hstuck .advance
  simp only [Pipeline.step, State.advance] at hadvance
  cases hpoint : s.point <;> simp only [State.Rises, hpoint] at hadvance hrises
  case closeRead => cases hadvance
  case wait =>
    unfold State.wait at hadvance
    rcases children_gone hstuck s.level hrises.1 with hgone | hgone <;>
      rw [hgone] at hadvance <;> cases hadvance
  case returned => rfl

/-- The commands are those of the segments before the first without words. -/
theorem Unwinding.started_eq (h : Unwinding base segs s) :
    (List.range s.forked).map (fun i => (s.commands i).argv) =
      (startedSegments segs).map argvOf := by
  have hnamed : ∀ token ∈ segs.take s.forked,
      decide (argvOf token ≠ []) = true := by
    intro token htoken
    obtain ⟨i, hi, rfl⟩ := List.mem_take_iff_getElem.mp htoken
    have hforked : i < s.forked := by omega
    have hargv := h.commands i hforked
    rw [List.getElem?_eq_getElem (by omega), Option.map_some, Option.some.injEq] at hargv
    rw [hargv]
    exact decide_eq_true (h.named i hforked)
  have hrest : (segs.drop s.forked).takeWhile (fun token => argvOf token ≠ []) = [] := by
    cases hdrop : segs.drop s.forked with
    | nil => rfl
    | cons token rest =>
        obtain ⟨htoken, -, hlt⟩ := drop_eq_cons hdrop
        have hblank := h.last hlt
        rw [htoken, Option.map_some, Option.some.injEq] at hblank
        rw [List.takeWhile_cons_of_neg (by simp [hblank])]
  have hstarted : startedSegments segs = segs.take s.forked := by
    rw [startedSegments, ← List.take_append_drop s.forked segs,
      List.takeWhile_append_of_pos hnamed, hrest, List.append_nil, List.take_append_drop]
  rw [hstarted]
  apply List.ext_getElem?
  intro i
  rw [List.getElem?_map, List.getElem?_map, List.getElem?_take]
  by_cases hi : i < s.forked
  · rw [List.getElem?_range hi, if_pos hi, h.commands i hi, Option.map_some]
  · rw [if_neg hi, List.getElem?_eq_none (by rw [List.length_range]; omega)]
    rfl

theorem OnLine.ended {setup : Setup} {line : List Char}
    (h : OnLine setup.table (segments line) s) (hstuck : Stuck Pipeline.step s) :
    Ended setup line s := by
  refine ⟨children_gone hstuck, ?_⟩
  rcases h with hdown | hup
  · exact .inl (hdown.exited hstuck)
  · have hpoint := hup.returned hstuck
    have hrises := hup.rises
    simp only [State.Rises, hpoint] at hrises
    obtain ⟨htable, hwaited⟩ := hrises
    refine .inr ⟨hpoint, htable, hup.started_eq, hwaited, hwaited ▸ hup.pids, ?_⟩
    intro i hi
    rw [hup.reaped i hi, State.Unwound, hpoint]
    trivial

/-- For every line, from every prompt, in any order of the steps of the shell
and its children, where `pipe` and `fork` succeed. -/
theorem line_completes (setup : Setup) (line : List Char) :
    Completes step (start setup line) (Ended setup line) (14 * (segments line).length) := by
  have hstart : (start setup line).left = 14 * (segments line).length := rfl
  rw [← hstart]
  exact completes_of_measure (OnLine setup.table (segments line)) State.left
    (fun _ _ _ h hnext => ⟨h.step setup.base hnext, h.left_lt hnext⟩)
    (fun _ h hstuck => h.ended hstuck) (start_onLine setup line)

/-- A line that ends in a bar: the one command is started with a pipe. -/
example : (segments ['a', '|']).length = 2 ∧ startedSegments (segments ['a', '|']) = [['a']] := by
  decide

end CsPrimer.ShellPipes.Pipeline
