import CsPrimer.ShellPipes.Descriptors
import CsPrimer.ShellPipes.GroupRace

/-!
The pipe descriptors that a command has besides its standard ones. Of what the
shell holds at its level a child closes the read end it takes its input from
and the two ends of its own pipe. The read ends of the pipes further up stay
open in it, so from the third command on one of them is left.
-/

namespace CsPrimer.ShellPipes.Pipeline

open Foundation

/-- No pipe is open but as standard input or output. -/
def Clean (table : Table) : Prop :=
  ∀ fd file, table fd = some file → fd = 0 ∨ fd = 1 ∨ ∃ id, file = .shell id

variable {base table : Table} {segs : List (List Char)} {commands : Nat → Command}
  {command : Command} {k fd : Nat} {file : File} {s next : State}

/-- What is left of a table behind the first two calls of a child. -/
theorem afterIn_cases (h : afterIn command table fd = some file) (hzero : fd ≠ 0) :
    (0 ≠ command.infd → fd ≠ command.infd) ∧ table fd = some file := by
  unfold afterIn at h
  split at h
  · rcases eq_or_ne fd command.infd with rfl | hne
    · rw [Function.update_self] at h
      cases h
    · rw [Function.update_of_ne hne, Function.update_of_ne hzero] at h
      exact ⟨fun _ => hne, h⟩
  · rename_i hinfd
    exact ⟨fun hne => absurd hne hinfd, h⟩

theorem afterOut_cases (h : afterOut command table fd = some file) (hone : fd ≠ 1) :
    (1 ≠ command.fds.2 → fd ≠ command.fds.1 ∧ fd ≠ command.fds.2) ∧
      table fd = some file := by
  unfold afterOut at h
  split at h
  · rcases eq_or_ne fd command.fds.2 with rfl | hwrite
    · rw [Function.update_self] at h
      cases h
    · rw [Function.update_of_ne hwrite] at h
      rcases eq_or_ne fd command.fds.1 with rfl | hread
      · rw [Function.update_self] at h
        cases h
      · rw [Function.update_of_ne hread, afterDup, Function.update_of_ne hone] at h
        exact ⟨fun _ => ⟨hread, hwrite⟩, h⟩
  · rename_i hout
    exact ⟨fun hne => absurd hne hout, h⟩

/-- The first and the second command have nothing but their own pipes. -/
theorem exec_clean (hbase : Base base) (h : ∀ j ≤ k, CommandAt base segs commands j)
    (hk : k < 2) :
    Clean (afterOut (commands k)
      (afterIn (commands k) (forkTable base commands segs.length k))) := by
  intro fd file hfile
  by_contra hnot
  obtain ⟨hzero, hrest⟩ := not_or.mp hnot
  obtain ⟨hone, hpipe⟩ := not_or.mp hrest
  obtain ⟨hfds, hin⟩ := afterOut_cases hfile hone
  obtain ⟨hinfd, hfork⟩ := afterIn_cases hin hzero
  have hreads : reads base commands k fd = some file := by
    unfold forkTable at hfork
    split at hfork
    · rename_i hlt
      have hout := (CommandAt.piped_iff hbase h).mpr hlt
      rwa [withPipe_of_ne (hfds hout).1 (hfds hout).2] at hfork
    · exact hfork
  rcases reads_cases hreads with hshell | ⟨j, hj, rfl, -⟩
  · exact hpipe (hbase.before fd file hshell)
  · -- the one read end there is, that of the pipe before, is `infd`
    obtain rfl : k = 1 := by omega
    obtain rfl : j = 0 := by omega
    have hinput := (h 1 (Nat.le_refl 1)).infd
    rw [inputOf] at hinput
    exact hinfd (fun heq => hzero (by rw [← hinput, ← heq])) hinput.symm

/-- Every later command has the read end of the first pipe. -/
theorem exec_read_end (hbase : Base base) (h : ∀ j ≤ k, CommandAt base segs commands j)
    (hk : 2 ≤ k) :
    afterOut (commands k)
        (afterIn (commands k) (forkTable base commands segs.length k))
        (commands 0).fds.1 = some (.readEnd 0) ∧
      (commands 0).fds.1 ≠ 0 ∧ (commands 0).fds.1 ≠ 1 := by
  have hfresh := fresh_of_commands h
  have hfirst := hfresh 0 (by omega)
  have hzero := (hfirst.ne_of_open (hbase.standard 0 (by omega))).1.symm
  have hone := (hfirst.ne_of_open (hbase.standard 1 (by omega))).1.symm
  have hread := reads_end hfresh (by omega : 0 < k)
  have hopen : reads base commands k (commands 0).fds.1 ≠ none := by
    rw [hread]
    exact Option.some_ne_none _
  have hinput : (commands 0).fds.1 ≠ (commands k).infd := by
    intro heq
    have hother := reads_input hfresh
    rw [← (h k (Nat.le_refl k)).infd, ← heq, hread, if_neg (by omega)] at hother
    simp only [Option.some.injEq, File.readEnd.injEq] at hother
    omega
  refine ⟨?_, hzero, hone⟩
  rw [afterOut_of_ne hone (fun hout => CommandAt.pipe_ne h hout hopen),
    afterIn_of_ne hzero hinput, forkTable_of_open h hopen, hread]

theorem exec_clean_iff (hbase : Base base)
    (h : ∀ j ≤ k, CommandAt base segs commands j) :
    Clean (afterOut (commands k)
      (afterIn (commands k) (forkTable base commands segs.length k))) ↔ k < 2 := by
  constructor
  · intro hclean
    by_contra hge
    obtain ⟨hread, hzero, hone⟩ := exec_read_end hbase h (Nat.le_of_not_lt hge)
    rcases hclean _ _ hread with heq | heq | ⟨id, hfile⟩
    · exact hzero heq
    · exact hone heq
    · cases hfile
  · exact exec_clean hbase h

def ChildPoint.ahead : ChildPoint → Nat
  | .dupIn => 5
  | .closeIn => 4
  | .dupOut => 3
  | .closeRead => 2
  | .closeWrite => 1
  | _ => 0

theorem Process.call_point {proc : Process} (result : Option Table)
    (point : ChildPoint) :
    (proc.call result point).point = .zombie ∨ (proc.call result point).point = point := by
  cases result with
  | none => exact .inl rfl
  | some after => exact .inr rfl

/-- A child that is not at its exec yet gets closer to it, or has failed. -/
theorem Process.exists_advance {proc : Process} (command : Command)
    (hahead : 0 < proc.point.ahead) :
    ∃ after, proc.advance command = some after ∧
      (after.point = .zombie ∨ after.point = .exec ∨
        0 < after.point.ahead ∧ after.point.ahead < proc.point.ahead) := by
  have hcall : ∀ result point, point = .exec ∨
      0 < point.ahead ∧ point.ahead < proc.point.ahead →
        (proc.call result point).point = .zombie ∨ (proc.call result point).point = .exec ∨
          0 < (proc.call result point).point.ahead ∧
            (proc.call result point).point.ahead < proc.point.ahead := by
    intro result point hcloser
    rcases Process.call_point result point with hpoint | hpoint
    · exact .inl hpoint
    · rw [hpoint]
      exact .inr hcloser
  unfold Process.advance
  cases hpoint : proc.point <;> simp only [hpoint] at hahead hcall ⊢
  case dupIn =>
    split
    · exact ⟨_, rfl, hcall _ .closeIn (by simp [ChildPoint.ahead])⟩
    · exact ⟨_, rfl, by simp [ChildPoint.ahead]⟩
  case closeIn => exact ⟨_, rfl, hcall _ .dupOut (by simp [ChildPoint.ahead])⟩
  case dupOut =>
    split
    · exact ⟨_, rfl, hcall _ .closeRead (by simp [ChildPoint.ahead])⟩
    · exact ⟨_, rfl, .inr (.inl rfl)⟩
  case closeRead => exact ⟨_, rfl, hcall _ .closeWrite (by simp [ChildPoint.ahead])⟩
  case closeWrite => exact ⟨_, rfl, hcall _ .exec (.inl rfl)⟩
  all_goals exact absurd hahead (Nat.lt_irrefl 0)

/-- A child can run on to its exec while the shell stays where it is. -/
theorem Sound.exists_exec {i : Nat} (h : Sound base segs s) (hbase : Base base)
    (hi : i < s.forked) (hahead : 0 < (s.procs i).point.ahead) :
    ∃ last, Reaches Pipeline.step s last ∧ last.forked = s.forked ∧
      (last.procs i).AtExec := by
  induction hrank : (s.procs i).point.ahead using Nat.strong_induction_on
    generalizing s with
  | _ rank ih =>
      obtain ⟨proc, hproc, hcloser⟩ := Process.exists_advance (s.commands i) hahead
      have hstep : Pipeline.step s (.child i) = some (s.setProc i proc) := by
        simp only [Pipeline.step, State.child, if_pos hi, hproc, Option.map_some]
      have hself : (s.setProc i proc).procs i = proc := Function.update_self ..
      have husable := usable_of_commands hbase fun j hj =>
        h.commands j (Nat.lt_of_le_of_lt hj hi)
      rcases hcloser with hzombie | hexec | ⟨hpos, hlt⟩
      · exact absurd hzombie ((h.children i hi).succeeds husable hproc)
      · exact ⟨_, Reaches.single hstep, rfl, .inl (by rw [hself, hexec])⟩
      · have hsound : Sound base segs (s.setProc i proc) :=
          Sound.child (fun proc => proc.advance (s.commands i)) h
            (fun _ hproc hat => hat.advance hproc)
            (fun _ hproc => Process.advance_kept hproc) hstep
        rw [← hself] at hpos hlt
        obtain ⟨last, hreach, hforked, hlast⟩ :=
          ih _ (hrank ▸ hlt) hsound hi hpos rfl
        exact ⟨last, hreach.head hstep, hforked, hlast⟩

/-- From some descriptor on nothing is open at a level. -/
theorem reads_bounded {bound : Nat} (hclosed : ∀ fd, bound ≤ fd → base fd = none)
    (commands : Nat → Command) (k : Nat) :
    ∃ bound, ∀ fd, bound ≤ fd → reads base commands k fd = none := by
  induction k with
  | zero => exact ⟨bound, hclosed⟩
  | succ k ih =>
      obtain ⟨bound, hbound⟩ := ih
      refine ⟨max bound ((commands k).fds.1 + 1), ?_⟩
      intro fd hfd
      rw [reads, Function.update_of_ne (by omega)]
      exact hbound fd (by omega)

theorem State.exists_freshPid (s : State) : ∃ pid, s.FreshPid pid := by
  refine ⟨(Finset.range s.forked).sup (fun i => (s.commands i).pid) + 1,
    Nat.succ_pos _, ?_⟩
  intro i hi _
  have hle := Finset.le_sup (f := fun i => (s.commands i).pid) (Finset.mem_range.mpr hi)
  exact Nat.ne_of_lt (Nat.lt_succ_of_le hle)

structure Forked (setup : Setup) (line : List Char) (k : Nat) (s : State) : Prop where
  reached : Reaches Pipeline.step (Pipeline.start setup line) s
  point : s.point = .setpgid
  level : s.level = k
  child : (s.procs k).point = .dupIn ∧ (s.procs k).execed = false

/-- A level that is entered gets to its `pipe`, or to its `fork` if it is the
last. -/
theorem Sound.exists_enter (h : Sound base segs s)
    (hwords : ∀ token ∈ segs, argvOf token ≠ []) (hpoint : s.point = .enter) :
    ∃ next, s.enter = some next ∧ next.level = s.level ∧
      (next.point = .fork ∨ next.point = .pipe) := by
  have hplaced := h.placed
  simp only [State.Placed, hpoint] at hplaced
  obtain ⟨-, ⟨text, hprompt, hsegments⟩, -, -⟩ := hplaced
  obtain ⟨token, rest, hsep⟩ : ∃ token rest, strsep pipeChar text = (token, rest) :=
    ⟨_, _, rfl⟩
  simp only [State.enter, hprompt, hsep, strtok_eq_argvOf]
  cases rest with
  | none =>
      rw [segments_of_none hsep] at hsegments
      have htoken := (drop_eq_cons hsegments.symm).1
      rw [if_neg (hwords token (List.mem_of_getElem? htoken))]
      exact ⟨_, rfl, rfl, .inl rfl⟩
  | some rest =>
      rw [segments_of_some hsep] at hsegments
      have htoken := (drop_eq_cons hsegments.symm).1
      rw [if_neg (hwords token (List.mem_of_getElem? htoken))]
      exact ⟨_, rfl, rfl, .inr rfl⟩

/-- There are always two descriptors for a pipe. -/
theorem Sound.exists_pipe {setup : Setup} (h : Sound setup.table segs s)
    (hpoint : s.point = .pipe) :
    ∃ fds next, s.pipe fds = some next ∧ next.level = s.level ∧ next.point = .fork := by
  have hplaced := h.placed
  simp only [State.Placed, hpoint] at hplaced
  obtain ⟨-, -, -, htable, -⟩ := hplaced
  obtain ⟨bound, hbound⟩ := reads_bounded setup.closed s.commands s.level
  rw [← htable] at hbound
  have hfree := hbound bound (Nat.le_refl _)
  have hfree' := hbound (bound + 1) (Nat.le_succ _)
  refine ⟨(bound, bound + 1), ?_⟩
  simp only [State.pipe, hpoint]
  rw [if_pos ⟨hfree, hfree', Nat.ne_of_lt (Nat.lt_succ_self _)⟩]
  exact ⟨_, rfl, rfl, rfl⟩

theorem State.exists_fork (hpoint : s.point = .fork) :
    ∃ pid next, s.fork pid = some next ∧ next.level = s.level ∧ next.point = .setpgid ∧
      (next.procs next.level).point = .dupIn ∧
      (next.procs next.level).execed = false := by
  obtain ⟨pid, hfresh⟩ := s.exists_freshPid
  refine ⟨pid, ?_⟩
  simp only [State.fork, hpoint]
  rw [if_pos hfresh]
  refine ⟨_, rfl, rfl, rfl, ?_, ?_⟩ <;> dsimp only <;> rw [Function.update_self]

/-- From its entry a level can get behind its `fork`. -/
theorem exists_forked_of_enter {setup : Setup} {line : List Char}
    (hwords : ∀ token ∈ segments line, argvOf token ≠ [])
    (h : Reaches Pipeline.step (Pipeline.start setup line) s) (hpoint : s.point = .enter) :
    ∃ next, Forked setup line s.level next := by
  have hsound := sound_of_reaches hwords h
  obtain ⟨first, hfirst, hlevel, hcases⟩ := hsound.exists_enter hwords hpoint
  have hstep : Pipeline.step s .advance = some first := by
    simp only [Pipeline.step, State.advance, hpoint, hfirst]
  have hreach := h.trans (Reaches.single hstep)
  obtain ⟨ready, hready, hlevel', hpoint'⟩ :
      ∃ ready, Reaches Pipeline.step first ready ∧ ready.level = s.level ∧
        ready.point = .fork := by
    rcases hcases with hfork | hpipe
    · exact ⟨first, Reaches.refl, hlevel, hfork⟩
    · obtain ⟨fds, ready, hpiped, hsame, hfork⟩ :=
        (sound_of_reaches hwords hreach).exists_pipe hpipe
      have hstep' : Pipeline.step first (.pipe fds) = some ready := hpiped
      exact ⟨ready, Reaches.single hstep', hsame.trans hlevel, hfork⟩
  have hreach' := hreach.trans hready
  obtain ⟨pid, next, hfork, hsame, hnext, hchild, hexeced⟩ :=
    State.exists_fork hpoint'
  have hlast : next.level = s.level := hsame.trans hlevel'
  have hstep' : Pipeline.step ready (.fork pid) = some next := hfork
  exact ⟨next, hreach'.trans (Reaches.single hstep'), hnext, hlast,
    hlast ▸ hchild, hlast ▸ hexeced⟩

/-- A `setpgid` in time goes on to the close of the write end. -/
theorem Sound.setpgid_goes_on (h : Sound base segs s) (hbase : Base base) (hled : Led s)
    (hpoint : s.point = .setpgid) (hexeced : (s.procs s.level).execed = false)
    (hlt : s.level + 1 < segs.length) :
    s.setpgid.point = .closeWrite ∧ s.setpgid.level = s.level := by
  have hplaced := h.placed
  simp only [State.Placed, hpoint] at hplaced
  obtain ⟨hforked, -⟩ := hplaced
  have hout : 1 ≠ s.command.fds.2 :=
    (CommandAt.piped_iff hbase fun j hj => h.commands j (by omega)).mpr hlt
  unfold State.setpgid
  rw [if_pos ((hled.canSetpgid_iff hpoint).mpr hexeced)]
  exact ⟨if_pos hout, rfl⟩

/-- Before the child has run its program the shell can enter the next level. -/
theorem Forked.exists_next {setup : Setup} {line : List Char} (h : Forked setup line k s)
    (hfirst : setup.pgid = 0) (hwords : ∀ token ∈ segments line, argvOf token ≠ [])
    (hlt : k + 1 < (segments line).length) :
    ∃ next, Reaches Pipeline.step (Pipeline.start setup line) next ∧
      next.point = .enter ∧ next.level = k + 1 := by
  obtain ⟨hreach, hpoint, rfl, -, hexeced⟩ := h
  obtain ⟨hclose, hlevel⟩ := (sound_of_reaches hwords hreach).setpgid_goes_on setup.base
    (led_of_reaches hfirst hreach) hpoint hexeced hlt
  have hstep : Pipeline.step s .advance = some s.setpgid := by
    simp only [Pipeline.step, State.advance, hpoint]
  have hreach' := hreach.trans (Reaches.single hstep)
  have hstep' : Pipeline.step s.setpgid .advance = some s.setpgid.closeWrite := by
    simp only [Pipeline.step, State.advance, hclose]
  have hend := (sound_of_reaches hwords hreach').close_write_end hclose
  refine ⟨_, hreach'.trans (Reaches.single hstep'), ?_⟩
  unfold State.closeWrite
  rw [hend]
  exact ⟨rfl, congrArg (· + 1) hlevel⟩

/-- Every command of a line can be started. -/
theorem exists_forked {setup : Setup} {line : List Char} (hfirst : setup.pgid = 0)
    (hwords : ∀ token ∈ segments line, argvOf token ≠ [])
    (hlt : k < (segments line).length) : ∃ s, Forked setup line k s := by
  induction k with
  | zero => exact exists_forked_of_enter hwords Reaches.refl rfl
  | succ k ih =>
      obtain ⟨s, hs⟩ := ih (Nat.lt_of_succ_lt hlt)
      obtain ⟨next, hreach, hpoint, hlevel⟩ := hs.exists_next hfirst hwords hlt
      exact hlevel ▸ exists_forked_of_enter hwords hreach hpoint

/-- In every state that is reached a child at its exec is clean if it is the
first or the second of the line, and not otherwise. -/
theorem clean_iff_of_reaches {setup : Setup} {line : List Char}
    (hwords : ∀ token ∈ segments line, argvOf token ≠ [])
    (h : Reaches Pipeline.step (Pipeline.start setup line) s) {i : Nat}
    (hi : i < s.forked) (hexec : (s.procs i).AtExec) :
    Clean (s.procs i).table ↔ i < 2 := by
  have hsound := sound_of_reaches hwords h
  rw [(hsound.children i hi).at_exec hexec]
  exact exec_clean_iff setup.base fun j hj =>
    hsound.commands j (Nat.lt_of_le_of_lt hj hi)

/-- For every line of segments with words: each child is clean at its exec, in
every run from every prompt, for lines of one or two commands and no others. -/
theorem every_child_clean_iff (line : List Char)
    (hwords : ∀ token ∈ segments line, argvOf token ≠ []) :
    (∀ setup s, Reaches step (start setup line) s →
      ∀ i < s.forked, (s.procs i).AtExec → Clean (s.procs i).table) ↔
        (segments line).length ≤ 2 := by
  constructor
  · intro hclean
    by_contra hgt
    -- the third command, from a prompt with the standard descriptors only
    obtain ⟨s, hs⟩ : ∃ s, Forked terminal line 2 s :=
      exists_forked rfl hwords (by omega)
    have hsound := sound_of_reaches hwords hs.reached
    have hplaced := hsound.placed
    simp only [State.Placed, hs.point, hs.level] at hplaced
    have hi : 2 < s.forked := by omega
    have hahead : 0 < (s.procs 2).point.ahead := by
      rw [hs.child.1]
      decide
    obtain ⟨last, hreach, hforked, hexec⟩ := hsound.exists_exec terminal.base hi hahead
    have hreached := hs.reached.trans hreach
    have hi' : 2 < last.forked := hforked ▸ hi
    exact absurd ((clean_iff_of_reaches hwords hreached hi' hexec).mp
      (hclean terminal last hreached 2 hi' hexec)) (Nat.lt_irrefl 2)
  · intro hle setup s hreach i hi hexec
    have hlt := (sound_of_reaches hwords hreach).forked_le
    exact (clean_iff_of_reaches hwords hreach hi hexec).mpr (by omega)

def secondCommand : List Event :=
  [.advance, .pipe (3, 4), .fork 10, .advance, .advance, .advance, .fork 11,
    .child 1, .child 1, .child 1]

theorem second_command_clean :
    ∃ s, runEvents step (start terminal ['a', '|', 'b']) secondCommand = some s ∧
      1 < s.forked ∧ (s.procs 1).AtExec ∧ Clean (s.procs 1).table := by
  have hany : (runEvents step (start terminal ['a', '|', 'b']) secondCommand).any
      (fun s => 1 < s.forked ∧ (s.procs 1).point = .exec) = true := by decide +kernel
  obtain ⟨s, hrun, hs⟩ := (Option.any_eq_true _ _).mp hany
  obtain ⟨hforked, hexec⟩ := of_decide_eq_true hs
  exact ⟨s, hrun, hforked, .inl hexec,
    (every_child_clean_iff ['a', '|', 'b'] (by decide +kernel)).mpr (by decide +kernel)
      terminal s ⟨_, hrun⟩ 1 hforked (.inl hexec)⟩

def threeCommands : List Event :=
  [.advance, .pipe (3, 4), .fork 10, .advance, .advance,
    .advance, .pipe (4, 5), .fork 11, .advance, .advance, .advance, .fork 12,
    .child 2, .child 2, .child 2]

/-- The third has the read end of the first pipe as descriptor 3. -/
theorem third_command_keeps_read_end :
    ∃ s, runEvents step (start terminal ['a', '|', 'b', '|', 'c']) threeCommands =
        some s ∧
      2 < s.forked ∧ (s.procs 2).AtExec ∧
      (s.procs 2).table 3 = some (.readEnd 0) ∧ ¬ Clean (s.procs 2).table := by
  have hany : (runEvents step (start terminal ['a', '|', 'b', '|', 'c'])
      threeCommands).any (fun s => 2 < s.forked ∧ (s.procs 2).point = .exec ∧
        (s.procs 2).table 3 = some (.readEnd 0)) = true := by decide +kernel
  obtain ⟨s, hrun, hs⟩ := (Option.any_eq_true _ _).mp hany
  obtain ⟨hforked, hexec, hread⟩ := of_decide_eq_true hs
  refine ⟨s, hrun, hforked, .inl hexec, hread, ?_⟩
  intro hclean
  rcases hclean 3 _ hread with heq | heq | ⟨id, hfile⟩
  · omega
  · omega
  · cases hfile

end CsPrimer.ShellPipes.Pipeline
