import CsPrimer.ShellPipes.Shell

/-!
The process group of a pipeline over a session. The first child of a line
gives its pid to `pgid` only while `pgid` is zero, and nothing but the signal
handler makes it zero again. So the first line that starts a command is
grouped as intended, and every later one runs under its group.
-/

namespace CsPrimer.ShellPipes

variable {os : Os} {s s' s₁ s₂ : Shell} {g : Nat}

def Call.child : Call → Option Nat
  | .fork _ _ _ pid => some pid
  | _ => none

def Call.isSetpgid : Call → Bool
  | .setpgid _ _ => true
  | _ => false

def LineTrace.leader (t : LineTrace) : Option Nat :=
  t.entries.findSome? (fun e => e.call.child)

/-- The first command is forked with `pgid` zero, and every `setpgid` passes
the pid of the first child. The handler would exit until the first child has
its group, and from then on signal the group of the first child. -/
structure LineTrace.Grouped (t : LineTrace) : Prop where
  first_fork : ∀ e, t.entries.find? (fun e => e.call.child.isSome) = some e →
    e.pgid = 0
  setpgid_leader : ∀ e ∈ t.entries, ∀ pid pgid, e.call = .setpgid pid pgid →
    t.leader = some pgid
  before : ∀ e ∈ t.entries.takeWhile (fun e => !e.call.isSetpgid),
    sigintHandler e.pgid = .exit 0
  running : ∀ e ∈ t.entries.dropWhile (fun e => !e.call.isSetpgid),
    ∃ pid, t.leader = some pid ∧ sigintHandler e.pgid = .killpg pid

/-- Every line is grouped, and at every prompt, where no pipeline is running,
the handler would exit. -/
structure Session.WellGrouped (session : Session) : Prop where
  lines : ∀ t ∈ session.lines, t.Grouped
  prompts : ∀ t ∈ session.lines, sigintHandler t.prompt = .exit 0
  last : sigintHandler session.last = .exit 0

/-- The text before the first `|` has a word. -/
def startsCommand (line : List Char) : Bool :=
  strtok sep [] (strsep pipeChar line).1 ≠ []

/-- From `s` to `s'` calls are made with `pgid` at `g` throughout, and
`setpgid` passes it. -/
structure Under (g : Nat) (s s' : Shell) : Prop where
  pgid_eq : s'.pgid = g
  added : ∃ entries, s'.entries = s.entries ++ entries ∧
    ∀ e ∈ entries, e.pgid = g ∧
      ∀ pid pgid, e.call = .setpgid pid pgid → pgid = g

theorem Under.refl (h : s.pgid = g) : Under g s s where
  pgid_eq := h
  added := ⟨[], (List.append_nil _).symm, by simp⟩

theorem Under.trans (h : Under g s s₁) (h' : Under g s₁ s₂) : Under g s s₂ := by
  obtain ⟨entries, hentries, hall⟩ := h.added
  obtain ⟨entries', hentries', hall'⟩ := h'.added
  refine ⟨h'.pgid_eq, entries ++ entries', ?_, ?_⟩
  · rw [hentries', hentries, List.append_assoc]
  · intro e he
    rcases List.mem_append.mp he with he | he
    · exact hall e he
    · exact hall' e he

theorem Under.call (h : s.pgid = g) (call : Call)
    (hcall : ∀ pid pgid, call = .setpgid pid pgid → pgid = g) :
    Under g s (s.call call) where
  pgid_eq := h
  added := by
    refine ⟨[⟨call, s.pgid⟩], rfl, ?_⟩
    intro e he
    obtain rfl := List.mem_singleton.mp he
    exact ⟨h, hcall⟩

theorem openPipe_ok {rest : Option (List Char)} {fds : Nat × Nat}
    (h : openPipe os s rest = .ok (fds, s')) :
    s'.pgid = s.pgid ∧ ∃ opened, s'.entries = s.entries ++ opened ∧
      (opened = [] ∨ opened = [⟨.pipe fds, s.pgid⟩]) := by
  unfold openPipe at h
  split at h
  · cases h
    exact ⟨rfl, [], (List.append_nil _).symm, .inl rfl⟩
  · split at h
    · cases h
    · cases h
      exact ⟨rfl, _, rfl, .inr rfl⟩

theorem openPipe_under {rest : Option (List Char)} {fds : Nat × Nat}
    (h : openPipe os s rest = .ok (fds, s')) : Under s.pgid s s' := by
  unfold openPipe at h
  split at h
  · cases h
    exact Under.refl rfl
  · split at h
    · cases h
    · cases h
      exact Under.call rfl _ (by simp)

theorem closeFd_under {fd status : Nat}
    (h : closeFd os s fd status = .ok s') : Under s.pgid s s' := by
  unfold closeFd at h
  split at h
  · cases h
    exact Under.call rfl _ (by simp)
  · cases h

/-- What `spawn` does to the shell. -/
theorem spawn_ok {argv : List (List Char)} {infd pid : Nat} {fds : Nat × Nat}
    (h : spawn os s argv infd fds = .ok (pid, s')) :
    0 < pid ∧ s'.pgid = (if 0 = s.pgid then pid else s.pgid) ∧
      s'.entries = s.entries ++
        [⟨.fork argv infd fds pid, s.pgid⟩, ⟨.setpgid pid s'.pgid, s'.pgid⟩] := by
  unfold spawn at h
  split at h
  · cases h
  · rename_i child hfork
    simp only at h
    split at h
    · cases h
      refine ⟨os.fork_pos _ _ hfork, rfl, ?_⟩
      simp [Shell.call]
    · cases h

theorem spawn_under {argv : List (List Char)} {infd pid : Nat}
    {fds : Nat × Nat} (h : spawn os s argv infd fds = .ok (pid, s'))
    (hg : s.pgid ≠ 0) : Under s.pgid s s' := by
  obtain ⟨_, hpgid, hentries⟩ := spawn_ok h
  rw [if_neg (Ne.symm hg)] at hpgid
  refine ⟨hpgid, _, hentries, ?_⟩
  intro e he
  simp only [List.mem_cons, List.not_mem_nil, or_false] at he
  rcases he with rfl | rfl
  · exact ⟨rfl, by simp⟩
  · refine ⟨hpgid, ?_⟩
    intro child group heq
    cases heq
    exact hpgid

theorem spawn_pgid_ne_zero {argv : List (List Char)} {infd pid : Nat}
    {fds : Nat × Nat} (h : spawn os s argv infd fds = .ok (pid, s')) :
    s'.pgid ≠ 0 := by
  obtain ⟨hpos, hpgid, _⟩ := spawn_ok h
  rw [hpgid]
  split <;> omega

/-- A command started under a group stays under it. -/
theorem command_under {rest : Option (List Char)} {argv : List (List Char)}
    {infd pid : Nat} {fds : Nat × Nat}
    (hpipe : openPipe os s rest = .ok (fds, s₁))
    (hspawn : spawn os s₁ argv infd fds = .ok (pid, s₂))
    (htail : Under s₂.pgid s₂ s') (hg : s.pgid ≠ 0) : Under s.pgid s s' := by
  have hopened := openPipe_under hpipe
  have hspawned := spawn_under hspawn (hopened.pgid_eq ▸ hg)
  rw [hopened.pgid_eq] at hspawned
  rw [hspawned.pgid_eq] at htail
  exact (hopened.trans hspawned).trans htail

theorem run_blank {prompt : List Char} {infd : Nat}
    (hblank : strtok sep [] (strsep pipeChar prompt).1 = []) :
    run os s prompt infd = .ok s := by
  rw [run, if_pos hblank]

private theorem bind_ok {α β : Type} {x : Except Nat α} {f : α → Except Nat β}
    {b : β} (h : x >>= f = .ok b) : ∃ a, x = .ok a ∧ f a = .ok b := by
  cases x with
  | error status => cases h
  | ok a => exact ⟨a, rfl, h⟩

/-- A command is started, and what follows runs under its group. The
recursion meets a nonzero `pgid`, and so does every command further on. -/
theorem run_command {prompt : List Char} {infd : Nat}
    (hargv : strtok sep [] (strsep pipeChar prompt).1 ≠ [])
    (h : run os s prompt infd = .ok s') :
    ∃ fds pid s₁ s₂, openPipe os s (strsep pipeChar prompt).2 = .ok (fds, s₁) ∧
      spawn os s₁ (strtok sep [] (strsep pipeChar prompt).1) infd fds =
        .ok (pid, s₂) ∧
      Under s₂.pgid s₂ s' := by
  induction hlength : prompt.length using Nat.strong_induction_on
    generalizing prompt s s' infd with
  | _ length ih =>
      rw [run, if_neg hargv] at h
      obtain ⟨⟨fds, s₁⟩, hpipe, h⟩ := bind_ok h
      obtain ⟨⟨pid, s₂⟩, hspawn, h⟩ := bind_ok h
      refine ⟨fds, pid, s₁, s₂, hpipe, hspawn, ?_⟩
      have hwait : ∀ {s₃ : Shell}, s₃.pgid = s₂.pgid →
          Under s₂.pgid s₃ (s₃.call (.waitpid pid)) :=
        fun hpgid => Under.call hpgid _ (by simp)
      simp only at h
      split at h
      · cases h
        exact hwait rfl
      · rename_i rest hrest
        split at h
        · obtain ⟨s₃, hclose, h⟩ := bind_ok h
          obtain ⟨s₄, hrun, h⟩ := bind_ok h
          obtain ⟨s₅, hclose', h⟩ := bind_ok h
          cases h
          have hclosed := closeFd_under hclose
          have hnested : Under s₂.pgid s₃ s₄ := by
            by_cases hblank : strtok sep [] (strsep pipeChar rest).1 = []
            · rw [run_blank hblank] at hrun
              cases hrun
              exact Under.refl hclosed.pgid_eq
            · obtain ⟨fds', pid', s₆, s₇, hpipe', hspawn', htail⟩ :=
                ih _ (hlength ▸ strsep_length hrest) hblank hrun rfl
              have hunder := command_under hpipe' hspawn' htail
              rw [hclosed.pgid_eq] at hunder
              exact hunder (spawn_pgid_ne_zero hspawn)
          have hclosed' := closeFd_under hclose'
          rw [hnested.pgid_eq] at hclosed'
          have hlast := (hclosed.trans hnested).trans hclosed'
          exact hlast.trans (hwait hlast.pgid_eq)
        · cases h
          exact hwait rfl

/-- The calls of a line that starts a command, up to the first `setpgid`. -/
theorem line_entries {line : List Char} (hstarts : startsCommand line = true)
    (h : run os { s with entries := [] } line 0 = .ok s') :
    ∃ opened argv fds pid post, 0 < pid ∧
      s'.pgid = (if 0 = s.pgid then pid else s.pgid) ∧
      (opened = [] ∨ opened = [⟨.pipe fds, s.pgid⟩]) ∧
      s'.entries = opened ++ ⟨.fork argv 0 fds pid, s.pgid⟩ ::
        ⟨.setpgid pid s'.pgid, s'.pgid⟩ :: post ∧
      ∀ e ∈ post, e.pgid = s'.pgid ∧
        ∀ pid pgid, e.call = .setpgid pid pgid → pgid = s'.pgid := by
  have hargv : strtok sep [] (strsep pipeChar line).1 ≠ [] := by
    simpa [startsCommand] using hstarts
  obtain ⟨fds, pid, s₁, s₂, hpipe, hspawn, htail⟩ := run_command hargv h
  obtain ⟨hpgid₁, opened, hopened, hform⟩ := openPipe_ok hpipe
  obtain ⟨hpos, hpgid₂, hspawned⟩ := spawn_ok hspawn
  obtain ⟨hpgid', post, hpost, hall⟩ := htail
  rw [hpgid₁] at hpgid₂ hspawned
  rw [← hpgid'] at hpgid₂ hspawned hall
  refine ⟨opened, strtok sep [] (strsep pipeChar line).1, fds, pid, post, hpos,
    hpgid₂, hform, ?_, hall⟩
  rw [hpost, hspawned, hopened]
  simp

/-- The first line that starts a command is grouped. -/
theorem line_first {line : List Char} (hstarts : startsCommand line = true)
    (hzero : s.pgid = 0)
    (h : run os { s with entries := [] } line 0 = .ok s') :
    LineTrace.Grouped ⟨s.pgid, s'.entries⟩ ∧ s'.pgid ≠ 0 := by
  obtain ⟨opened, argv, fds, pid, post, hpos, hpgid, hform, hentries, hall⟩ :=
    line_entries hstarts h
  rw [hzero, if_pos rfl] at hpgid
  rw [hpgid] at hentries hall
  rw [hzero] at hentries hform
  have hleader : LineTrace.leader ⟨s.pgid, s'.entries⟩ = some pid := by
    rcases hform with rfl | rfl <;>
      simp [LineTrace.leader, hentries, Call.child]
  have hsignal : sigintHandler pid = .killpg pid := if_neg (by omega)
  refine ⟨⟨?_, ?_, ?_, ?_⟩, by omega⟩
  · intro e hfirst
    rcases hform with rfl | rfl <;>
      simp [hentries, Call.child] at hfirst <;> rw [← hfirst]
  · intro e he child pgid hcall
    rw [hleader]
    simp only [hentries, List.mem_append, List.mem_cons] at he
    rcases he with he | rfl | rfl | he
    · rcases hform with rfl | rfl
      · cases he
      · obtain rfl := List.mem_singleton.mp he
        cases hcall
    · cases hcall
    · cases hcall
      rfl
    · rw [(hall e he).2 child pgid hcall]
  · intro e he
    have hbefore : e.pgid = 0 := by
      rcases hform with rfl | rfl
      · simp [hentries, Call.isSetpgid] at he
        rw [he]
      · simp [hentries, Call.isSetpgid] at he
        rcases he with rfl | rfl <;> rfl
    rw [hbefore]
    rfl
  · intro e he
    have hafter : e.pgid = pid := by
      have hdropped : e = ⟨.setpgid pid pid, pid⟩ ∨ e ∈ post := by
        rcases hform with rfl | rfl <;>
          simpa [hentries, Call.isSetpgid] using he
      rcases hdropped with rfl | he
      · rfl
      · exact (hall e he).1
    exact ⟨pid, hleader, hafter ▸ hsignal⟩

/-- A later line forks its first command with `pgid` left over. -/
theorem line_later {line : List Char} (hstarts : startsCommand line = true)
    (hleft : s.pgid ≠ 0)
    (h : run os { s with entries := [] } line 0 = .ok s') :
    ¬ LineTrace.Grouped ⟨s.pgid, s'.entries⟩ := by
  obtain ⟨opened, argv, fds, pid, post, _, _, hform, hentries, _⟩ :=
    line_entries hstarts h
  intro hgrouped
  apply hleft
  apply hgrouped.first_fork ⟨.fork argv 0 fds pid, s.pgid⟩
  rcases hform with rfl | rfl <;> simp [hentries, Call.child]

/-- A line without a command makes no call. -/
theorem line_blank {line : List Char} (hblank : startsCommand line = false)
    (h : run os { s with entries := [] } line 0 = .ok s') :
    s'.entries = [] ∧ s'.pgid = s.pgid := by
  rw [run_blank (by simpa [startsCommand] using hblank)] at h
  cases h
  exact ⟨rfl, rfl⟩

theorem grouped_of_no_calls (prompt : Nat) : LineTrace.Grouped ⟨prompt, []⟩ where
  first_fork := by simp
  setpgid_leader := by simp
  before := by simp
  running := by simp

theorem mainLoop_cons {line : List Char} {lines : List (List Char)}
    {session : Session} (h : mainLoop os s (line :: lines) = .ok session) :
    ∃ next rest, run os { s with entries := [] } line 0 = .ok next ∧
      mainLoop os next lines = .ok rest ∧
      session = ⟨⟨s.pgid, next.entries⟩ :: rest.lines, rest.last⟩ := by
  obtain ⟨next, hrun, h⟩ := bind_ok h
  obtain ⟨rest, hrest, h⟩ := bind_ok h
  cases h
  exact ⟨next, rest, hrun, hrest, rfl⟩

/-- With `pgid` left over it stays, and no line with a command is grouped. -/
theorem mainLoop_left {lines : List (List Char)} {session : Session}
    (hleft : s.pgid ≠ 0) (h : mainLoop os s lines = .ok session) :
    (∀ t ∈ session.lines, t.Grouped) ↔
      ∀ line ∈ lines, startsCommand line = false := by
  induction lines generalizing s session with
  | nil =>
      cases h
      simp
  | cons line lines ih =>
      obtain ⟨next, rest, hrun, hrest, rfl⟩ := mainLoop_cons h
      simp only [List.forall_mem_cons]
      cases hline : startsCommand line with
      | true =>
          have hnot := line_later hline hleft hrun
          simp [hnot]
      | false =>
          obtain ⟨hnone, hpgid⟩ := line_blank hline hrun
          rw [hnone, ih (hpgid ▸ hleft) hrest]
          simp [grouped_of_no_calls]

/-- From a zero `pgid` one line with a command is grouped. -/
theorem mainLoop_grouped_iff {lines : List (List Char)} {session : Session}
    (hzero : s.pgid = 0) (h : mainLoop os s lines = .ok session) :
    (∀ t ∈ session.lines, t.Grouped) ↔
      (lines.filter startsCommand).length ≤ 1 := by
  induction lines generalizing s session with
  | nil =>
      cases h
      simp
  | cons line lines ih =>
      obtain ⟨next, rest, hrun, hrest, rfl⟩ := mainLoop_cons h
      simp only [List.forall_mem_cons]
      cases hline : startsCommand line with
      | true =>
          obtain ⟨hgrouped, hleft⟩ := line_first hline hzero hrun
          rw [mainLoop_left hleft hrest]
          simp [hgrouped, hline]
      | false =>
          obtain ⟨hnone, hpgid⟩ := line_blank hline hrun
          rw [hnone, ih (hpgid ▸ hzero) hrest]
          simp [grouped_of_no_calls, hline]

/-- With `pgid` left over the handler does not exit at the prompt. -/
theorem mainLoop_not_wellGrouped {lines : List (List Char)} {session : Session}
    (hleft : s.pgid ≠ 0) (h : mainLoop os s lines = .ok session) :
    ¬ session.WellGrouped := by
  have hsignal : sigintHandler s.pgid ≠ .exit 0 := by simp [sigintHandler, hleft]
  intro hwell
  apply hsignal
  cases lines with
  | nil =>
      cases h
      exact hwell.last
  | cons line lines =>
      obtain ⟨next, rest, _, _, rfl⟩ := mainLoop_cons h
      exact hwell.prompts _ (List.mem_cons_self ..)

theorem Session.WellGrouped.tail {t : LineTrace} {rest : Session}
    (h : Session.WellGrouped ⟨t :: rest.lines, rest.last⟩) :
    rest.WellGrouped where
  lines := fun t ht => h.lines t (List.mem_cons_of_mem _ ht)
  prompts := fun t ht => h.prompts t (List.mem_cons_of_mem _ ht)
  last := h.last

theorem Session.WellGrouped.cons {t : LineTrace} {rest : Session}
    (h : rest.WellGrouped) (hgrouped : t.Grouped)
    (hprompt : sigintHandler t.prompt = .exit 0) :
    Session.WellGrouped ⟨t :: rest.lines, rest.last⟩ where
  lines := List.forall_mem_cons.mpr ⟨hgrouped, h.lines⟩
  prompts := List.forall_mem_cons.mpr ⟨hprompt, h.prompts⟩
  last := h.last

theorem mainLoop_wellGrouped_iff {lines : List (List Char)} {session : Session}
    (hzero : s.pgid = 0) (h : mainLoop os s lines = .ok session) :
    session.WellGrouped ↔ ∀ line ∈ lines, startsCommand line = false := by
  induction lines generalizing s session with
  | nil =>
      cases h
      refine iff_of_true ⟨by simp, by simp, ?_⟩ (by simp)
      exact congrArg sigintHandler hzero
  | cons line lines ih =>
      obtain ⟨next, rest, hrun, hrest, rfl⟩ := mainLoop_cons h
      simp only [List.forall_mem_cons]
      cases hline : startsCommand line with
      | true =>
          obtain ⟨_, hleft⟩ := line_first hline hzero hrun
          refine iff_of_false ?_ (by simp)
          intro hwell
          apply mainLoop_not_wellGrouped hleft hrest
          exact hwell.tail
      | false =>
          obtain ⟨hnone, hpgid⟩ := line_blank hline hrun
          rw [← ih (hpgid ▸ hzero) hrest, hnone, hzero]
          constructor
          · intro hwell
            exact ⟨rfl, hwell.tail⟩
          · intro hwell
            exact hwell.2.cons (grouped_of_no_calls 0) rfl

/-- A session is as intended exactly if no line starts a command: the first
one that does leaves `pgid` behind for the prompt. Leaving the prompts aside,
it is as intended exactly if at most one line starts a command. -/
theorem session_wellGrouped_iff (os : Os) (lines : List (List Char))
    (session : Session) (h : main os lines = .ok session) :
    (session.WellGrouped ↔ ∀ line ∈ lines, startsCommand line = false) ∧
      ((∀ t ∈ session.lines, t.Grouped) ↔
        (lines.filter startsCommand).length ≤ 1) :=
  ⟨mainLoop_wellGrouped_iff rfl h, mainLoop_grouped_iff rfl h⟩

def countingOs : Os where
  pipe := fun _ => some (3, 4)
  fork := fun n => some (100 + n)
  setpgid := fun _ => true
  close := fun _ => true
  fork_pos := by
    intro n pid h
    cases h
    omega

def twoLines : List (List Char) := ["d\n".toList, "b\n".toList]

def twoLinesSession : Session where
  lines :=
    [⟨0, [⟨.fork ["d".toList] 0 (0, 1) 100, 0⟩, ⟨.setpgid 100 100, 100⟩,
      ⟨.waitpid 100, 100⟩]⟩,
    ⟨100, [⟨.fork ["b".toList] 0 (0, 1) 103, 100⟩, ⟨.setpgid 103 100, 100⟩,
      ⟨.waitpid 103, 100⟩]⟩]
  last := 100

theorem two_lines_run : main countingOs twoLines = .ok twoLinesSession := by
  simp [main, mainLoop, twoLines, run, openPipe, spawn, countingOs, strtok,
    strsep, pipeChar, sep, Shell.call, twoLinesSession, bind, Except.bind, pure,
    Except.pure]

theorem two_lines_wellGrouped_iff :
    (twoLinesSession.WellGrouped ↔
      ∀ line ∈ twoLines, startsCommand line = false) ∧
    ((∀ t ∈ twoLinesSession.lines, t.Grouped) ↔
      (twoLines.filter startsCommand).length ≤ 1) :=
  session_wellGrouped_iff countingOs twoLines twoLinesSession two_lines_run

/-- The second line is forked and grouped under the pid of the first. -/
theorem second_line_joins_first_group :
    main countingOs twoLines = .ok twoLinesSession ∧
      ¬ twoLinesSession.WellGrouped := by
  refine ⟨two_lines_run, ?_⟩
  intro hwell
  have hsecond := hwell.lines _ (List.mem_cons_of_mem _ (List.mem_cons_self ..))
  have hfork := hsecond.first_fork ⟨.fork ["b".toList] 0 (0, 1) 103, 100⟩ rfl
  cases hfork

end CsPrimer.ShellPipes
