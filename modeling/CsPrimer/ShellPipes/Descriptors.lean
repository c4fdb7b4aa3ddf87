import CsPrimer.ShellPipes.Tables

/-!
The descriptors of a pipeline, for a line whose segments all have words. One
invariant says which table the shell has at every point of the recursion, and
that every child is at some point of what a child does with the table it
started with. From it: what the commands have as standard input and output,
who holds the write end of a pipe, and what is left when `run` returns.
-/

namespace CsPrimer.ShellPipes.Pipeline

open Foundation

/-- The pids of the children from level `k` on, the last one first. -/
def State.pidsFrom (s : State) (k : Nat) : List Nat :=
  (((List.range s.forked).drop k).map (fun i => (s.commands i).pid)).reverse

def State.HasRest (s : State) (segs : List (List Char)) (k : Nat) : Prop :=
  ∃ rest, s.prompt = some rest ∧ segments rest = segs.drop k

def AtLevel (s : State) : Prop :=
  s.forked = s.level ∧ s.infd = inputOf s.commands s.level ∧ s.waited = []

def State.Placed (s : State) (base : Table) (segs : List (List Char)) : Prop :=
  match s.point with
  | .enter => AtLevel s ∧ s.HasRest segs s.level ∧ s.pipes = s.level ∧
      s.table = reads base s.commands s.level
  | .pipe => AtLevel s ∧ s.HasRest segs (s.level + 1) ∧ s.pipes = s.level ∧
      s.table = reads base s.commands s.level ∧
      segs[s.level]?.map argvOf = some s.argv ∧ s.level + 1 < segs.length
  | .fork => AtLevel s ∧ segs[s.level]?.map argvOf = some s.argv ∧
      (s.level + 1 < segs.length → s.HasRest segs (s.level + 1) ∧
        s.pipes = s.level + 1 ∧ Fresh (reads base s.commands s.level) s.fds ∧
        s.table = withPipe (reads base s.commands s.level) s.fds s.level) ∧
      (s.level + 1 = segs.length → s.fds = (0, 1) ∧
        s.table = reads base s.commands s.level)
  | .setpgid | .closeWrite => s.forked = s.level + 1 ∧ s.waited = [] ∧
      s.table = forkTable base s.commands segs.length s.level ∧
      (s.level + 1 < segs.length → s.HasRest segs (s.level + 1) ∧
        s.pipes = s.level + 1) ∧
      (s.point = .closeWrite → s.level + 1 < segs.length)
  | .closeRead => s.forked = segs.length ∧ s.level + 1 < segs.length ∧
      s.table = reads base s.commands (s.level + 1) ∧
      s.waited = s.pidsFrom (s.level + 1)
  | .wait => s.forked = segs.length ∧ s.level < segs.length ∧
      s.table = reads base s.commands s.level ∧
      s.waited = s.pidsFrom (s.level + 1)
  | .returned => s.forked = segs.length ∧ s.table = base ∧ s.waited = s.pidsFrom 0
  | .exited status => status = 11 ∧ s.table = fun _ => none

def State.Unwound (s : State) (i : Nat) : Prop :=
  match s.point with
  | .closeRead | .wait => s.level < i
  | .returned => True
  | _ => False

structure Sound (base : Table) (segs : List (List Char)) (s : State) : Prop where
  placed : s.Placed base segs
  commands : ∀ i < s.forked, CommandAt base segs s.commands i
  children : ∀ i < s.forked, ChildAt (s.commands i)
    (forkTable base s.commands segs.length i) (s.procs i)
  reaped : ∀ i < s.forked, ((s.procs i).point = .reaped ↔ s.Unwound i)
  pids : ∀ i < s.forked, ∀ j < i, (s.commands j).pid ≠ (s.commands i).pid

variable {base : Table} {segs : List (List Char)} {s next : State}

theorem segments_ne_nil (text : List Char) : segments text ≠ [] := by
  rw [segments, List.splitOn_eq_splitOnP]
  exact List.splitOnP_ne_nil _ _

theorem drop_eq_cons {k : Nat} {token : List Char} {tail : List (List Char)}
    (h : segs.drop k = token :: tail) :
    segs[k]? = some token ∧ segs.drop (k + 1) = tail ∧ k < segs.length := by
  refine ⟨?_, ?_, ?_⟩
  · rw [← List.head?_drop, h]
    rfl
  · rw [← List.tail_drop, h]
    rfl
  · by_contra hge
    rw [List.drop_eq_nil_of_le (Nat.le_of_not_lt hge)] at h
    cases h

theorem Sound.start (setup : Setup) (line : List Char) :
    Sound setup.table (segments line) (start setup line) where
  placed := ⟨⟨rfl, rfl, rfl⟩, ⟨line, rfl, rfl⟩, rfl, rfl⟩
  commands := fun i hi => absurd hi (Nat.not_lt_zero i)
  children := fun i hi => absurd hi (Nat.not_lt_zero i)
  reaped := fun i hi => absurd hi (Nat.not_lt_zero i)
  pids := fun i hi => absurd hi (Nat.not_lt_zero i)

/-- Where no level has unwound, nothing is reaped, and the step to another
such point leaves it so. -/
theorem Sound.unreaped (h : Sound base segs s) (hdown : ∀ i, ¬ s.Unwound i) :
    ∀ i < s.forked, (s.procs i).point ≠ .reaped :=
  fun i hi hreaped => hdown i ((h.reaped i hi).mp hreaped)

/-- A segment with words, and what comes behind it. -/
theorem Sound.enter (h : Sound base segs s) (hwords : ∀ token ∈ segs, argvOf token ≠ [])
    (hpoint : s.point = .enter) (hnext : s.enter = some next) :
    Sound base segs next := by
  have hplaced := h.placed
  simp only [State.Placed, hpoint] at hplaced
  obtain ⟨hlevel, ⟨text, hprompt, hsegments⟩, hpipes, htable⟩ := hplaced
  have hunreaped := h.unreaped (by simp [State.Unwound, hpoint])
  obtain ⟨token, rest, hsep⟩ : ∃ token rest, strsep pipeChar text = (token, rest) :=
    ⟨_, _, rfl⟩
  simp only [State.enter, hprompt, hsep, strtok_eq_argvOf] at hnext
  cases rest with
  | none =>
      rw [segments_of_none hsep] at hsegments
      obtain ⟨htoken, hdrop, hlt⟩ := drop_eq_cons hsegments.symm
      have hlast : s.level + 1 = segs.length := by
        have hle := List.drop_eq_nil_iff.mp hdrop
        omega
      rw [if_neg (hwords token (List.mem_of_getElem? htoken))] at hnext
      cases hnext
      refine ⟨⟨hlevel, ?_, ?_, ?_⟩, h.commands, h.children,
        fun i hi => iff_of_false (hunreaped i hi) id, h.pids⟩
      · simp only [htoken, Option.map_some]
      · intro hmore
        exact absurd hlast (Nat.ne_of_lt hmore)
      · exact fun _ => ⟨rfl, htable⟩
  | some rest =>
      rw [segments_of_some hsep] at hsegments
      obtain ⟨htoken, hdrop, hlt⟩ := drop_eq_cons hsegments.symm
      have hmore : s.level + 1 < segs.length := by
        by_contra hge
        rw [List.drop_eq_nil_of_le (Nat.le_of_not_lt hge)] at hdrop
        exact segments_ne_nil rest hdrop.symm
      rw [if_neg (hwords token (List.mem_of_getElem? htoken))] at hnext
      cases hnext
      refine ⟨⟨hlevel, ⟨rest, rfl, hdrop.symm⟩, hpipes, htable,
        ?_, hmore⟩, h.commands, h.children,
        fun i hi => iff_of_false (hunreaped i hi) id, h.pids⟩
      simp only [htoken, Option.map_some]

theorem Sound.pipe {fds : Nat × Nat} (h : Sound base segs s)
    (hnext : s.pipe fds = some next) : Sound base segs next := by
  have hplaced := h.placed
  unfold State.pipe at hnext
  cases hpoint : s.point <;> simp only [hpoint] at hnext
  case pipe =>
    simp only [State.Placed, hpoint] at hplaced
    obtain ⟨hlevel, hrest, hpipes, htable, hargv, hmore⟩ := hplaced
    have hunreaped := h.unreaped (by simp [State.Unwound, hpoint])
    split at hnext
    · rename_i hfds
      cases hnext
      refine ⟨⟨hlevel, hargv, ?_, ?_⟩, h.commands, h.children,
        fun i hi => iff_of_false (hunreaped i hi) id, h.pids⟩
      · intro _
        rw [htable] at hfds
        refine ⟨hrest, ?_, ⟨hfds.1, hfds.2.1, hfds.2.2⟩, ?_⟩
        · simp only [hpipes]
        · simp only [htable, hpipes]
      · intro hlast
        exact absurd hlast (Nat.ne_of_lt hmore)
    · cases hnext
  all_goals cases hnext

/-- What the level that forks has ready is the command of the new child, and
the table it gets. -/
theorem Sound.forked_command (h : Sound base segs s) (hpoint : s.point = .fork)
    {commands : Nat → Command} {pid : Nat}
    (hself : commands s.level = ⟨pid, s.argv, s.infd, s.fds⟩)
    (hsame : ∀ j < s.level, commands j = s.commands j) :
    CommandAt base segs commands s.level ∧
      s.table = forkTable base commands segs.length s.level := by
  have hplaced := h.placed
  simp only [State.Placed, hpoint] at hplaced
  obtain ⟨⟨-, hinfd, -⟩, hargv, hmore, hlast⟩ := hplaced
  have hlt := lt_length_of_argv hargv
  refine ⟨⟨?_, ?_, ?_, ?_⟩, ?_⟩
  · rw [hself]
    exact hargv
  · rw [hself, inputOf_congr hsame]
    exact hinfd
  · rw [hself, reads_congr hsame]
    exact fun hpiped => (hmore hpiped).2.2.1
  · rw [hself]
    exact fun heq => (hlast heq).1
  · rw [forkTable, hself, reads_congr hsame]
    split
    · rename_i hpiped
      exact (hmore hpiped).2.2.2
    · exact (hlast (by omega)).2

/-- The new child has the table and the locals of its level, and a pid that no
other child has. -/
theorem Sound.fork {pid : Nat} (h : Sound base segs s)
    (hnext : s.fork pid = some next) : Sound base segs next := by
  have hplaced := h.placed
  unfold State.fork at hnext
  cases hpoint : s.point <;> simp only [hpoint] at hnext
  case fork =>
    simp only [State.Placed, hpoint] at hplaced
    obtain ⟨⟨hforked, -, hwaited⟩, -, hmore, -⟩ := hplaced
    have hunreaped := h.unreaped (by simp [State.Unwound, hpoint])
    split at hnext
    · rename_i hfresh
      generalize hnew : Function.update s.commands s.level
        ⟨pid, s.argv, s.infd, s.fds⟩ = commands' at hnext
      have hself : commands' s.level = ⟨pid, s.argv, s.infd, s.fds⟩ := by
        rw [← hnew, Function.update_self]
      have hsame : ∀ j < s.level, commands' j = s.commands j := by
        intro j hj
        rw [← hnew, Function.update_of_ne (Nat.ne_of_lt hj)]
      obtain ⟨hcommand, htable⟩ := h.forked_command hpoint hself hsame
      cases hnext
      refine ⟨⟨by rw [hforked], hwaited, htable, ?_, by simp⟩, ?_, ?_, ?_, ?_⟩
      · exact fun hlt => ⟨(hmore hlt).1, (hmore hlt).2.1⟩
      · intro i hi
        rcases Nat.lt_succ_iff_lt_or_eq.mp hi with hold | rfl
        · exact (h.commands i hold).congr fun j hj => hsame j (by omega)
        · exact hforked ▸ hcommand
      · intro i hi
        rcases Nat.lt_succ_iff_lt_or_eq.mp hi with hold | rfl
        · have hi' : i < s.level := hforked ▸ hold
          have hne : i ≠ s.level := Nat.ne_of_lt hi'
          dsimp only
          rw [Function.update_of_ne hne, hsame i hi',
            forkTable_congr fun j hj => hsame j (by omega)]
          exact h.children i hold
        · rw [hforked]
          dsimp only
          rw [Function.update_self]
          exact ⟨htable, by simp, by simp⟩
      · intro i hi
        refine iff_of_false ?_ id
        rcases Nat.lt_succ_iff_lt_or_eq.mp hi with hold | rfl
        · have hne : i ≠ s.level := Nat.ne_of_lt (hforked ▸ hold)
          dsimp only
          rw [Function.update_of_ne hne]
          exact hunreaped i hold
        · rw [hforked]
          dsimp only
          rw [Function.update_self]
          simp
      · intro i hi j hj
        dsimp only
        rcases Nat.lt_succ_iff_lt_or_eq.mp hi with hold | rfl
        · rw [hsame i (hforked ▸ hold), hsame j (by omega)]
          exact h.pids i hold j hj
        · rw [hforked, hself, hsame j (by omega)]
          exact hfresh.2 j hj (hunreaped j hj)
    · cases hnext
  all_goals cases hnext

/-- A change of one child that keeps its place and does not reap it. -/
theorem Sound.setProc_children (h : Sound base segs s) (i : Nat) (proc : Process)
    (hproc : ChildAt (s.commands i) (forkTable base s.commands segs.length i) proc) :
    ∀ j < s.forked, ChildAt (s.commands j) (forkTable base s.commands segs.length j)
      (Function.update s.procs i proc j) := by
  intro j hj
  rcases eq_or_ne j i with rfl | hne
  · rw [Function.update_self]
    exact hproc
  · rw [Function.update_of_ne hne]
    exact h.children j hj

theorem Sound.setProc_reaped (h : Sound base segs s) (i : Nat) (proc : Process)
    (hold : (s.procs i).point ≠ .reaped) (hproc : proc.point ≠ .reaped) :
    ∀ j < s.forked, ((Function.update s.procs i proc j).point = .reaped ↔
      s.Unwound j) := by
  intro j hj
  rcases eq_or_ne j i with rfl | hne
  · rw [Function.update_self]
    exact iff_of_false hproc fun hunwound => hold ((h.reaped j hj).mpr hunwound)
  · rw [Function.update_of_ne hne]
    exact h.reaped j hj

/-- A level has a pipe unless it is the last. -/
theorem CommandAt.piped_iff {commands : Nat → Command} {k : Nat} (hbase : Base base)
    (h : ∀ j ≤ k, CommandAt base segs commands j) :
    1 ≠ (commands k).fds.2 ↔ k + 1 < segs.length := by
  have hk := h k (Nat.le_refl k)
  constructor
  · intro hout
    by_contra hge
    have hlast := hk.last (by have := hk.lt_length; omega)
    exact hout (by rw [hlast])
  · intro hlt
    have hone := reads_standard hbase (fresh_of_commands h) 1 (by omega)
    exact ((hk.piped hlt).ne_of_open hone).2

theorem Sound.setpgid (h : Sound base segs s) (hbase : Base base)
    (hpoint : s.point = .setpgid) : Sound base segs s.setpgid := by
  have hplaced := h.placed
  simp only [State.Placed, hpoint] at hplaced
  obtain ⟨hforked, hwaited, htable, hmore, -⟩ := hplaced
  have hdown : ∀ i, ¬ s.Unwound i := by simp [State.Unwound, hpoint]
  have hlevel : s.level < s.forked := by omega
  have hiff := CommandAt.piped_iff hbase
    (fun j hj => h.commands j (by omega) : ∀ j ≤ s.level, _)
  have hlt := (h.commands s.level hlevel).lt_length
  have hchild := h.children s.level hlevel
  have hunreaped := h.unreaped hdown s.level hlevel
  have hprocs := h.setProc_children s.level { s.procs s.level with pgrp := s.newPgid }
    ⟨hchild.table_eq, hchild.input, hchild.output⟩
  have hreaped := h.setProc_reaped s.level { s.procs s.level with pgrp := s.newPgid }
    hunreaped hunreaped
  unfold State.setpgid
  split
  · by_cases hout : 1 ≠ s.command.fds.2
    · rw [if_pos hout]
      exact ⟨⟨hforked, hwaited, htable, hmore, fun _ => hiff.mp hout⟩, h.commands,
        hprocs, fun i hi => (hreaped i hi).trans (iff_of_false (hdown i) id), h.pids⟩
    · have hlast : s.forked = segs.length := by
        have hge := mt hiff.mpr hout
        omega
      have hreads : s.table = reads base s.commands s.level := by
        rw [htable, forkTable, if_neg (mt hiff.mpr hout)]
      rw [if_neg hout]
      refine ⟨⟨hlast, hlt, hreads, ?_⟩, h.commands, hprocs, ?_, h.pids⟩
      · simp [State.pidsFrom, State.setProc, hforked, hwaited]
      · intro i hi
        refine (hreaped i hi).trans (iff_of_false (hdown i) ?_)
        intro hunwound
        have hgt : s.level < i := hunwound
        have hle : i < s.forked := hi
        omega
  · exact ⟨⟨rfl, rfl⟩, h.commands, h.children,
      fun i hi => (h.reaped i hi).trans (iff_of_false (hdown i) id), h.pids⟩

/-- The close of the write end succeeds and leaves the read end. -/
theorem Sound.close_write_end (h : Sound base segs s) (hpoint : s.point = .closeWrite) :
    s.table.close s.command.fds.2 = some (reads base s.commands (s.level + 1)) := by
  have hplaced := h.placed
  simp only [State.Placed, hpoint] at hplaced
  obtain ⟨hforked, -, htable, -, hpiped⟩ := hplaced
  have hlt := hpiped trivial
  have hfresh := (h.commands s.level (by omega)).piped hlt
  rw [htable, forkTable, if_pos hlt]
  exact withPipe_closeWrite hfresh s.level

/-- The next level takes the read end as its input. -/
theorem Sound.closeWrite (h : Sound base segs s) (hpoint : s.point = .closeWrite) :
    Sound base segs s.closeWrite := by
  have hclose := h.close_write_end hpoint
  have hplaced := h.placed
  simp only [State.Placed, hpoint] at hplaced
  obtain ⟨hforked, hwaited, htable, hmore, hpiped⟩ := hplaced
  have hdown : ∀ i, ¬ s.Unwound i := by simp [State.Unwound, hpoint]
  obtain ⟨hrest, hpipes⟩ := hmore (hpiped trivial)
  unfold State.closeWrite
  rw [hclose]
  exact ⟨⟨⟨hforked, rfl, hwaited⟩, hrest, hpipes, rfl⟩, h.commands, h.children,
    fun i hi => (h.reaped i hi).trans (iff_of_false (hdown i) id), h.pids⟩

theorem Sound.closeRead (h : Sound base segs s) (hpoint : s.point = .closeRead) :
    Sound base segs s.closeRead := by
  have hplaced := h.placed
  simp only [State.Placed, hpoint] at hplaced
  obtain ⟨hforked, hlt, htable, hwaited⟩ := hplaced
  have hfresh := (h.commands s.level (by omega)).piped hlt
  have hclose : s.table.close s.command.fds.1 = some (reads base s.commands s.level) := by
    rw [htable]
    exact update_close hfresh.read_free _
  have hreaped := h.reaped
  simp only [State.Unwound, hpoint] at hreaped
  unfold State.closeRead
  rw [hclose]
  exact ⟨⟨hforked, Nat.lt_of_succ_lt hlt, rfl, hwaited⟩, h.commands, h.children,
    hreaped, h.pids⟩

theorem State.pidsFrom_of_lt {k : Nat} (hk : k < s.forked) :
    s.pidsFrom k = s.pidsFrom (k + 1) ++ [(s.commands k).pid] := by
  have hlt : k < (List.range s.forked).length := by rwa [List.length_range]
  rw [State.pidsFrom, State.pidsFrom, List.drop_eq_getElem_cons hlt, List.map_cons,
    List.reverse_cons, List.getElem_range]

/-- The level's child is waited for, and was not before. -/
theorem Sound.wait (h : Sound base segs s) (hpoint : s.point = .wait)
    (hnext : s.wait = some next) : Sound base segs next := by
  have hplaced := h.placed
  simp only [State.Placed, hpoint] at hplaced
  obtain ⟨hforked, hlt, htable, hwaited⟩ := hplaced
  have hlevel : s.level < s.forked := by omega
  have hreaped := h.reaped
  simp only [State.Unwound, hpoint] at hreaped
  unfold State.wait at hnext
  split at hnext
  · rename_i hzombie
    have hchild := h.children s.level hlevel
    have hprocs := h.setProc_children s.level { s.procs s.level with point := .reaped }
      ⟨by rw [hchild.table_eq, hzombie]; rfl, by simp, by simp⟩
    have hnow : ∀ i < s.forked, ((Function.update s.procs s.level
        { s.procs s.level with point := .reaped } i).point = .reaped ↔ s.level ≤ i) := by
      intro i hi
      rcases eq_or_ne i s.level with rfl | hne
      · rw [Function.update_self]
        exact iff_of_true rfl (Nat.le_refl _)
      · rw [Function.update_of_ne hne, hreaped i hi]
        omega
    have hpids : s.waited ++ [s.command.pid] = s.pidsFrom s.level := by
      rw [hwaited, State.pidsFrom_of_lt hlevel, State.command]
    cases hnext
    unfold State.ret
    split
    · rename_i hzero
      have hzero : s.level = 0 := hzero
      have hbase : s.table = base := by rw [htable, hzero, reads]
      have hall : s.waited ++ [s.command.pid] = s.pidsFrom 0 := by rw [hpids, hzero]
      exact ⟨⟨hforked, hbase, hall⟩, h.commands, hprocs,
        fun i hi => (hnow i hi).trans (iff_of_true (by omega) trivial), h.pids⟩
    · rename_i k hk
      have hk : s.level = k + 1 := hk
      have hlt : k + 1 < segs.length := hk ▸ hlt
      have hle : ∀ i, s.level ≤ i ↔ k < i := by omega
      rw [hk] at htable
      have hpids : s.waited ++ [s.command.pid] = s.pidsFrom (k + 1) := by
        rw [hpids, hk]
      exact ⟨⟨hforked, hlt, htable, hpids⟩, h.commands, hprocs,
        fun i hi => (hnow i hi).trans (hle i), h.pids⟩
  · rename_i hgone
    exact absurd ((hreaped s.level hlevel).mp hgone) (Nat.lt_irrefl _)
  · cases hnext

/-- A step of a child concerns its own table only. -/
theorem Sound.child {i : Nat} (act : Process → Option Process)
    (h : Sound base segs s)
    (hact : ∀ proc, act (s.procs i) = some proc →
      ChildAt (s.commands i) (forkTable base s.commands segs.length i) (s.procs i) →
        ChildAt (s.commands i) (forkTable base s.commands segs.length i) proc)
    (hkept : ∀ proc, act (s.procs i) = some proc → (s.procs i).Kept proc)
    (hnext : s.child i act = some next) : Sound base segs next := by
  unfold State.child at hnext
  split at hnext
  · rename_i hi
    obtain ⟨proc, hproc, rfl⟩ := Option.map_eq_some_iff.mp hnext
    obtain ⟨hold, hnew, -⟩ := hkept proc hproc
    exact ⟨h.placed, h.commands,
      h.setProc_children i proc (hact proc hproc (h.children i hi)),
      h.setProc_reaped i proc hold hnew, h.pids⟩
  · cases hnext

/-- Every event keeps it, where all segments have words. -/
theorem Sound.step {event : Event} (h : Sound base segs s) (hbase : Base base)
    (hwords : ∀ token ∈ segs, argvOf token ≠ [])
    (hnext : Pipeline.step s event = some next) : Sound base segs next := by
  cases event with
  | advance =>
      simp only [Pipeline.step, State.advance] at hnext
      cases hpoint : s.point <;> simp only [hpoint] at hnext
      case enter => exact h.enter hwords hpoint hnext
      case setpgid =>
        cases hnext
        exact h.setpgid hbase hpoint
      case closeWrite =>
        cases hnext
        exact h.closeWrite hpoint
      case closeRead =>
        cases hnext
        exact h.closeRead hpoint
      case wait => exact h.wait hpoint hnext
      all_goals cases hnext
  | pipe fds => exact h.pipe hnext
  | fork pid => exact h.fork hnext
  | child i =>
      exact Sound.child (fun proc => proc.advance (s.commands i)) h
        (fun _ hproc hat => hat.advance hproc)
        (fun _ hproc => Process.advance_kept hproc) hnext
  | childEnds i =>
      exact Sound.child Process.ends h (fun _ hproc _ => ChildAt.ends hproc)
        (fun _ hproc => Process.ends_kept hproc) hnext

/-- Every state of the run of a line whose segments have words. -/
theorem sound_of_reaches {setup : Setup} {line : List Char}
    (hwords : ∀ token ∈ segments line, argvOf token ≠ [])
    (h : Reaches Pipeline.step (Pipeline.start setup line) s) :
    Sound setup.table (segments line) s :=
  h.invariant (fun _ _ _ hsound hnext => hsound.step setup.base hwords hnext)
    (Sound.start setup line)

theorem Sound.forked_le (h : Sound base segs s) : s.forked ≤ segs.length := by
  by_contra hgt
  have hlt := (h.commands segs.length (Nat.lt_of_not_le hgt)).lt_length
  exact Nat.lt_irrefl _ hlt

theorem Sound.pids_nodup (h : Sound base segs s) : (s.pidsFrom 0).Nodup := by
  rw [State.pidsFrom, List.drop_zero, List.nodup_reverse]
  refine List.Nodup.map_on ?_ List.nodup_range
  intro i hi j hj heq
  rw [List.mem_range] at hi hj
  rcases Nat.lt_trichotomy i j with hlt | rfl | hgt
  · exact absurd heq (h.pids j hj i hlt)
  · rfl
  · exact absurd heq.symm (h.pids i hi j hgt)

end CsPrimer.ShellPipes.Pipeline
