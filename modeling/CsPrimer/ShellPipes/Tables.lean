import CsPrimer.ShellPipes.Pipeline

/-!
The descriptor tables of a pipeline. At level `k` the shell has what it
started with and the read ends of the pipes before, whatever the children did,
and the table a child starts with is that of its level. What a child executes
its program with follows from its table and locals alone.
-/

namespace CsPrimer.ShellPipes.Pipeline

open Foundation

/-- The shell's table at a level: nothing closes the read ends before the
recursion returns. -/
def reads (base : Table) (commands : Nat → Command) : Nat → Table
  | 0 => base
  | k + 1 =>
      Function.update (reads base commands k) (commands k).fds.1 (some (.readEnd k))

def inputOf (commands : Nat → Command) : Nat → Nat
  | 0 => 0
  | k + 1 => (commands k).fds.1

structure Fresh (table : Table) (fds : Nat × Nat) : Prop where
  read_free : table fds.1 = none
  write_free : table fds.2 = none
  distinct : fds.1 ≠ fds.2

structure Base (base : Table) : Prop where
  standard : ∀ fd ≤ 2, base fd ≠ none
  before : ∀ fd file, base fd = some file → ∃ id, file = .shell id

theorem Setup.base (setup : Setup) : Base setup.table :=
  ⟨setup.standard, setup.before⟩

variable {base table : Table} {commands commands' : Nat → Command} {k j fd : Nat}
  {file : File} {fds : Nat × Nat}

theorem reads_congr (h : ∀ j < k, commands' j = commands j) :
    reads base commands' k = reads base commands k := by
  induction k with
  | zero => rfl
  | succ k ih =>
      rw [reads, reads, h k (Nat.lt_succ_self k),
        ih fun j hj => h j (Nat.lt_succ_of_lt hj)]

theorem inputOf_congr (h : ∀ j < k, commands' j = commands j) :
    inputOf commands' k = inputOf commands k := by
  cases k with
  | zero => rfl
  | succ k => rw [inputOf, inputOf, h k (Nat.lt_succ_self k)]

/-- What the shell had stays as it was. -/
theorem reads_of_base (hfresh : ∀ j < k, Fresh (reads base commands j) (commands j).fds)
    (hfd : base fd ≠ none) : reads base commands k fd = base fd := by
  induction k with
  | zero => rfl
  | succ k ih =>
      have hold := ih fun j hj => hfresh j (Nat.lt_succ_of_lt hj)
      have hfree := (hfresh k (Nat.lt_succ_self k)).read_free
      have hne : fd ≠ (commands k).fds.1 := by
        rintro rfl
        exact hfd (hold.symm.trans hfree)
      rw [reads, Function.update_of_ne hne, hold]

/-- Every read end stays open. -/
theorem reads_end (hfresh : ∀ j < k, Fresh (reads base commands j) (commands j).fds)
    (hj : j < k) : reads base commands k (commands j).fds.1 = some (.readEnd j) := by
  induction k with
  | zero => exact absurd hj (Nat.not_lt_zero j)
  | succ k ih =>
      rcases Nat.lt_succ_iff_lt_or_eq.mp hj with hlt | rfl
      · have hold := ih (fun i hi => hfresh i (Nat.lt_succ_of_lt hi)) hlt
        have hfree := (hfresh k (Nat.lt_succ_self k)).read_free
        have hne : (commands j).fds.1 ≠ (commands k).fds.1 := by
          intro heq
          rw [heq, hfree] at hold
          cases hold
        rw [reads, Function.update_of_ne hne, hold]
      · rw [reads, Function.update_self]

theorem reads_cases (h : reads base commands k fd = some file) :
    base fd = some file ∨ ∃ j < k, fd = (commands j).fds.1 ∧ file = .readEnd j := by
  induction k with
  | zero => exact .inl h
  | succ k ih =>
      rw [reads] at h
      rcases eq_or_ne fd (commands k).fds.1 with rfl | hne
      · rw [Function.update_self] at h
        cases h
        exact .inr ⟨k, Nat.lt_succ_self k, rfl, rfl⟩
      · rw [Function.update_of_ne hne] at h
        rcases ih h with hbase | ⟨j, hj, hfd⟩
        · exact .inl hbase
        · exact .inr ⟨j, Nat.lt_succ_of_lt hj, hfd⟩

/-- `infd` is open at its level, on standard input or the pipe before. -/
theorem reads_input
    (hfresh : ∀ j < k, Fresh (reads base commands j) (commands j).fds) :
    reads base commands k (inputOf commands k) =
      if k = 0 then base 0 else some (.readEnd (k - 1)) := by
  cases k with
  | zero => rfl
  | succ k =>
      rw [inputOf, reads_end hfresh (Nat.lt_succ_self k), if_neg (Nat.succ_ne_zero k),
        Nat.add_sub_cancel]

theorem withPipe_read (hfds : fds.1 ≠ fds.2) (pipe : Nat) :
    withPipe table fds pipe fds.1 = some (.readEnd pipe) := by
  rw [withPipe, Function.update_of_ne hfds, Function.update_self]

theorem withPipe_write (pipe : Nat) :
    withPipe table fds pipe fds.2 = some (.writeEnd pipe) := by
  rw [withPipe, Function.update_self]

theorem withPipe_of_ne (h : fd ≠ fds.1) (h' : fd ≠ fds.2) (pipe : Nat) :
    withPipe table fds pipe fd = table fd := by
  rw [withPipe, Function.update_of_ne h', Function.update_of_ne h]

/-- The parent's close of the write end leaves the read end. -/
theorem withPipe_closeWrite (hfresh : Fresh table fds) (pipe : Nat) :
    (withPipe table fds pipe).close fds.2 =
      some (Function.update table fds.1 (some (.readEnd pipe))) := by
  rw [FileTable.close_of_open (withPipe_write pipe)]
  congr 1
  funext fd
  rcases eq_or_ne fd fds.2 with rfl | hne
  · rw [Function.update_self, Function.update_of_ne hfresh.distinct.symm,
      hfresh.write_free]
  · rw [Function.update_of_ne hne, withPipe, Function.update_of_ne hne]

theorem update_close (hfree : table fd = none) (file : File) :
    FileTable.close (Function.update table fd (some file)) fd = some table := by
  rw [FileTable.close_of_open (Function.update_self ..)]
  congr 1
  rw [Function.update_idem, ← hfree, Function.update_eq_self]

/-- A child's table behind its first two calls. -/
def afterIn (command : Command) (table : Table) : Table :=
  if 0 ≠ command.infd then
    Function.update (Function.update table 0 (table command.infd)) command.infd none
  else table

def afterDup (command : Command) (table : Table) : Table :=
  Function.update table 1 (table command.fds.2)

def afterOut (command : Command) (table : Table) : Table :=
  if 1 ≠ command.fds.2 then
    Function.update (Function.update (afterDup command table) command.fds.1 none)
      command.fds.2 none
  else table

def childTable (command : Command) (table : Table) : ChildPoint → Table
  | .dupIn => table
  | .closeIn => Function.update table 0 (table command.infd)
  | .dupOut => afterIn command table
  | .closeRead => afterDup command (afterIn command table)
  | .closeWrite =>
      Function.update (afterDup command (afterIn command table)) command.fds.1 none
  | .exec | .running => afterOut command (afterIn command table)
  | .zombie | .reaped => fun _ => none

/-- A child that started with `table` has done what its point says. -/
structure ChildAt (command : Command) (table : Table) (proc : Process) : Prop where
  table_eq : proc.table = childTable command table proc.point
  input : proc.point = .closeIn → 0 ≠ command.infd
  output : proc.point = .closeRead ∨ proc.point = .closeWrite → 1 ≠ command.fds.2

variable {command : Command} {proc next : Process}

theorem ChildAt.exit : ChildAt command table proc.exit :=
  ⟨rfl, by simp [Process.exit], by simp [Process.exit]⟩

theorem ChildAt.call {result : Option Table} {point : ChildPoint}
    (htable : ∀ after, result = some after → after = childTable command table point)
    (hinput : point = .closeIn → 0 ≠ command.infd)
    (houtput : point = .closeRead ∨ point = .closeWrite → 1 ≠ command.fds.2) :
    ChildAt command table (proc.call result point) := by
  cases result with
  | none => exact ChildAt.exit
  | some after => exact ⟨htable after rfl, hinput, houtput⟩

/-- Each statement of a child, or its exit where a call fails. -/
theorem ChildAt.advance (h : ChildAt command table proc)
    (hnext : proc.advance command = some next) : ChildAt command table next := by
  obtain ⟨htable, hinput, houtput⟩ := h
  unfold Process.advance at hnext
  cases hpoint : proc.point <;> simp only [hpoint] at hnext hinput houtput htable
  case dupIn =>
    split at hnext <;> rename_i hinfd <;> cases hnext
    · apply ChildAt.call _ (fun _ => hinfd) (by simp)
      intro after hafter
      rw [FileTable.dup2_eq hafter, htable]
      rfl
    · refine ⟨?_, by simp, by simp⟩
      exact htable.trans (if_neg hinfd).symm
  case closeIn =>
    have hinfd := hinput trivial
    cases hnext
    apply ChildAt.call _ (by simp) (by simp)
    intro after hafter
    rw [FileTable.close_eq hafter, htable]
    exact (if_pos hinfd).symm
  case dupOut =>
    split at hnext <;> rename_i hout <;> cases hnext
    · apply ChildAt.call _ (by simp) (fun _ => hout)
      intro after hafter
      rw [FileTable.dup2_eq hafter, htable]
      rfl
    · refine ⟨?_, by simp, by simp⟩
      exact htable.trans (if_neg hout).symm
  case closeRead =>
    have hout := houtput (.inl trivial)
    cases hnext
    apply ChildAt.call _ (by simp) (fun _ => hout)
    intro after hafter
    rw [FileTable.close_eq hafter, htable]
    rfl
  case closeWrite =>
    have hout := houtput (.inr trivial)
    cases hnext
    apply ChildAt.call _ (by simp) (by simp)
    intro after hafter
    rw [FileTable.close_eq hafter, htable]
    exact (if_pos hout).symm
  case exec =>
    cases hnext
    exact ⟨htable, by simp, by simp⟩
  all_goals cases hnext

theorem ChildAt.ends (hnext : proc.ends = some next) :
    ChildAt command table next := by
  unfold Process.ends at hnext
  split at hnext <;> cases hnext
  exact ChildAt.exit

/-- What a child holds it has from the shell. -/
theorem ChildAt.holds (h : ChildAt command table proc)
    (hfile : proc.table.Holds file) : table.Holds file := by
  have hin : (afterIn command table).Holds file → table.Holds file := by
    intro h
    unfold afterIn at h
    split at h
    · exact FileTable.holds_of_update_copy (FileTable.holds_of_update_none h)
    · exact h
  have hdup : (afterDup command (afterIn command table)).Holds file →
      table.Holds file := fun h => hin (FileTable.holds_of_update_copy h)
  rw [h.table_eq] at hfile
  unfold childTable at hfile
  cases hpoint : proc.point <;> simp only [hpoint] at hfile
  case dupIn => exact hfile
  case closeIn => exact FileTable.holds_of_update_copy hfile
  case dupOut => exact hin hfile
  case closeRead => exact hdup hfile
  case closeWrite => exact hdup (FileTable.holds_of_update_none hfile)
  case exec | running =>
    unfold afterOut at hfile
    split at hfile
    · exact hdup
        (FileTable.holds_of_update_none (FileTable.holds_of_update_none hfile))
    · exact hin hfile
  case zombie | reaped => exact absurd hfile FileTable.not_holds_empty

/-- The child is about to execute its program, or has. -/
def Process.AtExec (proc : Process) : Prop :=
  proc.point = .exec ∨ proc.point = .running

theorem ChildAt.at_exec (h : ChildAt command table proc) (hexec : proc.AtExec) :
    proc.table = afterOut command (afterIn command table) := by
  rw [h.table_eq]
  rcases hexec with hpoint | hpoint <;> rw [hpoint] <;> rfl

theorem afterIn_of_ne (hzero : fd ≠ 0) (hinfd : fd ≠ command.infd) :
    afterIn command table fd = table fd := by
  unfold afterIn
  split
  · rw [Function.update_of_ne hinfd, Function.update_of_ne hzero]
  · rfl

theorem afterOut_of_ne (hone : fd ≠ 1)
    (hfds : 1 ≠ command.fds.2 → fd ≠ command.fds.1 ∧ fd ≠ command.fds.2) :
    afterOut command table fd = table fd := by
  unfold afterOut
  split
  · rename_i hout
    obtain ⟨hread, hwrite⟩ := hfds hout
    rw [Function.update_of_ne hwrite, Function.update_of_ne hread, afterDup,
      Function.update_of_ne hone]
  · rfl

theorem Fresh.ne_of_open (h : Fresh table fds) (hfd : table fd ≠ none) :
    fd ≠ fds.1 ∧ fd ≠ fds.2 :=
  ⟨fun heq => hfd (heq ▸ h.read_free), fun heq => hfd (heq ▸ h.write_free)⟩

/-- The command of a level of the line: the words of its segment, the read end
of the pipe before, and a pipe of its own unless it is the last. -/
structure CommandAt (base : Table) (segs : List (List Char))
    (commands : Nat → Command) (k : Nat) : Prop where
  argv : segs[k]?.map argvOf = some (commands k).argv
  infd : (commands k).infd = inputOf commands k
  piped : k + 1 < segs.length → Fresh (reads base commands k) (commands k).fds
  last : k + 1 = segs.length → (commands k).fds = (0, 1)

theorem CommandAt.congr {segs : List (List Char)} (h : CommandAt base segs commands k)
    (hsame : ∀ j ≤ k, commands' j = commands j) : CommandAt base segs commands' k := by
  have hbefore : ∀ j < k, commands' j = commands j :=
    fun j hj => hsame j (Nat.le_of_lt hj)
  have hself := hsame k (Nat.le_refl k)
  refine ⟨?_, ?_, ?_, ?_⟩
  · rw [hself]
    exact h.argv
  · rw [hself, inputOf_congr hbefore]
    exact h.infd
  · rw [hself, reads_congr hbefore]
    exact h.piped
  · rw [hself]
    exact h.last

def forkTable (base : Table) (commands : Nat → Command) (count k : Nat) : Table :=
  if k + 1 < count then withPipe (reads base commands k) (commands k).fds k
  else reads base commands k

theorem forkTable_congr {count : Nat} (hsame : ∀ j ≤ k, commands' j = commands j) :
    forkTable base commands' count k = forkTable base commands count k := by
  rw [forkTable, forkTable, hsame k (Nat.le_refl k),
    reads_congr fun j hj => hsame j (Nat.le_of_lt hj)]

section
variable {segs : List (List Char)}

theorem lt_length_of_argv {argv : List (List Char)}
    (h : segs[k]?.map argvOf = some argv) : k < segs.length := by
  by_contra hge
  rw [List.getElem?_eq_none (Nat.le_of_not_lt hge)] at h
  cases h

theorem CommandAt.lt_length (h : CommandAt base segs commands k) : k < segs.length :=
  lt_length_of_argv h.argv

theorem fresh_of_commands (h : ∀ j ≤ k, CommandAt base segs commands j) :
    ∀ j < k, Fresh (reads base commands j) (commands j).fds := by
  intro j hj
  have hk := (h k (Nat.le_refl k)).lt_length
  exact (h j (Nat.le_of_lt hj)).piped (by omega)

theorem reads_standard (hbase : Base base)
    (h : ∀ j < k, Fresh (reads base commands j) (commands j).fds) (fd : Nat)
    (hfd : fd ≤ 2) :
    reads base commands k fd ≠ none := by
  rw [reads_of_base h (hbase.standard fd hfd)]
  exact hbase.standard fd hfd

theorem reads_input_ne (hbase : Base base)
    (h : ∀ j < k, Fresh (reads base commands j) (commands j).fds) :
    reads base commands k (inputOf commands k) ≠ none := by
  rw [reads_input h]
  split
  · exact hbase.standard 0 (by omega)
  · simp

/-- The pipe of a level is on no descriptor that is in use there. -/
theorem forkTable_of_open (h : ∀ j ≤ k, CommandAt base segs commands j)
    (hfd : reads base commands k fd ≠ none) :
    forkTable base commands segs.length k fd = reads base commands k fd := by
  unfold forkTable
  split
  · rename_i hk
    obtain ⟨hread, hwrite⟩ := ((h k (Nat.le_refl k)).piped hk).ne_of_open hfd
    exact withPipe_of_ne hread hwrite k
  · rfl

/-- The ends of a level's pipe differ from what the child uses otherwise. -/
theorem CommandAt.pipe_ne
    (h : ∀ j ≤ k, CommandAt base segs commands j)
    (hout : 1 ≠ (commands k).fds.2) (hopen : reads base commands k fd ≠ none) :
    fd ≠ (commands k).fds.1 ∧ fd ≠ (commands k).fds.2 := by
  have hk := h k (Nat.le_refl k)
  have hlt : k + 1 < segs.length := by
    by_contra hge
    have hlast := hk.last (by have := hk.lt_length; omega)
    exact hout (by rw [hlast])
  exact (hk.piped hlt).ne_of_open hopen

/-- The descriptors that the calls of a child take are open when it starts,
and apart from each other and from the standard ones. -/
structure Usable (command : Command) (table : Table) : Prop where
  input : table command.infd ≠ none
  output : 1 ≠ command.fds.2 →
    table command.fds.1 ≠ none ∧ table command.fds.2 ≠ none ∧
      command.fds.1 ≠ command.fds.2 ∧
      (command.fds.1 ≠ 0 ∧ command.fds.1 ≠ 1 ∧ command.fds.1 ≠ command.infd) ∧
      (command.fds.2 ≠ 0 ∧ command.fds.2 ≠ command.infd)

theorem usable_of_commands (hbase : Base base)
    (h : ∀ j ≤ k, CommandAt base segs commands j) :
    Usable (commands k) (forkTable base commands segs.length k) := by
  have hfresh := fresh_of_commands h
  have hk := h k (Nat.le_refl k)
  have hinput := reads_input_ne hbase hfresh
  refine ⟨?_, ?_⟩
  · rw [hk.infd, forkTable_of_open h hinput]
    exact hinput
  · intro hout
    have hzero := CommandAt.pipe_ne h hout (reads_standard hbase hfresh 0 (by omega))
    have hone := CommandAt.pipe_ne h hout (reads_standard hbase hfresh 1 (by omega))
    have hinfd := CommandAt.pipe_ne h hout hinput
    rw [← hk.infd] at hinfd
    have hlt : k + 1 < segs.length := by
      by_contra hge
      have hlast := hk.last (by have := hk.lt_length; omega)
      exact hout (by rw [hlast])
    have hdistinct := (hk.piped hlt).distinct
    refine ⟨?_, ?_, hdistinct, ⟨hzero.1.symm, hone.1.symm, hinfd.1.symm⟩,
      hzero.2.symm, hinfd.2.symm⟩
    · rw [forkTable, if_pos hlt, withPipe_read hdistinct]
      exact Option.some_ne_none _
    · rw [forkTable, if_pos hlt, withPipe_write]
      exact Option.some_ne_none _

theorem Process.call_ne_zombie {result : Option Table} {point : ChildPoint}
    (hresult : result ≠ none) (hpoint : point ≠ .zombie) :
    (proc.call result point).point ≠ .zombie := by
  obtain ⟨after, rfl⟩ := Option.ne_none_iff_exists'.mp hresult
  exact hpoint

/-- No call of a child fails for a descriptor that is not open. -/
theorem ChildAt.succeeds (h : ChildAt command table proc) (husable : Usable command table)
    (hnext : proc.advance command = some next) : next.point ≠ .zombie := by
  obtain ⟨htable, hinput, houtput⟩ := h
  unfold Process.advance at hnext
  cases hpoint : proc.point <;> simp only [hpoint] at hnext hinput houtput htable
  case dupIn =>
    split at hnext <;> cases hnext
    · apply Process.call_ne_zombie _ (by simp)
      apply FileTable.dup2_ne_none
      rw [htable]
      exact husable.input
    · simp
  case closeIn =>
    have hinfd := hinput trivial
    cases hnext
    apply Process.call_ne_zombie _ (by simp)
    apply FileTable.close_ne_none
    rw [htable, childTable, Function.update_of_ne hinfd.symm]
    exact husable.input
  case dupOut =>
    split at hnext <;> rename_i hout <;> cases hnext
    · obtain ⟨_, hwrite, _, _, hzero, hinfd⟩ := husable.output hout
      apply Process.call_ne_zombie _ (by simp)
      apply FileTable.dup2_ne_none
      rw [htable, childTable, afterIn_of_ne hzero hinfd]
      exact hwrite
    · simp
  case closeRead =>
    obtain ⟨hread, _, _, ⟨hzero, hone, hinfd⟩, _⟩ :=
      husable.output (houtput (.inl trivial))
    cases hnext
    apply Process.call_ne_zombie _ (by simp)
    apply FileTable.close_ne_none
    rw [htable, childTable, afterDup, Function.update_of_ne hone,
      afterIn_of_ne hzero hinfd]
    exact hread
  case closeWrite =>
    have hout := houtput (.inr trivial)
    obtain ⟨_, hwrite, hdistinct, _, hzero, hinfd⟩ := husable.output hout
    cases hnext
    apply Process.call_ne_zombie _ (by simp)
    apply FileTable.close_ne_none
    rw [htable, childTable, Function.update_of_ne hdistinct.symm, afterDup,
      Function.update_of_ne hout.symm, afterIn_of_ne hzero hinfd]
    exact hwrite
  case exec =>
    cases hnext
    simp
  all_goals cases hnext

end

end CsPrimer.ShellPipes.Pipeline
