import CsPrimer.Foundation.EventRun
import CsPrimer.Foundation.FileTable
import CsPrimer.ShellPipes.Segments

/-!
`run` of the pipe shell with its children, for one line. The shell, at some
level of the recursion, and every child it has forked take their steps in any
order, each with a descriptor table of its own. A child starts with a copy of
the shell's table, and of the locals of the level that forks it, which do not
change afterwards. `pipe` and `fork` succeed and return what they like within
their guarantees, and a segment fits in `argv`; `setpgid` fails as POSIX says.
-/

namespace CsPrimer.ShellPipes.Pipeline

open Foundation

/-- What a descriptor is open on: a file that the shell had before, or an end
of a pipe of the line, by the number of the pipe. -/
inductive File where
  | shell (id : Nat)
  | readEnd (pipe : Nat)
  | writeEnd (pipe : Nat)
  deriving DecidableEq, Repr

abbrev Table := FileTable File

structure Command where
  pid : Nat
  argv : List (List Char)
  infd : Nat
  fds : Nat × Nat
  deriving DecidableEq, Repr

/-- What a child does next: the calls of `case 0`, the program, or nothing. -/
inductive ChildPoint where
  | dupIn
  | closeIn
  | dupOut
  | closeRead
  | closeWrite
  | exec
  | running
  | zombie
  | reaped
  deriving DecidableEq, Repr

structure Process where
  point : ChildPoint
  table : Table
  pgrp : Nat
  execed : Bool

/-- What the shell does next at its level; `returned` is the end of the first
call of `run`, and `exited` that of the shell. -/
inductive Point where
  | enter
  | pipe
  | fork
  | setpgid
  | closeWrite
  | closeRead
  | wait
  | returned
  | exited (status : Nat)
  deriving DecidableEq, Repr

/-- The shell at some level with `prompt`, `infd`, `argv` and `fds` there, the
commands and children by level, and the pids that were waited for. -/
structure State where
  point : Point
  level : Nat
  prompt : Option (List Char)
  infd : Nat
  argv : List (List Char)
  fds : Nat × Nat
  table : Table
  pipes : Nat
  pgid : Nat
  group : Nat
  others : Nat → Bool
  forked : Nat
  commands : Nat → Command
  procs : Nat → Process
  waited : List Nat

/-- The shell at the prompt. The standard descriptors are open and finitely
many others; `others` are the process groups of its session. -/
structure Setup where
  table : Table
  standard : ∀ fd ≤ 2, table fd ≠ none
  before : ∀ fd file, table fd = some file → ∃ id, file = .shell id
  bound : Nat
  closed : ∀ fd, bound ≤ fd → table fd = none
  pgid : Nat
  group : Nat
  others : Nat → Bool

/-- The shell at its first prompt, with the standard descriptors only. -/
def terminal : Setup where
  table := fun fd => if fd ≤ 2 then some (.shell fd) else none
  standard := by
    intro fd hfd
    rw [if_pos hfd]
    exact Option.some_ne_none _
  before := by
    intro fd file h
    split at h
    · exact ⟨fd, (Option.some.inj h).symm⟩
    · cases h
  bound := 3
  closed := fun fd hfd => if_neg (by omega)
  pgid := 0
  group := 1
  others := fun _ => false

def start (setup : Setup) (line : List Char) : State where
  point := .enter
  level := 0
  prompt := some line
  infd := 0
  argv := []
  fds := (0, 1)
  table := setup.table
  pipes := 0
  pgid := setup.pgid
  group := setup.group
  others := setup.others
  forked := 0
  commands := fun _ => ⟨0, [], 0, (0, 1)⟩
  procs := fun _ => ⟨.reaped, fun _ => none, 0, false⟩
  waited := []

def State.error (s : State) (status : Nat) : State :=
  { s with point := .exited status, table := fun _ => none }

/-- Back to the caller, which goes on behind the nested `run`. -/
def State.ret (s : State) : State :=
  match s.level with
  | 0 => { s with point := .returned }
  | level + 1 => { s with point := .closeRead, level := level }

/-- Tokenising, up to the first system call. -/
def State.enter (s : State) : Option State :=
  match s.prompt with
  | none => none
  | some prompt =>
      let argv := strtok sep [] (strsep pipeChar prompt).1
      if argv = [] then some s.ret
      else
        match (strsep pipeChar prompt).2 with
        | none =>
            some { s with point := .fork, prompt := none, argv := argv, fds := (0, 1) }
        | some rest =>
            some { s with
              point := .pipe, prompt := some rest, argv := argv, fds := (0, 1) }

def withPipe (table : Table) (fds : Nat × Nat) (pipe : Nat) : Table :=
  Function.update (Function.update table fds.1 (some (.readEnd pipe))) fds.2
    (some (.writeEnd pipe))

/-- `pipe` takes two descriptors that are not open. -/
def State.pipe (s : State) (fds : Nat × Nat) : Option State :=
  match s.point with
  | .pipe =>
      if s.table fds.1 = none ∧ s.table fds.2 = none ∧ fds.1 ≠ fds.2 then
        some { s with
          point := .fork
          fds := fds
          table := withPipe s.table fds s.pipes
          pipes := s.pipes + 1 }
      else none
  | _ => none

/-- A pid that no child has which has not been waited for. -/
def State.FreshPid (s : State) (pid : Nat) : Prop :=
  0 < pid ∧ ∀ i < s.forked, (s.procs i).point ≠ .reaped → (s.commands i).pid ≠ pid

instance (s : State) (pid : Nat) : Decidable (s.FreshPid pid) :=
  inferInstanceAs (Decidable (_ ∧ _))

def State.fork (s : State) (pid : Nat) : Option State :=
  match s.point with
  | .fork =>
      if s.FreshPid pid then
        some { s with
          point := .setpgid
          forked := s.forked + 1
          commands := Function.update s.commands s.level ⟨pid, s.argv, s.infd, s.fds⟩
          procs := Function.update s.procs s.level ⟨.dupIn, s.table, s.group, false⟩ }
      else none
  | _ => none

def State.command (s : State) : Command := s.commands s.level

/-- Some process of the session is in the group. -/
def State.GroupExists (s : State) (group : Nat) : Prop :=
  s.others group = true ∨ group = s.group ∨
    ∃ i < s.forked, (s.procs i).point ≠ .reaped ∧ (s.procs i).pgrp = group

instance (s : State) (group : Nat) : Decidable (s.GroupExists group) :=
  inferInstanceAs (Decidable (_ ∨ _ ∨ _))

/-- `setpgid` for the child of the level: EACCES once it has executed its
program, EPERM for a group that is neither its own nor there. -/
def State.CanSetpgid (s : State) (pgid : Nat) : Prop :=
  (s.procs s.level).execed = false ∧ (pgid = s.command.pid ∨ s.GroupExists pgid)

instance (s : State) (pgid : Nat) : Decidable (s.CanSetpgid pgid) :=
  inferInstanceAs (Decidable (_ ∧ _))

def State.setProc (s : State) (i : Nat) (proc : Process) : State :=
  { s with procs := Function.update s.procs i proc }

def State.newPgid (s : State) : Nat :=
  if 0 = s.pgid then s.command.pid else s.pgid

def State.setpgid (s : State) : State :=
  if s.CanSetpgid s.newPgid then
    { s.setProc s.level { s.procs s.level with pgrp := s.newPgid } with
      pgid := s.newPgid
      point := if 1 ≠ s.command.fds.2 then .closeWrite else .wait }
  else { s.error 11 with pgid := s.newPgid }

/-- The parent's copy of the write end, and the call for the rest. -/
def State.closeWrite (s : State) : State :=
  match s.table.close s.command.fds.2 with
  | none => s.error 12
  | some table =>
      { s with
        point := .enter, level := s.level + 1, infd := s.command.fds.1, table := table }

def State.closeRead (s : State) : State :=
  match s.table.close s.command.fds.1 with
  | none => s.error 13
  | some table => { s with point := .wait, table := table }

/-- `waitpid` waits for the child of the level to end. If it was waited for
before the call fails, which is not looked at. -/
def State.wait (s : State) : Option State :=
  match (s.procs s.level).point with
  | .zombie =>
      some { s.setProc s.level { s.procs s.level with point := .reaped } with
        waited := s.waited ++ [s.command.pid] }.ret
  | .reaped => some s.ret
  | _ => none

def State.advance (s : State) : Option State :=
  match s.point with
  | .enter => s.enter
  | .setpgid => some s.setpgid
  | .closeWrite => some s.closeWrite
  | .closeRead => some s.closeRead
  | .wait => s.wait
  | .pipe | .fork | .returned | .exited _ => none

/-- The end of a child closes its descriptors. -/
def Process.exit (proc : Process) : Process :=
  { proc with point := .zombie, table := fun _ => none }

/-- A call of a child on its table. If it fails the child exits. -/
def Process.call (proc : Process) (result : Option Table) (point : ChildPoint) :
    Process :=
  match result with
  | none => proc.exit
  | some table => { proc with point := point, table := table }

/-- The next statement of a child, with the locals it has from the shell. -/
def Process.advance (proc : Process) (command : Command) : Option Process :=
  match proc.point with
  | .dupIn =>
      if 0 ≠ command.infd then
        some (proc.call (proc.table.dup2 command.infd 0) .closeIn)
      else some { proc with point := .dupOut }
  | .closeIn => some (proc.call (proc.table.close command.infd) .dupOut)
  | .dupOut =>
      if 1 ≠ command.fds.2 then
        some (proc.call (proc.table.dup2 command.fds.2 1) .closeRead)
      else some { proc with point := .exec }
  | .closeRead => some (proc.call (proc.table.close command.fds.1) .closeWrite)
  | .closeWrite => some (proc.call (proc.table.close command.fds.2) .exec)
  | .exec => some { proc with point := .running, execed := true }
  | .running | .zombie | .reaped => none

/-- A child ends: the program exits, `execvp` fails, or a signal kills it. -/
def Process.ends (proc : Process) : Option Process :=
  match proc.point with
  | .zombie | .reaped => none
  | _ => some proc.exit

/-- A child that takes a step has not been waited for and is not afterwards,
and it stays in its group. -/
def Process.Kept (proc after : Process) : Prop :=
  proc.point ≠ .reaped ∧ after.point ≠ .reaped ∧ after.pgrp = proc.pgrp

theorem Process.call_kept {proc : Process} {result : Option Table} {point : ChildPoint}
    (hold : proc.point ≠ .reaped) (hpoint : point ≠ .reaped) :
    proc.Kept (proc.call result point) := by
  cases result with
  | none => exact ⟨hold, by simp [Process.call, Process.exit], rfl⟩
  | some table => exact ⟨hold, hpoint, rfl⟩

theorem Process.advance_kept {proc after : Process} {command : Command}
    (h : proc.advance command = some after) : proc.Kept after := by
  unfold Process.advance at h
  cases hpoint : proc.point <;> simp only [hpoint] at h
  case dupIn | dupOut =>
    split at h <;> cases h
    · exact call_kept (by simp [hpoint]) (by simp)
    · exact ⟨by simp [hpoint], by simp, rfl⟩
  case closeIn | closeRead | closeWrite =>
    cases h
    exact call_kept (by simp [hpoint]) (by simp)
  case exec =>
    cases h
    exact ⟨by simp [hpoint], by simp, rfl⟩
  all_goals cases h

theorem Process.ends_kept {proc after : Process} (h : proc.ends = some after) :
    proc.Kept after := by
  unfold Process.ends at h
  split at h
  · cases h
  · cases h
  · rename_i hreaped
    cases h
    exact ⟨hreaped, by simp [Process.exit], rfl⟩

inductive Event where
  | advance
  | pipe (fds : Nat × Nat)
  | fork (pid : Nat)
  | child (i : Nat)
  | childEnds (i : Nat)
  deriving DecidableEq, Repr

def State.child (s : State) (i : Nat) (act : Process → Option Process) :
    Option State :=
  if i < s.forked then (act (s.procs i)).map (s.setProc i) else none

def step (s : State) : Event → Option State
  | .advance => s.advance
  | .pipe fds => s.pipe fds
  | .fork pid => s.fork pid
  | .child i => s.child i (fun proc => proc.advance (s.commands i))
  | .childEnds i => s.child i Process.ends

end CsPrimer.ShellPipes.Pipeline
