import Mathlib.Tactic

/-!
The parent process of the pipe shell, `shell_pipes.c`: tokenising, the system
calls of `run` in order, and the process group that the signal handler uses.
What the calls return comes from outside; a failing call exits through
`error`. A line is the text that `fgets` delivers, `argv` is taken to have
room for its words, and what a child does is left out.
-/

namespace CsPrimer.ShellPipes

/-- `strsep` on a text: the token, and what follows the delimiter. -/
def strsep (delim : Char) : List Char → List Char × Option (List Char)
  | [] => ([], none)
  | c :: text =>
      if c = delim then ([], some text)
      else (c :: (strsep delim text).1, (strsep delim text).2)

/-- What follows the delimiter is shorter. -/
theorem strsep_length {delim : Char} {text rest : List Char}
    (h : (strsep delim text).2 = some rest) : rest.length < text.length := by
  induction text with
  | nil => cases h
  | cons c text ih =>
      simp only [strsep] at h
      split at h
      · cases h
        exact Nat.lt_succ_self _
      · exact Nat.lt_succ_of_lt (ih h)

/-- The tokens of repeated `strtok`; `word` is the one being read. -/
def strtok (seps : List Char) (word : List Char) :
    List Char → List (List Char)
  | [] => if word = [] then [] else [word]
  | c :: text =>
      if c ∈ seps then
        if word = [] then strtok seps [] text
        else word :: strtok seps [] text
      else strtok seps (word ++ [c]) text

def pipeChar : Char := '|'

def sep : List Char := [' ', '\t', '\n']

inductive Reaction where
  | exit (status : Nat)
  | killpg (pgid : Nat)
  deriving DecidableEq, Repr

def sigintHandler (pgid : Nat) : Reaction :=
  if pgid = 0 then .exit 0 else .killpg pgid

/-- The system calls of the parent, with their results where they have one. A
fork names what the child is to execute and its descriptors. -/
inductive Call where
  | pipe (fds : Nat × Nat)
  | fork (argv : List (List Char)) (infd : Nat) (fds : Nat × Nat) (pid : Nat)
  | setpgid (pid pgid : Nat)
  | close (fd : Nat)
  | waitpid (pid : Nat)
  deriving DecidableEq, Repr

/-- A call, and the value of `pgid` when it is made. -/
structure Entry where
  call : Call
  pgid : Nat
  deriving DecidableEq, Repr

/-- The results of the calls, by the number of calls made before; `none` and
`false` stand for failures. -/
structure Os where
  pipe : Nat → Option (Nat × Nat)
  fork : Nat → Option Nat
  setpgid : Nat → Bool
  close : Nat → Bool
  fork_pos : ∀ n pid, fork n = some pid → 0 < pid

structure Shell where
  pgid : Nat
  calls : Nat
  entries : List Entry
  deriving DecidableEq, Repr

def Shell.call (s : Shell) (call : Call) : Shell where
  pgid := s.pgid
  calls := s.calls + 1
  entries := s.entries ++ [⟨call, s.pgid⟩]

/-- The descriptors of a command: a pipe, except for the last one. -/
def openPipe (os : Os) (s : Shell) (rest : Option (List Char)) :
    Except Nat ((Nat × Nat) × Shell) :=
  match rest with
  | none => .ok ((0, 1), s)
  | some _ =>
      match os.pipe s.calls with
      | none => .error 2
      | some fds => .ok (fds, s.call (.pipe fds))

/-- `fork`, and the parent's assignment to `pgid` and `setpgid`. -/
def spawn (os : Os) (s : Shell) (argv : List (List Char)) (infd : Nat)
    (fds : Nat × Nat) : Except Nat (Nat × Shell) :=
  match os.fork s.calls with
  | none => .error 3
  | some pid =>
      let s := s.call (.fork argv infd fds pid)
      let s := { s with pgid := if 0 = s.pgid then pid else s.pgid }
      if os.setpgid s.calls then .ok (pid, s.call (.setpgid pid s.pgid))
      else .error 11

def closeFd (os : Os) (s : Shell) (fd status : Nat) : Except Nat Shell :=
  if os.close s.calls then .ok (s.call (.close fd)) else .error status

/-- `run` in the parent. Without a rest `fds` is not a pipe, so the recursion
never sees a null prompt. -/
def run (os : Os) (s : Shell) (prompt : List Char) (infd : Nat) :
    Except Nat Shell :=
  let argv := strtok sep [] (strsep pipeChar prompt).1
  if argv = [] then .ok s
  else do
    let (fds, s) ← openPipe os s (strsep pipeChar prompt).2
    let (pid, s) ← spawn os s argv infd fds
    match _h : (strsep pipeChar prompt).2 with
    | none => return s.call (.waitpid pid)
    | some rest =>
        if 1 ≠ fds.2 then
          let s ← closeFd os s fds.2 12
          let s ← run os s rest fds.1
          let s ← closeFd os s fds.1 13
          return s.call (.waitpid pid)
        else return s.call (.waitpid pid)
termination_by prompt.length
decreasing_by exact strsep_length ‹_›

structure LineTrace where
  prompt : Nat
  entries : List Entry
  deriving DecidableEq, Repr

structure Session where
  lines : List LineTrace
  last : Nat
  deriving DecidableEq, Repr

/-- The loop of `main` over the lines read, each run to completion. -/
def mainLoop (os : Os) (s : Shell) : List (List Char) → Except Nat Session
  | [] => .ok ⟨[], s.pgid⟩
  | line :: lines => do
      let next ← run os { s with entries := [] } line 0
      let session ← mainLoop os next lines
      return ⟨⟨s.pgid, next.entries⟩ :: session.lines, session.last⟩

def main (os : Os) (lines : List (List Char)) : Except Nat Session :=
  mainLoop os ⟨0, 0, []⟩ lines

end CsPrimer.ShellPipes
