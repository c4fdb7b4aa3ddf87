import CsPrimer.Foundation.EventRun
import CsPrimer.Foundation.Words

/-!
The basic shell, `shell_basic.c`: one event for each statement between which
a signal can make a difference, with the mask, the disposition of SIGINT, the
global `pid` and the two jump buffers. A signal may come at any point where it
is not blocked, and any call that is checked may fail. The children run at the
same time. The memory of the line and of the array that `parse_cmd` grows is
left to a module of its own.
-/

namespace CsPrimer.BasicShell

open Foundation

inductive Function where
  | handleInput
  | runCmd
  deriving DecidableEq, Repr

/-- A call of one of the two functions that fill a jump buffer. -/
structure Frame where
  function : Function
  call : Nat
  deriving DecidableEq, Repr

structure JmpBuf where
  frame : Frame
  blocked : Bool
  deriving DecidableEq, Repr

inductive Disposition where
  | default
  | ignored
  | handler
  deriving DecidableEq, Repr

inductive ChildCode where
  | exited
  | killed
  | dumped
  deriving DecidableEq, Repr

structure ChildInfo where
  code : ChildCode
  status : Nat
  deriving DecidableEq, Repr

/-- Where a child is: in `run_cmd` before `setup_handler`, `unblock_sigint` or
`execvp`, in the program, or dead and not yet waited for. -/
inductive ChildPoint where
  | resetHandler
  | unblock
  | exec
  | program
  | dead (info : ChildInfo)
  deriving DecidableEq, Repr

structure Child where
  point : ChildPoint
  blocked : Bool
  disposition : Disposition
  cmd : List (List Char)
  deriving DecidableEq, Repr

/-- What the shell does next. `waitid` has returned at `runBlock`; `error` is
the call of that name, `reaping` if `block_sigint` makes it there. -/
inductive Point where
  | begin
  | install
  | callInput
  | inputSetjmp
  | inputLoop
  | getline
  | inputBlock (result : Option (List Char))
  | inputTest (result : Option (List Char))
  | dispatch (line : List Char)
  | fork (cmd : List (List Char))
  | runSetjmp
  | runUnblock
  | waitid
  | runBlock
  | resetPid
  | error (reaping : Bool)
  | exited (status : Nat)
  | killed
  | crashed
  | undefined
  deriving DecidableEq, Repr

/-- `childInfo` is `none` while the `siginfo_t` is all zero. -/
structure State where
  point : Point
  live : Option Frame
  calls : Nat
  blocked : Bool
  disposition : Disposition
  pid : Int
  jmpHandleInput : Option JmpBuf
  jmpRunCmd : Option JmpBuf
  prompt : String
  childInfo : Option ChildInfo
  children : Int → Option Child
  printed : List String

/-- The start of `main`, with the mask and the disposition that the shell was
started with. -/
def start (blocked ignored : Bool) : State where
  point := .begin
  live := none
  calls := 0
  blocked := blocked
  disposition := if ignored then .ignored else .default
  pid := -1
  jmpHandleInput := none
  jmpRunCmd := none
  prompt := ""
  childInfo := none
  children := fun _ => none
  printed := []

/-- What the functions of `string.h` see of a line. -/
def cString (line : List Char) : List Char :=
  line.takeWhile (fun c => c ≠ '\x00')

def parseCmd (line : List Char) : List (List Char) :=
  words [' ', '\t', '\n'] (cString line)

def promptFor : Option ChildInfo → String
  | none => "🤡"
  | some info =>
      if info.code = .killed then "\n🔪"
      else if info.status ≠ 0 then "💩"
      else "🤡"

def State.call (s : State) (function : Function) (point : Point) : State :=
  { s with point := point, live := some ⟨function, s.calls⟩, calls := s.calls + 1 }

def State.ret (s : State) (point : Point) : State :=
  { s with point := point, live := none }

def State.print (s : State) (text : String) : State :=
  { s with printed := s.printed ++ [text] }

def State.sigsetjmp (s : State) : Option JmpBuf :=
  s.live.map (fun frame => ⟨frame, s.blocked⟩)

/-- `parse_cmd`, `handle_builtin` and the call of `run_cmd`. Without a word
the name of the command is NULL, which `strcmp` does not take. -/
def State.runLine (s : State) (line : List Char) : State :=
  let s := { s with childInfo := some ⟨.exited, 0⟩ }
  match parseCmd line with
  | [] => { s with point := .crashed }
  | name :: args =>
      if name = "help".toList then
        { s.print "🤪" with point := .callInput }
      else if name = "quit".toList then
        { s.print "💀" with point := .exited 0 }
      else s.call .runCmd (.fork (name :: args))

/-- `waitid` reaps a dead child. It waits for one that lives, and fails
without one, when it clears what it was given. -/
def State.waitid (s : State) : Option State :=
  match s.children s.pid with
  | none => some { s with point := .runBlock, childInfo := none }
  | some child =>
      match child.point with
      | .dead info =>
          some { s with
            point := .runBlock
            childInfo := some info
            children := Function.update s.children s.pid none }
      | _ => none

/-- The next statement, when the calls in it succeed. -/
def State.advance (s : State) : Option State :=
  match s.point with
  | .begin => some { s with point := .install, blocked := true }
  | .install => some { s with point := .callInput, disposition := .handler }
  | .callInput => some (s.call .handleInput .inputSetjmp)
  | .inputSetjmp =>
      some { s with
        point := .inputLoop
        jmpHandleInput := s.sigsetjmp
        prompt := promptFor s.childInfo }
  | .inputLoop => some { s.print s.prompt with point := .getline, blocked := false }
  | .inputBlock result =>
      some { s with point := .inputTest result, blocked := true, prompt := "🤡" }
  | .inputTest none => some ((s.print "\n💀").ret (.exited 0))
  | .inputTest (some line) =>
      if cString line = ['\n'] then some { s with point := .inputLoop }
      else some (s.ret (.dispatch line))
  | .dispatch line => some (s.runLine line)
  | .runSetjmp => some { s with point := .runUnblock, jmpRunCmd := s.sigsetjmp }
  | .runUnblock => some { s with point := .waitid, blocked := false }
  | .waitid => s.waitid
  | .runBlock => some { s with point := .resetPid, blocked := true }
  | .resetPid => some { s.ret .callInput with pid := -1 }
  | .error _ => some { s with point := .exited 1 }
  | .getline | .fork _ | .exited _ | .killed | .crashed | .undefined => none

/-- The call that is next fails, and `error` is called: `sigprocmask`,
`signal`, `calloc` or `fork`. -/
def State.fails (s : State) : Option State :=
  match s.point with
  | .begin | .install | .inputLoop | .inputBlock _ | .dispatch _ | .runUnblock =>
      some { s with point := .error false }
  | .fork _ => some { s with point := .error false, pid := -1 }
  | .runBlock => some { s with point := .error true }
  | _ => none

def State.getline (s : State) (result : Option (List Char)) : Option State :=
  match s.point with
  | .getline => some { s with point := .inputBlock result }
  | _ => none

/-- `fork` in the parent. The child has the mask and the disposition of the
shell. -/
def State.fork (s : State) (pid : Int) : Option State :=
  match s.point with
  | .fork cmd =>
      if 0 < pid ∧ s.children pid = none then
        some { s with
          point := .runSetjmp
          pid := pid
          children := Function.update s.children pid
            (some ⟨.resetHandler, s.blocked, s.disposition, cmd⟩) }
      else none
  | _ => none

/-- Back to where the buffer was filled, if that call has not returned. -/
def State.siglongjmp (s : State) (buffer : Option JmpBuf) (point : Point) : State :=
  match buffer with
  | none => { s with point := .undefined }
  | some buf =>
      if s.live = some buf.frame then { s with point := point, blocked := buf.blocked }
      else { s with point := .undefined }

/-- `handler`, up to its jump. What `kill` does to the child is a step of the
child. -/
def State.handler (s : State) : State :=
  if 0 ≥ s.pid then
    { s.siglongjmp s.jmpHandleInput .inputLoop with prompt := "\n🙉" }
  else s.siglongjmp s.jmpRunCmd .waitid

def Point.alive : Point → Bool
  | .exited _ | .killed | .crashed | .undefined => false
  | _ => true

def State.sigint (s : State) : Option State :=
  if s.point.alive ∧ s.blocked = false then
    match s.disposition with
    | .default => some { s with point := .killed }
    | .ignored => some s
    | .handler => some s.handler
  else none

def Child.advance (child : Child) : Option Child :=
  match child.point with
  | .resetHandler => some { child with point := .unblock, disposition := .default }
  | .unblock => some { child with point := .exec, blocked := false }
  | .exec => some { child with point := .program }
  | .program | .dead _ => none

/-- A child exits from its program or through `error`, or a signal kills it. -/
def Child.dies (child : Child) (info : ChildInfo) : Option Child :=
  match child.point with
  | .dead _ => none
  | .program => some { child with point := .dead info }
  | _ =>
      if info.code ≠ .exited ∨ info.status = 1 then
        some { child with point := .dead info }
      else none

def State.withChild (s : State) (pid : Int) (act : Child → Option Child) :
    Option State :=
  match (s.children pid).bind act with
  | none => none
  | some child =>
      some { s with children := Function.update s.children pid (some child) }

inductive Event where
  | advance
  | fails
  | getline (result : Option (List Char))
  | fork (pid : Int)
  | sigint
  | childAdvance (pid : Int)
  | childDies (pid : Int) (info : ChildInfo)
  deriving DecidableEq, Repr

def step (s : State) : Event → Option State
  | .advance => s.advance
  | .fails => s.fails
  | .getline result => s.getline result
  | .fork pid => s.fork pid
  | .sigint => s.sigint
  | .childAdvance pid => s.withChild pid Child.advance
  | .childDies pid info => s.withChild pid (fun child => child.dies info)

end CsPrimer.BasicShell
