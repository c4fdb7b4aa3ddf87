import CsPrimer.Foundation.CTypes
import CsPrimer.Foundation.EventRun
import Mathlib.Data.BitVec

/-!
The signal logger `siglog.c`, from the point where `handle` is installed for
every signal. A signal interrupts `main` or a handler at any statement, unless a
handler for it is running already; then it stays blocked until that handler
returns or jumps away. The update of the volatile `handled` is a load and a
store, and a `printf` takes its arguments before it prints. A write through the
null pointer raises SIGSEGV.
-/

namespace CsPrimer.SignalLogger

open Foundation

def SIGKILL : Nat := 9

def SIGSEGV : Nat := 11

def SIGSTOP : Nat := 19

/-- One past the last signal. -/
def NSIG : Nat := 65

/-- The signals for which `signal` succeeds; two are the C library's own. -/
def Catchable (sig : Nat) : Prop :=
  0 < sig ∧ sig < NSIG ∧ sig ≠ SIGKILL ∧ sig ≠ SIGSTOP ∧ sig ≠ 32 ∧ sig ≠ 33

instance (sig : Nat) : Decidable (Catchable sig) :=
  inferInstanceAs (Decidable (_ ∧ _))

/-- The statement that `handle` executes next; `store` has loaded `handled`, and
`print` has counted its bits. -/
inductive HandlerPoint where
  | load
  | store (loaded : BitVec 64)
  | count
  | print (total : Nat)
  | leave
  deriving DecidableEq, Repr

structure Frame where
  sig : Nat
  point : HandlerPoint
  deriving DecidableEq, Repr

/-- What is undefined: `1 << sig` where the result is no `int`, a jump through a
buffer that was never filled, and `i++` at the largest `int`. -/
inductive Fault where
  | shift
  | emptyBuffer
  | overflow
  deriving DecidableEq, Repr

inductive MainPoint where
  | fork
  | sigsetjmp
  | test (ret : Nat)
  | print (ret : Nat)
  | write
  | sleep
  | fault (fault : Fault)
  deriving DecidableEq, Repr

/-- `main`, the calls of `handle` that run, the innermost first, and the data.
What `main` and the handlers print is recorded, and the signals that have been
put into `handled`. -/
structure State where
  point : MainPoint
  frames : List Frame
  handled : BitVec 64
  i : Nat
  filled : Bool
  printed : List Nat
  reports : List (Nat × Nat)
  recorded : List Nat

def start : State where
  point := .fork
  frames := []
  handled := 0
  i := 1
  filled := false
  printed := []
  reports := []
  recorded := []

def bit (sig : Nat) : Option (BitVec 64) :=
  if sig < 31 then some (1#64 <<< sig) else none

/-- `__builtin_popcount`, of an `unsigned int`. -/
def popcount (value : BitVec 32) : Nat := (List.range 32).countP value.getLsbD

def State.total (s : State) : Nat := popcount (s.handled.setWidth 32)

def State.fault (s : State) (fault : Fault) : State := { s with point := .fault fault }

/-- A signal that is not blocked is caught. -/
def State.signal (s : State) (sig : Nat) : Option State :=
  match s.point with
  | .fault _ => none
  | _ =>
      if Catchable sig ∧ ∀ frame ∈ s.frames, frame.sig ≠ sig then
        some { s with frames := ⟨sig, .load⟩ :: s.frames }
      else none

def State.handle (s : State) (frame : Frame) (below : List Frame) : State :=
  match frame.point with
  | .load => { s with frames := { frame with point := .store s.handled } :: below }
  | .store loaded =>
      match bit frame.sig with
      | none => s.fault .shift
      | some bit =>
          { s with
            frames := { frame with point := .count } :: below
            handled := loaded ||| bit
            recorded := s.recorded ++ [frame.sig] }
  | .count => { s with frames := { frame with point := .print s.total } :: below }
  | .print total =>
      { s with
        frames := { frame with point := .leave } :: below
        reports := s.reports ++ [(frame.sig, total)] }
  | .leave =>
      if frame.sig = SIGSEGV then
        if s.i = intMax then s.fault .overflow
        else if s.filled then { s with point := .test s.i, frames := [], i := s.i + 1 }
        else s.fault .emptyBuffer
      else { s with frames := below }

def State.main (s : State) : Option State :=
  match s.point with
  | .fork => some { s with point := .sigsetjmp }
  | .sigsetjmp => some { s with point := .test 0, filled := true }
  | .test ret => some { s with point := if ret < 10 then .print ret else .sleep }
  | .print ret => some { s with point := .write, printed := s.printed ++ [ret] }
  | .write => some { s with frames := [⟨SIGSEGV, .load⟩] }
  | .sleep | .fault _ => none

inductive Event where
  | advance
  | signal (sig : Nat)
  deriving DecidableEq, Repr

def step (s : State) : Event → Option State
  | .advance =>
      match s.point, s.frames with
      | .fault _, _ => none
      | _, [] => s.main
      | _, frame :: below => some (s.handle frame below)
  | .signal sig => s.signal sig

variable {s next : State} {event : Event}

/-- What a step can be. -/
theorem step_cases (h : step s event = some next) :
    (∀ fault, s.point ≠ .fault fault) ∧
      ((event = .advance ∧ s.frames = [] ∧ s.main = some next) ∨
        (∃ frame below, event = .advance ∧ s.frames = frame :: below ∧
          next = s.handle frame below) ∨
        ∃ sig, event = .signal sig ∧ Catchable sig ∧
          (∀ frame ∈ s.frames, frame.sig ≠ sig) ∧
          next = { s with frames := ⟨sig, .load⟩ :: s.frames }) := by
  cases event with
  | advance =>
      simp only [step] at h
      split at h
      · cases h
      · rename_i hframes hpoint
        exact ⟨hpoint, .inl ⟨rfl, hframes, h⟩⟩
      · rename_i frame below hframes hpoint
        cases h
        exact ⟨hpoint, .inr (.inl ⟨frame, below, rfl, hframes, rfl⟩)⟩
  | signal sig =>
      simp only [step, State.signal] at h
      split at h
      · cases h
      · rename_i hpoint
        split at h
        · rename_i hcatch
          cases h
          exact ⟨hpoint, .inr (.inr ⟨sig, rfl, hcatch.1, hcatch.2, rfl⟩)⟩
        · cases h

end CsPrimer.SignalLogger
