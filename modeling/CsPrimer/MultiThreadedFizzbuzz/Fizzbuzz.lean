import CsPrimer.Foundation.EventRun
import CsPrimer.Foundation.Mutex

/-!
The three threads of `fizzbuzz.c`. Each statement is one step. A wait on a
condition variable releases the mutex and blocks in one step; a signal, or a
spurious wakeup, sends the waiting thread back to the mutex. What is printed
is recorded as text, with the numbers chosen by `main` and those handled by
each of the other threads.
-/

namespace CsPrimer.MultiThreadedFizzbuzz

open Foundation

inductive Thread where
  | main
  | fizz
  | buzz
  deriving DecidableEq, Repr

inductive Flag where
  | newNumb
  | fizzDone
  | buzzDone
  deriving DecidableEq, Repr

/-- The statement a thread executes next. A thread at `wait` is blocked on the
condition variable of a flag, one at `wake` has to take the mutex again. -/
inductive Point where
  | lock
  | test
  | wait (cond : Flag)
  | wake
  | clear
  | choose
  | print
  | set
  | signal
  | unlock
  | sleep
  deriving DecidableEq, Repr

structure System where
  mutex : Option Thread
  flags : Flag → Bool
  n : Int
  pc : Thread → Point
  out : List Char
  numbers : List Int
  handled : Thread → List Int

def start : System where
  mutex := none
  flags := fun _ => false
  n := -1
  pc := fun _ => .lock
  out := []
  numbers := []
  handled := fun _ => []

def System.goto (s : System) (t : Thread) (point : Point) : System :=
  { s with pc := Function.update s.pc t point }

def System.assign (s : System) (flag : Flag) (value : Bool) : System :=
  { s with flags := Function.update s.flags flag value }

/-- `pthread_mutex_lock`, and what `pthread_cond_wait` does after a wakeup:
both lead to the test of the loop. -/
def System.lock (s : System) (t : Thread) : Option System :=
  if s.mutex = none then some { s.goto t .test with mutex := some t } else none

def System.unlock (s : System) (t : Thread) (point : Point) : System :=
  { s.goto t point with mutex := none }

/-- The thread waiting on the condition variable gets a wakeup. Without one
the signal is lost. -/
def System.signal (s : System) (cond : Flag) : System :=
  { s with pc := fun t => if s.pc t = .wait cond then .wake else s.pc t }

def System.print (s : System) (text : String) : System :=
  { s with out := s.out ++ text.toList }

def worker (t : Thread) (awaited done : Flag) (divisor : Int) (text : String)
    (s : System) : Option System :=
  match s.pc t with
  | .lock => s.lock t
  | .test =>
      if s.flags awaited then some (s.goto t .clear)
      else some (s.unlock t (.wait awaited))
  | .wake => s.lock t
  | .clear => some ((s.assign awaited false).goto t .print)
  | .print =>
      let s := if s.n.tmod divisor = 0 then s.print text else s
      let handled := Function.update s.handled t (s.handled t ++ [s.n])
      some { s.goto t .set with handled := handled }
  | .set => some ((s.assign done true).goto t .signal)
  | .signal => some ((s.signal done).goto t .unlock)
  | .unlock => some (s.unlock t .lock)
  | _ => none

def fizz : System → Option System :=
  worker .fizz .newNumb .fizzDone 3 "\tfizz"

def buzz : System → Option System :=
  worker .buzz .fizzDone .buzzDone 5 "\tbuzz"

def lineStart (n : Int) : String := "\n" ++ toString n ++ ":"

/-- A statement of the loop of `main`; `rand` is what `rand()` returns. -/
def main (rand : Nat) (s : System) : Option System :=
  match s.pc .main with
  | .lock => s.lock .main
  | .test =>
      if -1 ≠ s.n ∧ s.flags .buzzDone = false then
        some (s.unlock .main (.wait .buzzDone))
      else some (s.goto .main .clear)
  | .wake => s.lock .main
  | .clear => some ((s.assign .buzzDone false).goto .main .choose)
  | .choose =>
      let n : Int := (rand &&& 0xf : Nat)
      some { s.goto .main .print with n := n, numbers := s.numbers ++ [n] }
  | .print => some ((s.print (lineStart s.n)).goto .main .set)
  | .set => some ((s.assign .newNumb true).goto .main .signal)
  | .signal => some ((s.signal .newNumb).goto .main .unlock)
  | .unlock => some (s.unlock .main .sleep)
  | .sleep => some (s.goto .main .lock)
  | .wait _ => none

def advance (s : System) (t : Thread) (rand : Nat) : Option System :=
  match t with
  | .main => main rand s
  | .fizz => fizz s
  | .buzz => buzz s

inductive Event where
  | advance (t : Thread) (rand : Nat)
  | spuriousWakeup (t : Thread)
  deriving DecidableEq, Repr

def step (s : System) : Event → Option System
  | .advance t rand => advance s t rand
  | .spuriousWakeup t =>
      match s.pc t with
      | .wait _ => some (s.goto t .wake)
      | _ => none

/-- What a thread prints for `n` in its turn. -/
def line (n : Int) : List Char :=
  (lineStart n).toList ++ (if 3 ∣ n then "\tfizz".toList else []) ++
    (if 5 ∣ n then "\tbuzz".toList else [])

end CsPrimer.MultiThreadedFizzbuzz
