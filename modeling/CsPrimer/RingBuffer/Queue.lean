import CsPrimer.Foundation.CircularLog
import CsPrimer.Foundation.EventRun
import CsPrimer.Foundation.Mutex
import CsPrimer.Foundation.QueueThreads
import CsPrimer.Foundation.Semaphore

/-!
The two bounded blocking queues, `ring_buffer_posix.c` and
`ring_buffer_sysv.c`. They differ in the semaphores only. Any number of
threads calls put and take; each statement of a call is one step, and a
semaphore wait or a mutex lock that would block is not enabled. Waits and
locks do not fail otherwise. What the threads print is left out.
-/

namespace CsPrimer.RingBuffer

open Foundation

structure BlockingQueue (T V : Type) where
  buffer : Nat → V
  capacity : Nat
  head : Nat
  tail : Nat
  mutexHead : Option T
  mutexTail : Option T
  semElement : Nat
  semSpace : Nat

/-- What is in memory before `blocking_queue_init`: `malloc` leaves arbitrary
pointers in the slots, and a semaphore that is not initialised has a value too. -/
structure Junk (V : Type) where
  slots : Nat → V
  semSpace : BitVec 32

/-- The value the space semaphore gets where `memory` was, for a requested one,
and the greatest value a semaphore can have. -/
structure SemaphoreApi where
  initial : (memory value : Nat) → Nat
  max : Nat

def semvmx : Nat := 32767

/-- `semctl(SETVAL)` takes an `int` and fails outside `0 .. SEMVMX`, leaving
the zero of a new set. -/
def semctlSetval (value : Nat) : Nat :=
  if value % 2 ^ 32 ≤ semvmx then value % 2 ^ 32 else 0

inductive Variant where
  | posix
  | sysv
  deriving DecidableEq, Repr

/-- Neither file looks at what the call returns, and a `sem_init` that fails
leaves the memory as it was. -/
def Variant.api : Variant → SemaphoreApi
  | .posix => ⟨fun memory value => (semInit value).getD memory, semValueMax⟩
  | .sysv => ⟨fun _ value => semctlSetval value, semvmx⟩

/-- The space semaphore of the variant is initialised with this capacity. -/
def Variant.Initialises : Variant → Nat → Prop
  | .posix, capacity => capacity % 2 ^ 32 ≤ semValueMax
  | .sysv, _ => True

instance (variant : Variant) (capacity : Nat) : Decidable (variant.Initialises capacity) :=
  match variant with
  | .posix => inferInstanceAs (Decidable (capacity % 2 ^ 32 ≤ semValueMax))
  | .sysv => isTrue trivial

theorem Variant.Initialises.le {variant : Variant} {capacity : Nat}
    (h : variant.Initialises capacity) (memory : Nat) :
    variant.api.initial memory capacity ≤ capacity ∧
      variant.api.initial memory capacity ≤ variant.api.max := by
  cases variant with
  | posix =>
      have hinit : semInit capacity = some (capacity % 2 ^ 32) := if_pos h
      simp only [Variant.api, hinit, Option.getD_some]
      exact ⟨Nat.mod_le _ _, h⟩
  | sysv =>
      simp only [Variant.api, semctlSetval]
      split
      · exact ⟨Nat.mod_le _ _, ‹_›⟩
      · exact ⟨Nat.zero_le _, Nat.zero_le _⟩

variable {T V : Type}

def blockingQueueInit (variant : Variant) (junk : Junk V) (capacity : Nat) :
    BlockingQueue T V where
  buffer := junk.slots
  capacity := capacity
  head := 0
  tail := 0
  mutexHead := none
  mutexTail := none
  semElement := 0
  semSpace := variant.api.initial junk.semSpace.toNat capacity

inductive Point (V : Type) where
  | idle
  | putWait (e : V)
  | putLock (e : V)
  | putStore (e : V)
  | putAdvance
  | putUnlock
  | putPost
  | takeWait
  | takeLock
  | takeLoad
  | takeAdvance (e : V)
  | takeUnlock (e : V)
  | takePost (e : V)
  deriving DecidableEq, Repr

def Point.stage : Point V → Stage V
  | .idle => .idle
  | .putWait e => .waiting (.put e)
  | .putLock e => .entering (.put e)
  | .putStore e => .inside (.put e)
  | .putAdvance | .putUnlock => .leaving none
  | .putPost => .posting none
  | .takeWait => .waiting .take
  | .takeLock => .entering .take
  | .takeLoad => .inside .take
  | .takeAdvance e | .takeUnlock e => .leaving (some e)
  | .takePost e => .posting (some e)

instance : QueuePoint (Point V) V := ⟨Point.stage⟩

/-- Values are put when the slot is written, and taken when it is read. -/
abbrev System (T V : Type) := QueueSystem (BlockingQueue T V) T (Point V) V

abbrev Call (V : Type) := QueueOp V

inductive Event (T V : Type) where
  | call (thread : T) (op : Call V)
  | advance (thread : T)
  deriving DecidableEq, Repr

/-- A post; beyond the greatest value it fails and changes nothing. -/
def SemaphoreApi.post (api : SemaphoreApi) (value : Nat) : Nat :=
  if value < api.max then value + 1 else value

variable [DecidableEq T]

/-- One statement of `blocking_queue_put` or `blocking_queue_take`. -/
def advance (api : SemaphoreApi) (s : System T V) (t : T) :
    Option (System T V) :=
  let q := s.queue
  match s.pc t with
  | .idle => none
  | .putWait e =>
      if q.semSpace = 0 then none
      else some (s.goto t (.putLock e)
        { q with semSpace := q.semSpace - 1 } s.history)
  | .putLock e =>
      if q.mutexTail = none then
        some (s.goto t (.putStore e) { q with mutexTail := some t } s.history)
      else none
  | .putStore e =>
      some (s.goto t .putAdvance
        { q with buffer := Function.update q.buffer q.tail e }
        (s.history.put q.tail e))
  | .putAdvance =>
      some (s.goto t .putUnlock
        { q with tail := (q.tail + 1) % q.capacity } s.history)
  | .putUnlock =>
      some (s.goto t .putPost { q with mutexTail := none } s.history)
  | .putPost =>
      some (s.goto t .idle
        { q with semElement := api.post q.semElement } s.history)
  | .takeWait =>
      if q.semElement = 0 then none
      else some (s.goto t .takeLock
        { q with semElement := q.semElement - 1 } s.history)
  | .takeLock =>
      if q.mutexHead = none then
        some (s.goto t .takeLoad { q with mutexHead := some t } s.history)
      else none
  | .takeLoad =>
      some (s.goto t (.takeAdvance (q.buffer q.head)) q
        (s.history.take q.head (q.buffer q.head)))
  | .takeAdvance e =>
      some (s.goto t (.takeUnlock e)
        { q with head := (q.head + 1) % q.capacity } s.history)
  | .takeUnlock e =>
      some (s.goto t (.takePost e) { q with mutexHead := none } s.history)
  | .takePost _ =>
      some (s.goto t .idle
        { q with semSpace := api.post q.semSpace } s.history)

def Call.entry : Call V → Point V
  | .put e => .putWait e
  | .take => .takeWait

def step (variant : Variant) (s : System T V) :
    Event T V → Option (System T V)
  | .call t op =>
      match s.pc t with
      | .idle => some (s.goto t op.entry s.queue s.history)
      | _ => none
  | .advance t => advance variant.api s t

def start (variant : Variant) (junk : Junk V) (capacity : Nat) :
    System T V where
  queue := blockingQueueInit variant junk capacity
  pc := fun _ => .idle
  history := History.empty

end CsPrimer.RingBuffer
