import CsPrimer.Foundation.CircularLog
import CsPrimer.Foundation.EventRun
import CsPrimer.Foundation.QueueThreads
import CsPrimer.Foundation.RobustMutex
import CsPrimer.Foundation.Semaphore

/-!
The blocking queue in shared memory, `shm_blocking_queue.c`. Any number of
processes put and take; each statement is one step, and a process may die
before any of them. A call that fails inside `exit_err_on` ends the process,
which is a death as well. The slots behind the struct are taken to be there,
whatever the length of the mapping.
-/

namespace CsPrimer.SharedMemoryStream

open Foundation

structure ShmBlockingQueue (P V : Type) where
  capacity : Nat
  head : Nat
  tail : Nat
  mutexHead : RobustMutex P
  mutexTail : RobustMutex P
  semElement : Nat
  semSpace : Nat
  slots : Nat → V

/-- `sizeof(shm_blocking_queue)`, and the lengths for which both `ftruncate` and
`mmap` succeed. -/
structure Platform where
  header : Nat
  maps : Nat → Bool

def mappedLength (header capacity : Nat) : Nat := (header + 8 * capacity) % 2 ^ 64

variable {P V : Type}

/-- A new mapping is zero filled. `none` when `exit_err_on` leaves. -/
def shmBlockingQueueInit (platform : Platform) (zero : V) (capacity : Nat) :
    Option (ShmBlockingQueue P V) := do
  guard (platform.maps (mappedLength platform.header capacity))
  let semElement ← semInit 0
  let semSpace ← semInit capacity
  return {
    capacity := capacity
    head := 0
    tail := 0
    mutexHead := RobustMutex.init
    mutexTail := RobustMutex.init
    semElement := semElement
    semSpace := semSpace
    slots := fun _ => zero }

/-- An initialised queue is empty, and its spaces are the low bits of its
capacity. -/
theorem init_cases {platform : Platform} {zero : V} {capacity : Nat}
    {queue : ShmBlockingQueue P V}
    (hinit : shmBlockingQueueInit platform zero capacity = some queue) :
    capacity % 2 ^ 32 ≤ semValueMax ∧
      queue = ⟨capacity, 0, 0, RobustMutex.init, RobustMutex.init, 0, capacity % 2 ^ 32,
        fun _ => zero⟩ := by
  simp only [shmBlockingQueueInit, Option.bind_eq_bind, Option.bind_eq_some_iff] at hinit
  obtain ⟨_, -, semElement, hsemElement, semSpace, hsemSpace, hqueue⟩ := hinit
  obtain ⟨rfl, -⟩ := semInit_cases hsemElement
  obtain ⟨rfl, hle⟩ := semInit_cases hsemSpace
  cases hqueue
  exact ⟨hle, rfl⟩

inductive Point (V : Type) where
  | idle
  | putWait (e : V)
  | putLock (e : V)
  | putConsistent (e : V)
  | putStore (e : V)
  | putAdvance (e : V)
  | putUnlock
  | putPost
  | takeWait
  | takeLock
  | takeConsistent
  | takeLoad
  | takeAdvance (e : V)
  | takeUnlock (e : V)
  | takePost (e : V)
  | dead
  deriving DecidableEq, Repr

/-- An operation takes effect when its index is moved. -/
def Point.stage : Point V → Stage V
  | .idle => .idle
  | .putWait e => .waiting (.put e)
  | .putLock e => .entering (.put e)
  | .putConsistent e | .putStore e | .putAdvance e => .inside (.put e)
  | .putUnlock => .leaving none
  | .putPost => .posting none
  | .takeWait => .waiting .take
  | .takeLock => .entering .take
  | .takeConsistent | .takeLoad | .takeAdvance _ => .inside .take
  | .takeUnlock e => .leaving (some e)
  | .takePost e => .posting (some e)
  | .dead => .dead

instance : QueuePoint (Point V) V := ⟨Point.stage⟩

/-- Values are put when `tail` is advanced, and taken when `head` is. -/
abbrev System (P V : Type) := QueueSystem (ShmBlockingQueue P V) P (Point V) V

abbrev Call (V : Type) := QueueOp V

def Call.entry : Call V → Point V
  | .put e => .putWait e
  | .take => .takeWait

inductive Event (P V : Type) where
  | call (process : P) (op : Call V)
  | advance (process : P)
  | die (process : P)
  deriving DecidableEq, Repr

variable [DecidableEq P]

/-- Process `p` is gone, with its mutexes left to the next locker. -/
def System.die (s : System P V) (p : P) : System P V :=
  s.goto p .dead
    { s.queue with
      mutexHead := s.queue.mutexHead.ownerDies p
      mutexTail := s.queue.mutexTail.ownerDies p }
    s.history

/-- The statement after a lock: only `EOWNERDEAD` is looked at. -/
def afterLock (consistent enter : Point V) : LockResult → Point V
  | .ownerDead => consistent
  | .ok => enter
  | .notRecoverable => enter

/-- One statement of `shm_blocking_queue_put` or `shm_blocking_queue_take`;
`none` while it blocks. -/
def advance (s : System P V) (p : P) : Option (System P V) :=
  let q := s.queue
  match s.pc p with
  | .idle => none
  | .dead => none
  | .putWait e =>
      match semWait q.semSpace with
      | none => none
      | some v =>
          some (s.goto p (.putLock e) { q with semSpace := v } s.history)
  | .putLock e =>
      match q.mutexTail.lock p with
      | none => none
      | some (result, m) =>
          some (s.goto p (afterLock (.putConsistent e) (.putStore e) result)
            { q with mutexTail := m } s.history)
  | .putConsistent e =>
      match q.mutexTail.makeConsistent p with
      | none => some (s.die p)
      | some m =>
          some (s.goto p (.putStore e) { q with mutexTail := m } s.history)
  | .putStore e =>
      some (s.goto p (.putAdvance e)
        { q with slots := Function.update q.slots q.tail e } s.history)
  | .putAdvance e =>
      some (s.goto p .putUnlock { q with tail := (q.tail + 1) % q.capacity }
        (s.history.put q.tail e))
  | .putUnlock =>
      match q.mutexTail.unlock p with
      | none => some (s.die p)
      | some m => some (s.goto p .putPost { q with mutexTail := m } s.history)
  | .putPost =>
      match semPost q.semElement with
      | none => some (s.die p)
      | some v => some (s.goto p .idle { q with semElement := v } s.history)
  | .takeWait =>
      match semWait q.semElement with
      | none => none
      | some v =>
          some (s.goto p .takeLock { q with semElement := v } s.history)
  | .takeLock =>
      match q.mutexHead.lock p with
      | none => none
      | some (result, m) =>
          some (s.goto p (afterLock .takeConsistent .takeLoad result)
            { q with mutexHead := m } s.history)
  | .takeConsistent =>
      match q.mutexHead.makeConsistent p with
      | none => some (s.die p)
      | some m => some (s.goto p .takeLoad { q with mutexHead := m } s.history)
  | .takeLoad =>
      some (s.goto p (.takeAdvance (q.slots q.head)) q s.history)
  | .takeAdvance e =>
      some (s.goto p (.takeUnlock e)
        { q with head := (q.head + 1) % q.capacity } (s.history.take q.head e))
  | .takeUnlock e =>
      match q.mutexHead.unlock p with
      | none => some (s.die p)
      | some m =>
          some (s.goto p (.takePost e) { q with mutexHead := m } s.history)
  | .takePost _ =>
      match semPost q.semSpace with
      | none => some (s.die p)
      | some v => some (s.goto p .idle { q with semSpace := v } s.history)

/-- A call whose result process `p` hands to `exit_err_on` fails. -/
def CallFails (s : System P V) (p : P) : Prop :=
  let q := s.queue
  match s.pc p with
  | .putConsistent _ => q.mutexTail.makeConsistent p = none
  | .putUnlock => q.mutexTail.unlock p = none
  | .putPost => semPost q.semElement = none
  | .takeConsistent => q.mutexHead.makeConsistent p = none
  | .takeUnlock _ => q.mutexHead.unlock p = none
  | .takePost _ => semPost q.semSpace = none
  | _ => False

inductive Statement (s : System P V) (p : P) : System P V → Prop where
  | fails (hfails : CallFails s p) : Statement s p (s.die p)
  | putWait {e : V} {v : Nat} (hpc : s.pc p = .putWait e)
      (hwait : semWait s.queue.semSpace = some v) :
      Statement s p
        (s.goto p (.putLock e) { s.queue with semSpace := v } s.history)
  | putLock {e : V} {result : LockResult} {m : RobustMutex P}
      (hpc : s.pc p = .putLock e)
      (hlock : s.queue.mutexTail.lock p = some (result, m)) :
      Statement s p
        (s.goto p (afterLock (.putConsistent e) (.putStore e) result)
          { s.queue with mutexTail := m } s.history)
  | putConsistent {e : V} {m : RobustMutex P} (hpc : s.pc p = .putConsistent e)
      (hconsistent : s.queue.mutexTail.makeConsistent p = some m) :
      Statement s p
        (s.goto p (.putStore e) { s.queue with mutexTail := m } s.history)
  | putStore {e : V} (hpc : s.pc p = .putStore e) :
      Statement s p
        (s.goto p (.putAdvance e)
          { s.queue with slots := Function.update s.queue.slots s.queue.tail e }
          s.history)
  | putAdvance {e : V} (hpc : s.pc p = .putAdvance e) :
      Statement s p
        (s.goto p .putUnlock
          { s.queue with tail := (s.queue.tail + 1) % s.queue.capacity }
          (s.history.put s.queue.tail e))
  | putUnlock {m : RobustMutex P} (hpc : s.pc p = .putUnlock)
      (hunlock : s.queue.mutexTail.unlock p = some m) :
      Statement s p
        (s.goto p .putPost { s.queue with mutexTail := m } s.history)
  | putPost {v : Nat} (hpc : s.pc p = .putPost)
      (hpost : semPost s.queue.semElement = some v) :
      Statement s p
        (s.goto p .idle { s.queue with semElement := v } s.history)
  | takeWait {v : Nat} (hpc : s.pc p = .takeWait)
      (hwait : semWait s.queue.semElement = some v) :
      Statement s p
        (s.goto p .takeLock { s.queue with semElement := v } s.history)
  | takeLock {result : LockResult} {m : RobustMutex P} (hpc : s.pc p = .takeLock)
      (hlock : s.queue.mutexHead.lock p = some (result, m)) :
      Statement s p
        (s.goto p (afterLock .takeConsistent .takeLoad result)
          { s.queue with mutexHead := m } s.history)
  | takeConsistent {m : RobustMutex P} (hpc : s.pc p = .takeConsistent)
      (hconsistent : s.queue.mutexHead.makeConsistent p = some m) :
      Statement s p
        (s.goto p .takeLoad { s.queue with mutexHead := m } s.history)
  | takeLoad (hpc : s.pc p = .takeLoad) :
      Statement s p
        (s.goto p (.takeAdvance (s.queue.slots s.queue.head)) s.queue s.history)
  | takeAdvance {e : V} (hpc : s.pc p = .takeAdvance e) :
      Statement s p
        (s.goto p (.takeUnlock e)
          { s.queue with head := (s.queue.head + 1) % s.queue.capacity }
          (s.history.take s.queue.head e))
  | takeUnlock {e : V} {m : RobustMutex P} (hpc : s.pc p = .takeUnlock e)
      (hunlock : s.queue.mutexHead.unlock p = some m) :
      Statement s p
        (s.goto p (.takePost e) { s.queue with mutexHead := m } s.history)
  | takePost {e : V} {v : Nat} (hpc : s.pc p = .takePost e)
      (hpost : semPost s.queue.semSpace = some v) :
      Statement s p
        (s.goto p .idle { s.queue with semSpace := v } s.history)

/-- Invariants are proved by cases on the statement, not on `advance`. -/
theorem statement_of_advance {s next : System P V} {p : P}
    (hnext : advance s p = some next) : Statement s p next := by
  cases hpc : s.pc p with
  | idle | dead => simp [advance, hpc] at hnext
  | putWait e =>
      simp only [advance, hpc] at hnext
      split at hnext <;> cases hnext
      rename_i hwait
      exact .putWait hpc hwait
  | putLock e =>
      simp only [advance, hpc] at hnext
      split at hnext <;> cases hnext
      rename_i hlock
      exact .putLock hpc hlock
  | putConsistent e =>
      simp only [advance, hpc] at hnext
      split at hnext <;> cases hnext
      · rename_i hfails
        exact .fails (by simpa only [CallFails, hpc] using hfails)
      · rename_i hconsistent
        exact .putConsistent hpc hconsistent
  | putStore e =>
      simp only [advance, hpc, Option.some.injEq] at hnext
      exact hnext ▸ .putStore hpc
  | putAdvance e =>
      simp only [advance, hpc, Option.some.injEq] at hnext
      exact hnext ▸ .putAdvance hpc
  | putUnlock =>
      simp only [advance, hpc] at hnext
      split at hnext <;> cases hnext
      · rename_i hfails
        exact .fails (by simpa only [CallFails, hpc] using hfails)
      · rename_i hunlock
        exact .putUnlock hpc hunlock
  | putPost =>
      simp only [advance, hpc] at hnext
      split at hnext <;> cases hnext
      · rename_i hfails
        exact .fails (by simpa only [CallFails, hpc] using hfails)
      · rename_i hpost
        exact .putPost hpc hpost
  | takeWait =>
      simp only [advance, hpc] at hnext
      split at hnext <;> cases hnext
      rename_i hwait
      exact .takeWait hpc hwait
  | takeLock =>
      simp only [advance, hpc] at hnext
      split at hnext <;> cases hnext
      rename_i hlock
      exact .takeLock hpc hlock
  | takeConsistent =>
      simp only [advance, hpc] at hnext
      split at hnext <;> cases hnext
      · rename_i hfails
        exact .fails (by simpa only [CallFails, hpc] using hfails)
      · rename_i hconsistent
        exact .takeConsistent hpc hconsistent
  | takeLoad =>
      simp only [advance, hpc, Option.some.injEq] at hnext
      exact hnext ▸ .takeLoad hpc
  | takeAdvance e =>
      simp only [advance, hpc, Option.some.injEq] at hnext
      exact hnext ▸ .takeAdvance hpc
  | takeUnlock e =>
      simp only [advance, hpc] at hnext
      split at hnext <;> cases hnext
      · rename_i hfails
        exact .fails (by simpa only [CallFails, hpc] using hfails)
      · rename_i hunlock
        exact .takeUnlock hpc hunlock
  | takePost e =>
      simp only [advance, hpc] at hnext
      split at hnext <;> cases hnext
      · rename_i hfails
        exact .fails (by simpa only [CallFails, hpc] using hfails)
      · rename_i hpost
        exact .takePost hpc hpost

def step (s : System P V) : Event P V → Option (System P V)
  | .call p op =>
      match s.pc p with
      | .idle => some (s.goto p op.entry s.queue s.history)
      | _ => none
  | .advance p => advance s p
  | .die p =>
      match s.pc p with
      | .dead => none
      | _ => some (s.die p)

omit [DecidableEq P] in
def start (queue : ShmBlockingQueue P V) : System P V where
  queue := queue
  pc := fun _ => .idle
  history := History.empty

end CsPrimer.SharedMemoryStream
