import CsPrimer.Foundation.Mutex

/-!
POSIX robust mutexes. When the owner dies the next locker gets the mutex with
`EOWNERDEAD` and has to make it consistent; unlocked without that, the mutex
is not recoverable, and a lock fails without excluding anybody.
-/

namespace CsPrimer.Foundation

inductive MutexState where
  | consistent
  | inconsistent
  | notRecoverable
  deriving DecidableEq, Repr

structure RobustMutex (Thread : Type*) where
  owner : Option Thread
  state : MutexState

inductive LockResult where
  | ok
  | ownerDead
  | notRecoverable
  deriving DecidableEq, Repr

namespace RobustMutex

variable {Thread : Type*}

def init : RobustMutex Thread := ⟨none, .consistent⟩

/-- `none` while the caller waits for the owner. -/
def lock (mutex : RobustMutex Thread) (thread : Thread) :
    Option (LockResult × RobustMutex Thread) :=
  match mutex.state, mutex.owner with
  | .notRecoverable, _ => some (.notRecoverable, mutex)
  | _, some _ => none
  | .consistent, none => some (.ok, { mutex with owner := some thread })
  | .inconsistent, none =>
      some (.ownerDead, { mutex with owner := some thread })

variable [DecidableEq Thread]

/-- `none` when the call fails: the caller does not own the mutex, or there is
nothing to recover. -/
def makeConsistent (mutex : RobustMutex Thread) (thread : Thread) :
    Option (RobustMutex Thread) :=
  if mutex.owner = some thread ∧ mutex.state = .inconsistent then
    some { mutex with state := .consistent }
  else none

/-- `none` when the call fails: the caller does not own the mutex. -/
def unlock (mutex : RobustMutex Thread) (thread : Thread) :
    Option (RobustMutex Thread) :=
  if mutex.owner = some thread then
    some ⟨none, if mutex.state = .consistent then .consistent
      else .notRecoverable⟩
  else none

/-- The kernel releases the mutexes of a dead thread. -/
def ownerDies (mutex : RobustMutex Thread) (thread : Thread) :
    RobustMutex Thread :=
  if mutex.owner = some thread then ⟨none, .inconsistent⟩ else mutex

end RobustMutex

variable {Thread Point : Type*} {inside recovering : Point → Bool}
  {pc : Thread → Point} {mutex next : RobustMutex Thread} {thread : Thread}
  {old point : Point} {result : LockResult}

/-- The mutex protects its section: it is owned by the thread inside, it is
recoverable, and it is inconsistent in the hands of a recovering thread only. -/
structure Guarded (inside recovering : Point → Bool) (pc : Thread → Point)
    (mutex : RobustMutex Thread) : Prop where
  owned : Owned inside pc mutex.owner
  recoverable : mutex.state ≠ .notRecoverable
  recovering_iff : ∀ thread, mutex.owner = some thread →
    (mutex.state = .inconsistent ↔ recovering (pc thread) = true)

theorem Guarded.init (houtside : ∀ thread, inside (pc thread) = false) :
    Guarded inside recovering pc RobustMutex.init :=
  ⟨.free houtside, by simp [RobustMutex.init], by simp [RobustMutex.init]⟩

/-- A mutex with nobody inside can be locked. -/
theorem Guarded.owner_eq_none (h : Guarded inside recovering pc mutex)
    (houtside : ∀ thread, inside (pc thread) = false) : mutex.owner = none := by
  cases howner : mutex.owner with
  | none => rfl
  | some thread =>
      have hinside := (h.owned thread).mpr howner
      rw [houtside thread] at hinside
      cases hinside

theorem RobustMutex.lock_ne_none (hfree : mutex.owner = none) : mutex.lock thread ≠ none := by
  obtain ⟨owner, state⟩ := mutex
  cases hfree
  cases state <;> simp [RobustMutex.lock]

/-- A lock that succeeds found the mutex free. -/
theorem Guarded.lock_cases (h : Guarded inside recovering pc mutex)
    (hlock : mutex.lock thread = some (result, next)) :
    (result = .ok ∧ mutex.owner = none ∧ next = ⟨some thread, .consistent⟩) ∨
      (result = .ownerDead ∧ mutex.owner = none ∧
        next = ⟨some thread, .inconsistent⟩) := by
  obtain ⟨owner, state⟩ := mutex
  cases state with
  | notRecoverable => exact absurd rfl h.recoverable
  | consistent =>
      cases owner with
      | none =>
          cases hlock
          exact .inl ⟨rfl, rfl, rfl⟩
      | some other => cases hlock
  | inconsistent =>
      cases owner with
      | none =>
          cases hlock
          exact .inr ⟨rfl, rfl, rfl⟩
      | some other => cases hlock

variable [DecidableEq Thread]

theorem Guarded.acquire (h : Guarded inside recovering pc mutex)
    {state : MutexState} (hfree : mutex.owner = none)
    (hinside : inside point = true) (hstate : state ≠ .notRecoverable)
    (hrecovering : state = .inconsistent ↔ recovering point = true) :
    Guarded inside recovering (Function.update pc thread point)
      ⟨some thread, state⟩ where
  owned := Owned.acquire (hfree ▸ h.owned) hinside
  recoverable := hstate
  recovering_iff := by
    intro other hother
    obtain rfl := Option.some.inj hother
    rw [Function.update_self]
    exact hrecovering

/-- A thread that has got the lock is inside, and recovers it if the owner
before it has died. -/
theorem Guarded.lock (h : Guarded inside recovering pc mutex)
    (hlock : mutex.lock thread = some (result, next)) (hinside : inside point = true)
    (hrecovering : recovering point = true ↔ result = .ownerDead) :
    Guarded inside recovering (Function.update pc thread point) next := by
  rcases h.lock_cases hlock with ⟨rfl, hfree, rfl⟩ | ⟨rfl, hfree, rfl⟩
  · exact h.acquire hfree hinside (by simp) (by simp [hrecovering])
  · exact h.acquire hfree hinside (by simp) (by simp [hrecovering])

/-- A thread moves within the section. -/
theorem Guarded.keep (h : Guarded inside recovering pc mutex)
    (hpc : pc thread = old) (hinside : inside point = inside old)
    (hrecovering : recovering point = recovering old) :
    Guarded inside recovering (Function.update pc thread point) mutex where
  owned := h.owned.keep hpc hinside
  recoverable := h.recoverable
  recovering_iff := by
    intro other hother
    rw [h.recovering_iff other hother]
    rcases eq_or_ne other thread with rfl | hne
    · rw [Function.update_self, hrecovering, hpc]
    · rw [Function.update_of_ne hne]

/-- A recovering thread makes the mutex consistent and enters the section
proper. -/
theorem Guarded.recover (h : Guarded inside recovering pc mutex)
    (hconsistent : mutex.makeConsistent thread = some next)
    (hinside : inside point = true) (hrecovered : recovering point = false) :
    Guarded inside recovering (Function.update pc thread point) next := by
  simp only [RobustMutex.makeConsistent] at hconsistent
  split at hconsistent
  · rename_i howner
    cases hconsistent
    refine ⟨h.owned.keep rfl ?_, by simp, ?_⟩
    · rw [hinside, (h.owned thread).mpr howner.1]
    · intro other hother
      obtain rfl := Option.some.inj (howner.1.symm.trans hother)
      rw [Function.update_self, hrecovered]
      simp
  · cases hconsistent

/-- Recovering, a thread owns an inconsistent mutex. -/
theorem Guarded.makeConsistent_ne_none (h : Guarded inside recovering pc mutex)
    (hpc : pc thread = old) (hinside : inside old = true)
    (hrecovering : recovering old = true) :
    mutex.makeConsistent thread ≠ none := by
  subst hpc
  have howner := (h.owned thread).mp hinside
  have hstate := (h.recovering_iff thread howner).mpr hrecovering
  simp [RobustMutex.makeConsistent, howner, hstate]

theorem Guarded.unlock_ne_none (h : Guarded inside recovering pc mutex)
    (hpc : pc thread = old) (hinside : inside old = true) :
    mutex.unlock thread ≠ none := by
  subst hpc
  have howner := (h.owned thread).mp hinside
  simp [RobustMutex.unlock, howner]

/-- The thread inside, done recovering, leaves a consistent mutex. -/
theorem Guarded.release (h : Guarded inside recovering pc mutex)
    (hpc : pc thread = old) (hinside : inside old = true)
    (hrecovered : recovering old = false)
    (houtside : inside point = false)
    (hunlock : mutex.unlock thread = some next) :
    Guarded inside recovering (Function.update pc thread point) next := by
  subst hpc
  have howner := (h.owned thread).mp hinside
  have hconsistent : mutex.state = .consistent := by
    have hrecovering := h.recovering_iff thread howner
    have hrecoverable := h.recoverable
    rw [hrecovered] at hrecovering
    cases hstate : mutex.state with
    | consistent => rfl
    | inconsistent => exact absurd (hrecovering.mp hstate) (by simp)
    | notRecoverable => exact absurd hstate hrecoverable
  simp only [RobustMutex.unlock, if_pos howner, if_pos hconsistent,
    Option.some.injEq] at hunlock
  subst hunlock
  exact ⟨h.owned.release rfl hinside houtside, by simp, by simp⟩

/-- A thread that dies leaves a mutex that the next locker can recover. -/
theorem Guarded.die (h : Guarded inside recovering pc mutex)
    (houtside : inside point = false) :
    Guarded inside recovering (Function.update pc thread point)
      (mutex.ownerDies thread) := by
  unfold RobustMutex.ownerDies
  split
  · rename_i howner
    exact ⟨h.owned.release rfl ((h.owned thread).mpr howner) houtside, by simp,
      by simp⟩
  · rename_i hother
    have hthread : inside (pc thread) = false := by
      rw [← Bool.not_eq_true, h.owned thread]
      exact hother
    refine ⟨h.owned.keep rfl (houtside.trans hthread.symm), h.recoverable, ?_⟩
    intro other howner
    rw [Function.update_of_ne]
    · exact h.recovering_iff other howner
    · intro heq
      exact hother (heq ▸ howner)

end CsPrimer.Foundation
