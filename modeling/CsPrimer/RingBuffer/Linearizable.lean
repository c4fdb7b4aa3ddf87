import CsPrimer.Foundation.AtomicObject
import CsPrimer.RingBuffer.Interrupted

/-!
Both blocking queues against the bounded queue whose operations take effect at
once. A put takes effect when it writes its slot and a take when it reads its
own; everything else a thread does is not seen by the others.
-/

namespace CsPrimer.RingBuffer

open Foundation

variable {T V : Type}

/-- Calls are seen, and so are the last statements of put and take, which
return. -/
def shows (s : System T V) : Event T V → Option (Interaction T (QueueOp V) (Option V))
  | .call t op => some (.call t op)
  | .advance t =>
      match s.pc t with
      | .putPost => some (.ret t none)
      | .takePost e => some (.ret t (some e))
      | _ => none

variable [Fintype T] [DecidableEq T] {variant : Variant} {cap initial : Nat}
  {s next : System T V} {t : T}

theorem Balanced.advance_implements (h : Balanced variant cap initial s)
    (hnext : RingBuffer.advance variant.api s t = some next) :
    QueueSystem.Implements cap s next (shows s (.advance t)) := by
  cases hpc : s.pc t with
  | idle => simp [RingBuffer.advance, hpc] at hnext
  | putStore e =>
      simp only [RingBuffer.advance, hpc, Option.some.injEq] at hnext
      subst hnext
      simp only [shows, hpc]
      exact Atomic.follows_act hpc rfl rfl (h.log.put_queued (h.room hpc) _ e)
  | takeLoad =>
      simp only [RingBuffer.advance, hpc, Option.some.injEq] at hnext
      subst hnext
      simp only [shows, hpc]
      have hhead := (h.head_slot hpc).2
      refine Atomic.follows_act hpc rfl rfl (h.log.take_queued (h.pending hpc) ?_)
      rw [hhead]
  | putPost | takePost e =>
      simp only [RingBuffer.advance, hpc, Option.some.injEq] at hnext
      subst hnext
      simp only [shows, hpc]
      exact Atomic.follows_ret hpc rfl rfl
  | putWait e | putLock e | takeWait | takeLock =>
      simp only [RingBuffer.advance, hpc] at hnext
      split at hnext <;> cases hnext
      simp only [shows, hpc]
      exact Atomic.follows_inside hpc rfl
  | putAdvance | putUnlock | takeAdvance e | takeUnlock e =>
      simp only [RingBuffer.advance, hpc, Option.some.injEq] at hnext
      subst hnext
      simp only [shows, hpc]
      exact Atomic.follows_inside hpc rfl

theorem Balanced.implements {event : Event T V} (h : Balanced variant cap initial s)
    (hnext : RingBuffer.step variant s event = some next) :
    QueueSystem.Implements cap s next (shows s event) := by
  cases event with
  | advance t => exact h.advance_implements hnext
  | call t op =>
      simp only [RingBuffer.step] at hnext
      split at hnext
      · rename_i hpc
        cases hnext
        apply Atomic.follows_call hpc rfl
        cases op <;> rfl
      · cases hnext

omit [Fintype T] [DecidableEq T] in
theorem atomic_start (junk : Junk V) :
    (start variant junk cap : System T V).atomic = Atomic.start [] := rfl

/-- For every capacity that the space semaphore is initialised with, any number
of threads and every interleaving: what is seen of a queue, the calls and the
values returned, can be seen of the bounded queue that serves one operation at a
time. -/
theorem blocking_queue_linearizable (variant : Variant) (junk : Junk V) (capacity : Nat)
    (hinit : variant.Initialises capacity) :
    Traces (step variant) shows (start variant junk capacity : System T V) ⊆
      Traces (Atomic.step (boundedFifo capacity)) Atomic.shows (Atomic.start []) := by
  refine traces_subset (fun s atomic =>
    Balanced variant capacity (variant.api.initial junk.semSpace.toNat capacity) s ∧
      atomic = s.atomic) ?_ ⟨start_balanced hinit, (atomic_start junk).symm⟩
  rintro s _ event next ⟨hbalanced, rfl⟩ hnext
  exact (hbalanced.implements hnext).imp fun _ hatomic => ⟨hbalanced.step hnext, hatomic⟩

theorem one_slot_linearizable :
    Traces (step .posix) shows (start .posix ⟨fun _ => 0, 0⟩ 1 : System (Fin 2) Nat) ⊆
      Traces (Atomic.step (boundedFifo 1)) Atomic.shows (Atomic.start []) :=
  blocking_queue_linearizable .posix ⟨fun _ => 0, 0⟩ 1 (by decide)

section Semop

/-- A `semop` that fails is seen as little as one that does not. -/
def semopShows (s : System T V) :
    SemopEvent T V → Option (Interaction T (QueueOp V) (Option V))
  | .event event => shows s event
  | .interrupted t => shows s (.advance t)

variable {s' : System T V}

omit [Fintype T] [DecidableEq T] in
/-- Semaphores are not seen. -/
theorem Below.shows_eq (h : Below s s') (event : Event T V) : shows s event = shows s' event := by
  obtain ⟨element, _, space, _, rfl⟩ := h
  rfl

omit [Fintype T] in
/-- A step without a failed wait is one of the queue without failures. -/
theorem Below.exists_step {event : SemopEvent T V} (h : Below s s')
    (hwait : waitFails s event = false) (hnext : RingBuffer.semopStep s event = some next) :
    ∃ event' next', RingBuffer.step .sysv s' event' = some next' ∧ Below next next' ∧
      semopShows s event = shows s' event' := by
  cases event with
  | interrupted t =>
      obtain ⟨next', hadvance, hbelow⟩ := h.interrupted hwait hnext
      exact ⟨.advance t, next', hadvance, hbelow, h.shows_eq (.advance t)⟩
  | event event =>
      refine ⟨event, ?_⟩
      cases event with
      | advance t =>
          obtain ⟨next', hadvance, hbelow⟩ := h.advance hnext
          exact ⟨next', hadvance, hbelow, h.shows_eq (.advance t)⟩
      | call t op =>
          obtain ⟨element, helement, space, hspace, rfl⟩ := h
          simp only [RingBuffer.semopStep, RingBuffer.step, withSemaphores] at hnext
          split at hnext
          · rename_i hpc
            cases hnext
            refine ⟨s'.goto t op.entry s'.queue s'.history, ?_,
              ⟨element, helement, space, hspace, rfl⟩, rfl⟩
            simp only [RingBuffer.step, hpc]
          · cases hnext

/-- The System V queue when `semop` may fail: as long as no wait fails, what
is seen of a run can be seen of the bounded queue. -/
theorem sysv_linearizable (junk : Junk V) (capacity : Nat) (events : List (SemopEvent T V))
    (s : System T V) (hrun : runEvents semopStep (start .sysv junk capacity) events = some s)
    (hwaits : EachStep semopStep (fun s event => waitFails s event = false)
      (start .sysv junk capacity) events) :
    observed semopStep semopShows (start .sysv junk capacity) events ∈
      Traces (Atomic.step (boundedFifo capacity)) Atomic.shows
        (Atomic.start [] : Atomic T (List V) (QueueOp V) (Option V)) := by
  have hbelow : Below (start .sysv junk capacity : System T V)
      (start .sysv junk capacity) := ⟨_, le_rfl, _, le_rfl, rfl⟩
  have hbalanced : Balanced .sysv capacity (semctlSetval capacity)
      (start .sysv junk capacity : System T V) := start_balanced trivial
  let related (s : System T V) (atomic : Atomic T (List V) (QueueOp V) (Option V)) : Prop :=
    ∃ s', Below s s' ∧ Balanced .sysv capacity (semctlSetval capacity) s' ∧ atomic = s'.atomic
  have hfollow : ∀ s atomic event next, related s atomic → waitFails s event = false →
      semopStep s event = some next →
      Follows (Atomic.step (boundedFifo capacity)) Atomic.shows (related next)
        (semopShows s event) atomic := by
    rintro s _ event next ⟨s', hbelow, hbalanced, rfl⟩ hwait hnext
    obtain ⟨event', next', hnext', hbelow', hshows⟩ := hbelow.exists_step hwait hnext
    rw [hshows]
    exact (hbalanced.implements hnext').imp
      fun _ hatomic => ⟨next', hbelow', hbalanced.step hnext', hatomic⟩
  obtain ⟨acts, atomic, hacts, htrace, -⟩ :=
    exists_followed related hfollow ⟨_, hbelow, hbalanced, rfl⟩ hrun hwaits
  exact ⟨acts, atomic, hacts, htrace⟩

/-- A failed post is not seen. -/
theorem failed_post_run_linearizable :
    [.call () (.put 7), .ret () none, .call () .take] ∈
      Traces (Atomic.step (boundedFifo 1)) Atomic.shows
        (Atomic.start [] : Atomic Unit (List Nat) (QueueOp Nat) (Option Nat)) :=
  sysv_linearizable ⟨fun _ => 0, 0⟩ 1 failedPostRun _
    (Option.some_get failed_post_run_enabled).symm (by decide)

end Semop

end CsPrimer.RingBuffer
