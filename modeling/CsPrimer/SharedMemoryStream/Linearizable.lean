import CsPrimer.SharedMemoryStream.CrashSafety

/-!
The shared queue against the bounded queue whose operations take effect at
once, with processes that die. An operation takes effect when it moves its
index: what a dead process has begun is done if it got past that statement,
and has never happened if it did not.
-/

namespace CsPrimer.SharedMemoryStream

open Foundation

variable {P V : Type}

variable [DecidableEq P]

omit [DecidableEq P] in
def Point.returns (p : P) : Point V → Option (Interaction P (QueueOp V) (Option V))
  | .putPost => some (.ret p none)
  | .takePost e => some (.ret p (some e))
  | _ => none

/-- Calls, returns and deaths are seen, the exit of a process whose call fails
among them. -/
def shows (s : System P V) : Event P V → Option (Interaction P (QueueOp V) (Option V))
  | .call p op => some (.call p op)
  | .die p => some (.crash p)
  | .advance p =>
      match advance s p with
      | none => none
      | some next =>
          match next.pc p with
          | .dead => some (.crash p)
          | _ => (s.pc p).returns p

variable {cap : Nat} {s next : System P V} {p : P} {old point : Point V}

omit [DecidableEq P] in
theorem phase_ne_crashed (halive : point ≠ .dead) : phase point ≠ .crashed := by
  intro hphase
  cases point <;> first | exact halive rfl | cases hphase

theorem implements_die (halive : s.pc p ≠ .dead) :
    QueueSystem.Implements cap s (s.die p) (some (.crash p)) :=
  Atomic.follows_crash rfl (phase_ne_crashed halive) rfl

theorem CallFails.alive (h : CallFails s p) : s.pc p ≠ .dead := by
  intro hdead
  simp [CallFails, hdead] at h

/-- What is seen of a statement after which the process is alive. -/
theorem shows_of_alive (hnext : advance s p = some next) (hpoint : next.pc p = point)
    (halive : point ≠ .dead) :
    shows s (.advance p) = (s.pc p).returns p := by
  simp only [shows, hnext, hpoint]

variable [Fintype P]

theorem Bounded.advance_implements (h : Bounded cap s)
    (hnext : SharedMemoryStream.advance s p = some next) :
    QueueSystem.Implements cap s next (shows s (.advance p)) := by
  cases statement_of_advance hnext with
  | fails hfails =>
      have hshows : shows s (.advance p) = some (.crash p) := by
        simp [shows, hnext, System.die, QueueSystem.goto]
      rw [hshows]
      exact implements_die hfails.alive
  | putWait hpc _ | putConsistent hpc _ | putStore hpc | putUnlock hpc _ | takeWait hpc _
  | takeConsistent hpc _ | takeLoad hpc | takeUnlock hpc _ =>
      rw [shows_of_alive hnext (Function.update_self ..) (by simp), hpc]
      exact Atomic.follows_inside hpc rfl
  | @putLock _ result _ hpc _ | @takeLock result _ hpc _ =>
      rw [shows_of_alive hnext (Function.update_self ..) (by cases result <;> simp [afterLock]),
        hpc]
      exact Atomic.follows_inside hpc (by cases result <;> rfl)
  | putAdvance hpc =>
      rw [shows_of_alive hnext (Function.update_self ..) (by simp), hpc]
      exact Atomic.follows_act hpc rfl rfl (h.log.put_queued (h.room hpc rfl) _ _)
  | takeAdvance hpc =>
      have hvalue := h.loaded p _ hpc
      rw [h.head_eq] at hvalue
      rw [shows_of_alive hnext (Function.update_self ..) (by simp), hpc]
      exact Atomic.follows_act hpc rfl rfl (h.log.take_queued (h.pending hpc rfl) hvalue)
  | putPost hpc _ | takePost hpc _ =>
      rw [shows_of_alive hnext (Function.update_self ..) (by simp), hpc]
      exact Atomic.follows_ret hpc rfl rfl

theorem Bounded.implements {event : Event P V} (h : Bounded cap s)
    (hnext : SharedMemoryStream.step s event = some next) :
    QueueSystem.Implements cap s next (shows s event) := by
  cases event with
  | advance p => exact h.advance_implements hnext
  | die p =>
      simp only [SharedMemoryStream.step] at hnext
      split at hnext
      · cases hnext
      · rename_i halive
        cases hnext
        exact implements_die halive
  | call p op =>
      simp only [SharedMemoryStream.step] at hnext
      split at hnext
      · rename_i hpc
        cases hnext
        apply Atomic.follows_call hpc rfl
        cases op <;> rfl
      · cases hnext

/-- For every capacity, any number of processes, every interleaving of their
statements and deaths at any point: what is seen of the queue can be seen of
the bounded queue that serves one operation at a time. -/
theorem shm_blocking_queue_linearizable (platform : Platform) (zero : V) (capacity : Nat)
    (queue : ShmBlockingQueue P V)
    (hinit : shmBlockingQueueInit platform zero capacity = some queue) :
    Traces step shows (start queue) ⊆
      Traces (Atomic.step (boundedFifo capacity)) Atomic.shows (Atomic.start []) := by
  have hstart : (start queue).atomic = Atomic.start [] := rfl
  refine traces_subset (fun s atomic => Bounded capacity s ∧ atomic = s.atomic) ?_
    ⟨start_bounded hinit, hstart.symm⟩
  rintro s _ event next ⟨hbounded, rfl⟩ hnext
  exact (hbounded.implements hnext).imp fun _ hatomic => ⟨hbounded.step hnext, hatomic⟩

theorem two_slots_linearizable :
    Traces step shows (start ((shmBlockingQueueInit linux64 0 2 :
        Option (ShmBlockingQueue (Fin 3) Nat)).get two_slots_init)) ⊆
      Traces (Atomic.step (boundedFifo 2)) Atomic.shows (Atomic.start []) :=
  shm_blocking_queue_linearizable linux64 0 2 _ (Option.some_get two_slots_init).symm

end CsPrimer.SharedMemoryStream
