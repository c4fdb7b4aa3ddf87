import CsPrimer.SharedMemoryStream.CrashSafety

/-!
What a death costs. The robust mutexes are recovered, but nobody gives back
the token that a process took from a semaphore before it died. Every death
between a wait and the post after it lowers the sum of both semaphores by one,
for good.
-/

namespace CsPrimer.SharedMemoryStream

open Foundation

variable {P V : Type} {cap initial lost : Nat} {s next : System P V} {p : P}
  {old point : Point V}

/-- Tokens a process holds: one from its wait to its post. -/
def held : Point V → Nat
  | .idle | .putWait _ | .takeWait | .dead => 0
  | _ => 1

def tokensLost (s : System P V) : Event P V → Nat
  | .die p => held (s.pc p)
  | _ => 0

variable [Fintype P]

structure Accounted (cap initial lost : Nat) (s : System P V) : Prop where
  bounded : Bounded cap s
  initial_le : initial ≤ semValueMax
  initial_le_cap : initial ≤ cap
  sum : s.queue.semSpace + s.queue.semElement + tokens held s.pc + lost = initial

theorem start_accounted {platform : Platform} {zero : V} {queue : ShmBlockingQueue P V}
    (hinit : shmBlockingQueueInit platform zero cap = some queue) :
    Accounted cap (cap % 2 ^ 32) 0 (start queue) := by
  have hbounded := start_bounded hinit
  obtain ⟨hle, rfl⟩ := init_cases hinit
  have hheld : tokens held (fun _ : P => (.idle : Point V)) = 0 :=
    tokens_eq_zero (fun _ => rfl)
  refine ⟨hbounded, hle, Nat.mod_le _ _, ?_⟩
  simp only [start, hheld]
  omega

variable [DecidableEq P]

/-- A step to `point` keeps the account if it moves tokens between the process
and the semaphores only. -/
theorem Accounted.goto (h : Accounted cap initial lost s) (hpc : s.pc p = old)
    {queue : ShmBlockingQueue P V} {history : History V} {cost : Nat}
    (hbounded : Bounded cap (s.goto p point queue history))
    (hsum : queue.semSpace + queue.semElement + held point + cost =
      s.queue.semSpace + s.queue.semElement + held old) :
    Accounted cap initial (lost + cost) (s.goto p point queue history) := by
  refine ⟨hbounded, h.initial_le, h.initial_le_cap, ?_⟩
  have hmoved := tokens_update held hpc point
  have hbefore := h.sum
  simp only [QueueSystem.goto]
  omega

/-- A step that loses no token. -/
theorem Accounted.keep (h : Accounted cap initial lost s) (hpc : s.pc p = old)
    {queue : ShmBlockingQueue P V} {history : History V}
    (hbounded : Bounded cap (s.goto p point queue history))
    (hsum : queue.semSpace + queue.semElement + held point =
      s.queue.semSpace + s.queue.semElement + held old) :
    Accounted cap initial lost (s.goto p point queue history) := by
  have hfree : Accounted cap initial (lost + 0) (s.goto p point queue history) :=
    h.goto hpc hbounded (by omega)
  exact hfree

omit [DecidableEq P] in
/-- Before a post the semaphore is below its greatest value. -/
theorem Accounted.post_ne_none (h : Accounted cap initial lost s)
    (hpc : s.pc p = old) (hheld : held old = 1) {value : Nat}
    (hvalue : value ≤ s.queue.semSpace + s.queue.semElement) :
    semPost value ≠ none := by
  have hle := weight_le_tokens held hpc
  have hsum := h.sum
  have hinitial := h.initial_le
  unfold semPost
  rw [if_pos (by omega)]
  simp

/-- No call fails inside `exit_err_on`: the mutexes are in the right hands,
and the semaphores never hold more than there was at the start. -/
theorem Accounted.not_callFails (h : Accounted cap initial lost s) : ¬ CallFails s p := by
  intro hfails
  unfold CallFails at hfails
  cases hpc : s.pc p <;> simp only [hpc] at hfails
  case putConsistent =>
    exact h.bounded.tail_mutex.makeConsistent_ne_none hpc rfl rfl hfails
  case putUnlock => exact h.bounded.tail_mutex.unlock_ne_none hpc rfl hfails
  case putPost => exact h.post_ne_none hpc rfl (Nat.le_add_left _ _) hfails
  case takeConsistent =>
    exact h.bounded.head_mutex.makeConsistent_ne_none hpc rfl rfl hfails
  case takeUnlock => exact h.bounded.head_mutex.unlock_ne_none hpc rfl hfails
  case takePost => exact h.post_ne_none hpc rfl (Nat.le_add_right _ _) hfails

/-- Every statement keeps the account, since only `die` ends a process. -/
theorem Accounted.advance (h : Accounted cap initial lost s)
    (hnext : advance s p = some next) : Accounted cap initial lost next := by
  have hbounded := h.bounded.advance hnext
  cases statement_of_advance hnext with
  | fails hfails => exact absurd hfails h.not_callFails
  | putWait hpc hwait | takeWait hpc hwait =>
      apply h.keep hpc hbounded
      rw [semWait_eq hwait]
      simp only [held]
      omega
  | @putLock _ result _ hpc _ | @takeLock result _ hpc _ =>
      apply h.keep hpc hbounded
      cases result <;> rfl
  | putPost hpc hpost | takePost hpc hpost =>
      apply h.keep hpc hbounded
      rw [semPost_eq hpost]
      simp only [held]
      omega
  | putConsistent hpc _ | putUnlock hpc _ | takeConsistent hpc _ | takeUnlock hpc _ =>
      exact h.keep hpc hbounded rfl
  | putStore hpc | putAdvance hpc | takeLoad hpc | takeAdvance hpc =>
      exact h.keep hpc hbounded rfl

/-- Every event brings the account forward by the tokens it loses. -/
theorem Accounted.step {event : Event P V} (h : Accounted cap initial lost s)
    (hnext : step s event = some next) :
    Accounted cap initial (lost + tokensLost s event) next := by
  have hbounded := h.bounded.step hnext
  cases event with
  | advance p => exact h.advance hnext
  | die p =>
      simp only [SharedMemoryStream.step] at hnext
      split at hnext
      · cases hnext
      · cases hnext
        apply h.goto rfl hbounded
        simp only [tokensLost, held]
        omega
  | call p op =>
      simp only [SharedMemoryStream.step] at hnext
      split at hnext
      · rename_i hpc
        cases hnext
        apply h.keep hpc hbounded
        cases op <;> rfl
      · cases hnext

omit [DecidableEq P] in
/-- With no process in put or take the semaphores are as they should be
exactly if nothing has been lost and the capacity was taken over in full. -/
theorem Accounted.exact_iff (h : Accounted cap initial lost s)
    (hquiet : ∀ p, s.pc p = .idle ∨ s.pc p = .dead) :
    (s.queue.semSpace + s.queue.semElement = cap ∧
      s.queue.semElement = s.history.pending) ↔
      initial = cap ∧ lost = 0 := by
  have hheld : tokens held s.pc = 0 := by
    apply tokens_eq_zero
    intro p
    rcases hquiet p with hpc | hpc <;> rw [hpc] <;> rfl
  have hsum := h.sum
  have hspace := h.bounded.space
  have helement := h.bounded.element
  have hinitial := h.initial_le_cap
  simp only [History.pending]
  omega

omit [Fintype P] [DecidableEq P] in
/-- An initialised queue has its capacity in range of the semaphore, or cut
down to 32 bits. -/
theorem initial_eq_iff {platform : Platform} {zero : V} {queue : ShmBlockingQueue P V}
    (hinit : shmBlockingQueueInit platform zero cap = some queue) :
    cap % 2 ^ 32 = cap ↔ cap ≤ semValueMax := by
  have hle := (init_cases hinit).1
  unfold semValueMax at *
  omega

/-- In every run, with deaths at any point, whenever no live process is in put
or take: the semaphores are exact if and only if the capacity fits the
semaphore and no process died between its wait and its post. -/
theorem recovered_state_exact_iff (platform : Platform) (zero : V) (capacity : Nat)
    (queue : ShmBlockingQueue P V)
    (hinit : shmBlockingQueueInit platform zero capacity = some queue)
    (events : List (Event P V)) (s : System P V)
    (hrun : runEvents step (start queue) events = some s)
    (hquiet : ∀ p, s.pc p = .idle ∨ s.pc p = .dead) :
    (s.queue.semSpace + s.queue.semElement = capacity ∧
      s.queue.semElement = s.history.pending) ↔
      capacity ≤ semValueMax ∧
        EachStep step (fun s event => tokensLost s event = 0) (start queue)
          events := by
  have haccounted : Accounted capacity (capacity % 2 ^ 32)
      (0 + runTotal step tokensLost (start queue) events) s :=
    runTotal_invariant (fun _ _ _ _ h hnext => h.step hnext)
      (start_accounted hinit) hrun
  rw [haccounted.exact_iff hquiet, initial_eq_iff hinit, Nat.zero_add,
    runTotal_eq_zero_iff hrun]

/-- The only process dies after its wait for a space. -/
def deathAfterWait : List (Event Unit Nat) :=
  [.call () (.put 7), .advance (), .die ()]

theorem one_slot_init :
    (shmBlockingQueueInit linux64 0 1 : Option (ShmBlockingQueue Unit Nat)).isSome := by
  decide

theorem death_after_wait_enabled :
    (runEvents step (start ((shmBlockingQueueInit linux64 0 1).get one_slot_init))
      deathAfterWait).isSome := by
  decide

def afterDeath : System Unit Nat :=
  (runEvents step (start ((shmBlockingQueueInit linux64 0 1).get one_slot_init))
    deathAfterWait).get death_after_wait_enabled

theorem death_after_wait_exact_iff :
    (afterDeath.queue.semSpace + afterDeath.queue.semElement = 1 ∧
      afterDeath.queue.semElement = afterDeath.history.pending) ↔
      1 ≤ semValueMax ∧
        EachStep step (fun s event => tokensLost s event = 0)
          (start ((shmBlockingQueueInit linux64 0 1).get one_slot_init))
          deathAfterWait :=
  recovered_state_exact_iff linux64 0 1 _ (Option.some_get one_slot_init).symm
    deathAfterWait afterDeath (Option.some_get death_after_wait_enabled).symm
    (by decide)

/-- Nobody is left in put, the queue is empty, and its one space is gone. -/
theorem death_after_wait_loses_space :
    (∀ p, afterDeath.pc p = .idle ∨ afterDeath.pc p = .dead) ∧
      afterDeath.queue.semSpace + afterDeath.queue.semElement ≠ 1 :=
  ⟨by decide, by decide⟩

end CsPrimer.SharedMemoryStream
