import CsPrimer.SharedMemoryStream.ShmBlockingQueue

/-!
The shared queue stays first-in first-out when processes die. A death loses at
most tokens: the exact balance of the semaphores becomes two inequalities, in
which a process past its wait still holds a space or an element until it posts
or dies. Both indices are moved last and under their mutexes, so a mutex
recovered from a dead process protects a log in a consistent state.
-/

namespace CsPrimer.SharedMemoryStream

open Foundation

variable {P V : Type} {cap : Nat} {s next : System P V} {p : P}
  {old point : Point V}

def recoversTail : Point V → Bool
  | .putConsistent _ => true
  | _ => false

def recoversHead : Point V → Bool
  | .takeConsistent => true
  | _ => false

structure Bounded [Fintype P] (cap : Nat) (s : System P V) : Prop where
  capacity_eq : s.queue.capacity = cap
  space : s.queue.semSpace + tokens spaceHeld s.pc + s.history.puts.length ≤
    cap + s.history.takes.length
  element : s.queue.semElement + tokens elementHeld s.pc +
    s.history.takes.length ≤ s.history.puts.length
  tail_eq : s.queue.tail = s.history.puts.length % cap
  head_eq : s.queue.head = s.history.takes.length % cap
  tail_mutex : Guarded inTail recoversTail s.pc s.queue.mutexTail
  head_mutex : Guarded inHead recoversHead s.pc s.queue.mutexHead
  stored : ∀ p e, s.pc p = .putAdvance e → s.queue.slots s.queue.tail = e
  loaded : ∀ p e, s.pc p = .takeAdvance e → s.queue.slots s.queue.head = e
  log : Consistent cap s.queue.slots s.history

variable [Fintype P]

theorem start_bounded {platform : Platform} {zero : V} {queue : ShmBlockingQueue P V}
    (hinit : shmBlockingQueueInit platform zero cap = some queue) :
    Bounded cap (start queue) := by
  obtain ⟨-, rfl⟩ := init_cases hinit
  have hspace := Nat.mod_le cap (2 ^ 32)
  have hspaceHeld : tokens spaceHeld (fun _ : P => (.idle : Point V)) = 0 :=
    tokens_eq_zero (fun _ => rfl)
  have helementHeld : tokens elementHeld (fun _ : P => (.idle : Point V)) = 0 :=
    tokens_eq_zero (fun _ => rfl)
  exact {
    capacity_eq := rfl
    space := by
      simp only [start, History.empty, hspaceHeld, List.length_nil]
      omega
    element := by
      simp only [start, History.empty, helementHeld, List.length_nil]
      omega
    tail_eq := (Nat.zero_mod cap).symm
    head_eq := (Nat.zero_mod cap).symm
    tail_mutex := .init fun _ => rfl
    head_mutex := .init fun _ => rfl
    stored := by
      intro p e hpc
      cases hpc
    loaded := by
      intro p e hpc
      cases hpc
    log := Consistent.empty _ _ }

/-- A process about to store, or about to commit, holds a space. -/
theorem Bounded.room (h : Bounded cap s) (hpc : s.pc p = old)
    (hheld : spaceHeld old = 1) :
    s.history.puts.length < s.history.takes.length + cap := by
  have hle := weight_le_tokens spaceHeld hpc
  have hspace := h.space
  omega

/-- A process about to load, or about to commit, holds an element. -/
theorem Bounded.pending (h : Bounded cap s) (hpc : s.pc p = old)
    (hheld : elementHeld old = 1) :
    s.history.takes.length < s.history.puts.length := by
  have hle := weight_le_tokens elementHeld hpc
  have helement := h.element
  omega

theorem Bounded.tail_free (h : Bounded cap s) (hpc : s.pc p = old)
    (hheld : spaceHeld old = 1) :
    s.history.unread s.queue.tail = false := by
  rw [h.tail_eq]
  exact h.log.next_slot_free (h.room hpc hheld)

theorem Bounded.head_full (h : Bounded cap s) (hpc : s.pc p = old)
    (hheld : elementHeld old = 1) :
    s.history.unread s.queue.head = true := by
  rw [h.head_eq]
  exact h.log.next_slot_full (h.pending hpc hheld)

/-- Nobody else commits while a process is in its section. -/
theorem Bounded.alone_at_tail (h : Bounded cap s) {other : P} {e : V}
    (hpc : s.pc p = old) (hinside : inTail old = true)
    (hother : s.pc other = .putAdvance e) : other = p :=
  h.tail_mutex.owned.unique hother hpc rfl hinside

theorem Bounded.alone_at_head (h : Bounded cap s) {other : P} {e : V}
    (hpc : s.pc p = old) (hinside : inHead old = true)
    (hother : s.pc other = .takeAdvance e) : other = p :=
  h.head_mutex.owned.unique hother hpc rfl hinside

variable [DecidableEq P]

/-- What a step of process `p` to `point` owes for the bounds to be kept. -/
theorem Bounded.goto (h : Bounded cap s) (hpc : s.pc p = old)
    {queue : ShmBlockingQueue P V} {history : History V}
    (hcap : queue.capacity = s.queue.capacity)
    (hspace : queue.semSpace + spaceHeld point + history.puts.length +
        s.history.takes.length ≤
      s.queue.semSpace + spaceHeld old + s.history.puts.length +
        history.takes.length)
    (helement : queue.semElement + elementHeld point + history.takes.length +
        s.history.puts.length ≤
      s.queue.semElement + elementHeld old + s.history.takes.length +
        history.puts.length)
    (htail : queue.tail = history.puts.length % cap)
    (hhead : queue.head = history.takes.length % cap)
    (htailMutex : Guarded inTail recoversTail (Function.update s.pc p point)
      queue.mutexTail)
    (hheadMutex : Guarded inHead recoversHead (Function.update s.pc p point)
      queue.mutexHead)
    (hstored : ∀ other e, Function.update s.pc p point other = .putAdvance e →
      queue.slots queue.tail = e)
    (hloaded : ∀ other e, Function.update s.pc p point other = .takeAdvance e →
      queue.slots queue.head = e)
    (hlog : Consistent cap queue.slots history) :
    Bounded cap (s.goto p point queue history) := by
  have hspaceMoved := tokens_update spaceHeld hpc point
  have helementMoved := tokens_update elementHeld hpc point
  have hspaceBefore := h.space
  have helementBefore := h.element
  refine ⟨hcap.trans h.capacity_eq, ?_, ?_, htail, hhead, htailMutex,
    hheadMutex, hstored, hloaded, hlog⟩
  · simp only [QueueSystem.goto]
    omega
  · simp only [QueueSystem.goto]
    omega

/-- A step that touches neither index, nor the slots, nor the history. -/
theorem Bounded.goto_outside (h : Bounded cap s) (hpc : s.pc p = old)
    {queue : ShmBlockingQueue P V}
    (hcap : queue.capacity = s.queue.capacity)
    (hslots : queue.slots = s.queue.slots)
    (htail : queue.tail = s.queue.tail) (hhead : queue.head = s.queue.head)
    (hspace : queue.semSpace + spaceHeld point ≤
      s.queue.semSpace + spaceHeld old)
    (helement : queue.semElement + elementHeld point ≤
      s.queue.semElement + elementHeld old)
    (htailMutex : Guarded inTail recoversTail (Function.update s.pc p point)
      queue.mutexTail)
    (hheadMutex : Guarded inHead recoversHead (Function.update s.pc p point)
      queue.mutexHead)
    (hstored : ∀ e, point ≠ .putAdvance e)
    (hloaded : ∀ e, point = .takeAdvance e →
      s.queue.slots s.queue.head = e) :
    Bounded cap (s.goto p point queue s.history) := by
  apply h.goto hpc hcap (by omega) (by omega) (htail.trans h.tail_eq)
    (hhead.trans h.head_eq) htailMutex hheadMutex ?_ ?_ (hslots ▸ h.log)
  · intro other e hother
    rw [hslots, htail]
    rcases eq_or_ne other p with rfl | hne
    · rw [Function.update_self] at hother
      exact absurd hother (hstored e)
    · rw [Function.update_of_ne hne] at hother
      exact h.stored other e hother
  · intro other e hother
    rw [hslots, hhead]
    rcases eq_or_ne other p with rfl | hne
    · rw [Function.update_self] at hother
      exact hloaded e hother
    · rw [Function.update_of_ne hne] at hother
      exact h.loaded other e hother

/-- A step that moves at most the semaphores. -/
theorem Bounded.goto_semaphores (h : Bounded cap s) (hpc : s.pc p = old)
    {semSpace semElement : Nat}
    (hspace : semSpace + spaceHeld point ≤ s.queue.semSpace + spaceHeld old)
    (helement : semElement + elementHeld point ≤
      s.queue.semElement + elementHeld old)
    (htail : inTail point = inTail old ∧ recoversTail point = recoversTail old)
    (hhead : inHead point = inHead old ∧ recoversHead point = recoversHead old)
    (hstored : ∀ e, point ≠ .putAdvance e)
    (hloaded : ∀ e, point = .takeAdvance e →
      s.queue.slots s.queue.head = e) :
    Bounded cap (s.goto p point
      { s.queue with semSpace := semSpace, semElement := semElement }
      s.history) := by
  apply h.goto_outside hpc
  · rfl
  · rfl
  · rfl
  · rfl
  · exact hspace
  · exact helement
  · exact h.tail_mutex.keep hpc htail.1 htail.2
  · exact h.head_mutex.keep hpc hhead.1 hhead.2
  · exact hstored
  · exact hloaded

/-- A step that moves `mutex_tail` only. -/
theorem Bounded.goto_mutexTail (h : Bounded cap s) (hpc : s.pc p = old)
    {mutexTail : RobustMutex P}
    (hheld : spaceHeld point = spaceHeld old ∧
      elementHeld point = elementHeld old)
    (htailMutex : Guarded inTail recoversTail (Function.update s.pc p point)
      mutexTail)
    (hhead : inHead point = inHead old ∧ recoversHead point = recoversHead old)
    (hstored : ∀ e, point ≠ .putAdvance e)
    (hloaded : ∀ e, point ≠ .takeAdvance e) :
    Bounded cap (s.goto p point { s.queue with mutexTail := mutexTail }
      s.history) := by
  apply h.goto_outside hpc
  · rfl
  · rfl
  · rfl
  · rfl
  · exact Nat.add_le_add_left hheld.1.le _
  · exact Nat.add_le_add_left hheld.2.le _
  · exact htailMutex
  · exact h.head_mutex.keep hpc hhead.1 hhead.2
  · exact hstored
  · exact fun e hpoint => absurd hpoint (hloaded e)

theorem Bounded.goto_mutexHead (h : Bounded cap s) (hpc : s.pc p = old)
    {mutexHead : RobustMutex P}
    (hheld : spaceHeld point = spaceHeld old ∧
      elementHeld point = elementHeld old)
    (hheadMutex : Guarded inHead recoversHead (Function.update s.pc p point)
      mutexHead)
    (htail : inTail point = inTail old ∧ recoversTail point = recoversTail old)
    (hstored : ∀ e, point ≠ .putAdvance e)
    (hloaded : ∀ e, point ≠ .takeAdvance e) :
    Bounded cap (s.goto p point { s.queue with mutexHead := mutexHead }
      s.history) := by
  apply h.goto_outside hpc
  · rfl
  · rfl
  · rfl
  · rfl
  · exact Nat.add_le_add_left hheld.1.le _
  · exact Nat.add_le_add_left hheld.2.le _
  · exact h.tail_mutex.keep hpc htail.1 htail.2
  · exact hheadMutex
  · exact hstored
  · exact fun e hpoint => absurd hpoint (hloaded e)

theorem Bounded.die (h : Bounded cap s) (p : P) : Bounded cap (s.die p) := by
  apply h.goto_outside rfl
  · rfl
  · rfl
  · rfl
  · rfl
  · exact Nat.add_le_add_left (Nat.zero_le _) _
  · exact Nat.add_le_add_left (Nat.zero_le _) _
  · exact h.tail_mutex.die rfl
  · exact h.head_mutex.die rfl
  · intro e hdead
    cases hdead
  · intro e hdead
    cases hdead

theorem Bounded.store (h : Bounded cap s) {e : V}
    (hpc : s.pc p = .putStore e) :
    Bounded cap (s.goto p (.putAdvance e)
      { s.queue with slots := Function.update s.queue.slots s.queue.tail e }
      s.history) := by
  have hfree := h.tail_free hpc rfl
  apply h.goto hpc
  · rfl
  · simp [spaceHeld, QueuePoint.stage, Point.stage, Stage.spaceHeld]
  · simp [elementHeld, QueuePoint.stage, Point.stage, Stage.elementHeld]
  · exact h.tail_eq
  · exact h.head_eq
  · exact h.tail_mutex.keep hpc rfl rfl
  · exact h.head_mutex.keep hpc rfl rfl
  · intro other e' hother
    rcases eq_or_ne other p with rfl | hne
    · rw [Function.update_self] at hother
      cases hother
      exact Function.update_self ..
    · rw [Function.update_of_ne hne] at hother
      exact absurd (h.alone_at_tail hpc rfl hother) hne
  · intro other e' hother
    rcases eq_or_ne other p with rfl | hne
    · rw [Function.update_self] at hother
      cases hother
    · -- a value waiting to be committed keeps its slot unread
      rw [Function.update_of_ne hne] at hother
      have hfull := h.head_full hother rfl
      have hdiffer : s.queue.head ≠ s.queue.tail := by
        intro heq
        rw [heq, hfree] at hfull
        cases hfull
      show Function.update s.queue.slots s.queue.tail e s.queue.head = e'
      rw [Function.update_of_ne hdiffer]
      exact h.loaded other e' hother
  · exact h.log.store hfree e

theorem Bounded.advance_tail (h : Bounded cap s) {e : V}
    (hpc : s.pc p = .putAdvance e) :
    Bounded cap (s.goto p .putUnlock
      { s.queue with tail := (s.queue.tail + 1) % s.queue.capacity }
      (s.history.put s.queue.tail e)) := by
  have hroom := h.room hpc rfl
  have hvalue := h.stored p e hpc
  apply h.goto hpc
  · rfl
  · simp only [History.put, List.length_append, List.length_singleton, spaceHeld,
      QueuePoint.stage, Point.stage, Stage.spaceHeld]
    omega
  · simp only [History.put, List.length_append, List.length_singleton, elementHeld,
      QueuePoint.stage, Point.stage, Stage.elementHeld]
    omega
  · simp only [History.put, List.length_append, List.length_singleton]
    rw [h.capacity_eq, h.tail_eq, Nat.mod_add_mod]
  · exact h.head_eq
  · exact h.tail_mutex.keep hpc rfl rfl
  · exact h.head_mutex.keep hpc rfl rfl
  · intro other e' hother
    rcases eq_or_ne other p with rfl | hne
    · rw [Function.update_self] at hother
      cases hother
    · rw [Function.update_of_ne hne] at hother
      exact absurd (h.alone_at_tail hpc rfl hother) hne
  · intro other e' hother
    rcases eq_or_ne other p with rfl | hne
    · rw [Function.update_self] at hother
      cases hother
    · rw [Function.update_of_ne hne] at hother
      exact h.loaded other e' hother
  · rw [h.tail_eq] at hvalue ⊢
    exact h.log.put hroom hvalue

theorem Bounded.advance_head (h : Bounded cap s) {e : V}
    (hpc : s.pc p = .takeAdvance e) :
    Bounded cap (s.goto p (.takeUnlock e)
      { s.queue with head := (s.queue.head + 1) % s.queue.capacity }
      (s.history.take s.queue.head e)) := by
  have hpending := h.pending hpc rfl
  have hvalue := h.loaded p e hpc
  apply h.goto hpc
  · rfl
  · simp only [History.take, List.length_append, List.length_singleton, spaceHeld,
      QueuePoint.stage, Point.stage, Stage.spaceHeld]
    omega
  · simp only [History.take, List.length_append, List.length_singleton, elementHeld,
      QueuePoint.stage, Point.stage, Stage.elementHeld]
    omega
  · exact h.tail_eq
  · simp only [History.take, List.length_append, List.length_singleton]
    rw [h.capacity_eq, h.head_eq, Nat.mod_add_mod]
  · exact h.tail_mutex.keep hpc rfl rfl
  · exact h.head_mutex.keep hpc rfl rfl
  · intro other e' hother
    rcases eq_or_ne other p with rfl | hne
    · rw [Function.update_self] at hother
      cases hother
    · rw [Function.update_of_ne hne] at hother
      exact h.stored other e' hother
  · intro other e' hother
    rcases eq_or_ne other p with rfl | hne
    · rw [Function.update_self] at hother
      cases hother
    · rw [Function.update_of_ne hne] at hother
      exact absurd (h.alone_at_head hpc rfl hother) hne
  · rw [h.head_eq] at hvalue ⊢
    exact h.log.take hpending hvalue

/-- Every statement of every process keeps the bounds. -/
theorem Bounded.advance (h : Bounded cap s)
    (hnext : advance s p = some next) : Bounded cap next := by
  cases statement_of_advance hnext with
  | fails _ => exact h.die p
  | putWait hpc hwait =>
      refine h.goto_semaphores hpc ?_ le_rfl ⟨rfl, rfl⟩ ⟨rfl, rfl⟩ (by simp) (by simp)
      rw [semWait_eq hwait]
      exact le_rfl
  | @putLock e result _ hpc hlock =>
      refine h.goto_mutexTail hpc ?_ (h.tail_mutex.lock hlock ?_ ?_) ?_ ?_ ?_
      all_goals cases result <;> simp [afterLock, spaceHeld, elementHeld, inTail,
        inHead, QueuePoint.stage, Point.stage, Stage.spaceHeld, Stage.elementHeld, Stage.inTail,
        Stage.inHead, recoversTail, recoversHead]
  | putConsistent hpc hconsistent =>
      exact h.goto_mutexTail hpc ⟨rfl, rfl⟩
        (h.tail_mutex.recover hconsistent rfl rfl) ⟨rfl, rfl⟩ (by simp) (by simp)
  | putStore hpc => exact h.store hpc
  | putAdvance hpc => exact h.advance_tail hpc
  | putUnlock hpc hunlock =>
      exact h.goto_mutexTail hpc ⟨rfl, rfl⟩
        (h.tail_mutex.release hpc rfl rfl rfl hunlock) ⟨rfl, rfl⟩ (by simp) (by simp)
  | putPost hpc hpost =>
      refine h.goto_semaphores hpc le_rfl ?_ ⟨rfl, rfl⟩ ⟨rfl, rfl⟩ (by simp) (by simp)
      rw [semPost_eq hpost]
      exact le_rfl
  | takeWait hpc hwait =>
      refine h.goto_semaphores hpc le_rfl ?_ ⟨rfl, rfl⟩ ⟨rfl, rfl⟩ (by simp) (by simp)
      rw [semWait_eq hwait]
      exact le_rfl
  | @takeLock result _ hpc hlock =>
      refine h.goto_mutexHead hpc ?_ (h.head_mutex.lock hlock ?_ ?_) ?_ ?_ ?_
      all_goals cases result <;> simp [afterLock, spaceHeld, elementHeld, inTail,
        inHead, QueuePoint.stage, Point.stage, Stage.spaceHeld, Stage.elementHeld, Stage.inTail,
        Stage.inHead, recoversTail, recoversHead]
  | takeConsistent hpc hconsistent =>
      exact h.goto_mutexHead hpc ⟨rfl, rfl⟩
        (h.head_mutex.recover hconsistent rfl rfl) ⟨rfl, rfl⟩ (by simp) (by simp)
  | takeLoad hpc =>
      exact h.goto_semaphores hpc le_rfl le_rfl ⟨rfl, rfl⟩ ⟨rfl, rfl⟩ (by simp) (by simp)
  | takeAdvance hpc => exact h.advance_head hpc
  | takeUnlock hpc hunlock =>
      exact h.goto_mutexHead hpc ⟨rfl, rfl⟩
        (h.head_mutex.release hpc rfl rfl rfl hunlock) ⟨rfl, rfl⟩ (by simp) (by simp)
  | takePost hpc hpost =>
      refine h.goto_semaphores hpc ?_ le_rfl ⟨rfl, rfl⟩ ⟨rfl, rfl⟩ (by simp) (by simp)
      rw [semPost_eq hpost]
      exact le_rfl

theorem Bounded.step {event : Event P V} (h : Bounded cap s)
    (hnext : step s event = some next) : Bounded cap next := by
  cases event with
  | advance p => exact h.advance hnext
  | die p =>
      simp only [SharedMemoryStream.step] at hnext
      split at hnext
      · cases hnext
      · cases hnext
        exact h.die p
  | call p op =>
      simp only [SharedMemoryStream.step] at hnext
      split at hnext
      · rename_i hpc
        cases hnext
        cases op with
        | put e =>
            exact h.goto_semaphores hpc le_rfl le_rfl ⟨rfl, rfl⟩ ⟨rfl, rfl⟩
              (by simp [Call.entry]) (by simp [Call.entry])
        | take =>
            exact h.goto_semaphores hpc le_rfl le_rfl ⟨rfl, rfl⟩ ⟨rfl, rfl⟩
              (by simp [Call.entry]) (by simp [Call.entry])
      · cases hnext

/-- What the committed values and the slots have to satisfy: first-in
first-out, no store to a slot with a committed value that is not yet taken,
and no load from a slot without one. -/
structure CrashSafe (s : System P V) : Prop where
  fifo : s.history.takes <+: s.history.puts
  not_overwritten : ∀ p e, s.pc p = .putStore e →
    s.history.unread s.queue.tail = false
  read_committed : ∀ p, s.pc p = .takeLoad →
    s.history.unread s.queue.head = true

omit [DecidableEq P] in
theorem Bounded.crashSafe (h : Bounded cap s) : CrashSafe s where
  fifo := h.log.fifo
  not_overwritten := by
    intro p e hpc
    exact h.tail_free hpc rfl
  read_committed := by
    intro p hpc
    exact h.head_full hpc rfl

/-- The queue is safe for every capacity, any number of processes, every
interleaving of their statements and deaths at any point. -/
theorem shm_blocking_queue_crash_safe (platform : Platform) (zero : V) (capacity : Nat)
    (queue : ShmBlockingQueue P V)
    (hinit : shmBlockingQueueInit platform zero capacity = some queue)
    (s : System P V) (hs : Reaches step (start queue) s) : CrashSafe s := by
  have hbounded : Bounded capacity s :=
    hs.invariant (fun _ _ _ h hnext => h.step hnext) (start_bounded hinit)
  exact hbounded.crashSafe

/-- A struct of 168 bytes in an address space of 47 bits. -/
def linux64 : Platform := ⟨168, fun length => length < 2 ^ 47⟩

theorem two_slots_init :
    (shmBlockingQueueInit linux64 0 2 : Option (ShmBlockingQueue (Fin 3) Nat)).isSome := by
  decide

/-- Process 0 dies between its store and its commit. Process 1 recovers the
mutex and puts 8, which process 2 takes. -/
def deathInSection : List (Event (Fin 3) Nat) :=
  [.call 0 (.put 7), .advance 0, .advance 0, .advance 0, .die 0,
    .call 1 (.put 8)] ++ List.replicate 7 (.advance 1) ++
  [.call 2 .take] ++ List.replicate 6 (.advance 2)

theorem death_in_section_enabled :
    (runEvents step (start ((shmBlockingQueueInit linux64 0 2).get two_slots_init))
      deathInSection).isSome := by
  decide

theorem death_in_section_safe :
    CrashSafe ((runEvents step
      (start ((shmBlockingQueueInit linux64 0 2).get two_slots_init))
      deathInSection).get death_in_section_enabled) :=
  shm_blocking_queue_crash_safe linux64 0 2 _ (Option.some_get two_slots_init).symm _
    ⟨deathInSection, (Option.some_get death_in_section_enabled).symm⟩

end CsPrimer.SharedMemoryStream
