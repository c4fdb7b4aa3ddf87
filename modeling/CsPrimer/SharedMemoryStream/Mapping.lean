import CsPrimer.SharedMemoryStream.TokenLoss

/-!
The mapping behind the queue. `shm_blocking_queue_init` computes its length in
`size_t`, and gives the capacity to the semaphore as an `unsigned int`. Where
the length wraps, the slots behind it are used all the same, once there are
tokens to get there.
-/

namespace CsPrimer.SharedMemoryStream

open Foundation

variable {P V : Type} {cap initial lost header : Nat} {s next : System P V} {p : P}

/-- The offset of the slot that the next statement stores to or loads from. -/
def accessed (header : Nat) (s : System P V) (p : P) : Option Nat :=
  match s.pc p with
  | .putStore _ => some (header + 8 * s.queue.tail)
  | .takeLoad => some (header + 8 * s.queue.head)
  | _ => none

def divides (s : System P V) (p : P) : Bool :=
  match s.pc p with
  | .putAdvance _ | .takeAdvance _ => true
  | _ => false

/-- Every slot that is used is mapped, and no capacity that is divided by is
zero. -/
structure InMapping (header length : Nat) (s : System P V) : Prop where
  mapped : ∀ p offset, accessed header s p = some offset → offset + 8 ≤ length
  divisor : ∀ p, divides s p = true → s.queue.capacity ≠ 0

variable [Fintype P]

/-- Who is past a wait has a token, so that there was one at first. -/
theorem Accounted.initial_pos (h : Accounted cap initial lost s) (hheld : held (s.pc p) = 1) :
    0 < initial := by
  have hle := weight_le_tokens held (rfl : s.pc p = s.pc p)
  have hsum := h.sum
  omega

theorem Accounted.inMapping (h : Accounted cap initial lost s)
    (hfits : header + 8 * cap < 2 ^ 64 ∨ initial = 0) :
    InMapping header (mappedLength header cap) s := by
  have hcap := h.initial_le_cap
  constructor
  · intro p offset haccessed
    have hpos : 0 < initial := by
      apply h.initial_pos (p := p)
      unfold accessed at haccessed
      split at haccessed <;> first | (rename_i hpc; rw [hpc]; rfl) | cases haccessed
    have hfit := hfits.resolve_right (Nat.ne_of_gt hpos)
    have htail : s.queue.tail < cap := by
      rw [h.bounded.tail_eq]
      exact Nat.mod_lt _ (by omega)
    have hhead : s.queue.head < cap := by
      rw [h.bounded.head_eq]
      exact Nat.mod_lt _ (by omega)
    rw [mappedLength, Nat.mod_eq_of_lt hfit]
    unfold accessed at haccessed
    split at haccessed <;> cases haccessed <;> omega
  · intro p hdivides
    have hpos : 0 < initial := by
      apply h.initial_pos (p := p)
      unfold divides at hdivides
      split at hdivides <;> first | (rename_i hpc; rw [hpc]; rfl) | cases hdivides
    rw [h.bounded.capacity_eq]
    omega

variable [DecidableEq P]

variable {queue : ShmBlockingQueue P V} {history : History V}

abbrev Alone (s : System P V) (p : P) (point : Point V) (queue : ShmBlockingQueue P V)
    (history : History V) : Prop :=
  QueueSystem.ReachesAt step s p point queue history

omit [Fintype P] in
theorem Alone.call (h : Alone s p .idle queue history) (op : Call V) :
    Alone s p op.entry queue history :=
  h.next (.call p op) _ _ _ fun t hpc hqueue hhistory => by
    simp only [step, hpc, hqueue, hhistory]

/-- The queue after `n` puts and takes, with nobody in a call. -/
structure Settled (cap initial n : Nat) (queue : ShmBlockingQueue P V) : Prop where
  capacity : queue.capacity = cap
  head : queue.head = n % cap
  tail : queue.tail = n % cap
  mutexHead : queue.mutexHead = RobustMutex.init
  mutexTail : queue.mutexTail = RobustMutex.init
  semElement : queue.semElement = 0
  semSpace : queue.semSpace = initial

def tailLocked (queue : ShmBlockingQueue P V) (p : P) : ShmBlockingQueue P V :=
  { queue with semSpace := queue.semSpace - 1, mutexTail := ⟨some p, .consistent⟩ }

def afterPut (queue : ShmBlockingQueue P V) (e : V) : ShmBlockingQueue P V :=
  { queue with
    semSpace := queue.semSpace - 1
    slots := Function.update queue.slots queue.tail e
    tail := (queue.tail + 1) % queue.capacity
    semElement := queue.semElement + 1 }

def afterTake (queue : ShmBlockingQueue P V) : ShmBlockingQueue P V :=
  { queue with
    semElement := queue.semElement - 1
    head := (queue.head + 1) % queue.capacity
    semSpace := queue.semSpace + 1 }

omit [Fintype P] in
/-- A put as far as its store. -/
theorem Alone.to_store (h : Alone s p .idle queue history)
    (hmutex : queue.mutexTail = RobustMutex.init) (hspace : queue.semSpace ≠ 0) (e : V) :
    Alone s p (.putStore e) (tailLocked queue p) history := by
  have hcalled : Alone s p (.putWait e) queue history := h.call (.put e)
  have hwaited : Alone s p (.putLock e) { queue with semSpace := queue.semSpace - 1 } history :=
    hcalled.next (.advance p) _ _ _ fun t hpc hqueue hhistory => by
      simp [step, advance, hpc, hqueue, hhistory, semWait, hspace]
  exact hwaited.next (.advance p) _ _ _ fun t hpc hqueue hhistory => by
    simp [step, advance, hpc, hqueue, hhistory, RobustMutex.lock, hmutex, RobustMutex.init,
      afterLock, tailLocked]

omit [Fintype P] in
theorem Alone.put (h : Alone s p .idle queue history)
    (hmutex : queue.mutexTail = RobustMutex.init) (hspace : queue.semSpace ≠ 0)
    (helement : queue.semElement < semValueMax) (e : V) :
    Alone s p .idle (afterPut queue e) (history.put queue.tail e) := by
  have hstored : Alone s p (.putAdvance e)
      { tailLocked queue p with slots := Function.update queue.slots queue.tail e } history :=
    (h.to_store hmutex hspace e).next (.advance p) _ _ _ fun t hpc hqueue hhistory => by
      simp [step, advance, hpc, hqueue, hhistory, tailLocked]
  have hmoved : Alone s p .putUnlock
      { tailLocked queue p with
        slots := Function.update queue.slots queue.tail e
        tail := (queue.tail + 1) % queue.capacity } (history.put queue.tail e) :=
    hstored.next (.advance p) _ _ _ fun t hpc hqueue hhistory => by
      simp [step, advance, hpc, hqueue, hhistory, tailLocked]
  have hunlocked : Alone s p .putPost
      { queue with
        semSpace := queue.semSpace - 1
        slots := Function.update queue.slots queue.tail e
        tail := (queue.tail + 1) % queue.capacity } (history.put queue.tail e) :=
    hmoved.next (.advance p) _ _ _ fun t hpc hqueue hhistory => by
      simp [step, advance, hpc, hqueue, hhistory, tailLocked, RobustMutex.unlock, hmutex,
        RobustMutex.init]
  exact hunlocked.next (.advance p) _ _ _ fun t hpc hqueue hhistory => by
    simp [step, advance, hpc, hqueue, hhistory, semPost, helement, afterPut]

omit [Fintype P] in
theorem Alone.take (h : Alone s p .idle queue history)
    (hmutex : queue.mutexHead = RobustMutex.init) (helement : queue.semElement ≠ 0)
    (hspace : queue.semSpace < semValueMax) :
    Alone s p .idle (afterTake queue)
      (history.take queue.head (queue.slots queue.head)) := by
  have hcalled : Alone s p .takeWait queue history := h.call .take
  have hwaited : Alone s p .takeLock
      { queue with semElement := queue.semElement - 1 } history :=
    hcalled.next (.advance p) _ _ _ fun t hpc hqueue hhistory => by
      simp [step, advance, hpc, hqueue, hhistory, semWait, helement]
  have hlocked : Alone s p .takeLoad
      { queue with
        semElement := queue.semElement - 1
        mutexHead := ⟨some p, .consistent⟩ } history :=
    hwaited.next (.advance p) _ _ _ fun t hpc hqueue hhistory => by
      simp [step, advance, hpc, hqueue, hhistory, RobustMutex.lock, hmutex, RobustMutex.init,
        afterLock]
  have hloaded : Alone s p (.takeAdvance (queue.slots queue.head))
      { queue with
        semElement := queue.semElement - 1
        mutexHead := ⟨some p, .consistent⟩ } history :=
    hlocked.next (.advance p) _ _ _ fun t hpc hqueue hhistory => by
      simp [step, advance, hpc, hqueue, hhistory]
  have hmoved : Alone s p (.takeUnlock (queue.slots queue.head))
      { queue with
        semElement := queue.semElement - 1
        mutexHead := ⟨some p, .consistent⟩
        head := (queue.head + 1) % queue.capacity }
      (history.take queue.head (queue.slots queue.head)) :=
    hloaded.next (.advance p) _ _ _ fun t hpc hqueue hhistory => by
      simp [step, advance, hpc, hqueue, hhistory]
  have hunlocked : Alone s p (.takePost (queue.slots queue.head))
      { queue with
        semElement := queue.semElement - 1
        head := (queue.head + 1) % queue.capacity }
      (history.take queue.head (queue.slots queue.head)) :=
    hmoved.next (.advance p) _ _ _ fun t hpc hqueue hhistory => by
      simp [step, advance, hpc, hqueue, hhistory, RobustMutex.unlock, hmutex, RobustMutex.init]
  exact hunlocked.next (.advance p) _ _ _ fun t hpc hqueue hhistory => by
    simp [step, advance, hpc, hqueue, hhistory, semPost, hspace, afterTake]

omit [Fintype P] in
/-- A put and a take by one process. -/
theorem Alone.round {n : Nat} (h : Alone s p .idle queue history)
    (hsettled : Settled cap initial n queue) (hpos : 0 < initial)
    (hmax : initial ≤ semValueMax) (e : V) :
    ∃ queue' history', Alone s p .idle queue' history' ∧
      Settled cap initial (n + 1) queue' := by
  have hspace := hsettled.semSpace
  have hput := h.put hsettled.mutexTail (by omega)
    (by rw [hsettled.semElement]; decide) e
  refine ⟨_, _, hput.take hsettled.mutexHead (by simp [afterPut]) ?_, ?_⟩
  · simp only [afterPut]
    omega
  · constructor
    · exact hsettled.capacity
    · simp only [afterTake, afterPut]
      rw [hsettled.head, hsettled.capacity, Nat.mod_add_mod]
    · simp only [afterTake, afterPut]
      rw [hsettled.tail, hsettled.capacity, Nat.mod_add_mod]
    · exact hsettled.mutexHead
    · exact hsettled.mutexTail
    · simp only [afterTake, afterPut, hsettled.semElement]
    · simp only [afterTake, afterPut]
      omega

omit [Fintype P] in
/-- One process alone brings the tail to any slot. -/
theorem reaches_settled {queue : ShmBlockingQueue P V} (hsettled : Settled cap initial 0 queue)
    (hpos : 0 < initial) (hmax : initial ≤ semValueMax) (p : P) (e : V) (n : Nat) :
    ∃ queue' history, Alone (start queue) p .idle queue' history ∧
      Settled cap initial n queue' := by
  induction n with
  | zero => exact ⟨queue, _, ⟨start queue, .refl, rfl, rfl, rfl⟩, hsettled⟩
  | succ n ih =>
      obtain ⟨queue', history, hreaches, hsettled'⟩ := ih
      exact hreaches.round hsettled' hpos hmax e

omit [Fintype P] [DecidableEq P] in
theorem init_settled {platform : Platform} {zero : V} {queue : ShmBlockingQueue P V}
    (hinit : shmBlockingQueueInit platform zero cap = some queue) :
    Settled cap (cap % 2 ^ 32) 0 queue := by
  obtain ⟨-, rfl⟩ := init_cases hinit
  exact ⟨rfl, (Nat.zero_mod cap).symm, (Nat.zero_mod cap).symm, rfl, rfl, rfl, rfl⟩

/-- In every run, with deaths at any point, all slots that are used are in the
mapping, if and only if the length did not wrap or there are no spaces. -/
theorem slots_mapped_iff [Nonempty P] (platform : Platform) (zero : V) (capacity : Nat)
    (queue : ShmBlockingQueue P V)
    (hinit : shmBlockingQueueInit platform zero capacity = some queue) :
    (∀ s, Reaches step (start queue) s →
        InMapping platform.header (mappedLength platform.header capacity) s) ↔
      platform.header + 8 * capacity < 2 ^ 64 ∨ capacity % 2 ^ 32 = 0 := by
  have hstart := start_accounted (P := P) hinit
  constructor
  · intro hmapped
    by_contra hwraps
    rw [not_or, Nat.not_lt] at hwraps
    obtain ⟨hwraps, hspaces⟩ := hwraps
    obtain ⟨p⟩ := ‹Nonempty P›
    have hpos := Nat.pos_of_ne_zero hspaces
    have hle := hstart.initial_le_cap
    -- the last slot is used in the end
    obtain ⟨queue', history, hreaches, hsettled⟩ := reaches_settled (init_settled hinit) hpos
      hstart.initial_le p zero (capacity - 1)
    obtain ⟨s, hs, hpc, hqueue, -⟩ := hreaches.to_store hsettled.mutexTail
      (by rw [hsettled.semSpace]; exact hspaces) zero
    have haccess := (hmapped s hs).mapped p (platform.header + 8 * s.queue.tail)
      (by simp only [accessed, hpc])
    have htail : s.queue.tail = capacity - 1 := by
      rw [hqueue, tailLocked, hsettled.tail, Nat.mod_eq_of_lt (by omega)]
    have hlength : mappedLength platform.header capacity < 2 ^ 64 := Nat.mod_lt _ (by decide)
    omega
  · intro hfits s hs
    have hkeep : ∀ (t : System P V) event next,
        (∃ lost, Accounted capacity (capacity % 2 ^ 32) lost t) → step t event = some next →
          ∃ lost, Accounted capacity (capacity % 2 ^ 32) lost next := by
      rintro t event next ⟨lost, h⟩ hnext
      exact ⟨_, h.step hnext⟩
    obtain ⟨lost, h⟩ := hs.invariant hkeep ⟨0, hstart⟩
    exact h.inMapping hfits

theorem two_slots_mapped_iff :
    (∀ s, Reaches step (start ((shmBlockingQueueInit linux64 0 2 :
        Option (ShmBlockingQueue (Fin 3) Nat)).get two_slots_init)) s →
      InMapping linux64.header (mappedLength linux64.header 2) s) ↔
      linux64.header + 8 * 2 < 2 ^ 64 ∨ 2 % 2 ^ 32 = 0 :=
  slots_mapped_iff linux64 0 2 _ (Option.some_get two_slots_init).symm

end CsPrimer.SharedMemoryStream
