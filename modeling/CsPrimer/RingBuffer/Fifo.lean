import CsPrimer.RingBuffer.Queue

/-!
First-in first-out for any number of threads and every interleaving. The two
mutexes are independent, so a put and a take overlap; what keeps them apart is
the token balance: a thread past its wait holds a space or an element until it
posts, and the values pending never exceed the tokens in circulation.
-/

namespace CsPrimer.RingBuffer

open Foundation

variable {T V : Type} [Fintype T] [DecidableEq T] {variant : Variant}
  {junk : Junk V} {cap initial : Nat} {s next : System T V} {t : T}
  {old point : Point V}

/-- Slots written whose index update is outstanding. -/
def tailBehind : Point V → Nat
  | .putAdvance => 1
  | _ => 0

/-- Slots read whose index update is outstanding. -/
def headBehind : Point V → Nat
  | .takeAdvance _ => 1
  | _ => 0

/-- `initial` is the value that the space semaphore started with. -/
structure Balanced (variant : Variant) (cap initial : Nat) (s : System T V) : Prop where
  initial_le_cap : initial ≤ cap
  initial_le_max : initial ≤ variant.api.max
  capacity_eq : s.queue.capacity = cap
  space : s.queue.semSpace + tokens spaceHeld s.pc + s.history.puts.length =
    initial + s.history.takes.length
  element : s.queue.semElement + tokens elementHeld s.pc +
    s.history.takes.length = s.history.puts.length
  tail_mod : s.queue.tail % cap = s.queue.tail
  tail_eq : (s.queue.tail + tokens tailBehind s.pc) % cap =
    s.history.puts.length % cap
  head_mod : s.queue.head % cap = s.queue.head
  head_eq : (s.queue.head + tokens headBehind s.pc) % cap =
    s.history.takes.length % cap
  tail_owner : Owned inTail s.pc s.queue.mutexTail
  head_owner : Owned inHead s.pc s.queue.mutexHead
  log : Consistent cap s.queue.buffer s.history

omit [DecidableEq T] in
theorem start_balanced (hinit : variant.Initialises cap) :
    Balanced variant cap (variant.api.initial junk.semSpace.toNat cap)
      (start variant junk cap : System T V) where
  initial_le_cap := (hinit.le _).1
  initial_le_max := (hinit.le _).2
  capacity_eq := rfl
  space := by
    have h : tokens spaceHeld (fun _ : T => (.idle : Point V)) = 0 :=
      tokens_eq_zero (fun _ => rfl)
    simp [start, blockingQueueInit, History.empty, h]
  element := by
    have h : tokens elementHeld (fun _ : T => (.idle : Point V)) = 0 :=
      tokens_eq_zero (fun _ => rfl)
    simp [start, blockingQueueInit, History.empty, h]
  tail_mod := Nat.zero_mod cap
  tail_eq := by
    have h : tokens tailBehind (fun _ : T => (.idle : Point V)) = 0 :=
      tokens_eq_zero (fun _ => rfl)
    simp [start, blockingQueueInit, History.empty, h]
  head_mod := Nat.zero_mod cap
  head_eq := by
    have h : tokens headBehind (fun _ : T => (.idle : Point V)) = 0 :=
      tokens_eq_zero (fun _ => rfl)
    simp [start, blockingQueueInit, History.empty, h]
  tail_owner := .free fun _ => rfl
  head_owner := .free fun _ => rfl
  log := Consistent.empty _ _

/-- What a step of thread `t` to `point` owes for the balance to be kept. -/
theorem Balanced.goto (h : Balanced variant cap initial s) (hpc : s.pc t = old)
    {queue : BlockingQueue T V} {history : History V}
    (hcap : queue.capacity = s.queue.capacity)
    (hspace : queue.semSpace + spaceHeld point + history.puts.length +
        s.history.takes.length =
      s.queue.semSpace + spaceHeld old + s.history.puts.length +
        history.takes.length)
    (helement : queue.semElement + elementHeld point + history.takes.length +
        s.history.puts.length =
      s.queue.semElement + elementHeld old + s.history.takes.length +
        history.puts.length)
    (htailMod : queue.tail % cap = queue.tail)
    (htail : (queue.tail + tokens tailBehind (Function.update s.pc t point)) %
      cap = history.puts.length % cap)
    (hheadMod : queue.head % cap = queue.head)
    (hhead : (queue.head + tokens headBehind (Function.update s.pc t point)) %
      cap = history.takes.length % cap)
    (htailOwner : Owned inTail (Function.update s.pc t point) queue.mutexTail)
    (hheadOwner : Owned inHead (Function.update s.pc t point) queue.mutexHead)
    (hlog : Consistent cap queue.buffer history) :
    Balanced variant cap initial (s.goto t point queue history) := by
  have hspaceMoved := tokens_update spaceHeld hpc point
  have helementMoved := tokens_update elementHeld hpc point
  have hspaceBefore := h.space
  have helementBefore := h.element
  refine ⟨h.initial_le_cap, h.initial_le_max, hcap.trans h.capacity_eq, ?_, ?_, htailMod, htail,
    hheadMod, hhead, htailOwner, hheadOwner, hlog⟩
  · simp only [QueueSystem.goto]
    omega
  · simp only [QueueSystem.goto]
    omega

/-- A step that touches neither index, nor the buffer, nor the history. -/
theorem Balanced.goto_outside (h : Balanced variant cap initial s) (hpc : s.pc t = old)
    {queue : BlockingQueue T V}
    (hcap : queue.capacity = s.queue.capacity)
    (hbuffer : queue.buffer = s.queue.buffer)
    (htail : queue.tail = s.queue.tail) (hhead : queue.head = s.queue.head)
    (hspace : queue.semSpace + spaceHeld point =
      s.queue.semSpace + spaceHeld old)
    (helement : queue.semElement + elementHeld point =
      s.queue.semElement + elementHeld old)
    (htailBehind : tailBehind point = tailBehind old)
    (hheadBehind : headBehind point = headBehind old)
    (htailOwner : Owned inTail (Function.update s.pc t point) queue.mutexTail)
    (hheadOwner : Owned inHead (Function.update s.pc t point) queue.mutexHead) :
    Balanced variant cap initial (s.goto t point queue s.history) := by
  apply h.goto hpc hcap (by omega) (by omega) (htail ▸ h.tail_mod) ?_
    (hhead ▸ h.head_mod) ?_ htailOwner hheadOwner (hbuffer ▸ h.log)
  · rw [htail, tokens_keep hpc htailBehind]
    exact h.tail_eq
  · rw [hhead, tokens_keep hpc hheadBehind]
    exact h.head_eq

omit [DecidableEq T] in
/-- Inside the tail section and before the index update nobody is behind, so
`tail` is the slot of the next put. -/
theorem Balanced.tail_slot (h : Balanced variant cap initial s) {e : V}
    (hpc : s.pc t = .putStore e) :
    tokens tailBehind s.pc = 0 ∧
      s.queue.tail = s.history.puts.length % cap := by
  have hzero : tokens tailBehind s.pc = 0 := by
    apply tokens_eq_zero
    intro other
    cases hother : s.pc other with
    | putAdvance =>
        obtain rfl := h.tail_owner.unique hpc hother rfl rfl
        rw [hpc] at hother
        cases hother
    | _ => rfl
  have htail := h.tail_eq
  rw [hzero, Nat.add_zero, h.tail_mod] at htail
  exact ⟨hzero, htail⟩

omit [DecidableEq T] in
theorem Balanced.head_slot (h : Balanced variant cap initial s)
    (hpc : s.pc t = .takeLoad) :
    tokens headBehind s.pc = 0 ∧
      s.queue.head = s.history.takes.length % cap := by
  have hzero : tokens headBehind s.pc = 0 := by
    apply tokens_eq_zero
    intro other
    cases hother : s.pc other with
    | takeAdvance e =>
        obtain rfl := h.head_owner.unique hpc hother rfl rfl
        rw [hpc] at hother
        cases hother
    | _ => rfl
  have hhead := h.head_eq
  rw [hzero, Nat.add_zero, h.head_mod] at hhead
  exact ⟨hzero, hhead⟩

omit [DecidableEq T] in
/-- A thread about to store holds a space, so there is room in the log. -/
theorem Balanced.room (h : Balanced variant cap initial s) {e : V}
    (hpc : s.pc t = .putStore e) :
    s.history.puts.length < s.history.takes.length + cap := by
  have hheld : 1 ≤ tokens spaceHeld s.pc := one_le_tokens hpc rfl
  have hbalance := h.space
  have hinitial := h.initial_le_cap
  omega

omit [DecidableEq T] in
/-- A thread about to load holds an element, so a value is pending. -/
theorem Balanced.pending (h : Balanced variant cap initial s)
    (hpc : s.pc t = .takeLoad) :
    s.history.takes.length < s.history.puts.length := by
  have hheld : 1 ≤ tokens elementHeld s.pc := one_le_tokens hpc rfl
  have hbalance := h.element
  omega

omit [DecidableEq T] in
/-- A post never meets the greatest value of its semaphore: the poster still
holds the token. -/
theorem Balanced.post_element (h : Balanced variant cap initial s)
    (hpc : s.pc t = .putPost) :
    variant.api.post s.queue.semElement = s.queue.semElement + 1 := by
  have hheld : 1 ≤ tokens elementHeld s.pc := one_le_tokens hpc rfl
  have helement := h.element
  have hspace := h.space
  have hmax := h.initial_le_max
  exact if_pos (by omega)

omit [DecidableEq T] in
theorem Balanced.post_space (h : Balanced variant cap initial s) {e : V}
    (hpc : s.pc t = .takePost e) :
    variant.api.post s.queue.semSpace = s.queue.semSpace + 1 := by
  have hheld : 1 ≤ tokens spaceHeld s.pc := one_le_tokens hpc rfl
  have hspace := h.space
  have htaken := h.log.taken_le
  have hmax := h.initial_le_max
  exact if_pos (by omega)

theorem Balanced.store (h : Balanced variant cap initial s) {e : V}
    (hpc : s.pc t = .putStore e) :
    Balanced variant cap initial (s.goto t .putAdvance
      { s.queue with buffer := Function.update s.queue.buffer s.queue.tail e }
      (s.history.put s.queue.tail e)) := by
  obtain ⟨hzero, htail⟩ := h.tail_slot hpc
  have hmoved := tokens_update tailBehind hpc .putAdvance
  have hbehind : tokens headBehind (Function.update s.pc t .putAdvance) =
      tokens headBehind s.pc := tokens_keep hpc rfl
  have hroom := h.room hpc
  rw [hzero] at hmoved
  simp only [tailBehind] at hmoved
  apply h.goto hpc
  · rfl
  · simp only [History.put, List.length_append, List.length_singleton, spaceHeld,
      QueuePoint.stage, Point.stage, Stage.spaceHeld]
    omega
  · simp only [History.put, List.length_append, List.length_singleton, elementHeld,
      QueuePoint.stage, Point.stage, Stage.elementHeld]
    omega
  · exact h.tail_mod
  · have hmover : tokens tailBehind (Function.update s.pc t .putAdvance) = 1 := by
      omega
    rw [hmover, htail]
    simp [History.put]
  · exact h.head_mod
  · rw [hbehind]
    exact h.head_eq
  · exact h.tail_owner.keep hpc rfl
  · exact h.head_owner.keep hpc rfl
  · rw [htail]
    apply (h.log.store (h.log.next_slot_free hroom) e).put hroom
    exact Function.update_self ..

theorem Balanced.load (h : Balanced variant cap initial s)
    (hpc : s.pc t = .takeLoad) :
    Balanced variant cap initial (s.goto t
      (.takeAdvance (s.queue.buffer s.queue.head)) s.queue
      (s.history.take s.queue.head (s.queue.buffer s.queue.head))) := by
  obtain ⟨hzero, hhead⟩ := h.head_slot hpc
  have hmoved := tokens_update headBehind hpc
    (.takeAdvance (s.queue.buffer s.queue.head))
  have hbehind : tokens tailBehind (Function.update s.pc t
      (.takeAdvance (s.queue.buffer s.queue.head))) = tokens tailBehind s.pc :=
    tokens_keep hpc rfl
  rw [hzero] at hmoved
  simp only [headBehind] at hmoved
  apply h.goto hpc
  · rfl
  · simp only [History.take, List.length_append, List.length_singleton, spaceHeld,
      QueuePoint.stage, Point.stage, Stage.spaceHeld]
    omega
  · simp only [History.take, List.length_append, List.length_singleton, elementHeld,
      QueuePoint.stage, Point.stage, Stage.elementHeld]
    omega
  · exact h.tail_mod
  · rw [hbehind]
    exact h.tail_eq
  · exact h.head_mod
  · have hmover : tokens headBehind (Function.update s.pc t
        (.takeAdvance (s.queue.buffer s.queue.head))) = 1 := by omega
    rw [hmover, hhead]
    simp [History.take]
  · exact h.tail_owner.keep hpc rfl
  · exact h.head_owner.keep hpc rfl
  · rw [hhead]
    exact h.log.take (h.pending hpc) rfl

theorem Balanced.advance_tail (h : Balanced variant cap initial s)
    (hpc : s.pc t = .putAdvance) :
    Balanced variant cap initial (s.goto t .putUnlock
      { s.queue with tail := (s.queue.tail + 1) % s.queue.capacity }
      s.history) := by
  have hmoved := tokens_update tailBehind hpc .putUnlock
  simp only [tailBehind] at hmoved
  have hbehind : tokens headBehind (Function.update s.pc t .putUnlock) =
      tokens headBehind s.pc := tokens_keep hpc rfl
  apply h.goto hpc
  · rfl
  · simp [spaceHeld, QueuePoint.stage, Point.stage, Stage.spaceHeld]
  · simp [elementHeld, QueuePoint.stage, Point.stage, Stage.elementHeld]
  · rw [h.capacity_eq]
    exact Nat.mod_mod _ _
  · rw [h.capacity_eq, Nat.mod_add_mod, ← h.tail_eq]
    congr 1
    omega
  · exact h.head_mod
  · rw [hbehind]
    exact h.head_eq
  · exact h.tail_owner.keep hpc rfl
  · exact h.head_owner.keep hpc rfl
  · exact h.log

theorem Balanced.advance_head (h : Balanced variant cap initial s) {e : V}
    (hpc : s.pc t = .takeAdvance e) :
    Balanced variant cap initial (s.goto t (.takeUnlock e)
      { s.queue with head := (s.queue.head + 1) % s.queue.capacity }
      s.history) := by
  have hmoved := tokens_update headBehind hpc (.takeUnlock e)
  simp only [headBehind] at hmoved
  have hbehind : tokens tailBehind (Function.update s.pc t (.takeUnlock e)) =
      tokens tailBehind s.pc := tokens_keep hpc rfl
  apply h.goto hpc
  · rfl
  · simp [spaceHeld, QueuePoint.stage, Point.stage, Stage.spaceHeld]
  · simp [elementHeld, QueuePoint.stage, Point.stage, Stage.elementHeld]
  · exact h.tail_mod
  · rw [hbehind]
    exact h.tail_eq
  · rw [h.capacity_eq]
    exact Nat.mod_mod _ _
  · rw [h.capacity_eq, Nat.mod_add_mod, ← h.head_eq]
    congr 1
    omega
  · exact h.tail_owner.keep hpc rfl
  · exact h.head_owner.keep hpc rfl
  · exact h.log

/-- Every statement of every thread keeps the balance. -/
theorem Balanced.advance (h : Balanced variant cap initial s)
    (hnext : advance variant.api s t = some next) :
    Balanced variant cap initial next := by
  cases hpc : s.pc t with
  | idle => simp [RingBuffer.advance, hpc] at hnext
  | putWait e =>
      simp only [RingBuffer.advance, hpc] at hnext
      split at hnext
      · cases hnext
      · cases hnext
        apply h.goto_outside hpc <;> try rfl
        · simp only [spaceHeld, QueuePoint.stage, Point.stage, Stage.spaceHeld]
          omega
        · exact h.tail_owner.keep hpc rfl
        · exact h.head_owner.keep hpc rfl
  | putLock e =>
      simp only [RingBuffer.advance, hpc] at hnext
      split at hnext
      · rename_i hfree
        cases hnext
        apply h.goto_outside hpc <;> try rfl
        · exact Owned.acquire (hfree ▸ h.tail_owner) rfl
        · exact h.head_owner.keep hpc rfl
      · cases hnext
  | putStore e =>
      simp only [RingBuffer.advance, hpc, Option.some.injEq] at hnext
      subst hnext
      exact h.store hpc
  | putAdvance =>
      simp only [RingBuffer.advance, hpc, Option.some.injEq] at hnext
      subst hnext
      exact h.advance_tail hpc
  | putUnlock =>
      simp only [RingBuffer.advance, hpc, Option.some.injEq] at hnext
      subst hnext
      apply h.goto_outside hpc <;> try rfl
      · exact h.tail_owner.release hpc rfl rfl
      · exact h.head_owner.keep hpc rfl
  | putPost =>
      simp only [RingBuffer.advance, hpc, Option.some.injEq] at hnext
      subst hnext
      rw [h.post_element hpc]
      apply h.goto_outside hpc <;> try rfl
      · exact h.tail_owner.keep hpc rfl
      · exact h.head_owner.keep hpc rfl
  | takeWait =>
      simp only [RingBuffer.advance, hpc] at hnext
      split at hnext
      · cases hnext
      · cases hnext
        apply h.goto_outside hpc <;> try rfl
        · simp only [elementHeld, QueuePoint.stage, Point.stage, Stage.elementHeld]
          omega
        · exact h.tail_owner.keep hpc rfl
        · exact h.head_owner.keep hpc rfl
  | takeLock =>
      simp only [RingBuffer.advance, hpc] at hnext
      split at hnext
      · rename_i hfree
        cases hnext
        apply h.goto_outside hpc <;> try rfl
        · exact h.tail_owner.keep hpc rfl
        · exact Owned.acquire (hfree ▸ h.head_owner) rfl
      · cases hnext
  | takeLoad =>
      simp only [RingBuffer.advance, hpc, Option.some.injEq] at hnext
      subst hnext
      exact h.load hpc
  | takeAdvance e =>
      simp only [RingBuffer.advance, hpc, Option.some.injEq] at hnext
      subst hnext
      exact h.advance_head hpc
  | takeUnlock e =>
      simp only [RingBuffer.advance, hpc, Option.some.injEq] at hnext
      subst hnext
      apply h.goto_outside hpc <;> try rfl
      · exact h.tail_owner.keep hpc rfl
      · exact h.head_owner.release hpc rfl rfl
  | takePost e =>
      simp only [RingBuffer.advance, hpc, Option.some.injEq] at hnext
      subst hnext
      rw [h.post_space hpc]
      apply h.goto_outside hpc <;> try rfl
      · exact h.tail_owner.keep hpc rfl
      · exact h.head_owner.keep hpc rfl

theorem Balanced.step {event : Event T V} (h : Balanced variant cap initial s)
    (hnext : step variant s event = some next) : Balanced variant cap initial next := by
  cases event with
  | advance t => exact h.advance hnext
  | call t op =>
      simp only [RingBuffer.step] at hnext
      split at hnext
      · rename_i hpc
        cases hnext
        cases op <;> apply h.goto_outside hpc <;> try rfl
        all_goals first
          | exact h.tail_owner.keep hpc rfl
          | exact h.head_owner.keep hpc rfl
      · cases hnext

/-- First-in first-out, and what keeps the slot accesses of different threads
apart: a put about to write meets no unread value, a take about to read meets
an unread one, the two are never at one slot, and no index is reduced modulo
zero. -/
structure FifoSafe (s : System T V) : Prop where
  fifo : s.history.takes <+: s.history.puts
  write_read_slot : ∀ t e, s.pc t = .putStore e →
    s.history.unread s.queue.tail = false
  read_written_slot : ∀ t, s.pc t = .takeLoad →
    s.history.unread s.queue.head = true
  slots_differ : ∀ t t' e, s.pc t = .putStore e → s.pc t' = .takeLoad →
    s.queue.tail ≠ s.queue.head
  modulus_pos : ∀ t, (s.pc t = .putAdvance ∨ ∃ e, s.pc t = .takeAdvance e) →
    s.queue.capacity ≠ 0

omit [DecidableEq T] in
theorem Balanced.fifoSafe (h : Balanced variant cap initial s) : FifoSafe s where
  fifo := h.log.fifo
  write_read_slot := by
    intro t e hpc
    rw [(h.tail_slot hpc).2]
    exact h.log.next_slot_free (h.room hpc)
  read_written_slot := by
    intro t hpc
    rw [(h.head_slot hpc).2]
    exact h.log.next_slot_full (h.pending hpc)
  slots_differ := by
    intro t t' e hput htake heq
    have hfree := h.log.next_slot_free (h.room hput)
    have hfull := h.log.next_slot_full (h.pending htake)
    rw [← (h.tail_slot hput).2, heq, (h.head_slot htake).2, hfull] at hfree
    cases hfree
  modulus_pos := by
    intro t hpc hzero
    have hspace := h.space
    have helement := h.element
    have hinitial := h.initial_le_cap
    have hcap := h.capacity_eq
    rcases hpc with hpc | ⟨e, hpc⟩
    · have hheld : 1 ≤ tokens elementHeld s.pc := one_le_tokens hpc rfl
      omega
    · have hheld : 1 ≤ tokens spaceHeld s.pc := one_le_tokens hpc rfl
      omega

/-- Both blocking queues, for every capacity that the space semaphore is
initialised with, any number of threads and every interleaving of their
statements. -/
theorem blocking_queue_fifo (variant : Variant) (junk : Junk V) (capacity : Nat)
    (hinit : variant.Initialises capacity) (s : System T V)
    (hs : Reaches (step variant) (start variant junk capacity) s) :
    FifoSafe s := by
  have hbalanced : Balanced variant capacity
      (variant.api.initial junk.semSpace.toNat capacity) s :=
    hs.invariant (fun _ _ _ h hnext => h.step hnext) (start_balanced hinit)
  exact hbalanced.fifoSafe

/-- Thread 0 puts 7 in a queue of one slot, while thread 1 takes it. -/
def putTakeRun : List (Event (Fin 2) Nat) :=
  [.call 0 (.put 7), .call 1 .take] ++ List.replicate 6 (.advance 0) ++
    List.replicate 4 (.advance 1)

theorem put_take_run_enabled :
    (runEvents (step .posix) (start .posix ⟨fun _ => 0, 0⟩ 1) putTakeRun).isSome := by
  decide

theorem put_take_run_fifo :
    FifoSafe ((runEvents (step .posix) (start .posix ⟨fun _ => 0, 0⟩ 1)
      putTakeRun).get put_take_run_enabled) :=
  blocking_queue_fifo .posix ⟨fun _ => 0, 0⟩ 1 (by decide) _
    ⟨putTakeRun, (Option.some_get put_take_run_enabled).symm⟩

section Uninitialised

omit [Fintype T]

structure Filled (cap initial n : Nat) (queue : BlockingQueue T V) (history : History V) :
    Prop where
  capacity : queue.capacity = cap
  tail : queue.tail = n % cap
  mutexTail : queue.mutexTail = none
  semSpace : queue.semSpace + n = initial
  unread : 0 < n → history.unread 0 = true

variable {queue : BlockingQueue T V} {history : History V} {n : Nat}

/-- A put as far as its store. -/
theorem reaches_store
    (h : QueueSystem.ReachesAt (RingBuffer.step variant) s t .idle queue history)
    (hspace : queue.semSpace ≠ 0) (hmutex : queue.mutexTail = none) (e : V) :
    QueueSystem.ReachesAt (RingBuffer.step variant) s t (.putStore e)
      { queue with semSpace := queue.semSpace - 1, mutexTail := some t } history := by
  have hcalled := h.next (.call t (.put e)) (.putWait e) queue history
    fun u hpc hqueue hhistory => by
      simp [RingBuffer.step, hpc, hqueue, hhistory, Call.entry]
  have hwaited := hcalled.next (.advance t) (.putLock e)
    { queue with semSpace := queue.semSpace - 1 } history fun u hpc hqueue hhistory => by
      simp [RingBuffer.step, RingBuffer.advance, hpc, hqueue, hhistory, hspace]
  exact hwaited.next (.advance t) _ _ _ fun u hpc hqueue hhistory => by
    simp [RingBuffer.step, RingBuffer.advance, hpc, hqueue, hhistory, hmutex]

theorem reaches_put
    (h : QueueSystem.ReachesAt (RingBuffer.step variant) s t .idle queue history)
    (hspace : queue.semSpace ≠ 0) (hmutex : queue.mutexTail = none) (e : V) :
    QueueSystem.ReachesAt (RingBuffer.step variant) s t .idle
      { queue with
        semSpace := queue.semSpace - 1
        mutexTail := none
        buffer := Function.update queue.buffer queue.tail e
        tail := (queue.tail + 1) % queue.capacity
        semElement := variant.api.post queue.semElement } (history.put queue.tail e) := by
  have hstored := (reaches_store h hspace hmutex e).next (.advance t) .putAdvance
    { queue with
      semSpace := queue.semSpace - 1
      mutexTail := some t
      buffer := Function.update queue.buffer queue.tail e } (history.put queue.tail e)
    fun u hpc hqueue hhistory => by
      simp [RingBuffer.step, RingBuffer.advance, hpc, hqueue, hhistory]
  have hadvanced := hstored.next (.advance t) .putUnlock
    { queue with
      semSpace := queue.semSpace - 1
      mutexTail := some t
      buffer := Function.update queue.buffer queue.tail e
      tail := (queue.tail + 1) % queue.capacity } (history.put queue.tail e)
    fun u hpc hqueue hhistory => by
      simp [RingBuffer.step, RingBuffer.advance, hpc, hqueue, hhistory]
  have hunlocked := hadvanced.next (.advance t) .putPost
    { queue with
      semSpace := queue.semSpace - 1
      mutexTail := none
      buffer := Function.update queue.buffer queue.tail e
      tail := (queue.tail + 1) % queue.capacity } (history.put queue.tail e)
    fun u hpc hqueue hhistory => by
      simp [RingBuffer.step, RingBuffer.advance, hpc, hqueue, hhistory]
  exact hunlocked.next (.advance t) _ _ _ fun u hpc hqueue hhistory => by
    simp [RingBuffer.step, RingBuffer.advance, hpc, hqueue, hhistory]

/-- One thread alone puts as many values as there are spaces. -/
theorem reaches_filled (hstart : Filled cap initial 0 s.queue s.history) (hidle : s.pc t = .idle)
    (e : V) (hn : n ≤ initial) :
    ∃ queue history, QueueSystem.ReachesAt (RingBuffer.step variant) s t .idle queue history ∧
      Filled cap initial n queue history := by
  induction n with
  | zero => exact ⟨s.queue, s.history, ⟨s, .refl, hidle, rfl, rfl⟩, hstart⟩
  | succ n ih =>
      obtain ⟨queue, history, hreaches, hfilled⟩ := ih (by omega)
      have hsum := hfilled.semSpace
      refine ⟨_, _, reaches_put hreaches (by omega) hfilled.mutexTail e, hfilled.capacity, ?_, rfl,
        ?_, ?_⟩
      · simp only
        rw [hfilled.tail, hfilled.capacity, Nat.mod_add_mod]
      · simp only
        omega
      · intro _
        -- the first put is in slot 0
        change Function.update history.unread queue.tail true 0 = true
        rcases eq_or_ne queue.tail 0 with hzero | hne
        · rw [hzero, Function.update_self]
        · have hpos : 0 < n := by
            refine Nat.pos_of_ne_zero fun hzero => hne ?_
            rw [hfilled.tail, hzero, Nat.zero_mod]
          rw [Function.update_of_ne hne.symm, hfilled.unread hpos]

/-- A space semaphore that is not initialised may let more values in than there
are slots. -/
theorem failed_init_overwrites (junk : Junk V) {capacity : Nat}
    (hfails : ¬ Variant.posix.Initialises capacity) (hjunk : capacity < junk.semSpace.toNat)
    (t : T) (e : V) :
    ∃ s : System T V, Reaches (RingBuffer.step .posix) (start .posix junk capacity) s ∧
      ¬ FifoSafe s := by
  have hspaces : Variant.posix.api.initial junk.semSpace.toNat capacity =
      junk.semSpace.toNat := by
    have hinit : semInit capacity = none := if_neg hfails
    simp only [Variant.api, hinit, Option.getD_none]
  have hpos : 0 < capacity := by
    refine Nat.pos_of_ne_zero fun hzero => hfails ?_
    rw [hzero]
    exact Nat.zero_le _
  have hstart : Filled capacity junk.semSpace.toNat 0
      (start .posix junk capacity : System T V).queue
      (start .posix junk capacity : System T V).history :=
    ⟨rfl, (Nat.zero_mod capacity).symm, rfl, hspaces, by simp⟩
  obtain ⟨queue, history, hreaches, hfilled⟩ : ∃ queue history,
      QueueSystem.ReachesAt (RingBuffer.step .posix) (start .posix junk capacity) t .idle
        queue history ∧ Filled capacity junk.semSpace.toNat capacity queue history :=
    reaches_filled hstart rfl e hjunk.le
  have hsum := hfilled.semSpace
  obtain ⟨s, hs, hpc, hqueue, hhistory⟩ :=
    reaches_store hreaches (by omega) hfilled.mutexTail e
  refine ⟨s, hs, fun hsafe => ?_⟩
  have hfree := hsafe.write_read_slot t e hpc
  have htail : s.queue.tail = 0 := by
    rw [hqueue]
    simp only
    rw [hfilled.tail, Nat.mod_self]
  rw [htail, hhistory, hfilled.unread hpos] at hfree
  cases hfree

end Uninitialised

/-- The memory of the semaphore reads as the greatest `unsigned int`. -/
theorem posix_queue_overwrites :
    ∃ s : System Unit Nat, Reaches (step .posix)
      (start .posix ⟨fun _ => 0, 0xffffffff⟩ (2 ^ 31)) s ∧ ¬ FifoSafe s :=
  failed_init_overwrites _ (by decide) (by decide) () 7

end CsPrimer.RingBuffer
