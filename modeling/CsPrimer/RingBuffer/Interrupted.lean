import CsPrimer.RingBuffer.Fifo

/-!
The System V queue when `semop` fails with `EINTR`. Neither put nor take looks
at what `semop` returns: after a failed wait they go on without a token. A
failed post only loses a token, so a run without failed waits is one that the
queue without failures can follow, with its semaphores at least as high.
-/

namespace CsPrimer.RingBuffer

open Foundation

variable {T V : Type} [DecidableEq T]

inductive SemopEvent (T V : Type) where
  | event (event : Event T V)
  | interrupted (thread : T)
  deriving DecidableEq, Repr

/-- The failed `semop` leaves the semaphore alone, and the thread goes on to
the statement after it. -/
def interrupted (s : System T V) (t : T) : Option (System T V) :=
  match s.pc t with
  | .putWait e => some (s.goto t (.putLock e) s.queue s.history)
  | .putPost => some (s.goto t .idle s.queue s.history)
  | .takeWait => some (s.goto t .takeLock s.queue s.history)
  | .takePost _ => some (s.goto t .idle s.queue s.history)
  | _ => none

def semopStep (s : System T V) : SemopEvent T V → Option (System T V)
  | .event event => step .sysv s event
  | .interrupted t => interrupted s t

omit [DecidableEq T] in
/-- The event is a failed `semop` that was to take a token. -/
def waitFails (s : System T V) : SemopEvent T V → Bool
  | .event _ => false
  | .interrupted t =>
      match s.pc t with
      | .putWait _ | .takeWait => true
      | _ => false

/-- A put about to write meets no value that is not yet taken, and a take
about to read meets a slot filled since it was last taken. -/
structure SlotSafe (s : System T V) : Prop where
  not_overwritten : ∀ t e, s.pc t = .putStore e →
    s.history.unread s.queue.tail = false
  filled : ∀ t, s.pc t = .takeLoad → s.history.unread s.queue.head = true

def withSemaphores (s : System T V) (element space : Nat) : System T V :=
  { s with queue := { s.queue with semElement := element, semSpace := space } }

/-- The states agree but for the semaphores, which are at most as high. -/
def Below (s s' : System T V) : Prop :=
  ∃ element ≤ s'.queue.semElement, ∃ space ≤ s'.queue.semSpace,
    s = withSemaphores s' element space

variable {s s' next : System T V} {t : T}

omit [DecidableEq T] in
theorem SemaphoreApi.post_mono (api : SemaphoreApi) {value value' : Nat}
    (hle : value ≤ value') : api.post value ≤ api.post value' := by
  unfold SemaphoreApi.post
  split <;> split <;> omega

omit [DecidableEq T] in
theorem SemaphoreApi.le_post (api : SemaphoreApi) (value : Nat) :
    value ≤ api.post value := by
  unfold SemaphoreApi.post
  split <;> omega

/-- Every statement can be followed with higher semaphores. -/
theorem Below.advance {api : SemaphoreApi} (h : Below s s')
    (hnext : advance api s t = some next) :
    ∃ next', RingBuffer.advance api s' t = some next' ∧ Below next next' := by
  obtain ⟨element, helement, space, hspace, hs⟩ := h
  have hpc' : s'.pc t = s.pc t := by
    rw [hs]
    rfl
  cases hpc : s.pc t with
  | idle => simp [RingBuffer.advance, hpc] at hnext
  | putWait e =>
      rw [hpc] at hpc'
      simp only [RingBuffer.advance, hpc, hpc'] at hnext ⊢
      split at hnext
      · cases hnext
      · rename_i hpos
        cases hnext
        subst hs
        have hpos' : s'.queue.semSpace ≠ 0 := fun hzero =>
          hpos (Nat.le_zero.mp (hzero ▸ hspace))
        rw [if_neg hpos']
        refine ⟨_, rfl, element, helement, space - 1, ?_, rfl⟩
        exact Nat.sub_le_sub_right hspace 1
  | takeWait =>
      rw [hpc] at hpc'
      simp only [RingBuffer.advance, hpc, hpc'] at hnext ⊢
      split at hnext
      · cases hnext
      · rename_i hpos
        cases hnext
        subst hs
        have hpos' : s'.queue.semElement ≠ 0 := fun hzero =>
          hpos (Nat.le_zero.mp (hzero ▸ helement))
        rw [if_neg hpos']
        refine ⟨_, rfl, element - 1, ?_, space, hspace, rfl⟩
        exact Nat.sub_le_sub_right helement 1
  | putLock e =>
      rw [hpc] at hpc'
      simp only [RingBuffer.advance, hpc, hpc'] at hnext ⊢
      split at hnext
      · rename_i hfree
        cases hnext
        subst hs
        have hfree' : s'.queue.mutexTail = none := hfree
        rw [if_pos hfree']
        exact ⟨_, rfl, element, helement, space, hspace, rfl⟩
      · cases hnext
  | takeLock =>
      rw [hpc] at hpc'
      simp only [RingBuffer.advance, hpc, hpc'] at hnext ⊢
      split at hnext
      · rename_i hfree
        cases hnext
        subst hs
        have hfree' : s'.queue.mutexHead = none := hfree
        rw [if_pos hfree']
        exact ⟨_, rfl, element, helement, space, hspace, rfl⟩
      · cases hnext
  | putPost =>
      rw [hpc] at hpc'
      simp only [RingBuffer.advance, hpc, hpc', Option.some.injEq] at hnext ⊢
      subst hnext hs
      exact ⟨_, rfl, _, api.post_mono helement, space, hspace, rfl⟩
  | takePost e =>
      rw [hpc] at hpc'
      simp only [RingBuffer.advance, hpc, hpc', Option.some.injEq] at hnext ⊢
      subst hnext hs
      exact ⟨_, rfl, element, helement, _, api.post_mono hspace, rfl⟩
  | _ =>
      rw [hpc] at hpc'
      simp only [RingBuffer.advance, hpc, hpc', Option.some.injEq] at hnext ⊢
      subst hnext hs
      exact ⟨_, rfl, element, helement, space, hspace, rfl⟩

/-- A failed post is followed by one that succeeds. -/
theorem Below.interrupted (h : Below s s')
    (hpost : waitFails s (.interrupted t) = false)
    (hnext : interrupted s t = some next) :
    ∃ next', RingBuffer.advance Variant.sysv.api s' t = some next' ∧
      Below next next' := by
  obtain ⟨element, helement, space, hspace, rfl⟩ := h
  cases hpc : s'.pc t with
  | putWait e | takeWait =>
      simp [waitFails, withSemaphores, hpc] at hpost
  | putPost =>
      simp only [RingBuffer.interrupted, RingBuffer.advance,
        withSemaphores, hpc, Option.some.injEq] at hnext ⊢
      subst hnext
      exact ⟨_, rfl, element, helement.trans (SemaphoreApi.le_post ..), space,
        hspace, rfl⟩
  | takePost e =>
      simp only [RingBuffer.interrupted, RingBuffer.advance,
        withSemaphores, hpc, Option.some.injEq] at hnext ⊢
      subst hnext
      exact ⟨_, rfl, element, helement, space,
        hspace.trans (SemaphoreApi.le_post ..), rfl⟩
  | _ => simp [RingBuffer.interrupted, withSemaphores, hpc] at hnext

theorem Below.semopStep {event : SemopEvent T V} (h : Below s s')
    (hpost : waitFails s event = false)
    (hnext : semopStep s event = some next) :
    ∃ next', Reaches (step .sysv) s' next' ∧ Below next next' := by
  cases event with
  | interrupted t =>
      obtain ⟨next', hadvance, hbelow⟩ := h.interrupted hpost hnext
      have hstep : step .sysv s' (.advance t) = some next' := hadvance
      exact ⟨next', Reaches.single hstep, hbelow⟩
  | event event =>
      cases event with
      | advance t =>
          obtain ⟨next', hadvance, hbelow⟩ := h.advance hnext
          have hstep : step .sysv s' (.advance t) = some next' := hadvance
          exact ⟨next', Reaches.single hstep, hbelow⟩
      | call t op =>
          obtain ⟨element, helement, space, hspace, rfl⟩ := h
          simp only [RingBuffer.semopStep, step, withSemaphores] at hnext
          split at hnext
          · rename_i hpc
            cases hnext
            have hstep : step .sysv s' (.call t op) =
                some (s'.goto t op.entry s'.queue s'.history) := by
              simp only [step, hpc]
            exact ⟨_, Reaches.single hstep, element, helement, space, hspace,
              rfl⟩
          · cases hnext

omit [DecidableEq T] in
/-- Safety of the slots does not depend on the semaphores. -/
theorem Below.slotSafe (h : Below s s') (hsafe : FifoSafe s') : SlotSafe s := by
  obtain ⟨element, _, space, _, rfl⟩ := h
  exact ⟨hsafe.write_read_slot, hsafe.read_written_slot⟩

/-- In every run of the System V queue in which no wait fails, slots are
written and read as intended, whatever posts fail. -/
theorem sysv_slots_safe [Fintype T] (junk : Junk V) (capacity : Nat)
    (events : List (SemopEvent T V)) (s : System T V)
    (hrun : runEvents semopStep (start .sysv junk capacity) events = some s)
    (hwaits : EachStep semopStep (fun s event => waitFails s event = false)
      (start .sysv junk capacity) events) : SlotSafe s := by
  have hstart : Below (start .sysv junk capacity : System T V)
      (start .sysv junk capacity) := ⟨_, le_rfl, _, le_rfl, rfl⟩
  obtain ⟨s', hs', hbelow⟩ := hwaits.simulated
    (fun _ _ _ _ h hpost hnext => h.semopStep hpost hnext) hstart hrun
  have hsafe : FifoSafe s' := by
    have hbalanced := hs'.invariant (fun _ _ _ (h : Balanced .sysv capacity _ _) hnext =>
      h.step hnext) (start_balanced trivial)
    exact hbalanced.fifoSafe
  exact hbelow.slotSafe hsafe

/-- One thread puts 7 in a queue of one slot. Its next wait fails, and it is
about to write over 7. -/
def failedWaitRun : List (SemopEvent Unit Nat) :=
  .event (.call () (.put 7)) ::
    (List.replicate 6 (SemopEvent.event (Event.advance ())) ++
      [SemopEvent.event (Event.call () (.put 8)), SemopEvent.interrupted (),
        SemopEvent.event (Event.advance ())])

/-- The post of the first put fails, which costs a token only. -/
def failedPostRun : List (SemopEvent Unit Nat) :=
  .event (.call () (.put 7)) ::
    (List.replicate 5 (SemopEvent.event (Event.advance ())) ++
      [SemopEvent.interrupted (), SemopEvent.event (Event.call () .take)])

theorem failed_post_run_enabled :
    (runEvents semopStep (start .sysv ⟨fun _ => 0, 0⟩ 1) failedPostRun).isSome := by
  decide

theorem failed_post_slots_safe :
    SlotSafe ((runEvents semopStep (start .sysv ⟨fun _ => 0, 0⟩ 1)
      failedPostRun).get failed_post_run_enabled) :=
  sysv_slots_safe ⟨fun _ => 0, 0⟩ 1 failedPostRun _
    (Option.some_get failed_post_run_enabled).symm (by decide)

theorem failed_wait_run_enabled :
    (runEvents semopStep (start .sysv ⟨fun _ => 0, 0⟩ 1) failedWaitRun).isSome := by
  decide

theorem failed_wait_overwrites :
    ¬ SlotSafe ((runEvents semopStep (start .sysv ⟨fun _ => 0, 0⟩ 1)
      failedWaitRun).get failed_wait_run_enabled) := by
  intro hsafe
  have hfree := hsafe.not_overwritten () 8 (by decide)
  revert hfree
  decide

end CsPrimer.RingBuffer
