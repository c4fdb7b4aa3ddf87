import CsPrimer.RingBuffer.Fifo

/-!
The POSIX queue between producers and consumers that loop. With exact token
accounting a full stop would need every producer to wait for a space and every
consumer for an element at once, with no token in circulation.
-/

namespace CsPrimer.RingBuffer

open Foundation

inductive Role where
  | producer
  | consumer
  deriving DecidableEq, Repr

instance : Fintype Role where
  elems := {.producer, .consumer}
  complete := by
    intro role
    cases role <;> decide

variable {T V : Type}

/-- What the loop of `producer` or of `consumer` calls next. The values put
are left open. -/
def Role.calls : Role → Call V → Bool
  | .producer, .put _ => true
  | .consumer, .take => true
  | _, _ => false

def storedValues (s : System T V) : Nat :=
  ((Finset.range s.queue.capacity).filter
    (fun slot => s.history.unread slot = true)).card

variable [DecidableEq T]

def loop (role : T → Role) (s : System T V) :
    Event T V → Option (System T V)
  | .call t op =>
      if (role t).calls op then step .posix s (.call t op) else none
  | .advance t => step .posix s (.advance t)

variable [Fintype T] {cap initial : Nat} {s next : System T V} {t : T}
  {role : T → Role}

def Role.runs : Role → Point V → Bool
  | _, .idle => true
  | .producer, .putWait _ | .producer, .putLock _ | .producer, .putStore _
  | .producer, .putAdvance | .producer, .putUnlock | .producer, .putPost => true
  | .consumer, .takeWait | .consumer, .takeLock | .consumer, .takeLoad
  | .consumer, .takeAdvance _ | .consumer, .takeUnlock _
  | .consumer, .takePost _ => true
  | _, _ => false

structure Looping (role : T → Role) (cap initial : Nat) (s : System T V) : Prop where
  balanced : Balanced .posix cap initial s
  runs : ∀ t, (role t).runs (s.pc t) = true

omit [DecidableEq T] [Fintype T] in
theorem initialises_of_le (hmax : cap ≤ semValueMax) : Variant.posix.Initialises cap :=
  (Nat.mod_le _ _).trans hmax

omit [DecidableEq T] [Fintype T] in
theorem posix_initial (hmax : cap ≤ semValueMax) (memory : Nat) :
    Variant.posix.api.initial memory cap = cap := by
  have hinit : semInit cap = some (cap % 2 ^ 32) := if_pos (initialises_of_le hmax)
  have hsmall : cap % 2 ^ 32 = cap := Nat.mod_eq_of_lt (by
    unfold semValueMax at hmax
    omega)
  simp only [Variant.api, hinit, Option.getD_some, hsmall]

omit [Fintype T] in
/-- Every statement leads to a statement of the same call, or out of it. -/
theorem advance_runs {api : SemaphoreApi} (hnext : advance api s t = some next) :
    ∃ point, next.pc = Function.update s.pc t point ∧
      ∀ r : Role, r.runs (s.pc t) = true → r.runs point = true := by
  cases hpc : s.pc t with
  | idle => simp [advance, hpc] at hnext
  | putWait e | putLock e | takeWait | takeLock =>
      simp only [advance, hpc] at hnext
      split at hnext
      all_goals cases hnext
      all_goals refine ⟨_, rfl, ?_⟩
      all_goals intro r hr; cases r <;> first | rfl | cases hr
  | _ =>
      simp only [advance, hpc, Option.some.injEq] at hnext
      subst hnext
      refine ⟨_, rfl, ?_⟩
      intro r hr
      cases r <;> first | rfl | cases hr

theorem Looping.step {event : Event T V} (h : Looping role cap initial s)
    (hnext : loop role s event = some next) : Looping role cap initial next := by
  cases event with
  | advance t =>
      simp only [loop] at hnext
      refine ⟨h.balanced.step hnext, ?_⟩
      obtain ⟨point, hpc, hruns⟩ := advance_runs hnext
      intro other
      rw [hpc]
      rcases eq_or_ne other t with rfl | hne
      · rw [Function.update_self]
        exact hruns _ (h.runs other)
      · rw [Function.update_of_ne hne]
        exact h.runs other
  | call t op =>
      simp only [loop] at hnext
      split at hnext
      · rename_i hcalls
        refine ⟨h.balanced.step hnext, ?_⟩
        simp only [RingBuffer.step] at hnext
        split at hnext
        · cases hnext
          intro other
          simp only [QueueSystem.goto]
          rcases eq_or_ne other t with rfl | hne
          · rw [Function.update_self]
            cases hrole : role other <;> cases op <;>
              first | rfl | (rw [hrole] at hcalls; cases hcalls)
          · rw [Function.update_of_ne hne]
            exact h.runs other
        · cases hnext
      · cases hnext

omit [DecidableEq T] in
/-- With no token in circulation the semaphores count the spaces and the
values. -/
theorem Balanced.at_rest (h : Balanced .posix cap cap s)
    (hrest : ∀ t, holdsToken (s.pc t) = false) :
    s.queue.semSpace + s.queue.semElement = cap ∧
      s.queue.semElement = storedValues s := by
  have hspaceHeld : tokens spaceHeld s.pc = 0 := by
    apply tokens_eq_zero
    intro t
    have ht := hrest t
    cases hpc : s.pc t <;> first | rfl | (rw [hpc] at ht; cases ht)
  have helementHeld : tokens elementHeld s.pc = 0 := by
    apply tokens_eq_zero
    intro t
    have ht := hrest t
    cases hpc : s.pc t <;> first | rfl | (rw [hpc] at ht; cases ht)
  have hspace := h.space
  have helement := h.element
  have hstored : storedValues s = s.history.pending := by
    rw [storedValues, h.capacity_eq]
    exact h.log.card_unread
  rw [hstored, History.pending]
  omega

omit [Fintype T] in
/-- A statement that does not go on is a wait for a token or a lock of a
mutex with an owner. -/
theorem blocked_cases {api : SemaphoreApi} (hblocked : advance api s t = none)
    (hbusy : s.pc t ≠ .idle) :
    ((∃ e, s.pc t = .putWait e) ∧ s.queue.semSpace = 0) ∨
    ((∃ e, s.pc t = .putLock e) ∧ s.queue.mutexTail ≠ none) ∨
    (s.pc t = .takeWait ∧ s.queue.semElement = 0) ∨
    (s.pc t = .takeLock ∧ s.queue.mutexHead ≠ none) := by
  cases hpc : s.pc t with
  | idle => exact absurd hpc hbusy
  | putWait e =>
      simp only [advance, hpc] at hblocked
      split at hblocked
      · rename_i hzero
        exact .inl ⟨⟨e, rfl⟩, hzero⟩
      · cases hblocked
  | putLock e =>
      simp only [advance, hpc] at hblocked
      split at hblocked
      · cases hblocked
      · rename_i howned
        exact .inr (.inl ⟨⟨e, rfl⟩, howned⟩)
  | takeWait =>
      simp only [advance, hpc] at hblocked
      split at hblocked
      · rename_i hzero
        exact .inr (.inr (.inl ⟨rfl, hzero⟩))
      · cases hblocked
  | takeLock =>
      simp only [advance, hpc] at hblocked
      split at hblocked
      · cases hblocked
      · rename_i howned
        exact .inr (.inr (.inr ⟨rfl, howned⟩))
  | _ =>
      simp only [advance, hpc] at hblocked
      cases hblocked

def Stuck (s : System T V) : Prop :=
  ∀ t, s.pc t ≠ .idle ∧ advance Variant.posix.api s t = none

/-- Who owns a mutex is not at a wait or a lock and goes on, so in a full stop
both mutexes are free. -/
theorem Balanced.mutexes_free (h : Balanced .posix cap initial s) (hstuck : Stuck s) :
    s.queue.mutexTail = none ∧ s.queue.mutexHead = none := by
  have houtside : ∀ t, inTail (s.pc t) = false ∧ inHead (s.pc t) = false := by
    intro t
    rcases blocked_cases (hstuck t).2 (hstuck t).1 with
      ⟨⟨e, hpc⟩, _⟩ | ⟨⟨e, hpc⟩, _⟩ | ⟨hpc, _⟩ | ⟨hpc, _⟩
    all_goals
      rw [hpc]
      exact ⟨rfl, rfl⟩
  constructor
  · cases howner : s.queue.mutexTail with
    | none => rfl
    | some t =>
        have hinside := (h.tail_owner t).mpr howner
        rw [(houtside t).1] at hinside
        cases hinside
  · cases howner : s.queue.mutexHead with
    | none => rfl
    | some t =>
        have hinside := (h.head_owner t).mpr howner
        rw [(houtside t).2] at hinside
        cases hinside

/-- In a full stop every thread waits for a token that is not there. -/
theorem Balanced.all_waiting (h : Balanced .posix cap initial s) (hstuck : Stuck s)
    (t : T) : ((∃ e, s.pc t = .putWait e) ∧ s.queue.semSpace = 0) ∨
      (s.pc t = .takeWait ∧ s.queue.semElement = 0) := by
  obtain ⟨htail, hhead⟩ := h.mutexes_free hstuck
  rcases blocked_cases (hstuck t).2 (hstuck t).1 with
    hput | ⟨_, howned⟩ | htake | ⟨_, howned⟩
  · exact .inl hput
  · exact absurd htail howned
  · exact .inr htake
  · exact absurd hhead howned

/-- A producer and a consumer never both wait in vain. -/
theorem Looping.not_stuck (h : Looping role cap cap s)
    (hproducer : ∃ t, role t = .producer) (hconsumer : ∃ t, role t = .consumer)
    (hpos : 1 ≤ cap) : ¬ Stuck s := by
  intro hstuck
  have hwaiting := h.balanced.all_waiting hstuck
  have hrest : ∀ t, holdsToken (s.pc t) = false := by
    intro t
    rcases hwaiting t with ⟨⟨e, hpc⟩, _⟩ | ⟨hpc, _⟩
    · rw [hpc]
      rfl
    · rw [hpc]
      rfl
  obtain ⟨hsum, _⟩ := h.balanced.at_rest hrest
  have hspace : s.queue.semSpace = 0 := by
    obtain ⟨t, hrole⟩ := hproducer
    rcases hwaiting t with ⟨_, hzero⟩ | ⟨hpc, _⟩
    · exact hzero
    · have hruns := h.runs t
      rw [hrole, hpc] at hruns
      cases hruns
  have helement : s.queue.semElement = 0 := by
    obtain ⟨t, hrole⟩ := hconsumer
    rcases hwaiting t with ⟨⟨e, hpc⟩, _⟩ | ⟨_, hzero⟩
    · have hruns := h.runs t
      rw [hrole, hpc] at hruns
      cases hruns
    · exact hzero
  omega

omit [Fintype T] in
/-- An idle thread calls again, so what does not go on is stuck. -/
theorem exists_step_of_not_stuck [Nonempty V] (hmoves : ¬ Stuck s) :
    ∃ event next, loop role s event = some next := by
  simp only [Stuck, not_forall] at hmoves
  obtain ⟨t, ht⟩ := hmoves
  rcases eq_or_ne (s.pc t) .idle with hidle | hbusy
  · obtain ⟨e⟩ := ‹Nonempty V›
    cases hrole : role t with
    | producer =>
        refine ⟨.call t (.put e), s.goto t (.putWait e) s.queue s.history, ?_⟩
        simp [loop, hrole, Role.calls, RingBuffer.step, hidle, Call.entry]
    | consumer =>
        refine ⟨.call t .take, s.goto t .takeWait s.queue s.history, ?_⟩
        simp [loop, hrole, Role.calls, RingBuffer.step, hidle, Call.entry]
  · have hadvance : advance Variant.posix.api s t ≠ none :=
      fun hnone => ht ⟨hbusy, hnone⟩
    obtain ⟨next, hnext⟩ := Option.ne_none_iff_exists'.mp hadvance
    exact ⟨.advance t, next, hnext⟩

/-- With producers and consumers in any numbers and any interleaving, the
semaphores account for every slot whenever no thread holds a token, and some
thread can always go on. -/
theorem producers_consumers_progress (role : T → Role)
    (hproducer : ∃ t, role t = .producer) (hconsumer : ∃ t, role t = .consumer)
    (junk : Junk V) (capacity : Nat) (hpos : 1 ≤ capacity)
    (hmax : capacity ≤ semValueMax) (s : System T V)
    (hs : Reaches (loop role) (start .posix junk capacity) s) :
    ((∀ t, holdsToken (s.pc t) = false) →
      s.queue.semSpace + s.queue.semElement = capacity ∧
        s.queue.semElement = storedValues s) ∧
    ∃ event next, loop role s event = some next := by
  have hbalanced : Balanced .posix capacity capacity
      (start .posix junk capacity : System T V) := by
    have hstart : Balanced .posix capacity _ (start .posix junk capacity : System T V) :=
      start_balanced (initialises_of_le hmax)
    rwa [posix_initial hmax] at hstart
  have hlooping : Looping role capacity capacity s := by
    refine hs.invariant (fun _ _ _ h hnext => h.step hnext) ⟨hbalanced, ?_⟩
    intro t
    cases role t <;> rfl
  have hnonempty : Nonempty V := ⟨junk.slots 0⟩
  exact ⟨hlooping.balanced.at_rest, exists_step_of_not_stuck
    (hlooping.not_stuck hproducer hconsumer hpos)⟩

def callsRun : List (Event Role Nat) :=
  [.call .consumer .take, .call .producer (.put 7)]

theorem calls_run_enabled :
    (runEvents (loop id) (start .posix ⟨fun _ => 0, 0⟩ 1) callsRun).isSome := by
  decide

theorem calls_run_progress :
    ∃ event next, loop id
      ((runEvents (loop id) (start .posix ⟨fun _ => 0, 0⟩ 1) callsRun).get
        calls_run_enabled) event = some next :=
  (producers_consumers_progress id ⟨.producer, rfl⟩ ⟨.consumer, rfl⟩
    ⟨fun _ => 0, 0⟩ 1 (by decide) (by decide) _
    ⟨callsRun, (Option.some_get calls_run_enabled).symm⟩).2

end CsPrimer.RingBuffer
