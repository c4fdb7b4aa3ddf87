import CsPrimer.MultiThreadedFizzbuzz.Rounds

/-!
No wakeup is lost. A thread that waits found its flag clear under the mutex,
and who sets the flag later signals before it gives the mutex back. Together
with the turns this leaves, in every reachable state, a thread that can go on
without a spurious wakeup.
-/

namespace CsPrimer.MultiThreadedFizzbuzz

open Foundation

def Point.holds : Point → Bool
  | .lock | .wait _ | .wake | .sleep => false
  | _ => true

structure Awake (s : System) : Prop where
  owned : Owned Point.holds s.pc s.mutex
  worker_points : ∀ t, t ≠ .main → s.pc t ≠ .choose ∧ s.pc t ≠ .sleep
  awaited : ∀ t cond, s.pc t = .wait cond → cond = t.awaited
  signalled : ∀ t cond, s.pc t = .wait cond → s.flags cond = true →
    ∃ u, u.done = cond ∧ s.pc u = .signal
  main_waits : ∀ cond, s.pc .main = .wait cond → s.n ≠ -1

variable {s s' next : System} {t u : Thread} {old point : Point} {cond : Flag}

theorem start_awake : Awake start where
  owned := by
    intro t
    simp [start, Point.holds]
  worker_points := fun _ _ => ⟨by simp [start], by simp [start]⟩
  awaited := by
    intro t cond hpc
    cases hpc
  signalled := by
    intro t cond hpc
    cases hpc
  main_waits := by
    intro cond hpc
    cases hpc

/-- What a statement of thread `u`, other than its signal, owes. -/
theorem Awake.goto (h : Awake s) (hpc : s.pc u = old) (hsignal : old ≠ .signal)
    (hpc' : s'.pc = Function.update s.pc u point)
    (howned : Owned Point.holds (Function.update s.pc u point) s'.mutex)
    (hworker : u ≠ .main → point ≠ .choose ∧ point ≠ .sleep)
    (hflags : ∀ flag, s'.flags flag = true →
      s.flags flag = true ∨ (flag = u.done ∧ point = .signal))
    (hwait : ∀ cond, point = .wait cond → cond = u.awaited ∧
      s'.flags cond = false ∧ (u = .main → s'.n ≠ -1))
    (hn : s.n ≠ -1 → s'.n ≠ -1) : Awake s' where
  owned := hpc' ▸ howned
  worker_points := by
    intro t hmain
    rw [hpc']
    rcases eq_or_ne t u with rfl | hne
    · rw [Function.update_self]
      exact hworker hmain
    · rw [Function.update_of_ne hne]
      exact h.worker_points t hmain
  awaited := by
    intro t cond hat
    rw [hpc'] at hat
    rcases eq_or_ne t u with rfl | hne
    · rw [Function.update_self] at hat
      exact (hwait cond hat).1
    · rw [Function.update_of_ne hne] at hat
      exact h.awaited t cond hat
  signalled := by
    intro t cond hat hflag
    rw [hpc'] at hat ⊢
    rcases eq_or_ne t u with rfl | hne
    · rw [Function.update_self] at hat
      rw [(hwait cond hat).2.1] at hflag
      cases hflag
    · rw [Function.update_of_ne hne] at hat
      rcases hflags cond hflag with hbefore | ⟨hdone, hpoint⟩
      · obtain ⟨v, hdone, hv⟩ := h.signalled t cond hat hbefore
        refine ⟨v, hdone, ?_⟩
        rw [Function.update_of_ne]
        · exact hv
        · rintro rfl
          exact hsignal (hpc.symm.trans hv)
      · refine ⟨u, hdone.symm, ?_⟩
        rw [Function.update_self]
        exact hpoint
  main_waits := by
    intro cond hat
    rw [hpc'] at hat
    rcases eq_or_ne Thread.main u with rfl | hne
    · rw [Function.update_self] at hat
      exact (hwait cond hat).2.2 rfl
    · rw [Function.update_of_ne hne] at hat
      exact hn (h.main_waits cond hat)

/-- The signal of thread `u` reaches the thread that waits for its flag. -/
theorem Awake.signal (h : Awake s) (hpc : s.pc u = .signal) :
    Awake ((s.signal u.done).goto u .unlock) := by
  have hstays : ∀ t cond, ((s.signal u.done).goto u .unlock).pc t = .wait cond →
      s.pc t = .wait cond ∧ cond ≠ u.done := by
    intro t cond hat
    simp only [System.goto, System.signal] at hat
    rcases eq_or_ne t u with rfl | hne
    · rw [Function.update_self] at hat
      cases hat
    · rw [Function.update_of_ne hne] at hat
      split at hat
      · cases hat
      · rename_i hother
        exact ⟨hat, fun heq => hother (heq ▸ hat)⟩
  have hsame : ∀ t, (∀ cond, s.pc t ≠ .wait cond) →
      (s.signal u.done).pc t = s.pc t :=
    fun t hnot => if_neg (hnot u.done)
  refine ⟨?_, ?_, ?_, ?_, ?_⟩
  · have hsignal : Owned Point.holds (s.signal u.done).pc s.mutex := by
      intro t
      rw [← h.owned t]
      simp only [System.signal]
      split
      · rename_i hwait
        rw [hwait]
        exact iff_of_false (by simp [Point.holds]) (by simp [Point.holds])
      · exact Iff.rfl
    have hsignalling : (s.signal u.done).pc u = .signal := by
      rw [hsame u (by simp [hpc]), hpc]
    exact hsignal.keep hsignalling rfl
  · intro t hmain
    simp only [System.goto, System.signal]
    rcases eq_or_ne t u with rfl | hne
    · rw [Function.update_self]
      simp
    · rw [Function.update_of_ne hne]
      split
      · simp
      · exact h.worker_points t hmain
  · intro t cond hat
    exact h.awaited t cond (hstays t cond hat).1
  · intro t cond hat hflag
    obtain ⟨hbefore, hother⟩ := hstays t cond hat
    obtain ⟨v, hdone, hv⟩ := h.signalled t cond hbefore hflag
    refine ⟨v, hdone, ?_⟩
    have hne : v ≠ u := by
      rintro rfl
      exact hother hdone.symm
    simp only [System.goto]
    rw [Function.update_of_ne hne, hsame v (by simp [hv]), hv]
  · intro cond hat
    exact h.main_waits cond (hstays .main cond hat).1

/-- A statement that leaves `n` alone, sets no flag and does not wait. -/
theorem Awake.move (h : Awake s) (hpc : s.pc u = old) (hsignal : old ≠ .signal)
    (hpc' : s'.pc = Function.update s.pc u point)
    (howned : Owned Point.holds (Function.update s.pc u point) s'.mutex)
    (hworker : u ≠ .main → point ≠ .choose ∧ point ≠ .sleep)
    (hflags : ∀ flag, s'.flags flag = true → s.flags flag = true)
    (hwait : ∀ cond, point ≠ .wait cond) (hn : s'.n = s.n) : Awake s' :=
  h.goto hpc hsignal hpc' howned hworker (fun flag hflag => .inl (hflags flag hflag))
    (fun cond hat => absurd hat (hwait cond)) (fun hchosen => hn ▸ hchosen)

/-- To take the mutex leads to the test. -/
theorem Awake.lock (h : Awake s) (hpc : s.pc u = .lock ∨ s.pc u = .wake)
    (hnext : s.lock u = some next) : Awake next := by
  unfold System.lock at hnext
  split at hnext
  · rename_i hfree
    cases hnext
    have howned := h.owned
    rw [hfree] at howned
    have hsignal : s.pc u ≠ .signal := by
      rcases hpc with hpc | hpc <;> simp [hpc]
    exact h.move rfl hsignal rfl (Owned.acquire howned rfl) (by simp)
      (fun _ h => h) (by simp) rfl
  · cases hnext

theorem Awake.unlock (h : Awake s) (hpc : s.pc u = .unlock)
    (hplain : point.holds = false) (hwait : ∀ cond, point ≠ .wait cond)
    (hworker : u ≠ .main → point ≠ .choose ∧ point ≠ .sleep) :
    Awake (s.unlock u point) :=
  h.move hpc (by simp) rfl (h.owned.release hpc rfl hplain) hworker
    (fun _ h => h) hwait rfl

/-- To wait gives the mutex back; the flag was found clear. -/
theorem Awake.wait (h : Awake s) (hpc : s.pc u = .test)
    (hflag : s.flags u.awaited = false) (hmain : u = .main → s.n ≠ -1) :
    Awake (s.unlock u (.wait u.awaited)) := by
  refine h.goto hpc (by simp) rfl (h.owned.release hpc rfl rfl) (by simp)
    (fun _ h => .inl h) ?_ (fun h => h)
  intro cond hat
  cases hat
  exact ⟨rfl, hflag, hmain⟩

theorem assign_false {flag other : Flag}
    (h : (s.assign flag false).flags other = true) : s.flags other = true := by
  simp only [System.assign] at h
  rcases eq_or_ne other flag with rfl | hne
  · rw [Function.update_self] at h
    cases h
  · rwa [Function.update_of_ne hne] at h

theorem Awake.clear (h : Awake s) (hpc : s.pc u = .clear) (flag : Flag)
    (hinside : point.holds = true) (hwait : ∀ cond, point ≠ .wait cond)
    (hworker : u ≠ .main → point ≠ .choose ∧ point ≠ .sleep) :
    Awake ((s.assign flag false).goto u point) :=
  h.move hpc (by simp) rfl (h.owned.keep hpc hinside) hworker
    (fun _ => assign_false) hwait rfl

/-- To set the flag leads to the signal. -/
theorem Awake.set (h : Awake s) (hpc : s.pc u = .set) :
    Awake ((s.assign u.done true).goto u .signal) := by
  refine h.goto hpc (by simp) rfl (h.owned.keep hpc rfl) (by simp) ?_ (by simp)
    (fun h => h)
  intro flag hflag
  simp only [System.goto, System.assign] at hflag
  rcases eq_or_ne flag u.done with rfl | hne
  · exact .inr ⟨rfl, rfl⟩
  · rw [Function.update_of_ne hne] at hflag
    exact .inl hflag

/-- A statement of a worker. -/
theorem Awake.workerStep {divisor : Int} {text : String} (h : Awake s)
    (hmain : u ≠ .main)
    (hnext : worker u u.awaited u.done divisor text s = some next) :
    Awake next := by
  cases hpc : s.pc u with
  | lock =>
      simp only [worker, hpc] at hnext
      exact h.lock (.inl hpc) hnext
  | wake =>
      simp only [worker, hpc] at hnext
      exact h.lock (.inr hpc) hnext
  | test =>
      simp only [worker, hpc] at hnext
      split at hnext
      · cases hnext
        exact h.move hpc (by simp) rfl (h.owned.keep hpc rfl) (by simp)
          (fun _ h => h) (by simp) rfl
      · rename_i hflag
        cases hnext
        exact h.wait hpc (Bool.eq_false_iff.mpr hflag)
          (fun heq => absurd heq hmain)
  | wait cond | choose | sleep =>
      simp [worker, hpc] at hnext
  | clear =>
      simp only [worker, hpc, Option.some.injEq] at hnext
      subst hnext
      exact h.clear hpc _ rfl (by simp) (by simp)
  | print =>
      rw [worker_print hpc] at hnext
      cases hnext
      exact h.move hpc (by simp) rfl (h.owned.keep hpc rfl) (by simp)
        (fun _ h => h) (by simp) rfl
  | set =>
      simp only [worker, hpc, Option.some.injEq] at hnext
      subst hnext
      exact h.set hpc
  | signal =>
      simp only [worker, hpc, Option.some.injEq] at hnext
      subst hnext
      exact h.signal hpc
  | unlock =>
      simp only [worker, hpc, Option.some.injEq] at hnext
      subst hnext
      exact h.unlock hpc rfl (by simp) (by simp)

/-- A statement of `main`. -/
theorem Awake.mainStep {rand : Nat} (h : Awake s)
    (hnext : main rand s = some next) : Awake next := by
  cases hpc : s.pc .main with
  | lock =>
      simp only [main, hpc] at hnext
      exact h.lock (.inl hpc) hnext
  | wake =>
      simp only [main, hpc] at hnext
      exact h.lock (.inr hpc) hnext
  | test =>
      simp only [main, hpc] at hnext
      split at hnext
      · rename_i hblocked
        cases hnext
        exact h.wait (u := .main) hpc hblocked.2 (fun _ => hblocked.1.symm)
      · cases hnext
        exact h.move hpc (by simp) rfl (h.owned.keep hpc rfl) (by simp)
          (fun _ h => h) (by simp) rfl
  | wait cond => simp [main, hpc] at hnext
  | clear =>
      simp only [main, hpc, Option.some.injEq] at hnext
      subst hnext
      exact h.clear hpc _ rfl (by simp) (fun hne => absurd rfl hne)
  | choose =>
      simp only [main, hpc, Option.some.injEq] at hnext
      subst hnext
      have hn : ((rand &&& 0xf : Nat) : Int) ≠ -1 := by omega
      exact h.goto hpc (by simp) rfl (h.owned.keep hpc rfl) (by simp)
        (fun _ h => .inl h) (by simp) (fun _ => hn)
  | print =>
      simp only [main, hpc, Option.some.injEq] at hnext
      subst hnext
      exact h.move hpc (by simp) rfl (h.owned.keep hpc rfl) (by simp)
        (fun _ h => h) (by simp) rfl
  | set =>
      simp only [main, hpc, Option.some.injEq] at hnext
      subst hnext
      exact h.set hpc
  | signal =>
      simp only [main, hpc, Option.some.injEq] at hnext
      subst hnext
      exact h.signal hpc
  | unlock =>
      simp only [main, hpc, Option.some.injEq] at hnext
      subst hnext
      exact h.unlock hpc rfl (by simp) (fun hne => absurd rfl hne)
  | sleep =>
      simp only [main, hpc, Option.some.injEq] at hnext
      subst hnext
      exact h.move hpc (by simp) rfl (h.owned.keep hpc rfl) (by simp)
        (fun _ h => h) (by simp) rfl

theorem Awake.step {event : Event} (h : Awake s)
    (hnext : step s event = some next) : Awake next := by
  cases event with
  | advance u rand =>
      cases u with
      | main => exact h.mainStep hnext
      | fizz => exact h.workerStep (by simp) hnext
      | buzz => exact h.workerStep (by simp) hnext
  | spuriousWakeup u =>
      simp only [MultiThreadedFizzbuzz.step] at hnext
      split at hnext
      · rename_i hpc
        cases hnext
        exact h.move hpc (by simp) rfl (h.owned.keep hpc rfl) (by simp)
          (fun _ h => h) (by simp) rfl
      · cases hnext

def CanAdvance (s : System) (t : Thread) : Prop :=
  ∃ rand next, advance s t rand = some next

theorem lock_of_free (hfree : s.mutex = none) :
    s.lock t = some { s.goto t .test with mutex := some t } := if_pos hfree

/-- What stops a thread is a wait, or a mutex with another owner. -/
theorem Awake.canAdvance (h : Awake s) (hwait : ∀ cond, s.pc t ≠ .wait cond)
    (hmutex : (s.pc t).holds = true ∨ s.mutex = none) : CanAdvance s t := by
  have hworker := h.worker_points t
  refine ⟨0, ?_⟩
  cases hpc : s.pc t with
  | wait cond => exact absurd hpc (hwait cond)
  | lock | wake =>
      rw [hpc] at hmutex
      have hfree : s.mutex = none := hmutex.resolve_left (by simp [Point.holds])
      cases t <;>
        simp [advance, fizz, buzz, worker, main, hpc, lock_of_free hfree]
  | test =>
      cases t with
      | main =>
          simp only [advance, main, hpc]
          split <;> exact ⟨_, rfl⟩
      | fizz | buzz =>
          simp only [advance, fizz, buzz, worker, hpc]
          split <;> exact ⟨_, rfl⟩
  | choose | sleep =>
      cases t with
      | main => simp [advance, main, hpc]
      | fizz | buzz => simp [hpc] at hworker
  | _ => cases t <;> simp [advance, fizz, buzz, worker, main, hpc]

/-- The thread on turn waits only while a signal for it is under way. -/
theorem Turn.signalled (h : Turn s t) (hawake : Awake s)
    (hpc : s.pc t = .wait cond) : ∃ u, u.done = cond ∧ s.pc u = .signal := by
  apply hawake.signalled t cond hpc
  rw [h.flags cond, hpc]
  refine ⟨hawake.awaited t cond hpc, rfl, ?_⟩
  intro hunchosen
  obtain rfl := h.first hunchosen
  exact hawake.main_waits cond hpc hunchosen

/-- The owner of the mutex can go on, or, with the mutex free, the thread on
turn. -/
theorem Turn.exists_canAdvance (h : Turn s t) (hawake : Awake s) :
    ∃ u, CanAdvance s u := by
  cases howner : s.mutex with
  | some u =>
      have hholds := (hawake.owned u).mpr howner
      refine ⟨u, hawake.canAdvance ?_ (.inl hholds)⟩
      intro cond hwait
      rw [hwait] at hholds
      cases hholds
  | none =>
      refine ⟨t, hawake.canAdvance ?_ (.inr howner)⟩
      intro cond hwait
      obtain ⟨u, _, hsignal⟩ := h.signalled hawake hwait
      have howns := (hawake.owned u).mp (by rw [hsignal]; rfl)
      rw [howner] at howns
      cases howns

theorem not_canAdvance_of_wait (hpc : s.pc t = .wait cond) : ¬ CanAdvance s t := by
  rintro ⟨rand, next, hnext⟩
  cases t <;> simp [advance, fizz, buzz, worker, main, hpc] at hnext

/-- The owner of the mutex is about to wake thread `t`. -/
def SignalPending (s : System) (t : Thread) : Prop :=
  ∃ u, s.mutex = some u ∧ ∀ rand, ∃ next, advance s u rand = some next ∧
    next.pc t = .wake

theorem signalPending_of_signal (hawake : Awake s) (hpc : s.pc t = .wait u.done)
    (hsignal : s.pc u = .signal) : SignalPending s t := by
  have hne : t ≠ u := by
    rintro rfl
    rw [hpc] at hsignal
    cases hsignal
  refine ⟨u, (hawake.owned u).mp (by rw [hsignal]; rfl), ?_⟩
  intro rand
  refine ⟨(s.signal u.done).goto u .unlock, ?_, ?_⟩
  · cases u <;> simp [advance, fizz, buzz, worker, main, hsignal, Thread.done]
  · simp only [System.goto, System.signal]
    rw [Function.update_of_ne hne, if_pos hpc]

/-- No full stop, and no wakeup lost: a waiting thread has its flag clear, or
set and the signal still to come in the same critical section. -/
structure Live (s : System) : Prop where
  moves : ∃ t, CanAdvance s t
  waiting : ∀ t cond, s.pc t = .wait cond →
    (s.flags cond = false ∨ SignalPending s t) ∧ ∃ u, u ≠ t ∧ CanAdvance s u

theorem Turn.live (h : Turn s t) (hawake : Awake s) : Live s where
  moves := h.exists_canAdvance hawake
  waiting := by
    intro t' cond hpc
    constructor
    · cases hflag : s.flags cond with
      | false => exact .inl rfl
      | true =>
          obtain ⟨u, rfl, hsignal⟩ := hawake.signalled t' cond hpc hflag
          exact .inr (signalPending_of_signal hawake hpc hsignal)
    · obtain ⟨u, hmoves⟩ := h.exists_canAdvance hawake
      refine ⟨u, ?_, hmoves⟩
      rintro rfl
      exact not_canAdvance_of_wait hpc hmoves

/-- In every reachable state, with or without spurious wakeups on the way. -/
theorem fizzbuzz_live (s : System) (hs : Reaches step start s) : Live s := by
  obtain ⟨t, hturn⟩ := reachable_inTurns hs
  have hawake : Awake s :=
    hs.invariant (fun _ _ _ h hnext => h.step hnext) start_awake
  exact hturn.live hawake

/-- `fizz` waits, and `main` has set its flag but not yet signalled. -/
def beforeSignalRun : List Event :=
  List.replicate 2 (Event.advance .fizz 0) ++
    List.replicate 6 (Event.advance .main 15)

theorem before_signal_run_enabled :
    (runEvents step start beforeSignalRun).isSome := by
  decide

theorem before_signal_live :
    Live ((runEvents step start beforeSignalRun).get before_signal_run_enabled) :=
  fizzbuzz_live _
    ⟨beforeSignalRun, (Option.some_get before_signal_run_enabled).symm⟩

theorem waiting_with_flag_set :
    ∃ s, Reaches step start s ∧ s.pc .fizz = .wait .newNumb ∧
      s.flags .newNumb = true :=
  ⟨(runEvents step start beforeSignalRun).get before_signal_run_enabled,
    ⟨beforeSignalRun, (Option.some_get before_signal_run_enabled).symm⟩,
    by decide, by decide⟩

end CsPrimer.MultiThreadedFizzbuzz
