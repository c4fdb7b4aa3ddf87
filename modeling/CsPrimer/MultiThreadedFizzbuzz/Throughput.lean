import CsPrimer.MultiThreadedFizzbuzz.Wakeups

/-!
How fast the lines come. Between two numbers a thread executes a bounded number
of statements: where it has to wait it goes on when it is signalled, and a
signal wakes one thread at most. So, whoever the scheduler lets run, the threads
cannot go round their loops without getting on with the output; only spurious
wakeups make them do more.
-/

namespace CsPrimer.MultiThreadedFizzbuzz

open Foundation

/-- The statements that a thread executes, at most, up to its next number. What
a thread at its signal owes includes the two of the thread it wakes. -/
def Point.left : Thread → Point → Nat
  | _, .lock | _, .wake => 4
  | _, .test => 3
  | _, .wait _ | _, .clear => 2
  | .main, .choose => 1
  | .main, .print => 11
  | .main, .set => 10
  | .main, .signal => 9
  | .main, .unlock => 6
  | .main, .sleep => 5
  | _, .print => 1
  | _, .set => 9
  | _, .signal => 8
  | _, .unlock => 5
  | _, .choose | _, .sleep => 0

def System.left (s : System) : Nat :=
  (s.pc .main).left .main + (s.pc .fizz).left .fizz + (s.pc .buzz).left .buzz

/-- The numbers of the three threads, each with the statements it takes. -/
def System.gain (s : System) : Nat :=
  11 * s.numbers.length + 9 * (s.handled .fizz).length + 9 * (s.handled .buzz).length

/-- A thread that is woken without a signal may look at its flag in vain. -/
def Event.allowance : Event → Nat
  | .advance _ _ => 0
  | .spuriousWakeup _ => 3

variable {s s' next : System} {t u : Thread} {old point : Point} {cond : Flag}

theorem left_of_update (hpc : s'.pc = Function.update s.pc u point) :
    s'.left + (s.pc u).left u = s.left + point.left u := by
  unfold System.left
  rw [hpc]
  cases u <;> simp <;> omega

/-- One thread at most waits for a flag. -/
theorem Awake.left_signal (h : Awake s) (cond : Flag) :
    (s.signal cond).left ≤ s.left + 2 := by
  have hsame : ∀ t : Thread, t.awaited ≠ cond →
      ((s.signal cond).pc t).left t = (s.pc t).left t := by
    intro t hother
    have hwait : s.pc t ≠ .wait cond := fun hat => hother (h.awaited t cond hat).symm
    simp only [System.signal, if_neg hwait]
  have hraised : ∀ t : Thread,
      ((s.signal cond).pc t).left t ≤ (s.pc t).left t + 2 := by
    intro t
    simp only [System.signal]
    split
    · rename_i hat
      rw [hat]
      cases t <;> exact Nat.le_refl _
    · exact Nat.le_add_right ..
  have hmain := hraised .main
  have hfizz := hraised .fizz
  have hbuzz := hraised .buzz
  unfold System.left
  cases cond with
  | newNumb =>
      rw [hsame .main (by decide), hsame .buzz (by decide)]
      omega
  | fizzDone =>
      rw [hsame .main (by decide), hsame .fizz (by decide)]
      omega
  | buzzDone =>
      rw [hsame .fizz (by decide), hsame .buzz (by decide)]
      omega

theorem paid_of_update (hpc : s.pc u = old) (hpc' : s'.pc = Function.update s.pc u point)
    (hpaid : 1 + point.left u + s.gain ≤ old.left u + s'.gain) :
    1 + s'.left + s.gain ≤ s.left + s'.gain := by
  have hleft := left_of_update hpc'
  rw [hpc] at hleft
  omega

/-- A statement that leads to a point with less left. -/
theorem move_paid (hpc : s.pc u = old) (hpc' : s'.pc = Function.update s.pc u point)
    (hless : point.left u + 1 ≤ old.left u) (hnumbers : s'.numbers = s.numbers)
    (hhandled : s'.handled = s.handled) :
    1 + s'.left + s.gain ≤ s.left + s'.gain := by
  have hgain : s'.gain = s.gain := by rw [System.gain, System.gain, hnumbers, hhandled]
  apply paid_of_update hpc hpc'
  omega

theorem lock_paid (hpc : s.pc u = .lock ∨ s.pc u = .wake) (hnext : s.lock u = some next) :
    1 + next.left + s.gain ≤ s.left + next.gain := by
  unfold System.lock at hnext
  split at hnext
  · cases hnext
    rcases hpc with hpc | hpc
    · exact move_paid hpc rfl (by cases u <;> decide) rfl rfl
    · exact move_paid hpc rfl (by cases u <;> decide) rfl rfl
  · cases hnext

/-- The signal pays for the thread that it wakes. -/
theorem Awake.signal_paid (h : Awake s) (hpc : s.pc u = .signal) (cond : Flag) :
    1 + ((s.signal cond).goto u .unlock).left + s.gain ≤
      s.left + ((s.signal cond).goto u .unlock).gain := by
  have hwoken := h.left_signal cond
  have hsame : (s.signal cond).pc u = .signal := by simp [System.signal, hpc]
  have hpc' : ((s.signal cond).goto u .unlock).pc =
      Function.update (s.signal cond).pc u .unlock := rfl
  have hleft := left_of_update hpc'
  rw [hsame] at hleft
  have hgain : ((s.signal cond).goto u .unlock).gain = s.gain := rfl
  have howed : Point.unlock.left u + 3 = Point.signal.left u := by cases u <;> decide
  omega

/-- The next number, which a worker handles or `main` chooses, pays for the
statements up to the one behind it. -/
theorem worked_paid (hmain : t ≠ .main) (hpc : s.pc t = .print) (divisor : Int)
    (text : String) :
    1 + (s.worked t divisor text).left + s.gain ≤
      s.left + (s.worked t divisor text).gain := by
  have hlength : ((s.worked t divisor text).handled t).length =
      (s.handled t).length + 1 := by
    rw [worked_handled_self, List.length_append, List.length_singleton]
  have hnumbers : (s.worked t divisor text).numbers = s.numbers := rfl
  apply paid_of_update hpc rfl
  unfold System.gain
  cases t with
  | main => exact absurd rfl hmain
  | fizz =>
      rw [worked_handled_ne (by decide : Thread.buzz ≠ .fizz), hlength, hnumbers]
      simp only [Point.left]
      omega
  | buzz =>
      rw [worked_handled_ne (by decide : Thread.fizz ≠ .buzz), hlength, hnumbers]
      simp only [Point.left]
      omega

theorem Awake.worker_paid {divisor : Int} {text : String} (h : Awake s) (hmain : u ≠ .main)
    (hnext : worker u u.awaited u.done divisor text s = some next) :
    1 + next.left + s.gain ≤ s.left + next.gain := by
  cases hpc : s.pc u with
  | lock =>
      simp only [worker, hpc] at hnext
      exact lock_paid (.inl hpc) hnext
  | wake =>
      simp only [worker, hpc] at hnext
      exact lock_paid (.inr hpc) hnext
  | test =>
      simp only [worker, hpc] at hnext
      split at hnext
      · cases hnext
        exact move_paid hpc rfl (by cases u <;> decide) rfl rfl
      · cases hnext
        exact move_paid hpc rfl (by cases u <;> exact Nat.le_refl _) rfl rfl
  | wait cond | choose | sleep =>
      simp [worker, hpc] at hnext
  | clear =>
      simp only [worker, hpc, Option.some.injEq] at hnext
      subst hnext
      refine move_paid hpc rfl ?_ rfl rfl
      cases u with
      | main => exact absurd rfl hmain
      | fizz | buzz => decide
  | print =>
      rw [worker_print hpc] at hnext
      cases hnext
      exact worked_paid hmain hpc divisor text
  | set =>
      simp only [worker, hpc, Option.some.injEq] at hnext
      subst hnext
      exact move_paid hpc rfl (by cases u <;> decide) rfl rfl
  | signal =>
      simp only [worker, hpc, Option.some.injEq] at hnext
      subst hnext
      exact h.signal_paid hpc u.done
  | unlock =>
      simp only [worker, hpc, Option.some.injEq] at hnext
      subst hnext
      exact move_paid hpc rfl (by cases u <;> decide) rfl rfl

theorem Awake.main_paid {rand : Nat} (h : Awake s) (hnext : main rand s = some next) :
    1 + next.left + s.gain ≤ s.left + next.gain := by
  cases hpc : s.pc .main with
  | lock =>
      simp only [main, hpc] at hnext
      exact lock_paid (.inl hpc) hnext
  | wake =>
      simp only [main, hpc] at hnext
      exact lock_paid (.inr hpc) hnext
  | test =>
      simp only [main, hpc] at hnext
      split at hnext <;> cases hnext
      · exact move_paid hpc rfl (by decide) rfl rfl
      · exact move_paid hpc rfl (by decide) rfl rfl
  | wait cond => simp [main, hpc] at hnext
  | choose =>
      simp only [main, hpc, Option.some.injEq] at hnext
      subst hnext
      apply paid_of_update hpc rfl
      simp only [System.gain, System.goto, Point.left, List.length_append,
        List.length_singleton]
      omega
  | signal =>
      simp only [main, hpc, Option.some.injEq] at hnext
      subst hnext
      exact h.signal_paid hpc .newNumb
  | clear | print | set | unlock | sleep =>
      simp only [main, hpc, Option.some.injEq] at hnext
      subst hnext
      exact move_paid hpc rfl (by decide) rfl rfl

theorem Awake.paid {event : Event} (h : Awake s)
    (hnext : MultiThreadedFizzbuzz.step s event = some next) :
    1 + next.left + s.gain ≤ s.left + next.gain + event.allowance := by
  cases event with
  | advance u rand =>
      cases u with
      | main => exact h.main_paid hnext
      | fizz => exact h.worker_paid (by decide) hnext
      | buzz => exact h.worker_paid (by decide) hnext
  | spuriousWakeup u =>
      simp only [MultiThreadedFizzbuzz.step] at hnext
      split at hnext
      · rename_i hpc
        cases hnext
        have hpc' : (s.goto u .wake).pc = Function.update s.pc u .wake := rfl
        have hleft := left_of_update hpc'
        have hgain : (s.goto u .wake).gain = s.gain := rfl
        have hraised : Point.wake.left u = 4 ∧ (s.pc u).left u = 2 := by
          rw [hpc]
          cases u <;> exact ⟨rfl, rfl⟩
        have hallowance : (Event.spuriousWakeup u).allowance = 3 := rfl
        omega
      · cases hnext

/-- All lines but the last are whole. -/
theorem Turn.whole_lines (h : Turn s t) : s.numbers.dropLast.flatMap line <+: s.out := by
  have hwritten := h.written
  cases hstage : stage t (s.pc t) <;> rw [hstage] at hwritten
  case complete =>
    rw [hwritten.1]
    exact (List.dropLast_prefix s.numbers).flatMap line
  case chosen =>
    obtain ⟨earlier, hnumbers, hout, -⟩ := hwritten
    rw [hnumbers, List.dropLast_concat, hout]
  all_goals
    obtain ⟨earlier, hnumbers, hout, -⟩ := hwritten
    rw [hnumbers, List.dropLast_concat, hout]
    exact List.prefix_append ..

/-- For every run, in any order of the threads: it is no longer than the numbers
it has chosen account for, 29 statements each, and the lines of all of them but
the last have been printed. -/
theorem lines_keep_coming (events : List Event) (s : System)
    (hrun : runEvents step start events = some s) :
    events.length ≤ 29 * s.numbers.length + (events.map Event.allowance).sum + 12 ∧
      s.numbers.dropLast.flatMap line <+: s.out := by
  obtain ⟨t, hturn⟩ := reachable_inTurns ⟨events, hrun⟩
  have hlength := length_le_of_potential System.left System.gain Event.allowance
    (fun s _ _ (h : Awake s) hnext => ⟨h.step hnext, h.paid hnext⟩) start_awake hrun
  have hfizz := (hturn.written.handled (by decide : Thread.fizz ≠ .main)).length_le
  have hbuzz := (hturn.written.handled (by decide : Thread.buzz ≠ .main)).length_le
  have hstart : start.left = 12 ∧ start.gain = 0 := ⟨rfl, rfl⟩
  have hgain : s.gain ≤ 29 * s.numbers.length := by
    unfold System.gain
    omega
  exact ⟨by omega, hturn.whole_lines⟩

theorem round_run_lines :
    ∃ s, runEvents step start roundRun = some s ∧
      roundRun.length ≤ 29 * s.numbers.length + (roundRun.map Event.allowance).sum + 12 ∧
      s.numbers.dropLast.flatMap line <+: s.out :=
  have hrun := (Option.some_get round_run_enabled).symm
  ⟨_, hrun, lines_keep_coming roundRun _ hrun⟩

end CsPrimer.MultiThreadedFizzbuzz
