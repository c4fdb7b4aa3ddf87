import CsPrimer.MultiThreadedFizzbuzz.Fizzbuzz

/-!
The round that main, fizz and buzz go through for each number. One thread is
on turn: only its flag is set, or none while it works, and only it passes the
test of its loop. It hands the turn over by setting the flag of the next
thread, so the order of the output does not depend on the interleaving, on
when signals arrive or on spurious wakeups.
-/

namespace CsPrimer.MultiThreadedFizzbuzz

open Foundation

namespace Thread

def awaited : Thread → Flag
  | .main => .buzzDone
  | .fizz => .newNumb
  | .buzz => .fizzDone

/-- The flag that the thread sets at the end of its turn. -/
def done : Thread → Flag
  | .main => .newNumb
  | .fizz => .fizzDone
  | .buzz => .buzzDone

def next : Thread → Thread
  | .main => .fizz
  | .fizz => .buzz
  | .buzz => .main

theorem next_awaited (t : Thread) : t.next.awaited = t.done := by
  cases t <;> rfl

theorem awaited_injective {t u : Thread} (h : t.awaited = u.awaited) : t = u := by
  cases t <;> cases u <;> first | rfl | cases h

end Thread

/-- Outside its turn a thread is before the test or after the handing over. -/
def Point.outside : Point → Bool
  | .clear | .choose | .print | .set => false
  | _ => true

/-- The thread has cleared its flag and set no other. -/
def Point.cleared : Point → Bool
  | .choose | .print | .set => true
  | _ => false

inductive Stage where
  | complete
  | chosen
  | started
  | fizzed
  deriving DecidableEq, Repr

def stage : Thread → Point → Stage
  | .main, .print => .chosen
  | .main, .set => .started
  | .main, _ => .complete
  | .fizz, .set => .fizzed
  | .fizz, _ => .started
  | .buzz, .set => .complete
  | .buzz, _ => .fizzed

def part (divisor : Int) (text : String) (n : Int) : List Char :=
  if divisor ∣ n then text.toList else []

/-- What has been printed and handled at a stage of the last number. -/
def Written (s : System) : Stage → Prop
  | .complete => s.out = s.numbers.flatMap line ∧
      s.handled .fizz = s.numbers ∧ s.handled .buzz = s.numbers
  | .chosen => ∃ earlier, s.numbers = earlier ++ [s.n] ∧
      s.out = earlier.flatMap line ∧
      s.handled .fizz = earlier ∧ s.handled .buzz = earlier
  | .started => ∃ earlier, s.numbers = earlier ++ [s.n] ∧
      s.out = earlier.flatMap line ++ (lineStart s.n).toList ∧
      s.handled .fizz = earlier ∧ s.handled .buzz = earlier
  | .fizzed => ∃ earlier, s.numbers = earlier ++ [s.n] ∧
      s.out = earlier.flatMap line ++
        ((lineStart s.n).toList ++ part 3 "\tfizz" s.n) ∧
      s.handled .fizz = s.numbers ∧ s.handled .buzz = earlier

structure Turn (s : System) (t : Thread) : Prop where
  others : ∀ u, u ≠ t → (s.pc u).outside = true
  flags : ∀ flag, s.flags flag = true ↔
    flag = t.awaited ∧ (s.pc t).cleared = false ∧ s.n ≠ -1
  first : s.n = -1 → t = .main
  unchosen : s.n = -1 ↔ s.numbers = []
  written : Written s (stage t (s.pc t))

variable {s s' next : System} {t u : Thread} {point : Point}

theorem stage_outside (houtside : point.outside = true) :
    stage t point = stage t .lock := by
  cases t <;> cases point <;> first | rfl | cases houtside

theorem cleared_of_outside (houtside : point.outside = true) :
    point.cleared = false := by
  cases point <;> first | rfl | cases houtside

theorem start_turn : Turn start .main where
  others := fun _ _ => rfl
  flags := by simp [start]
  first := fun _ => rfl
  unchosen := by simp [start]
  written := ⟨rfl, rfl, rfl⟩

/-- A step that moves threads outside their turns only. -/
theorem Turn.elsewhere (h : Turn s t) (hflags : s'.flags = s.flags)
    (hn : s'.n = s.n) (hout : s'.out = s.out) (hnumbers : s'.numbers = s.numbers)
    (hhandled : s'.handled = s.handled)
    (hpc : ∀ u, s'.pc u = s.pc u ∨
      ((s.pc u).outside = true ∧ (s'.pc u).outside = true)) : Turn s' t where
  others := by
    intro u hu
    rcases hpc u with hsame | ⟨_, houtside⟩
    · rw [hsame]
      exact h.others u hu
    · exact houtside
  flags := by
    intro flag
    have hcleared : (s'.pc t).cleared = (s.pc t).cleared := by
      rcases hpc t with hsame | ⟨hbefore, hafter⟩
      · rw [hsame]
      · rw [cleared_of_outside hbefore, cleared_of_outside hafter]
    rw [hflags, hn, hcleared]
    exact h.flags flag
  first := by
    rw [hn]
    exact h.first
  unchosen := by
    rw [hn, hnumbers]
    exact h.unchosen
  written := by
    have hstage : stage t (s'.pc t) = stage t (s.pc t) := by
      rcases hpc t with hsame | ⟨hbefore, hafter⟩
      · rw [hsame]
      · rw [stage_outside hbefore, stage_outside hafter]
    rw [hstage]
    have hwritten := h.written
    cases hat : stage t (s.pc t) <;> rw [hat] at hwritten <;>
      simpa only [Written, hn, hout, hnumbers, hhandled] using hwritten

/-- A thread stays outside its turn, whatever happens to the mutex. -/
theorem Turn.goto_outside (h : Turn s t) (mutex : Option Thread)
    (hbefore : (s.pc u).outside = true) (hafter : point.outside = true) :
    Turn { s.goto u point with mutex := mutex } t := by
  refine h.elsewhere rfl rfl rfl rfl rfl ?_
  intro v
  simp only [System.goto]
  rcases eq_or_ne v u with rfl | hne
  · rw [Function.update_self]
    exact .inr ⟨hbefore, hafter⟩
  · exact .inl (Function.update_of_ne hne ..)

/-- A signal moves a waiting thread back to the mutex. -/
theorem Turn.signal (h : Turn s t) (cond : Flag) : Turn (s.signal cond) t := by
  refine h.elsewhere rfl rfl rfl rfl rfl ?_
  intro u
  simp only [System.signal]
  split
  · rename_i hwait
    rw [hwait]
    exact .inr ⟨rfl, rfl⟩
  · exact .inl rfl

/-- The thread on turn moves; no other thread is in its turn. -/
theorem Turn.others_goto (h : Turn s t) (point : Point) :
    ∀ u, u ≠ t → (Function.update s.pc t point u).outside = true := by
  intro u hu
  rw [Function.update_of_ne hu]
  exact h.others u hu

/-- The thread on turn passes its test. -/
theorem Turn.pass (h : Turn s t) (houtside : (s.pc t).outside = true) :
    Turn (s.goto t .clear) t where
  others := h.others_goto .clear
  flags := by
    intro flag
    have hflags := h.flags flag
    rw [cleared_of_outside houtside] at hflags
    simpa only [System.goto, Function.update_self, Point.cleared] using hflags
  first := h.first
  unchosen := h.unchosen
  written := by
    have hwritten := h.written
    rw [stage_outside houtside] at hwritten
    simp only [System.goto, Function.update_self]
    cases t <;> exact hwritten

/-- Only the thread on turn finds its flag set. -/
theorem Turn.unique (h : Turn s t) (hflag : s.flags u.awaited = true) : u = t :=
  Thread.awaited_injective ((h.flags _).mp hflag).1

/-- The thread on turn has passed its test if anybody has. -/
theorem Turn.of_inside (h : Turn s t) (hinside : (s.pc u).outside = false) :
    t = u := by
  by_contra hne
  rw [h.others u (Ne.symm hne)] at hinside
  cases hinside

/-- The thread on turn clears its flag. -/
theorem Turn.clear (h : Turn s t) (hpc : s.pc t = .clear)
    (hcleared : point.cleared = true)
    (hstage : stage t point = stage t .clear) :
    Turn ((s.assign t.awaited false).goto t point) t where
  others := h.others_goto point
  flags := by
    intro flag
    simp only [System.goto, System.assign, Function.update_self, hcleared]
    rcases eq_or_ne flag t.awaited with rfl | hne
    · rw [Function.update_self]
      simp
    · rw [Function.update_of_ne hne, h.flags flag]
      simp [hne]
  first := h.first
  unchosen := h.unchosen
  written := by
    have hwritten := h.written
    rw [hpc] at hwritten
    simp only [System.goto, System.assign, Function.update_self, hstage]
    cases t <;> exact hwritten

/-- `main` chooses the next number once the round is complete. -/
theorem Turn.choose (h : Turn s .main) (hpc : s.pc .main = .choose) (rand : Nat) :
    Turn { s.goto .main .print with
      n := ((rand &&& 0xf : Nat) : Int)
      numbers := s.numbers ++ [((rand &&& 0xf : Nat) : Int)] } .main where
  others := h.others_goto .print
  flags := by
    intro flag
    have hflags := h.flags flag
    rw [hpc] at hflags
    simp only [Point.cleared] at hflags
    simp only [System.goto, Function.update_self, Point.cleared]
    simpa using hflags
  first := fun _ => rfl
  unchosen := by
    simp only [List.append_eq_nil_iff, List.cons_ne_nil, and_false, iff_false]
    omega
  written := by
    have hwritten := h.written
    rw [hpc] at hwritten
    obtain ⟨hout, hfizz, hbuzz⟩ := hwritten
    simp only [System.goto, Function.update_self]
    exact ⟨s.numbers, rfl, hout, hfizz, hbuzz⟩

theorem Turn.print_main (h : Turn s .main) (hpc : s.pc .main = .print) :
    Turn ((s.print (lineStart s.n)).goto .main .set) .main where
  others := h.others_goto .set
  flags := by
    intro flag
    have hflags := h.flags flag
    rw [hpc] at hflags
    simpa only [System.goto, System.print, Function.update_self,
      Point.cleared] using hflags
  first := fun _ => rfl
  unchosen := h.unchosen
  written := by
    have hwritten := h.written
    rw [hpc] at hwritten
    obtain ⟨earlier, hnumbers, hout, hfizz, hbuzz⟩ := hwritten
    simp only [System.goto, System.print, Function.update_self]
    exact ⟨earlier, hnumbers, by rw [hout], hfizz, hbuzz⟩

/-- A thread hands the turn over. -/
theorem Turn.set (h : Turn s t) (hpc : s.pc t = .set) (hchosen : s.n ≠ -1) :
    Turn ((s.assign t.done true).goto t .signal) t.next where
  others := by
    intro u hu
    simp only [System.goto, System.assign]
    rcases eq_or_ne u t with rfl | hne
    · rw [Function.update_self]
      rfl
    · rw [Function.update_of_ne hne]
      exact h.others u hne
  flags := by
    intro flag
    have hother : t.next ≠ t := by cases t <;> simp [Thread.next]
    have houtside := h.others t.next hother
    simp only [System.goto, System.assign]
    rw [Function.update_of_ne hother, cleared_of_outside houtside,
      Thread.next_awaited]
    rcases eq_or_ne flag t.done with rfl | hne
    · rw [Function.update_self]
      simp [hchosen]
    · rw [Function.update_of_ne hne, h.flags flag, hpc]
      simp [Point.cleared, hne]
  first := fun hfirst => absurd hfirst hchosen
  unchosen := h.unchosen
  written := by
    have hother : t.next ≠ t := by cases t <;> simp [Thread.next]
    have houtside := h.others t.next hother
    have hwritten := h.written
    rw [hpc] at hwritten
    simp only [System.goto, System.assign]
    rw [Function.update_of_ne hother, stage_outside houtside]
    cases t <;> exact hwritten

/-- The number has been chosen once a thread is past the choice. -/
theorem Turn.chosen (h : Turn s t) (hpc : s.pc t = .set) : s.n ≠ -1 := by
  intro hunchosen
  obtain rfl := h.first hunchosen
  have hwritten := h.written
  rw [hpc] at hwritten
  obtain ⟨earlier, hnumbers, _⟩ := hwritten
  rw [h.unchosen.mp hunchosen] at hnumbers
  simp at hnumbers

/-- The state after the test and the `printf` of a worker. -/
def System.worked (s : System) (t : Thread) (divisor : Int) (text : String) :
    System :=
  { s.goto t .set with
    out := s.out ++ part divisor text s.n
    handled := Function.update s.handled t (s.handled t ++ [s.n]) }

theorem worker_print {awaited done : Flag} {divisor : Int} {text : String}
    (hpc : s.pc t = .print) :
    worker t awaited done divisor text s = some (s.worked t divisor text) := by
  simp only [worker, hpc, System.worked, part, Int.dvd_iff_tmod_eq_zero]
  split
  · rfl
  · rw [List.append_nil]
    rfl

@[simp]
theorem worked_pc_self (divisor : Int) (text : String) :
    (s.worked t divisor text).pc t = .set := Function.update_self ..

@[simp]
theorem worked_handled_self (divisor : Int) (text : String) :
    (s.worked t divisor text).handled t = s.handled t ++ [s.n] :=
  Function.update_self ..

theorem worked_handled_ne (hne : u ≠ t) (divisor : Int) (text : String) :
    (s.worked t divisor text).handled u = s.handled u :=
  Function.update_of_ne hne ..

/-- What is left to show of a turn after the `printf` of a worker. -/
theorem Turn.worked (h : Turn s t) (hpc : s.pc t = .print) {divisor : Int}
    {text : String}
    (hwritten : Written (s.worked t divisor text) (stage t .set)) :
    Turn (s.worked t divisor text) t where
  others := h.others_goto .set
  flags := by
    intro flag
    have hflags := h.flags flag
    rw [hpc] at hflags
    rw [worked_pc_self]
    exact hflags
  first := h.first
  unchosen := h.unchosen
  written := by
    rw [worked_pc_self]
    exact hwritten

theorem Turn.print_fizz (h : Turn s .fizz) (hpc : s.pc .fizz = .print) :
    Turn (s.worked .fizz 3 "\tfizz") .fizz := by
  have hwritten := h.written
  rw [hpc] at hwritten
  obtain ⟨earlier, hnumbers, hout, hfizz, hbuzz⟩ := hwritten
  refine h.worked hpc ⟨earlier, hnumbers, ?_, ?_, ?_⟩
  · simp only [System.worked, hout, List.append_assoc]
    rfl
  · rw [worked_handled_self, hfizz]
    exact hnumbers.symm
  · rw [worked_handled_ne (by simp)]
    exact hbuzz

theorem Turn.print_buzz (h : Turn s .buzz) (hpc : s.pc .buzz = .print) :
    Turn (s.worked .buzz 5 "\tbuzz") .buzz := by
  have hwritten := h.written
  rw [hpc] at hwritten
  obtain ⟨earlier, hnumbers, hout, hfizz, hbuzz⟩ := hwritten
  refine h.worked hpc ⟨?_, ?_, ?_⟩
  · simp only [System.worked, System.goto, hout, hnumbers,
      List.flatMap_append, List.flatMap_cons, List.flatMap_nil, List.append_nil,
      List.append_assoc, line, part]
  · rw [worked_handled_ne (by simp)]
    exact hfizz
  · rw [worked_handled_self, hbuzz]
    exact hnumbers.symm

/-- A statement of a worker keeps the turns in order. -/
theorem Turn.worker {divisor : Int} {text : String} (h : Turn s t)
    (hprint : Turn s u → s.pc u = .print → Turn (s.worked u divisor text) u)
    (hmain : u ≠ .main)
    (hnext : worker u u.awaited u.done divisor text s = some next) :
    ∃ t', Turn next t' := by
  cases hpc : s.pc u with
  | lock | wake =>
      simp only [MultiThreadedFizzbuzz.worker, hpc, System.lock] at hnext
      split at hnext
      · cases hnext
        exact ⟨t, h.goto_outside _ (by rw [hpc]; rfl) rfl⟩
      · cases hnext
  | test =>
      simp only [MultiThreadedFizzbuzz.worker, hpc] at hnext
      split at hnext
      · rename_i hflag
        cases hnext
        obtain rfl := h.unique hflag
        exact ⟨u, h.pass (by rw [hpc]; rfl)⟩
      · cases hnext
        exact ⟨t, h.goto_outside _ (by rw [hpc]; rfl) rfl⟩
  | wait cond | choose | sleep =>
      simp [MultiThreadedFizzbuzz.worker, hpc] at hnext
  | clear =>
      simp only [MultiThreadedFizzbuzz.worker, hpc, Option.some.injEq] at hnext
      subst hnext
      obtain rfl := h.of_inside (u := u) (by rw [hpc]; rfl)
      refine ⟨t, h.clear hpc rfl ?_⟩
      cases t <;> first | rfl | exact absurd rfl hmain
  | print =>
      rw [worker_print hpc] at hnext
      cases hnext
      obtain rfl := h.of_inside (u := u) (by rw [hpc]; rfl)
      exact ⟨t, hprint h hpc⟩
  | set =>
      simp only [MultiThreadedFizzbuzz.worker, hpc, Option.some.injEq] at hnext
      subst hnext
      obtain rfl := h.of_inside (u := u) (by rw [hpc]; rfl)
      exact ⟨t.next, h.set hpc (h.chosen hpc)⟩
  | signal =>
      simp only [MultiThreadedFizzbuzz.worker, hpc, Option.some.injEq] at hnext
      subst hnext
      refine ⟨t, (h.signal u.done).goto_outside (u := u) _ ?_ rfl⟩
      simp [System.signal, hpc, Point.outside]
  | unlock =>
      simp only [MultiThreadedFizzbuzz.worker, hpc, Option.some.injEq] at hnext
      subst hnext
      exact ⟨t, h.goto_outside _ (by rw [hpc]; rfl) rfl⟩

/-- A statement of `main` keeps the turns in order. -/
theorem Turn.main {rand : Nat} (h : Turn s t)
    (hnext : main rand s = some next) : ∃ t', Turn next t' := by
  cases hpc : s.pc .main with
  | lock | wake =>
      simp only [MultiThreadedFizzbuzz.main, hpc, System.lock] at hnext
      split at hnext
      · cases hnext
        exact ⟨t, h.goto_outside _ (by rw [hpc]; rfl) rfl⟩
      · cases hnext
  | test =>
      simp only [MultiThreadedFizzbuzz.main, hpc] at hnext
      split at hnext
      · cases hnext
        exact ⟨t, h.goto_outside _ (by rw [hpc]; rfl) rfl⟩
      · rename_i hpass
        cases hnext
        have hmain : t = .main := by
          rcases eq_or_ne s.n (-1) with hfirst | hlater
          · exact h.first hfirst
          · refine (h.unique (u := .main) ?_).symm
            by_contra hflag
            exact hpass ⟨hlater.symm, Bool.eq_false_iff.mpr hflag⟩
        subst hmain
        exact ⟨.main, h.pass (by rw [hpc]; rfl)⟩
  | wait cond => simp [MultiThreadedFizzbuzz.main, hpc] at hnext
  | clear =>
      simp only [MultiThreadedFizzbuzz.main, hpc, Option.some.injEq] at hnext
      subst hnext
      obtain rfl := h.of_inside (u := .main) (by rw [hpc]; rfl)
      exact ⟨.main, h.clear hpc rfl rfl⟩
  | choose =>
      simp only [MultiThreadedFizzbuzz.main, hpc, Option.some.injEq] at hnext
      subst hnext
      obtain rfl := h.of_inside (u := .main) (by rw [hpc]; rfl)
      exact ⟨.main, h.choose hpc rand⟩
  | print =>
      simp only [MultiThreadedFizzbuzz.main, hpc, Option.some.injEq] at hnext
      subst hnext
      obtain rfl := h.of_inside (u := .main) (by rw [hpc]; rfl)
      exact ⟨.main, h.print_main hpc⟩
  | set =>
      simp only [MultiThreadedFizzbuzz.main, hpc, Option.some.injEq] at hnext
      subst hnext
      obtain rfl := h.of_inside (u := .main) (by rw [hpc]; rfl)
      exact ⟨.fizz, h.set hpc (h.chosen hpc)⟩
  | signal =>
      simp only [MultiThreadedFizzbuzz.main, hpc, Option.some.injEq] at hnext
      subst hnext
      refine ⟨t, (h.signal .newNumb).goto_outside (u := .main) _ ?_ rfl⟩
      simp [System.signal, hpc, Point.outside]
  | unlock | sleep =>
      simp only [MultiThreadedFizzbuzz.main, hpc, Option.some.injEq] at hnext
      subst hnext
      exact ⟨t, h.goto_outside _ (by rw [hpc]; rfl) rfl⟩

/-- Every step, a spurious wakeup included, leaves one thread on turn. -/
theorem Turn.step {event : Event} (h : Turn s t)
    (hnext : step s event = some next) : ∃ t', Turn next t' := by
  cases event with
  | advance u rand =>
      cases u with
      | main => exact h.main hnext
      | fizz => exact h.worker Turn.print_fizz (by simp) hnext
      | buzz => exact h.worker Turn.print_buzz (by simp) hnext
  | spuriousWakeup u =>
      simp only [MultiThreadedFizzbuzz.step] at hnext
      split at hnext
      · rename_i hpc
        cases hnext
        exact ⟨t, h.goto_outside _ (by rw [hpc]; rfl) rfl⟩
      · cases hnext

def InTurns (s : System) : Prop := ∃ t, Turn s t

theorem reachable_inTurns (hs : Reaches step start s) : InTurns s := by
  have hstep : ∀ s event next, InTurns s → step s event = some next →
      InTurns next := by
    rintro s event next ⟨t, hturn⟩ hnext
    exact hturn.step hnext
  exact hs.invariant hstep ⟨.main, start_turn⟩

/-- The output belongs to the numbers chosen, in order; each worker handles
each number once, and before the next one is chosen; and at most one flag is
set when nobody is in a critical section. -/
structure Orderly (s : System) : Prop where
  output : s.out <+: s.numbers.flatMap line
  handled_once : ∀ t, t ≠ .main → s.handled t <+: s.numbers
  handled_before_choice : s.pc .main = .choose →
    ∀ t, t ≠ .main → s.handled t = s.numbers
  one_flag : s.mutex = none → ∀ flag flag', s.flags flag = true →
    s.flags flag' = true → flag = flag'

theorem flatMap_line_append (earlier : List Int) (n : Int) :
    (earlier ++ [n]).flatMap line = earlier.flatMap line ++
      ((lineStart n).toList ++ part 3 "\tfizz" n ++ part 5 "\tbuzz" n) := by
  simp only [List.flatMap_append, List.flatMap_cons, List.flatMap_nil,
    List.append_nil, line, part]

/-- At every stage the output is the beginning of the lines. -/
theorem Written.output {at_ : Stage} (h : Written s at_) :
    s.out <+: s.numbers.flatMap line := by
  cases at_ with
  | complete => exact h.1 ▸ List.prefix_rfl
  | chosen =>
      obtain ⟨earlier, hnumbers, hout, _⟩ := h
      rw [hnumbers, hout, flatMap_line_append]
      exact List.prefix_append ..
  | started =>
      obtain ⟨earlier, hnumbers, hout, _⟩ := h
      rw [hnumbers, hout, flatMap_line_append, List.prefix_append_right_inj,
        List.append_assoc]
      exact List.prefix_append ..
  | fizzed =>
      obtain ⟨earlier, hnumbers, hout, _⟩ := h
      rw [hnumbers, hout, flatMap_line_append, List.prefix_append_right_inj]
      exact List.prefix_append ..

theorem Written.handled {at_ : Stage} (h : Written s at_) (hmain : t ≠ .main) :
    s.handled t <+: s.numbers := by
  have hboth : s.handled .fizz <+: s.numbers ∧ s.handled .buzz <+: s.numbers := by
    cases at_ with
    | complete => exact ⟨h.2.1 ▸ List.prefix_rfl, h.2.2 ▸ List.prefix_rfl⟩
    | chosen | started =>
        obtain ⟨earlier, hnumbers, _, hfizz, hbuzz⟩ := h
        rw [hnumbers, hfizz, hbuzz]
        exact ⟨List.prefix_append .., List.prefix_append ..⟩
    | fizzed =>
        obtain ⟨earlier, hnumbers, _, hfizz, hbuzz⟩ := h
        rw [hfizz, hbuzz, hnumbers]
        exact ⟨List.prefix_rfl, List.prefix_append ..⟩
  cases t with
  | main => exact absurd rfl hmain
  | fizz => exact hboth.1
  | buzz => exact hboth.2

theorem Turn.orderly (h : Turn s t) : Orderly s where
  output := h.written.output
  handled_once := fun _ hmain => h.written.handled hmain
  handled_before_choice := by
    intro hpc u hmain
    obtain rfl := h.of_inside (u := .main) (by rw [hpc]; rfl)
    have hwritten := h.written
    rw [hpc] at hwritten
    obtain ⟨_, hfizz, hbuzz⟩ := hwritten
    cases u with
    | main => exact absurd rfl hmain
    | fizz => exact hfizz
    | buzz => exact hbuzz
  one_flag := by
    intro _ flag flag' hflag hflag'
    rw [((h.flags flag).mp hflag).1, ((h.flags flag').mp hflag').1]

/-- For every interleaving, with spurious wakeups at any point and any numbers
that `rand()` returns. -/
theorem fizzbuzz_orderly (s : System) (hs : Reaches step start s) :
    Orderly s := by
  obtain ⟨t, hturn⟩ := reachable_inTurns hs
  exact hturn.orderly

/-- `buzz` waits, is woken too early, and waits again; then main chooses 15
and all three take their turns. -/
def roundRun : List Event :=
  List.replicate 2 (Event.advance .buzz 0) ++ [Event.spuriousWakeup .buzz] ++
    List.replicate 2 (Event.advance .buzz 0) ++
    List.replicate 8 (Event.advance .main 15) ++
    List.replicate 7 (Event.advance .fizz 0) ++
    List.replicate 7 (Event.advance .buzz 0)

theorem round_run_enabled : (runEvents step start roundRun).isSome := by decide

theorem round_run_orderly :
    Orderly ((runEvents step start roundRun).get round_run_enabled) :=
  fizzbuzz_orderly _ ⟨roundRun, (Option.some_get round_run_enabled).symm⟩

end CsPrimer.MultiThreadedFizzbuzz
