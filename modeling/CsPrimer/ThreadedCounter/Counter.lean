import CsPrimer.Foundation.CTypes
import CsPrimer.Foundation.Completion
import CsPrimer.Foundation.Mutex
import CsPrimer.Foundation.Tokens

/-!
`counter.c`, from the first `pthread_create` to the line that `main` prints.
`counter++` on a volatile variable is a load and a store. The threads may be
created and joined at any count; the source has `EACH_COUNT`. The index of the
loop is an `int`, so that only a count of at most `INT_MAX` ends it. Calls of the
thread library succeed.
-/

namespace CsPrimer.ThreadedCounter

open Foundation

def eachCount : Nat := 1000000000

inductive Thread where
  | p1
  | p2
  deriving DecidableEq, Repr

instance : Fintype Thread where
  elems := {.p1, .p2}
  complete := by
    intro p
    cases p <;> decide

inductive Point where
  | notCreated
  | test (i : Nat)
  | lock (i : Nat)
  | load (i : Nat)
  | store (i : Nat) (loaded : BitVec 32)
  | unlock (i : Nat)
  | returned
  deriving DecidableEq, Repr

inductive MainPoint where
  | create (p : Thread)
  | join (p : Thread)
  | print
  | returned
  deriving DecidableEq, Repr

structure System where
  main : MainPoint
  pc : Thread → Point
  lock : Option Thread
  counter : BitVec 32
  printed : Option (BitVec 32 × BitVec 32)

def start : System where
  main := .create .p1
  pc := fun _ => .notCreated
  lock := none
  counter := 0
  printed := none

def routine (count : Nat) (s : System) (p : Thread) : Option System :=
  match s.pc p with
  | .notCreated => none
  | .test i =>
      let point := if i < count then .lock i else .returned
      some { s with pc := Function.update s.pc p point }
  | .lock i =>
      match s.lock with
      | none => some { s with lock := some p, pc := Function.update s.pc p (.load i) }
      | some _ => none
  | .load i => some { s with pc := Function.update s.pc p (.store i s.counter) }
  | .store i loaded =>
      some { s with counter := loaded + 1, pc := Function.update s.pc p (.unlock i) }
  | .unlock i => some { s with lock := none, pc := Function.update s.pc p (.test (i + 1)) }
  | .returned => none

def main (count : Nat) (s : System) : Option System :=
  match s.main with
  | .create p =>
      let next := match p with
        | .p1 => .create .p2
        | .p2 => .join .p1
      some { s with main := next, pc := Function.update s.pc p (.test 0) }
  | .join p =>
      match s.pc p with
      | .returned =>
          let next := match p with
            | .p1 => .join .p2
            | .p2 => .print
          some { s with main := next }
      | _ => none
  | .print =>
      some { s with
        main := .returned
        printed := some (s.counter, BitVec.ofNat 32 (2 * count)) }
  | .returned => none

def step (count : Nat) (s : System) : Option Thread → Option System
  | none => main count s
  | some p => routine count s p

/-- The next store is that of `INT_MAX + 1`. -/
def Overflows (s : System) : Prop := ∃ p i, s.pc p = .store i (BitVec.intMax 32)

/-- The next `i++` is that of `INT_MAX`. -/
def IndexOverflows (s : System) : Prop := ∃ p i, s.pc p = .unlock i ∧ intMax ≤ i

structure Finished (count : Nat) (s : System) : Prop where
  returned : s.main = .returned
  printed : s.printed = some (BitVec.ofNat 32 (2 * count), BitVec.ofNat 32 (2 * count))

def Point.inside : Point → Bool
  | .load _ | .store _ _ | .unlock _ => true
  | _ => false

/-- The increments that the thread has stored. -/
def Point.stored (count : Nat) : Point → Nat
  | .notCreated => 0
  | .test i | .lock i | .load i | .store i _ => i
  | .unlock i => i + 1
  | .returned => count

def Point.left (count : Nat) : Point → Nat
  | .notCreated => 5 * count + 1
  | .test i => 5 * (count - i) + 1
  | .lock i => 5 * (count - i)
  | .load i => 5 * (count - i) - 1
  | .store i _ => 5 * (count - i) - 2
  | .unlock i => 5 * (count - i) - 3
  | .returned => 0

def Point.Within (count : Nat) : Point → Prop
  | .test i => i ≤ count
  | .lock i | .load i | .store i _ | .unlock i => i < count
  | .notCreated | .returned => True

def MainPoint.left : MainPoint → Nat
  | .create .p1 => 5
  | .create .p2 => 4
  | .join .p1 => 3
  | .join .p2 => 2
  | .print => 1
  | .returned => 0

def MainPoint.creates : MainPoint → Thread → Bool
  | .create .p1, _ => true
  | .create .p2, p => p = .p2
  | _, _ => false

def MainPoint.joined : MainPoint → Thread → Bool
  | .join .p2, p => p = .p1
  | .print, _ | .returned, _ => true
  | _, _ => false

def System.total (count : Nat) (s : System) : Nat := tokens (Point.stored count) s.pc

def System.left (count : Nat) (s : System) : Nat :=
  tokens (Point.left count) s.pc + s.main.left

/-- The counter is the number of increments stored, and what a thread has
loaded is still the counter. -/
structure Counted (count : Nat) (s : System) : Prop where
  owned : Owned Point.inside s.pc s.lock
  counter_eq : s.counter = BitVec.ofNat 32 (s.total count)
  loaded_eq : ∀ p i loaded, s.pc p = .store i loaded → loaded = s.counter
  within : ∀ p, (s.pc p).Within count
  created : ∀ p, s.pc p = .notCreated ↔ s.main.creates p = true
  joined : ∀ p, s.main.joined p = true → s.pc p = .returned
  printed_eq : s.main = .returned → s.printed =
    some (BitVec.ofNat 32 (2 * count), BitVec.ofNat 32 (2 * count))

variable {count : Nat} {s next : System} {p : Thread} {old point : Point}
  {lock : Option Thread} {counter : BitVec 32}

theorem start_counted : Counted count start where
  owned := by
    intro p
    exact iff_of_false (by simp [start, Point.inside]) (by simp [start])
  counter_eq := by
    have hzero : start.total count = 0 := tokens_eq_zero (fun _ => rfl)
    rw [hzero]
    rfl
  loaded_eq := by
    intro p i loaded hpc
    cases hpc
  within := fun _ => trivial
  created := fun _ => iff_of_true rfl rfl
  joined := by
    intro p hjoined
    cases hjoined
  printed_eq := by
    intro hmain
    cases hmain

/-- A thread that runs moves to another point of its loop. -/
theorem Counted.move (h : Counted count s) (hpc : s.pc p = old) (hcreated : old ≠ .notCreated)
    (hrunning : old ≠ .returned) (hpoint : point ≠ .notCreated) (hwithin : point.Within count)
    (howned : Owned Point.inside (Function.update s.pc p point) lock)
    (hcounter : counter =
      BitVec.ofNat 32 (tokens (Point.stored count) (Function.update s.pc p point)))
    (hself : ∀ i loaded, point = .store i loaded → loaded = counter)
    (hothers : ∀ q i loaded, q ≠ p → s.pc q = .store i loaded → loaded = counter) :
    Counted count { s with
      pc := Function.update s.pc p point, lock := lock, counter := counter } where
  owned := howned
  counter_eq := hcounter
  loaded_eq := by
    intro q i loaded hq
    dsimp only at hq
    rcases eq_or_ne q p with rfl | hne
    · rw [Function.update_self] at hq
      exact hself i loaded hq
    · rw [Function.update_of_ne hne] at hq
      exact hothers q i loaded hne hq
  within := by
    intro q
    dsimp only
    rcases eq_or_ne q p with rfl | hne
    · rw [Function.update_self]
      exact hwithin
    · rw [Function.update_of_ne hne]
      exact h.within q
  created := by
    intro q
    dsimp only
    rcases eq_or_ne q p with rfl | hne
    · rw [Function.update_self, ← h.created q, hpc]
      exact iff_of_false hpoint hcreated
    · rw [Function.update_of_ne hne]
      exact h.created q
  joined := by
    intro q hjoined
    dsimp only
    rcases eq_or_ne q p with rfl | hne
    · exact absurd ((hpc.symm.trans (h.joined q hjoined))) hrunning
    · rw [Function.update_of_ne hne]
      exact h.joined q hjoined
  printed_eq := h.printed_eq

/-- A step takes one statement off what is left, and either it stores an
increment or the total is the same. -/
structure Advances (count : Nat) (s next : System) : Prop where
  counted : Counted count next
  left_succ : next.left count + 1 = s.left count
  total_eq : next.total count = s.total count ∨
    (∃ p i loaded, s.pc p = .store i loaded) ∧ next.total count = s.total count + 1

/-- A statement that stores nothing. -/
theorem Counted.advances (h : Counted count s) (hpc : s.pc p = old)
    (hcreated : old ≠ .notCreated) (hrunning : old ≠ .returned) (hpoint : point ≠ .notCreated)
    (hwithin : point.Within count)
    (howned : Owned Point.inside (Function.update s.pc p point) lock)
    (hstored : point.stored count = old.stored count)
    (hleft : point.left count + 1 = old.left count)
    (hself : ∀ i loaded, point = .store i loaded → loaded = s.counter) :
    Advances count s { s with pc := Function.update s.pc p point, lock := lock } := by
  have htotal : tokens (Point.stored count) (Function.update s.pc p point) = s.total count :=
    tokens_keep hpc hstored
  refine ⟨?_, ?_, .inl htotal⟩
  · exact h.move hpc hcreated hrunning hpoint hwithin howned
      (h.counter_eq.trans (by rw [htotal])) hself
      (fun q i loaded _ hq => h.loaded_eq q i loaded hq)
  · have hmoved := tokens_update (Point.left count) hpc point
    unfold System.left
    dsimp only
    omega

theorem Counted.routine (h : Counted count s)
    (hnext : ThreadedCounter.routine count s p = some next) : Advances count s next := by
  have hwithin := h.within p
  unfold ThreadedCounter.routine at hnext
  split at hnext
  · cases hnext
  · rename_i i hpc
    rw [hpc] at hwithin
    dsimp only [Point.Within] at hwithin
    cases hnext
    split
    · refine h.advances hpc (by simp) (by simp) (by simp) ‹_› (h.owned.keep hpc rfl) rfl ?_ ?_
      · dsimp only [Point.left]
      · simp
    · have hlast : i = count := by omega
      refine h.advances hpc (by simp) (by simp) (by simp) trivial (h.owned.keep hpc rfl)
        hlast.symm ?_ ?_
      · dsimp only [Point.left]
        omega
      · simp
  · rename_i i hpc
    rw [hpc] at hwithin
    dsimp only [Point.Within] at hwithin
    split at hnext <;> cases hnext
    rename_i hfree
    have howned := h.owned
    rw [hfree] at howned
    refine h.advances hpc (by simp) (by simp) (by simp) hwithin (howned.acquire rfl) rfl ?_ ?_
    · dsimp only [Point.left]
      omega
    · simp
  · rename_i i hpc
    rw [hpc] at hwithin
    dsimp only [Point.Within] at hwithin
    cases hnext
    refine h.advances hpc (by simp) (by simp) (by simp) hwithin (h.owned.keep hpc rfl) rfl ?_ ?_
    · dsimp only [Point.left]
      omega
    · intro j loaded hpoint
      cases hpoint
      rfl
  · rename_i i loaded hpc
    rw [hpc] at hwithin
    dsimp only [Point.Within] at hwithin
    cases hnext
    have htotal := tokens_update (Point.stored count) hpc (.unlock i)
    have hleft := tokens_update (Point.left count) hpc (.unlock i)
    dsimp only [Point.stored] at htotal
    dsimp only [Point.left] at hleft
    refine ⟨?_, ?_, .inr ⟨⟨p, i, loaded, hpc⟩, ?_⟩⟩
    · refine h.move hpc (by simp) (by simp) (by simp) hwithin (h.owned.keep hpc rfl) ?_
        (by simp) ?_
      · have hsum : tokens (Point.stored count) (Function.update s.pc p (.unlock i)) =
            s.total count + 1 := by
          unfold System.total
          omega
        rw [h.loaded_eq p i loaded hpc, h.counter_eq, hsum, BitVec.ofNat_add]
        rfl
      · -- another thread at its store would have the lock as well
        intro q j other hne hq
        exact absurd (h.owned.unique hq hpc rfl rfl) hne
    · unfold System.left
      dsimp only
      omega
    · unfold System.total
      dsimp only
      omega
  · rename_i i hpc
    rw [hpc] at hwithin
    dsimp only [Point.Within] at hwithin
    cases hnext
    refine h.advances hpc (by simp) (by simp) (by simp) hwithin (h.owned.release hpc rfl rfl)
      rfl ?_ ?_
    · dsimp only [Point.left]
      omega
    · simp
  · cases hnext

/-- The thread that `main` creates starts from no increments. -/
theorem Counted.create (h : Counted count s) (hmain : s.main = .create p) {after : MainPoint}
    (hcreates : ∀ q, after.creates q = true ↔ q ≠ p ∧ s.main.creates q = true)
    (hjoined : ∀ q, after.joined q = false) (hleft : after.left + 1 = s.main.left) :
    Advances count s { s with main := after, pc := Function.update s.pc p (.test 0) } := by
  have hpc : s.pc p = .notCreated := by
    rw [h.created p, hmain]
    cases p <;> rfl
  have htotal : tokens (Point.stored count) (Function.update s.pc p (.test 0)) = s.total count :=
    tokens_keep hpc rfl
  refine ⟨⟨h.owned.keep hpc rfl, ?_, ?_, ?_, ?_, ?_, ?_⟩, ?_, .inl htotal⟩
  · exact h.counter_eq.trans (congrArg (BitVec.ofNat 32) htotal.symm)
  · intro q i loaded hq
    dsimp only at hq
    rcases eq_or_ne q p with rfl | hne
    · rw [Function.update_self] at hq
      cases hq
    · rw [Function.update_of_ne hne] at hq
      exact h.loaded_eq q i loaded hq
  · intro q
    dsimp only
    rcases eq_or_ne q p with rfl | hne
    · rw [Function.update_self]
      exact Nat.zero_le count
    · rw [Function.update_of_ne hne]
      exact h.within q
  · intro q
    dsimp only
    rw [hcreates q]
    rcases eq_or_ne q p with rfl | hne
    · rw [Function.update_self]
      exact iff_of_false (by simp) (by simp)
    · rw [Function.update_of_ne hne, h.created q]
      exact (and_iff_right hne).symm
  · intro q hq
    rw [hjoined q] at hq
    cases hq
  · intro hreturned
    have hnone := hjoined .p1
    dsimp only at hreturned
    rw [hreturned] at hnone
    cases hnone
  · have hmoved : tokens (Point.left count) (Function.update s.pc p (.test 0)) =
        tokens (Point.left count) s.pc := tokens_keep hpc rfl
    unfold System.left
    dsimp only
    omega

/-- Both threads have stored all their increments. -/
theorem total_of_joined (h : ∀ p, s.pc p = .returned) : s.total count = 2 * count := by
  have hsum := Finset.sum_congr rfl fun p (_ : p ∈ Finset.univ) =>
    congrArg (Point.stored count) (h p)
  rw [System.total, tokens, hsum, Finset.sum_const]
  rfl

theorem Counted.main (h : Counted count s)
    (hnext : ThreadedCounter.main count s = some next) : Advances count s next := by
  unfold ThreadedCounter.main at hnext
  split at hnext
  · rename_i p hmain
    cases hnext
    cases p with
    | p1 =>
        refine h.create hmain ?_ (fun _ => rfl) (by rw [hmain]; rfl)
        intro q
        rw [hmain]
        cases q <;> decide
    | p2 =>
        refine h.create hmain ?_ (fun _ => rfl) (by rw [hmain]; rfl)
        intro q
        rw [hmain]
        cases q <;> decide
  · rename_i p hmain
    split at hnext <;> cases hnext
    rename_i hpc
    have hcreated := h.created
    have hjoined := h.joined
    rw [hmain] at hcreated hjoined
    refine ⟨⟨h.owned, h.counter_eq, h.loaded_eq, h.within, ?_, ?_, ?_⟩, ?_, .inl rfl⟩
    · intro q
      rw [hcreated q]
      cases p <;> rfl
    · intro q hq
      cases p <;> cases q
      · exact hpc
      · cases hq
      · exact hjoined .p1 rfl
      · exact hpc
    · intro hreturned
      cases p <;> cases hreturned
    · unfold System.left
      rw [hmain]
      cases p <;> rfl
  · rename_i hmain
    cases hnext
    have hcreated := h.created
    have hjoined := h.joined
    rw [hmain] at hcreated hjoined
    have htotal : s.total count = 2 * count := total_of_joined fun q => hjoined q rfl
    refine ⟨⟨h.owned, h.counter_eq, h.loaded_eq, h.within, hcreated, hjoined, ?_⟩, ?_, .inl rfl⟩
    · intro _
      dsimp only
      rw [h.counter_eq, htotal]
    · unfold System.left
      rw [hmain]
      rfl
  · cases hnext

theorem Counted.step {event : Option Thread} (h : Counted count s)
    (hnext : ThreadedCounter.step count s event = some next) : Advances count s next := by
  cases event with
  | none => exact h.main hnext
  | some p => exact h.routine hnext

/-- A created thread that has not returned can go on, or waits for the other,
which can. -/
theorem Counted.running (h : Counted count s) (hcreated : s.pc p ≠ .notCreated)
    (hrunning : s.pc p ≠ .returned) : ∃ q, ThreadedCounter.routine count s q ≠ none := by
  cases hlock : s.lock with
  | none =>
      refine ⟨p, ?_⟩
      unfold ThreadedCounter.routine
      cases hpc : s.pc p <;> simp only [hlock]
      case notCreated => exact absurd hpc hcreated
      case returned => exact absurd hpc hrunning
      all_goals exact Option.some_ne_none _
  | some q =>
      refine ⟨q, ?_⟩
      have hinside := (h.owned q).mpr hlock
      unfold ThreadedCounter.routine
      cases hpc : s.pc q <;> rw [hpc] at hinside
      case load | store | unlock => exact Option.some_ne_none _
      all_goals cases hinside

theorem Counted.finished (h : Counted count s) (hstuck : Stuck (ThreadedCounter.step count) s) :
    Finished count s := by
  have hjoin (p : Thread) (hcreates : s.main.creates p = false) : s.pc p = .returned := by
    by_contra hrunning
    have hcreated : s.pc p ≠ .notCreated := by
      rw [Ne, h.created p, hcreates]
      exact Bool.false_ne_true
    obtain ⟨q, hq⟩ := h.running hcreated hrunning
    exact hq (hstuck (some q))
  have hmain : ThreadedCounter.main count s = none := hstuck none
  unfold ThreadedCounter.main at hmain
  split at hmain
  · cases hmain
  · rename_i p hpoint
    rw [hjoin p (by rw [hpoint]; cases p <;> rfl)] at hmain
    cases hmain
  · cases hmain
  · rename_i hpoint
    exact ⟨hpoint, h.printed_eq hpoint⟩

theorem completes (count : Nat) :
    Completes (step count) start (Finished count) (10 * count + 7) := by
  have hleft : start.left count = 10 * count + 7 := by
    unfold System.left tokens
    rw [show (Finset.univ : Finset Thread) = {.p1, .p2} from rfl, Finset.sum_pair (by decide)]
    dsimp only [start, Point.left, MainPoint.left]
    omega
  rw [← hleft]
  refine completes_of_measure (Counted count) (System.left count) ?_ ?_ start_counted
  · intro s event next h hnext
    have hadvances := h.step hnext
    exact ⟨hadvances.counted, Nat.lt_of_succ_le (Nat.le_of_eq hadvances.left_succ)⟩
  · intro s h hstuck
    exact h.finished hstuck

theorem reaches_counted (h : Reaches (step count) start s) : Counted count s :=
  h.invariant (fun _ _ _ h hnext => (h.step hnext).counted) start_counted

theorem Point.Within.stored_le (h : point.Within count) : point.stored count ≤ count := by
  cases point <;> dsimp only [Point.Within] at h <;> dsimp only [Point.stored] <;> omega

/-- At a store, one increment at least is still to come. -/
theorem Counted.total_lt (h : Counted count s) {i : Nat} {loaded : BitVec 32}
    (hpc : s.pc p = .store i loaded) : s.total count < 2 * count := by
  have hstore : (s.pc p).stored count < count := by
    have hwithin := h.within p
    rw [hpc] at hwithin ⊢
    exact hwithin
  have hless := Finset.sum_lt_sum (fun q _ => (h.within q).stored_le)
    ⟨p, Finset.mem_univ p, hstore⟩
  rw [Finset.sum_const] at hless
  exact hless

/-- For every count that is an `int` and in every order of the statements:
within a bounded number of them `main` prints the count that it expects, no
index overflows, and no increment of the counter does if and only if the count
expected is an `int`. -/
theorem counter_prints_expected (count : Nat) (hcount : count ≤ intMax) :
    Completes (step count) start (Finished count) (10 * count + 7) ∧
    (∀ s, Reaches (step count) start s → ¬ IndexOverflows s) ∧
    ((∀ s, Reaches (step count) start s → ¬ Overflows s) ↔ 2 * count ≤ intMax) := by
  refine ⟨completes count, ?_, ?_, ?_⟩
  · rintro s hs ⟨p, i, hpc, hlarge⟩
    have hwithin := (reaches_counted hs).within p
    rw [hpc] at hwithin
    dsimp only [Point.Within] at hwithin
    omega
  · intro hnone
    by_contra hlarge
    obtain ⟨last, hlast, hfinished⟩ := (completes count).exists_final .refl
    have hend : last.total count = 2 * count := total_of_joined fun q =>
      (reaches_counted hlast).joined q (by rw [hfinished.returned]; rfl)
    have hstart : start.total count = 0 := tokens_eq_zero (fun _ => rfl)
    obtain ⟨s, event, next, hs, hbelow, hnext, hnot⟩ :=
      hlast.exists_loss (fun s => s.total count ≤ intMax) (by omega) (by omega)
    have hcounted := reaches_counted hs
    obtain hsame | ⟨⟨p, i, loaded, hpc⟩, hmore⟩ := (hcounted.step hnext).total_eq
    · omega
    · have htotal : s.total count = intMax := by omega
      refine hnone s hs ⟨p, i, ?_⟩
      rw [hpc, hcounted.loaded_eq p i loaded hpc, hcounted.counter_eq, htotal]
      rfl
  · rintro hsmall s hs ⟨p, i, hpc⟩
    have hcounted := reaches_counted hs
    have hlt := hcounted.total_lt hpc
    have hmax := hcounted.loaded_eq p i _ hpc
    rw [hcounted.counter_eq] at hmax
    have hvalue := congrArg BitVec.toNat hmax
    have hint : (BitVec.intMax 32).toNat = intMax := rfl
    have hmodulus : intMax < 2 ^ 32 := by decide
    rw [BitVec.toNat_ofNat, Nat.mod_eq_of_lt (by omega)] at hvalue
    omega

theorem each_count_printed :
    Completes (step eachCount) start (Finished eachCount) (10 * eachCount + 7) ∧
    (∀ s, Reaches (step eachCount) start s → ¬ IndexOverflows s) ∧
    ((∀ s, Reaches (step eachCount) start s → ¬ Overflows s) ↔ 2 * eachCount ≤ intMax) :=
  counter_prints_expected eachCount (by decide)

end CsPrimer.ThreadedCounter
