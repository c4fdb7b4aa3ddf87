import CsPrimer.SignalLogger.Siglog

/-!
The loop of `main`. Its write through the null pointer faults each time, and the
handler jumps back behind the `sigsetjmp` with the next number, so the loop ends
with the tenth fault. Other signals do not change what is printed; a SIGSEGV from
outside skips a number at most, and no sequence of finitely many signals keeps
`main` from its last loop.
-/

namespace CsPrimer.SignalLogger

open Foundation

def State.raised (s : State) : Prop := ∃ frame ∈ s.frames, frame.sig = SIGSEGV

instance (s : State) : Decidable s.raised := inferInstanceAs (Decidable (∃ _ ∈ _, _))

/-- The number of the loop at each point, and `i`, which is one ahead of it. -/
def State.Counts (s : State) : Prop :=
  match s.point with
  | .fork | .sigsetjmp => s.i = 1 ∧ s.printed = []
  | .test ret => s.i = ret + 1 ∧ ∀ n ∈ s.printed, n < ret
  | .print ret => s.i = ret + 1 ∧ ret < 10 ∧ ∀ n ∈ s.printed, n < ret
  | .write => s.i ≤ 10 ∧ ∀ n ∈ s.printed, n < s.i
  | .sleep => 11 ≤ s.i ∧ ∀ n ∈ s.printed, n < s.i
  | .fault _ => True

structure Counting (s : State) : Prop where
  counts : s.Counts
  filled : s.filled = true → s.point ≠ .fork ∧ s.point ≠ .sigsetjmp
  ascending : s.printed.Pairwise (· < ·)
  below_ten : ∀ n ∈ s.printed, n < 10

/-- What the loop has printed where all faults are its own. -/
def State.Prints (s : State) : Prop :=
  match s.point with
  | .fork | .sigsetjmp => s.i = 1 ∧ s.printed = []
  | .test ret => s.filled = true ∧ s.i = ret + 1 ∧ ret ≤ 10 ∧ s.printed = List.range ret
  | .print ret => s.filled = true ∧ s.i = ret + 1 ∧ ret < 10 ∧ s.printed = List.range ret
  | .write => s.filled = true ∧ s.i ≤ 10 ∧ s.printed = List.range s.i
  | .sleep => s.printed = List.range 10
  | .fault fault => fault = .shift ∧ ∃ k ≤ 10, s.printed = List.range k

structure OwnFaults (s : State) : Prop where
  prints : s.Prints
  raised : s.raised → s.point = .write ∨ ∃ fault, s.point = .fault fault

/-- Statements of a call of `handle`, at most. One for SIGSEGV leads to another
test of the loop. -/
def Frame.left (frame : Frame) : Nat :=
  (match frame.point with
    | .load => 5
    | .store _ => 4
    | .count => 3
    | .print _ => 2
    | .leave => 1) + if frame.sig = SIGSEGV then 1 else 0

/-- Statements of `main`, at most, with those of the handlers for its faults. -/
def State.mainLeft (s : State) : Nat :=
  match s.point with
  | .fork => 93
  | .sigsetjmp => 92
  | .test ret => 9 * (10 - ret) + 1
  | .print ret => 9 * (10 - ret)
  | .write => 9 * (10 - s.i) + if s.raised then 0 else 7
  | .sleep | .fault _ => 0

def State.left (s : State) : Nat :=
  match s.point with
  | .fault _ => 0
  | _ => s.mainLeft + (s.frames.map Frame.left).sum

def Event.allowance : Event → Nat
  | .advance => 0
  | .signal _ => 7

variable {s next : State} {event : Event} {frame : Frame} {below : List Frame}

theorem start_counting : Counting start where
  counts := ⟨rfl, rfl⟩
  filled := by
    intro hfilled
    cases hfilled
  ascending := List.Pairwise.nil
  below_ten := fun _ hn => absurd hn List.not_mem_nil

structure SameLoop (s next : State) : Prop where
  point : next.point = s.point
  i : next.i = s.i
  filled : next.filled = s.filled
  printed : next.printed = s.printed

inductive Handling (s : State) (frame : Frame) (below : List Frame) (next : State) : Prop
  | moves (same : SameLoop s next) (point : HandlerPoint)
      (frames : next.frames = { frame with point := point } :: below)
      (left : ({ frame with point := point } : Frame).left + 1 = frame.left)
  | returns (same : SameLoop s next) (sig : frame.sig ≠ SIGSEGV)
      (frames : next.frames = below) (left : frame.left = 1)
  | jumps (sig : frame.sig = SIGSEGV) (left : frame.left = 2) (point : next.point = .test s.i)
      (i : next.i = s.i + 1) (filled : s.filled = true) (filled' : next.filled = true)
      (printed : next.printed = s.printed) (frames : next.frames = [])
  | fails (fault : Fault) (point : next.point = .fault fault) (printed : next.printed = s.printed)
      (frames : next.frames = s.frames) (left : 0 < frame.left)
      (cause : fault = .shift ∨
        frame.sig = SIGSEGV ∧ (s.filled = false ∨ s.i = intMax))

theorem handle_cases (s : State) (frame : Frame) (below : List Frame) :
    Handling s frame below (s.handle frame below) := by
  obtain ⟨sig, point⟩ := frame
  cases point with
  | load => exact .moves ⟨rfl, rfl, rfl, rfl⟩ _ rfl (by simp only [Frame.left]; omega)
  | store loaded =>
      simp only [State.handle]
      split
      · exact .fails .shift rfl rfl rfl (by simp only [Frame.left]; omega) (.inl rfl)
      · exact .moves ⟨rfl, rfl, rfl, rfl⟩ _ rfl (by simp only [Frame.left]; omega)
  | count => exact .moves ⟨rfl, rfl, rfl, rfl⟩ _ rfl (by simp only [Frame.left]; omega)
  | print total => exact .moves ⟨rfl, rfl, rfl, rfl⟩ _ rfl (by simp only [Frame.left]; omega)
  | leave =>
      have hpos : 0 < (⟨sig, .leave⟩ : Frame).left := by
        simp only [Frame.left]
        omega
      simp only [State.handle]
      split
      · rename_i hsig
        split
        · rename_i hi
          exact .fails .overflow rfl rfl rfl hpos (.inr ⟨hsig, .inr hi⟩)
        · split
          · rename_i hfilled
            have hleft : (⟨sig, .leave⟩ : Frame).left = 2 := by
              simp only [Frame.left, if_pos hsig]
            exact .jumps hsig hleft rfl rfl hfilled hfilled rfl rfl
          · rename_i hfilled
            exact .fails .emptyBuffer rfl rfl rfl hpos
              (.inr ⟨hsig, .inl (Bool.eq_false_iff.mpr hfilled)⟩)
      · rename_i hsig
        exact .returns ⟨rfl, rfl, rfl, rfl⟩ hsig rfl (by simp only [Frame.left, if_neg hsig])

theorem Counting.same (h : Counting s) (hsame : SameLoop s next) : Counting next where
  counts := by
    have hcounts := h.counts
    unfold State.Counts at hcounts ⊢
    rwa [hsame.point, hsame.i, hsame.printed]
  filled := by
    rw [hsame.filled, hsame.point]
    exact h.filled
  ascending := by
    rw [hsame.printed]
    exact h.ascending
  below_ten := by
    rw [hsame.printed]
    exact h.below_ten

/-- Behind `sigsetjmp`, `i` is above all that has been printed. -/
theorem Counting.lt_i (h : Counting s) (hfault : ∀ fault, s.point ≠ .fault fault)
    (hfilled : s.filled = true) : ∀ n ∈ s.printed, n < s.i := by
  have hcounts := h.counts
  obtain ⟨hfork, hsetjmp⟩ := h.filled hfilled
  unfold State.Counts at hcounts
  cases hpoint : s.point <;> simp only [hpoint] at hcounts
  case fork => exact absurd hpoint hfork
  case sigsetjmp => exact absurd hpoint hsetjmp
  case test ret =>
    intro n hn
    have := hcounts.2 n hn
    omega
  case print ret =>
    intro n hn
    have := hcounts.2.2 n hn
    omega
  case write => exact hcounts.2
  case sleep => exact hcounts.2
  case fault fault => exact absurd hpoint (hfault fault)

theorem Counting.main (h : Counting s) (hnext : s.main = some next) : Counting next := by
  have hcounts := h.counts
  have hfilled := h.filled
  unfold State.main at hnext
  cases hpoint : s.point <;> simp only [State.Counts, hpoint] at hcounts hnext hfilled <;>
    cases hnext
  case fork => exact ⟨hcounts, fun hf => absurd rfl (hfilled hf).1, h.ascending, h.below_ten⟩
  case sigsetjmp =>
    obtain ⟨hi, hprinted⟩ := hcounts
    refine ⟨⟨hi, ?_⟩, fun _ => by simp, h.ascending, h.below_ten⟩
    intro n hn
    have hn : n ∈ s.printed := hn
    rw [hprinted] at hn
    exact absurd hn List.not_mem_nil
  case test ret =>
    obtain ⟨hi, hlt⟩ := hcounts
    by_cases hret : ret < 10
    · simp only [if_pos hret]
      exact ⟨⟨hi, hret, hlt⟩, fun _ => by simp, h.ascending, h.below_ten⟩
    · simp only [if_neg hret]
      refine ⟨⟨(by omega : 11 ≤ s.i), ?_⟩, fun _ => by simp, h.ascending, h.below_ten⟩
      intro n hn
      have hn := hlt n hn
      exact (by omega : n < s.i)
  case print ret =>
    obtain ⟨hi, hret, hlt⟩ := hcounts
    refine ⟨⟨(by omega : s.i ≤ 10), ?_⟩, fun _ => by simp, ?_, ?_⟩
    · intro n hn
      rcases List.mem_append.mp hn with hn | hn
      · have hn := hlt n hn
        exact (by omega : n < s.i)
      · rw [List.mem_singleton.mp hn]
        exact (by omega : ret < s.i)
    · rw [List.pairwise_append]
      refine ⟨h.ascending, List.pairwise_singleton .., ?_⟩
      intro n hn m hm
      rw [List.mem_singleton.mp hm]
      exact hlt n hn
    · intro n hn
      rcases List.mem_append.mp hn with hn | hn
      · exact h.below_ten n hn
      · rw [List.mem_singleton.mp hn]
        exact hret
  case write =>
    refine ⟨?_, fun _ => by simp, h.ascending, h.below_ten⟩
    simp only [State.Counts]
    exact hcounts

theorem Counting.step (h : Counting s) (hnext : SignalLogger.step s event = some next) :
    Counting next := by
  obtain ⟨hfault, ⟨-, -, hmain⟩ | ⟨frame, below, -, -, rfl⟩ | ⟨sig, -, -, -, rfl⟩⟩ :=
    step_cases hnext
  · exact h.main hmain
  · cases handle_cases s frame below with
    | moves same => exact h.same same
    | returns same => exact h.same same
    | jumps sig left point i filled filled' printed frames =>
        refine ⟨?_, fun _ => by simp [point], by rw [printed]; exact h.ascending,
          by rw [printed]; exact h.below_ten⟩
        simp only [State.Counts, point, i, printed]
        exact ⟨trivial, h.lt_i hfault filled⟩
    | fails fault point printed =>
        refine ⟨?_, fun _ => by simp [point], by rw [printed]; exact h.ascending,
          by rw [printed]; exact h.below_ten⟩
        simp only [State.Counts, point]
  · exact h.same ⟨rfl, rfl, rfl, rfl⟩

theorem start_ownFaults : OwnFaults start where
  prints := ⟨rfl, rfl⟩
  raised := by
    rintro ⟨frame, hframe, -⟩
    exact absurd hframe List.not_mem_nil

theorem not_raised_of_nil (hframes : s.frames = []) : ¬ s.raised := by
  rintro ⟨frame, hframe, -⟩
  rw [hframes] at hframe
  exact absurd hframe List.not_mem_nil

/-- The loop stays where it is, and no SIGSEGV comes. -/
theorem OwnFaults.same (h : OwnFaults s) (hsame : SameLoop s next)
    (hraised : next.raised → s.raised) : OwnFaults next where
  prints := by
    have hprints := h.prints
    unfold State.Prints at hprints ⊢
    rwa [hsame.point, hsame.i, hsame.filled, hsame.printed]
  raised := by
    rw [hsame.point]
    exact fun hnext => h.raised (hraised hnext)

/-- The numbers that have been printed, whatever the point. -/
theorem OwnFaults.printed (h : OwnFaults s) : ∃ k ≤ 10, s.printed = List.range k := by
  have hprints := h.prints
  unfold State.Prints at hprints
  cases hpoint : s.point <;> simp only [hpoint] at hprints
  case fork | sigsetjmp => exact ⟨0, by omega, hprints.2⟩
  case test ret => exact ⟨ret, hprints.2.2.1, hprints.2.2.2⟩
  case print ret => exact ⟨ret, hprints.2.2.1.le, hprints.2.2.2⟩
  case write => exact ⟨s.i, hprints.2.1, hprints.2.2⟩
  case sleep => exact ⟨10, by omega, hprints⟩
  case fault fault => exact hprints.2

theorem OwnFaults.main (h : OwnFaults s) (hframes : s.frames = [])
    (hnext : s.main = some next) : OwnFaults next := by
  have hprints := h.prints
  have hnone := not_raised_of_nil hframes
  unfold State.main at hnext
  cases hpoint : s.point <;> simp only [State.Prints, hpoint] at hprints hnext <;> cases hnext
  case fork => exact ⟨hprints, fun hraised => absurd hraised hnone⟩
  case sigsetjmp =>
    obtain ⟨hi, hprinted⟩ := hprints
    exact ⟨⟨rfl, hi, by omega, hprinted⟩, fun hraised => absurd hraised hnone⟩
  case test ret =>
    obtain ⟨hfilled, hi, hle, hprinted⟩ := hprints
    by_cases hret : ret < 10
    · simp only [if_pos hret]
      exact ⟨⟨hfilled, hi, hret, hprinted⟩, fun hraised => absurd hraised hnone⟩
    · obtain rfl : ret = 10 := by omega
      simp only [if_neg hret]
      exact ⟨hprinted, fun hraised => absurd hraised hnone⟩
  case print ret =>
    obtain ⟨hfilled, hi, hret, hprinted⟩ := hprints
    refine ⟨⟨hfilled, (by omega : s.i ≤ 10), ?_⟩, fun hraised => absurd hraised hnone⟩
    dsimp only
    rw [hprinted, hi, List.range_succ]
  case write =>
    refine ⟨?_, fun _ => .inl rfl⟩
    simp only [State.Prints]
    exact hprints

theorem OwnFaults.handle (h : OwnFaults s) (hfault : ∀ fault, s.point ≠ .fault fault)
    (hframes : s.frames = frame :: below) : OwnFaults (s.handle frame below) := by
  -- a handler for SIGSEGV was entered from the write
  have hwrite : frame.sig = SIGSEGV →
      s.point = .write ∧ s.filled = true ∧ s.i ≤ 10 ∧ s.printed = List.range s.i := by
    intro hsig
    have hraised : s.raised := ⟨frame, hframes ▸ List.mem_cons_self, hsig⟩
    have hpoint : s.point = .write :=
      (h.raised hraised).resolve_right fun ⟨fault, hpoint⟩ => hfault fault hpoint
    have hprints := h.prints
    simp only [State.Prints, hpoint] at hprints
    exact ⟨hpoint, hprints⟩
  cases handle_cases s frame below with
  | moves same point frames =>
      apply h.same same
      rintro ⟨other, hother, hsig⟩
      rw [frames] at hother
      rcases List.mem_cons.mp hother with rfl | hother
      · exact ⟨frame, hframes ▸ List.mem_cons_self, hsig⟩
      · exact ⟨other, hframes ▸ List.mem_cons_of_mem _ hother, hsig⟩
  | returns same sig frames =>
      apply h.same same
      rintro ⟨other, hother, hsig⟩
      rw [frames] at hother
      exact ⟨other, hframes ▸ List.mem_cons_of_mem _ hother, hsig⟩
  | jumps sig left point i filled filled' printed frames =>
      obtain ⟨-, -, hle, hprinted⟩ := hwrite sig
      refine ⟨?_, fun hraised => absurd hraised (not_raised_of_nil frames)⟩
      simp only [State.Prints, point]
      exact ⟨filled', i, hle, printed.trans hprinted⟩
  | fails fault point printed frames left cause =>
      refine ⟨?_, fun _ => .inr ⟨fault, point⟩⟩
      simp only [State.Prints, point]
      refine ⟨?_, printed ▸ h.printed⟩
      apply cause.resolve_right
      rintro ⟨hsig, hother⟩
      obtain ⟨-, hfilled, hle, -⟩ := hwrite hsig
      rcases hother with hempty | hlast
      · rw [hempty] at hfilled
        cases hfilled
      · rw [hlast, intMax] at hle
        omega

theorem OwnFaults.step (h : OwnFaults s) (hown : event ≠ .signal SIGSEGV)
    (hnext : SignalLogger.step s event = some next) : OwnFaults next := by
  obtain ⟨hfault, ⟨-, hframes, hmain⟩ | ⟨frame, below, -, hframes, rfl⟩ |
    ⟨sig, rfl, -, -, rfl⟩⟩ := step_cases hnext
  · exact h.main hframes hmain
  · exact h.handle hfault hframes
  · refine h.same ⟨rfl, rfl, rfl, rfl⟩ ?_
    rintro ⟨frame, hframe, hsig⟩
    rcases List.mem_cons.mp hframe with rfl | hframe
    · exact absurd (congrArg Event.signal hsig) hown
    · exact ⟨frame, hframe, hsig⟩

theorem left_eq (hfault : ∀ fault, s.point ≠ .fault fault) :
    s.left = s.mainLeft + (s.frames.map Frame.left).sum := by
  unfold State.left
  split
  · rename_i fault hpoint
    exact absurd hpoint (hfault fault)
  · rfl

theorem mainLeft_of_same (hsame : SameLoop s next) (hraised : s.raised → next.raised) :
    next.mainLeft ≤ s.mainLeft := by
  unfold State.mainLeft
  rw [hsame.point, hsame.i]
  cases s.point <;> dsimp only <;> try exact Nat.le_refl _
  by_cases hold : s.raised
  · rw [if_pos hold, if_pos (hraised hold)]
  · rw [if_neg hold]
    split <;> omega

/-- What a jump comes back to was accounted for. -/
theorem Counting.jump_left (h : Counting s) (hfault : ∀ fault, s.point ≠ .fault fault)
    (hfilled : s.filled = true) : 9 * (10 - s.i) ≤ s.mainLeft := by
  have hcounts := h.counts
  obtain ⟨hfork, hsetjmp⟩ := h.filled hfilled
  unfold State.Counts at hcounts
  unfold State.mainLeft
  cases hpoint : s.point <;> simp only [hpoint] at hcounts ⊢
  case fork => exact absurd hpoint hfork
  case sigsetjmp => exact absurd hpoint hsetjmp
  case fault fault => exact absurd hpoint (hfault fault)
  all_goals omega

theorem Counting.main_paid (h : Counting s) (hframes : s.frames = [])
    (hnext : s.main = some next) : 1 + next.left ≤ s.left := by
  have hcounts := h.counts
  have hnone := not_raised_of_nil hframes
  unfold State.main at hnext
  cases hpoint : s.point <;> simp only [State.Counts, hpoint] at hcounts hnext <;> cases hnext
  case fork => simp [State.left, State.mainLeft, hpoint, hframes]
  case sigsetjmp => simp [State.left, State.mainLeft, hpoint, hframes]
  case test ret =>
    by_cases hret : ret < 10
    · simp [State.left, State.mainLeft, hpoint, hframes, hret]
      omega
    · simp [State.left, State.mainLeft, hpoint, hframes, hret]
  case print ret =>
    simp only [State.left, State.mainLeft, hpoint, hframes, List.map_nil, List.sum_nil]
    split
    · omega
    · omega
  case write =>
    have hraised : ({ s with point := .write, frames := [⟨SIGSEGV, .load⟩] } : State).raised :=
      ⟨_, List.mem_cons_self, rfl⟩
    simp only [State.left, State.mainLeft, hpoint, hframes, if_pos hraised, if_neg hnone,
      List.map_nil, List.sum_nil, List.map_cons, List.sum_cons]
    have hload : (⟨SIGSEGV, .load⟩ : Frame).left = 6 := rfl
    omega

theorem Counting.handle_paid (h : Counting s) (hfault : ∀ fault, s.point ≠ .fault fault)
    (hframes : s.frames = frame :: below) : 1 + (s.handle frame below).left ≤ s.left := by
  have hleft := left_eq hfault
  rw [hframes, List.map_cons, List.sum_cons] at hleft
  cases handle_cases s frame below with
  | moves same point frames left =>
      have hmain := mainLeft_of_same same (by
        rintro ⟨other, hother, hsig⟩
        rw [hframes] at hother
        rw [State.raised, frames]
        rcases List.mem_cons.mp hother with rfl | hother
        · exact ⟨_, List.mem_cons_self, hsig⟩
        · exact ⟨other, List.mem_cons_of_mem _ hother, hsig⟩)
      rw [left_eq (by rw [same.point]; exact hfault), frames, List.map_cons, List.sum_cons]
      omega
  | returns same sig frames left =>
      have hmain := mainLeft_of_same same (by
        rintro ⟨other, hother, hsig⟩
        rw [hframes] at hother
        rw [State.raised, frames]
        rcases List.mem_cons.mp hother with rfl | hother
        · exact absurd hsig sig
        · exact ⟨other, hother, hsig⟩)
      rw [left_eq (by rw [same.point]; exact hfault), frames]
      omega
  | jumps sig left point i filled filled' printed frames =>
      have hjump := h.jump_left hfault filled
      have htest : (s.handle frame below).left = 9 * (10 - s.i) + 1 := by
        simp only [State.left, State.mainLeft, point, frames, List.map_nil, List.sum_nil]
        omega
      omega
  | fails fault point printed frames left =>
      have hzero : (s.handle frame below).left = 0 := by
        simp only [State.left, point]
      omega

theorem Counting.paid (h : Counting s) (hnext : SignalLogger.step s event = some next) :
    1 + next.left ≤ s.left + event.allowance := by
  obtain ⟨hfault, ⟨rfl, hframes, hmain⟩ | ⟨frame, below, rfl, hframes, rfl⟩ |
    ⟨sig, rfl, -, -, rfl⟩⟩ := step_cases hnext
  · exact h.main_paid hframes hmain
  · exact h.handle_paid hfault hframes
  · have hmain : ({ s with frames := ⟨sig, .load⟩ :: s.frames } : State).mainLeft ≤
        s.mainLeft := by
      refine mainLeft_of_same ⟨rfl, rfl, rfl, rfl⟩ ?_
      rintro ⟨other, hother, hsig⟩
      exact ⟨other, List.mem_cons_of_mem _ hother, hsig⟩
    have hload : (⟨sig, .load⟩ : Frame).left ≤ 6 := by
      simp only [Frame.left]
      split <;> omega
    have hleft : ({ s with frames := ⟨sig, .load⟩ :: s.frames } : State).left =
        ({ s with frames := ⟨sig, .load⟩ :: s.frames } : State).mainLeft +
          ((⟨sig, .load⟩ : Frame).left + (s.frames.map Frame.left).sum) := left_eq hfault
    rw [left_eq hfault, hleft]
    simp only [Event.allowance]
    omega

theorem advance_ne_none (hsleep : s.point = .sleep → s.frames ≠ [])
    (hfault : ∀ fault, s.point ≠ .fault fault) : step s .advance ≠ none := by
  simp only [step]
  split
  · rename_i fault hpoint
    exact absurd hpoint (hfault fault)
  · rename_i hframes _
    unfold State.main
    cases hpoint : s.point
    case sleep => exact absurd hframes (hsleep hpoint)
    case fault fault => exact absurd hpoint (hfault fault)
    all_goals exact Option.some_ne_none _
  · exact Option.some_ne_none _

/-- The loop at the end of a run. It has printed ascending numbers below ten; the
run is no longer than ten rounds and the handlers of the signals make it, and
goes on until `main` sleeps. Where every SIGSEGV is from the write of the loop,
the numbers are those from zero on, all ten of them at the end. -/
structure LoopSafe (events : List Event) (s : State) : Prop where
  ascending : s.printed.Pairwise (· < ·)
  below_ten : ∀ n ∈ s.printed, n < 10
  bounded : events.length ≤ 93 + (events.map Event.allowance).sum
  goes_on : step s .advance = none →
    s.point = .sleep ∧ s.frames = [] ∨ ∃ fault, s.point = .fault fault
  own : Event.signal SIGSEGV ∉ events →
    (∃ k ≤ 10, s.printed = List.range k) ∧
      (s.point = .sleep → s.printed = List.range 10) ∧
      ∀ fault, s.point = .fault fault → fault = .shift

theorem OwnFaults.loop (h : OwnFaults s) :
    (∃ k ≤ 10, s.printed = List.range k) ∧
      (s.point = .sleep → s.printed = List.range 10) ∧
      ∀ fault, s.point = .fault fault → fault = .shift := by
  have hprints := h.prints
  refine ⟨h.printed, ?_, ?_⟩
  · intro hpoint
    simp only [State.Prints, hpoint] at hprints
    exact hprints
  · intro fault hpoint
    simp only [State.Prints, hpoint] at hprints
    exact hprints.1

/-- For every run, with any signals between its statements. -/
theorem loop_ends (events : List Event) (s : State)
    (hrun : runEvents step start events = some s) : LoopSafe events s := by
  have hcounting : Counting s :=
    Reaches.invariant (fun _ _ _ h hnext => h.step hnext) start_counting ⟨events, hrun⟩
  have hpaid : ∀ s event next, Counting s → step s event = some next →
      Counting next ∧ 1 + next.left + 0 ≤ s.left + 0 + event.allowance :=
    fun _ _ _ h hnext => ⟨h.step hnext, h.paid hnext⟩
  have hlength := length_le_of_potential State.left (fun _ => 0) Event.allowance hpaid
    start_counting hrun
  have hstart : start.left = 93 := rfl
  refine ⟨hcounting.ascending, hcounting.below_ten, by omega, ?_, ?_⟩
  · intro hnone
    by_contra hnot
    rw [not_or, not_and, not_exists] at hnot
    exact advance_ne_none hnot.1 hnot.2 hnone
  · intro hown
    have hok : EachStep step (fun _ event => event ≠ .signal SIGSEGV) start events :=
      eachStep_of_forall fun event hevent _ heq => hown (heq ▸ hevent)
    have hfaults : OwnFaults s :=
      hok.invariant (fun _ _ _ h hevent hnext => h.step hevent hnext) start_ownFaults hrun
    exact hfaults.loop

/-- The whole loop, with the SIGCHLD of the child in its first round. -/
def tenFaults : List Event :=
  .advance :: .signal 17 :: List.replicate 87 .advance

theorem ten_faults_sleep :
    ∃ s, runEvents step start tenFaults = some s ∧ s.point = .sleep ∧
      LoopSafe tenFaults s := by
  have hany : (runEvents step start tenFaults).any (fun s => s.point = .sleep) = true := by
    decide +kernel
  obtain ⟨s, hrun, hs⟩ := (Option.any_eq_true _ _).mp hany
  exact ⟨s, hrun, of_decide_eq_true hs, loop_ends tenFaults s hrun⟩

end CsPrimer.SignalLogger
