import CsPrimer.SignalLogger.Siglog
import Mathlib.Data.Finset.Card

/-!
The totals that the handlers print. Every bit of `handled` was put there by some
handler, so a total never counts a signal that was not caught. The other way a
handler that is interrupted between its load of `handled` and its store takes
back what the others have put there meanwhile; where no signal comes at such a
time the total is exact. It is printed late where a signal comes behind the
count; where none does, the totals printed never go down.
-/

namespace CsPrimer.SignalLogger

open Foundation

/-- The bits of a value of `handled` are signals that have been recorded. -/
def Within (value : BitVec 64) (recorded : List Nat) : Prop :=
  ∀ k, value.getLsbD k = true → k ∈ recorded

/-- What a handler has read counts no other signals. -/
def HandlerPoint.Bounded (recorded : List Nat) : HandlerPoint → Prop
  | .store value => Within value recorded
  | .print total => total ≤ recorded.toFinset.card
  | _ => True

/-- No value that is or may become that of `handled` has a bit for another
signal, and no total counts one. -/
structure Recorded (s : State) : Prop where
  handled : Within s.handled s.recorded
  frames : ∀ frame ∈ s.frames, frame.point.Bounded s.recorded
  small : ∀ sig ∈ s.recorded, sig < 31
  reports : ∀ report ∈ s.reports, report.2 ≤ s.recorded.toFinset.card

def HandlerPoint.hasLoaded : HandlerPoint → Bool
  | .store _ => true
  | _ => false

def HandlerPoint.hasCounted : HandlerPoint → Bool
  | .print _ => true
  | _ => false

/-- No signal comes while the innermost handler has read what it goes on to
use. -/
def Undisturbed (hasRead : HandlerPoint → Bool) (s : State) : Event → Prop
  | .advance => True
  | .signal _ => ∀ frame ∈ s.frames.head?, hasRead frame.point = false

/-- Every signal recorded has its bit, and the innermost handler alone may be
about to store. -/
structure Whole (s : State) : Prop where
  recorded : ∀ sig ∈ s.recorded, s.handled.getLsbD sig = true
  innermost : ∀ frame ∈ s.frames.head?, ∀ value, frame.point = .store value →
    value = s.handled
  below : ∀ frame ∈ s.frames.tail, frame.point.hasLoaded = false

/-- The totals printed ascend to the present one, and the innermost handler alone
may be about to print. -/
structure Rising (s : State) : Prop where
  innermost : ∀ frame ∈ s.frames.head?, ∀ total, frame.point = .print total → total = s.total
  below : ∀ frame ∈ s.frames.tail, frame.point.hasCounted = false
  reports : ∀ report ∈ s.reports, report.2 ≤ s.total
  ascending : (s.reports.map Prod.snd).Pairwise (· ≤ ·)

variable {s next : State} {event : Event} {value value' : BitVec 64} {sig : Nat}
  {recorded recorded' : List Nat}

theorem bit_eq_some {b : BitVec 64} (h : bit sig = some b) :
    sig < 31 ∧ ∀ k, b.getLsbD k = decide (k = sig) := by
  unfold bit at h
  split at h
  · rename_i hsmall
    cases h
    refine ⟨hsmall, ?_⟩
    intro k
    rw [BitVec.getLsbD_shiftLeft, BitVec.getLsbD_one, Bool.eq_iff_iff]
    simp
    omega
  · cases h

theorem getLsbD_or_bit {b : BitVec 64} (h : bit sig = some b) (k : Nat) :
    (value ||| b).getLsbD k = true ↔ value.getLsbD k = true ∨ k = sig := by
  rw [BitVec.getLsbD_or, Bool.or_eq_true, (bit_eq_some h).2, decide_eq_true_eq]

theorem Within.mono (h : Within value recorded) (hmono : ∀ k ∈ recorded, k ∈ recorded') :
    Within value recorded' :=
  fun k hk => hmono k (h k hk)

def bits (value : BitVec 64) : Finset Nat :=
  (Finset.range 32).filter fun k => (value.setWidth 32).getLsbD k = true

theorem State.total_eq (s : State) : s.total = (bits s.handled).card := by
  have hbits : bits s.handled =
      ((List.range 32).filter (s.handled.setWidth 32).getLsbD).toFinset := by
    ext k
    simp only [bits, Finset.mem_filter, Finset.mem_range, List.mem_toFinset, List.mem_filter,
      List.mem_range]
  rw [State.total, popcount, List.countP_eq_length_filter, hbits,
    List.toFinset_card_of_nodup (List.nodup_range.filter _)]

theorem mem_bits (hsmall : sig < 31) : sig ∈ bits value ↔ value.getLsbD sig = true := by
  rw [bits, Finset.mem_filter, Finset.mem_range, BitVec.getLsbD_setWidth]
  simp
  omega

theorem Within.bits_subset (h : Within value recorded) : bits value ⊆ recorded.toFinset := by
  intro k hk
  rw [bits, Finset.mem_filter, BitVec.getLsbD_setWidth, Bool.and_eq_true] at hk
  exact List.mem_toFinset.mpr (h k hk.2.2)

theorem HandlerPoint.Bounded.mono {point : HandlerPoint} (h : point.Bounded recorded)
    (hmono : ∀ k ∈ recorded, k ∈ recorded') : point.Bounded recorded' := by
  cases point with
  | store value => exact Within.mono h hmono
  | print total =>
      refine Nat.le_trans h (Finset.card_le_card fun k hk => ?_)
      exact List.mem_toFinset.mpr (hmono k (List.mem_toFinset.mp hk))
  | _ => trivial

theorem start_recorded : Recorded start where
  handled := by
    intro k hk
    rw [start, BitVec.ofNat_eq_ofNat, BitVec.getLsbD_zero] at hk
    cases hk
  frames := fun _ hframe => absurd hframe List.not_mem_nil
  small := fun _ hsig => absurd hsig List.not_mem_nil
  reports := fun _ hreport => absurd hreport List.not_mem_nil

theorem Recorded.total_le (h : Recorded s) : s.total ≤ s.recorded.toFinset.card := by
  rw [State.total_eq]
  exact Finset.card_le_card h.handled.bits_subset

/-- A step that leaves `handled` and the reports alone. -/
theorem Recorded.keep (h : Recorded s) (hhandled : next.handled = s.handled)
    (hrecorded : next.recorded = s.recorded) (hreports : next.reports = s.reports)
    (hframes : ∀ frame ∈ next.frames, frame.point.Bounded s.recorded) : Recorded next where
  handled := by
    rw [hhandled, hrecorded]
    exact h.handled
  frames := by
    rw [hrecorded]
    exact hframes
  small := by
    rw [hrecorded]
    exact h.small
  reports := by
    rw [hrecorded, hreports]
    exact h.reports

/-- A statement of `handle`. -/
theorem Recorded.handle {frame : Frame} {below : List Frame} (h : Recorded s)
    (hframes : s.frames = frame :: below) : Recorded (s.handle frame below) := by
  have hbounded := h.frames
  rw [hframes, List.forall_mem_cons] at hbounded
  obtain ⟨hframe, hbelow⟩ := hbounded
  have hsame : ∀ fault, Recorded (s.fault fault) := fun _ => h.keep rfl rfl rfl h.frames
  have hmoves : ∀ point : HandlerPoint, point.Bounded s.recorded →
      Recorded { s with frames := { frame with point := point } :: below } :=
    fun point hpoint => h.keep rfl rfl rfl (List.forall_mem_cons.mpr ⟨hpoint, hbelow⟩)
  unfold State.handle
  split
  · exact hmoves (.store s.handled) h.handled
  · rename_i loaded hpoint
    rw [hpoint] at hframe
    split
    · exact hsame _
    · rename_i b hbit
      have hmono : ∀ k ∈ s.recorded, k ∈ s.recorded ++ [frame.sig] :=
        fun k hk => List.mem_append_left _ hk
      refine ⟨?_, ?_, ?_, ?_⟩
      · intro k hk
        rcases (getLsbD_or_bit hbit k).mp hk with hk | rfl
        · exact hmono k (hframe k hk)
        · exact List.mem_append_right _ List.mem_cons_self
      · exact List.forall_mem_cons.mpr
          ⟨trivial, fun other hother => (hbelow other hother).mono hmono⟩
      · intro sig hsig
        rcases List.mem_append.mp hsig with hsig | hsig
        · exact h.small sig hsig
        · rw [List.mem_singleton.mp hsig]
          exact (bit_eq_some hbit).1
      · intro report hreport
        refine (h.reports report hreport).trans (Finset.card_le_card ?_)
        intro k hk
        exact List.mem_toFinset.mpr (hmono k (List.mem_toFinset.mp hk))
  · exact hmoves (.print s.total) h.total_le
  · rename_i total hpoint
    rw [hpoint] at hframe
    have hkept := hmoves .leave trivial
    refine ⟨hkept.handled, hkept.frames, hkept.small, ?_⟩
    intro report hreport
    rcases List.mem_append.mp hreport with hreport | hreport
    · exact h.reports report hreport
    · rw [List.mem_singleton.mp hreport]
      exact hframe
  · split
    · split
      · exact hsame _
      · split
        · exact h.keep rfl rfl rfl fun _ hother => absurd hother List.not_mem_nil
        · exact hsame _
    · exact h.keep rfl rfl rfl hbelow

/-- A statement of `main` touches none of the data of the handlers. -/
theorem main_data (h : s.main = some next) :
    next.handled = s.handled ∧ next.recorded = s.recorded ∧ next.reports = s.reports ∧
      (next.frames = s.frames ∨ next.frames = [⟨SIGSEGV, .load⟩]) := by
  unfold State.main at h
  cases hpoint : s.point <;> simp only [hpoint] at h <;> cases h
  case write => exact ⟨rfl, rfl, rfl, .inr rfl⟩
  all_goals exact ⟨rfl, rfl, rfl, .inl rfl⟩

theorem Recorded.step (h : Recorded s) (hnext : SignalLogger.step s event = some next) :
    Recorded next := by
  obtain ⟨-, ⟨-, -, hmain⟩ | ⟨frame, below, -, hframes, rfl⟩ | ⟨sig, -, -, -, rfl⟩⟩ :=
    step_cases hnext
  · obtain ⟨hhandled, hrecorded, hreports, hframes⟩ := main_data hmain
    apply h.keep hhandled hrecorded hreports
    rcases hframes with hsame | hfault
    · rw [hsame]
      exact h.frames
    · rw [hfault, List.forall_mem_singleton]
      trivial
  · exact h.handle hframes
  · exact h.keep rfl rfl rfl (List.forall_mem_cons.mpr ⟨trivial, h.frames⟩)

/-- The calls of `handle` after a statement of the innermost one. -/
theorem handle_frames (s : State) (frame : Frame) (below : List Frame)
    (hframes : s.frames = frame :: below) :
    (∃ point, (s.handle frame below).frames = { frame with point := point } :: below) ∨
      (s.handle frame below).frames = below ∨ (s.handle frame below).frames = [] := by
  have hsame : ∀ fault, ∃ point, (s.fault fault).frames = { frame with point := point } :: below :=
    fun _ => ⟨frame.point, hframes⟩
  unfold State.handle
  split
  · exact .inl ⟨_, rfl⟩
  · split
    · exact .inl (hsame _)
    · exact .inl ⟨_, rfl⟩
  · exact .inl ⟨_, rfl⟩
  · exact .inl ⟨_, rfl⟩
  · split
    · split
      · exact .inl (hsame _)
      · split
        · exact .inr (.inr rfl)
        · exact .inl (hsame _)
    · exact .inr (.inl rfl)

/-- Where no signal disturbs a handler that has read, only the innermost one may
have. -/
theorem below_step {hasRead : HandlerPoint → Bool}
    (h : ∀ frame ∈ s.frames.tail, hasRead frame.point = false)
    (hquiet : Undisturbed hasRead s event) (hnext : step s event = some next) :
    ∀ frame ∈ next.frames.tail, hasRead frame.point = false := by
  obtain ⟨-, ⟨-, hnone, hmain⟩ | ⟨frame, below, -, hframes, rfl⟩ | ⟨sig, rfl, -, -, rfl⟩⟩ :=
    step_cases hnext
  · obtain ⟨-, -, -, hsame | hfault⟩ := main_data hmain
    · rw [hsame]
      exact h
    · rw [hfault, List.tail_cons]
      exact fun _ hframe => absurd hframe List.not_mem_nil
  · rw [hframes, List.tail_cons] at h
    rcases handle_frames s frame below hframes with ⟨point, hnext⟩ | hnext | hnext
    · rw [hnext, List.tail_cons]
      exact h
    · rw [hnext]
      exact fun other hother => h other (List.mem_of_mem_tail hother)
    · rw [hnext]
      exact fun _ hother => absurd hother List.not_mem_nil
  · intro frame hframe
    rw [List.tail_cons] at hframe
    cases hold : s.frames with
    | nil =>
        rw [hold] at hframe
        exact absurd hframe List.not_mem_nil
    | cons first rest =>
        rw [hold] at hframe
        rcases List.mem_cons.mp hframe with rfl | hframe
        · exact hquiet frame (by rw [hold]; rfl)
        · exact h frame (by rw [hold]; exact hframe)

theorem start_whole : Whole start where
  recorded := fun _ hsig => absurd hsig List.not_mem_nil
  innermost := by
    intro frame hframe
    cases hframe
  below := fun _ hframe => absurd hframe List.not_mem_nil

theorem start_rising : Rising start where
  innermost := by
    intro frame hframe
    cases hframe
  below := fun _ hframe => absurd hframe List.not_mem_nil
  reports := fun _ hreport => absurd hreport List.not_mem_nil
  ascending := List.Pairwise.nil

theorem Whole.total_eq (h : Whole s) (hrecorded : Recorded s) :
    s.total = s.recorded.toFinset.card := by
  apply Nat.le_antisymm hrecorded.total_le
  rw [State.total_eq]
  apply Finset.card_le_card
  intro sig hsig
  have hmem := List.mem_toFinset.mp hsig
  exact (mem_bits (hrecorded.small sig hmem)).mpr (h.recorded sig hmem)

/-- A store of the innermost handler adds a bit. -/
theorem total_le_or {b : BitVec 64} (hbit : bit sig = some b) :
    s.total ≤ ({ s with handled := s.handled ||| b } : State).total := by
  rw [State.total_eq, State.total_eq]
  apply Finset.card_le_card
  intro k hk
  rw [bits, Finset.mem_filter, BitVec.getLsbD_setWidth, Bool.and_eq_true] at hk ⊢
  exact ⟨hk.1, hk.2.1, (getLsbD_or_bit hbit k).mpr (.inl hk.2.2)⟩

/-- A step that leaves `handled` alone. -/
theorem Whole.keep (h : Whole s) (hhandled : next.handled = s.handled)
    (hrecorded : next.recorded = s.recorded)
    (hinnermost : ∀ frame ∈ next.frames.head?, ∀ value, frame.point = .store value →
      value = s.handled)
    (hbelow : ∀ frame ∈ next.frames.tail, frame.point.hasLoaded = false) : Whole next where
  recorded := by
    rw [hhandled, hrecorded]
    exact h.recorded
  innermost := by
    rw [hhandled]
    exact hinnermost
  below := hbelow

/-- A step that leaves `handled` and the reports alone. -/
theorem Rising.keep (h : Rising s) (hhandled : next.handled = s.handled)
    (hreports : next.reports = s.reports)
    (hinnermost : ∀ frame ∈ next.frames.head?, ∀ total, frame.point = .print total →
      total = s.total)
    (hbelow : ∀ frame ∈ next.frames.tail, frame.point.hasCounted = false) : Rising next where
  innermost := by
    rw [State.total, hhandled]
    exact hinnermost
  below := hbelow
  reports := by
    rw [State.total, hhandled, hreports]
    exact h.reports
  ascending := by
    rw [hreports]
    exact h.ascending

/-- A handler that has read nothing. -/
theorem unread_head {frame : Frame} {below : List Frame} {hasRead : HandlerPoint → Bool}
    (hframe : hasRead frame.point = false) :
    ∀ other ∈ (frame :: below).head?, hasRead other.point = false := by
  intro other hother
  rw [List.head?_cons, Option.mem_some] at hother
  exact hother ▸ hframe

/-- A point that is no `store` stores no value. -/
theorem store_eq_of_unread {frames : List Frame}
    (hunread : ∀ frame ∈ frames.head?, frame.point.hasLoaded = false) :
    ∀ frame ∈ frames.head?, ∀ value', frame.point = .store value' → value' = value := by
  intro frame hframe value' hstore
  have hnone := hunread frame hframe
  rw [hstore] at hnone
  cases hnone

theorem print_eq_of_unread {frames : List Frame} {total : Nat}
    (hunread : ∀ frame ∈ frames.head?, frame.point.hasCounted = false) :
    ∀ frame ∈ frames.head?, ∀ total', frame.point = .print total' → total' = total := by
  intro frame hframe total' hprint
  have hnone := hunread frame hframe
  rw [hprint] at hnone
  cases hnone

theorem Whole.handle {frame : Frame} {below : List Frame} (h : Whole s)
    (hframes : s.frames = frame :: below) : Whole (s.handle frame below) := by
  have hinnermost := h.innermost
  have hbelow := h.below
  rw [hframes, List.head?_cons] at hinnermost
  rw [hframes, List.tail_cons] at hbelow
  have hsame : ∀ fault, Whole (s.fault fault) := fun _ => h.keep rfl rfl h.innermost h.below
  unfold State.handle
  split
  · refine h.keep rfl rfl ?_ hbelow
    intro other hother value hstore
    rw [List.head?_cons, Option.mem_some] at hother
    subst hother
    cases hstore
    rfl
  · rename_i loaded hpoint
    obtain rfl := hinnermost frame rfl loaded hpoint
    split
    · exact hsame _
    · rename_i b hbit
      refine ⟨?_, store_eq_of_unread (unread_head rfl), hbelow⟩
      intro sig hsig
      rw [getLsbD_or_bit hbit]
      rcases List.mem_append.mp hsig with hsig | hsig
      · exact .inl (h.recorded sig hsig)
      · exact .inr (List.mem_singleton.mp hsig)
  · exact h.keep rfl rfl (store_eq_of_unread (unread_head rfl)) hbelow
  · exact h.keep rfl rfl (store_eq_of_unread (unread_head rfl)) hbelow
  · split
    · split
      · exact hsame _
      · split
        · refine h.keep rfl rfl ?_ fun _ hother => absurd hother List.not_mem_nil
          intro other hother
          cases hother
        · exact hsame _
    · exact h.keep rfl rfl
        (store_eq_of_unread fun other hother => hbelow other (List.mem_of_mem_head? hother))
        fun other hother => hbelow other (List.mem_of_mem_tail hother)

theorem Rising.handle {frame : Frame} {below : List Frame} (h : Rising s) (hwhole : Whole s)
    (hframes : s.frames = frame :: below) : Rising (s.handle frame below) := by
  have hinnermost := h.innermost
  have hloaded := hwhole.innermost
  have hbelow := h.below
  rw [hframes, List.head?_cons] at hinnermost hloaded
  rw [hframes, List.tail_cons] at hbelow
  have hsame : ∀ fault, Rising (s.fault fault) := fun _ => h.keep rfl rfl h.innermost h.below
  unfold State.handle
  split
  · exact h.keep rfl rfl (print_eq_of_unread (unread_head rfl)) hbelow
  · rename_i loaded hpoint
    obtain rfl := hloaded frame rfl loaded hpoint
    split
    · exact hsame _
    · rename_i b hbit
      exact ⟨print_eq_of_unread (unread_head rfl), hbelow,
        fun report hreport => (h.reports report hreport).trans (total_le_or hbit), h.ascending⟩
  · refine h.keep rfl rfl ?_ hbelow
    intro other hother total hprint
    rw [List.head?_cons, Option.mem_some] at hother
    subst hother
    cases hprint
    rfl
  · rename_i total hpoint
    obtain rfl := hinnermost frame rfl total hpoint
    refine ⟨print_eq_of_unread (unread_head rfl), hbelow, ?_, ?_⟩
    · intro report hreport
      rcases List.mem_append.mp hreport with hreport | hreport
      · exact h.reports report hreport
      · rw [List.mem_singleton.mp hreport]
        exact Nat.le_refl _
    · rw [List.map_append, List.pairwise_append]
      refine ⟨h.ascending, List.pairwise_singleton .., ?_⟩
      intro earlier hearlier later hlater
      obtain ⟨report, hreport, rfl⟩ := List.mem_map.mp hearlier
      obtain rfl := List.mem_singleton.mp hlater
      exact h.reports report hreport
  · split
    · split
      · exact hsame _
      · split
        · refine h.keep rfl rfl ?_ fun _ hother => absurd hother List.not_mem_nil
          intro other hother
          cases hother
        · exact hsame _
    · exact h.keep rfl rfl
        (print_eq_of_unread fun other hother => hbelow other (List.mem_of_mem_head? hother))
        fun other hother => hbelow other (List.mem_of_mem_tail hother)

/-- A statement of `main` runs with no handler, and raises one that has read
nothing. -/
theorem main_unread {hasRead : HandlerPoint → Bool} (hload : hasRead .load = false)
    (hnone : s.frames = []) (hmain : s.main = some next) :
    ∀ frame ∈ next.frames.head?, hasRead frame.point = false := by
  obtain ⟨-, -, -, hsame | hfault⟩ := main_data hmain
  · rw [hsame, hnone]
    intro frame hframe
    cases hframe
  · rw [hfault]
    exact unread_head hload

theorem Whole.step (h : Whole s) (hquiet : Undisturbed HandlerPoint.hasLoaded s event)
    (hnext : SignalLogger.step s event = some next) : Whole next := by
  have hbelow := below_step h.below hquiet hnext
  obtain ⟨-, ⟨-, hnone, hmain⟩ | ⟨frame, below, -, hframes, rfl⟩ | ⟨sig, -, -, -, rfl⟩⟩ :=
    step_cases hnext
  · obtain ⟨hhandled, hrecorded, -, -⟩ := main_data hmain
    exact h.keep hhandled hrecorded (store_eq_of_unread (main_unread rfl hnone hmain)) hbelow
  · exact h.handle hframes
  · exact h.keep rfl rfl (store_eq_of_unread (unread_head rfl)) hbelow

theorem Rising.step (h : Rising s) (hwhole : Whole s)
    (hquiet : Undisturbed HandlerPoint.hasCounted s event)
    (hnext : SignalLogger.step s event = some next) : Rising next := by
  have hbelow := below_step h.below hquiet hnext
  obtain ⟨-, ⟨-, hnone, hmain⟩ | ⟨frame, below, -, hframes, rfl⟩ | ⟨sig, -, -, -, rfl⟩⟩ :=
    step_cases hnext
  · obtain ⟨hhandled, -, hreports, -⟩ := main_data hmain
    exact h.keep hhandled hreports (print_eq_of_unread (main_unread rfl hnone hmain)) hbelow
  · exact h.handle hwhole hframes
  · exact h.keep rfl rfl (print_eq_of_unread (unread_head rfl)) hbelow

/-- For every run, with any signals between its statements: no total counts more
than the signals recorded. Where no signal comes between a load and its store the
total counts all of them, and where none comes between a count and its output
either, the totals printed never go down. -/
theorem totals_recorded (events : List Event) (s : State)
    (hrun : runEvents step start events = some s) :
    s.total ≤ s.recorded.toFinset.card ∧
      (∀ report ∈ s.reports, report.2 ≤ s.recorded.toFinset.card) ∧
      (EachStep step (Undisturbed HandlerPoint.hasLoaded) start events →
        s.total = s.recorded.toFinset.card ∧
        (EachStep step (Undisturbed HandlerPoint.hasCounted) start events →
          (s.reports.map Prod.snd).Pairwise (· ≤ ·))) := by
  have hrecorded : Recorded s :=
    Reaches.invariant (fun _ _ _ h hnext => h.step hnext) start_recorded ⟨events, hrun⟩
  refine ⟨hrecorded.total_le, hrecorded.reports, fun hstores => ⟨?_, fun hprints => ?_⟩⟩
  · have hwhole : Whole s :=
      hstores.invariant (fun _ _ _ h hok hnext => h.step hok hnext) start_whole hrun
    exact hwhole.total_eq hrecorded
  · have hkeep : ∀ (t : State) (event : Event) (next : State), Whole t ∧ Rising t →
        Undisturbed HandlerPoint.hasLoaded t event ∧ Undisturbed HandlerPoint.hasCounted t event →
          step t event = some next → Whole next ∧ Rising next :=
      fun _ _ _ h hok hnext => ⟨h.1.step hok.1 hnext, h.2.step h.1 hok.2 hnext⟩
    have hboth := (hstores.and hprints).invariant hkeep ⟨start_whole, start_rising⟩ hrun
    exact hboth.2.ascending

/-- SIGTERM comes while the handler for SIGINT is about to store. -/
def disturbedRun : List Event :=
  [.signal 2, .advance, .signal 15, .advance, .advance, .advance, .advance, .advance, .advance]

theorem disturbed_run_enabled : (runEvents step start disturbedRun).isSome := by
  decide +kernel

/-- Both are recorded, and the total is one. -/
theorem disturbed_run_totals :
    ∃ s, runEvents step start disturbedRun = some s ∧
      s.recorded.toFinset.card = 2 ∧ s.total = 1 ∧
      ∀ report ∈ s.reports, report.2 ≤ s.recorded.toFinset.card :=
  have hrun := (Option.some_get disturbed_run_enabled).symm
  ⟨_, hrun, by decide +kernel, by decide +kernel,
    (totals_recorded disturbedRun _ hrun).2.1⟩

/-- SIGTERM comes while the handler for SIGINT is about to print: the totals go
down. -/
example : (runEvents step start [.signal 2, .advance, .advance, .advance, .signal 15,
    .advance, .advance, .advance, .advance, .advance, .advance]).map State.reports =
    some [(15, 2), (2, 1)] := by
  decide +kernel

end CsPrimer.SignalLogger
