import CsPrimer.ShoutServer.QueueServer

/-!
The filters of one client of `queue`. Which of the two is enabled follows from
the control point of its handler, and at `kevent` from what is pending in its
buffer; every call of the handler, and every change of a filter that succeeds,
keeps it so.
-/

namespace CsPrimer.ShoutServer.Kqueue

def readEnabled (c : Connection QueuePoint) : Bool :=
  match c.point with
  | .wait => c.buffer.size = 0
  | .recv | .readSend | .disableRead => true
  | _ => false

def writeEnabled (c : Connection QueuePoint) : Bool :=
  match c.point with
  | .wait => 0 < c.buffer.size
  | .writeSend | .disableWrite => true
  | _ => false

/-- Whether anything is pending at a point of the handler. -/
def Sized (c : Connection QueuePoint) : Prop :=
  match c.point with
  | .writeSend | .readSend | .disableRead | .addWrite => 0 < c.buffer.size
  | .recv | .disableWrite | .enableRead => c.buffer.size = 0
  | .wait | .cleaned => True

/-- The filters of a client with the buffer `buf`. The write filter may not
have been added yet. -/
structure Filtered (notes : Int → Option Knote) (buf : Nat)
    (c : Connection QueuePoint) : Prop where
  sized : Sized c
  read : notes EVFILT_READ = some ⟨readEnabled c, some buf⟩
  write : notes EVFILT_WRITE = some ⟨writeEnabled c, some buf⟩ ∨
    (notes EVFILT_WRITE = none ∧ writeEnabled c = false)
  only : ∀ filter, (notes filter).isSome →
    filter = EVFILT_READ ∨ filter = EVFILT_WRITE

variable {notes : Int → Option Knote} {buf : Nat}
  {c next : Connection QueuePoint}

/-- Steps that change no filter and ask for no change. -/
theorem Filtered.keep (h : Filtered notes buf c) (hsized : Sized next)
    (hread : readEnabled next = readEnabled c)
    (hwrite : writeEnabled next = writeEnabled c) : Filtered notes buf next where
  sized := hsized
  read := hread ▸ h.read
  write := hwrite ▸ h.write
  only := h.only

theorem filtered_accepted (buf : Nat) :
    Filtered (Function.update (fun _ => none) EVFILT_READ
      (some ⟨true, some buf⟩)) buf (Connection.accepted .wait) where
  sized := trivial
  read := Function.update_self ..
  write := .inr ⟨rfl, rfl⟩
  only := by
    intro filter hsome
    rcases eq_or_ne filter EVFILT_READ with hread | hother
    · exact .inl hread
    · rw [Function.update_of_ne hother] at hsome
      cases hsome

theorem keepUnsent_size_pos {sent : Nat} (hshort : sent < c.buffer.size) :
    0 < (c.keepUnsent sent).buffer.size := by
  simp only [Connection.keepUnsent]
  rw [if_pos hshort]
  exact Nat.sub_pos_of_lt hshort

/-- After a `do_send` that does not clean up. -/
theorem Filtered.sent (h : Filtered notes buf c) {sent : Int}
    (hnext : queueSent c sent = some next) (hopen : next.point ≠ .cleaned) :
    Filtered notes buf next := by
  cases hpoint : c.point with
  | writeSend =>
      simp only [queueSent, hpoint] at hnext
      split at hnext
      · cases hnext
        exact absurd rfl hopen
      · split at hnext
        · rename_i hshort
          cases hnext
          have hpending : 0 < (c.keepUnsent sent.toNat).buffer.size :=
            keepUnsent_size_pos (by omega)
          apply h.keep
          · exact trivial
          · simp only [readEnabled, hpoint, Connection.goto]
            exact decide_eq_false hpending.ne'
          · simp only [writeEnabled, hpoint, Connection.goto]
            exact decide_eq_true hpending
        · cases hnext
          apply h.keep
          · exact keepUnsent_size (by omega)
          · simp only [readEnabled, hpoint, Connection.goto]
          · simp only [writeEnabled, hpoint, Connection.goto]
  | readSend =>
      simp only [queueSent, hpoint] at hnext
      split at hnext
      · cases hnext
        exact absurd rfl hopen
      · split at hnext
        · cases hnext
          apply h.keep
          · exact keepUnsent_size_pos (by omega)
          · simp only [readEnabled, hpoint, Connection.goto]
          · simp only [writeEnabled, hpoint, Connection.goto]
        · cases hnext
          apply h.keep
          · exact keepUnsent_size (by omega)
          · simp only [readEnabled, hpoint, Connection.goto]
          · simp only [writeEnabled, hpoint, Connection.goto]
  | _ =>
      simp only [queueSent, hpoint] at hnext
      cases hnext

/-- After a `recv` that does not clean up. -/
theorem Filtered.received (h : Filtered notes buf c) (hpoint : c.point = .recv)
    {result : RecvResult}
    (hnext : c.afterRecv .wait .cleaned .readSend result = some next)
    (hopen : next.point ≠ .cleaned) : Filtered notes buf next := by
  have hempty : c.buffer.size = 0 := by
    have hsized := h.sized
    simpa only [Sized, hpoint] using hsized
  cases result with
  | error wouldBlock =>
      cases hnext
      cases wouldBlock with
      | false => exact absurd rfl hopen
      | true =>
          apply h.keep
          · exact trivial
          · simp only [readEnabled, hpoint, Connection.goto, if_true]
            exact decide_eq_true hempty
          · simp only [writeEnabled, hpoint, Connection.goto, if_true]
            exact decide_eq_false hempty.not_gt
  | bytes received =>
      simp only [Connection.afterRecv] at hnext
      split at hnext
      · cases hnext
      · split at hnext
        · cases hnext
          exact absurd rfl hopen
        · rename_i hsome
          cases hnext
          apply h.keep
          · exact List.length_pos_iff.mpr hsome
          · simp only [readEnabled, hpoint]
          · simp only [writeEnabled, hpoint]

/-- A change that fails leads to a cleanup. -/
theorem queue_change_failed (hnext : queue c (.kqChange true) = some next) :
    next.point = .cleaned := by
  simp only [queue, queueChanged] at hnext
  split at hnext <;> cases hnext <;> rfl

/-- A call of the handler other than a change of a filter. -/
theorem Filtered.call (h : Filtered notes buf c) {event : QueueEvent}
    (hwait : ∀ filter fflags, event ≠ .wait filter fflags)
    (hchange : ∀ failed, event ≠ .kqChange failed)
    (hnext : queue c event = some next) (hopen : next.point ≠ .cleaned) :
    Filtered notes buf next := by
  cases event with
  | wait filter fflags => exact absurd rfl (hwait filter fflags)
  | kqChange failed => exact absurd rfl (hchange failed)
  | doSend results =>
      simp only [queue] at hnext
      split at hnext
      · cases hnext
      · exact h.sent hnext hopen
  | recv result =>
      simp only [queue] at hnext
      split at hnext
      · rename_i hpoint
        exact h.received hpoint hnext hopen
      · cases hnext

/-- The filter that reported the event fits what is pending: the event goes to
one of the two branches. -/
theorem Filtered.dispatch (h : Filtered notes buf c) (hpoint : c.point = .wait)
    {filter : Int} {udata : Option Nat}
    (hreported : notes filter = some ⟨true, udata⟩)
    {fflags : BitVec 32} (hplain : plain fflags = true) :
    udata = some buf ∧
      ((filter = EVFILT_WRITE ∧ 0 < c.buffer.size ∧
          queueDispatch c filter fflags = c.goto .writeSend) ∨
        (filter = EVFILT_READ ∧ c.buffer.size = 0 ∧
          queueDispatch c filter fflags = c.goto .recv)) ∧
      Filtered notes buf (queueDispatch c filter fflags) := by
  have hopen : ¬ (fflags &&& EV_EOF ≠ 0 ∨ fflags &&& EV_ERROR ≠ 0) := by
    simpa [plain] using hplain
  rcases h.only filter (by rw [hreported]; rfl) with rfl | rfl
  · have hnote := Option.some.inj (h.read.symm.trans hreported)
    simp only [Knote.mk.injEq, readEnabled, hpoint, decide_eq_true_eq] at hnote
    obtain ⟨hempty, rfl⟩ := hnote
    have hwrite : ¬ (EVFILT_WRITE = EVFILT_READ ∧ 0 < c.buffer.size) :=
      fun hboth => absurd hboth.1 (by decide)
    have hdispatch : queueDispatch c EVFILT_READ fflags = c.goto .recv := by
      unfold queueDispatch
      rw [if_neg hopen, if_neg hwrite, if_pos ⟨rfl, hempty.symm⟩]
    refine ⟨rfl, .inr ⟨rfl, hempty, hdispatch⟩, ?_⟩
    rw [hdispatch]
    apply h.keep
    · exact hempty
    · simp only [readEnabled, hpoint, Connection.goto]
      exact (decide_eq_true hempty).symm
    · simp only [writeEnabled, hpoint, Connection.goto]
      exact (decide_eq_false hempty.not_gt).symm
  · have hnote : (⟨writeEnabled c, some buf⟩ : Knote) = ⟨true, udata⟩ := by
      rcases h.write with hsome | ⟨hnone, _⟩
      · exact Option.some.inj (hsome.symm.trans hreported)
      · rw [hnone] at hreported
        cases hreported
    simp only [Knote.mk.injEq, writeEnabled, hpoint, decide_eq_true_eq] at hnote
    obtain ⟨hpending, rfl⟩ := hnote
    have hdispatch : queueDispatch c EVFILT_WRITE fflags = c.goto .writeSend := by
      unfold queueDispatch
      rw [if_neg hopen, if_pos ⟨rfl, hpending⟩]
    refine ⟨rfl, .inl ⟨rfl, hpending, hdispatch⟩, ?_⟩
    rw [hdispatch]
    apply h.keep
    · exact hpending
    · simp only [readEnabled, hpoint, Connection.goto]
      exact (decide_eq_false hpending.ne').symm
    · simp only [writeEnabled, hpoint, Connection.goto]
      exact (decide_eq_true hpending).symm

/-- The filter other than the one being changed. -/
theorem Filtered.update_read (h : Filtered notes buf c) (hsized : Sized next)
    {enabled : Bool} (hread : readEnabled next = enabled)
    (hwrite : writeEnabled next = writeEnabled c) :
    Filtered (Function.update notes EVFILT_READ (some ⟨enabled, some buf⟩)) buf
      next where
  sized := hsized
  read := by
    rw [Function.update_self, hread]
  write := by
    rw [Function.update_of_ne (by decide), hwrite]
    exact h.write
  only := by
    intro filter hsome
    rcases eq_or_ne filter EVFILT_READ with hread | hother
    · exact .inl hread
    · rw [Function.update_of_ne hother] at hsome
      exact h.only filter hsome

theorem Filtered.update_write (h : Filtered notes buf c) (hsized : Sized next)
    {enabled : Bool} (hwrite : writeEnabled next = enabled)
    (hread : readEnabled next = readEnabled c) :
    Filtered (Function.update notes EVFILT_WRITE (some ⟨enabled, some buf⟩)) buf
      next where
  sized := hsized
  read := by
    rw [Function.update_of_ne (by decide), hread]
    exact h.read
  write := by
    rw [Function.update_self, hwrite]
    exact .inl rfl
  only := by
    intro filter hsome
    rcases eq_or_ne filter EVFILT_WRITE with hwrite | hother
    · exact .inr hwrite
    · rw [Function.update_of_ne hother] at hsome
      exact h.only filter hsome

/-- A change that the handler is at is not refused, and leaves the filters as
they are wanted at the next point. -/
theorem Filtered.change (h : Filtered notes buf c) {filter : Int}
    {flags : BitVec 16} {udata : Option Nat}
    (hat : filterChange buf c.point = some (filter, flags, udata)) :
    ∃ note next, changeKnote flags udata (notes filter) = some (some note) ∧
      queue c (.kqChange false) = some next ∧
      Filtered (Function.update notes filter (some note)) buf next := by
  have hsized := h.sized
  have hread := h.read
  have hwrite := h.write
  cases hpoint : c.point with
  | disableWrite =>
      simp only [Sized, readEnabled, writeEnabled, hpoint, Bool.true_eq_false,
        and_false, or_false] at hsized hread hwrite
      simp only [hpoint, filterChange, Option.some.injEq, Prod.mk.injEq] at hat
      obtain ⟨rfl, rfl, rfl⟩ := hat
      refine ⟨⟨false, some buf⟩, c.goto .enableRead, ?_,
        by simp [queue, queueChanged, hpoint], h.update_write ?_ ?_ ?_⟩
      · rw [hwrite]
        rfl
      · exact hsized
      · rfl
      · simp only [readEnabled, hpoint, Connection.goto]
  | enableRead =>
      simp only [Sized, readEnabled, writeEnabled, hpoint] at hsized hread hwrite
      simp only [hpoint, filterChange, Option.some.injEq, Prod.mk.injEq] at hat
      obtain ⟨rfl, rfl, rfl⟩ := hat
      refine ⟨⟨true, some buf⟩, c.goto .wait, ?_,
        by simp [queue, queueChanged, hpoint], h.update_read ?_ ?_ ?_⟩
      · rw [hread]
        rfl
      · exact trivial
      · exact decide_eq_true hsized
      · simp only [writeEnabled, hpoint, Connection.goto]
        exact decide_eq_false hsized.not_gt
  | disableRead =>
      simp only [Sized, readEnabled, writeEnabled, hpoint] at hsized hread hwrite
      simp only [hpoint, filterChange, Option.some.injEq, Prod.mk.injEq] at hat
      obtain ⟨rfl, rfl, rfl⟩ := hat
      refine ⟨⟨false, some buf⟩, c.goto .addWrite, ?_,
        by simp [queue, queueChanged, hpoint], h.update_read ?_ ?_ ?_⟩
      · rw [hread]
        rfl
      · exact hsized
      · rfl
      · simp only [writeEnabled, hpoint, Connection.goto]
  | addWrite =>
      simp only [Sized, readEnabled, writeEnabled, hpoint] at hsized hread hwrite
      simp only [hpoint, filterChange, Option.some.injEq, Prod.mk.injEq] at hat
      obtain ⟨rfl, rfl, rfl⟩ := hat
      refine ⟨⟨true, some buf⟩, c.goto .wait, ?_,
        by simp [queue, queueChanged, hpoint], h.update_write ?_ ?_ ?_⟩
      · rcases hwrite with hsome | ⟨hnone, _⟩
        · rw [hsome]
          rfl
        · rw [hnone]
          rfl
      · exact trivial
      · exact decide_eq_true hsized
      · simp only [readEnabled, hpoint, Connection.goto]
        exact decide_eq_false hsized.ne'
  | _ => simp [hpoint, filterChange] at hat

end CsPrimer.ShoutServer.Kqueue
