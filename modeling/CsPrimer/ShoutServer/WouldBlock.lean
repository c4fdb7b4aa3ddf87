import CsPrimer.ShoutServer.EventLoops

/-!
A `send` that would block. `do_send` returns the bytes it has sent so far, and
that is zero when the first call already would block; every caller takes zero
for an error and cleans up.
-/

namespace CsPrimer.ShoutServer

open Foundation

/-- The kernel takes none of the bytes: the first `send` would block. -/
def firstBlocks : List SendResult → Bool
  | [] => false
  | result :: _ => decide (result.ret ≤ 0) && result.wouldBlock

/-- The last `send` failed, and not because it would block. -/
def sendFails (results : List SendResult) : Bool :=
  results.getLast?.any fun result =>
    decide (result.ret ≤ 0) && !result.wouldBlock

/-- With something to send, `do_send` reports an error, makes progress, or met
a full socket. -/
theorem doSend_cases {data accepted : List UInt8} {results : List SendResult}
    {sent total left : Nat} {ret : Int} (hleft : 0 < left)
    (h : doSend data results sent total left = some (ret, accepted)) :
    (ret = -1 ∧ sendFails results = true ∧ firstBlocks results = false) ∨
    ((total : Int) < ret ∧ firstBlocks results = false) ∨
    (ret = total ∧ firstBlocks results = true) := by
  induction results generalizing sent total left accepted with
  | nil =>
      simp only [doSend] at h
      rw [if_neg hleft.ne'] at h
      cases h
  | cons result results ih =>
      simp only [doSend] at h
      split at h
      · cases h
      · rename_i hfits
        split at h
        · rename_i hfailed
          split at h
          · rename_i hlast
            cases h
            subst hlast
            cases hblock : result.wouldBlock <;>
              simp [sendFails, firstBlocks, hfailed, hblock]
          · cases h
        · rename_i hpositive
          have hfirst : firstBlocks (result :: results) = false := by
            simp [firstBlocks, hpositive]
          split at h
          · cases h
          · rename_i ret' accepted' hrest
            cases h
            rcases Nat.eq_zero_or_pos (left - result.ret.toNat) with
              hdone | hmore
            · rw [hdone] at hrest
              cases results with
              | nil =>
                  simp only [doSend, if_true, Option.some.injEq,
                    Prod.mk.injEq] at hrest
                  exact .inr (.inl ⟨by omega, hfirst⟩)
              | cons => simp [doSend] at hrest
            · rcases ih hmore hrest with
                ⟨hret, hfails, _⟩ | ⟨hret, _⟩ | ⟨hret, _⟩
              · refine .inl ⟨hret, ?_, hfirst⟩
                cases results with
                | nil => simp [sendFails] at hfails
                | cons => exact hfails
              · exact .inr (.inl ⟨by omega, hfirst⟩)
              · exact .inr (.inl ⟨by omega, hfirst⟩)

variable {Conn Point Event : Type} [DecidableEq Conn]

/-- What a loop owes to a client when the sends of a `do_send` gave `results`:
with nothing accepted the connection stays, its bytes stay, and it comes back
to sending them; and only an error of `send` cleans up. -/
structure SendKept (step : Connection Point → Event → Option (Connection Point))
    (cleaned : Point) (writes : Point → Bool) (results : List SendResult)
    (c next : Connection Point) : Prop where
  registered : firstBlocks results = true → next.point ≠ cleaned
  unsent : firstBlocks results = true →
    next.buffer.size = c.buffer.size ∧ next.buffer.pending = c.buffer.pending
  resumes : firstBlocks results = true →
    ∃ later, Reaches step next later ∧ writes later.point = true ∧
      later.buffer = next.buffer
  only_errors : next.point = cleaned → sendFails results = true

def PollPoint.writes : PollPoint → Bool
  | .writeSend _ => true
  | _ => false

def QueuePoint.writes : QueuePoint → Bool
  | .writeSend => true
  | _ => false

def PollPoint.sends : PollPoint → Bool
  | .writeSend _ | .readSend => true
  | _ => false

def QueuePoint.sends : QueuePoint → Bool
  | .writeSend | .readSend => true
  | _ => false

/-- What the sends of the event gave, if it is a `do_send`. -/
def PollEvent.sendResults : PollEvent → List SendResult
  | .doSend results => results
  | _ => []

def QueueEvent.sendResults : QueueEvent → List SendResult
  | .doSend results => results
  | _ => []

/-- `SendKept` for the connection that the event is about. -/
def SendKeptAt (step : Connection Point → Event → Option (Connection Point))
    (cleaned : Point) (writes : Point → Bool)
    (send : List SendResult → Event) (connections : Conn → Connection Point)
    (event : Conn × Event) : Prop :=
  ∀ results next, event.2 = send results →
    step (connections event.1) event.2 = some next →
    SendKept step cleaned writes results (connections event.1) next

/-- There is something to send whenever `do_send` is called. -/
def SendReady (sends : Point → Bool) (c : Connection Point) : Prop :=
  sends c.point = true → 0 < c.buffer.size

theorem sendReady_of_not_sends {sends : Point → Bool} {c : Connection Point}
    (h : sends c.point = false) : SendReady sends c := by
  intro hsends
  rw [h] at hsends
  cases hsends

/-- A step of `do_send` that cleans up for zero and below. -/
theorem sendKept_iff {step : Connection Point → Event → Option (Connection Point)}
    {cleaned : Point} {writes : Point → Bool} {c next : Connection Point}
    {results : List SendResult} {ret : Int} {accepted : List UInt8}
    (hsize : 0 < c.buffer.size)
    (hsend : doSend c.buffer.data results 0 0 c.buffer.size =
      some (ret, accepted))
    (hcleaned : next.point = cleaned ↔ ret ≤ 0) :
    SendKept step cleaned writes results c next ↔
      firstBlocks results = false := by
  rcases doSend_cases hsize hsend with
    ⟨rfl, hfails, hfirst⟩ | ⟨hret, hfirst⟩ | ⟨rfl, hfirst⟩
  · refine iff_of_true ⟨?_, ?_, ?_, fun _ => hfails⟩ hfirst
    all_goals simp [hfirst]
  · refine iff_of_true ⟨?_, ?_, ?_, ?_⟩ hfirst
    · simp [hfirst]
    · simp [hfirst]
    · simp [hfirst]
    · intro hclean
      have hle := hcleaned.mp hclean
      omega
  · refine iff_of_false ?_ (by simp [hfirst])
    intro h
    exact h.registered hfirst (hcleaned.mpr le_rfl)

theorem pollRead_point (c : Connection PollPoint) (ev : BitVec 32) :
    (pollRead c ev).point = .recv ∨ (pollRead c ev).point = .wait := by
  unfold pollRead
  split
  · exact .inl rfl
  · exact .inr rfl

theorem pollDispatch_sendReady (c : Connection PollPoint) (ev : BitVec 32) :
    SendReady PollPoint.sends (pollDispatch c ev) := by
  unfold pollDispatch
  split
  · exact sendReady_of_not_sends rfl
  · split
    · split
      · rename_i hwrite
        exact fun _ => hwrite.2
      · apply sendReady_of_not_sends
        rcases pollRead_point c ev with hpoint | hpoint <;> rw [hpoint] <;> rfl
    · exact sendReady_of_not_sends rfl

/-- What `recv` wrote is there to be sent. -/
theorem afterRecv_sendReady {sends : Point → Bool} {c next : Connection Point}
    {waiting cleaned send : Point} (hwaiting : sends waiting = false)
    (hcleaned : sends cleaned = false) {result : RecvResult}
    (hnext : c.afterRecv waiting cleaned send result = some next) :
    SendReady sends next := by
  cases result with
  | error wouldBlock =>
      cases hnext
      cases wouldBlock
      · exact sendReady_of_not_sends hcleaned
      · exact sendReady_of_not_sends hwaiting
  | bytes received =>
      simp only [Connection.afterRecv] at hnext
      split at hnext
      · cases hnext
      · split at hnext
        · cases hnext
          exact sendReady_of_not_sends hcleaned
        · rename_i hsome
          cases hnext
          exact fun _ => List.length_pos_iff.mpr hsome

/-- After `do_send` the loop is at no other send, and it has cleaned up
exactly for zero and below. -/
theorem pollSent_point {c next : Connection PollPoint} {sent : Int}
    (hnext : pollSent c sent = some next) :
    c.point.sends = true ∧ next.point.sends = false ∧
      (next.point = .cleaned ↔ sent ≤ 0) := by
  cases hpoint : c.point with
  | writeSend ev =>
      simp only [pollSent, hpoint] at hnext
      split at hnext
      · rename_i hsent
        cases hnext
        exact ⟨rfl, rfl, iff_of_true rfl hsent⟩
      · rename_i hsent
        cases hnext
        rcases pollRead_point (c.keepUnsent sent.toNat) ev with hread | hread <;>
          rw [hread] <;> exact ⟨rfl, rfl, iff_of_false (by simp) hsent⟩
  | readSend =>
      simp only [pollSent, hpoint] at hnext
      split at hnext
      · rename_i hsent
        cases hnext
        exact ⟨rfl, rfl, iff_of_true rfl hsent⟩
      · rename_i hsent
        split at hnext <;> cases hnext <;>
          exact ⟨rfl, rfl, iff_of_false (by simp [Connection.goto]) hsent⟩
  | _ =>
      simp only [pollSent, hpoint] at hnext
      cases hnext

theorem queueSent_point {c next : Connection QueuePoint} {sent : Int}
    (hnext : queueSent c sent = some next) :
    c.point.sends = true ∧ next.point.sends = false ∧
      (next.point = .cleaned ↔ sent ≤ 0) := by
  cases hpoint : c.point with
  | writeSend | readSend =>
      simp only [queueSent, hpoint] at hnext
      split at hnext
      · rename_i hsent
        cases hnext
        exact ⟨rfl, rfl, iff_of_true rfl hsent⟩
      · rename_i hsent
        split at hnext <;> cases hnext <;>
          exact ⟨rfl, rfl, iff_of_false (by simp [Connection.goto]) hsent⟩
  | _ =>
      simp only [queueSent, hpoint] at hnext
      cases hnext

theorem poll_sendReady {c next : Connection PollPoint} {event : PollEvent}
    (hnext : poll c event = some next) : SendReady PollPoint.sends next := by
  cases event with
  | wait ev =>
      simp only [poll] at hnext
      split at hnext
      · cases hnext
        exact pollDispatch_sendReady c ev
      · cases hnext
  | doSend results =>
      simp only [poll] at hnext
      split at hnext
      · cases hnext
      · exact sendReady_of_not_sends (pollSent_point hnext).2.1
  | recv result =>
      simp only [poll] at hnext
      split at hnext
      · exact afterRecv_sendReady (by rfl) (by rfl) hnext
      · cases hnext

theorem queue_sendReady {c next : Connection QueuePoint} {event : QueueEvent}
    (hnext : queue c event = some next) : SendReady QueuePoint.sends next := by
  cases event with
  | wait filter fflags =>
      simp only [queue] at hnext
      split at hnext
      · cases hnext
        unfold queueDispatch
        split
        · exact sendReady_of_not_sends rfl
        · split
          · rename_i hwrite
            exact fun _ => hwrite.2
          · split <;> exact sendReady_of_not_sends rfl
      · cases hnext
  | doSend results =>
      simp only [queue] at hnext
      split at hnext
      · cases hnext
      · exact sendReady_of_not_sends (queueSent_point hnext).2.1
  | recv result =>
      simp only [queue] at hnext
      split at hnext
      · exact afterRecv_sendReady (by rfl) (by rfl) hnext
      · cases hnext
  | kqChange failed =>
      simp only [queue, queueChanged] at hnext
      split at hnext <;> cases hnext <;> cases failed <;>
        exact sendReady_of_not_sends rfl

theorem poll_sendKept_iff {c next : Connection PollPoint}
    {results : List SendResult} (hready : SendReady PollPoint.sends c)
    (hnext : poll c (.doSend results) = some next) :
    SendKept poll .cleaned PollPoint.writes results c next ↔
      firstBlocks results = false := by
  simp only [poll] at hnext
  split at hnext
  · cases hnext
  · rename_i hsend
    obtain ⟨hsends, _, hcleaned⟩ := pollSent_point hnext
    exact sendKept_iff (hready hsends) hsend hcleaned

theorem queue_sendKept_iff {c next : Connection QueuePoint}
    {results : List SendResult} (hready : SendReady QueuePoint.sends c)
    (hnext : queue c (.doSend results) = some next) :
    SendKept queue .cleaned QueuePoint.writes results c next ↔
      firstBlocks results = false := by
  simp only [queue] at hnext
  split at hnext
  · cases hnext
  · rename_i hsend
    obtain ⟨hsends, _, hcleaned⟩ := queueSent_point hnext
    exact sendKept_iff (hready hsends) hsend hcleaned

/-- A loop whose every `do_send` keeps the client exactly if the first `send`
does not block, in a run of any number of its connections. -/
theorem eachStep_sendKept_iff
    {step : Connection Point → Event → Option (Connection Point)}
    {waiting cleaned : Point} {writes sends : Point → Bool}
    {send : List SendResult → Event} {sendResults : Event → List SendResult}
    {events : List (Conn × Event)} {connections : Conn → Connection Point}
    (hwaiting : sends waiting = false)
    (hready : ∀ c event next, step c event = some next → SendReady sends next)
    (hkept : ∀ c next results, SendReady sends c →
      step c (send results) = some next →
      (SendKept step cleaned writes results c next ↔
        firstBlocks results = false))
    (hresults : ∀ results, sendResults (send results) = results)
    (hother : ∀ event, (∀ results, event ≠ send results) →
      sendResults event = [])
    (hrun : runEvents (stepAt step) (fun _ => Connection.accepted waiting)
      events = some connections) :
    EachStep (stepAt step) (SendKeptAt step cleaned writes send)
        (fun _ => Connection.accepted waiting) events ↔
      EachStep (stepAt step)
        (fun _ event => firstBlocks (sendResults event.2) = false)
        (fun _ => Connection.accepted waiting) events := by
  have hkeeps : ∀ (before : Conn → Connection Point) event after,
      (∀ conn, SendReady sends (before conn)) →
      stepAt step before event = some after →
      ∀ conn, SendReady sends (after conn) := by
    intro before event after hinv hstep
    exact stepAt_invariant (fun c event next _ => hready c event next) hinv hstep
  refine eachStep_congr hkeeps ?_ (fun _ => sendReady_of_not_sends hwaiting) hrun
  intro before event after hinv hstep
  obtain ⟨next, hnext, _⟩ := stepAt_cases hstep
  rcases em (∃ results, event.2 = send results) with ⟨results, hsend⟩ | hnone
  · have hiff := hkept _ next results (hinv event.1) (hsend ▸ hnext)
    rw [hsend, hresults]
    constructor
    · intro h
      exact hiff.mp (h results next hsend hnext)
    · intro hfirst results' next' hsend' hnext'
      obtain rfl : results' = results := by
        rw [← hresults results', ← hsend', hsend, hresults]
      exact (hkept _ next' _ (hinv event.1) (hsend ▸ hnext')).mpr hfirst
  · have hnot : ∀ results, event.2 ≠ send results :=
      fun results hsend => hnone ⟨results, hsend⟩
    rw [hother _ hnot]
    refine iff_of_true ?_ rfl
    intro results next' hsend
    exact absurd hsend (hnot results)

/-- In both loops and for every run, a `do_send` costs a client only what an
error of `send` costs it, if and only if no `do_send` of the run has a first
`send` that would block. -/
theorem event_loops_send_kept_iff :
    (∀ (events : List (Conn × PollEvent))
      (connections : Conn → Connection PollPoint),
      runEvents (stepAt poll) (fun _ => Connection.accepted .wait) events =
        some connections →
      (EachStep (stepAt poll)
          (SendKeptAt poll .cleaned PollPoint.writes .doSend)
          (fun _ => Connection.accepted .wait) events ↔
        EachStep (stepAt poll)
          (fun _ event => firstBlocks event.2.sendResults = false)
          (fun _ => Connection.accepted .wait) events)) ∧
    (∀ (events : List (Conn × QueueEvent))
      (connections : Conn → Connection QueuePoint),
      runEvents (stepAt queue) (fun _ => Connection.accepted .wait) events =
        some connections →
      (EachStep (stepAt queue)
          (SendKeptAt queue .cleaned QueuePoint.writes .doSend)
          (fun _ => Connection.accepted .wait) events ↔
        EachStep (stepAt queue)
          (fun _ event => firstBlocks event.2.sendResults = false)
          (fun _ => Connection.accepted .wait) events)) := by
  constructor
  · intro events connections hrun
    refine eachStep_sendKept_iff rfl (fun _ _ _ => poll_sendReady)
      (fun _ _ _ => poll_sendKept_iff) (fun _ => rfl) ?_ hrun
    intro event hnot
    cases event with
    | doSend results => exact absurd rfl (hnot results)
    | _ => rfl
  · intro events connections hrun
    refine eachStep_sendKept_iff rfl (fun _ _ _ => queue_sendReady)
      (fun _ _ _ => queue_sendKept_iff) (fun _ => rfl) ?_ hrun
    intro event hnot
    cases event with
    | doSend results => exact absurd rfl (hnot results)
    | _ => rfl

theorem short_send_kept_iff :
    (EachStep (stepAt poll) (SendKeptAt poll .cleaned PollPoint.writes .doSend)
        (fun _ => Connection.accepted .wait) pollShortSend ↔
      EachStep (stepAt poll)
        (fun _ event => firstBlocks event.2.sendResults = false)
        (fun _ => Connection.accepted .wait) pollShortSend) ∧
    (EachStep (stepAt queue)
        (SendKeptAt queue .cleaned QueuePoint.writes .doSend)
        (fun _ => Connection.accepted .wait) queueShortSend ↔
      EachStep (stepAt queue)
        (fun _ event => firstBlocks event.2.sendResults = false)
        (fun _ => Connection.accepted .wait) queueShortSend) :=
  ⟨event_loops_send_kept_iff.1 pollShortSend _
      (Option.some_get poll_short_send_enabled).symm,
    event_loops_send_kept_iff.2 queueShortSend _
      (Option.some_get queue_short_send_enabled).symm⟩

/-- Three bytes arrive while the socket cannot take any. -/
def pollFullSocket : List (Unit × PollEvent) :=
  [((), .wait EPOLLIN), ((), .recv (.bytes [1, 2, 3])),
    ((), .doSend [⟨-1, true⟩])]

def queueFullSocket : List (Unit × QueueEvent) :=
  [((), .wait EVFILT_READ 0), ((), .recv (.bytes [1, 2, 3])),
    ((), .doSend [⟨-1, true⟩])]

theorem full_socket_cleaned :
    ¬ EachStep (stepAt poll) (SendKeptAt poll .cleaned PollPoint.writes .doSend)
        (fun _ => Connection.accepted .wait) pollFullSocket ∧
    ¬ EachStep (stepAt queue)
        (SendKeptAt queue .cleaned QueuePoint.writes .doSend)
        (fun _ => Connection.accepted .wait) queueFullSocket := by
  constructor
  · intro ⟨_, _, hsend, _⟩
    exact (hsend _ _ rfl rfl).registered rfl rfl
  · intro ⟨_, _, hsend, _⟩
    exact (hsend _ _ rfl rfl).registered rfl rfl

end CsPrimer.ShoutServer
