import CsPrimer.ShoutServer.SendOffsets
import CsPrimer.ShoutServer.WouldBlock

/-!
A client of `poll` that sends bytes and then shuts down its writing side. The
kernel delivers the bytes and then the shutdown, and reports any mask of
readable, writable and peer shutdown; no call on the socket fails. The loop
looks at `EPOLLRDHUP` first, and cleans up without reading or sending what is
left. What the calls of `send` accept is recorded apart from what `do_send`
counts, as its offsets may go wrong.
-/

namespace CsPrimer.ShoutServer

open Foundation

/-- The client and its socket at the server: all bytes sent so far, those on
the way, and those received by the kernel only. -/
structure Client where
  sent : List UInt8
  inFlight : List UInt8
  queued : List UInt8
  shutdown : Bool
  shutdownArrived : Bool

/-- A call of `do_send`, with what its calls of `send` returned. -/
structure SendCall where
  data : List UInt8
  left : Nat
  results : List SendResult

def SendCall.accepted (call : SendCall) : List UInt8 :=
  match doSend call.data call.results 0 0 call.left with
  | none => []
  | some (_, accepted) => accepted

structure Session where
  client : Client
  conn : Connection PollPoint
  calls : List SendCall

def Session.accepted (s : Session) : List UInt8 := s.calls.flatMap SendCall.accepted

def Session.start : Session where
  client := ⟨[], [], [], false, false⟩
  conn := Connection.accepted .wait
  calls := []

def epollMask (readable writable rdhup : Bool) : BitVec 32 :=
  (if readable then EPOLLIN else 0) ||| (if writable then EPOLLOUT else 0) |||
    (if rdhup then EPOLLRDHUP else 0)

inductive SessionEvent where
  | send (bytes : List UInt8)
  | shutdown
  | arrive (count : Nat)
  | shutdownArrives
  | wait (readable writable rdhup : Bool)
  | doSend (results : List SendResult)
  | recv (result : RecvResult)
  deriving DecidableEq, Repr

/-- What `recv` can return without an error: bytes from the queue, the end of
the stream after the shutdown, or that the call would block. -/
def Client.canReceive (client : Client) : RecvResult → Bool
  | .bytes [] => client.queued.isEmpty && client.shutdownArrived
  | .bytes received => received.isPrefixOf client.queued
  | .error wouldBlock =>
      wouldBlock && client.queued.isEmpty && !client.shutdownArrived

def RecvResult.received : RecvResult → List UInt8
  | .bytes received => received
  | .error _ => []

def Session.serve (s : Session) (client : Client) (event : PollEvent) :
    Option Session :=
  match poll s.conn event with
  | none => none
  | some conn => some { s with client := client, conn := conn }

def sessionStep (s : Session) : SessionEvent → Option Session
  | .send bytes =>
      if s.client.shutdown then none
      else some { s with client := { s.client with
        sent := s.client.sent ++ bytes
        inFlight := s.client.inFlight ++ bytes } }
  | .shutdown => some { s with client := { s.client with shutdown := true } }
  | .arrive count =>
      some { s with client := { s.client with
        inFlight := s.client.inFlight.drop count
        queued := s.client.queued ++ s.client.inFlight.take count } }
  | .shutdownArrives =>
      if s.client.shutdown ∧ s.client.inFlight = [] then
        some { s with client := { s.client with shutdownArrived := true } }
      else none
  | .wait readable writable rdhup =>
      if (readable || writable || rdhup) = false ∨
          (rdhup && !s.client.shutdownArrived) = true then none
      else s.serve s.client (.wait (epollMask readable writable rdhup))
  | .doSend results =>
      if sendFails results then none
      else
        let call : SendCall := ⟨s.conn.buffer.data, s.conn.buffer.size, results⟩
        { s with calls := s.calls ++ [call] }.serve s.client (.doSend results)
  | .recv result =>
      if s.client.canReceive result then
        let queued := s.client.queued.drop result.received.length
        s.serve { s.client with queued := queued } (.recv result)
      else none

/-- Everything the client sent has been received, and `send` has accepted
it. -/
structure Served (s : Session) : Prop where
  shutdown : s.client.shutdown = true
  received : s.conn.received = s.client.sent
  accepted : s.accepted = s.conn.received

/-- If the step closes the connection, the client has been served. -/
def ClosesServed (s : Session) (event : SessionEvent) : Prop :=
  ∀ next, sessionStep s event = some next → s.conn.point ≠ .cleaned →
    next.conn.point = .cleaned → Served next

/-- The calls of `send` were all offered the bytes that come next. -/
def InOrder (calls : List SendCall) : Prop :=
  ∀ call ∈ calls, OffsetsAgree call.data call.results 0 0

/-- The peer shutdown is reported only with nothing left to read or to send, no
first `send` would block, and all was sent in order when the connection ends. -/
def Harmless (s : Session) : SessionEvent → Prop
  | .wait _ _ rdhup =>
      rdhup = true → s.client.queued = [] ∧ s.conn.buffer.size = 0 ∧ InOrder s.calls
  | .doSend results => firstBlocks results = false
  | .recv (.bytes []) => InOrder s.calls
  | _ => True

/-- As many bytes are accepted as are counted; they are the same exactly if the
calls were in order. -/
structure Counted (calls : List SendCall) (sent : List UInt8) : Prop where
  length_eq : (calls.flatMap SendCall.accepted).length = sent.length
  eq_iff : calls.flatMap SendCall.accepted = sent ↔ InOrder calls

/-- The bytes of the client are on the way, in the queue, or received, and the
shutdown comes after them. -/
structure Delivered (s : Session) : Prop where
  safe : RelaySafe .recv s.conn
  ready : SendReady PollPoint.sends s.conn
  stream : s.conn.received ++ s.client.queued ++ s.client.inFlight =
    s.client.sent
  shutdown_last : s.client.shutdownArrived = true →
    s.client.shutdown = true ∧ s.client.inFlight = []
  counted : Counted s.calls s.conn.sent

variable {s next : Session} {c c' : Connection PollPoint} {client : Client}

theorem start_delivered : Delivered Session.start where
  safe := RelaySafe.accepted
  ready := sendReady_of_not_sends rfl
  stream := rfl
  shutdown_last := by
    intro h
    cases h
  counted := ⟨rfl, iff_of_true rfl (by simp [InOrder, Session.start])⟩

/-- One more call of `do_send` without an error. -/
theorem Counted.doSend {calls : List SendCall} {sent : List UInt8} (h : Counted calls sent)
    {data accepted : List UInt8} {left : Nat} {results : List SendResult} {ret : Int}
    (hlength : left ≤ data.length)
    (hsend : ShoutServer.doSend data results 0 0 left = some (ret, accepted))
    (hret : 0 ≤ ret) :
    Counted (calls ++ [⟨data, left, results⟩]) (sent ++ data.take ret.toNat) := by
  have hcall : (⟨data, left, results⟩ : SendCall).accepted = accepted := by
    simp only [SendCall.accepted, hsend]
  have hfirst := doSend_first_iff hlength hsend hret
  have hcount := doSend_count le_rfl (by omega) hsend hret
  have hle := doSend_le hsend
  have htaken : accepted.length = (data.take ret.toNat).length := by
    rw [List.length_take]
    omega
  constructor
  · rw [List.flatMap_append, List.length_append, List.length_append, h.length_eq,
      List.flatMap_singleton, hcall, htaken]
  · rw [List.flatMap_append, List.flatMap_singleton, hcall]
    have horder : InOrder (calls ++ [⟨data, left, results⟩]) ↔
        InOrder calls ∧ OffsetsAgree data results 0 0 := by
      simp [InOrder, or_imp, forall_and]
    rw [horder, ← h.eq_iff, ← hfirst]
    constructor
    · exact fun heq => List.append_inj heq h.length_eq
    · rintro ⟨heq, haccepted⟩
      rw [heq, haccepted]

theorem Session.serve_cases {event : PollEvent}
    (hnext : s.serve client event = some next) :
    poll s.conn event = some next.conn ∧ next.client = client ∧ next.calls = s.calls := by
  unfold Session.serve at hnext
  split at hnext
  · cases hnext
  · rename_i hpoll
    cases hnext
    exact ⟨hpoll, rfl, rfl⟩

/-- An event is reported while the server waits, a peer shutdown once it has
arrived. -/
theorem wait_cases {readable writable rdhup : Bool}
    (hnext : sessionStep s (.wait readable writable rdhup) = some next) :
    (readable || writable || rdhup) = true ∧
      (rdhup = true → s.client.shutdownArrived = true) ∧
      s.conn.point = .wait ∧ next.client = s.client ∧ next.calls = s.calls ∧
      next.conn = pollDispatch s.conn (epollMask readable writable rdhup) := by
  simp only [sessionStep] at hnext
  split at hnext
  · cases hnext
  · rename_i henabled
    obtain ⟨hpoll, hclient, hcalls⟩ := Session.serve_cases hnext
    simp only [poll] at hpoll
    split at hpoll
    · rename_i hpoint
      refine ⟨?_, ?_, hpoint, hclient, hcalls, (Option.some.inj hpoll).symm⟩
      · exact Bool.eq_true_of_not_eq_false (fun hnone => henabled (.inl hnone))
      · intro hrdhup
        simpa [hrdhup] using henabled
    · cases hpoll

theorem doSend_step_cases {results : List SendResult}
    (hnext : sessionStep s (.doSend results) = some next) :
    sendFails results = false ∧ next.client = s.client ∧
      next.calls = s.calls ++ [⟨s.conn.buffer.data, s.conn.buffer.size, results⟩] ∧
      poll s.conn (.doSend results) = some next.conn := by
  simp only [sessionStep] at hnext
  split at hnext
  · cases hnext
  · rename_i herror
    obtain ⟨hpoll, hclient, hcalls⟩ := Session.serve_cases hnext
    exact ⟨Bool.eq_false_of_not_eq_true herror, hclient, hcalls, hpoll⟩

theorem recv_cases {result : RecvResult}
    (hnext : sessionStep s (.recv result) = some next) :
    s.client.canReceive result = true ∧
      next.client = { s.client with
        queued := s.client.queued.drop result.received.length } ∧
      next.calls = s.calls ∧ s.conn.point = .recv ∧ poll s.conn (.recv result) = some next.conn ∧
      s.conn.afterRecv .wait .cleaned .readSend result = some next.conn := by
  simp only [sessionStep] at hnext
  split at hnext
  · rename_i hreceive
    obtain ⟨hpoll, hclient, hcalls⟩ := Session.serve_cases hnext
    have hafter := hpoll
    simp only [poll] at hafter
    split at hafter
    · rename_i hpoint
      exact ⟨hreceive, hclient, hcalls, hpoint, hpoll, hafter⟩
    · cases hafter
  · cases hnext

theorem pollRead_eq_goto (c : Connection PollPoint) (ev : BitVec 32) :
    ∃ point, pollRead c ev = c.goto point := by
  unfold pollRead
  split <;> exact ⟨_, rfl⟩

/-- The dispatch of an event only moves the connection. -/
theorem pollDispatch_eq_goto (c : Connection PollPoint) (ev : BitVec 32) :
    ∃ point, pollDispatch c ev = c.goto point := by
  unfold pollDispatch
  split
  · exact ⟨_, rfl⟩
  · split
    · split
      · exact ⟨_, rfl⟩
      · exact pollRead_eq_goto c ev
    · exact ⟨_, rfl⟩

theorem pollSent_bytes {sent : Int} (hnext : pollSent c sent = some c') :
    c'.received = c.received ∧ c'.sent = c.sent ++ c.buffer.data.take sent.toNat := by
  cases hpoint : c.point with
  | writeSend ev =>
      simp only [pollSent, hpoint] at hnext
      split at hnext
      · rename_i hnone
        cases hnext
        exact ⟨rfl, by rw [Int.toNat_of_nonpos hnone]; simp [Connection.goto]⟩
      · cases hnext
        obtain ⟨point, hread⟩ := pollRead_eq_goto (c.keepUnsent sent.toNat) ev
        rw [hread]
        exact ⟨rfl, rfl⟩
  | readSend =>
      simp only [pollSent, hpoint] at hnext
      split at hnext
      · rename_i hnone
        cases hnext
        exact ⟨rfl, by rw [Int.toNat_of_nonpos hnone]; simp [Connection.goto]⟩
      · split at hnext <;> cases hnext <;> exact ⟨rfl, rfl⟩
  | _ =>
      simp only [pollSent, hpoint] at hnext
      cases hnext

theorem afterRecv_bytes {result : RecvResult}
    (hnext : c.afterRecv .wait .cleaned .readSend result = some c') :
    c'.received = c.received ++ result.received ∧ c'.sent = c.sent := by
  cases result with
  | error wouldBlock =>
      cases hnext
      exact ⟨(List.append_nil _).symm, rfl⟩
  | bytes received =>
      simp only [Connection.afterRecv] at hnext
      split at hnext
      · cases hnext
      · split at hnext
        · rename_i hempty
          cases hnext
          rw [hempty]
          exact ⟨(List.append_nil _).symm, rfl⟩
        · cases hnext
          exact ⟨rfl, rfl⟩

theorem canReceive_prefix {result : RecvResult}
    (h : client.canReceive result = true) :
    result.received ++ client.queued.drop result.received.length =
      client.queued := by
  have hprefix : result.received <+: client.queued := by
    unfold Client.canReceive at h
    split at h
    · exact List.nil_prefix
    · exact List.isPrefixOf_iff_prefix.mp h
    · exact List.nil_prefix
  obtain ⟨rest, hrest⟩ := hprefix
  rw [← hrest, List.drop_left]

/-- A `do_send` without an error returns a count. -/
theorem Delivered.doSend_cases (h : Delivered s) {results : List SendResult}
    (herror : sendFails results = false)
    (hpoll : poll s.conn (.doSend results) = some c') :
    ∃ ret accepted, doSend s.conn.buffer.data results 0 0 s.conn.buffer.size =
      some (ret, accepted) ∧ 0 ≤ ret ∧ pollSent s.conn ret = some c' := by
  simp only [poll] at hpoll
  split at hpoll
  · cases hpoll
  · rename_i ret accepted hsend
    refine ⟨ret, accepted, hsend, ?_, hpoll⟩
    have hsize := h.ready (pollSent_point hpoll).1
    rcases ShoutServer.doSend_cases hsize hsend with
      ⟨_, hfails, _⟩ | ⟨hret, _⟩ | ⟨hret, _⟩
    · rw [herror] at hfails
      cases hfails
    · omega
    · omega

theorem Delivered.step {event : SessionEvent} (h : Delivered s)
    (hnext : sessionStep s event = some next) : Delivered next := by
  cases event with
  | send bytes =>
      simp only [sessionStep] at hnext
      split at hnext
      · cases hnext
      · rename_i hopen
        cases hnext
        refine ⟨h.safe, h.ready, ?_, ?_, h.counted⟩
        · rw [← List.append_assoc, h.stream]
        · intro harrived
          exact absurd (h.shutdown_last harrived).1 hopen
  | shutdown =>
      cases hnext
      exact ⟨h.safe, h.ready, h.stream,
        fun harrived => ⟨rfl, (h.shutdown_last harrived).2⟩, h.counted⟩
  | arrive count =>
      cases hnext
      refine ⟨h.safe, h.ready, ?_, ?_, h.counted⟩
      · have hstream := h.stream
        rw [← List.take_append_drop count s.client.inFlight] at hstream
        simpa only [List.append_assoc] using hstream
      · intro harrived
        obtain ⟨hshutdown, hempty⟩ := h.shutdown_last harrived
        exact ⟨hshutdown, by rw [hempty, List.drop_nil]⟩
  | shutdownArrives =>
      simp only [sessionStep] at hnext
      split at hnext
      · rename_i hlast
        cases hnext
        exact ⟨h.safe, h.ready, h.stream, fun _ => hlast, h.counted⟩
      · cases hnext
  | wait readable writable rdhup =>
      obtain ⟨_, _, hpoint, hclient, hcalls, hconn⟩ := wait_cases hnext
      obtain ⟨point, hgoto⟩ := pollDispatch_eq_goto s.conn
        (epollMask readable writable rdhup)
      have hpoll : poll s.conn (.wait (epollMask readable writable rdhup)) =
          some next.conn := by
        rw [hconn]
        exact if_pos hpoint
      refine ⟨poll_safe h.safe hpoll, poll_sendReady hpoll, ?_, ?_, ?_⟩
      · rw [hclient, hconn, hgoto]
        exact h.stream
      · rw [hclient]
        exact h.shutdown_last
      · rw [hcalls, hconn, hgoto]
        exact h.counted
  | doSend results =>
      obtain ⟨herror, hclient, hcalls, hpoll⟩ := doSend_step_cases hnext
      obtain ⟨ret, accepted, hsend, hret, hsent⟩ := h.doSend_cases herror hpoll
      obtain ⟨hreceived, hbytes⟩ := pollSent_bytes hsent
      refine ⟨poll_safe h.safe hpoll, poll_sendReady hpoll, ?_, ?_, ?_⟩
      · rw [hclient, hreceived]
        exact h.stream
      · rw [hclient]
        exact h.shutdown_last
      · rw [hcalls, hbytes]
        refine h.counted.doSend ?_ hsend hret
        rw [h.safe.relayed.data_length]
        exact h.safe.relayed.size_le
  | recv result =>
      obtain ⟨hreceive, hclient, hcalls, _, hpoll, hafter⟩ := recv_cases hnext
      obtain ⟨hreceived, hbytes⟩ := afterRecv_bytes hafter
      refine ⟨poll_safe h.safe hpoll, poll_sendReady hpoll, ?_, ?_, ?_⟩
      · rw [hclient, hreceived, List.append_assoc s.conn.received,
          canReceive_prefix hreceive]
        exact h.stream
      · rw [hclient]
        exact h.shutdown_last
      · rw [hcalls, hbytes]
        exact h.counted

theorem Relayed.pending_length (h : Relayed c) :
    c.buffer.pending.length = c.buffer.size := by
  have hlength := h.data_length
  have hsize := h.size_le
  simp only [Buffer.pending, List.length_take]
  omega

/-- Pending bytes have not been sent back. -/
theorem Delivered.size_eq_zero (h : Delivered s) (hserved : Served s) :
    s.conn.buffer.size = 0 := by
  have hpending := congrArg List.length h.safe.relayed.relayed
  have haccepted := congrArg List.length hserved.accepted
  have hcounted := h.counted.length_eq
  rw [List.length_append, h.safe.relayed.pending_length] at hpending
  rw [Session.accepted] at haccepted
  omega

/-- After the peer shutdown the client is served once nothing is left, if all
was sent in order. -/
theorem Delivered.served_iff (h : Delivered s)
    (harrived : s.client.shutdownArrived = true) :
    Served s ↔ s.client.queued = [] ∧ s.conn.buffer.size = 0 ∧ InOrder s.calls := by
  obtain ⟨hshutdown, hlanded⟩ := h.shutdown_last harrived
  have hstream := h.stream
  rw [hlanded, List.append_nil] at hstream
  have hall (hsize : s.conn.buffer.size = 0) : s.conn.sent = s.conn.received := by
    have hpending := h.safe.relayed.relayed
    rwa [Buffer.pending, hsize, List.take_zero, List.append_nil] at hpending
  constructor
  · intro hserved
    have hsize := h.size_eq_zero hserved
    rw [hserved.received, List.append_right_eq_self] at hstream
    exact ⟨hstream, hsize, h.counted.eq_iff.mp (hserved.accepted.trans (hall hsize).symm)⟩
  · rintro ⟨hqueued, hsize, horder⟩
    rw [hqueued, List.append_nil] at hstream
    exact ⟨hshutdown, hstream, (h.counted.eq_iff.mpr horder).trans (hall hsize)⟩

theorem epollMask_rdhup (readable writable rdhup : Bool) :
    epollMask readable writable rdhup &&& EPOLLRDHUP ≠ 0 ↔ rdhup = true := by
  cases readable <;> cases writable <;> cases rdhup <;> decide

theorem epollMask_hup (readable writable rdhup : Bool) :
    epollMask readable writable rdhup &&& EPOLLHUP = 0 := by
  cases readable <;> cases writable <;> cases rdhup <;> decide

theorem epollMask_readWrite (readable writable : Bool)
    (hsome : (readable || writable) = true) :
    epollMask readable writable false &&& EPOLLIN ≠ 0 ∨
      epollMask readable writable false &&& EPOLLOUT ≠ 0 := by
  cases readable <;> cases writable <;> revert hsome <;> decide

/-- Of the events in question, exactly those with the peer shutdown clean
up. -/
theorem pollDispatch_cleaned_iff {readable writable rdhup : Bool}
    (hsome : (readable || writable || rdhup) = true) :
    (pollDispatch c (epollMask readable writable rdhup)).point = .cleaned ↔
      rdhup = true := by
  cases hrdhup : rdhup with
  | true =>
      have hclean := (epollMask_rdhup readable writable true).mpr rfl
      unfold pollDispatch
      rw [if_pos (.inl hclean)]
      exact iff_of_true rfl rfl
  | false =>
      rw [hrdhup, Bool.or_false] at hsome
      have hopen : ¬ (epollMask readable writable false &&& EPOLLRDHUP ≠ 0 ∨
          epollMask readable writable false &&& EPOLLHUP ≠ 0) := by
        rw [epollMask_rdhup, epollMask_hup]
        simp
      unfold pollDispatch
      rw [if_neg hopen, if_pos (epollMask_readWrite readable writable hsome)]
      refine iff_of_false ?_ (by simp)
      split
      · simp [Connection.goto]
      · rcases pollRead_point c (epollMask readable writable false) with
          hpoint | hpoint <;> simp [hpoint]

theorem closesServed_iff {event : SessionEvent}
    (hnext : sessionStep s event = some next) :
    ClosesServed s event ↔
      (s.conn.point ≠ .cleaned → next.conn.point = .cleaned → Served next) := by
  constructor
  · intro h
    exact h next hnext
  · intro h next' hnext'
    obtain rfl := Option.some.inj (hnext.symm.trans hnext')
    exact h

theorem pollSent_failed {sent : Int} (hsent : sent ≤ 0)
    (hnext : pollSent c sent = some c') : c' = c.goto .cleaned := by
  cases hpoint : c.point with
  | writeSend ev | readSend =>
      simp only [pollSent, hpoint] at hnext
      rw [if_pos hsent] at hnext
      exact (Option.some.inj hnext).symm
  | _ =>
      simp only [pollSent, hpoint] at hnext
      cases hnext

/-- Without an error the receive loop cleans up at the end of the stream
only. -/
theorem afterRecv_cleaned {result : RecvResult}
    (hreceive : client.canReceive result = true)
    (hnext : c.afterRecv .wait .cleaned .readSend result = some c')
    (hclean : c'.point = .cleaned) :
    result = .bytes [] ∧ c' = c.goto .cleaned := by
  cases result with
  | error wouldBlock =>
      simp only [Client.canReceive, Bool.and_eq_true] at hreceive
      cases hnext
      rw [hreceive.1.1] at hclean
      cases hclean
  | bytes received =>
      simp only [Connection.afterRecv] at hnext
      split at hnext
      · cases hnext
      · split at hnext
        · rename_i hempty
          cases hnext
          exact ⟨by rw [hempty], rfl⟩
        · cases hnext
          cases hclean

/-- Without an error `do_send` cleans up for a full socket only. -/
theorem Delivered.doSend_cleaned_iff {results : List SendResult}
    (h : Delivered s) (herror : sendFails results = false)
    (hpoll : poll s.conn (.doSend results) = some c') :
    s.conn.point ≠ .cleaned ∧
      (c'.point = .cleaned ↔ firstBlocks results = true) ∧
      (firstBlocks results = true → 0 < c'.buffer.size) := by
  simp only [poll] at hpoll
  split at hpoll
  · cases hpoll
  · rename_i hsend
    obtain ⟨hsends, _, hcleaned⟩ := pollSent_point hpoll
    have hsize := h.ready hsends
    have hopen : s.conn.point ≠ .cleaned := by
      intro hpoint
      rw [hpoint] at hsends
      cases hsends
    refine ⟨hopen, ?_⟩
    rcases ShoutServer.doSend_cases hsize hsend with
      ⟨_, hfails, _⟩ | ⟨hret, hfirst⟩ | ⟨rfl, hfirst⟩
    · rw [herror] at hfails
      cases hfails
    · refine ⟨hcleaned.trans (iff_of_false (by omega) ?_), ?_⟩ <;>
        simp [hfirst]
    · refine ⟨hcleaned.trans (iff_of_true le_rfl hfirst), fun _ => ?_⟩
      rw [pollSent_failed le_rfl hpoll]
      exact hsize

/-- A step closes the connection of an unserved client exactly if it is
harmful. -/
theorem Delivered.closesServed_iff {event : SessionEvent} (h : Delivered s)
    (hnext : sessionStep s event = some next) :
    ClosesServed s event ↔ Harmless s event := by
  have hafter := h.step hnext
  rw [ShoutServer.closesServed_iff hnext]
  cases event with
  | send bytes =>
      simp only [sessionStep] at hnext
      split at hnext <;> cases hnext
      exact iff_of_true (fun hopen hclean => absurd hclean hopen) trivial
  | shutdown | arrive count =>
      cases hnext
      exact iff_of_true (fun hopen hclean => absurd hclean hopen) trivial
  | shutdownArrives =>
      simp only [sessionStep] at hnext
      split at hnext <;> cases hnext
      exact iff_of_true (fun hopen hclean => absurd hclean hopen) trivial
  | wait readable writable rdhup =>
      obtain ⟨hsome, harrived, hpoint, hclient, hcalls, hconn⟩ := wait_cases hnext
      obtain ⟨point, hgoto⟩ := pollDispatch_eq_goto s.conn
        (epollMask readable writable rdhup)
      have hbuffer : next.conn.buffer = s.conn.buffer := by
        rw [hconn, hgoto]
        rfl
      have hserved (hrdhup : rdhup = true) :
          Served next ↔
            s.client.queued = [] ∧ s.conn.buffer.size = 0 ∧ InOrder s.calls := by
        rw [← hbuffer, ← hclient, ← hcalls]
        apply hafter.served_iff
        rw [hclient]
        exact harrived hrdhup
      rw [hconn, pollDispatch_cleaned_iff hsome, hpoint]
      constructor
      · intro hcloses hrdhup
        exact (hserved hrdhup).mp (hcloses (by simp) hrdhup)
      · intro hnothing _ hrdhup
        exact (hserved hrdhup).mpr (hnothing hrdhup)
  | doSend results =>
      obtain ⟨herror, _, _, hpoll⟩ := doSend_step_cases hnext
      obtain ⟨hopen, hcleaned, hunsent⟩ := h.doSend_cleaned_iff herror hpoll
      constructor
      · intro hcloses
        by_contra hblocks
        have hfirst := Bool.eq_true_of_not_eq_false hblocks
        have hserved := hcloses hopen (hcleaned.mpr hfirst)
        exact (hunsent hfirst).ne' (hafter.size_eq_zero hserved)
      · intro hfirst _ hclean
        have hblocks := hcleaned.mp hclean
        have hnone : firstBlocks results = false := hfirst
        rw [hblocks] at hnone
        cases hnone
  | recv result =>
      obtain ⟨hreceive, hclient, hcalls, hpoint, -, hrecv⟩ := recv_cases hnext
      have hempty := h.safe.recv_empty hpoint
      by_cases hend : result = .bytes []
      · -- at the end of the stream nothing is pending
        subst hend
        have hconn : next.conn = s.conn.goto .cleaned := (Option.some.inj hrecv).symm
        simp only [Client.canReceive, Bool.and_eq_true, List.isEmpty_iff] at hreceive
        have hserved : Served next ↔ InOrder s.calls := by
          rw [hafter.served_iff (by rw [hclient]; exact hreceive.2), hclient, hconn, hcalls]
          exact ⟨fun h => h.2.2, fun h => ⟨hreceive.1, hempty, h⟩⟩
        rw [hserved, hconn, hpoint]
        exact ⟨fun h => h (by simp) rfl, fun h _ _ => h⟩
      · refine iff_of_true (fun _ hclean => ?_) ?_
        · exact absurd (afterRecv_cleaned hreceive hrecv hclean).1 hend
        · unfold Harmless
          split
          · cases ‹SessionEvent.recv result = _›
          · cases ‹SessionEvent.recv result = _›
          · cases ‹SessionEvent.recv result = _›
            exact absurd rfl hend
          · trivial

/-- For every client and every run without socket errors: the server closes
the connection of no client that it has not served if and only if every peer
shutdown is reported with nothing left, and no first `send` would block. -/
theorem poll_closes_served_iff (events : List SessionEvent) (s : Session)
    (hrun : runEvents sessionStep Session.start events = some s) :
    EachStep sessionStep ClosesServed Session.start events ↔
      EachStep sessionStep Harmless Session.start events :=
  eachStep_congr (fun _ _ _ h hnext => h.step hnext)
    (fun _ _ _ h hnext => h.closesServed_iff hnext) start_delivered hrun

/-- Three bytes are sent back before the peer shutdown is reported. -/
def servedRun : List SessionEvent :=
  [.send [1, 2, 3], .arrive 3, .wait true false false,
    .recv (.bytes [1, 2, 3]), .doSend [⟨3, false⟩], .recv (.error true),
    .shutdown, .shutdownArrives, .wait true true true]

theorem served_run_enabled :
    (runEvents sessionStep Session.start servedRun).isSome := by
  decide

theorem served_run_closes_served_iff :
    EachStep sessionStep ClosesServed Session.start servedRun ↔
      EachStep sessionStep Harmless Session.start servedRun :=
  poll_closes_served_iff servedRun _ (Option.some_get served_run_enabled).symm

/-- The bytes and the peer shutdown are reported in one event. -/
def mergedRun : List SessionEvent :=
  [.send [1, 2, 3], .arrive 3, .shutdown, .shutdownArrives,
    .wait true false true]

theorem merged_event_drops_bytes :
    ¬ EachStep sessionStep ClosesServed Session.start mergedRun := by
  intro ⟨_, _, _, _, hcloses, _⟩
  have hserved := hcloses _ rfl (by decide) (by decide)
  exact absurd hserved.received (by decide)

end CsPrimer.ShoutServer
