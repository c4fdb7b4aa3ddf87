import CsPrimer.Foundation.EventRun
import CsPrimer.ShoutServer.Connection

/-!
The two event loops of `shout_server.c`, `poll` for epoll and `queue` for
kqueue, as they treat the connections they have accepted. A step goes from one
system call to the next. Events come in any order, with any flags, and the
connections in any order, which covers the order of the loops. The user data
of an event is the buffer of its connection, as it was registered.
-/

namespace CsPrimer.ShoutServer

open Foundation

def EPOLLIN : BitVec 32 := 0x001
def EPOLLOUT : BitVec 32 := 0x004
def EPOLLHUP : BitVec 32 := 0x010
def EPOLLRDHUP : BitVec 32 := 0x2000

/-- The system call of `poll` that a connection is at: `epoll_wait`, the
`do_send` of the write event, `recv`, or the `do_send` of the receive loop. -/
inductive PollPoint where
  | wait
  | writeSend (ev : BitVec 32)
  | recv
  | readSend
  | cleaned
  deriving DecidableEq, Repr

inductive PollEvent where
  | wait (ev : BitVec 32)
  | doSend (results : List SendResult)
  | recv (result : RecvResult)
  deriving DecidableEq, Repr

/-- The second half of the read and write branch: the receive loop starts
with an empty buffer only. -/
def pollRead (c : Connection PollPoint) (ev : BitVec 32) :
    Connection PollPoint :=
  if ev &&& EPOLLIN ≠ 0 ∧ 0 = c.buffer.size then c.goto .recv
  else c.goto .wait

def pollDispatch (c : Connection PollPoint) (ev : BitVec 32) :
    Connection PollPoint :=
  if ev &&& EPOLLRDHUP ≠ 0 ∨ ev &&& EPOLLHUP ≠ 0 then c.goto .cleaned
  else if ev &&& EPOLLIN ≠ 0 ∨ ev &&& EPOLLOUT ≠ 0 then
    if ev &&& EPOLLOUT ≠ 0 ∧ 0 < c.buffer.size then c.goto (.writeSend ev)
    else pollRead c ev
  else c.goto .cleaned

def pollSent (c : Connection PollPoint) (sent : Int) :
    Option (Connection PollPoint) :=
  match c.point with
  | .writeSend ev =>
      if 0 ≥ sent then some (c.goto .cleaned)
      else some (pollRead (c.keepUnsent sent.toNat) ev)
  | .readSend =>
      if 0 ≥ sent then some (c.goto .cleaned)
      else if sent < c.buffer.size then
        some ((c.keepUnsent sent.toNat).goto .wait)
      else some ((c.keepUnsent sent.toNat).goto .recv)
  | _ => none

def poll (c : Connection PollPoint) :
    PollEvent → Option (Connection PollPoint)
  | .wait ev => if c.point = .wait then some (pollDispatch c ev) else none
  | .doSend results =>
      match doSend c.buffer.data results 0 0 c.buffer.size with
      | none => none
      | some (sent, _) => pollSent c sent
  | .recv result =>
      if c.point = .recv then c.afterRecv .wait .cleaned .readSend result
      else none

def EVFILT_READ : Int := -1
def EVFILT_WRITE : Int := -2
def EV_EOF : BitVec 32 := 0x8000
def EV_ERROR : BitVec 32 := 0x4000

/-- The system call of `queue` that a connection is at; the calls of
`kq_change` are named by what they do to a filter. -/
inductive QueuePoint where
  | wait
  | writeSend
  | disableWrite
  | enableRead
  | recv
  | readSend
  | disableRead
  | addWrite
  | cleaned
  deriving DecidableEq, Repr

inductive QueueEvent where
  | wait (filter : Int) (fflags : BitVec 32)
  | doSend (results : List SendResult)
  | recv (result : RecvResult)
  | kqChange (failed : Bool)
  deriving DecidableEq, Repr

def queueDispatch (c : Connection QueuePoint) (filter : Int)
    (fflags : BitVec 32) : Connection QueuePoint :=
  if fflags &&& EV_EOF ≠ 0 ∨ fflags &&& EV_ERROR ≠ 0 then c.goto .cleaned
  else if EVFILT_WRITE = filter ∧ 0 < c.buffer.size then c.goto .writeSend
  else if EVFILT_READ = filter ∧ 0 = c.buffer.size then c.goto .recv
  else c.goto .cleaned

def queueSent (c : Connection QueuePoint) (sent : Int) :
    Option (Connection QueuePoint) :=
  match c.point with
  | .writeSend =>
      if 0 ≥ sent then some (c.goto .cleaned)
      else if sent < c.buffer.size then
        some ((c.keepUnsent sent.toNat).goto .wait)
      else some ((c.keepUnsent sent.toNat).goto .disableWrite)
  | .readSend =>
      if 0 ≥ sent then some (c.goto .cleaned)
      else if sent < c.buffer.size then
        some ((c.keepUnsent sent.toNat).goto .disableRead)
      else some ((c.keepUnsent sent.toNat).goto .recv)
  | _ => none

/-- After `kq_change` returned; a failure cleans up. -/
def queueChanged (c : Connection QueuePoint) (failed : Bool) :
    Option (Connection QueuePoint) :=
  match c.point with
  | .disableWrite => some (c.goto (if failed then .cleaned else .enableRead))
  | .enableRead => some (c.goto (if failed then .cleaned else .wait))
  | .disableRead => some (c.goto (if failed then .cleaned else .addWrite))
  | .addWrite => some (c.goto (if failed then .cleaned else .wait))
  | _ => none

def queue (c : Connection QueuePoint) :
    QueueEvent → Option (Connection QueuePoint)
  | .wait filter fflags =>
      if c.point = .wait then some (queueDispatch c filter fflags) else none
  | .doSend results =>
      match doSend c.buffer.data results 0 0 c.buffer.size with
      | none => none
      | some (sent, _) => queueSent c sent
  | .recv result =>
      if c.point = .recv then c.afterRecv .wait .cleaned .readSend result
      else none
  | .kqChange failed => queueChanged c failed

structure RelaySafe {Point : Type} (recv : Point) (c : Connection Point) :
    Prop where
  relayed : Relayed c
  recv_empty : c.point = recv → c.buffer.size = 0

variable {Point : Type} {recv : Point} {c : Connection Point}

theorem RelaySafe.accepted {waiting : Point} :
    RelaySafe recv (Connection.accepted waiting) where
  relayed := Relayed.accepted waiting
  recv_empty := fun _ => rfl

/-- A step to another point than `recv` owes the relay only. -/
theorem Relayed.safe (h : Relayed c) {point : Point} (hpoint : point ≠ recv) :
    RelaySafe recv (c.goto point) where
  relayed := h.goto point
  recv_empty := fun hrecv => absurd hrecv hpoint

/-- The receive loop goes on after a complete send. -/
theorem Relayed.safe_recv (h : Relayed c) (hempty : c.buffer.size = 0) :
    RelaySafe recv (c.goto recv) where
  relayed := h.goto recv
  recv_empty := fun _ => hempty

theorem keepUnsent_size {sent : Nat} (hall : ¬ sent < c.buffer.size) :
    (c.keepUnsent sent).buffer.size = 0 := by
  simp only [Connection.keepUnsent]
  rw [if_neg hall]

/-- The bytes that `do_send` counts are bytes of the range it was given. -/
theorem Relayed.send (h : Relayed c) {results : List SendResult}
    {ret : Int} {accepted : List UInt8}
    (hsend : doSend c.buffer.data results 0 0 c.buffer.size =
      some (ret, accepted)) :
    Relayed (c.keepUnsent ret.toNat) := by
  have hle := doSend_le hsend
  apply h.keepUnsent
  omega

theorem RelaySafe.afterRecv {next : Connection Point} (h : RelaySafe recv c)
    (hpoint : c.point = recv) {waiting cleaned send : Point}
    (hwaiting : waiting ≠ recv) (hcleaned : cleaned ≠ recv)
    (hsend : send ≠ recv) {result : RecvResult}
    (hnext : c.afterRecv waiting cleaned send result = some next) :
    RelaySafe recv next := by
  refine ⟨h.relayed.afterRecv (h.recv_empty hpoint) hnext, ?_⟩
  intro hrecv
  cases result with
  | error wouldBlock =>
      cases hnext
      simp only [Connection.goto] at hrecv
      split at hrecv
      · exact absurd hrecv hwaiting
      · exact absurd hrecv hcleaned
  | bytes received =>
      simp only [Connection.afterRecv] at hnext
      split at hnext
      · cases hnext
      · split at hnext
        · cases hnext
          exact absurd hrecv hcleaned
        · cases hnext
          exact absurd hrecv hsend

theorem pollRead_safe {c : Connection PollPoint} (h : Relayed c)
    (ev : BitVec 32) : RelaySafe .recv (pollRead c ev) := by
  unfold pollRead
  split
  · rename_i hread
    exact h.safe_recv hread.2.symm
  · exact h.safe (by simp)

theorem pollDispatch_safe {c : Connection PollPoint} (h : Relayed c)
    (ev : BitVec 32) : RelaySafe .recv (pollDispatch c ev) := by
  unfold pollDispatch
  split
  · exact h.safe (by simp)
  · split
    · split
      · exact h.safe (by simp)
      · exact pollRead_safe h ev
    · exact h.safe (by simp)

theorem pollSent_safe {c next : Connection PollPoint} (h : Relayed c)
    {sent : Int} (hkept : Relayed (c.keepUnsent sent.toNat))
    (hnext : pollSent c sent = some next) : RelaySafe .recv next := by
  cases hpoint : c.point with
  | writeSend ev =>
      simp only [pollSent, hpoint] at hnext
      split at hnext
      · cases hnext
        exact h.safe (by simp)
      · cases hnext
        exact pollRead_safe hkept ev
  | readSend =>
      simp only [pollSent, hpoint] at hnext
      split at hnext
      · cases hnext
        exact h.safe (by simp)
      · split at hnext
        · cases hnext
          exact hkept.safe (by simp)
        · cases hnext
          exact hkept.safe_recv (keepUnsent_size (by omega))
  | _ =>
      simp only [pollSent, hpoint] at hnext
      cases hnext

/-- Every step of `poll` keeps the relay. -/
theorem poll_safe {c next : Connection PollPoint} {event : PollEvent}
    (h : RelaySafe .recv c) (hnext : poll c event = some next) :
    RelaySafe .recv next := by
  cases event with
  | wait ev =>
      simp only [poll] at hnext
      split at hnext
      · cases hnext
        exact pollDispatch_safe h.relayed ev
      · cases hnext
  | doSend results =>
      simp only [poll] at hnext
      split at hnext
      · cases hnext
      · rename_i hsend
        exact pollSent_safe h.relayed (h.relayed.send hsend) hnext
  | recv result =>
      simp only [poll] at hnext
      split at hnext
      · rename_i hpoint
        exact h.afterRecv hpoint (by simp) (by simp) (by simp) hnext
      · cases hnext

theorem queueDispatch_safe {c : Connection QueuePoint} (h : Relayed c)
    (filter : Int) (fflags : BitVec 32) :
    RelaySafe .recv (queueDispatch c filter fflags) := by
  unfold queueDispatch
  split
  · exact h.safe (by simp)
  · split
    · exact h.safe (by simp)
    · split
      · rename_i hread
        exact h.safe_recv hread.2.symm
      · exact h.safe (by simp)

theorem queueSent_safe {c next : Connection QueuePoint} (h : Relayed c)
    {sent : Int} (hkept : Relayed (c.keepUnsent sent.toNat))
    (hnext : queueSent c sent = some next) : RelaySafe .recv next := by
  cases hpoint : c.point with
  | writeSend =>
      simp only [queueSent, hpoint] at hnext
      split at hnext
      · cases hnext
        exact h.safe (by simp)
      · split at hnext
        · cases hnext
          exact hkept.safe (by simp)
        · cases hnext
          exact hkept.safe (by simp)
  | readSend =>
      simp only [queueSent, hpoint] at hnext
      split at hnext
      · cases hnext
        exact h.safe (by simp)
      · split at hnext
        · cases hnext
          exact hkept.safe (by simp)
        · cases hnext
          exact hkept.safe_recv (keepUnsent_size (by omega))
  | _ =>
      simp only [queueSent, hpoint] at hnext
      cases hnext

theorem queueChanged_safe {c next : Connection QueuePoint} (h : Relayed c)
    {failed : Bool} (hnext : queueChanged c failed = some next) :
    RelaySafe .recv next := by
  cases hpoint : c.point with
  | disableWrite | enableRead | disableRead | addWrite =>
      simp only [queueChanged, hpoint, Option.some.injEq] at hnext
      subst hnext
      apply h.safe
      cases failed <;> simp
  | _ =>
      simp only [queueChanged, hpoint] at hnext
      cases hnext

/-- Every step of `queue` keeps the relay. -/
theorem queue_safe {c next : Connection QueuePoint} {event : QueueEvent}
    (h : RelaySafe .recv c) (hnext : queue c event = some next) :
    RelaySafe .recv next := by
  cases event with
  | wait filter fflags =>
      simp only [queue] at hnext
      split at hnext
      · cases hnext
        exact queueDispatch_safe h.relayed filter fflags
      · cases hnext
  | doSend results =>
      simp only [queue] at hnext
      split at hnext
      · cases hnext
      · rename_i hsend
        exact queueSent_safe h.relayed (h.relayed.send hsend) hnext
  | recv result =>
      simp only [queue] at hnext
      split at hnext
      · rename_i hpoint
        exact h.afterRecv hpoint (by simp) (by simp) (by simp) hnext
      · cases hnext
  | kqChange failed =>
      simp only [queue] at hnext
      exact queueChanged_safe h.relayed hnext

/-- In both loops and for every run, a connection that is not cleaned up has
sent what it received, except for the pending bytes, and receives only with
nothing pending. -/
theorem event_loops_relay {Conn : Type} [DecidableEq Conn] :
    (∀ connections : Conn → Connection PollPoint,
      Reaches (stepAt poll) (fun _ => Connection.accepted .wait) connections →
      ∀ conn, (connections conn).point ≠ .cleaned →
        RelaySafe .recv (connections conn)) ∧
    (∀ connections : Conn → Connection QueuePoint,
      Reaches (stepAt queue) (fun _ => Connection.accepted .wait) connections →
      ∀ conn, (connections conn).point ≠ .cleaned →
        RelaySafe .recv (connections conn)) := by
  constructor
  · intro connections hrun conn hopen
    exact (hrun.component conn).invariant
      (fun _ _ _ h hnext => poll_safe h hnext) RelaySafe.accepted
  · intro connections hrun conn hopen
    exact (hrun.component conn).invariant
      (fun _ _ _ h hnext => queue_safe h hnext) RelaySafe.accepted

/-- Three bytes arrive; two leave in the receive loop, the third when the
connection is writable again. -/
def pollShortSend : List (Unit × PollEvent) :=
  [((), .wait EPOLLIN), ((), .recv (.bytes [1, 2, 3])),
    ((), .doSend [⟨2, false⟩, ⟨-1, true⟩]), ((), .wait EPOLLOUT),
    ((), .doSend [⟨1, false⟩])]

def queueShortSend : List (Unit × QueueEvent) :=
  [((), .wait EVFILT_READ 0), ((), .recv (.bytes [1, 2, 3])),
    ((), .doSend [⟨2, false⟩, ⟨-1, true⟩]), ((), .kqChange false),
    ((), .kqChange false), ((), .wait EVFILT_WRITE 0),
    ((), .doSend [⟨1, false⟩]), ((), .kqChange false), ((), .kqChange false)]

theorem poll_short_send_enabled :
    (runEvents (stepAt poll) (fun _ => Connection.accepted .wait)
      pollShortSend).isSome := by
  decide

theorem queue_short_send_enabled :
    (runEvents (stepAt queue) (fun _ => Connection.accepted .wait)
      queueShortSend).isSome := by
  decide

theorem short_send_relayed :
    RelaySafe .recv ((runEvents (stepAt poll)
        (fun _ => Connection.accepted .wait) pollShortSend).get
      poll_short_send_enabled ()) ∧
    RelaySafe .recv ((runEvents (stepAt queue)
        (fun _ => Connection.accepted .wait) queueShortSend).get
      queue_short_send_enabled ()) :=
  ⟨event_loops_relay.1 _
      ⟨pollShortSend, (Option.some_get poll_short_send_enabled).symm⟩ ()
      (by decide),
    event_loops_relay.2 _
      ⟨queueShortSend, (Option.some_get queue_short_send_enabled).symm⟩ ()
      (by decide)⟩

end CsPrimer.ShoutServer
