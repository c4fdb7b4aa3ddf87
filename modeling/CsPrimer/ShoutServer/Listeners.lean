import CsPrimer.ShoutServer.PollResources
import CsPrimer.ShoutServer.QueueResources

/-!
`main` of the server: `init_listen_fds`, `set_nonblocking` and `listen` for
each socket, the event loop, and the loop that closes the sockets. A step is
one system call, which may fail, or a step of the event loop. To store past
the end of `lsockfds`, or to close what is not open, leads to `fault`.
-/

namespace CsPrimer.ShoutServer

open Foundation

def maxListenSockFds : Nat := 4

/-- `poll` or `queue`, as `main` sees it. In no run it faults, or holds a
connection under the number of a listening socket. -/
structure EventLoop where
  State : Type
  Event : Type
  start : List Nat → State
  step : List Nat → State → Event → Option State
  returned : State → Option Int
  accepted : State → Descriptors
  faulted : State → Prop
  start_runs : ∀ lsockfds, returned (start lsockfds) = none
  safe : ∀ lsockfds state, Reaches (step lsockfds) (start lsockfds) state →
    ¬ faulted state ∧
      (returned state = none → ∀ fd ∈ lsockfds, (accepted state).table fd = none)

def Epoll.eventLoop : EventLoop where
  State := Epoll.Server
  Event := Epoll.Event
  start := Epoll.start
  step := Epoll.step
  returned s :=
    match s.control with
    | .returned code => some code
    | _ => none
  accepted s := s.process.fds
  faulted s := s.control = .fault
  start_runs lsockfds := by
    cases lsockfds <;> rfl
  safe lsockfds state hreaches := by
    have hsafe : Epoll.Safe lsockfds state :=
      hreaches.invariant (fun _ _ _ h hnext => h.step hnext) (Epoll.start_safe lsockfds)
    refine ⟨hsafe.no_fault, ?_⟩
    intro hruns
    refine (hsafe.accounted ?_).not_listening
    intro code hcode
    rw [hcode] at hruns
    cases hruns

def Kqueue.eventLoop : EventLoop where
  State := Kqueue.Server
  Event := Kqueue.Event
  start := Kqueue.start
  step := Kqueue.step
  returned s :=
    match s.control with
    | .returned code => some code
    | _ => none
  accepted s := s.process.fds
  faulted s := s.control = .fault
  start_runs lsockfds := by
    cases lsockfds <;> rfl
  safe lsockfds state hreaches := by
    have hsafe : Kqueue.Safe lsockfds state :=
      hreaches.invariant (fun _ _ _ h hnext => (h.step hnext).1) (Kqueue.start_safe lsockfds)
    exact ⟨hsafe.no_fault, fun _ => hsafe.sound.not_listening⟩

/-- `set_nonblocking`, by the two calls of `fcntl`. -/
def setNonblocking (getfl setfl : Bool) : Int :=
  if getfl = false then -1
  else if setfl = false then -2
  else 0

/-- Where `main` is: at a call of `init_listen_fds`, with the number of
addresses that are left, at a call for each of the rest of the sockets, or in
the event loop. It `failed` when it returned a code of its own. -/
inductive MainControl (State : Type) where
  | getaddrinfo
  | socket (left : Nat)
  | reuseAddr (lfd left : Nat)
  | reusePort (lfd left : Nat)
  | bind (lfd left : Nat)
  | nonblocking (rest : List Nat)
  | listen (rest : List Nat)
  | serving (state : State)
  | closing (rest : List Nat) (ret : Int)
  | failed (code : Int)
  | returned (ret : Int)
  | fault

/-- `sockets` are the descriptors that `socket` has returned. -/
structure Program (loop : EventLoop) where
  control : MainControl loop.State
  lsockfds : List Nat
  nlsockfd : Nat
  sockets : Descriptors

inductive MainEvent (loop : EventLoop) where
  | getaddrinfo (addresses : Option Nat)
  | socket (fd : Option Nat)
  | setsockopt (succeeds : Bool)
  | bind (succeeds : Bool)
  | setNonblocking (getfl setfl : Bool)
  | listen (succeeds : Bool)
  | serve (event : loop.Event)
  | close

variable {loop : EventLoop}

def Program.listeners (s : Program loop) : List Nat := s.lsockfds.take s.nlsockfd

def mainStart (loop : EventLoop) : Program loop where
  control := .getaddrinfo
  lsockfds := List.replicate maxListenSockFds 0
  nlsockfd := 0
  sockets := Descriptors.empty

/-- The second loop of `main`, and the call of the event loop. -/
def Program.listenFrom (s : Program loop) : List Nat → Program loop
  | [] => { s with control := .serving (loop.start s.listeners) }
  | rest => { s with control := .listen rest }

/-- The first loop of `main`. -/
def Program.nonblockingFrom (s : Program loop) : List Nat → Program loop
  | [] => s.listenFrom s.listeners
  | rest => { s with control := .nonblocking rest }

/-- `init_listen_fds` has returned `nlsockfd`. -/
def Program.initialised (s : Program loop) : Program loop :=
  if s.nlsockfd = 0 then { s with control := .failed 1 }
  else s.nonblockingFrom s.listeners

/-- The head of the loop of `init_listen_fds`. -/
def Program.nextAddress (s : Program loop) : Nat → Program loop
  | 0 => s.initialised
  | left + 1 => { s with control := .socket left }

def Program.orFault (s : Program loop) (next : Option (Program loop)) : Program loop :=
  next.getD { s with control := .fault }

/-- `close(lfd)`, and `continue`. -/
def Program.drop (s : Program loop) (lfd left : Nat) : Program loop :=
  s.orFault do
    let sockets ← s.sockets.close lfd
    some (({ s with sockets := sockets } : Program loop).nextAddress left)

/-- `lfds[nlfd++] = lfd`, and the test behind it. -/
def Program.list (s : Program loop) (lfd left : Nat) : Program loop :=
  if s.nlsockfd < s.lsockfds.length then
    let s := { s with
      lsockfds := s.lsockfds.set s.nlsockfd lfd
      nlsockfd := s.nlsockfd + 1 }
    if maxListenSockFds ≤ s.nlsockfd then s.initialised else s.nextAddress left
  else { s with control := .fault }

def Program.closeFrom (s : Program loop) (ret : Int) : List Nat → Program loop
  | [] => { s with control := .returned ret }
  | rest => { s with control := .closing rest ret }

def mainStep (s : Program loop) (event : MainEvent loop) : Option (Program loop) :=
  match s.control, event with
  | .getaddrinfo, .getaddrinfo none => some { s with control := .failed 1 }
  | .getaddrinfo, .getaddrinfo (some addresses) => some (s.nextAddress addresses)
  | .socket left, .socket none => some (s.nextAddress left)
  | .socket left, .socket (some fd) => do
      let sockets ← s.sockets.open fd
      some { s with control := .reuseAddr fd left, sockets := sockets }
  | .reuseAddr lfd left, .setsockopt succeeds =>
      some (if succeeds then { s with control := .reusePort lfd left } else s.drop lfd left)
  | .reusePort lfd left, .setsockopt succeeds =>
      some (if succeeds then { s with control := .bind lfd left } else s.drop lfd left)
  | .bind lfd left, .bind succeeds =>
      some (if succeeds then s.list lfd left else s.drop lfd left)
  | .nonblocking (_ :: rest), .setNonblocking getfl setfl =>
      some (if setNonblocking getfl setfl < 0 then { s with control := .failed 2 }
        else s.nonblockingFrom rest)
  | .listen (_ :: rest), .listen succeeds =>
      some (if succeeds then s.listenFrom rest else { s with control := .failed 3 })
  | .serving state, .serve event => do
      let state ← loop.step s.listeners state event
      match loop.returned state with
      | none => some { s with control := .serving state }
      | some ret => some (s.closeFrom ret s.listeners)
  | .closing (fd :: rest) ret, .close =>
      some <| s.orFault do
        let sockets ← s.sockets.close fd
        some (({ s with sockets := sockets } : Program loop).closeFrom ret rest)
  | _, _ => none

def Program.held (s : Program loop) : List Nat :=
  match s.control with
  | .reuseAddr lfd _ | .reusePort lfd _ | .bind lfd _ => lfd :: s.listeners
  | .closing rest _ => rest
  | .returned _ => []
  | _ => s.listeners

/-- There is still room in `lsockfds`. -/
def MainControl.fills {State : Type} : MainControl State → Bool
  | .getaddrinfo | .socket _ | .reuseAddr _ _ | .reusePort _ _ | .bind _ _ => true
  | _ => false

def Program.Explained (s : Program loop) : Prop :=
  match s.control with
  | .getaddrinfo => s.listeners = []
  | .nonblocking _ | .listen _ => s.listeners ≠ []
  | .serving state =>
      s.listeners ≠ [] ∧ loop.returned state = none ∧
        Reaches (loop.step s.listeners) (loop.start s.listeners) state
  | .closing _ ret | .returned ret =>
      ∃ state, loop.returned state = some ret ∧
        Reaches (loop.step s.listeners) (loop.start s.listeners) state
  | .failed code => (code = 1 ∧ s.listeners = []) ∨ (code = 2 ∨ code = 3) ∧ s.listeners ≠ []
  | .fault => False
  | _ => True

structure Kept (s : Program loop) : Prop where
  cells : s.lsockfds.length = maxListenSockFds
  count_le : s.nlsockfd ≤ maxListenSockFds
  room : s.control.fills = true → s.nlsockfd < maxListenSockFds
  opens : s.sockets.Opens s.held
  explained : s.Explained

variable {s next : Program loop} {lfd left : Nat}

theorem mainStart_kept : Kept (mainStart loop) where
  cells := rfl
  count_le := Nat.zero_le _
  room := fun _ => Nat.zero_lt_succ _
  opens := Descriptors.opens_empty
  explained := rfl

theorem listeners_ne_nil (hcells : s.lsockfds.length = maxListenSockFds)
    (hcount : s.nlsockfd ≠ 0) : s.listeners ≠ [] := by
  intro hnil
  have hlength := congrArg List.length hnil
  rw [Program.listeners, List.length_take, hcells, List.length_nil] at hlength
  unfold maxListenSockFds at hlength
  omega

/-- The loops of `main` go on with the listed sockets open. -/
theorem listenFrom_kept (hcells : s.lsockfds.length = maxListenSockFds)
    (hcount : s.nlsockfd ≤ maxListenSockFds) (hopens : s.sockets.Opens s.listeners)
    (hlisted : s.listeners ≠ []) (rest : List Nat) : Kept (s.listenFrom rest) := by
  cases rest with
  | nil =>
      exact ⟨hcells, hcount, (fun hfills => by cases hfills), hopens, hlisted,
        loop.start_runs _, .refl⟩
  | cons fd rest => exact ⟨hcells, hcount, (fun hfills => by cases hfills), hopens, hlisted⟩

theorem nonblockingFrom_kept (hcells : s.lsockfds.length = maxListenSockFds)
    (hcount : s.nlsockfd ≤ maxListenSockFds) (hopens : s.sockets.Opens s.listeners)
    (hlisted : s.listeners ≠ []) (rest : List Nat) : Kept (s.nonblockingFrom rest) := by
  cases rest with
  | nil => exact listenFrom_kept hcells hcount hopens hlisted _
  | cons fd rest => exact ⟨hcells, hcount, (fun hfills => by cases hfills), hopens, hlisted⟩

/-- `init_listen_fds` returns with the listed sockets open. -/
theorem initialised_kept (hcells : s.lsockfds.length = maxListenSockFds)
    (hcount : s.nlsockfd ≤ maxListenSockFds) (hopens : s.sockets.Opens s.listeners) :
    Kept s.initialised := by
  unfold Program.initialised
  split
  · rename_i hzero
    refine ⟨hcells, hcount, (fun hfills => by cases hfills), hopens, .inl ⟨rfl, ?_⟩⟩
    unfold Program.listeners
    dsimp only
    rw [hzero, List.take_zero]
  · rename_i hcount'
    exact nonblockingFrom_kept hcells hcount hopens (listeners_ne_nil hcells hcount') _

theorem nextAddress_kept (hcells : s.lsockfds.length = maxListenSockFds)
    (hroom : s.nlsockfd < maxListenSockFds) (hopens : s.sockets.Opens s.listeners)
    (left : Nat) : Kept (s.nextAddress left) := by
  cases left with
  | zero => exact initialised_kept hcells (Nat.le_of_lt hroom) hopens
  | succ left => exact ⟨hcells, Nat.le_of_lt hroom, fun _ => hroom, hopens, trivial⟩

/-- A socket that cannot be set up is closed. -/
theorem drop_kept (hcells : s.lsockfds.length = maxListenSockFds)
    (hroom : s.nlsockfd < maxListenSockFds) (hopens : s.sockets.Opens (lfd :: s.listeners))
    (left : Nat) : Kept (s.drop lfd left) := by
  obtain ⟨sockets, hclose, hopens'⟩ := hopens.close
  have hdrop : s.drop lfd left =
      ({ s with sockets := sockets } : Program loop).nextAddress left := by
    simp only [Program.drop, Program.orFault, hclose, Option.bind_eq_bind, Option.bind_some,
      Option.getD_some]
  rw [hdrop]
  exact nextAddress_kept (s := { s with sockets := sockets }) hcells hroom hopens' left

/-- A socket that is set up is listed, within the array. -/
theorem list_kept (hcells : s.lsockfds.length = maxListenSockFds)
    (hroom : s.nlsockfd < maxListenSockFds) (hopens : s.sockets.Opens (lfd :: s.listeners))
    (left : Nat) : Kept (s.list lfd left) := by
  have hlisteners : (s.lsockfds.set s.nlsockfd lfd).take (s.nlsockfd + 1) =
      s.listeners ++ [lfd] := by
    rw [List.set_eq_take_append_cons_drop, if_pos (hcells ▸ hroom), Program.listeners,
      List.take_append, List.length_take, Nat.min_eq_left (by omega), Nat.add_sub_cancel_left,
      List.take_of_length_le (by rw [List.length_take]; omega)]
    rfl
  have hperm : (lfd :: s.listeners).Perm
      ((s.lsockfds.set s.nlsockfd lfd).take (s.nlsockfd + 1)) := by
    rw [hlisteners]
    exact (List.perm_append_singleton lfd s.listeners).symm
  have hcells' : (s.lsockfds.set s.nlsockfd lfd).length = maxListenSockFds := by
    rw [List.length_set, hcells]
  unfold Program.list
  rw [if_pos (hcells ▸ hroom)]
  generalize hs : ({ s with
    lsockfds := s.lsockfds.set s.nlsockfd lfd
    nlsockfd := s.nlsockfd + 1 } : Program loop) = s'
  have hopens' : s'.sockets.Opens s'.listeners := by
    rw [← hs]
    exact hopens.perm hperm
  have hcount : s'.nlsockfd = s.nlsockfd + 1 := by rw [← hs]
  dsimp only
  split
  · exact initialised_kept (hs ▸ hcells') (by omega) hopens'
  · exact nextAddress_kept (hs ▸ hcells') (by omega) hopens' left

/-- The sockets that are left are still open. -/
theorem closeFrom_kept (hcells : s.lsockfds.length = maxListenSockFds)
    (hcount : s.nlsockfd ≤ maxListenSockFds) {rest : List Nat} (hopens : s.sockets.Opens rest)
    {state : loop.State} {ret : Int} (hret : loop.returned state = some ret)
    (hreaches : Reaches (loop.step s.listeners) (loop.start s.listeners) state) :
    Kept (s.closeFrom ret rest) := by
  cases rest with
  | nil =>
      exact ⟨hcells, hcount, (fun hfills => by cases hfills), hopens, state, hret, hreaches⟩
  | cons fd rest =>
      exact ⟨hcells, hcount, (fun hfills => by cases hfills), hopens, state, hret, hreaches⟩

theorem Kept.step {event : MainEvent loop} (h : Kept s) (hnext : mainStep s event = some next) :
    Kept next := by
  obtain ⟨control, lsockfds, nlsockfd, sockets⟩ := s
  have hcells := h.cells
  have hcount := h.count_le
  have hopens := h.opens
  have hexplained := h.explained
  have hroom := h.room
  unfold mainStep at hnext
  split at hnext
  · rename_i hcontrol
    obtain rfl : control = .getaddrinfo := hcontrol
    cases hnext
    exact ⟨hcells, hcount, (fun hfills => by cases hfills), hopens, .inl ⟨rfl, hexplained⟩⟩
  · rename_i addresses hcontrol
    obtain rfl : control = .getaddrinfo := hcontrol
    cases hnext
    exact nextAddress_kept hcells (hroom rfl) hopens addresses
  · rename_i left hcontrol
    obtain rfl : control = .socket left := hcontrol
    cases hnext
    exact nextAddress_kept hcells (hroom rfl) hopens left
  · rename_i left fd hcontrol
    obtain rfl : control = .socket left := hcontrol
    simp only [Option.bind_eq_bind, Option.bind_eq_some_iff] at hnext
    obtain ⟨sockets', hopen, hnext⟩ := hnext
    cases hnext
    exact ⟨hcells, hcount, fun _ => hroom rfl, hopens.opened hopen, trivial⟩
  · rename_i lfd left succeeds hcontrol
    obtain rfl : control = .reuseAddr lfd left := hcontrol
    cases hnext
    split
    · exact ⟨hcells, hcount, fun _ => hroom rfl, hopens, trivial⟩
    · exact drop_kept hcells (hroom rfl) hopens left
  · rename_i lfd left succeeds hcontrol
    obtain rfl : control = .reusePort lfd left := hcontrol
    cases hnext
    split
    · exact ⟨hcells, hcount, fun _ => hroom rfl, hopens, trivial⟩
    · exact drop_kept hcells (hroom rfl) hopens left
  · rename_i lfd left succeeds hcontrol
    obtain rfl : control = .bind lfd left := hcontrol
    cases hnext
    split
    · exact list_kept hcells (hroom rfl) hopens left
    · exact drop_kept hcells (hroom rfl) hopens left
  · rename_i fd rest getfl setfl hcontrol
    obtain rfl : control = .nonblocking (fd :: rest) := hcontrol
    cases hnext
    split
    · exact ⟨hcells, hcount, (fun hfills => by cases hfills), hopens, .inr ⟨.inl rfl, hexplained⟩⟩
    · exact nonblockingFrom_kept hcells hcount hopens hexplained rest
  · rename_i fd rest succeeds hcontrol
    obtain rfl : control = .listen (fd :: rest) := hcontrol
    cases hnext
    split
    · exact listenFrom_kept hcells hcount hopens hexplained rest
    · exact ⟨hcells, hcount, (fun hfills => by cases hfills), hopens, .inr ⟨.inr rfl, hexplained⟩⟩
  · rename_i state event hcontrol
    obtain rfl : control = .serving state := hcontrol
    obtain ⟨hlisted, hruns, hreaches⟩ := hexplained
    simp only [Option.bind_eq_bind, Option.bind_eq_some_iff] at hnext
    obtain ⟨state', hstate, hnext⟩ := hnext
    have hreaches' := hreaches.trans (.single hstate)
    split at hnext
    · rename_i hruns'
      cases hnext
      exact ⟨hcells, hcount, (fun hfills => by cases hfills), hopens, hlisted, hruns', hreaches'⟩
    · rename_i ret hret
      cases hnext
      exact closeFrom_kept hcells hcount hopens hret hreaches'
  · rename_i fd rest ret hcontrol
    obtain rfl : control = .closing (fd :: rest) ret := hcontrol
    obtain ⟨state, hret, hreaches⟩ := hexplained
    obtain ⟨sockets', hclose, hopens'⟩ := hopens.close
    simp only [hclose, Program.orFault, Option.bind_eq_bind, Option.bind_some, Option.getD_some,
      Option.some.injEq] at hnext
    rw [← hnext]
    exact closeFrom_kept (s := ⟨_, _, _, sockets'⟩) hcells hcount hopens' hret hreaches
  · cases hnext

/-- The accounts of `main`: `lsockfds` is not overrun; every socket is open or
has been closed once; the event loop runs with the listed sockets open, and
takes none of them for a connection; when it has returned, no socket is left
open, and `main` leaves sockets open only if `set_nonblocking` or `listen` has
failed. -/
structure ListenersSafe (s : Program loop) : Prop where
  no_fault : s.control ≠ .fault
  count_le : s.nlsockfd ≤ maxListenSockFds
  closed_once : ∀ file < s.sockets.files.next,
    ((∃ fd, s.sockets.table fd = some file) ∧ s.sockets.files.released.count file = 0) ∨
    ((∀ fd, s.sockets.table fd ≠ some file) ∧ s.sockets.files.released.count file = 1)
  serving : ∀ state, s.control = .serving state →
    ¬ loop.faulted state ∧ s.listeners ≠ [] ∧ s.sockets.Opens s.listeners ∧
      ∀ fd ∈ s.listeners, (loop.accepted state).table fd = none
  returned : ∀ ret, s.control = .returned ret →
    (∀ fd, s.sockets.table fd = none) ∧ ∃ state, loop.returned state = some ret ∧
      Reaches (loop.step s.listeners) (loop.start s.listeners) state
  failed : ∀ code, s.control = .failed code →
    s.sockets.Opens s.listeners ∧
      ((code = 1 ∧ s.listeners = []) ∨ (code = 2 ∨ code = 3) ∧ s.listeners ≠ [])

theorem Kept.listenersSafe (h : Kept s) : ListenersSafe s := by
  have hexplained := h.explained
  have hopens := h.opens
  unfold Program.Explained at hexplained
  unfold Program.held at hopens
  refine ⟨?_, h.count_le, fun _ => Descriptors.closed_once, ?_, ?_, ?_⟩
  · intro hcontrol
    rw [hcontrol] at hexplained
    exact hexplained
  · intro state hcontrol
    rw [hcontrol] at hexplained hopens
    obtain ⟨hlisted, hruns, hreaches⟩ := hexplained
    obtain ⟨hfault, haccepted⟩ := loop.safe _ _ hreaches
    exact ⟨hfault, hlisted, hopens, haccepted hruns⟩
  · intro ret hcontrol
    rw [hcontrol] at hexplained hopens
    refine ⟨fun fd => ?_, hexplained⟩
    rw [← Option.not_isSome_iff_eq_none, hopens.open_iff]
    exact List.not_mem_nil
  · intro code hcontrol
    rw [hcontrol] at hexplained hopens
    exact ⟨hopens, hexplained⟩

/-- With either event loop, for every number of addresses and whatever fails,
in every run of `main`. -/
theorem main_listeners (loop : EventLoop) (s : Program loop)
    (hs : Reaches mainStep (mainStart loop) s) : ListenersSafe s :=
  (hs.invariant (fun _ _ _ h hnext => h.step hnext) mainStart_kept).listenersSafe

/-- The first address is in use, and `epoll_wait` fails at once. -/
def secondAddressRun : List (MainEvent Epoll.eventLoop) :=
  [.getaddrinfo (some 2), .socket (some 3), .setsockopt true, .setsockopt true, .bind false,
    .socket (some 3), .setsockopt true, .setsockopt true, .bind true,
    .setNonblocking true true, .listen true, .serve (.epAdd ⟨true, true⟩),
    .serve .epollWaitFails, .close]

theorem second_address_run_enabled :
    (runEvents mainStep (mainStart Epoll.eventLoop) secondAddressRun).isSome := by
  decide

theorem second_address_run_listeners :
    ListenersSafe ((runEvents mainStep (mainStart Epoll.eventLoop) secondAddressRun).get
      second_address_run_enabled) :=
  main_listeners Epoll.eventLoop _
    ⟨secondAddressRun, (Option.some_get second_address_run_enabled).symm⟩

end CsPrimer.ShoutServer
