import CsPrimer.Foundation.Heap
import CsPrimer.ShoutServer.EventLoops

/-!
The whole of `poll`: its descriptors, the interest list of epoll, and what it
allocates. A step is one call of `ep_add` or `epoll_wait`, one pass of the
accept loop, or what a client's handler does between two system calls. To use
or to give back something that is not live leads to `fault`. A registered
buffer is kept with its connection, so that the handler of a client is the
`poll` of the connection.
-/

namespace CsPrimer.ShoutServer.Epoll

open Foundation

structure UserData where
  fd : Nat
  buffer : Option Nat

structure Process where
  fds : Descriptors
  interest : Nat → Option Nat
  userData : Heap UserData
  buffers : Heap (Connection PollPoint)

/-- `close`. The kernel also drops the descriptor from the interest list. -/
def Process.close (p : Process) (fd : Nat) : Option Process := do
  let fds ← p.fds.close fd
  some { p with fds := fds, interest := Function.update p.interest fd none }

structure EpAddCalls where
  calloc : Bool
  epollCtl : Bool
  deriving DecidableEq, Repr

/-- `ep_add` and what it returns. `epoll_ctl` refuses a descriptor that is
registered already. -/
def epAdd (p : Process) (fd : Nat) (buf : Option Nat) (calls : EpAddCalls) :
    Option (Int × Process) :=
  if calls.calloc = false then some (-1, p)
  else
    let pud := p.userData.next
    let p := { p with userData := p.userData.alloc ⟨fd, buf⟩ }
    if calls.epollCtl = false ∨ (p.interest fd).isSome then do
      let p ← (p.userData.free pud).map fun userData => { p with userData := userData }
      some (-3, p)
    else
      let interest := Function.update p.interest fd (some pud)
      some (0, { p with interest := interest })

def cleanup (p : Process) (pud : Nat) : Option Process := do
  let data ← p.userData.cell pud
  let p := { p with interest := Function.update p.interest data.fd none }
  let p ← p.close data.fd
  let p ←
    match data.buffer with
    | none => some p
    | some buf => (p.buffers.free buf).map fun buffers => { p with buffers := buffers }
  (p.userData.free pud).map fun userData => { p with userData := userData }

structure AcceptCalls where
  setNonblocking : Bool
  calloc : Bool
  epAdd : EpAddCalls
  deriving DecidableEq, Repr

/-- The rest of the accept loop's body, and whether the loop goes on. -/
def accepted (p : Process) (fd : Nat) (calls : AcceptCalls) :
    Option (Bool × Process) :=
  if calls.setNonblocking = false then do
    let p ← p.close fd
    some (false, p)
  else if calls.calloc = false then do
    let p ← p.close fd
    some (false, p)
  else do
    let buf := p.buffers.next
    let buffers := p.buffers.alloc (Connection.accepted .wait)
    let (code, p) ← epAdd { p with buffers := buffers } fd (some buf) calls.epAdd
    if code < 0 then do
      let p ← (p.buffers.free buf).map fun buffers => { p with buffers := buffers }
      let p ← p.close fd
      some (false, p)
    else some (true, p)

/-- Where `poll` is: at `ep_add` for a listening socket, at `epoll_wait`, at
the rest of a batch, at `accept`, at a call for a client, or at `end`. -/
inductive Control where
  | setup (lsockfds : List Nat)
  | wait
  | batch (evs : List (BitVec 32 × Nat))
  | accept (pud : Nat) (evs : List (BitVec 32 × Nat))
  | client (ev : BitVec 32) (pud buf : Nat) (evs : List (BitVec 32 × Nat))
  | closeEpoll
  | returned (code : Int)
  | fault
  deriving DecidableEq, Repr

structure Server where
  control : Control
  process : Process

def setupFrom : List Nat → Control
  | [] => .wait
  | lsockfds => .setup lsockfds

def start (lsockfds : List Nat) : Server where
  control := setupFrom lsockfds
  process := ⟨Descriptors.empty, fun _ => none, Heap.empty, Heap.empty⟩

inductive Event where
  | epAdd (calls : EpAddCalls)
  | epollWait (reports : List (BitVec 32 × Nat))
  | epollWaitFails
  | next
  | accept (fd : Nat) (calls : AcceptCalls)
  | acceptFails
  | client (event : PollEvent)
  | closeEpoll
  deriving DecidableEq, Repr

/-- The entries of `evs`: the masks with the user data as registered. -/
def harvest (interest : Nat → Option Nat) :
    List (BitVec 32 × Nat) → Option (List (BitVec 32 × Nat))
  | [] => some []
  | (ev, fd) :: reports => do
      let pud ← interest fd
      let evs ← harvest interest reports
      some ((ev, pud) :: evs)

/-- The mask leads to `goto end`. -/
def unknown (ev : BitVec 32) : Bool :=
  ev &&& EPOLLRDHUP = 0 ∧ ev &&& EPOLLHUP = 0 ∧ ev &&& EPOLLIN = 0 ∧
    ev &&& EPOLLOUT = 0

/-- The handler of a client has come to the next call, or to its end. -/
def settle (p : Process) (ev : BitVec 32) (pud buf : Nat)
    (evs : List (BitVec 32 × Nat)) (c : Connection PollPoint) :
    Option Server := do
  let buffers ← p.buffers.store buf c
  let p := { p with buffers := buffers }
  match c.point with
  | .wait => some ⟨.batch evs, p⟩
  | .cleaned => do
      let p ← cleanup p pud
      some ⟨if unknown ev then .closeEpoll else .batch evs, p⟩
  | _ => some ⟨.client ev pud buf evs, p⟩

def dispatch (lsockfds : List Nat) (p : Process) (ev : BitVec 32) (pud : Nat)
    (evs : List (BitVec 32 × Nat)) : Option Server := do
  let data ← p.userData.cell pud
  if data.fd ∈ lsockfds then some ⟨.accept pud evs, p⟩
  else do
    let buf ← data.buffer
    let c ← p.buffers.cell buf
    settle p ev pud buf evs (pollDispatch c ev)

/-- The connection whose handler is at a call, if all that the call uses is
live. -/
def handled (p : Process) (pud buf : Nat) : Option (Connection PollPoint) := do
  let data ← p.userData.cell pud
  let _ ← p.fds.table data.fd
  p.buffers.cell buf

def Server.orFault (s : Server) (next : Option Server) : Server :=
  next.getD { s with control := .fault }

def step (lsockfds : List Nat) (s : Server) (event : Event) : Option Server :=
  match s.control, event with
  | .setup (fd :: rest), .epAdd calls =>
      some <| s.orFault do
        let (code, p) ← epAdd s.process fd none calls
        some ⟨if code < 0 then .returned 5 else setupFrom rest, p⟩
  | .wait, .epollWait reports =>
      if reports.length ≤ maxEvents ∧ (reports.map Prod.snd).Nodup then do
        let evs ← harvest s.process.interest reports
        some { s with control := .batch evs }
      else none
  | .wait, .epollWaitFails => some { s with control := .returned 6 }
  | .batch [], .next => some { s with control := .wait }
  | .batch ((ev, pud) :: evs), .next =>
      some (s.orFault (dispatch lsockfds s.process ev pud evs))
  | .accept pud evs, .accept fd calls =>
      -- A listening socket is open, so its number is not given out.
      if fd ∈ lsockfds then none
      else do
        let fds ← s.process.fds.open fd
        some <| s.orFault do
          let _ ← s.process.userData.cell pud
          let (again, p) ← accepted { s.process with fds := fds } fd calls
          some ⟨if again then .accept pud evs else .batch evs, p⟩
  | .accept pud evs, .acceptFails =>
      some <| s.orFault do
        let _ ← s.process.userData.cell pud
        some { s with control := .batch evs }
  | .client ev pud buf evs, .client event =>
      match handled s.process pud buf with
      | none => some { s with control := .fault }
      | some c => do
          let c ← poll c event
          some (s.orFault (settle s.process ev pud buf evs c))
  | .closeEpoll, .closeEpoll =>
      let p := { s.process with interest := fun _ => none }
      some ⟨.returned 0, p⟩
  | _, _ => none

end CsPrimer.ShoutServer.Epoll
