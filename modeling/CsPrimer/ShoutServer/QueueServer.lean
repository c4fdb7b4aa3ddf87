import CsPrimer.Foundation.Heap
import CsPrimer.ShoutServer.EventLoops

/-!
The whole of `queue`: its descriptors, the filters registered with the kqueue,
and its buffers. As in the model of `poll`, a step is one call of `kq_change`
or `kevent`, one pass of the accept loop, or what a client's handler does
between two system calls, and `fault` is the use of something not live. In the
socket events that `kevent` returns, `fflags` is an error number, which has
neither the `EV_EOF` nor the `EV_ERROR` bit; this is taken for granted for the
listening sockets only.
-/

namespace CsPrimer.ShoutServer.Kqueue

open Foundation

def EV_ADD : BitVec 16 := 0x0001
def EV_DELETE : BitVec 16 := 0x0002
def EV_ENABLE : BitVec 16 := 0x0004
def EV_DISABLE : BitVec 16 := 0x0008
def EV_KEEPUDATA : BitVec 16 := 0x0200

structure Knote where
  enabled : Bool
  udata : Option Nat
  deriving DecidableEq, Repr

structure Process where
  fds : Descriptors
  knotes : Nat → Int → Option Knote
  buffers : Heap (Connection QueuePoint)

def Process.setKnote (p : Process) (fd : Nat) (filter : Int)
    (note : Option Knote) : Process :=
  let notes := Function.update (p.knotes fd) filter note
  { p with knotes := Function.update p.knotes fd notes }

/-- What a change makes of a filter. `none` is the error `ENOENT`. -/
def changeKnote (flags : BitVec 16) (udata : Option Nat) :
    Option Knote → Option (Option Knote)
  | none =>
      if flags &&& EV_ADD = 0 then none
      else some (some ⟨flags &&& EV_DISABLE = 0, udata⟩)
  | some note =>
      if flags &&& EV_DELETE ≠ 0 then some none
      else some (some {
        enabled := flags &&& EV_DISABLE = 0 ∧
          (flags &&& EV_ENABLE ≠ 0 ∨ note.enabled)
        udata := if flags &&& EV_KEEPUDATA ≠ 0 then note.udata else udata })

/-- `kq_change` and what it returns. `failed` is for other errors than
`ENOENT`. -/
def kqChange (p : Process) (fd : Nat) (filter : Int) (flags : BitVec 16)
    (udata : Option Nat) (failed : Bool) : Int × Process :=
  if failed then (-1, p)
  else
    match changeKnote flags udata (p.knotes fd filter) with
    | none => (-1, p)
    | some note => (0, p.setKnote fd filter note)

/-- `close`. The kernel also drops the filters of the descriptor. -/
def Process.close (p : Process) (fd : Nat) : Option Process := do
  let fds ← p.fds.close fd
  some { p with
    fds := fds
    knotes := Function.update p.knotes fd fun _ => none }

/-- `cleanup`. The results of the two changes are ignored. -/
def cleanup (p : Process) (fd : Nat) (buf : Option Nat) : Option Process := do
  let (_, p) := kqChange p fd EVFILT_READ EV_DELETE none false
  let (_, p) := kqChange p fd EVFILT_WRITE EV_DELETE none false
  let p ← p.close fd
  match buf with
  | none => some p
  | some buf => (p.buffers.free buf).map fun buffers => { p with buffers := buffers }

structure AcceptCalls where
  setNonblocking : Bool
  calloc : Bool
  kqChange : Bool
  deriving DecidableEq, Repr

/-- The rest of the accept loop's body, and whether the loop goes on. When
`calloc` fails the descriptor is left open. -/
def accepted (p : Process) (fd : Nat) (calls : AcceptCalls) :
    Option (Bool × Process) :=
  if calls.setNonblocking = false then do
    let p ← p.close fd
    some (false, p)
  else if calls.calloc = false then some (false, p)
  else do
    let buf := p.buffers.next
    let buffers := p.buffers.alloc (Connection.accepted .wait)
    let (code, p) := kqChange { p with buffers := buffers } fd EVFILT_READ
      (EV_ADD ||| EV_ENABLE) (some buf) (!calls.kqChange)
    if code < 0 then do
      let p ← p.close fd
      let p ← (p.buffers.free buf).map fun buffers => { p with buffers := buffers }
      some (false, p)
    else some (true, p)

structure KEvent where
  ident : Nat
  filter : Int
  fflags : BitVec 32
  udata : Option Nat
  deriving DecidableEq, Repr

/-- Where `queue` is: at `kq_change` for a listening socket, at `kevent`, at
the rest of a batch, at `accept`, at a call for a client, or at `end`. -/
inductive Control where
  | setup (lsockfds : List Nat)
  | wait
  | batch (evs : List KEvent)
  | accept (fd : Nat) (evs : List KEvent)
  | client (fd buf : Nat) (evs : List KEvent)
  | closeQueue
  | returned (code : Int)
  | fault
  deriving DecidableEq, Repr

structure Server where
  control : Control
  process : Process

def setupFrom : List Nat → Control
  | [] => .wait
  | lsockfds => .setup lsockfds

def start (lsockfds : List Nat) : Server where
  control := setupFrom lsockfds
  process := ⟨Descriptors.empty, fun _ _ => none, Heap.empty⟩

structure Report where
  ident : Nat
  filter : Int
  fflags : BitVec 32
  deriving DecidableEq, Repr

inductive Event where
  | kqChange (failed : Bool)
  | kevent (reports : List Report)
  | keventFails
  | next
  | accept (fd : Nat) (calls : AcceptCalls)
  | acceptFails
  | client (event : QueueEvent)
  | closeQueue
  deriving DecidableEq, Repr

def plain (fflags : BitVec 32) : Bool :=
  fflags &&& EV_EOF = 0 ∧ fflags &&& EV_ERROR = 0

/-- An enabled filter is returned with its user data. -/
def harvestOne (lsockfds : List Nat) (p : Process) (report : Report) :
    Option KEvent := do
  let note ← p.knotes report.ident report.filter
  if note.enabled ∧ (report.ident ∈ lsockfds → plain report.fflags) then
    some ⟨report.ident, report.filter, report.fflags, note.udata⟩
  else none

def harvest (lsockfds : List Nat) (p : Process) :
    List Report → Option (List KEvent)
  | [] => some []
  | report :: reports => do
      let ev ← harvestOne lsockfds p report
      let evs ← harvest lsockfds p reports
      some (ev :: evs)

/-- The handler of a client has come to the next call, or to its end, where
it goes on with `cleaned` after a cleanup. -/
def settle (p : Process) (fd buf : Nat) (evs : List KEvent) (cleaned : Control)
    (c : Connection QueuePoint) : Option Server := do
  let buffers ← p.buffers.store buf c
  let p := { p with buffers := buffers }
  match c.point with
  | .wait => some ⟨.batch evs, p⟩
  | .cleaned => do
      let p ← cleanup p fd (some buf)
      some ⟨cleaned, p⟩
  | _ => some ⟨.client fd buf evs, p⟩

/-- One entry of the batch. A client's event that neither of the two branches
takes leads to `goto end`. -/
def dispatch (lsockfds : List Nat) (p : Process) (ev : KEvent)
    (evs : List KEvent) : Option Server :=
  if plain ev.fflags = false then do
    let p ← cleanup p ev.ident ev.udata
    some ⟨.batch evs, p⟩
  else if ev.ident ∈ lsockfds then some ⟨.accept ev.ident evs, p⟩
  else do
    let buf ← ev.udata
    let c ← p.buffers.cell buf
    settle p ev.ident buf evs .closeQueue (queueDispatch c ev.filter ev.fflags)

/-- The change of a filter that a handler is at. -/
def filterChange (buf : Nat) :
    QueuePoint → Option (Int × BitVec 16 × Option Nat)
  | .disableWrite => some (EVFILT_WRITE, EV_DISABLE ||| EV_KEEPUDATA, none)
  | .enableRead => some (EVFILT_READ, EV_ENABLE ||| EV_KEEPUDATA, none)
  | .disableRead => some (EVFILT_READ, EV_DISABLE ||| EV_KEEPUDATA, none)
  | .addWrite => some (EVFILT_WRITE, EV_ADD ||| EV_ENABLE, some buf)
  | _ => none

/-- A call for a client, with what it does to the filters. -/
def callFor (p : Process) (fd buf : Nat) (c : Connection QueuePoint) :
    QueueEvent → Option (Process × Connection QueuePoint)
  | .kqChange failed => do
      let (filter, flags, udata) ← filterChange buf c.point
      let (code, p) := kqChange p fd filter flags udata failed
      let c ← queue c (.kqChange (code < 0))
      some (p, c)
  | .wait _ _ => none
  | event => do
      let c ← queue c event
      some (p, c)

/-- The connection whose handler is at a call, if all that the call uses is
live. -/
def handled (p : Process) (fd buf : Nat) : Option (Connection QueuePoint) := do
  let _ ← p.fds.table fd
  p.buffers.cell buf

def Server.orFault (s : Server) (next : Option Server) : Server :=
  next.getD { s with control := .fault }

def step (lsockfds : List Nat) (s : Server) (event : Event) : Option Server :=
  match s.control, event with
  | .setup (fd :: rest), .kqChange failed =>
      let (code, p) := kqChange s.process fd EVFILT_READ (EV_ADD ||| EV_ENABLE)
        none failed
      some ⟨if code < 0 then .returned 5 else setupFrom rest, p⟩
  | .wait, .kevent reports =>
      if reports.length ≤ maxEvents ∧
          (reports.map fun report => (report.ident, report.filter)).Nodup then do
        let evs ← harvest lsockfds s.process reports
        some { s with control := .batch evs }
      else none
  | .wait, .keventFails => some { s with control := .returned 6 }
  | .batch [], .next => some { s with control := .wait }
  | .batch (ev :: evs), .next =>
      some (s.orFault (dispatch lsockfds s.process ev evs))
  | .accept listener evs, .accept fd calls =>
      -- A listening socket is open, so its number is not given out.
      if fd ∈ lsockfds then none
      else do
        let fds ← s.process.fds.open fd
        some <| s.orFault do
          let (again, p) ← accepted { s.process with fds := fds } fd calls
          some ⟨if again then .accept listener evs else .batch evs, p⟩
  | .accept _ evs, .acceptFails => some { s with control := .batch evs }
  | .client fd buf evs, .client event =>
      match handled s.process fd buf with
      | none => some { s with control := .fault }
      | some c => do
          let (p, c) ← callFor s.process fd buf c event
          some (s.orFault (settle p fd buf evs (.batch evs) c))
  | .closeQueue, .closeQueue =>
      let p := { s.process with knotes := fun _ _ => none }
      some ⟨.returned 0, p⟩
  | _, _ => none

end CsPrimer.ShoutServer.Kqueue
