import CsPrimer.SharedMemoryStream.TokenLoss

/-!
One server and one client on the shared queue, from the loops of `server.c`
and `client.c` to the end of the connection. The server puts as many numbers
as it has been asked for, the client takes as many as it wants; they are the
same if the request was received in full. Both have mapped the queue, nobody
dies, and the calls on the socket succeed. Clocks and output are left out.
-/

namespace CsPrimer.SharedMemoryStream

open Foundation

inductive Side where
  | server
  | client
  deriving DecidableEq, Repr

instance : Fintype Side where
  elems := {.server, .client}
  complete := by
    intro side
    cases side <;> decide

def toPointer (n : BitVec 32) : BitVec 64 := n.signExtend 64

def toInt (e : BitVec 64) : BitVec 32 := e.setWidth 32

theorem toInt_toPointer (n : BitVec 32) : toInt (toPointer n) = n := by
  unfold toInt toPointer
  ext i hi
  rw [BitVec.getElem_setWidth, BitVec.getLsbD_signExtend]
  simp only [show i < 64 by omega, hi, decide_true, Bool.true_and, if_true]
  exact BitVec.getLsbD_eq_getElem hi

/-- The statement of `main` a side is at, when no put or take is under way. -/
inductive ServerPoint where
  | sending
  | disconnected
  | ended
  | closed
  deriving DecidableEq, Repr

/-- The `recv` behind the loop of the client belongs to `receiving`. -/
inductive ClientPoint where
  | receiving
  | received
  | closed
  | disconnected
  | destroyed
  deriving DecidableEq, Repr

/-- `i` counts the calls of put. -/
structure Server where
  i : Nat
  checksum : BitVec 32
  point : ServerPoint

/-- `i` counts the calls of take, and `received` has the values of `n`. -/
structure Client where
  i : Nat
  checksum : BitVec 32
  received : List (BitVec 32)
  point : ClientPoint

structure Stream where
  system : System Side (BitVec 64)
  server : Server
  client : Client

def serverMain (rand : Nat → BitVec 32) (max : Nat) (s : Stream) : Option Stream :=
  match s.server.point with
  | .sending =>
      if s.server.i < max then
        let n := rand s.server.i
        match step s.system (.call .server (.put (toPointer n))) with
        | none => none
        | some system =>
            some { s with
              system := system
              server := ⟨s.server.i + 1, s.server.checksum ^^^ n, .sending⟩ }
      else some { s with server := { s.server with point := .disconnected } }
  | .disconnected => some { s with server := { s.server with point := .ended } }
  | .ended => some { s with server := { s.server with point := .closed } }
  | .closed => none

/-- The server has sent its last message, so that `recv` returns. -/
def ServerPoint.hasEnded : ServerPoint → Bool
  | .sending | .disconnected => false
  | .ended | .closed => true

def clientMain (max : Nat) (s : Stream) : Option Stream :=
  match s.client.point with
  | .receiving =>
      if s.client.i < max then
        match step s.system (.call .client .take) with
        | none => none
        | some system =>
            some { s with system := system, client := { s.client with i := s.client.i + 1 } }
      else if s.server.point.hasEnded then
        some { s with client := { s.client with point := .received } }
      else none
  | .received => some { s with client := { s.client with point := .closed } }
  | .closed => some { s with client := { s.client with point := .disconnected } }
  | .disconnected => some { s with client := { s.client with point := .destroyed } }
  | .destroyed => none

/-- The rest of the loop's body, once a take is back in `main`. -/
def Client.afterStatement (c : Client) :
    Point (BitVec 64) → Point (BitVec 64) → Client
  | .takePost e, .idle =>
      { c with
        checksum := c.checksum ^^^ toInt e
        received := c.received ++ [toInt e] }
  | _, _ => c

/-- A side goes on by one statement, of `main` or of the call it is in. -/
def streamStep (rand : Nat → BitVec 32) (toSend toReceive : Nat) (s : Stream) :
    Side → Option Stream
  | .server =>
      match s.system.pc .server with
      | .idle => serverMain rand toSend s
      | _ =>
          match advance s.system .server with
          | none => none
          | some system => some { s with system := system }
  | .client =>
      match s.system.pc .client with
      | .idle => clientMain toReceive s
      | point =>
          match advance s.system .client with
          | none => none
          | some system =>
              some { s with
                system := system
                client := s.client.afterStatement point (system.pc .client) }

def streamStart (queue : ShmBlockingQueue Side (BitVec 64)) : Stream where
  system := start queue
  server := ⟨0, 0, .sending⟩
  client := ⟨0, 0, [], .receiving⟩

variable {V : Type}

def Side.runs : Side → Point V → Bool
  | _, .idle => true
  | .server, .putWait _ | .server, .putLock _ | .server, .putConsistent _
  | .server, .putStore _ | .server, .putAdvance _ | .server, .putUnlock
  | .server, .putPost => true
  | .client, .takeWait | .client, .takeLock | .client, .takeConsistent
  | .client, .takeLoad | .client, .takeAdvance _ | .client, .takeUnlock _
  | .client, .takePost _ => true
  | _, _ => false

/-- The value of a put that is not yet committed. -/
def putting : Point V → List V
  | .putWait e | .putLock e | .putConsistent e | .putStore e | .putAdvance e => [e]
  | _ => []

/-- The value of a take that is committed and has not returned. -/
def taking : Point V → List V
  | .takeUnlock e | .takePost e => [e]
  | _ => []

/-- What a call returns with the statement. -/
def returning : Point V → List V
  | .takePost e => [e]
  | _ => []

theorem putting_client {point : Point V} (h : Side.client.runs point = true) :
    putting point = [] := by
  cases point <;> first | rfl | cases h

theorem taking_server {point : Point V} (h : Side.server.runs point = true) :
    taking point = [] := by
  cases point <;> first | rfl | cases h

theorem returning_server {point : Point V} (h : Side.server.runs point = true) :
    returning point = [] := by
  cases point <;> first | rfl | cases h

/-- The queue between a server that has asked for `sent` to be put and a client
to whom `received` has been returned. No token is lost, so the elements in the
semaphore and with a side are those that are put and not taken. -/
structure Paired (cap initial : Nat) (sent received : List V) (s : System Side V) :
    Prop where
  accounted : Accounted cap initial 0 s
  runs : ∀ side : Side, side.runs (s.pc side) = true
  element : s.queue.semElement + tokens elementHeld s.pc + s.history.takes.length =
    s.history.puts.length
  puts : s.history.puts ++ putting (s.pc .server) = sent
  takes : s.history.takes = received ++ taking (s.pc .client)
  positive : s.history.puts ≠ [] → 0 < initial

variable {cap initial : Nat} {sent received : List V} {s next : System Side V}
  {side : Side} {old point : Point V}

theorem start_paired {platform : Platform} {zero : V} {queue : ShmBlockingQueue Side V}
    (hinit : shmBlockingQueueInit platform zero cap = some queue) :
    Paired cap (cap % 2 ^ 32) [] [] (start queue) where
  accounted := start_accounted hinit
  runs := by
    intro side
    cases side <;> rfl
  element := by
    have helement := (start_bounded hinit).element
    simp only [start, History.empty, List.length_nil] at helement ⊢
    omega
  puts := rfl
  takes := rfl
  positive := fun h => absurd rfl h

theorem tokens_sides (weight : Point V → Nat) (pc : Side → Point V) :
    tokens weight pc = weight (pc .server) + weight (pc .client) := by
  unfold tokens
  exact Finset.sum_pair (by decide)

/-- A step inside a call: it commits at most the value of the put, or the one
the take is going to return. -/
theorem Paired.goto (h : Paired cap initial sent received s) (hpc : s.pc side = old)
    {queue : ShmBlockingQueue Side V} {history : History V}
    (haccounted : Accounted cap initial 0 (s.goto side point queue history))
    (hruns : ∀ side : Side, side.runs old = true → side.runs point = true)
    (helement : queue.semElement + elementHeld point + history.takes.length +
        s.history.puts.length =
      s.queue.semElement + elementHeld old + s.history.takes.length + history.puts.length)
    (hputs : history.puts ++ putting point = s.history.puts ++ putting old)
    (htakes : ∀ earlier, s.history.takes = earlier ++ taking old →
      history.takes = earlier ++ returning old ++ taking point)
    (hcommit : history.puts = s.history.puts ∨ held old = 1) :
    Paired cap initial sent (received ++ returning old)
      (s.goto side point queue history) := by
  have hold := h.runs side
  rw [hpc] at hold
  have hpoint := hruns side hold
  have hmoved := tokens_update elementHeld hpc point
  have hbefore := h.element
  refine ⟨haccounted, ?_, ?_, ?_, ?_, ?_⟩
  · intro other
    simp only [QueueSystem.goto]
    rcases eq_or_ne other side with rfl | hne
    · rwa [Function.update_self]
    · rw [Function.update_of_ne hne]
      exact h.runs other
  · simp only [QueueSystem.goto]
    omega
  · have hsent := h.puts
    cases side with
    | server =>
        rw [hpc] at hsent
        simp only [QueueSystem.goto, Function.update_self]
        rw [hputs, hsent]
    | client =>
        rw [putting_client hold, putting_client hpoint, List.append_nil,
          List.append_nil] at hputs
        simp only [QueueSystem.goto]
        rwa [Function.update_of_ne (by decide), hputs]
  · have hreceived := h.takes
    cases side with
    | client =>
        rw [hpc] at hreceived
        simp only [QueueSystem.goto, Function.update_self]
        exact htakes received hreceived
    | server =>
        have hsame := htakes s.history.takes (by rw [taking_server hold, List.append_nil])
        rw [returning_server hold, taking_server hpoint, List.append_nil,
          List.append_nil] at hsame
        simp only [QueueSystem.goto]
        rw [Function.update_of_ne (by decide), hsame, returning_server hold,
          List.append_nil]
        exact hreceived
  · intro hputs
    rcases hcommit with hsame | hheld
    · exact h.positive (hsame ▸ hputs)
    · have hle := weight_le_tokens held hpc
      have hsum := h.accounted.sum
      omega

theorem Paired.advance (h : Paired cap initial sent received s)
    (hnext : SharedMemoryStream.advance s side = some next) :
    Paired cap initial sent (received ++ returning (s.pc side)) next := by
  have haccounted := h.accounted.advance hnext
  cases statement_of_advance hnext with
  | fails hfails => exact absurd hfails h.accounted.not_callFails
  | putWait hpc _ | putConsistent hpc _ | putStore hpc | putUnlock hpc _ | takeConsistent hpc _
  | takeLoad hpc | takeUnlock hpc _ =>
      rw [hpc]
      refine h.goto hpc haccounted ?_ rfl rfl (by simp [taking, returning]) (.inl rfl)
      intro side hside
      cases side <;> first | rfl | cases hside
  | @putLock _ result _ hpc _ | @takeLock result _ hpc _ =>
      rw [hpc]
      refine h.goto hpc haccounted ?_ ?_ ?_ ?_ (.inl rfl)
      · intro side hside
        cases side <;> cases result <;> first | rfl | cases hside
      all_goals cases result <;> simp [afterLock, elementHeld, QueuePoint.stage, Point.stage,
        Stage.elementHeld, putting, taking, returning]
  | putAdvance hpc =>
      rw [hpc]
      refine h.goto hpc haccounted ?_ ?_ ?_ (by simp [History.put, taking, returning]) (.inr rfl)
      · intro side hside
        cases side <;> first | rfl | cases hside
      · simp only [History.put, List.length_append, List.length_singleton, elementHeld,
          QueuePoint.stage, Point.stage, Stage.elementHeld]
        omega
      · simp [History.put, putting]
  | takeAdvance hpc =>
      rw [hpc]
      refine h.goto hpc haccounted ?_ ?_ rfl ?_ (.inl rfl)
      · intro side hside
        cases side <;> first | rfl | cases hside
      · simp only [History.take, List.length_append, List.length_singleton, elementHeld,
          QueuePoint.stage, Point.stage, Stage.elementHeld]
        omega
      · simp [History.take, taking, returning]
  | putPost hpc hpost =>
      rw [hpc]
      refine h.goto hpc haccounted ?_ ?_ rfl (by simp [taking, returning]) (.inl rfl)
      · intro side hside
        cases side <;> rfl
      · rw [semPost_eq hpost]
        simp only [elementHeld, QueuePoint.stage, Point.stage, Stage.elementHeld]
  | takeWait hpc hwait =>
      rw [hpc]
      refine h.goto hpc haccounted ?_ ?_ rfl (by simp [taking, returning]) (.inl rfl)
      · intro side hside
        cases side <;> first | rfl | cases hside
      · rw [semWait_eq hwait]
        simp only [elementHeld, QueuePoint.stage, Point.stage, Stage.elementHeld]
  | takePost hpc _ =>
      rw [hpc]
      refine h.goto hpc haccounted ?_ rfl rfl (by simp [taking, returning]) (.inl rfl)
      intro side hside
      cases side <;> rfl

/-- A side that is idle makes its next call. -/
theorem Paired.call (h : Paired cap initial sent received s) (hpc : s.pc side = .idle)
    (op : Call V) (hside : side.runs op.entry = true) :
    Paired cap initial (sent ++ putting op.entry) received
      (s.goto side op.entry s.queue s.history) := by
  have hnext : step s (.call side op) = some (s.goto side op.entry s.queue s.history) := by
    simp only [step, hpc]
  have hmoved := tokens_update elementHeld hpc op.entry
  have helement := h.element
  have hsent := h.puts
  have hreceived := h.takes
  refine ⟨h.accounted.step hnext, ?_, ?_, ?_, ?_, h.positive⟩
  · intro other
    simp only [QueueSystem.goto]
    rcases eq_or_ne other side with rfl | hne
    · rwa [Function.update_self]
    · rw [Function.update_of_ne hne]
      exact h.runs other
  · cases op <;>
      simp only [QueueSystem.goto, Call.entry, elementHeld, QueuePoint.stage, Point.stage,
        Stage.elementHeld] at hmoved ⊢ <;>
      omega
  · cases side with
    | server =>
        have hnone : putting (.idle : Point V) = [] := rfl
        rw [hpc, hnone, List.append_nil] at hsent
        simp only [QueueSystem.goto, Function.update_self]
        rw [hsent]
    | client =>
        simp only [QueueSystem.goto]
        rwa [Function.update_of_ne (by decide), putting_client hside, List.append_nil]
  · cases side with
    | server =>
        simp only [QueueSystem.goto]
        rwa [Function.update_of_ne (by decide)]
    | client =>
        rw [hpc] at hreceived
        cases op with
        | put e => cases hside
        | take =>
            simp only [QueueSystem.goto, Function.update_self]
            exact hreceived

/-- The tail belongs to the server, and the head to the client. -/
theorem Paired.mutexTail_free (h : Paired cap initial sent received s)
    (houtside : inTail (s.pc .server) = false) : s.queue.mutexTail.owner = none := by
  apply h.accounted.bounded.tail_mutex.owner_eq_none
  intro side
  cases side with
  | server => exact houtside
  | client =>
      have hruns := h.runs .client
      cases hpc : s.pc .client <;> rw [hpc] at hruns <;> first | rfl | cases hruns

theorem Paired.mutexHead_free (h : Paired cap initial sent received s)
    (houtside : inHead (s.pc .client) = false) : s.queue.mutexHead.owner = none := by
  apply h.accounted.bounded.head_mutex.owner_eq_none
  intro side
  cases side with
  | client => exact houtside
  | server =>
      have hruns := h.runs .server
      cases hpc : s.pc .server <;> rw [hpc] at hruns <;> first | rfl | cases hruns

/-- A server that does not go on waits for a space. -/
theorem Paired.server_blocked (h : Paired cap initial sent received s)
    (hbusy : s.pc .server ≠ .idle) (hblocked : SharedMemoryStream.advance s .server = none) :
    (∃ e, s.pc .server = .putWait e) ∧ s.queue.semSpace = 0 := by
  have hruns := h.runs .server
  cases hpc : s.pc .server with
  | idle => exact absurd hpc hbusy
  | putWait e =>
      simp only [SharedMemoryStream.advance, hpc] at hblocked
      split at hblocked
      · rename_i hwait
        exact ⟨⟨e, rfl⟩, semWait_eq_none hwait⟩
      · cases hblocked
  | putLock e =>
      have hfree := h.mutexTail_free (by rw [hpc]; rfl)
      simp only [SharedMemoryStream.advance, hpc] at hblocked
      split at hblocked
      · rename_i hlock
        exact absurd hlock (RobustMutex.lock_ne_none hfree)
      · cases hblocked
  | putConsistent e | putUnlock | putPost =>
      simp only [SharedMemoryStream.advance, hpc] at hblocked
      split at hblocked <;> cases hblocked
  | putStore e | putAdvance e =>
      simp only [SharedMemoryStream.advance, hpc] at hblocked
      cases hblocked
  | _ =>
      rw [hpc] at hruns
      cases hruns

theorem Paired.client_blocked (h : Paired cap initial sent received s)
    (hbusy : s.pc .client ≠ .idle) (hblocked : SharedMemoryStream.advance s .client = none) :
    s.pc .client = .takeWait ∧ s.queue.semElement = 0 := by
  have hruns := h.runs .client
  cases hpc : s.pc .client with
  | idle => exact absurd hpc hbusy
  | takeWait =>
      simp only [SharedMemoryStream.advance, hpc] at hblocked
      split at hblocked
      · rename_i hwait
        exact ⟨rfl, semWait_eq_none hwait⟩
      · cases hblocked
  | takeLock =>
      have hfree := h.mutexHead_free (by rw [hpc]; rfl)
      simp only [SharedMemoryStream.advance, hpc] at hblocked
      split at hblocked
      · rename_i hlock
        exact absurd hlock (RobustMutex.lock_ne_none hfree)
      · cases hblocked
  | takeConsistent | takeUnlock e | takePost e =>
      simp only [SharedMemoryStream.advance, hpc] at hblocked
      split at hblocked <;> cases hblocked
  | takeLoad | takeAdvance e =>
      simp only [SharedMemoryStream.advance, hpc] at hblocked
      cases hblocked
  | _ =>
      rw [hpc] at hruns
      cases hruns

def statementsLeft : Point V → Nat
  | .idle | .dead => 0
  | .putWait _ | .takeWait => 7
  | .putLock _ | .takeLock => 6
  | .putConsistent _ | .takeConsistent => 5
  | .putStore _ | .takeLoad => 4
  | .putAdvance _ | .takeAdvance _ => 3
  | .putUnlock | .takeUnlock _ => 2
  | .putPost | .takePost _ => 1

/-- Every statement moves its side only, towards the end of the call. -/
theorem Paired.advance_lowers (h : Paired cap initial sent received s)
    (hnext : SharedMemoryStream.advance s side = some next) :
    ∃ point, next.pc = Function.update s.pc side point ∧
      statementsLeft point < statementsLeft (s.pc side) := by
  cases statement_of_advance hnext with
  | fails hfails => exact absurd hfails h.accounted.not_callFails
  | @putLock _ result _ hpc _ | @takeLock result _ hpc _ =>
      refine ⟨_, rfl, ?_⟩
      rw [hpc]
      cases result <;> simp [afterLock, statementsLeft]
  | putWait hpc _ | putConsistent hpc _ | putStore hpc | putAdvance hpc | putUnlock hpc _
  | putPost hpc _ | takeWait hpc _ | takeConsistent hpc _ | takeLoad hpc | takeAdvance hpc
  | takeUnlock hpc _ | takePost hpc _ =>
      refine ⟨_, rfl, ?_⟩
      rw [hpc]
      simp only [statementsLeft]
      omega

/-- A take returns with its last statement, and only then. -/
theorem Paired.take_returns (h : Paired cap initial sent received s)
    (hnext : SharedMemoryStream.advance s .client = some next) :
    (∃ e, s.pc .client = .takePost e ∧ next.pc .client = .idle) ∨
      (returning (s.pc .client) = [] ∧ next.pc .client ≠ .idle) := by
  have hruns := h.runs .client
  cases statement_of_advance hnext with
  | fails hfails => exact absurd hfails h.accounted.not_callFails
  | takePost hpc _ =>
      refine .inl ⟨_, hpc, ?_⟩
      simp only [QueueSystem.goto, Function.update_self]
  | @takeLock result _ hpc _ =>
      refine .inr ⟨by rw [hpc]; rfl, ?_⟩
      simp only [QueueSystem.goto, Function.update_self]
      cases result <;> simp [afterLock]
  | takeWait hpc _ | takeConsistent hpc _ | takeLoad hpc | takeAdvance hpc
  | takeUnlock hpc _ =>
      refine .inr ⟨by rw [hpc]; rfl, ?_⟩
      simp only [QueueSystem.goto, Function.update_self]
      simp
  | putWait hpc _ | putLock hpc _ | putConsistent hpc _ | putStore hpc | putAdvance hpc
  | putUnlock hpc _ | putPost hpc _ =>
      rw [hpc] at hruns
      cases hruns

end CsPrimer.SharedMemoryStream
