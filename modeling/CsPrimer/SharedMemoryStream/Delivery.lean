import CsPrimer.Foundation.Completion
import CsPrimer.SharedMemoryStream.Handshake
import CsPrimer.SharedMemoryStream.Stream

/-!
What a connection does as a whole. Whatever the order of the statements, server
and client come to their ends if the client wants no more than the server
sends, and the queue takes up the rest; the client has then received what was
sent first, in order. The queue is destroyed when neither side uses it.
-/

namespace CsPrimer.SharedMemoryStream

open Foundation

/-- What both sides make of their numbers. -/
def xorAll (numbers : List (BitVec 32)) : BitVec 32 := numbers.foldl (· ^^^ ·) 0

def numbers (rand : Nat → BitVec 32) (count : Nat) : List (BitVec 32) :=
  (List.range count).map rand

theorem numbers_succ (rand : Nat → BitVec 32) (count : Nat) :
    numbers rand (count + 1) = numbers rand count ++ [rand count] := by
  simp [numbers, List.range_succ]

theorem xorAll_append_singleton (numbers : List (BitVec 32)) (n : BitVec 32) :
    xorAll (numbers ++ [n]) = xorAll numbers ^^^ n := by
  simp [xorAll]

theorem numbers_take (rand : Nat → BitVec 32) {count total : Nat} (h : count ≤ total) :
    (numbers rand total).take count = numbers rand count := by
  rw [numbers, ← List.map_take, List.take_range, Nat.min_eq_left h, numbers]

theorem map_toInt_toPointer (numbers : List (BitVec 32)) :
    (numbers.map toPointer).map toInt = numbers := by
  have hid : toInt ∘ toPointer = id := funext toInt_toPointer
  rw [List.map_map, hid, List.map_id]

def ServerPoint.left : ServerPoint → Nat
  | .sending => 3
  | .disconnected => 2
  | .ended => 1
  | .closed => 0

def ClientPoint.left : ClientPoint → Nat
  | .receiving => 4
  | .received => 3
  | .closed => 2
  | .disconnected => 1
  | .destroyed => 0

theorem hasEnded_of_le {point point' : ServerPoint} (hended : point.hasEnded = true)
    (hle : point'.left ≤ point.left) : point'.hasEnded = true := by
  cases point <;> cases point' <;>
    first | rfl | (exact absurd hle (by decide)) | (exact absurd hended (by decide))

inductive Move (rand : Nat → BitVec 32) (toSend toReceive : Nat) (s : Stream) :
    Stream → Prop where
  | serverCalls (hidle : s.system.pc .server = .idle) (hpoint : s.server.point = .sending)
      (hi : s.server.i < toSend) :
      Move rand toSend toReceive s
        { s with
          system := s.system.goto .server (.putWait (toPointer (rand s.server.i)))
            s.system.queue s.system.history
          server := ⟨s.server.i + 1, s.server.checksum ^^^ rand s.server.i, .sending⟩ }
  | serverPasses (point : ServerPoint) (hidle : s.system.pc .server = .idle)
      (hdone : s.server.point = .sending → toSend ≤ s.server.i)
      (hleft : point.left < s.server.point.left) :
      Move rand toSend toReceive s { s with server := { s.server with point := point } }
  | serverInside (system : System Side (BitVec 64)) (hbusy : s.system.pc .server ≠ .idle)
      (hnext : advance s.system .server = some system) :
      Move rand toSend toReceive s { s with system := system }
  | clientCalls (hidle : s.system.pc .client = .idle) (hpoint : s.client.point = .receiving)
      (hi : s.client.i < toReceive) :
      Move rand toSend toReceive s
        { s with
          system := s.system.goto .client .takeWait s.system.queue s.system.history
          client := ⟨s.client.i + 1, s.client.checksum, s.client.received, .receiving⟩ }
  | clientPasses (point : ClientPoint) (hidle : s.system.pc .client = .idle)
      (hdone : s.client.point = .receiving →
        toReceive ≤ s.client.i ∧ s.server.point.hasEnded = true)
      (hleft : point.left < s.client.point.left) :
      Move rand toSend toReceive s { s with client := { s.client with point := point } }
  | clientInside (system : System Side (BitVec 64)) (hbusy : s.system.pc .client ≠ .idle)
      (hnext : advance s.system .client = some system) :
      Move rand toSend toReceive s
        { s with
          system := system
          client := s.client.afterStatement (s.system.pc .client) (system.pc .client) }

variable {rand : Nat → BitVec 32} {toSend toReceive cap initial : Nat} {s next : Stream}
  {platform : Platform}

theorem move_of_serverMain (hidle : s.system.pc .server = .idle)
    (hnext : serverMain rand toSend s = some next) : Move rand toSend toReceive s next := by
  unfold serverMain at hnext
  cases hpoint : s.server.point with
  | sending =>
      simp only [hpoint, step, hidle] at hnext
      split at hnext <;> cases hnext
      · exact .serverCalls hidle hpoint ‹_›
      · exact .serverPasses _ hidle (fun _ => Nat.le_of_not_lt ‹_›) (by rw [hpoint]; decide)
  | disconnected | ended =>
      simp only [hpoint, Option.some.injEq] at hnext
      subst hnext
      exact .serverPasses _ hidle (by simp [hpoint]) (by rw [hpoint]; decide)
  | closed =>
      simp only [hpoint] at hnext
      cases hnext

theorem move_of_clientMain (hidle : s.system.pc .client = .idle)
    (hnext : clientMain toReceive s = some next) : Move rand toSend toReceive s next := by
  unfold clientMain at hnext
  cases hpoint : s.client.point with
  | receiving =>
      simp only [hpoint, step, hidle] at hnext
      split at hnext
      · cases hnext
        exact .clientCalls hidle hpoint ‹_›
      · split at hnext
        · cases hnext
          exact .clientPasses _ hidle (fun _ => ⟨Nat.le_of_not_lt ‹_›, ‹_›⟩)
            (by rw [hpoint]; decide)
        · cases hnext
  | received | closed | disconnected =>
      simp only [hpoint, Option.some.injEq] at hnext
      subst hnext
      exact .clientPasses _ hidle (by simp [hpoint]) (by rw [hpoint]; decide)
  | destroyed =>
      simp only [hpoint] at hnext
      cases hnext

theorem move_of_step {side : Side}
    (hnext : streamStep rand toSend toReceive s side = some next) :
    Move rand toSend toReceive s next := by
  cases side with
  | server =>
      simp only [streamStep] at hnext
      split at hnext
      · exact move_of_serverMain ‹_› hnext
      · split at hnext
        · cases hnext
        · cases hnext
          exact .serverInside _ ‹_› ‹_›
  | client =>
      simp only [streamStep] at hnext
      split at hnext
      · exact move_of_clientMain ‹_› hnext
      · split at hnext
        · cases hnext
        · cases hnext
          exact .clientInside _ ‹_› ‹_›

def underWay {V : Type} : Point V → Nat
  | .idle => 0
  | _ => 1

theorem underWay_eq_one {V : Type} {point : Point V} (h : point ≠ .idle) :
    underWay point = 1 := by
  cases point <;> first | rfl | exact absurd rfl h

/-- Both loops against the queue: what has been put are the first numbers, and
`values` have been returned. -/
structure Delivering (rand : Nat → BitVec 32) (toSend toReceive cap initial : Nat)
    (values : List (BitVec 64)) (s : Stream) : Prop where
  paired : Paired cap initial ((numbers rand s.server.i).map toPointer) values s.system
  received : s.client.received = values.map toInt
  server_checksum : s.server.checksum = xorAll (numbers rand s.server.i)
  client_checksum : s.client.checksum = xorAll s.client.received
  server_le : s.server.i ≤ toSend
  client_le : s.client.i ≤ toReceive
  client_i : s.client.i = s.client.received.length + underWay (s.system.pc .client)
  server_past : s.server.point ≠ .sending →
    s.system.pc .server = .idle ∧ s.server.i = toSend
  client_past : s.client.point ≠ .receiving → s.system.pc .client = .idle ∧
    s.client.i = toReceive ∧ s.server.point.hasEnded = true

variable {values : List (BitVec 64)}

theorem streamStart_delivering {zero : BitVec 64}
    {queue : ShmBlockingQueue Side (BitVec 64)}
    (hinit : shmBlockingQueueInit platform zero cap = some queue) :
    Delivering rand toSend toReceive cap (cap % 2 ^ 32) [] (streamStart queue) where
  paired := start_paired hinit
  received := rfl
  server_checksum := rfl
  client_checksum := rfl
  server_le := Nat.zero_le _
  client_le := Nat.zero_le _
  client_i := rfl
  server_past := fun h => absurd rfl h
  client_past := fun h => absurd rfl h

theorem Delivering.serverCalls
    (h : Delivering rand toSend toReceive cap initial values s)
    (hidle : s.system.pc .server = .idle) (hpoint : s.server.point = .sending)
    (hi : s.server.i < toSend) :
    Delivering rand toSend toReceive cap initial values
      { s with
        system := s.system.goto .server (.putWait (toPointer (rand s.server.i)))
          s.system.queue s.system.history
        server := ⟨s.server.i + 1, s.server.checksum ^^^ rand s.server.i, .sending⟩ } where
  paired := by
    have hcalled := h.paired.call hidle (.put (toPointer (rand s.server.i))) rfl
    rw [numbers_succ, List.map_append]
    exact hcalled
  received := h.received
  server_checksum := by
    simp only
    rw [numbers_succ, xorAll_append_singleton, h.server_checksum]
  client_checksum := h.client_checksum
  server_le := hi
  client_le := h.client_le
  client_i := by
    simp only [QueueSystem.goto]
    rw [Function.update_of_ne (by decide)]
    exact h.client_i
  server_past := fun hpast => absurd rfl hpast
  client_past := by
    intro hpast
    obtain ⟨hclient, hi', hended⟩ := h.client_past hpast
    rw [hpoint] at hended
    cases hended

theorem Delivering.serverPasses (h : Delivering rand toSend toReceive cap initial values s)
    {point : ServerPoint} (hidle : s.system.pc .server = .idle)
    (hdone : s.server.point = .sending → toSend ≤ s.server.i)
    (hleft : point.left < s.server.point.left) :
    Delivering rand toSend toReceive cap initial values
      { s with server := { s.server with point := point } } where
  paired := h.paired
  received := h.received
  server_checksum := h.server_checksum
  client_checksum := h.client_checksum
  server_le := h.server_le
  client_le := h.client_le
  client_i := h.client_i
  server_past := by
    intro _
    refine ⟨hidle, ?_⟩
    by_cases hsending : s.server.point = .sending
    · exact Nat.le_antisymm h.server_le (hdone hsending)
    · exact (h.server_past hsending).2
  client_past := by
    intro hpast
    obtain ⟨hclient, hi, hended⟩ := h.client_past hpast
    exact ⟨hclient, hi, hasEnded_of_le hended hleft.le⟩

theorem Delivering.serverInside
    (h : Delivering rand toSend toReceive cap initial values s)
    {system : System Side (BitVec 64)} (hbusy : s.system.pc .server ≠ .idle)
    (hnext : advance s.system .server = some system) :
    Delivering rand toSend toReceive cap initial values { s with system := system } := by
  obtain ⟨point, hpc, -⟩ := h.paired.advance_lowers hnext
  have hpaired := h.paired.advance hnext
  rw [returning_server (h.paired.runs .server), List.append_nil] at hpaired
  have hclient : system.pc .client = s.system.pc .client := by
    rw [hpc, Function.update_of_ne (by decide)]
  exact {
    paired := hpaired
    received := h.received
    server_checksum := h.server_checksum
    client_checksum := h.client_checksum
    server_le := h.server_le
    client_le := h.client_le
    client_i := by
      simp only
      rw [hclient]
      exact h.client_i
    server_past := fun hpast => absurd (h.server_past hpast).1 hbusy
    client_past := by
      intro hpast
      simp only
      rw [hclient]
      exact h.client_past hpast }

theorem Delivering.clientCalls
    (h : Delivering rand toSend toReceive cap initial values s)
    (hidle : s.system.pc .client = .idle) (hi : s.client.i < toReceive) :
    Delivering rand toSend toReceive cap initial values
      { s with
        system := s.system.goto .client .takeWait s.system.queue s.system.history
        client := ⟨s.client.i + 1, s.client.checksum, s.client.received, .receiving⟩ } where
  paired := by
    have hcalled := h.paired.call hidle .take rfl
    rwa [show putting (Call.entry (.take : Call (BitVec 64))) = [] from rfl,
      List.append_nil] at hcalled
  received := h.received
  server_checksum := h.server_checksum
  client_checksum := h.client_checksum
  server_le := h.server_le
  client_le := hi
  client_i := by
    have hidle_i := h.client_i
    rw [hidle] at hidle_i
    simp only [QueueSystem.goto, Function.update_self]
    exact congrArg (· + 1) hidle_i
  server_past := by
    intro hpast
    simp only [QueueSystem.goto]
    rw [Function.update_of_ne (by decide)]
    exact h.server_past hpast
  client_past := fun hpast => absurd rfl hpast

theorem Delivering.clientPasses (h : Delivering rand toSend toReceive cap initial values s)
    {point : ClientPoint} (hidle : s.system.pc .client = .idle)
    (hdone : s.client.point = .receiving →
      toReceive ≤ s.client.i ∧ s.server.point.hasEnded = true) :
    Delivering rand toSend toReceive cap initial values
      { s with client := { s.client with point := point } } where
  paired := h.paired
  received := h.received
  server_checksum := h.server_checksum
  client_checksum := h.client_checksum
  server_le := h.server_le
  client_le := h.client_le
  client_i := h.client_i
  server_past := h.server_past
  client_past := by
    intro _
    by_cases hreceiving : s.client.point = .receiving
    · obtain ⟨hi, hended⟩ := hdone hreceiving
      exact ⟨hidle, Nat.le_antisymm h.client_le hi, hended⟩
    · exact h.client_past hreceiving

theorem Delivering.clientInside
    (h : Delivering rand toSend toReceive cap initial values s)
    {system : System Side (BitVec 64)} (hbusy : s.system.pc .client ≠ .idle)
    (hnext : advance s.system .client = some system) :
    Delivering rand toSend toReceive cap initial
      (values ++ returning (s.system.pc .client))
      { s with
        system := system
        client := s.client.afterStatement (s.system.pc .client) (system.pc .client) } := by
  obtain ⟨point, hpc, -⟩ := h.paired.advance_lowers hnext
  have hpaired := h.paired.advance hnext
  have hserver : system.pc .server = s.system.pc .server := by
    rw [hpc, Function.update_of_ne (by decide)]
  have hreceiving : s.client.point = .receiving := by
    by_contra hpast
    exact hbusy (h.client_past hpast).1
  have hserverPast : s.server.point ≠ .sending →
      system.pc .server = .idle ∧ s.server.i = toSend := by
    rw [hserver]
    exact h.server_past
  have hi := h.client_i
  rcases h.paired.take_returns hnext with ⟨e, htake, hback⟩ | ⟨hnothing, hinside⟩
  · rw [htake] at hpaired hi ⊢
    rw [hback]
    exact {
      paired := hpaired
      received := by simp [Client.afterStatement, h.received, returning]
      server_checksum := h.server_checksum
      client_checksum := by
        simp only [Client.afterStatement]
        rw [xorAll_append_singleton, h.client_checksum]
      server_le := h.server_le
      client_le := h.client_le
      client_i := by
        simp only [Client.afterStatement, List.length_append, List.length_singleton, hback]
        exact hi
      server_past := hserverPast
      client_past := fun hpast => absurd hreceiving hpast }
  · have hsame : s.client.afterStatement (s.system.pc .client) (system.pc .client) =
        s.client := by
      unfold Client.afterStatement
      split
      · exact absurd ‹_› hinside
      · rfl
    rw [hnothing, List.append_nil] at hpaired ⊢
    rw [hsame]
    exact {
      paired := hpaired
      received := h.received
      server_checksum := h.server_checksum
      client_checksum := h.client_checksum
      server_le := h.server_le
      client_le := h.client_le
      client_i := by
        simp only
        rw [hi, underWay_eq_one hbusy, underWay_eq_one hinside]
      server_past := hserverPast
      client_past := fun hpast => absurd hreceiving hpast }

theorem Delivering.move (h : Delivering rand toSend toReceive cap initial values s)
    (hmove : Move rand toSend toReceive s next) :
    ∃ values, Delivering rand toSend toReceive cap initial values next := by
  cases hmove with
  | serverCalls hidle hpoint hi => exact ⟨_, h.serverCalls hidle hpoint hi⟩
  | serverPasses point hidle hdone hleft => exact ⟨_, h.serverPasses hidle hdone hleft⟩
  | serverInside system hbusy hnext => exact ⟨_, h.serverInside hbusy hnext⟩
  | clientCalls hidle hpoint hi => exact ⟨_, h.clientCalls hidle hi⟩
  | clientPasses point hidle hdone hleft => exact ⟨_, h.clientPasses hidle hdone⟩
  | clientInside system hbusy hnext => exact ⟨_, h.clientInside hbusy hnext⟩

/-- Statements that are left to both sides, with eight for each call. -/
def Stream.left (toSend toReceive : Nat) (s : Stream) : Nat :=
  8 * (toSend - s.server.i) + statementsLeft (s.system.pc .server) + s.server.point.left +
    (8 * (toReceive - s.client.i) + statementsLeft (s.system.pc .client) +
      s.client.point.left)

@[simp] theorem afterStatement_i (c : Client) (point point' : Point (BitVec 64)) :
    (c.afterStatement point point').i = c.i := by
  unfold Client.afterStatement
  split <;> rfl

@[simp] theorem afterStatement_point (c : Client) (point point' : Point (BitVec 64)) :
    (c.afterStatement point point').point = c.point := by
  unfold Client.afterStatement
  split <;> rfl

/-- Every statement brings the connection nearer to its end. -/
theorem Delivering.left_lt (h : Delivering rand toSend toReceive cap initial values s)
    (hmove : Move rand toSend toReceive s next) :
    next.left toSend toReceive < s.left toSend toReceive := by
  cases hmove with
  | serverCalls hidle hpoint hi =>
      simp only [Stream.left, QueueSystem.goto, Function.update_self, hidle, hpoint, statementsLeft]
      rw [Function.update_of_ne (by decide)]
      omega
  | serverPasses point hidle hdone hleft =>
      simp only [Stream.left]
      omega
  | serverInside system hbusy hnext =>
      obtain ⟨point, hpc, hlower⟩ := h.paired.advance_lowers hnext
      simp only [Stream.left, hpc, Function.update_self]
      rw [Function.update_of_ne (by decide)]
      omega
  | clientCalls hidle hpoint hi =>
      simp only [Stream.left, QueueSystem.goto, Function.update_self, hidle, hpoint, statementsLeft]
      rw [Function.update_of_ne (by decide)]
      omega
  | clientPasses point hidle hdone hleft =>
      simp only [Stream.left]
      omega
  | clientInside system hbusy hnext =>
      obtain ⟨point, hpc, hlower⟩ := h.paired.advance_lowers hnext
      simp only [Stream.left, afterStatement_i, afterStatement_point, hpc,
        Function.update_self]
      rw [Function.update_of_ne (by decide)]
      omega

/-- The client has always received the first of the numbers, in order. -/
theorem Delivering.received_eq
    (h : Delivering rand toSend toReceive cap initial values s) :
    s.client.received = numbers rand s.client.received.length ∧
      s.client.received.length ≤ s.server.i := by
  have hvalues : values <+: (numbers rand s.server.i).map toPointer := by
    have htaken : values <+: s.system.history.takes := by
      rw [h.paired.takes]
      exact List.prefix_append ..
    have hput : s.system.history.puts <+: (numbers rand s.server.i).map toPointer := by
      rw [← h.paired.puts]
      exact List.prefix_append ..
    exact (htaken.trans h.paired.accounted.bounded.log.fifo).trans hput
  have hprefix : s.client.received <+: numbers rand s.server.i := by
    have hmapped := hvalues.map toInt
    rwa [map_toInt_toPointer, ← h.received] at hmapped
  have hle := hprefix.length_le
  rw [numbers, List.length_map, List.length_range] at hle
  refine ⟨?_, hle⟩
  rw [← numbers_take rand hle]
  exact List.prefix_iff_eq_take.mp hprefix

/-- Lengths of what has been put, taken and received. -/
theorem Delivering.lengths (h : Delivering rand toSend toReceive cap initial values s) :
    s.system.history.puts.length + (putting (s.system.pc .server)).length = s.server.i ∧
      s.system.history.takes.length =
        s.client.received.length + (taking (s.system.pc .client)).length := by
  have hputs := congrArg List.length h.paired.puts
  have htakes := congrArg List.length h.paired.takes
  rw [List.length_append] at hputs htakes
  rw [hputs, htakes, h.received, List.length_map, List.length_map, numbers,
    List.length_map, List.length_range]
  exact ⟨rfl, rfl⟩

/-- A server that does not go on is through, or waits for a space. -/
theorem Delivering.server_stuck
    (h : Delivering rand toSend toReceive cap initial values s)
    (hstuck : streamStep rand toSend toReceive s .server = none) :
    (s.server.point = .closed ∧ s.system.pc .server = .idle ∧ s.server.i = toSend) ∨
      (∃ e, s.system.pc .server = .putWait e) ∧ s.system.queue.semSpace = 0 := by
  simp only [streamStep] at hstuck
  split at hstuck
  · rename_i hidle
    apply Or.inl
    unfold serverMain at hstuck
    cases hpoint : s.server.point with
    | closed => exact ⟨rfl, h.server_past (by rw [hpoint]; decide)⟩
    | sending =>
        simp only [hpoint, step, hidle] at hstuck
        split at hstuck <;> cases hstuck
    | disconnected | ended =>
        simp only [hpoint] at hstuck
        cases hstuck
  · split at hstuck
    · exact .inr (h.paired.server_blocked ‹_› ‹_›)
    · cases hstuck

/-- A client that does not go on is through, or waits for an element or for
the end of the server. -/
theorem Delivering.client_stuck
    (h : Delivering rand toSend toReceive cap initial values s)
    (hstuck : streamStep rand toSend toReceive s .client = none) :
    s.client.point = .destroyed ∨
      (s.system.pc .client = .idle ∧ s.client.i = toReceive ∧
        s.server.point.hasEnded = false) ∨
      s.system.pc .client = .takeWait ∧ s.system.queue.semElement = 0 := by
  simp only [streamStep] at hstuck
  split at hstuck
  · rename_i hidle
    unfold clientMain at hstuck
    cases hpoint : s.client.point with
    | destroyed => exact .inl rfl
    | receiving =>
        simp only [hpoint, step, hidle] at hstuck
        split at hstuck
        · cases hstuck
        · rename_i hi
          split at hstuck
          · cases hstuck
          · rename_i hended
            exact .inr (.inl ⟨hidle, Nat.le_antisymm h.client_le (Nat.le_of_not_lt hi),
              Bool.not_eq_true _ ▸ hended⟩)
    | received | closed | disconnected =>
        simp only [hpoint] at hstuck
        cases hstuck
  · split at hstuck
    · exact .inr (.inr (h.paired.client_blocked ‹_› ‹_›))
    · cases hstuck

structure Delivered (rand : Nat → BitVec 32) (toSend toReceive : Nat) (s : Stream) :
    Prop where
  server_closed : s.server.point = .closed
  client_destroyed : s.client.point = .destroyed
  received : s.client.received = numbers rand toReceive
  server_checksum : s.server.checksum = xorAll (numbers rand toSend)
  client_checksum : s.client.checksum = xorAll (numbers rand toReceive)

/-- The queue takes up what the client leaves of the numbers. -/
def TakenUp (toSend toReceive initial : Nat) : Prop :=
  toReceive ≤ toSend ∧ toSend ≤ toReceive + initial ∧ (initial = 0 → toSend = 0)

theorem Delivering.client_destroyed
    (h : Delivering rand toSend toReceive cap initial values s)
    (htaken : TakenUp toSend toReceive initial)
    (hstuck : Stuck (streamStep rand toSend toReceive) s) :
    s.server.point = .closed ∧ s.client.point = .destroyed := by
  obtain ⟨hwanted, hroom, hsome⟩ := htaken
  obtain ⟨hputs, htakes⟩ := h.lengths
  have hsum := h.paired.accounted.sum
  have helement := h.paired.element
  have hi := h.client_i
  have hserver_le := h.server_le
  have hclient_le := h.client_le
  rw [tokens_sides] at hsum helement
  rcases h.server_stuck (hstuck .server) with ⟨hclosed, hidle, hsent⟩ | ⟨⟨e, hwait⟩, hspace⟩
  · rcases h.client_stuck (hstuck .client) with
      hdestroyed | ⟨-, -, hended⟩ | ⟨htakeWait, hempty⟩
    · exact ⟨hclosed, hdestroyed⟩
    · rw [hclosed] at hended
      cases hended
    · -- all has been put and taken, and the client wants more
      rw [hidle] at hputs helement
      rw [htakeWait] at htakes helement hi
      simp only [putting, taking, elementHeld, QueuePoint.stage, Point.stage, Stage.elementHeld,
        underWay, List.length_nil] at *
      omega
  · rcases h.client_stuck (hstuck .client) with
      hdestroyed | ⟨hclientIdle, hreceived, -⟩ | ⟨htakeWait, hempty⟩
    · -- the client has seen the end of the server
      obtain ⟨-, -, hended⟩ := h.client_past (by rw [hdestroyed]; decide)
      have hpast := h.server_past (by
        intro hsending
        rw [hsending] at hended
        cases hended)
      rw [hwait] at hpast
      cases hpast.1
    · -- the spaces are full of what the client leaves
      rw [hwait] at hputs hsum helement
      rw [hclientIdle] at htakes hsum helement hi
      simp only [putting, taking, held, elementHeld, QueuePoint.stage, Point.stage,
        Stage.elementHeld, underWay, List.length_nil, List.length_singleton] at *
      omega
    · -- no space and no element: there was none at first
      rw [hwait] at hputs hsum
      rw [htakeWait] at hsum
      simp only [putting, held, List.length_singleton] at *
      omega

theorem Delivering.delivered (h : Delivering rand toSend toReceive cap initial values s)
    (hserver : s.server.point = .closed) (hclient : s.client.point = .destroyed) :
    Delivered rand toSend toReceive s := by
  obtain ⟨-, hsent⟩ := h.server_past (by rw [hserver]; decide)
  obtain ⟨hidle, hi, -⟩ := h.client_past (by rw [hclient]; decide)
  have hlength := h.client_i
  rw [hidle, hi] at hlength
  have hreceived := h.received_eq.1
  rw [show s.client.received.length = toReceive from hlength.symm] at hreceived
  refine ⟨hserver, hclient, hreceived, ?_, ?_⟩
  · rw [h.server_checksum, hsent]
  · rw [h.client_checksum, hreceived]

/-- Where both are through, the queue has taken up the rest. -/
theorem Delivering.takenUp (h : Delivering rand toSend toReceive cap initial values s)
    (hserver : s.server.point = .closed) (hclient : s.client.point = .destroyed) :
    TakenUp toSend toReceive initial := by
  obtain ⟨hserverIdle, hsent⟩ := h.server_past (by rw [hserver]; decide)
  obtain ⟨hclientIdle, hreceived, -⟩ := h.client_past (by rw [hclient]; decide)
  obtain ⟨hputs, htakes⟩ := h.lengths
  have hsum := h.paired.accounted.sum
  have helement := h.paired.element
  have hi := h.client_i
  have hpositive := h.paired.positive
  rw [tokens_sides] at hsum helement
  rw [hserverIdle] at hputs hsum helement
  rw [hclientIdle] at htakes hsum helement hi
  simp only [putting, taking, held, elementHeld, QueuePoint.stage, Point.stage,
    Stage.elementHeld, underWay, List.length_nil] at *
  refine ⟨by omega, by omega, ?_⟩
  intro hzero
  by_contra hsome
  have hlt := hpositive (List.ne_nil_of_length_pos (by omega))
  omega

/-- Some values have been returned, and the loops are in step with the queue. -/
def InStep (rand : Nat → BitVec 32) (toSend toReceive cap : Nat) (s : Stream) : Prop :=
  ∃ values, Delivering rand toSend toReceive cap (cap % 2 ^ 32) values s

theorem InStep.step {side : Side} (h : InStep rand toSend toReceive cap s)
    (hnext : streamStep rand toSend toReceive s side = some next) :
    InStep rand toSend toReceive cap next := by
  obtain ⟨values, hdelivering⟩ := h
  exact hdelivering.move (move_of_step hnext)

variable (rand toSend toReceive) (zero : BitVec 64) (capacity : Nat)
  (queue : ShmBlockingQueue Side (BitVec 64))

theorem reaches_inStep {queue : ShmBlockingQueue Side (BitVec 64)}
    (hinit : shmBlockingQueueInit platform zero capacity = some queue)
    (hs : Reaches (streamStep rand toSend toReceive) (streamStart queue) s) :
    InStep rand toSend toReceive capacity s :=
  hs.invariant (fun _ _ _ h hnext => h.step hnext) ⟨[], streamStart_delivering hinit⟩

theorem completes_of_takenUp {queue : ShmBlockingQueue Side (BitVec 64)}
    (hinit : shmBlockingQueueInit platform zero capacity = some queue)
    (htaken : TakenUp toSend toReceive (capacity % 2 ^ 32)) :
    Completes (streamStep rand toSend toReceive) (streamStart queue)
      (Delivered rand toSend toReceive) (8 * (toSend + toReceive) + 7) := by
  have hleft : (streamStart queue).left toSend toReceive =
      8 * (toSend + toReceive) + 7 := by
    simp only [Stream.left, streamStart, start, statementsLeft, ServerPoint.left,
      ClientPoint.left]
    omega
  rw [← hleft]
  refine completes_of_measure (InStep rand toSend toReceive capacity)
    (Stream.left toSend toReceive) ?_ ?_ ⟨[], streamStart_delivering hinit⟩
  · rintro s side next ⟨values, h⟩ hnext
    exact ⟨h.move (move_of_step hnext), h.left_lt (move_of_step hnext)⟩
  · rintro s ⟨values, h⟩ hstuck
    obtain ⟨hserver, hclient⟩ := h.client_destroyed htaken hstuck
    exact h.delivered hserver hclient

/-- For every sequence of numbers, every count on either side and every
capacity, in any order of the statements: server and client come to their
ends, with the first numbers received in order, if and only if the client wants
no more than is sent and the queue takes up the rest. -/
theorem stream_completes_iff
    (hinit : shmBlockingQueueInit platform zero capacity = some queue) :
    Completes (streamStep rand toSend toReceive) (streamStart queue)
        (Delivered rand toSend toReceive) (8 * (toSend + toReceive) + 7) ↔
      TakenUp toSend toReceive (capacity % 2 ^ 32) := by
  constructor
  · intro hcompletes
    obtain ⟨last, hlast, hdelivered⟩ := hcompletes.exists_final .refl
    obtain ⟨values, h⟩ := reaches_inStep rand toSend toReceive zero capacity hinit hlast
    exact h.takenUp hdelivered.server_closed hdelivered.client_destroyed
  · exact completes_of_takenUp rand toSend toReceive zero capacity hinit

theorem one_slot_sides_init :
    (shmBlockingQueueInit linux64 0 1 : Option (ShmBlockingQueue Side (BitVec 64))).isSome := by
  decide

/-- Three numbers through one slot. -/
theorem one_slot_completes_iff :
    Completes (streamStep (fun i => BitVec.ofNat 32 i) 3 3)
        (streamStart ((shmBlockingQueueInit linux64 0 1).get one_slot_sides_init))
        (Delivered (fun i => BitVec.ofNat 32 i) 3 3) 55 ↔ TakenUp 3 3 1 :=
  stream_completes_iff _ 3 3 0 1 _ (Option.some_get one_slot_sides_init).symm

/-- Whatever the counts: what the client has received are the first numbers in
order, with their checksum, and once it is past its last `recv` no side uses
the queue any more, which is how it is destroyed. -/
theorem received_in_order_and_unused
    (hinit : shmBlockingQueueInit platform zero capacity = some queue)
    (s : Stream) (hs : Reaches (streamStep rand toSend toReceive) (streamStart queue) s) :
    (s.client.received = numbers rand s.client.received.length ∧
      s.client.checksum = xorAll s.client.received) ∧
    (s.client.point ≠ .receiving → s.server.point.hasEnded = true ∧
      (∀ side, s.system.pc side = .idle) ∧
      s.system.queue.mutexTail.owner = none ∧ s.system.queue.mutexHead.owner = none) := by
  obtain ⟨values, h⟩ := reaches_inStep rand toSend toReceive zero capacity hinit hs
  refine ⟨⟨h.received_eq.1, h.client_checksum⟩, fun hpast => ?_⟩
  obtain ⟨hclient, -, hended⟩ := h.client_past hpast
  have hserver := (h.server_past (by
    intro hsending
    rw [hsending] at hended
    cases hended)).1
  refine ⟨hended, ?_, ?_, ?_⟩
  · intro side
    cases side with
    | server => exact hserver
    | client => exact hclient
  · exact h.paired.mutexTail_free (by rw [hserver]; rfl)
  · exact h.paired.mutexHead_free (by rw [hclient]; rfl)

def oneNumber : List Side :=
  List.replicate 7 .server ++ List.replicate 7 .client ++
    List.replicate 2 .server ++ [.client]

theorem one_number_enabled :
    (runEvents (streamStep (fun _ => 7) 1 1)
      (streamStart ((shmBlockingQueueInit linux64 0 1).get one_slot_sides_init))
      oneNumber).isSome := by
  decide

theorem one_number_unused :
    ((runEvents (streamStep (fun _ => 7) 1 1)
      (streamStart ((shmBlockingQueueInit linux64 0 1).get one_slot_sides_init))
      oneNumber).get one_number_enabled).server.point.hasEnded = true :=
  ((received_in_order_and_unused (fun _ => 7) 1 1 0 1 _
    (Option.some_get one_slot_sides_init).symm _
    ⟨oneNumber, (Option.some_get one_number_enabled).symm⟩).2 (by decide)).1

/-- A request that both receives complete is answered in full: the counts are
the same on both sides then. -/
theorem completed_request_delivered (server : Handshake.Server) (c : Handshake.Connection)
    (hrequest : Handshake.Completed server c)
    (hinit : shmBlockingQueueInit platform zero capacity = some queue)
    (hspace : 0 < capacity % 2 ^ 32) :
    Completes
      (streamStep rand (Handshake.puts (server.locals.receive c).max)
        (Handshake.puts c.request.count))
      (streamStart queue)
      (Delivered rand (Handshake.puts c.request.count) (Handshake.puts c.request.count))
      (16 * Handshake.puts c.request.count + 7) := by
  rw [(Handshake.receive_puts_iff server c).mpr hrequest.count]
  have hbound : 16 * Handshake.puts c.request.count + 7 =
      8 * (Handshake.puts c.request.count + Handshake.puts c.request.count) + 7 := by
    omega
  rw [hbound]
  refine completes_of_takenUp _ _ _ zero capacity hinit ⟨le_rfl, Nat.le_add_right _ _, ?_⟩
  intro hzero
  omega

theorem ab_request_delivered :
    Completes
      (streamStep (fun _ => 7)
        (Handshake.puts (Handshake.zeroed.receive Handshake.connectAb).max)
        (Handshake.puts Handshake.connectAb.request.count))
      (streamStart ((shmBlockingQueueInit linux64 0 1).get one_slot_sides_init))
      (Delivered (fun _ => 7) (Handshake.puts Handshake.connectAb.request.count)
        (Handshake.puts Handshake.connectAb.request.count))
      (16 * Handshake.puts Handshake.connectAb.request.count + 7) :=
  completed_request_delivered (fun _ => 7) 0 1 _ ⟨Handshake.zeroed, []⟩ Handshake.connectAb
    (Handshake.completed_of_whole rfl rfl (by decide +kernel))
    (Option.some_get one_slot_sides_init).symm (by decide)

end CsPrimer.SharedMemoryStream
