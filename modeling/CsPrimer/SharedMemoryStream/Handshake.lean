import CsPrimer.Foundation.EventRun

/-!
The requests that `server.c` receives. A client sends the four bytes of a count
and the bytes of a name, without a length or a terminator. The server calls
`recv` once for each; it uses whatever the call returns, and does not clear
`max` or `shm_fname` in between. What the queue does with the values put is
left out, and so are the values.
-/

namespace CsPrimer.SharedMemoryStream.Handshake

open Foundation

def nameCapacity : Nat := 4096

/-- What `client.c` sends: the bytes of `max`, and a name up to its end. -/
structure Request where
  count : List UInt8
  name : List UInt8
  count_length : count.length = 4
  name_length : name.length < nameCapacity
  name_no_nul : 0 ∉ name

def Request.stream (request : Request) : List UInt8 :=
  request.count ++ request.name

/-- A connection: how many bytes each `recv` returns, and the names that
`shm_open` finds, that of the client among them. A `recv` that fails returns
nothing; so do both where `accept`, with its uninitialised `clientlen`, fails. -/
structure Connection where
  request : Request
  first : Nat
  second : Nat
  queues : List UInt8 → Bool
  first_le : first ≤ 4
  second_le : second ≤ nameCapacity
  second_available : first + second ≤ request.stream.length
  queue_exists : queues request.name = true

/-- The variables of `main` that a connection leaves to the next one. -/
structure Locals where
  max : List UInt8
  shmFname : List UInt8
  max_length : max.length = 4
  shmFname_length : shmFname.length = nameCapacity

/-- `recv` writes what it returns at the front of the buffer. -/
def recvInto (buffer received : List UInt8) : List UInt8 :=
  received ++ buffer.drop received.length

theorem recvInto_length {buffer received : List UInt8}
    (h : received.length ≤ buffer.length) :
    (recvInto buffer received).length = buffer.length := by
  simp only [recvInto, List.length_append, List.length_drop]
  omega

/-- The bytes as an `int`, the lowest first. -/
def intOf (bytes : List UInt8) : Int :=
  let value : Nat := Nat.ofDigits 256 (bytes.map UInt8.toNat)
  (value : Int).bmod (2 ^ 32)

/-- How often `for (int i = 0; i < max; i++)` runs its body. -/
def puts (max : List UInt8) : Nat := (intOf max).toNat

def cString : List UInt8 → Option (List UInt8)
  | [] => none
  | byte :: bytes =>
      if byte = 0 then some [] else (cString bytes).map (byte :: ·)

/-- What the server does for a connection: so many puts on the queue of a
name, an exit through `exit_err_on`, or a read past the end of `shm_fname`. -/
inductive Outcome where
  | served (name : List UInt8) (puts : Nat)
  | exited
  | undefined
  deriving DecidableEq, Repr

def Connection.countReceived (c : Connection) : List UInt8 :=
  c.request.stream.take c.first

def Connection.nameReceived (c : Connection) : List UInt8 :=
  (c.request.stream.drop c.first).take c.second

theorem Connection.countReceived_length (c : Connection) :
    c.countReceived.length = c.first := by
  have := c.second_available
  rw [countReceived, List.length_take]
  omega

theorem Connection.nameReceived_length (c : Connection) :
    c.nameReceived.length = c.second := by
  have := c.second_available
  rw [nameReceived, List.length_take, List.length_drop]
  omega

def Locals.receive (locals : Locals) (c : Connection) : Locals where
  max := recvInto locals.max c.countReceived
  shmFname := recvInto locals.shmFname c.nameReceived
  max_length := by
    have := c.first_le
    rw [recvInto_length] <;>
      rw [locals.max_length]
    rwa [c.countReceived_length]
  shmFname_length := by
    have := c.second_le
    rw [recvInto_length] <;>
      rw [locals.shmFname_length]
    rwa [c.nameReceived_length]

/-- `shm_blocking_queue_connect` and the puts, once both are received. -/
def Locals.serve (locals : Locals) (queues : List UInt8 → Bool) : Outcome :=
  match cString locals.shmFname with
  | none => .undefined
  | some name =>
      if queues name then .served name (puts locals.max) else .exited

structure Server where
  locals : Locals
  outcomes : List Outcome

/-- The body of the connection loop. Only a server that has served all
connections so far accepts the next one. -/
def step (s : Server) (c : Connection) : Option Server :=
  if s.outcomes.all fun outcome =>
      match outcome with
      | .served _ _ => true
      | _ => false
  then
    let locals := s.locals.receive c
    some ⟨locals, s.outcomes ++ [locals.serve c.queues]⟩
  else none

/-- What the client asks for: the queue of its name, and so many values. -/
def Connection.asked (c : Connection) : Outcome :=
  .served c.request.name (puts c.request.count)

/-- What the calls of `recv` leave out is already there: the rest of the count
in `max`, unless neither value is above zero, and the rest of the name, with a
NUL behind it, in `shm_fname`. -/
structure Completed (s : Server) (c : Connection) : Prop where
  count : s.locals.max.drop c.first = c.request.count.drop c.first ∨
    intOf (c.request.count.take c.first ++ s.locals.max.drop c.first) ≤ 0 ∧
      intOf c.request.count ≤ 0
  name : c.request.name ++ [0] <+:
    c.nameReceived ++ s.locals.shmFname.drop c.second

/-- Both calls return all that was sent, and there is a NUL behind the name. -/
theorem completed_of_whole {s : Server} {c : Connection} (hfirst : c.first = 4)
    (hsecond : c.second = c.request.name.length)
    (hnul : s.locals.shmFname[c.request.name.length]? = some 0) :
    Completed s c where
  count := by
    apply Or.inl
    rw [hfirst, List.drop_of_length_le s.locals.max_length.le,
      List.drop_of_length_le c.request.count_length.le]
  name := by
    have hreceived : c.nameReceived = c.request.name := by
      rw [Connection.nameReceived, Request.stream, hfirst,
        ← c.request.count_length, List.drop_left, hsecond, List.take_length]
    rw [hreceived, List.prefix_append_right_inj, hsecond]
    obtain ⟨hlt, hzero⟩ := List.getElem?_eq_some_iff.mp hnul
    rw [List.drop_eq_getElem_cons hlt, hzero]
    exact List.prefix_append [0] _

theorem cString_eq_some_iff {buffer name : List UInt8} :
    cString buffer = some name ↔ 0 ∉ name ∧ name ++ [0] <+: buffer := by
  induction buffer generalizing name with
  | nil => simp [cString]
  | cons byte buffer ih =>
      simp only [cString]
      split
      · rename_i hzero
        subst hzero
        cases name with
        | nil => simp
        | cons first name =>
            simp only [Option.some.injEq, List.nil_eq, reduceCtorEq, false_iff,
              List.cons_append, List.cons_prefix_cons, List.mem_cons]
            rintro ⟨hne, heq, _⟩
            exact hne (.inl heq.symm)
      · rename_i hbyte
        cases name with
        | nil => simp [Ne.symm hbyte]
        | cons first name =>
            simp only [Option.map_eq_some_iff, List.cons.injEq, ih,
              List.cons_append, List.cons_prefix_cons, List.mem_cons, not_or]
            constructor
            · rintro ⟨rest, ⟨hrest, hprefix⟩, rfl, rfl⟩
              exact ⟨⟨Ne.symm hbyte, hrest⟩, rfl, hprefix⟩
            · rintro ⟨⟨_, hrest⟩, rfl, hprefix⟩
              exact ⟨name, ⟨hrest, hprefix⟩, rfl, rfl⟩

theorem bmod_injective {m n : Nat} (hm : m < 256 ^ 4) (hn : n < 256 ^ 4)
    (h : (m : Int).bmod (2 ^ 32) = (n : Int).bmod (2 ^ 32)) : m = n := by
  rw [Int.bmod_def, Int.bmod_def] at h
  push_cast at h
  split_ifs at h <;> omega

theorem intOf_injective {bytes bytes' : List UInt8} (hlength : bytes.length = 4)
    (hlength' : bytes'.length = 4) (h : intOf bytes = intOf bytes') :
    bytes = bytes' := by
  have hdigit : ∀ (bytes : List UInt8), ∀ digit ∈ bytes.map UInt8.toNat,
      digit < 256 := by
    intro bytes digit hdigit
    obtain ⟨byte, _, rfl⟩ := List.mem_map.mp hdigit
    exact byte.toNat_lt
  have hbound := Nat.ofDigits_lt_base_pow_length (by decide) (hdigit bytes)
  have hbound' := Nat.ofDigits_lt_base_pow_length (by decide) (hdigit bytes')
  rw [List.length_map, hlength] at hbound
  rw [List.length_map, hlength'] at hbound'
  unfold intOf at h
  have hdigits := Nat.ofDigits_inj_of_len_eq (by decide)
    (by simp [hlength, hlength']) (hdigit bytes) (hdigit bytes')
    (bmod_injective hbound hbound' h)
  exact List.map_injective_iff.mpr (fun _ _ => UInt8.toNat_inj.mp) hdigits

theorem puts_eq_iff {bytes bytes' : List UInt8} (hlength : bytes.length = 4)
    (hlength' : bytes'.length = 4) :
    puts bytes = puts bytes' ↔
      bytes = bytes' ∨ intOf bytes ≤ 0 ∧ intOf bytes' ≤ 0 := by
  unfold puts
  constructor
  · intro h
    by_cases hnone : intOf bytes ≤ 0
    · exact .inr ⟨hnone, by omega⟩
    · exact .inl (intOf_injective hlength hlength' (by omega))
  · rintro (rfl | ⟨hnone, hnone'⟩)
    · rfl
    · omega

/-- `max` after the first `recv`, against the count. -/
theorem receive_max_eq (s : Server) (c : Connection) :
    (s.locals.receive c).max =
      c.request.count.take c.first ++ s.locals.max.drop c.first := by
  have hreceived : c.countReceived = c.request.count.take c.first := by
    rw [Connection.countReceived, Request.stream,
      List.take_append_of_le_length (c.first_le.trans c.request.count_length.ge)]
  simp only [Locals.receive, recvInto, c.countReceived_length]
  rw [hreceived]

theorem receive_puts_iff (s : Server) (c : Connection) :
    puts (s.locals.receive c).max = puts c.request.count ↔
      s.locals.max.drop c.first = c.request.count.drop c.first ∨
        intOf (c.request.count.take c.first ++ s.locals.max.drop c.first) ≤ 0 ∧
          intOf c.request.count ≤ 0 := by
  rw [puts_eq_iff (s.locals.receive c).max_length c.request.count_length,
    receive_max_eq]
  have hsame : c.request.count.take c.first ++ s.locals.max.drop c.first =
      c.request.count ↔
        s.locals.max.drop c.first = c.request.count.drop c.first := by
    conv_lhs => rhs; rw [← List.take_append_drop c.first c.request.count]
    exact List.append_cancel_left_eq .. |>.to_iff
  rw [hsame]

theorem receive_name_iff (s : Server) (c : Connection) :
    cString (s.locals.receive c).shmFname = some c.request.name ↔
      c.request.name ++ [0] <+:
        c.nameReceived ++ s.locals.shmFname.drop c.second := by
  rw [cString_eq_some_iff, and_iff_right c.request.name_no_nul]
  simp only [Locals.receive, recvInto, c.nameReceived_length]

/-- The client is served as it asked exactly if both receives are completed. -/
theorem serve_eq_asked_iff (s : Server) (c : Connection) :
    (s.locals.receive c).serve c.queues = c.asked ↔ Completed s c := by
  constructor
  · intro hserved
    unfold Locals.serve Connection.asked at hserved
    split at hserved
    · cases hserved
    · rename_i name hstring
      split at hserved
      · obtain ⟨rfl, hputs⟩ := Outcome.served.inj hserved
        exact ⟨(receive_puts_iff s c).mp hputs, (receive_name_iff s c).mp hstring⟩
      · cases hserved
  · intro h
    simp only [Locals.serve, (receive_name_iff s c).mpr h.name, c.queue_exists,
      if_true, (receive_puts_iff s c).mpr h.count, Connection.asked]

theorem step_eq {s next : Server} {c : Connection} (h : step s c = some next) :
    next.outcomes = s.outcomes ++ [(s.locals.receive c).serve c.queues] := by
  unfold step at h
  split at h
  · cases h
    rfl
  · cases h

/-- What the server has done stays on record. -/
theorem outcomes_prefix {s final : Server} {connections : List Connection}
    (hrun : runEvents step s connections = some final) :
    s.outcomes <+: final.outcomes := by
  have hreaches : Reaches step s final := ⟨connections, hrun⟩
  have hkeep : ∀ t c next, s.outcomes <+: t.outcomes → step t c = some next →
      s.outcomes <+: next.outcomes := by
    intro t c next hprefix hnext
    rw [step_eq hnext]
    exact hprefix.trans (List.prefix_append ..)
  have hkept := hreaches.invariant hkeep List.prefix_rfl
  exact hkept

theorem run_served_iff {s final : Server} {connections : List Connection}
    (hrun : runEvents step s connections = some final) :
    final.outcomes = s.outcomes ++ connections.map Connection.asked ↔
      EachStep step Completed s connections := by
  induction connections generalizing s with
  | nil =>
      cases hrun
      simp [EachStep]
  | cons c connections ih =>
      obtain ⟨next, hnext, hrest⟩ := runEvents_cons hrun
      have houtcomes := step_eq hnext
      rw [eachStep_cons hnext, ← ih hrest, ← serve_eq_asked_iff, houtcomes,
        List.append_assoc]
      constructor
      · intro h
        obtain ⟨rest, hrest'⟩ := outcomes_prefix hrest
        rw [h, houtcomes, List.append_assoc, List.map_cons,
          List.append_cancel_left_eq] at hrest'
        obtain ⟨hserved, _⟩ := List.cons.inj hrest'
        exact ⟨hserved, by rw [h, List.map_cons, hserved, List.singleton_append]⟩
      · rintro ⟨hserved, h⟩
        rw [h, hserved, List.map_cons, List.singleton_append]

/-- For every sequence of connections, every way the streams are cut, and
whatever the variables hold at first: all clients are served as they asked if
and only if, at each connection, both receives are completed. -/
theorem clients_served_iff (locals : Locals) (connections : List Connection)
    (final : Server)
    (hrun : runEvents step ⟨locals, []⟩ connections = some final) :
    final.outcomes = connections.map Connection.asked ↔
      EachStep step Completed ⟨locals, []⟩ connections :=
  run_served_iff hrun

/-- `max` and `shm_fname` happen to be zero at first. -/
def zeroed : Locals where
  max := List.replicate 4 0
  shmFname := List.replicate nameCapacity 0
  max_length := List.length_replicate ..
  shmFname_length := List.length_replicate ..

def askAb : Request where
  count := [2, 0, 0, 0]
  name := [97, 98]
  count_length := rfl
  name_length := by decide
  name_no_nul := by decide

def askC : Request where
  count := [2, 0, 0, 0]
  name := [99]
  count_length := rfl
  name_length := by decide
  name_no_nul := by decide

/-- Both calls of `recv` return all that was sent for them, and only the queue
of the client exists. -/
def whole (request : Request) : Connection where
  request := request
  first := 4
  second := request.name.length
  queues := fun name => name = request.name
  first_le := le_rfl
  second_le := request.name_length.le
  second_available := by
    rw [Request.stream, List.length_append, request.count_length]
  queue_exists := decide_eq_true rfl

def connectAb : Connection := whole askAb

def connectC : Connection := whole askC

theorem one_client_run :
    (runEvents step ⟨zeroed, []⟩ [connectAb]).isSome := rfl

theorem one_client_served_iff :
    ((runEvents step ⟨zeroed, []⟩ [connectAb]).get one_client_run).outcomes =
        [connectAb].map Connection.asked ↔
      EachStep step Completed ⟨zeroed, []⟩ [connectAb] :=
  clients_served_iff zeroed [connectAb] _ (Option.some_get one_client_run).symm

theorem two_clients_run :
    (runEvents step ⟨zeroed, []⟩ [connectAb, connectC]).isSome := rfl

/-- `shm_fname` still holds the `b` of the first client, so that the server
looks for a queue `cb`, and exits. -/
theorem name_of_earlier_client :
    ((runEvents step ⟨zeroed, []⟩ [connectAb, connectC]).get
      two_clients_run).outcomes = [.served [97, 98] 2, .exited] ∧
    ((runEvents step ⟨zeroed, []⟩ [connectAb, connectC]).get
      two_clients_run).outcomes ≠ [connectAb, connectC].map Connection.asked := by
  constructor <;> decide +kernel

end CsPrimer.SharedMemoryStream.Handshake
