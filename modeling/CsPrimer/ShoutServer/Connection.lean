import Mathlib.Tactic

/-!
What both event loops of `shout_server.c` do with one connection between two
system calls: the buffer, `do_send`, and the compaction after a send. The
results of `send` and `recv` come from outside. Received and sent bytes are
recorded; the return value of `do_send` counts as that many bytes sent from
the front of the buffer. Messages to the error stream are left out.
-/

namespace CsPrimer.ShoutServer

def bufCapacity : Nat := 4096

def maxEvents : Nat := 100

structure Buffer where
  size : Nat
  data : List UInt8

def Buffer.pending (buf : Buffer) : List UInt8 := buf.data.take buf.size

/-- `calloc(1, sizeof(buffer))`. -/
def Buffer.calloc : Buffer := ⟨0, List.replicate bufCapacity 0⟩

/-- `recv` wrote `bytes` at the front, and `size` is set to their number. -/
def Buffer.receive (buf : Buffer) (bytes : List UInt8) : Buffer where
  size := bytes.length
  data := bytes ++ buf.data.drop bytes.length

/-- The `memmove` after a short send of `sent` bytes. -/
def Buffer.compact (buf : Buffer) (sent : Nat) : Buffer where
  size := buf.size - sent
  data := (buf.data.drop sent).take (buf.size - sent) ++
    buf.data.drop (buf.size - sent)

/-- A TODO in the source: the function is empty. -/
def toUpperCase (buf : Buffer) : Buffer := buf

/-- What one call of `send` returns, and whether `errno` is then `EAGAIN` or
`EWOULDBLOCK`. -/
structure SendResult where
  ret : Int
  wouldBlock : Bool
  deriving DecidableEq, Repr

/-- `do_send` against the results of its `send` calls, with the bytes that
these accepted. `sent`, `total` and `left` are the loop variables. `none` when
the results do not fit the calls. -/
def doSend (data : List UInt8) :
    List SendResult → (sent total left : Nat) → Option (Int × List UInt8)
  | [], _, total, left => if left = 0 then some (total, []) else none
  | result :: results, sent, total, left =>
      if left = 0 ∨ (left : Int) < result.ret then none
      else if result.ret ≤ 0 then
        if results = [] then
          some (if result.wouldBlock then (total : Int) else -1, [])
        else none
      else
        let count := result.ret.toNat
        match doSend data results count (total + count) (left - count) with
        | none => none
        | some (ret, accepted) =>
            some (ret, (data.drop sent).take count ++ accepted)

/-- `do_send` never returns more than it was asked to send. -/
theorem doSend_le {data accepted : List UInt8} {results : List SendResult}
    {sent total left : Nat} {ret : Int}
    (h : doSend data results sent total left = some (ret, accepted)) :
    ret ≤ total + left := by
  induction results generalizing sent total left accepted with
  | nil =>
      simp only [doSend] at h
      split at h
      · cases h
        omega
      · cases h
  | cons result results ih =>
      simp only [doSend] at h
      split at h
      · cases h
      · split at h
        · split at h
          · cases h
            split <;> omega
          · cases h
        · split at h
          · cases h
          · rename_i ret' accepted' hrest
            cases h
            have hle := ih hrest
            omega

/-- What `recv` returns: bytes, none of them at the end of the stream, or an
error, and whether it says that the call would block. -/
inductive RecvResult where
  | bytes (received : List UInt8)
  | error (wouldBlock : Bool)
  deriving DecidableEq, Repr

/-- A connection at a control point of its loop, with the bytes received and
sent so far. -/
structure Connection (Point : Type) where
  point : Point
  buffer : Buffer
  received : List UInt8
  sent : List UInt8

variable {Point : Type}

def Connection.accepted (waiting : Point) : Connection Point :=
  ⟨waiting, Buffer.calloc, [], []⟩

def Connection.goto (c : Connection Point) (point : Point) : Connection Point :=
  { c with point := point }

/-- After `do_send` returned the positive `sent`: what is left moves to the
front. -/
def Connection.keepUnsent (c : Connection Point) (sent : Nat) :
    Connection Point :=
  { c with
    buffer :=
      if sent < c.buffer.size then c.buffer.compact sent
      else { c.buffer with size := 0 }
    sent := c.sent ++ c.buffer.data.take sent }

/-- The handling of `recv` in the receive loop: end of the stream and errors
leave for `cleaned`, a call that would block for `waiting`, and bytes are kept
for `send`. `none` for more bytes than the buffer takes. -/
def Connection.afterRecv (c : Connection Point) (waiting cleaned send : Point) :
    RecvResult → Option (Connection Point)
  | .error wouldBlock =>
      some (c.goto (if wouldBlock then waiting else cleaned))
  | .bytes received =>
      if bufCapacity < received.length then none
      else if received = [] then some (c.goto cleaned)
      else some {
        point := send
        buffer := toUpperCase (c.buffer.receive received)
        received := c.received ++ received
        sent := c.sent }

structure Relayed (c : Connection Point) : Prop where
  data_length : c.buffer.data.length = bufCapacity
  size_le : c.buffer.size ≤ bufCapacity
  relayed : c.sent ++ c.buffer.pending = c.received

theorem Relayed.accepted (waiting : Point) :
    Relayed (Connection.accepted waiting) where
  data_length := List.length_replicate ..
  size_le := Nat.zero_le _
  relayed := rfl

theorem Relayed.goto {c : Connection Point} (h : Relayed c) (point : Point) :
    Relayed (c.goto point) :=
  ⟨h.data_length, h.size_le, h.relayed⟩

/-- Compaction drops what was sent from the pending bytes. -/
theorem Buffer.take_append_compact (buf : Buffer) {sent : Nat}
    (hsize : buf.size ≤ buf.data.length) (hsent : sent < buf.size) :
    buf.data.take sent ++ (buf.compact sent).pending = buf.pending := by
  have hmoved : ((buf.data.drop sent).take (buf.size - sent)).length =
      buf.size - sent := by
    rw [List.length_take, List.length_drop]
    omega
  simp only [Buffer.compact, Buffer.pending]
  rw [List.take_append_of_le_length (le_of_eq hmoved.symm), List.take_take,
    min_self, ← List.take_add, Nat.add_sub_cancel' hsent.le]

theorem Relayed.keepUnsent {c : Connection Point} (h : Relayed c) {sent : Nat}
    (hsent : sent ≤ c.buffer.size) : Relayed (c.keepUnsent sent) := by
  have hlength := h.data_length
  have hsize := h.size_le
  unfold Connection.keepUnsent
  split
  · rename_i hshort
    refine ⟨?_, ?_, ?_⟩
    · simp only [Buffer.compact, List.length_append, List.length_take,
        List.length_drop]
      omega
    · simp only [Buffer.compact]
      omega
    · rw [List.append_assoc,
        c.buffer.take_append_compact (hlength ▸ hsize) hshort]
      exact h.relayed
  · rename_i hall
    obtain rfl : sent = c.buffer.size := by omega
    refine ⟨hlength, Nat.zero_le _, ?_⟩
    rw [List.append_assoc]
    simpa [Buffer.pending] using h.relayed

theorem Relayed.afterRecv {c next : Connection Point} (h : Relayed c)
    (hempty : c.buffer.size = 0) {waiting cleaned send : Point}
    {result : RecvResult}
    (hnext : c.afterRecv waiting cleaned send result = some next) :
    Relayed next := by
  cases result with
  | error wouldBlock =>
      cases hnext
      exact h.goto _
  | bytes received =>
      simp only [Connection.afterRecv] at hnext
      split at hnext
      · cases hnext
      · rename_i hfits
        have hlength := h.data_length
        split at hnext
        · cases hnext
          exact h.goto _
        · cases hnext
          refine ⟨?_, ?_, ?_⟩
          · simp only [toUpperCase, Buffer.receive, List.length_append,
              List.length_drop]
            omega
          · simp only [toUpperCase, Buffer.receive]
            omega
          · have hrelayed := h.relayed
            simp only [Buffer.pending, hempty, List.take_zero,
              List.append_nil] at hrelayed
            simp [toUpperCase, Buffer.receive, Buffer.pending, hrelayed]

end CsPrimer.ShoutServer
