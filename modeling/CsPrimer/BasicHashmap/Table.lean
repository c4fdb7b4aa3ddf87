import CsPrimer.Foundation.CallSequence

/-!
The open-addressing hash map of `hashmap.c`. A `size_t` is a natural number
below `sizeModulus`, with the wrap written where the C arithmetic can reach
it. The bytes `key[0 .. key_len)` are one list, so `key_len` is its length
and `memcmp` after the length test is equality. Stored values are pointers
the map never follows; their type has a distinguished `0`, which is `NULL`.
Allocation succeeds.
-/

namespace CsPrimer.BasicHashmap

open Foundation

/-- `size_t` arithmetic is modulo this bound. -/
def sizeModulus : Nat := 2 ^ 64

def startingBuckets : Nat := 8

inductive Status where
  | empty
  | occupied
  | deleted
  deriving DecidableEq, Repr

abbrev Key := List UInt8

structure MapNode (V : Type) where
  key : Key
  value : V
  hash : Nat
  status : Status
  deriving DecidableEq, Repr

variable {V : Type} [Zero V]

def MapNode.zeroed : MapNode V := ⟨[], 0, 0, .empty⟩

structure Hashmap (V : Type) where
  cap : Nat
  arr : List (MapNode V)
  size : Nat
  deriving DecidableEq, Repr

def Hashmap.node (map : Hashmap V) (pos : Nat) : MapNode V :=
  map.arr.getD pos MapNode.zeroed

def Hashmap.calloc (cap : Nat) : Hashmap V :=
  ⟨cap, List.replicate cap MapNode.zeroed, 0⟩

def hashmapNew : Hashmap V := Hashmap.calloc startingBuckets

/-- The bit-smearing `next_power_of_2`, decrement and increment wrapping. -/
def nextPowerOf2 (n : Nat) : Nat :=
  let n := (n + (sizeModulus - 1)) % sizeModulus
  let n := n ||| n >>> 1
  let n := n ||| n >>> 2
  let n := n ||| n >>> 4
  let n := n ||| n >>> 8
  let n := n ||| n >>> 16
  let n := n ||| n >>> 32
  (n + 1) % sizeModulus

/-- Outcome of `probing`; the codes are ordered, and `>= FOUND` stores. -/
inductive SetFlag where
  | needResize
  | hasNext
  | found
  | replace
  deriving DecidableEq, Repr

def probing (map : Hashmap V) (key : Key) (hash pos : Nat) : SetFlag :=
  if (map.node pos).status = .empty then .found
  else if hash = (map.node pos).hash then
    if (map.node pos).status = .deleted then .found
    else if key = (map.node pos).key then .replace
    else .hasNext
  else .needResize

inductive GetFlag where
  | stop
  | next
  | found
  deriving DecidableEq, Repr

def probing2 (map : Hashmap V) (key : Key) (hash pos : Nat) : GetFlag :=
  if (map.node pos).status = .empty then .stop
  else if hash ≠ (map.node pos).hash then .stop
  else if (map.node pos).status = .deleted ∨ key ≠ (map.node pos).key then .next
  else .found

/-- The expression `(hv + (i + i * i) >> 1) % n`: addition binds tighter than
the shift, and the sum wraps before it is halved. -/
def probeIndex (hv i n : Nat) : Nat :=
  (((hv + (i + i * i)) % sizeModulus) >>> 1) % n

/-- The loop `for (i = 1; i <= n && flg == proceed; ++i)` that set, get and
delete share; the first argument counts the iterations left. The result is
the slot at which the flag stopped the loop, with that flag. -/
def probeLoop {Flag : Type} [DecidableEq Flag] (flag : Nat → Flag)
    (proceed : Flag) (cap hv n : Nat) : Nat → Nat → Option (Nat × Flag)
  | 0, _ => none
  | left + 1, i =>
      let t := probeIndex hv i n
      if cap ≤ t then probeLoop flag proceed cap hv n left (i + 1)
      else if flag t = proceed then
        probeLoop flag proceed cap hv n left (i + 1)
      else some (t, flag t)

/-- A whole probe: the home bucket first, then the loop over the others. -/
def probe {Flag : Type} [DecidableEq Flag] (flag : Nat → Flag)
    (proceed : Flag) (cap hv : Nat) : Option (Nat × Flag) :=
  if flag hv = proceed then
    let n := nextPowerOf2 cap
    probeLoop flag proceed cap hv n n 1
  else some (hv, flag hv)

/-- `map->hash(key) % map->cap`. -/
def homeBucket (hash : Key → UInt64) (cap : Nat) (key : Key) : Nat :=
  (hash key).toNat % cap

def probeSet (hash : Key → UInt64) (map : Hashmap V) (key : Key) :
    Option (Nat × SetFlag) :=
  let hv := homeBucket hash map.cap key
  probe (probing map key hv) .hasNext map.cap hv

def probeGet (hash : Key → UInt64) (map : Hashmap V) (key : Key) :
    Option (Nat × GetFlag) :=
  let hv := homeBucket hash map.cap key
  probe (probing2 map key hv) .next map.cap hv

def nodeSet (map : Hashmap V) (pos : Nat) (key : Key) (value : V) (hash : Nat) :
    Hashmap V :=
  { map with arr := map.arr.set pos ⟨key, value, hash, .occupied⟩ }

/-- `node_delete` at `pos`: the hash and the value stay, `key_len` is 0. -/
def nodeDelete (map : Hashmap V) (pos : Nat) : Hashmap V :=
  { map with
    arr := map.arr.set pos
      { map.node pos with status := .deleted, key := [] } }

/-- Ways a call can fail to return: `% 0`, or the recursion bound of the
embedding (`hashmapSet_ne_outOfFuel` shows it is never the answer). -/
inductive Fault where
  | divisionByZero
  | outOfFuel
  deriving DecidableEq, Repr

/-- The rehash loop over the old array. -/
def rehash (set : Hashmap V → Key → V → Except Fault (Hashmap V)) :
    List (MapNode V) → Hashmap V → Except Fault (Hashmap V)
  | [], map => .ok map
  | node :: nodes, map =>
      if node.status = .occupied then
        match set map node.key node.value with
        | .error fault => .error fault
        | .ok next => rehash set nodes next
      else rehash set nodes map

/-- `map->cap <<= 1` with a fresh array. -/
def doubled (map : Hashmap V) : Hashmap V :=
  Hashmap.calloc (map.cap * 2 % sizeModulus)

/-- The two storing branches of `Hashmap_set`; `none` where it falls through
to the growth. Only `FOUND` counts a new key. -/
def setInPlace (hash : Key → UInt64) (map : Hashmap V) (key : Key) (value : V) :
    Option (Hashmap V) :=
  let stored := fun pos =>
    nodeSet map pos key value (homeBucket hash map.cap key)
  match probeSet hash map key with
  | some (pos, .found) => some { stored pos with size := map.size + 1 }
  | some (pos, .replace) => some (stored pos)
  | _ => none

/-- `Hashmap_set` with at most `fuel` nested growths. -/
def hashmapSetFuel (hash : Key → UInt64) :
    Nat → Hashmap V → Key → V → Except Fault (Hashmap V)
  | 0, _, _, _ => .error .outOfFuel
  | fuel + 1, map, key, value =>
      if map.cap = 0 then .error .divisionByZero
      else
        match setInPlace hash map key value with
        | some stored => .ok stored
        | none =>
            match rehash (hashmapSetFuel hash fuel) map.arr (doubled map) with
            | .error fault => .error fault
            | .ok grown => hashmapSetFuel hash fuel grown key value

/-- The capacity doubles at each nested growth and is a 64-bit power of two,
so 64 levels are never used up. -/
def hashmapSet (hash : Key → UInt64) :
    Hashmap V → Key → V → Except Fault (Hashmap V) :=
  hashmapSetFuel hash 64

def hashmapGet (hash : Key → UInt64) (map : Hashmap V) (key : Key) :
    Except Fault V :=
  if map.cap = 0 then .error .divisionByZero
  else
    match probeGet hash map key with
    | some (pos, .found) => .ok (map.node pos).value
    | _ => .ok 0

def hashmapDelete (hash : Key → UInt64) (map : Hashmap V) (key : Key) :
    Except Fault (Hashmap V × V) :=
  if map.cap = 0 then .error .divisionByZero
  else
    match probeGet hash map key with
    | some (pos, .found) =>
        .ok ({ nodeDelete map pos with size := map.size - 1 },
          (map.node pos).value)
    | _ => .ok (map, 0)

inductive Call (V : Type) where
  | set (key : Key) (value : V)
  | get (key : Key)
  | delete (key : Key)
  deriving DecidableEq, Repr

/-- One call and what it returns; `Hashmap_set` is `void`. -/
def answer (hash : Key → UInt64) (map : Hashmap V) :
    Call V → Except Fault (Hashmap V × Option V)
  | .set key value =>
      match hashmapSet hash map key value with
      | .error fault => .error fault
      | .ok next => .ok (next, none)
  | .get key =>
      match hashmapGet hash map key with
      | .error fault => .error fault
      | .ok value => .ok (map, some value)
  | .delete key =>
      match hashmapDelete hash map key with
      | .error fault => .error fault
      | .ok (next, value) => .ok (next, some value)

def firstByte (key : Key) : UInt64 := (key.headD 0).toUInt64

abbrev Reachable (hash : Key → UInt64) : Hashmap V → Prop :=
  Served (answer hash) hashmapNew

end CsPrimer.BasicHashmap
