import CsPrimer.BasicHashmap.Table
import CsPrimer.Foundation.Footprint

/-!
The functions of `hashmap.c` on a heap. A key is a pointer with a length, the
array of nodes and each stored key are blocks of their own, and a load, a store
or a `free` that has no live block, or goes past its end, is a fault. The table
of `Table.lean` is what this comes to when there is none. Allocation succeeds,
and `map->hash`, which gets a pointer only, reads the bytes of the key.
-/

namespace CsPrimer.BasicHashmap

open Foundation

/-- `Map_node`; a key that was freed is still pointed at. -/
structure HeapNode (V : Type) where
  key : Option Nat
  keyLen : Nat
  value : V
  hash : Nat
  status : Status
  deriving DecidableEq, Repr

/-- What is allocated: a `Hashmap`, whose fields are kept in `HeapMap`, the
array of nodes, or the bytes of a key. -/
inductive Block (V : Type) where
  | map
  | table (nodes : List (HeapNode V))
  | key (bytes : List UInt8)
  deriving DecidableEq, Repr

structure HeapMap where
  self : Nat
  cap : Nat
  arr : Nat
  size : Nat
  deriving DecidableEq, Repr

inductive HeapFault where
  | memory
  | call (fault : Fault)
  deriving DecidableEq, Repr

variable {V : Type}

abbrev Memory (V : Type) := Heap (Block V)

/-- `arr[pos]`. -/
def loadNode (heap : Memory V) (arr pos : Nat) : Except HeapFault (HeapNode V) :=
  match heap.cell arr with
  | some (.table nodes) =>
      match nodes[pos]? with
      | some node => .ok node
      | none => .error .memory
  | _ => .error .memory

/-- `arr[pos] = node`. -/
def storeNode (heap : Memory V) (arr pos : Nat) (node : HeapNode V) :
    Except HeapFault (Memory V) :=
  match heap.cell arr with
  | some (.table nodes) =>
      if pos < nodes.length then
        match heap.store arr (.table (nodes.set pos node)) with
        | some heap => .ok heap
        | none => .error .memory
      else .error .memory
  | _ => .error .memory

def loadBytes (heap : Memory V) (key len : Nat) : Except HeapFault Key :=
  match heap.cell key with
  | some (.key bytes) => if len ≤ bytes.length then .ok (bytes.take len) else .error .memory
  | _ => .error .memory

/-- `free`, which takes a `NULL`. -/
def freeBlock (heap : Memory V) (pointer : Option Nat) : Except HeapFault (Memory V) :=
  heap.freePointer .memory pointer

/-- `if (NODE_OCCUPIED == node.status) free(node.key)`. -/
def freeKey (heap : Memory V) (node : HeapNode V) : Except HeapFault (Memory V) :=
  if node.status = .occupied then freeBlock heap node.key else .ok heap

/-- `key_len == node.key_len && !memcmp(key, node.key, key_len)`. -/
def sameKey (heap : Memory V) (key keyLen : Nat) (node : HeapNode V) :
    Except HeapFault Bool :=
  if keyLen = node.keyLen then
    match node.key with
    | none => .error .memory
    | some id => do
        let bytes ← loadBytes heap key keyLen
        let bytes' ← loadBytes heap id keyLen
        return decide (bytes = bytes')
  else .ok false

def heapProbing (heap : Memory V) (map : HeapMap) (key keyLen hash pos : Nat) :
    Except HeapFault SetFlag := do
  let node ← loadNode heap map.arr pos
  if node.status = .empty then return .found
  else if hash = node.hash then
    if node.status = .deleted then return .found
    else
      let same ← sameKey heap key keyLen node
      return if same then .replace else .hasNext
  else return .needResize

def heapProbing2 (heap : Memory V) (map : HeapMap) (key keyLen hash pos : Nat) :
    Except HeapFault GetFlag := do
  let node ← loadNode heap map.arr pos
  if node.status = .empty then return .stop
  else if hash ≠ node.hash then return .stop
  else if node.status = .deleted then return .next
  else
    let same ← sameKey heap key keyLen node
    return if same then .found else .next

/-- `probeLoop` with a flag that may fault. -/
def heapProbeLoop {Flag : Type} [DecidableEq Flag] (flag : Nat → Except HeapFault Flag)
    (proceed : Flag) (cap hv n : Nat) : Nat → Nat → Except HeapFault (Option (Nat × Flag))
  | 0, _ => .ok none
  | left + 1, i => do
      let t := probeIndex hv i n
      if cap ≤ t then heapProbeLoop flag proceed cap hv n left (i + 1)
      else
        let flg ← flag t
        if flg = proceed then heapProbeLoop flag proceed cap hv n left (i + 1)
        else return some (t, flg)

def heapProbe {Flag : Type} [DecidableEq Flag] (flag : Nat → Except HeapFault Flag)
    (proceed : Flag) (cap hv : Nat) : Except HeapFault (Option (Nat × Flag)) := do
  let flg ← flag hv
  if flg = proceed then
    let n := nextPowerOf2 cap
    heapProbeLoop flag proceed cap hv n n 1
  else return some (hv, flg)

/-- `node_set(arr + pos, ..)`: the old key is freed before the new one is
allocated and copied. -/
def heapNodeSet (heap : Memory V) (arr pos key keyLen : Nat) (value : V) (hash : Nat) :
    Except HeapFault (Memory V) := do
  let node ← loadNode heap arr pos
  let heap ← freeKey heap node
  let bytes ← loadBytes heap key keyLen
  storeNode (heap.alloc (.key bytes)) arr pos
    ⟨some heap.next, keyLen, value, hash, .occupied⟩

/-- `node_delete(arr + pos)`, with the value it returns. -/
def heapNodeDelete (heap : Memory V) (arr pos : Nat) : Except HeapFault (Memory V × V) := do
  let node ← loadNode heap arr pos
  let heap ← freeBlock heap node.key
  let heap ← storeNode heap arr pos { node with status := .deleted, keyLen := 0 }
  return (heap, node.value)

variable [Zero V]

def HeapNode.zeroed : HeapNode V := ⟨none, 0, 0, 0, .empty⟩

def callocTable (cap : Nat) : Block V := .table (List.replicate cap HeapNode.zeroed)

def heapNew : Memory V × HeapMap :=
  let self := (Heap.empty : Memory V).next
  let heap := (Heap.empty : Memory V).alloc .map
  (heap.alloc (callocTable startingBuckets), ⟨self, startingBuckets, heap.next, 0⟩)

omit [Zero V] in
/-- The storing branches of `Hashmap_set`; `none` where it goes on to the
growth. -/
def heapSetInPlace (hash : Key → UInt64) (heap : Memory V) (map : HeapMap)
    (key keyLen : Nat) (value : V) : Except HeapFault (Option (Memory V × HeapMap)) := do
  let bytes ← loadBytes heap key keyLen
  let hv := homeBucket hash map.cap bytes
  let probed ← heapProbe (heapProbing heap map key keyLen hv) .hasNext map.cap hv
  match probed with
  | some (pos, .found) =>
      let heap ← heapNodeSet heap map.arr pos key keyLen value hv
      return some (heap, { map with size := map.size + 1 })
  | some (pos, .replace) =>
      let heap ← heapNodeSet heap map.arr pos key keyLen value hv
      return some (heap, map)
  | _ => return none

omit [Zero V] in
/-- The rehash loop from node `i`, with so many nodes left. Each key is passed
on by its pointer, and freed behind the call. -/
def heapRehash
    (set : Memory V → HeapMap → Nat → Nat → V → Except HeapFault (Memory V × HeapMap))
    (old : Nat) : Nat → Nat → Memory V → HeapMap → Except HeapFault (Memory V × HeapMap)
  | 0, _, heap, map => .ok (heap, map)
  | left + 1, i, heap, map => do
      let node ← loadNode heap old i
      if node.status = .occupied then
        match node.key with
        | none => .error .memory
        | some id =>
            let (heap, map) ← set heap map id node.keyLen node.value
            let node ← loadNode heap old i
            let heap ← freeBlock heap node.key
            heapRehash set old left (i + 1) heap map
      else heapRehash set old left (i + 1) heap map

def heapSetFuel (hash : Key → UInt64) :
    Nat → Memory V → HeapMap → Nat → Nat → V → Except HeapFault (Memory V × HeapMap)
  | 0, _, _, _, _, _ => .error (.call .outOfFuel)
  | fuel + 1, heap, map, key, keyLen, value =>
      if map.cap = 0 then .error (.call .divisionByZero)
      else do
        let stored ← heapSetInPlace hash heap map key keyLen value
        match stored with
        | some result => return result
        | none =>
            let cap := map.cap * 2 % sizeModulus
            let (heap, grown) ← heapRehash (heapSetFuel hash fuel) map.arr map.cap 0
              (heap.alloc (callocTable cap)) { map with cap := cap, arr := heap.next, size := 0 }
            let heap ← freeBlock heap (some map.arr)
            heapSetFuel hash fuel heap grown key keyLen value

def heapSet (hash : Key → UInt64) :
    Memory V → HeapMap → Nat → Nat → V → Except HeapFault (Memory V × HeapMap) :=
  heapSetFuel hash 64

omit [Zero V] in
/-- The probe that `Hashmap_get` and `Hashmap_delete` share. -/
def heapProbeGet (hash : Key → UInt64) (heap : Memory V) (map : HeapMap) (key keyLen : Nat) :
    Except HeapFault (Option (Nat × GetFlag)) :=
  if map.cap = 0 then .error (.call .divisionByZero)
  else do
    let bytes ← loadBytes heap key keyLen
    let hv := homeBucket hash map.cap bytes
    heapProbe (heapProbing2 heap map key keyLen hv) .next map.cap hv

def heapGet (hash : Key → UInt64) (heap : Memory V) (map : HeapMap) (key keyLen : Nat) :
    Except HeapFault V := do
  let probed ← heapProbeGet hash heap map key keyLen
  match probed with
  | some (pos, .found) =>
      let node ← loadNode heap map.arr pos
      return node.value
  | _ => return 0

def heapDelete (hash : Key → UInt64) (heap : Memory V) (map : HeapMap) (key keyLen : Nat) :
    Except HeapFault (Memory V × HeapMap × V) := do
  let probed ← heapProbeGet hash heap map key keyLen
  match probed with
  | some (pos, .found) =>
      let (heap, value) ← heapNodeDelete heap map.arr pos
      return (heap, { map with size := map.size - 1 }, value)
  | _ => return (heap, map, 0)

omit [Zero V] in
/-- The loop of `Hashmap_free` from node `i`, with so many nodes left. -/
def freeKeys (arr : Nat) : Nat → Nat → Memory V → Except HeapFault (Memory V)
  | 0, _, heap => .ok heap
  | left + 1, i, heap => do
      let node ← loadNode heap arr i
      let heap ← freeKey heap node
      freeKeys arr left (i + 1) heap

omit [Zero V] in
def heapFree (heap : Memory V) (map : HeapMap) : Except HeapFault (Memory V) := do
  let heap ← freeKeys map.arr map.cap 0 heap
  let heap ← freeBlock heap (some map.arr)
  freeBlock heap (some map.self)

/-- One call, with a key that the caller allocates for it and frees behind
it. -/
def heapAnswer (hash : Key → UInt64) (state : Memory V × HeapMap) :
    Call V → Except HeapFault ((Memory V × HeapMap) × Option V)
  | .set bytes value => do
      let key := state.1.next
      let (heap, map) ← heapSet hash (state.1.alloc (.key bytes)) state.2 key bytes.length value
      let heap ← freeBlock heap (some key)
      return ((heap, map), none)
  | .get bytes => do
      let key := state.1.next
      let heap := state.1.alloc (.key bytes)
      let value ← heapGet hash heap state.2 key bytes.length
      let heap ← freeBlock heap (some key)
      return ((heap, state.2), some value)
  | .delete bytes => do
      let key := state.1.next
      let (heap, map, value) ←
        heapDelete hash (state.1.alloc (.key bytes)) state.2 key bytes.length
      let heap ← freeBlock heap (some key)
      return ((heap, map), some value)

end CsPrimer.BasicHashmap
