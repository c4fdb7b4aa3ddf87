import CsPrimer.BasicHashmap.HeapTable

/-!
A map on the heap, and the table it stands for. The map has its array and the
keys of its occupied nodes. Probing sees on the heap what it sees in the table;
`node_set` and `node_delete` do to the array what they do to the table, and
exchange or give back one key.
-/

namespace CsPrimer.BasicHashmap

open Foundation

variable {V : Type} {heap heap' : Memory V} {arr key keyLen pos : Nat}
  {nodes : List (HeapNode V)} {bytes : Key}

/-- The key a node has to free: deleted nodes have freed theirs. -/
def HeapNode.owned (node : HeapNode V) : Option Nat :=
  if node.status = .occupied then node.key else none

def keyAt (nodes : List (HeapNode V)) (pos : Nat) : Option Nat :=
  nodes[pos]?.bind HeapNode.owned

def keysFrom (nodes : List (HeapNode V)) (i : Nat) : Set Nat :=
  {id | ∃ pos, i ≤ pos ∧ keyAt nodes pos = some id}

/-- The blocks of a map, its own apart. -/
def footprint (arr : Nat) (nodes : List (HeapNode V)) : Set Nat :=
  {arr} ∪ keysFrom nodes 0

structure NodeAt (heap : Memory V) (node : HeapNode V) (entry : MapNode V) : Prop where
  value : node.value = entry.value
  hash : node.hash = entry.hash
  status : node.status = entry.status
  keyLen : node.keyLen = entry.key.length
  key : node.status = .occupied →
    ∃ id, node.key = some id ∧ heap.cell id = some (.key entry.key)

theorem keyAt_eq_some {id : Nat} : keyAt nodes pos = some id ↔
    ∃ node, nodes[pos]? = some node ∧ node.status = .occupied ∧ node.key = some id := by
  simp only [keyAt, Option.bind_eq_some_iff, HeapNode.owned, Option.ite_none_right_eq_some]

theorem NodeAt.owned {node : HeapNode V} {entry : MapNode V} {id : Nat}
    (h : NodeAt heap node entry) (howned : node.owned = some id) :
    heap.cell id = some (.key entry.key) := by
  simp only [HeapNode.owned, Option.ite_none_right_eq_some] at howned
  obtain ⟨id', hid', hcell⟩ := h.key howned.1
  obtain rfl := Option.some.inj (howned.2.symm.trans hid')
  exact hcell

theorem NodeAt.keeps {node : HeapNode V} {entry : MapNode V} (h : NodeAt heap node entry)
    (hcell : ∀ id, node.owned = some id → heap'.cell id = heap.cell id) :
    NodeAt heap' node entry where
  value := h.value
  hash := h.hash
  status := h.status
  keyLen := h.keyLen
  key := by
    intro hoccupied
    obtain ⟨id, hid, hkey⟩ := h.key hoccupied
    refine ⟨id, hid, ?_⟩
    rw [hcell id (by rw [HeapNode.owned, if_pos hoccupied, hid]), hkey]

structure NodesFrom (heap : Memory V) (arr : Nat) (nodes : List (HeapNode V))
    (entries : List (MapNode V)) (i : Nat) : Prop where
  table : heap.cell arr = some (.table nodes)
  length : nodes.length = entries.length
  node : ∀ pos node entry, i ≤ pos → nodes[pos]? = some node → entries[pos]? = some entry →
    NodeAt heap node entry
  unique : ∀ {p q id}, keyAt nodes p = some id → keyAt nodes q = some id → p = q

structure TableAt (heap : Memory V) (map : HeapMap) (nodes : List (HeapNode V))
    (table : Hashmap V) : Prop where
  cap : map.cap = table.cap
  size : map.size = table.size
  length : table.arr.length = table.cap
  nodes : NodesFrom heap map.arr nodes table.arr 0

variable {entries : List (MapNode V)} {i : Nat}

theorem mem_footprint {id : Nat} :
    id ∈ footprint arr nodes ↔ id = arr ∨ ∃ pos, keyAt nodes pos = some id := by
  simp [footprint, keysFrom]

theorem NodesFrom.key_live (h : NodesFrom heap arr nodes entries i) (hi : i ≤ pos) {id : Nat}
    (hkey : keyAt nodes pos = some id) : ∃ bytes, heap.cell id = some (.key bytes) := by
  obtain ⟨node, hnode, hoccupied, hid⟩ := keyAt_eq_some.mp hkey
  obtain ⟨hlt, -⟩ := List.getElem?_eq_some_iff.mp hnode
  have hentry := List.getElem?_eq_getElem (h.length ▸ hlt)
  obtain ⟨id', hid', hcell⟩ := (h.node pos node _ hi hnode hentry).key hoccupied
  obtain rfl := Option.some.inj (hid.symm.trans hid')
  exact ⟨_, hcell⟩

theorem NodesFrom.key_ne_arr (h : NodesFrom heap arr nodes entries i) (hi : i ≤ pos) {id : Nat}
    (hkey : keyAt nodes pos = some id) : id ≠ arr := by
  rintro rfl
  obtain ⟨bytes, hcell⟩ := h.key_live hi hkey
  rw [h.table] at hcell
  cases hcell

/-- Nodes that nothing has written to. -/
theorem NodesFrom.keeps (h : NodesFrom heap arr nodes entries i)
    (hcell : ∀ id ∈ {arr} ∪ keysFrom nodes i, heap'.cell id = heap.cell id) :
    NodesFrom heap' arr nodes entries i where
  table := by rw [hcell arr (.inl rfl), h.table]
  length := h.length
  node := by
    intro pos node entry hi hnode hentry
    apply (h.node pos node entry hi hnode hentry).keeps
    intro id hid
    exact hcell id (.inr ⟨pos, hi, by rw [keyAt, hnode]; exact hid⟩)
  unique := h.unique

theorem NodesFrom.mono (h : NodesFrom heap arr nodes entries i) {j : Nat} (hij : i ≤ j) :
    NodesFrom heap arr nodes entries j where
  table := h.table
  length := h.length
  node := fun pos node entry hj => h.node pos node entry (hij.trans hj)
  unique := h.unique

/-- A map no block of which was touched. -/
theorem TableAt.keeps {map : HeapMap} {table : Hashmap V} (h : TableAt heap map nodes table)
    (hcell : ∀ id ∈ footprint map.arr nodes, heap'.cell id = heap.cell id) :
    TableAt heap' map nodes table :=
  ⟨h.cap, h.size, h.length, h.nodes.keeps hcell⟩

theorem NodesFrom.load (h : NodesFrom heap arr nodes entries i) (hi : i ≤ pos)
    (hpos : pos < entries.length) :
    ∃ node, nodes[pos]? = some node ∧ loadNode heap arr pos = .ok node ∧
      NodeAt heap node entries[pos] := by
  have hlt : pos < nodes.length := h.length ▸ hpos
  have hnode := List.getElem?_eq_getElem hlt
  refine ⟨nodes[pos], hnode, ?_, h.node pos _ _ hi hnode (List.getElem?_eq_getElem hpos)⟩
  simp only [loadNode, h.table, hnode]

theorem loadBytes_ok (h : loadBytes heap key keyLen = .ok bytes) :
    ∃ block, heap.cell key = some (.key block) ∧ keyLen ≤ block.length ∧
      bytes = block.take keyLen := by
  unfold loadBytes at h
  split at h
  · split at h
    · rename_i block hcell hle
      cases h
      exact ⟨block, hcell, hle, rfl⟩
    · cases h
  · cases h

theorem loadBytes_length (h : loadBytes heap key keyLen = .ok bytes) :
    bytes.length = keyLen := by
  obtain ⟨block, -, hle, rfl⟩ := loadBytes_ok h
  rw [List.length_take, Nat.min_eq_left hle]

/-- A key in a block of its own length. -/
theorem loadBytes_block (h : heap.cell key = some (.key bytes)) :
    loadBytes heap key bytes.length = .ok bytes := by
  simp only [loadBytes, h, le_refl, if_true, List.take_length]

theorem loadBytes_congr (h : heap'.cell key = heap.cell key) :
    loadBytes heap' key keyLen = loadBytes heap key keyLen := by
  simp only [loadBytes, h]

theorem sameKey_eq {node : HeapNode V} {entry : MapNode V}
    (hkey : loadBytes heap key keyLen = .ok bytes) (hnode : NodeAt heap node entry)
    (hoccupied : node.status = .occupied) :
    sameKey heap key keyLen node = .ok (decide (bytes = entry.key)) := by
  obtain ⟨id, hid, hcell⟩ := hnode.key hoccupied
  have hlength := loadBytes_length hkey
  unfold sameKey
  split
  · rename_i hsame
    have hentry : loadBytes heap id keyLen = .ok entry.key := by
      rw [hsame, hnode.keyLen]
      exact loadBytes_block hcell
    simp only [hid, hkey, hentry]
    rfl
  · rename_i hdiffer
    rw [hnode.keyLen, ← hlength] at hdiffer
    have hne : bytes ≠ entry.key := fun heq => hdiffer (congrArg List.length heq)
    rw [decide_eq_false hne]

/-- Probing does not fault, and sees what the table has. -/
theorem heapProbe_eq {Flag : Type} [DecidableEq Flag] {flag : Nat → Except HeapFault Flag}
    {flag' : Nat → Flag} {proceed : Flag} {cap hv : Nat}
    (hflag : ∀ t < cap, flag t = .ok (flag' t)) (hhv : hv < cap) :
    heapProbe flag proceed cap hv = .ok (probe flag' proceed cap hv) := by
  have hloop : ∀ n left i, heapProbeLoop flag proceed cap hv n left i =
      .ok (probeLoop flag' proceed cap hv n left i) := by
    intro n left
    induction left with
    | zero => exact fun _ => rfl
    | succ left ih =>
        intro i
        unfold heapProbeLoop probeLoop
        by_cases hout : cap ≤ probeIndex hv i n
        · simp only [if_pos hout, ih]
        · simp only [if_neg hout, hflag _ (Nat.lt_of_not_le hout), ok_bind, ih]
          split <;> rfl
  unfold heapProbe probe
  simp only [hflag hv hhv, ok_bind, hloop]
  split <;> rfl

variable [Zero V] {map : HeapMap} {table : Hashmap V}

theorem TableAt.load (h : TableAt heap map nodes table) (hpos : pos < table.cap) :
    ∃ node, nodes[pos]? = some node ∧ loadNode heap map.arr pos = .ok node ∧
      NodeAt heap node (table.node pos) := by
  have hlt : pos < table.arr.length := h.length.symm ▸ hpos
  obtain ⟨node, hnode, hload, hat⟩ := h.nodes.load (Nat.zero_le _) hlt
  refine ⟨node, hnode, hload, ?_⟩
  rw [Hashmap.node, List.getD_eq_getElem?_getD, List.getElem?_eq_getElem hlt]
  exact hat

theorem TableAt.probing_eq (h : TableAt heap map nodes table)
    (hkey : loadBytes heap key keyLen = .ok bytes) (hash : Nat) (hpos : pos < table.cap) :
    heapProbing heap map key keyLen hash pos = .ok (probing table bytes hash pos) := by
  obtain ⟨node, -, hload, hat⟩ := h.load hpos
  simp only [heapProbing, probing, hload, ok_bind, ← hat.status, ← hat.hash]
  cases hstatus : node.status with
  | empty => rfl
  | deleted =>
      simp only [reduceCtorEq, if_false, if_true]
      split <;> rfl
  | occupied =>
      simp only [reduceCtorEq, if_false, sameKey_eq hkey hat hstatus, ok_bind, pure_eq_ok,
        decide_eq_true_eq]
      split
      · split <;> rfl
      · rfl

theorem TableAt.probing2_eq (h : TableAt heap map nodes table)
    (hkey : loadBytes heap key keyLen = .ok bytes) (hash : Nat) (hpos : pos < table.cap) :
    heapProbing2 heap map key keyLen hash pos = .ok (probing2 table bytes hash pos) := by
  obtain ⟨node, -, hload, hat⟩ := h.load hpos
  simp only [heapProbing2, probing2, hload, ok_bind, ← hat.status, ← hat.hash]
  cases hstatus : node.status with
  | empty => rfl
  | deleted =>
      simp only [reduceCtorEq, if_false, if_true, true_or]
      split <;> rfl
  | occupied =>
      simp only [reduceCtorEq, if_false, false_or, sameKey_eq hkey hat hstatus, ok_bind,
        pure_eq_ok, decide_eq_true_eq]
      split
      · rfl
      · by_cases heq : bytes = (table.node pos).key <;> simp [heq]

theorem TableAt.probeSet_eq (h : TableAt heap map nodes table)
    (hkey : loadBytes heap key keyLen = .ok bytes) {hv : Nat} (hhv : hv < table.cap) :
    heapProbe (heapProbing heap map key keyLen hv) .hasNext map.cap hv =
      .ok (probe (probing table bytes hv) .hasNext table.cap hv) := by
  rw [h.cap]
  exact heapProbe_eq (fun t ht => h.probing_eq hkey hv ht) hhv

theorem TableAt.probeGet_eq (h : TableAt heap map nodes table)
    (hkey : loadBytes heap key keyLen = .ok bytes) {hv : Nat} (hhv : hv < table.cap) :
    heapProbe (heapProbing2 heap map key keyLen hv) .next map.cap hv =
      .ok (probe (probing2 table bytes hv) .next table.cap hv) := by
  rw [h.cap]
  exact heapProbe_eq (fun t ht => h.probing2_eq hkey hv ht) hhv

omit [Zero V] in
theorem keyAt_set {node : HeapNode V} (hpos : pos < nodes.length) (p : Nat) :
    keyAt (nodes.set pos node) p = if p = pos then node.owned else keyAt nodes p := by
  unfold keyAt
  split
  · rename_i heq
    subst heq
    rw [List.getElem?_set_self hpos]
    rfl
  · rename_i hne
    rw [List.getElem?_set_ne (Ne.symm hne)]

def otherKeys (nodes : List (HeapNode V)) (pos : Nat) : Set Nat :=
  {id | ∃ p, p ≠ pos ∧ keyAt nodes p = some id}

omit [Zero V] in
/-- The blocks of a map, those of one node first. -/
theorem footprint_eq (arr : Nat) (nodes : List (HeapNode V)) (pos : Nat) :
    footprint arr nodes =
      {id | keyAt nodes pos = some id} ∪ ({arr} ∪ otherKeys nodes pos) := by
  ext id
  rw [mem_footprint]
  simp only [otherKeys, Set.mem_union, Set.mem_singleton_iff, Set.mem_ofPred_eq]
  constructor
  · rintro (rfl | ⟨p, hkey⟩)
    · exact .inr (.inl rfl)
    · rcases eq_or_ne p pos with rfl | hne
      · exact .inl hkey
      · exact .inr (.inr ⟨p, hne, hkey⟩)
  · rintro (hmine | rfl | ⟨p, -, hother⟩)
    · exact .inr ⟨pos, hmine⟩
    · exact .inl rfl
    · exact .inr ⟨p, hother⟩

omit [Zero V] in
theorem footprint_set {node : HeapNode V} (arr : Nat) (hpos : pos < nodes.length) :
    footprint arr (nodes.set pos node) =
      {id | node.owned = some id} ∪ ({arr} ∪ otherKeys nodes pos) := by
  have hothers : otherKeys (nodes.set pos node) pos = otherKeys nodes pos := by
    ext id
    refine exists_congr fun p => and_congr_right fun hne => ?_
    rw [keyAt_set hpos, if_neg hne]
  rw [footprint_eq arr _ pos, hothers, keyAt_set hpos, if_pos rfl]

omit [Zero V] in
/-- To free the key of a node, if it has one. -/
theorem NodesFrom.free_key (h : NodesFrom heap arr nodes entries i) (hi : i ≤ pos)
    {node : HeapNode V} (hnode : nodes[pos]? = some node) :
    ∃ heap', freeKey heap node = .ok heap' ∧
      heap.Transfers heap' {id | keyAt nodes pos = some id} ∅ := by
  unfold freeKey
  by_cases hoccupied : node.status = .occupied
  · have hlt := (List.getElem?_eq_some_iff.mp hnode).1
    obtain ⟨id, hid, hcell⟩ := (h.node pos node _ hi hnode
      (List.getElem?_eq_getElem (h.length ▸ hlt))).key hoccupied
    obtain ⟨heap', hfree, hgiven⟩ :=
      Heap.freePointer_ok HeapFault.memory (Option.isSome_of_eq_some hcell)
    refine ⟨heap', by simp only [if_pos hoccupied, hid, freeBlock, hfree], ?_⟩
    refine hgiven.of_iff (fun other => ?_) (fun _ => Iff.rfl)
    rw [Set.mem_singleton_iff, Set.mem_ofPred_eq, keyAt, hnode, Option.bind_some,
      HeapNode.owned, if_pos hoccupied, hid, Option.some.injEq, eq_comm]
  · refine ⟨heap, if_neg hoccupied, Heap.Transfers.refl.of_iff (fun other => ?_)
      (fun _ => Iff.rfl)⟩
    simp [keyAt, hnode, HeapNode.owned, hoccupied]

omit [Zero V] in
theorem storeNode_ok (htable : heap.cell arr = some (.table nodes)) (hpos : pos < nodes.length)
    (node : HeapNode V) :
    ∃ heap', storeNode heap arr pos node = .ok heap' ∧ heap.Transfers heap' {arr} {arr} ∧
      heap'.cell arr = some (.table (nodes.set pos node)) := by
  obtain ⟨heap', hstore, -⟩ := Heap.store_of_live (a := .table (nodes.set pos node))
    (Option.isSome_of_eq_some htable)
  obtain ⟨htransfers, hcell⟩ := Heap.transfers_store hstore
  refine ⟨heap', ?_, htransfers, hcell⟩
  simp only [storeNode, htable, if_pos hpos, hstore]

omit [Zero V] in
/-- One node and its key are exchanged for others; the new key was not there
before. -/
theorem NodesFrom.set (h : NodesFrom heap arr nodes entries 0) (hpos : pos < nodes.length)
    {node : HeapNode V} {entry : MapNode V}
    (htable : heap'.cell arr = some (.table (nodes.set pos node)))
    (hnew : NodeAt heap' node entry)
    (hfresh : ∀ id, node.owned = some id → heap.next ≤ id)
    (hkeep : ∀ id, (heap.cell id).isSome → id ≠ arr → keyAt nodes pos ≠ some id →
      heap'.cell id = heap.cell id) :
    NodesFrom heap' arr (nodes.set pos node) (entries.set pos entry) 0 := by
  have hlive : ∀ {p id}, keyAt nodes p = some id → (heap.cell id).isSome := by
    intro p id hkey
    obtain ⟨block, hcell⟩ := h.key_live (Nat.zero_le p) hkey
    exact Option.isSome_of_eq_some hcell
  refine ⟨htable, by simp [h.length], ?_, ?_⟩
  · intro p node' entry' _ hnode hentry
    rcases eq_or_ne p pos with rfl | hne
    · rw [List.getElem?_set_self hpos] at hnode
      rw [List.getElem?_set_self (h.length ▸ hpos)] at hentry
      cases hnode
      cases hentry
      exact hnew
    · rw [List.getElem?_set_ne hne.symm] at hnode hentry
      apply (h.node p node' entry' (Nat.zero_le _) hnode hentry).keeps
      intro id hid
      have hkey : keyAt nodes p = some id := by rw [keyAt, hnode]; exact hid
      apply hkeep id (hlive hkey) (h.key_ne_arr (Nat.zero_le _) hkey)
      intro hmine
      exact hne (h.unique hkey hmine)
  · intro p q id hp hq
    rw [keyAt_set hpos] at hp hq
    have hold : ∀ {p}, keyAt nodes p = some id → node.owned ≠ some id := by
      intro p hkey hown
      exact Nat.lt_irrefl _ (Nat.lt_of_lt_of_le (Heap.lt_next (hlive hkey)) (hfresh id hown))
    split at hp <;> split at hq
    · exact ‹p = pos›.trans ‹q = pos›.symm
    · exact absurd hp (hold hq)
    · exact absurd hq (hold hp)
    · exact h.unique hp hq

/-- `node_set` at a node of the array: the map then has the new key for the
one it had there, if any. -/
theorem TableAt.nodeSet (h : TableAt heap map nodes table)
    (hkey : loadBytes heap key keyLen = .ok bytes) (hout : key ∉ footprint map.arr nodes)
    (hpos : pos < table.cap) (value : V) (hash : Nat) :
    ∃ heap' nodes', heapNodeSet heap map.arr pos key keyLen value hash = .ok heap' ∧
      TableAt heap' map nodes' (BasicHashmap.nodeSet table pos bytes value hash) ∧
      heap.Transfers heap' (footprint map.arr nodes) (footprint map.arr nodes') := by
  obtain ⟨node, hnode, hload, -⟩ := h.load hpos
  have hlt := (List.getElem?_eq_some_iff.mp hnode).1
  obtain ⟨freed, hfreed, hgiven⟩ := h.nodes.free_key (Nat.zero_le _) hnode
  -- the caller's key is still there, and so are the nodes
  have hlive : (heap.cell key).isSome := by
    obtain ⟨block, hcell, -⟩ := loadBytes_ok hkey
    exact Option.isSome_of_eq_some hcell
  have hbytes : loadBytes freed key keyLen = .ok bytes := by
    rw [loadBytes_congr (hgiven.keeps ?_ hlive), hkey]
    exact fun hmine => hout (mem_footprint.mpr (.inr ⟨pos, hmine⟩))
  have harr : freed.cell map.arr = some (.table nodes) := by
    rw [hgiven.keeps ?_ (Option.isSome_of_eq_some h.nodes.table), h.nodes.table]
    exact fun hmine => h.nodes.key_ne_arr (Nat.zero_le _) hmine rfl
  have harrNew : (freed.alloc (.key bytes)).cell map.arr = some (.table nodes) := by
    rw [Heap.alloc_cell_of_live (Option.isSome_of_eq_some harr), harr]
  obtain ⟨heap', hstore, hwritten, htable⟩ := storeNode_ok harrNew hlt
    ⟨some freed.next, keyLen, value, hash, .occupied⟩
  have hnewKey : heap'.cell freed.next = some (.key bytes) := by
    rw [hwritten.keeps ?_ (by rw [Heap.alloc_cell_self]; rfl), Heap.alloc_cell_self]
    intro heq
    rw [← Set.mem_singleton_iff.mp heq, freed.unused _ le_rfl] at harr
    cases harr
  refine ⟨heap', nodes.set pos ⟨some freed.next, keyLen, value, hash, .occupied⟩, ?_,
    ⟨h.cap, h.size, ?_, h.nodes.set hlt htable ?_ ?_ ?_⟩, ?_⟩
  · simp only [heapNodeSet, hload, ok_bind, hfreed, hbytes]
    exact hstore
  · simp only [BasicHashmap.nodeSet, List.length_set]
    exact h.length
  · exact ⟨rfl, rfl, rfl, (loadBytes_length hkey).symm, fun _ => ⟨_, rfl, hnewKey⟩⟩
  · rintro id hid
    cases hid
    exact hgiven.next_le
  · intro id hid hne hother
    have hfreedId := hgiven.keeps hother hid
    rw [hwritten.keeps hne, Heap.alloc_cell_of_live, hfreedId]
    · rwa [hfreedId]
    · rw [Heap.alloc_cell_of_live] <;> rwa [hfreedId]
  · -- the old key is given back, the new one taken, and the node written
    have htaken := (Heap.transfers_alloc freed (.key bytes)).framed
      ({map.arr} ∪ otherKeys nodes pos)
    have hchain := ((hgiven.framed ({map.arr} ∪ otherKeys nodes pos)).trans htaken).trans
      ((hwritten.framed ({freed.next} ∪ otherKeys nodes pos)).of_iff (fun id => by
        simp only [Set.mem_union, Set.mem_singleton_iff]; tauto) fun _ => Iff.rfl)
    rw [footprint_eq map.arr nodes pos, footprint_set map.arr hlt]
    refine hchain.of_iff (fun _ => Iff.rfl) (fun id => ?_)
    simp only [Set.mem_union, Set.mem_singleton_iff, Set.mem_ofPred_eq, HeapNode.owned,
      if_true, Option.some.injEq]
    tauto

/-- `node_delete` at an occupied node: its key is given back. -/
theorem TableAt.nodeDelete (h : TableAt heap map nodes table) (hpos : pos < table.cap)
    (hoccupied : (table.node pos).status = .occupied) :
    ∃ heap' nodes', heapNodeDelete heap map.arr pos = .ok (heap', (table.node pos).value) ∧
      TableAt heap' map nodes' (BasicHashmap.nodeDelete table pos) ∧
      heap.Transfers heap' (footprint map.arr nodes) (footprint map.arr nodes') := by
  obtain ⟨node, hnode, hload, hat⟩ := h.load hpos
  have hlt := (List.getElem?_eq_some_iff.mp hnode).1
  obtain ⟨freed, hfreed, hgiven⟩ := h.nodes.free_key (Nat.zero_le _) hnode
  have hkept : freeBlock heap node.key = .ok freed := by
    rwa [freeKey, if_pos (hat.status.trans hoccupied)] at hfreed
  have harr : freed.cell map.arr = some (.table nodes) := by
    rw [hgiven.keeps ?_ (Option.isSome_of_eq_some h.nodes.table), h.nodes.table]
    exact fun hmine => h.nodes.key_ne_arr (Nat.zero_le _) hmine rfl
  obtain ⟨heap', hstore, hwritten, htable⟩ := storeNode_ok harr hlt
    { node with status := .deleted, keyLen := 0 }
  refine ⟨heap', nodes.set pos { node with status := .deleted, keyLen := 0 }, ?_,
    ⟨h.cap, h.size, ?_, h.nodes.set hlt htable ?_ ?_ ?_⟩, ?_⟩
  · rw [← hat.value]
    simp only [heapNodeDelete, hload, ok_bind, hkept, hstore, pure_eq_ok]
  · simp only [BasicHashmap.nodeDelete, List.length_set]
    exact h.length
  · exact ⟨hat.value, hat.hash, rfl, rfl, fun hdeleted => nomatch hdeleted⟩
  · intro id hid
    cases hid
  · intro id hid hne hother
    have hfreedId := hgiven.keeps hother hid
    rw [hwritten.keeps hne, hfreedId]
    rwa [hfreedId]
  · rw [footprint_eq map.arr nodes pos, footprint_set map.arr hlt]
    refine ((hgiven.framed ({map.arr} ∪ otherKeys nodes pos)).trans
      ((hwritten.framed (otherKeys nodes pos)).of_iff (fun id => ?_) fun _ => Iff.rfl)).of_iff
        (fun _ => Iff.rfl) (fun id => ?_)
    · simp
    · simp [HeapNode.owned]

omit [Zero V] in
/-- A probe stops within the array, at a node with the flag it returns. -/
theorem probe_stops {Flag : Type} [DecidableEq Flag] {flag : Nat → Flag} {proceed f : Flag}
    {cap hv : Nat} (hhv : hv < cap) (h : probe flag proceed cap hv = some (pos, f)) :
    pos < cap ∧ flag pos = f := by
  have hloop : ∀ n left i, probeLoop flag proceed cap hv n left i = some (pos, f) →
      pos < cap ∧ flag pos = f := by
    intro n left
    induction left with
    | zero => exact fun i h => nomatch h
    | succ left ih =>
        intro i hsome
        simp only [probeLoop] at hsome
        split at hsome
        · exact ih _ hsome
        · rename_i hinside
          split at hsome
          · exact ih _ hsome
          · cases hsome
            exact ⟨Nat.lt_of_not_le hinside, rfl⟩
  simp only [probe] at h
  split at h
  · exact hloop _ _ _ h
  · cases h
    exact ⟨hhv, rfl⟩

/-- From the blocks `before` to those of a map that stands for `table`. -/
def HandsOn (heap : Memory V) (before : Set Nat) (self : Nat) (heap' : Memory V)
    (map : HeapMap) (table : Hashmap V) : Prop :=
  map.self = self ∧ ∃ nodes, TableAt heap' map nodes table ∧
    heap.Transfers heap' before (footprint map.arr nodes)

omit [Zero V] in
theorem TableAt.resize (h : TableAt heap map nodes table) {size size' : Nat}
    (hsize : size = size') :
    TableAt heap { map with size := size } nodes { table with size := size' } :=
  ⟨h.cap, hsize, h.length, h.nodes⟩

theorem TableAt.setInPlace (h : TableAt heap map nodes table)
    (hkey : loadBytes heap key keyLen = .ok bytes) (hout : key ∉ footprint map.arr nodes)
    (hcap : 0 < table.cap) (hash : Key → UInt64) (value : V) :
    match BasicHashmap.setInPlace hash table bytes value with
    | none => heapSetInPlace hash heap map key keyLen value = .ok none
    | some stored => ∃ heap' map',
        heapSetInPlace hash heap map key keyLen value = .ok (some (heap', map')) ∧
        HandsOn heap (footprint map.arr nodes) map.self heap' map' stored := by
  have hhv : homeBucket hash table.cap bytes < table.cap := Nat.mod_lt _ hcap
  have hprobe := h.probeSet_eq hkey hhv
  simp only [heapSetInPlace, BasicHashmap.setInPlace, probeSet, hkey, ok_bind]
  rw [show homeBucket hash map.cap bytes = homeBucket hash table.cap bytes from h.cap ▸ rfl,
    hprobe, ok_bind]
  cases hprobed : probe (probing table bytes (homeBucket hash table.cap bytes)) .hasNext
      table.cap (homeBucket hash table.cap bytes) with
  | none => rfl
  | some probed =>
      obtain ⟨pos, flag⟩ := probed
      obtain ⟨hpos, -⟩ := probe_stops hhv hprobed
      obtain ⟨heap', nodes', hset, hholds, htransfers⟩ :=
        h.nodeSet hkey hout hpos value (homeBucket hash table.cap bytes)
      cases flag with
      | needResize | hasNext => rfl
      | found =>
          refine ⟨heap', { map with size := map.size + 1 }, ?_, rfl, nodes',
            hholds.resize (congrArg (· + 1) h.size), htransfers⟩
          simp only [hset, ok_bind, pure_eq_ok]
      | replace =>
          refine ⟨heap', map, ?_, rfl, nodes', hholds, htransfers⟩
          simp only [hset, ok_bind, pure_eq_ok]

end CsPrimer.BasicHashmap
