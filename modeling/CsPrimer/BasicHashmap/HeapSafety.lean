import CsPrimer.BasicHashmap.Chains
import CsPrimer.BasicHashmap.HeapNodes

/-!
The functions of `hashmap.c` are memory safe while allocation succeeds and the
hash function reads no more than the key's bytes. A call takes over the blocks
of the map and hands on those of the map it leaves; with the growth, each old
key is freed behind the call that has copied it. So nothing is used after it
was freed, nothing is freed twice, and `Hashmap_free` leaves nothing behind.
-/

namespace CsPrimer.BasicHashmap

open Foundation

variable {V : Type} {heap heap' : Memory V} {arr key keyLen pos : Nat}
  {nodes : List (HeapNode V)} {bytes : Key} {map : HeapMap} {table : Hashmap V}

/-- A set on the heap does what a set on the table does, in the blocks of the
map, for a key that is not among them. -/
def Sets (set : Memory V → HeapMap → Nat → Nat → V → Except HeapFault (Memory V × HeapMap))
    (set' : Hashmap V → Key → V → Except Fault (Hashmap V)) : Prop :=
  ∀ heap map nodes table key keyLen bytes value, TableAt heap map nodes table →
    loadBytes heap key keyLen = .ok bytes → key ∉ footprint map.arr nodes →
    match set' table bytes value with
    | .error fault => set heap map key keyLen value = .error (.call fault)
    | .ok next => ∃ heap' map', set heap map key keyLen value = .ok (heap', map') ∧
        HandsOn heap (footprint map.arr nodes) map.self heap' map' next

variable {set : Memory V → HeapMap → Nat → Nat → V → Except HeapFault (Memory V × HeapMap)}
  {set' : Hashmap V → Key → V → Except Fault (Hashmap V)}
  {old : Nat} {oldNodes : List (HeapNode V)} {entries : List (MapNode V)}

/-- The blocks from node `i` on are live. -/
theorem NodesFrom.live {i id : Nat} (h : NodesFrom heap arr nodes entries i)
    (hid : id ∈ {arr} ∪ keysFrom nodes i) : (heap.cell id).isSome := by
  rcases hid with rfl | ⟨pos, hi, hkey⟩
  · exact Option.isSome_of_eq_some h.table
  · obtain ⟨block, hcell⟩ := h.key_live hi hkey
    exact Option.isSome_of_eq_some hcell

theorem keysFrom_succ (nodes : List (HeapNode V)) (i : Nat) :
    keysFrom nodes i = {id | keyAt nodes i = some id} ∪ keysFrom nodes (i + 1) := by
  ext id
  constructor
  · rintro ⟨p, hi, hkey⟩
    rcases Nat.eq_or_lt_of_le hi with rfl | hlt
    · exact .inl hkey
    · exact .inr ⟨p, hlt, hkey⟩
  · rintro (hkey | ⟨p, hi, hkey⟩)
    · exact ⟨i, le_rfl, hkey⟩
    · exact ⟨p, Nat.le_of_succ_le hi, hkey⟩

theorem keysFrom_length (nodes : List (HeapNode V)) : keysFrom nodes nodes.length = ∅ := by
  ext id
  refine iff_of_false ?_ (Set.notMem_empty _)
  rintro ⟨p, hp, hkey⟩
  rw [keyAt, List.getElem?_eq_none hp] at hkey
  cases hkey

/-- The nodes behind one whose key has been given back. -/
theorem NodesFrom.after_free {i : Nat} (h : NodesFrom heap arr nodes entries i)
    (hgiven : heap.Transfers heap' {id | keyAt nodes i = some id} ∅) :
    NodesFrom heap' arr nodes entries (i + 1) := by
  apply (h.mono (Nat.le_succ i)).keeps
  intro id hid
  rcases hid with rfl | ⟨p, hp, hkey⟩
  · refine hgiven.keeps (fun hfreed => ?_) (Option.isSome_of_eq_some h.table)
    exact h.key_ne_arr le_rfl hfreed rfl
  · refine hgiven.keeps (fun hfreed => ?_) (h.live (.inr ⟨p, Nat.le_of_succ_le hp, hkey⟩))
    have hsame := h.unique hfreed hkey
    omega

/-- The call for an occupied node of the old array, with the node's own key. -/
theorem Sets.old_node (hset : Sets set set') {i : Nat} {node : HeapNode V}
    {entry : MapNode V} (hholds : TableAt heap map nodes table)
    (hapart : ∀ id ∈ keysFrom oldNodes i, id ∉ footprint map.arr nodes)
    (hnode : oldNodes[i]? = some node) (hat : NodeAt heap node entry)
    (hoccupied : node.status = .occupied) :
    ∃ id, node.key = some id ∧
      match set' table entry.key entry.value with
      | .error fault => set heap map id node.keyLen node.value = .error (.call fault)
      | .ok next => ∃ heap' map', set heap map id node.keyLen node.value = .ok (heap', map') ∧
          HandsOn heap (footprint map.arr nodes) map.self heap' map' next := by
  obtain ⟨id, hid, hcell⟩ := hat.key hoccupied
  have hmine : id ∈ keysFrom oldNodes i := by
    refine ⟨i, le_rfl, ?_⟩
    rw [keyAt, hnode, Option.bind_some, HeapNode.owned, if_pos hoccupied, hid]
  have hbytes : loadBytes heap id node.keyLen = .ok entry.key := by
    rw [hat.keyLen]
    exact loadBytes_block hcell
  refine ⟨id, hid, ?_⟩
  rw [hat.value]
  exact hset heap map nodes table id node.keyLen entry.key entry.value hholds hbytes
    (hapart id hmine)

/-- One occupied node of the old array: its entry is set in the new map, and
its key is given back. -/
theorem Sets.rehash_node (hset : Sets set set') {i : Nat} {node : HeapNode V}
    {entry : MapNode V} {next : Hashmap V} (hold : NodesFrom heap old oldNodes entries i)
    (hholds : TableAt heap map nodes table)
    (hapart : ∀ id ∈ {old} ∪ keysFrom oldNodes i, id ∉ footprint map.arr nodes)
    (hnode : oldNodes[i]? = some node) (hat : NodeAt heap node entry)
    (hoccupied : node.status = .occupied) (hnext : set' table entry.key entry.value = .ok next) :
    ∃ id heap₁ map₁ heap₂ nodes₂, node.key = some id ∧
      set heap map id node.keyLen node.value = .ok (heap₁, map₁) ∧
      loadNode heap₁ old i = .ok node ∧ freeBlock heap₁ node.key = .ok heap₂ ∧
      NodesFrom heap₂ old oldNodes entries (i + 1) ∧ map₁.self = map.self ∧
      TableAt heap₂ map₁ nodes₂ next ∧
      (∀ id ∈ {old} ∪ keysFrom oldNodes (i + 1), id ∉ footprint map₁.arr nodes₂) ∧
      heap.Transfers heap₂ (footprint map.arr nodes ∪ keysFrom oldNodes i)
        (footprint map₁.arr nodes₂ ∪ keysFrom oldNodes (i + 1)) := by
  obtain ⟨id, hid, hcall⟩ := hset.old_node hholds (fun id hmine => hapart id (.inr hmine))
    hnode hat hoccupied
  rw [hnext] at hcall
  obtain ⟨heap₁, map₁, hrun, hself, nodes₁, hholds₁, hmoved⟩ := hcall
  -- the call leaves the old array and its keys alone
  have hold₁ : NodesFrom heap₁ old oldNodes entries i :=
    hold.keeps fun other hother => hmoved.keeps (hapart other hother) (hold.live hother)
  have hapart₁ : ∀ other ∈ {old} ∪ keysFrom oldNodes i,
      other ∉ footprint map₁.arr nodes₁ :=
    fun other hother => hmoved.not_mem (hapart other hother) (hold.live hother)
  obtain ⟨heap₂, hfree, hgiven⟩ := hold₁.free_key le_rfl hnode
  rw [freeKey, if_pos hoccupied] at hfree
  have hrest : ∀ other ∈ {old} ∪ keysFrom oldNodes (i + 1),
      other ∈ {old} ∪ keysFrom oldNodes i := by
    intro other hother
    rw [keysFrom_succ oldNodes i]
    rcases hother with hother | hother
    · exact .inl hother
    · exact .inr (.inr hother)
  have hload : loadNode heap₁ old i = .ok node := by
    simp only [loadNode, hold₁.table, hnode]
  refine ⟨id, heap₁, map₁, heap₂, nodes₁, hid, hrun, hload, hfree, hold₁.after_free hgiven,
    hself, ?_, fun other hother => hapart₁ other (hrest other hother), ?_⟩
  · apply hholds₁.keeps
    intro other hother
    refine hgiven.keeps (fun hfreed => ?_) (hholds₁.nodes.live hother)
    exact hapart₁ other (.inr ⟨i, le_rfl, hfreed⟩) hother
  · have hcalled := hmoved.framed (keysFrom oldNodes i)
    refine hcalled.trans ((hgiven.framed
      (footprint map₁.arr nodes₁ ∪ keysFrom oldNodes (i + 1))).of_iff (fun other => ?_)
        (fun other => ?_))
    · rw [keysFrom_succ oldNodes i]
      simp only [Set.mem_union]
      tauto
    · rw [Set.empty_union]

/-- The loop of the growth from node `i`: the keys of the old nodes are handed
in and given back one by one. -/
theorem rehash_sets (hset : Sets set set') (left : Nat) :
    ∀ {i heap map nodes table}, i + left = entries.length →
      NodesFrom heap old oldNodes entries i → TableAt heap map nodes table →
      (∀ id ∈ {old} ∪ keysFrom oldNodes i, id ∉ footprint map.arr nodes) →
      match rehash set' (entries.drop i) table with
      | .error fault => heapRehash set old left i heap map = .error (.call fault)
      | .ok next => ∃ heap' map', heapRehash set old left i heap map = .ok (heap', map') ∧
          HandsOn heap (footprint map.arr nodes ∪ keysFrom oldNodes i) map.self
            heap' map' next := by
  induction left with
  | zero =>
      intro i heap map nodes table hi hold hholds hapart
      rw [Nat.add_zero] at hi
      rw [hi, List.drop_length]
      refine ⟨heap, map, rfl, rfl, nodes, hholds, ?_⟩
      rw [← hold.length, keysFrom_length, Set.union_empty]
      exact Heap.Transfers.refl
  | succ left ih =>
      intro i heap map nodes table hi hold hholds hapart
      have hlt : i < entries.length := by omega
      obtain ⟨node, hnode, hload, hat⟩ := hold.load le_rfl hlt
      rw [List.drop_eq_getElem_cons hlt]
      simp only [rehash, heapRehash, hload, ok_bind, ← hat.status]
      by_cases hoccupied : node.status = .occupied
      · simp only [if_pos hoccupied]
        cases hnext : set' table entries[i].key entries[i].value with
        | error fault =>
            obtain ⟨id, hid, hcall⟩ := hset.old_node hholds
              (fun id hmine => hapart id (.inr hmine)) hnode hat hoccupied
            rw [hnext] at hcall
            simp only [hid, hcall, error_bind]
        | ok next =>
            obtain ⟨id, heap₁, map₁, heap₂, nodes₂, hid, hrun, hreload, hfree, hold₂, hself,
              hholds₂, hapart₂, hmoved⟩ :=
              hset.rehash_node hold hholds hapart hnode hat hoccupied hnext
            have hrest := ih (i := i + 1) (by omega) hold₂ hholds₂ hapart₂
            simp only [hid, hrun, ok_bind, hreload] at hfree ⊢
            simp only [hfree, ok_bind]
            cases hfinal : rehash set' (entries.drop (i + 1)) next with
            | error fault =>
                rw [hfinal] at hrest
                exact hrest
            | ok last =>
                rw [hfinal] at hrest
                obtain ⟨heap', map', hloop, hself', nodes', hholds', hmoved'⟩ := hrest
                exact ⟨heap', map', hloop, hself'.trans hself, nodes', hholds',
                  hmoved.trans hmoved'⟩
      · simp only [if_neg hoccupied]
        have hnone : {id | keyAt oldNodes i = some id} = ∅ := by
          ext id
          simp [keyAt, hnode, HeapNode.owned, hoccupied]
        have hkeys : keysFrom oldNodes i = keysFrom oldNodes (i + 1) := by
          rw [keysFrom_succ, hnone, Set.empty_union]
        rw [hkeys] at hapart ⊢
        exact ih (by omega) (hold.mono (Nat.le_succ i)) hholds hapart

/-- A block that is given back leaves a map alone that does not have it. -/
theorem TableAt.free (h : TableAt heap map nodes table) {id : Nat} (hlive : (heap.cell id).isSome)
    (hout : id ∉ footprint map.arr nodes) :
    ∃ heap', freeBlock heap (some id) = .ok heap' ∧ TableAt heap' map nodes table ∧
      heap.Transfers heap' {id} ∅ := by
  obtain ⟨heap', hfree, hgiven⟩ := Heap.freePointer_ok HeapFault.memory hlive
  refine ⟨heap', hfree, h.keeps fun other hother => ?_, hgiven⟩
  refine hgiven.keeps (fun heq => hout (heq ▸ hother)) (h.nodes.live hother)

/-- The loop of `Hashmap_free`. -/
theorem NodesFrom.freeKeys (left : Nat) :
    ∀ {i heap}, i + left = nodes.length → NodesFrom heap arr nodes entries i →
      ∃ heap', BasicHashmap.freeKeys arr left i heap = .ok heap' ∧
        heap.Transfers heap' (keysFrom nodes i) ∅ := by
  induction left with
  | zero =>
      intro i heap hi _
      rw [Nat.add_zero] at hi
      rw [hi, keysFrom_length]
      exact ⟨heap, rfl, Heap.Transfers.refl⟩
  | succ left ih =>
      intro i heap hi h
      obtain ⟨node, hnode, hload, -⟩ := h.load le_rfl (by rw [← h.length]; omega)
      obtain ⟨freed, hfree, hgiven⟩ := h.free_key le_rfl hnode
      obtain ⟨heap', hrest, hgiven'⟩ := ih (by omega) (h.after_free hgiven)
      refine ⟨heap', ?_, ?_⟩
      · simp only [BasicHashmap.freeKeys, hload, ok_bind, hfree, hrest]
      · rw [keysFrom_succ]
        refine (hgiven.framed (keysFrom nodes (i + 1))).trans (hgiven'.of_iff (fun id => ?_)
          fun _ => Iff.rfl)
        rw [Set.empty_union]

variable [Zero V]

theorem keyAt_replicate (cap pos : Nat) :
    keyAt (List.replicate cap (HeapNode.zeroed : HeapNode V)) pos = none := by
  rw [keyAt, List.getElem?_replicate]
  split <;> rfl

/-- A new array stands for an empty table. -/
theorem calloc_holds (heap : Memory V) (self cap : Nat) :
    TableAt (heap.alloc (callocTable cap)) ⟨self, cap, heap.next, 0⟩
      (List.replicate cap HeapNode.zeroed) (Hashmap.calloc cap) where
  cap := rfl
  size := rfl
  length := List.length_replicate ..
  nodes := {
    table := Heap.alloc_cell_self
    length := by simp [Hashmap.calloc]
    node := by
      intro pos node entry _ hnode hentry
      rw [List.getElem?_replicate] at hnode
      rw [Hashmap.calloc, List.getElem?_replicate] at hentry
      split at hnode
      · rw [if_pos ‹_›] at hentry
        cases hnode
        cases hentry
        refine ⟨rfl, rfl, rfl, rfl, ?_⟩
        intro hstatus
        cases hstatus
      · cases hnode
    unique := by
      intro p q id hp
      rw [keyAt_replicate] at hp
      cases hp }

theorem calloc_footprint (arr cap : Nat) :
    footprint arr (List.replicate cap (HeapNode.zeroed : HeapNode V)) = {arr} := by
  ext id
  rw [mem_footprint, Set.mem_singleton_iff]
  apply or_iff_left
  rintro ⟨pos, hkey⟩
  rw [keyAt_replicate] at hkey
  cases hkey

/-- The growth: a new array, the rehash loop, and the old array given back. -/
theorem TableAt.grow (h : TableAt heap map nodes table) (hset : Sets set set') :
    match rehash set' table.arr (doubled table) with
    | .error fault =>
        heapRehash set map.arr map.cap 0
          (heap.alloc (callocTable (map.cap * 2 % sizeModulus)))
          { map with cap := map.cap * 2 % sizeModulus, arr := heap.next, size := 0 } =
          .error (.call fault)
    | .ok next => ∃ grown heap' map',
        heapRehash set map.arr map.cap 0
          (heap.alloc (callocTable (map.cap * 2 % sizeModulus)))
          { map with cap := map.cap * 2 % sizeModulus, arr := heap.next, size := 0 } =
          .ok (grown, map') ∧
        freeBlock grown (some map.arr) = .ok heap' ∧
        HandsOn heap (footprint map.arr nodes) map.self heap' map' next := by
  have hlive : ∀ id ∈ footprint map.arr nodes, (heap.cell id).isSome :=
    fun id hid => h.nodes.live hid
  have hold : NodesFrom (heap.alloc (callocTable (map.cap * 2 % sizeModulus))) map.arr nodes
      table.arr 0 := by
    refine h.nodes.keeps fun id hid => Heap.alloc_cell_of_live (hlive id hid)
  have hnew := calloc_holds heap map.self (map.cap * 2 % sizeModulus)
  have hapart : ∀ id ∈ {map.arr} ∪ keysFrom nodes 0,
      id ∉ footprint heap.next
        (List.replicate (map.cap * 2 % sizeModulus) (HeapNode.zeroed : HeapNode V)) := by
    intro id hid
    rw [calloc_footprint, Set.mem_singleton_iff]
    rintro rfl
    exact Nat.lt_irrefl _ (Heap.lt_next (hlive _ hid))
  have hloop := rehash_sets hset map.cap (by rw [Nat.zero_add, h.cap, h.length]) hold hnew hapart
  rw [List.drop_zero] at hloop
  rw [doubled, ← h.cap]
  cases hrehash : rehash set' table.arr (Hashmap.calloc (map.cap * 2 % sizeModulus)) with
  | error fault =>
      rw [hrehash] at hloop
      exact hloop
  | ok next =>
      rw [hrehash] at hloop
      obtain ⟨grown, map', hrun, hself, nodes', hholds, hmoved⟩ := hloop
      rw [calloc_footprint] at hmoved
      -- the old array is not among the blocks of the new map
      have harr : map.arr ∉ {heap.next} ∪ keysFrom nodes 0 := by
        rintro (heq | ⟨p, -, hkey⟩)
        · exact Nat.lt_irrefl _ (heq ▸ Heap.lt_next (hlive _ (.inl rfl)))
        · exact h.nodes.key_ne_arr (Nat.zero_le p) hkey rfl
      have harrLive := hold.live (.inl rfl)
      obtain ⟨heap', hfree, hholds', hgiven⟩ := hholds.free
        (by rwa [hmoved.keeps harr harrLive]) (hmoved.not_mem harr harrLive)
      refine ⟨grown, heap', map', hrun, hfree, hself, nodes', hholds', ?_⟩
      have htaken := (Heap.transfers_alloc heap
        (callocTable (map.cap * 2 % sizeModulus) : Block V)).framed (footprint map.arr nodes)
      refine (htaken.trans ((hmoved.framed {map.arr}).of_iff (fun id => ?_) fun _ => Iff.rfl)).trans
        ((hgiven.framed (footprint map'.arr nodes')).of_iff (fun id => ?_) fun id => ?_)
          |>.of_iff (fun id => ?_) fun _ => Iff.rfl
      all_goals simp only [footprint, Set.mem_union, Set.mem_singleton_iff,
        Set.mem_empty_iff_false]
      all_goals tauto

/-- `Hashmap_set` with any number of nested growths. -/
theorem heapSetFuel_sets (hash : Key → UInt64) (fuel : Nat) :
    Sets (heapSetFuel hash fuel : Memory V → _) (hashmapSetFuel hash fuel) := by
  induction fuel with
  | zero => exact fun heap map nodes table key keyLen bytes value _ _ _ => rfl
  | succ fuel ih =>
      intro heap map nodes table key keyLen bytes value h hkey hout
      unfold heapSetFuel hashmapSetFuel
      rw [h.cap]
      by_cases hcap : table.cap = 0
      · rw [if_pos hcap, if_pos hcap]
      have hinPlace := h.setInPlace hkey hout (Nat.pos_of_ne_zero hcap) hash value
      rw [if_neg hcap, if_neg hcap]
      cases hstored : setInPlace hash table bytes value with
      | some stored =>
          rw [hstored] at hinPlace
          obtain ⟨heap', map', hrun, hands⟩ := hinPlace
          refine ⟨heap', map', ?_, hands⟩
          simp only [hrun, ok_bind, pure_eq_ok]
      | none =>
          rw [hstored] at hinPlace
          have hgrow := h.grow ih
          rw [h.cap] at hgrow
          simp only [hinPlace, ok_bind]
          cases hrehash : rehash (hashmapSetFuel hash fuel) table.arr (doubled table) with
          | error fault =>
              rw [hrehash] at hgrow
              simp only [hgrow, error_bind]
          | ok next =>
              rw [hrehash] at hgrow
              obtain ⟨grown, heap', map', hrun, hfree, hself, nodes', hholds, hmoved⟩ := hgrow
              simp only [hrun, ok_bind, hfree]
              -- the key of the caller has been left alone
              obtain ⟨block, hcell, -⟩ := loadBytes_ok hkey
              have hlive := Option.isSome_of_eq_some hcell
              have hagain := ih heap' map' nodes' next key keyLen bytes value hholds
                (by rw [loadBytes_congr (hmoved.keeps hout hlive), hkey])
                (hmoved.not_mem hout hlive)
              cases hlast : hashmapSetFuel hash fuel next bytes value with
              | error fault =>
                  rw [hlast] at hagain
                  exact hagain
              | ok last =>
                  rw [hlast] at hagain
                  obtain ⟨heap'', map'', hset, hself', nodes'', hholds', hmoved'⟩ := hagain
                  exact ⟨heap'', map'', hset, hself'.trans hself, nodes'', hholds',
                    hmoved.trans hmoved'⟩

theorem TableAt.probeGet (h : TableAt heap map nodes table)
    (hkey : loadBytes heap key keyLen = .ok bytes) (hash : Key → UInt64) (hcap : table.cap ≠ 0) :
    heapProbeGet hash heap map key keyLen = .ok (BasicHashmap.probeGet hash table bytes) := by
  have hhv : homeBucket hash table.cap bytes < table.cap :=
    Nat.mod_lt _ (Nat.pos_of_ne_zero hcap)
  have hprobe := h.probeGet_eq hkey hhv
  unfold heapProbeGet
  rw [if_neg (h.cap ▸ hcap)]
  simp only [hkey, ok_bind]
  rw [show homeBucket hash map.cap bytes = homeBucket hash table.cap bytes from h.cap ▸ rfl,
    hprobe]
  rfl

/-- `Hashmap_get` returns what the table has. -/
theorem TableAt.get (h : TableAt heap map nodes table)
    (hkey : loadBytes heap key keyLen = .ok bytes) (hash : Key → UInt64) :
    heapGet hash heap map key keyLen =
      (hashmapGet hash table bytes).mapError HeapFault.call := by
  unfold heapGet hashmapGet
  by_cases hcap : table.cap = 0
  · rw [if_pos hcap]
    simp only [heapProbeGet, h.cap, hcap, if_true, error_bind]
    rfl
  rw [if_neg hcap, h.probeGet hkey hash hcap, ok_bind]
  cases hprobed : BasicHashmap.probeGet hash table bytes with
  | none => rfl
  | some probed =>
      obtain ⟨pos, flag⟩ := probed
      cases flag with
      | stop | next => rfl
      | found =>
          have hhv : homeBucket hash table.cap bytes < table.cap :=
            Nat.mod_lt _ (Nat.pos_of_ne_zero hcap)
          obtain ⟨node, -, hload, hat⟩ := h.load (probe_stops hhv hprobed).1
          simp only [hload, ok_bind, hat.value]
          rfl

/-- `Hashmap_delete` gives back the key that it finds. -/
theorem TableAt.delete (h : TableAt heap map nodes table)
    (hkey : loadBytes heap key keyLen = .ok bytes) (hash : Key → UInt64) :
    match hashmapDelete hash table bytes with
    | .error fault => heapDelete hash heap map key keyLen = .error (.call fault)
    | .ok (next, value) => ∃ heap' map',
        heapDelete hash heap map key keyLen = .ok (heap', map', value) ∧
        HandsOn heap (footprint map.arr nodes) map.self heap' map' next := by
  unfold heapDelete hashmapDelete
  by_cases hcap : table.cap = 0
  · rw [if_pos hcap]
    simp only [heapProbeGet, h.cap, hcap, if_true, error_bind]
  rw [if_neg hcap, h.probeGet hkey hash hcap, ok_bind]
  cases hprobed : BasicHashmap.probeGet hash table bytes with
  | none => exact ⟨heap, map, rfl, rfl, nodes, h, Heap.Transfers.refl⟩
  | some probed =>
      obtain ⟨pos, flag⟩ := probed
      cases flag with
      | stop | next => exact ⟨heap, map, rfl, rfl, nodes, h, Heap.Transfers.refl⟩
      | found =>
          have hhv : homeBucket hash table.cap bytes < table.cap :=
            Nat.mod_lt _ (Nat.pos_of_ne_zero hcap)
          obtain ⟨hpos, hfound⟩ := probe_stops hhv hprobed
          obtain ⟨heap', nodes', hdelete, hholds, hmoved⟩ :=
            h.nodeDelete hpos (probing2_found.mp hfound).1
          refine ⟨heap', { map with size := map.size - 1 }, ?_, rfl, nodes',
            hholds.resize (congrArg (· - 1) h.size), hmoved⟩
          simp only [hdelete, ok_bind, pure_eq_ok]

structure Owned (heap : Memory V) (map : HeapMap) (table : Hashmap V) (nodes : List (HeapNode V)) :
    Prop where
  holds : TableAt heap map nodes table
  self : heap.cell map.self = some .map
  blocks : (Heap.empty : Memory V).Transfers heap ∅ ({map.self} ∪ footprint map.arr nodes)

theorem heapNew_owned :
    Owned (heapNew (V := V)).1 (heapNew (V := V)).2 hashmapNew
      (List.replicate startingBuckets HeapNode.zeroed) where
  holds := calloc_holds _ _ _
  self := rfl
  blocks := by
    have hself := Heap.transfers_alloc (Heap.empty : Memory V) .map
    rw [← Set.empty_union {(Heap.empty : Memory V).next}] at hself
    have harr := hself.andThen (Heap.transfers_alloc _ (callocTable startingBuckets))
    rw [Set.union_comm] at harr
    have hprint := calloc_footprint (V := V) (heapNew (V := V)).2.arr startingBuckets
    rw [hprint]
    exact harr

variable {hash : Key → UInt64}

omit [Zero V] in
/-- The block of the map itself stays out of every call. -/
theorem Owned.self_not_mem (h : Owned heap map table nodes) :
    map.self ∉ footprint map.arr nodes := by
  rintro (heq | ⟨p, -, hkey⟩)
  · have hself := h.self
    rw [Set.mem_singleton_iff.mp heq, h.holds.nodes.table] at hself
    cases hself
  · obtain ⟨block, hcell⟩ := h.holds.nodes.key_live (Nat.zero_le p) hkey
    have hself := h.self
    rw [hcell] at hself
    cases hself

omit [Zero V] in
/-- A call among the blocks of the map, with a key of the caller's that is
there for the call only. -/
theorem Owned.call (h : Owned heap map table nodes) (bytes : Key)
    {table' : Hashmap V} {map' : HeapMap}
    (hands : HandsOn (heap.alloc (.key bytes)) (footprint map.arr nodes) map.self heap' map'
      table') :
    ∃ heap'' nodes', freeBlock heap' (some heap.next) = .ok heap'' ∧
      Owned heap'' map' table' nodes' := by
  obtain ⟨hself, nodes', hholds, hmoved⟩ := hands
  have hlive : ∀ id ∈ {map.self} ∪ footprint map.arr nodes, (heap.cell id).isSome := by
    rintro id (rfl | hid)
    · exact Option.isSome_of_eq_some h.self
    · exact h.holds.nodes.live hid
  have hkeyLive : ((heap.alloc (.key bytes)).cell heap.next).isSome := by
    rw [Heap.alloc_cell_self]
    rfl
  have hkeyOut : heap.next ∉ footprint map.arr nodes := by
    intro hid
    exact Nat.lt_irrefl _ (Heap.lt_next (hlive _ (.inr hid)))
  obtain ⟨heap'', hfree, hholds', hgiven⟩ := hholds.free
    (by rwa [hmoved.keeps hkeyOut hkeyLive]) (hmoved.not_mem hkeyOut hkeyLive)
  have hselfCell : (heap.alloc (.key bytes)).cell map.self = some .map := by
    rw [Heap.alloc_cell_of_live (Option.isSome_of_eq_some h.self), h.self]
  have hselfMoved := hmoved.keeps h.self_not_mem (Option.isSome_of_eq_some hselfCell)
  refine ⟨heap'', nodes', hfree, hholds', ?_, ?_⟩
  · rw [hself, hgiven.keeps ?_ (Option.isSome_of_eq_some (hselfMoved.trans hselfCell)),
      hselfMoved, hselfCell]
    intro heq
    exact Nat.lt_irrefl _ (Set.mem_singleton_iff.mp heq ▸ Heap.lt_next (hlive _ (.inl rfl)))
  · have htaken : (Heap.empty : Memory V).Transfers (heap.alloc (.key bytes)) ∅
        (footprint map.arr nodes ∪ {heap.next, map.self}) := by
      have hblocks := h.blocks
      rw [← Set.empty_union ({map.self} ∪ footprint map.arr nodes)] at hblocks
      refine (hblocks.andThen (Heap.transfers_alloc heap (.key bytes))).of_iff
        (fun _ => Iff.rfl) fun id => ?_
      simp only [Set.mem_union, Set.mem_singleton_iff, Set.mem_insert_iff]
      tauto
    have hcalled : (Heap.empty : Memory V).Transfers heap' ∅
        ({heap.next} ∪ ({map.self} ∪ footprint map'.arr nodes')) := by
      refine (htaken.andThen hmoved).of_iff (fun _ => Iff.rfl) fun id => ?_
      simp only [Set.mem_union, Set.mem_singleton_iff, Set.mem_insert_iff]
      tauto
    have hback := hcalled.andThen hgiven
    rwa [Set.empty_union, ← hself] at hback

omit [Zero V] in
/-- `Hashmap_free` gives back every block. -/
theorem Owned.free (h : Owned heap map table nodes) :
    ∃ heap', heapFree heap map = .ok heap' ∧ (Heap.empty : Memory V).Transfers heap' ∅ ∅ := by
  obtain ⟨keysFreed, hkeys, hkeysGiven⟩ := h.holds.nodes.freeKeys map.cap
    (by rw [Nat.zero_add, h.holds.cap, ← h.holds.length, h.holds.nodes.length])
  have harrOut : map.arr ∉ keysFrom nodes 0 := by
    rintro ⟨p, hp, hkey⟩
    exact h.holds.nodes.key_ne_arr hp hkey rfl
  have hselfOut : map.self ∉ keysFrom nodes 0 := fun hid => h.self_not_mem (.inr hid)
  have hselfLive := Option.isSome_of_eq_some h.self
  obtain ⟨arrFreed, hfreeArr, harrGiven⟩ := Heap.freePointer_ok HeapFault.memory
    (show (keysFreed.cell map.arr).isSome by
      rw [hkeysGiven.keeps harrOut] <;> exact h.holds.nodes.live (.inl rfl))
  have hselfKept : arrFreed.cell map.self = heap.cell map.self := by
    have hkept := hkeysGiven.keeps hselfOut hselfLive
    rw [harrGiven.keeps (fun heq => h.self_not_mem (.inl heq)) (by rwa [hkept]), hkept]
  obtain ⟨heap', hfreeSelf, hselfGiven⟩ := Heap.freePointer_ok HeapFault.memory
    (show (arrFreed.cell map.self).isSome by rwa [hselfKept])
  refine ⟨heap', ?_, ?_⟩
  · simp only [heapFree, hkeys, ok_bind, freeBlock, hfreeArr, hfreeSelf]
  · have hkeysBack : (Heap.empty : Memory V).Transfers keysFreed ∅
        (∅ ∪ ({map.arr} ∪ {map.self})) := by
      refine (h.blocks.of_iff (fun _ => Iff.rfl) fun id => ?_).andThen hkeysGiven
      simp only [footprint, Set.mem_union]
      tauto
    rw [Set.empty_union] at hkeysBack
    have harrBack := hkeysBack.andThen harrGiven
    rw [Set.empty_union] at harrBack
    exact harrBack.trans hselfGiven

def Stands (table : Hashmap V) (state : Memory V × HeapMap) : Prop :=
  ∃ nodes, Owned state.1 state.2 table nodes

theorem Stands.answer {state : Memory V × HeapMap} (h : Stands table state)
    (hash : Key → UInt64) (call : Call V) :
    Agrees HeapFault.call Stands (BasicHashmap.answer hash table call)
      (heapAnswer hash state call) := by
  obtain ⟨heap, map⟩ := state
  obtain ⟨nodes, h⟩ := h
  have hlive : ∀ id ∈ footprint map.arr nodes, (heap.cell id).isSome :=
    fun id hid => h.holds.nodes.live hid
  have hkey : ∀ bytes : Key, loadBytes (heap.alloc (.key bytes : Block V)) heap.next
      bytes.length = .ok bytes := fun bytes => loadBytes_block Heap.alloc_cell_self
  have hholds : ∀ bytes : Key, TableAt (heap.alloc (.key bytes)) map nodes table := fun bytes =>
    h.holds.keeps fun id hid => Heap.alloc_cell_of_live (hlive id hid)
  have hout : heap.next ∉ footprint map.arr nodes :=
    fun hid => Nat.lt_irrefl _ (Heap.lt_next (hlive _ hid))
  cases call with
  | set bytes value =>
      have hset := heapSetFuel_sets hash 64 _ map nodes table _ _ bytes value (hholds bytes)
        (hkey bytes) hout
      simp only [BasicHashmap.answer, heapAnswer, hashmapSet, heapSet]
      cases hrun : hashmapSetFuel hash 64 table bytes value with
      | error fault =>
          rw [hrun] at hset
          simp only [hset, error_bind]
          rfl
      | ok next =>
          rw [hrun] at hset
          obtain ⟨heap', map', hrun', hands⟩ := hset
          obtain ⟨heap'', nodes', hfree, howned⟩ := h.call bytes hands
          exact ⟨(heap'', map'), by simp only [hrun', ok_bind, hfree, pure_eq_ok], nodes', howned⟩
  | get bytes =>
      have hget := (hholds bytes).get (hkey bytes) hash
      simp only [BasicHashmap.answer, heapAnswer, hget]
      cases hrun : hashmapGet hash table bytes with
      | error fault => rfl
      | ok value =>
          obtain ⟨heap', nodes', hfree, howned⟩ := h.call bytes
            ⟨rfl, nodes, hholds bytes, Heap.Transfers.refl⟩
          exact ⟨(heap', map), by simp only [Except.mapError, ok_bind, hfree, pure_eq_ok],
            nodes', howned⟩
  | delete bytes =>
      have hdelete := (hholds bytes).delete (hkey bytes) hash
      simp only [BasicHashmap.answer, heapAnswer]
      cases hrun : hashmapDelete hash table bytes with
      | error fault =>
          rw [hrun] at hdelete
          simp only [hdelete, error_bind]
          rfl
      | ok deleted =>
          obtain ⟨next, value⟩ := deleted
          rw [hrun] at hdelete
          obtain ⟨heap', map', hrun', hands⟩ := hdelete
          obtain ⟨heap'', nodes', hfree, howned⟩ := h.call bytes hands
          exact ⟨(heap'', map'), by simp only [hrun', ok_bind, hfree, pure_eq_ok], nodes', howned⟩

/-- For every hash function of the key's bytes and every sequence of calls on a
new map that the table answers: the calls answer the same on the heap, without a
fault of memory. `Hashmap_free` then leaves no block, and every block that was
ever allocated, the callers' keys among them, has been freed once. -/
theorem hashmap_memory_safe (hash : Key → UInt64) (calls : List (Call V)) {table : Hashmap V}
    {outs : List (Option V)}
    (hanswered : serve (answer hash) (hashmapNew : Hashmap V) calls = .ok (table, outs)) :
    ∃ heap map, serve (heapAnswer hash) heapNew calls = .ok ((heap, map), outs) ∧
      map.cap = table.cap ∧ map.size = table.size ∧
      ∃ heap', heapFree heap map = .ok heap' ∧
        ∀ id, heap'.cell id = none ∧ (id < heap'.next → heap'.released.count id = 1) := by
  have hserve := serve_agrees (fun table state call (h : Stands table state) => h.answer hash call)
    ⟨_, heapNew_owned⟩ calls
  rw [hanswered] at hserve
  obtain ⟨⟨heap, map⟩, hrun, nodes, howned⟩ := hserve
  obtain ⟨heap', hfree, hmoved⟩ := howned.free
  exact ⟨heap, map, hrun, howned.holds.cap, howned.holds.size, heap', hfree, hmoved.all_released⟩

/-- A pair that is replaced, read and deleted: the map's block, its array, the
two copies of the key and the four keys of the caller are all given back. -/
theorem replaced_pair_freed :
    ∃ heap map, serve (heapAnswer fun _ => 3) heapNew
        [.set [1] 5, .set [1] 6, .get [1], .delete [1]] =
          .ok ((heap, map), [none, none, some 6, some 6]) ∧
      map.cap = startingBuckets ∧ map.size = (0 : Nat) ∧
      ∃ heap', heapFree heap map = .ok heap' ∧
        ∀ id, heap'.cell id = none ∧ (id < heap'.next → heap'.released.count id = 1) :=
  have hanswered : serve (answer fun _ => 3) (hashmapNew : Hashmap Nat)
      [.set [1] 5, .set [1] 6, .get [1], .delete [1]] =
        .ok (⟨8, hashmapNew.arr.set 3 ⟨[], 6, 3, .deleted⟩, 0⟩, [none, none, some 6, some 6]) :=
    rfl
  hashmap_memory_safe (fun _ => 3) _ hanswered

end CsPrimer.BasicHashmap
