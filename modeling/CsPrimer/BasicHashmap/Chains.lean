import CsPrimer.BasicHashmap.Probe

/-!
The probe-chain invariant. A used slot is reached from its home bucket
through slots of the same home bucket only; tombstones keep their hash, so
deletions do not break a chain, and a probe never skips an occupied slot of
its own bucket.
-/

namespace CsPrimer.BasicHashmap

variable {V : Type} [Zero V] {hash : Key → UInt64} {map next : Hashmap V}
  {key : Key} {value : V} {pos p : Nat}

/-- Overwrite one slot; both `node_set` and `node_delete` have this form. -/
def Hashmap.put (map : Hashmap V) (pos : Nat) (new : MapNode V) (size : Nat) :
    Hashmap V :=
  { map with arr := map.arr.set pos new, size := size }

omit [Zero V] in
@[simp]
theorem put_cap (new : MapNode V) (size : Nat) :
    (map.put pos new size).cap = map.cap := rfl

omit [Zero V] in
@[simp]
theorem put_length (new : MapNode V) (size : Nat) :
    (map.put pos new size).arr.length = map.arr.length := by
  simp [Hashmap.put]

theorem put_node_self (new : MapNode V) (size : Nat)
    (hpos : pos < map.arr.length) : (map.put pos new size).node pos = new := by
  simp [Hashmap.put, Hashmap.node, List.getD_eq_getElem?_getD, hpos]

theorem put_node_ne (new : MapNode V) (size : Nat) (hne : p ≠ pos) :
    (map.put pos new size).node p = map.node p := by
  simp [Hashmap.put, Hashmap.node, List.getD_eq_getElem?_getD,
    List.getElem?_set_ne hne.symm]

@[simp]
theorem calloc_node (cap p : Nat) :
    (Hashmap.calloc cap : Hashmap V).node p = MapNode.zeroed := by
  simp only [Hashmap.calloc, Hashmap.node, List.getD_eq_getElem?_getD,
    List.getElem?_replicate]
  split <;> rfl

theorem lt_length_of_used (h : (map.node p).status ≠ .empty) :
    p < map.arr.length := by
  by_contra hle
  apply h
  simp [Hashmap.node, List.getD_eq_getElem?_getD,
    List.getElem?_eq_none (show map.arr.length ≤ p by omega), MapNode.zeroed]

theorem node_mem (h : p < map.arr.length) : map.node p ∈ map.arr := by
  simp [Hashmap.node, List.getD_eq_getElem?_getD, h]

theorem exists_node_of_mem {node : MapNode V} (h : node ∈ map.arr) :
    ∃ p < map.arr.length, map.node p = node := by
  obtain ⟨p, hp, rfl⟩ := List.getElem_of_mem h
  exact ⟨p, hp, by simp [Hashmap.node, List.getD_eq_getElem?_getD, hp]⟩

/-- Slot `p` is on the chain of home bucket `h`: it is a position of the probe
sequence, and the positions before it are used slots of the same bucket. -/
def OnChain (map : Hashmap V) (h p : Nat) : Prop :=
  ∃ j ≤ map.cap, probeSeq map.cap h j = p ∧
    ∀ i < j, (map.node (probeSeq map.cap h i)).status ≠ .empty ∧
      (map.node (probeSeq map.cap h i)).hash = h

def Hashmap.occupied (map : Hashmap V) : Nat :=
  map.arr.countP (fun node => node.status = .occupied)

structure Intact (hash : Key → UInt64) (map : Hashmap V) : Prop where
  capacity : IsCapacity map.cap
  arr_length : map.arr.length = map.cap
  home : ∀ p, (map.node p).status = .occupied →
    (map.node p).hash = homeBucket hash map.cap (map.node p).key
  hash_lt : ∀ p, (map.node p).status ≠ .empty → (map.node p).hash < map.cap
  chain : ∀ p, (map.node p).status ≠ .empty → OnChain map (map.node p).hash p
  size_eq : map.size = map.occupied

theorem Intact.lt_cap (hmap : Intact hash map)
    (h : (map.node p).status ≠ .empty) : p < map.cap := by
  rw [← hmap.arr_length]
  exact lt_length_of_used h

theorem homeBucket_lt {cap : Nat} (hcap : 0 < cap) (key : Key) :
    homeBucket hash cap key < cap := Nat.mod_lt _ hcap

theorem Intact.probeSeq_lt (hmap : Intact hash map) (key : Key) (j : Nat) :
    probeSeq map.cap (homeBucket hash map.cap key) j < map.cap :=
  BasicHashmap.probeSeq_lt (homeBucket_lt hmap.capacity.pos key) j

theorem calloc_intact {cap : Nat} (hcap : IsCapacity cap) :
    Intact hash (Hashmap.calloc cap : Hashmap V) where
  capacity := hcap
  arr_length := by simp [Hashmap.calloc]
  home := by simp [MapNode.zeroed]
  hash_lt := by simp [MapNode.zeroed]
  chain := by simp [MapNode.zeroed]
  size_eq := by
    simp [Hashmap.occupied, Hashmap.calloc, MapNode.zeroed, List.countP_replicate]

theorem hashmapNew_isCapacity : IsCapacity startingBuckets :=
  ⟨3, by omega, by omega, rfl⟩

theorem hashmapNew_intact : Intact hash (hashmapNew : Hashmap V) :=
  calloc_intact hashmapNew_isCapacity

/-- A chain survives the overwriting of one slot that keeps its hash when the
slot was in use, and that is not emptied. -/
theorem OnChain.put {h : Nat} (hchain : OnChain map h p) (new : MapNode V)
    (size : Nat) (hnew : new.status ≠ .empty)
    (hsame : (map.node pos).status ≠ .empty → new.hash = (map.node pos).hash) :
    OnChain (map.put pos new size) h p := by
  obtain ⟨j, hj, rfl, hearlier⟩ := hchain
  refine ⟨j, hj, rfl, fun i hi => ?_⟩
  obtain ⟨hused, hhash⟩ := hearlier i hi
  rw [put_cap]
  rcases eq_or_ne (probeSeq map.cap h i) pos with hpos | hpos
  · rw [hpos] at hused hhash ⊢
    rw [put_node_self new size (lt_length_of_used hused)]
    exact ⟨hnew, (hsame hused).trans hhash⟩
  · rw [put_node_ne new size hpos]
    exact ⟨hused, hhash⟩

/-- Overwriting a slot keeps the table intact when the new node is on the
chain of its own bucket and does not move a used slot to another bucket. -/
theorem Intact.put (hmap : Intact hash map) (new : MapNode V) (size : Nat)
    (hpos : pos < map.cap) (hnew : new.status ≠ .empty)
    (hlt : new.hash < map.cap) (hchain : OnChain map new.hash pos)
    (hsame : (map.node pos).status ≠ .empty → new.hash = (map.node pos).hash)
    (hhome : new.status = .occupied →
      new.hash = homeBucket hash map.cap new.key)
    (hsize : size = (map.put pos new size).occupied) :
    Intact hash (map.put pos new size) := by
  have hself : (map.put pos new size).node pos = new :=
    put_node_self new size (by rw [hmap.arr_length]; exact hpos)
  refine ⟨hmap.capacity, by simpa using hmap.arr_length, ?_, ?_, ?_, hsize⟩
  · intro p hp
    rcases eq_or_ne p pos with h | h
    · subst h
      rw [hself] at hp ⊢
      exact hhome hp
    · rw [put_node_ne new size h] at hp ⊢
      exact hmap.home p hp
  · intro p hp
    rcases eq_or_ne p pos with h | h
    · subst h
      rw [hself]
      exact hlt
    · rw [put_node_ne new size h] at hp ⊢
      exact hmap.hash_lt p hp
  · intro p hp
    rcases eq_or_ne p pos with h | h
    · subst h
      rw [hself]
      exact hchain.put new size hnew hsame
    · rw [put_node_ne new size h] at hp ⊢
      exact (hmap.chain p hp).put new size hnew hsame

/-- How the number of occupied slots changes with one slot. -/
theorem put_occupied (new : MapNode V) (size : Nat)
    (hpos : pos < map.arr.length) :
    (map.put pos new size).occupied =
      map.occupied - (if (map.node pos).status = .occupied then 1 else 0) +
        (if new.status = .occupied then 1 else 0) := by
  have hget : map.arr[pos] = map.node pos := by
    simp [Hashmap.node, List.getD_eq_getElem?_getD, hpos]
  simp [Hashmap.occupied, Hashmap.put, List.countP_set hpos, hget]

theorem occupied_pos (h : (map.node p).status = .occupied) :
    0 < map.occupied := by
  refine List.countP_pos_iff.mpr ⟨map.node p, node_mem ?_, by simpa using h⟩
  exact lt_length_of_used (by simp [h])

section Flags

variable {h : Nat}

theorem probing_hasNext :
    probing map key h p = .hasNext ↔
      (map.node p).status = .occupied ∧ (map.node p).hash = h ∧
        (map.node p).key ≠ key := by
  unfold probing
  cases hstatus : (map.node p).status <;> grind

theorem probing_found :
    probing map key h p = .found ↔
      (map.node p).status = .empty ∨
        ((map.node p).status = .deleted ∧ (map.node p).hash = h) := by
  unfold probing
  cases hstatus : (map.node p).status <;> grind

theorem probing_replace :
    probing map key h p = .replace ↔
      (map.node p).status = .occupied ∧ (map.node p).hash = h ∧
        (map.node p).key = key := by
  unfold probing
  cases hstatus : (map.node p).status <;> grind

theorem probing_needResize :
    probing map key h p = .needResize ↔
      (map.node p).status ≠ .empty ∧ (map.node p).hash ≠ h := by
  unfold probing
  cases hstatus : (map.node p).status <;> grind

theorem probing2_found :
    probing2 map key h p = .found ↔
      (map.node p).status = .occupied ∧ (map.node p).hash = h ∧
        (map.node p).key = key := by
  unfold probing2
  cases hstatus : (map.node p).status <;> grind

theorem probing2_stop :
    probing2 map key h p = .stop ↔
      (map.node p).status = .empty ∨ (map.node p).hash ≠ h := by
  unfold probing2
  cases hstatus : (map.node p).status <;> grind

end Flags

/-- A slot a `Hashmap_set` probe passes over: an occupied slot of the home
bucket that holds another key. -/
def Passed (hash : Key → UInt64) (map : Hashmap V) (key : Key) (p : Nat) :
    Prop :=
  (map.node p).status = .occupied ∧
    (map.node p).hash = homeBucket hash map.cap key ∧ (map.node p).key ≠ key

/-- An in-place `Hashmap_set` stores at `pos`, the first slot of the probe
that it does not pass over. -/
structure StoredAt (hash : Key → UInt64) (map : Hashmap V) (key : Key)
    (value : V) (pos : Nat) (next : Hashmap V) : Prop where
  next_eq : next = map.put pos
    ⟨key, value, homeBucket hash map.cap key, .occupied⟩
    (if (map.node pos).status = .occupied then map.size else map.size + 1)
  stops : probeSet hash map key = some (pos, .found) ∨
    (probeSet hash map key = some (pos, .replace) ∧
      (map.node pos).status = .occupied)
  slot : (map.node pos).status = .empty ∨
    ((map.node pos).hash = homeBucket hash map.cap key ∧
      ((map.node pos).status = .deleted ∨ (map.node pos).key = key))
  first : ∃ j ≤ map.cap,
    probeSeq map.cap (homeBucket hash map.cap key) j = pos ∧
      ∀ i < j, Passed hash map key
        (probeSeq map.cap (homeBucket hash map.cap key) i)

theorem setInPlace_some (hmap : Intact hash map)
    (h : setInPlace hash map key value = some next) :
    ∃ pos, StoredAt hash map key value pos next := by
  simp only [setInPlace] at h
  split at h
  · rename_i pos hprobe
    obtain ⟨j, hj, hpos, hflag, -, hearlier⟩ :=
      probe_some hmap.capacity hprobe
    have hslot := probing_found.mp hflag.symm
    have hfree : (map.node pos).status ≠ .occupied := by
      rcases hslot with hs | ⟨hs, -⟩ <;> simp [hs]
    simp only [Option.some.injEq] at h
    refine ⟨pos, ?_, Or.inl hprobe, ?_, j, hj, hpos.symm, fun i hi => ?_⟩
    · simp [← h, Hashmap.put, nodeSet, hfree]
    · exact hslot.imp_right fun hs => ⟨hs.2, Or.inl hs.1⟩
    · exact probing_hasNext.mp (hearlier i hi)
  · rename_i pos hprobe
    obtain ⟨j, hj, hpos, hflag, -, hearlier⟩ :=
      probe_some hmap.capacity hprobe
    have hslot := probing_replace.mp hflag.symm
    simp only [Option.some.injEq] at h
    refine ⟨pos, ?_, Or.inr ⟨hprobe, hslot.1⟩,
      Or.inr ⟨hslot.2.1, Or.inr hslot.2.2⟩, j, hj, hpos.symm, fun i hi => ?_⟩
    · simp [← h, Hashmap.put, nodeSet, hslot.1]
    · exact probing_hasNext.mp (hearlier i hi)
  · simp at h

/-- `Hashmap_set` grows when it has passed over its whole chain, or up to a
slot that belongs to another home bucket. -/
theorem setInPlace_none (hmap : Intact hash map)
    (h : setInPlace hash map key value = none) :
    ∃ j ≤ map.cap + 1,
      (∀ i < j, Passed hash map key
        (probeSeq map.cap (homeBucket hash map.cap key) i)) ∧
      (j ≤ map.cap →
        (map.node (probeSeq map.cap (homeBucket hash map.cap key) j)).status ≠
            .empty ∧
          (map.node (probeSeq map.cap (homeBucket hash map.cap key) j)).hash ≠
            homeBucket hash map.cap key) := by
  have hstop : probeSet hash map key = none ∨
      ∃ pos, probeSet hash map key = some (pos, .needResize) := by
    simp only [setInPlace] at h
    split at h
    · simp at h
    · simp at h
    · rename_i hfound hreplace
      cases hprobe : probeSet hash map key with
      | none => exact Or.inl rfl
      | some stop =>
          obtain ⟨pos, flag⟩ := stop
          obtain ⟨-, -, -, -, hne, -⟩ := probe_some hmap.capacity hprobe
          cases flag with
          | needResize => exact Or.inr ⟨pos, rfl⟩
          | hasNext => exact absurd rfl hne
          | found => exact absurd hprobe (hfound pos)
          | replace => exact absurd hprobe (hreplace pos)
  rcases hstop with hnone | ⟨pos, hsome⟩
  · exact ⟨map.cap + 1, le_rfl,
      fun i hi => probing_hasNext.mp (probe_none hmap.capacity hnone i (by omega)),
      fun hle => by omega⟩
  · obtain ⟨j, hj, rfl, hflag, -, hearlier⟩ := probe_some hmap.capacity hsome
    exact ⟨j, by omega, fun i hi => probing_hasNext.mp (hearlier i hi),
      fun _ => probing_needResize.mp hflag.symm⟩

theorem StoredAt.pos_lt (hmap : Intact hash map)
    (h : StoredAt hash map key value pos next) : pos < map.cap := by
  obtain ⟨j, -, rfl, -⟩ := h.first
  exact hmap.probeSeq_lt key j

theorem StoredAt.node_self (hmap : Intact hash map)
    (h : StoredAt hash map key value pos next) :
    next.node pos = ⟨key, value, homeBucket hash map.cap key, .occupied⟩ := by
  rw [h.next_eq]
  exact put_node_self _ _ (by rw [hmap.arr_length]; exact h.pos_lt hmap)

theorem StoredAt.node_ne (h : StoredAt hash map key value pos next)
    (hne : p ≠ pos) : next.node p = map.node p := by
  rw [h.next_eq]
  exact put_node_ne _ _ hne

theorem StoredAt.cap_eq (h : StoredAt hash map key value pos next) :
    next.cap = map.cap := by
  rw [h.next_eq, put_cap]

theorem StoredAt.intact (hmap : Intact hash map)
    (h : StoredAt hash map key value pos next) : Intact hash next := by
  have hpos := h.pos_lt hmap
  have hlength : pos < map.arr.length := by rw [hmap.arr_length]; exact hpos
  rw [h.next_eq]
  refine hmap.put _ _ hpos (by simp) (homeBucket_lt hmap.capacity.pos key) ?_ ?_
    (fun _ => rfl) ?_
  · obtain ⟨j, hj, hseq, hearlier⟩ := h.first
    refine ⟨j, hj, hseq, fun i hi => ?_⟩
    obtain ⟨hstatus, hhash, -⟩ := hearlier i hi
    exact ⟨by simp [hstatus], hhash⟩
  · intro hused
    rcases h.slot with hempty | ⟨hhash, -⟩
    · exact absurd hempty hused
    · exact hhash.symm
  · rw [put_occupied _ _ hlength, hmap.size_eq]
    by_cases hocc : (map.node pos).status = .occupied
    · have := occupied_pos hocc
      simp only [hocc, if_true]
      omega
    · simp [hocc]

/-- A lookup that ends at a slot has found the key there. -/
theorem probeGet_found (hmap : Intact hash map)
    (h : probeGet hash map key = some (pos, .found)) :
    (map.node pos).status = .occupied ∧ (map.node pos).key = key := by
  obtain ⟨-, -, -, hflag, -, -⟩ := probe_some hmap.capacity h
  obtain ⟨hstatus, -, hkey⟩ := probing2_found.mp hflag.symm
  exact ⟨hstatus, hkey⟩

/-- A lookup that fails has not overlooked an occupied slot: the chain leads
it to every slot that holds the key. -/
theorem probeGet_absent (hmap : Intact hash map)
    (h : ∀ pos, probeGet hash map key ≠ some (pos, .found)) (p : Nat)
    (hocc : (map.node p).status = .occupied) : (map.node p).key ≠ key := by
  intro hkey
  have hhome : (map.node p).hash = homeBucket hash map.cap key := by
    rw [hmap.home p hocc, hkey]
  obtain ⟨j, hj, hseq, hearlier⟩ := hmap.chain p (by simp [hocc])
  rw [hhome] at hseq hearlier
  have hfound : probing2 map key (homeBucket hash map.cap key)
      (probeSeq map.cap (homeBucket hash map.cap key) j) = .found := by
    rw [hseq]
    exact probing2_found.mpr ⟨hocc, hhome, hkey⟩
  cases hprobe : probeGet hash map key with
  | none =>
      have := probe_none hmap.capacity hprobe j hj
      rw [hfound] at this
      cases this
  | some stop =>
      obtain ⟨q, flag⟩ := stop
      obtain ⟨e, he, rfl, hflag, hne, hbefore⟩ := probe_some hmap.capacity hprobe
      rcases Nat.lt_trichotomy e j with hlt | rfl | hgt
      · obtain ⟨hused, hhash⟩ := hearlier e hlt
        cases hf : flag with
        | stop =>
            rcases probing2_stop.mp (hflag.symm.trans hf) with hs | hs
            · exact hused hs
            · exact hs hhash
        | next => exact hne hf
        | found => exact h _ (hf ▸ hprobe)
      · exact h _ (by rw [hprobe, hflag, hfound])
      · have := hbefore j hgt
        rw [hfound] at this
        cases this

/-- Deletion leaves a tombstone that keeps its hash. -/
theorem nodeDelete_intact (hmap : Intact hash map)
    (hocc : (map.node pos).status = .occupied) :
    Intact hash { nodeDelete map pos with size := map.size - 1 } := by
  have hused : (map.node pos).status ≠ .empty := by simp [hocc]
  refine hmap.put { map.node pos with status := .deleted, key := [] } _
    (hmap.lt_cap hused) (by simp) (hmap.hash_lt pos hused)
    (hmap.chain pos hused) (fun _ => rfl) (by simp) ?_
  rw [put_occupied _ _ (lt_length_of_used hused), hmap.size_eq]
  simp [hocc]

end CsPrimer.BasicHashmap
