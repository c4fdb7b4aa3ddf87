import CsPrimer.BasicHashmap.Chains

/-!
Growth. A table built by the rehash loop has no tombstones, and in such a
table an in-place store is a map update. The recursion of `Hashmap_set`
through its own rehash loop is followed by induction on the number of nested
growths: every table on the way represents the pairs inserted so far.
-/

namespace CsPrimer.BasicHashmap

open Foundation

variable {V : Type} [Zero V] {hash : Key → UInt64} {map next : Hashmap V}
  {key : Key} {value : V} {pos p : Nat} {σ : Key → Option V}

def Holds (map : Hashmap V) (key : Key) (value : V) : Prop :=
  ∃ p, (map.node p).status = .occupied ∧ (map.node p).key = key ∧
    (map.node p).value = value

def Present (map : Hashmap V) (key : Key) : Prop :=
  ∃ p, (map.node p).status = .occupied ∧ (map.node p).key = key

def Hashmap.keys (map : Hashmap V) : Finset Key :=
  ((map.arr.filter (fun node => node.status = .occupied)).map
    (fun node => node.key)).toFinset

@[simp]
theorem mem_keys : key ∈ map.keys ↔ Present map key := by
  simp only [Hashmap.keys, List.mem_toFinset, List.mem_map, List.mem_filter,
    decide_eq_true_eq]
  constructor
  · rintro ⟨node, ⟨hmem, hocc⟩, hkey⟩
    obtain ⟨p, -, rfl⟩ := exists_node_of_mem hmem
    exact ⟨p, hocc, hkey⟩
  · rintro ⟨p, hocc, hkey⟩
    exact ⟨map.node p, ⟨node_mem (lt_length_of_used (by simp [hocc])), hocc⟩, hkey⟩

instance (map : Hashmap V) (key : Key) : Decidable (Present map key) :=
  decidable_of_iff (key ∈ map.keys) mem_keys

def Distinct (map : Hashmap V) : Prop :=
  ∀ p q, (map.node p).status = .occupied → (map.node q).status = .occupied →
    (map.node p).key = (map.node q).key → p = q

/-- The finite map `σ` is what the occupied slots hold. -/
def Represents (map : Hashmap V) (σ : Key → Option V) : Prop :=
  ∀ key value, σ key = some value ↔ Holds map key value

/-- The tables between two deletions: intact, duplicate-free, no tombstone. -/
structure Clean (hash : Key → UInt64) (map : Hashmap V) : Prop where
  intact : Intact hash map
  distinct : Distinct map
  no_tombstone : ∀ p, (map.node p).status ≠ .deleted

theorem Represents.present_iff (h : Represents map σ) :
    Present map key ↔ σ key ≠ none := by
  constructor
  · rintro ⟨p, hocc, hkey⟩ hnone
    have hsome := (h key (map.node p).value).mpr ⟨p, hocc, hkey, rfl⟩
    rw [hnone] at hsome
    cases hsome
  · intro hne
    obtain ⟨value, hvalue⟩ := Option.ne_none_iff_exists'.mp hne
    obtain ⟨p, hocc, hkey, -⟩ := (h key value).mp hvalue
    exact ⟨p, hocc, hkey⟩

theorem calloc_distinct (cap : Nat) :
    Distinct (Hashmap.calloc cap : Hashmap V) := by
  intro p q hp
  simp [MapNode.zeroed] at hp

theorem calloc_clean {cap : Nat} (hcap : IsCapacity cap) :
    Clean hash (Hashmap.calloc cap : Hashmap V) where
  intact := calloc_intact hcap
  distinct := calloc_distinct cap
  no_tombstone := by simp [MapNode.zeroed]

theorem calloc_represents (cap : Nat) :
    Represents (Hashmap.calloc cap : Hashmap V) (fun _ => none) := by
  intro key value
  simp [Holds, MapNode.zeroed]

/-- After an in-place store no other slot holds the key, unless the store
reused a tombstone in front of it. -/
theorem StoredAt.elsewhere (hmap : Intact hash map) (hdistinct : Distinct map)
    (h : StoredAt hash map key value pos next)
    (hreuse : (map.node pos).status = .deleted → ¬ Present map key)
    (hne : p ≠ pos) (hocc : (map.node p).status = .occupied) :
    (map.node p).key ≠ key := by
  intro hkey
  cases hstatus : (map.node pos).status with
  | deleted => exact hreuse hstatus ⟨p, hocc, hkey⟩
  | occupied =>
      rcases h.slot with hs | ⟨-, hs | hs⟩
      · simp [hstatus] at hs
      · simp [hstatus] at hs
      · exact hne (hdistinct p pos hocc hstatus (hkey.trans hs.symm))
  | empty =>
      -- the chain of `p` would run through the empty slot
      have hhome : (map.node p).hash = homeBucket hash map.cap key := by
        rw [hmap.home p hocc, hkey]
      obtain ⟨j, -, hj, hpassed⟩ := h.first
      obtain ⟨e, -, he, hearlier⟩ := hmap.chain p (by simp [hocc])
      rw [hhome] at he hearlier
      rcases Nat.lt_trichotomy j e with hlt | rfl | hgt
      · exact (hearlier j hlt).1 (by rw [hj, hstatus])
      · exact hne (he.symm.trans hj)
      · exact (hpassed e hgt).2.2 (by rw [he, hkey])

/-- An in-place store that leaves no second copy is a map update. -/
theorem StoredAt.represents (hmap : Intact hash map)
    (hdistinct : Distinct map) (hrep : Represents map σ)
    (h : StoredAt hash map key value pos next)
    (hreuse : (map.node pos).status = .deleted → ¬ Present map key) :
    Distinct next ∧ Represents next (Function.update σ key (some value)) := by
  have hself := h.node_self hmap
  have helse : ∀ {p}, p ≠ pos → (map.node p).status = .occupied →
      (map.node p).key ≠ key := h.elsewhere hmap hdistinct hreuse
  constructor
  · intro p q hp hq hkey
    by_cases hpp : p = pos <;> by_cases hqp : q = pos
    · exact hpp.trans hqp.symm
    · rw [h.node_ne hqp] at hq hkey
      rw [hpp, hself] at hkey
      exact absurd hkey.symm (helse hqp hq)
    · rw [h.node_ne hpp] at hp hkey
      rw [hqp, hself] at hkey
      exact absurd hkey (helse hpp hp)
    · rw [h.node_ne hpp] at hp hkey
      rw [h.node_ne hqp] at hq hkey
      exact hdistinct p q hp hq hkey
  · intro k v
    rcases eq_or_ne k key with hk | hk
    · subst hk
      rw [Function.update_self]
      constructor
      · rintro ⟨⟩
        exact ⟨pos, by rw [hself], by rw [hself], by rw [hself]⟩
      · rintro ⟨p, hocc, hkey, hvalue⟩
        rcases eq_or_ne p pos with hp | hp
        · rw [hp, hself] at hvalue
          rw [← hvalue]
        · rw [h.node_ne hp] at hocc hkey
          exact absurd hkey (helse hp hocc)
    · rw [Function.update_of_ne hk, hrep k v]
      constructor
      · rintro ⟨p, hocc, hkey, hvalue⟩
        have hp : p ≠ pos := by
          rintro rfl
          rcases h.slot with hs | ⟨-, hs | hs⟩
          · simp [hocc] at hs
          · simp [hocc] at hs
          · exact hk (hkey.symm.trans hs)
        exact ⟨p, by rw [h.node_ne hp]; exact hocc,
          by rw [h.node_ne hp]; exact hkey,
          by rw [h.node_ne hp]; exact hvalue⟩
      · rintro ⟨p, hocc, hkey, hvalue⟩
        rcases eq_or_ne p pos with hp | hp
        · rw [hp, hself] at hkey
          exact absurd hkey.symm hk
        · rw [h.node_ne hp] at hocc hkey hvalue
          exact ⟨p, hocc, hkey, hvalue⟩

theorem StoredAt.clean (hmap : Clean hash map)
    (h : StoredAt hash map key value pos next) (hrep : Represents map σ) :
    Clean hash next ∧ Represents next (Function.update σ key (some value)) := by
  obtain ⟨hdistinct, hnext⟩ := h.represents hmap.intact hmap.distinct hrep
    (fun hd => absurd hd (hmap.no_tombstone pos))
  refine ⟨⟨h.intact hmap.intact, hdistinct, fun p => ?_⟩, hnext⟩
  rcases eq_or_ne p pos with hp | hp
  · rw [hp, h.node_self hmap.intact]
    simp
  · rw [h.node_ne hp]
    exact hmap.no_tombstone p

/-- The map after inserting the occupied nodes of a list in order. -/
def insertAll (σ : Key → Option V) (nodes : List (MapNode V)) :
    Key → Option V :=
  nodes.foldl
    (fun σ node =>
      if node.status = .occupied then
        Function.update σ node.key (some node.value)
      else σ) σ

omit [Zero V] in
theorem insertAll_cons (σ : Key → Option V) (node : MapNode V)
    (nodes : List (MapNode V)) :
    insertAll σ (node :: nodes) =
      insertAll (if node.status = .occupied then
        Function.update σ node.key (some node.value) else σ) nodes := rfl

omit [Zero V] in
theorem insertAll_some {nodes : List (MapNode V)}
    (h : insertAll σ nodes key = some value) :
    σ key = some value ∨ ∃ node ∈ nodes, node.status = .occupied ∧
      node.key = key ∧ node.value = value := by
  induction nodes generalizing σ with
  | nil => exact Or.inl h
  | cons node nodes ih =>
      rw [insertAll_cons] at h
      rcases ih h with hσ | ⟨other, hmem, hother⟩
      · split at hσ
        · rename_i hocc
          rcases eq_or_ne key node.key with hkey | hkey
          · rw [hkey, Function.update_self] at hσ
            exact Or.inr ⟨node, by simp, hocc, hkey.symm, by simpa using hσ⟩
          · rw [Function.update_of_ne hkey] at hσ
            exact Or.inl hσ
        · exact Or.inl hσ
      · exact Or.inr ⟨other, by simp [hmem], hother⟩

omit [Zero V] in
theorem insertAll_ne_none {nodes : List (MapNode V)}
    (h : σ key ≠ none ∨ ∃ node ∈ nodes, node.status = .occupied ∧ node.key = key) :
    insertAll σ nodes key ≠ none := by
  induction nodes generalizing σ with
  | nil => simpa [insertAll] using h
  | cons node nodes ih =>
      rw [insertAll_cons]
      apply ih
      by_cases hnode : node.status = .occupied ∧ node.key = key
      · left
        simp [hnode.1, hnode.2]
      · rcases h with hσ | ⟨other, hmem, hocc, hkey⟩
        · left
          split
          · rename_i hocc
            rw [Function.update_of_ne (fun hk => hnode ⟨hocc, hk.symm⟩)]
            exact hσ
          · exact hσ
        · rcases List.mem_cons.mp hmem with rfl | htail
          · exact absurd ⟨hocc, hkey⟩ hnode
          · exact Or.inr ⟨other, htail, hocc, hkey⟩

/-- What the rehash loop inserts is present exactly when it was. -/
theorem insertAll_present :
    insertAll (fun _ => none) map.arr key ≠ none ↔ Present map key := by
  constructor
  · intro hne
    obtain ⟨value, hvalue⟩ := Option.ne_none_iff_exists'.mp hne
    rcases insertAll_some hvalue with hnone | ⟨node, hmem, hocc, hkey, -⟩
    · cases hnone
    · obtain ⟨p, -, rfl⟩ := exists_node_of_mem hmem
      exact ⟨p, hocc, hkey⟩
  · rintro ⟨p, hocc, hkey⟩
    have hlt : p < map.arr.length := lt_length_of_used (by simp [hocc])
    exact insertAll_ne_none (Or.inr ⟨_, node_mem hlt, hocc, hkey⟩)

theorem insertAll_represents (hdistinct : Distinct map) :
    Represents map (insertAll (fun _ => none) map.arr) := by
  intro key value
  constructor
  · intro h
    rcases insertAll_some h with hnone | ⟨node, hmem, hocc, hkey, hvalue⟩
    · cases hnone
    · obtain ⟨p, -, rfl⟩ := exists_node_of_mem hmem
      exact ⟨p, hocc, hkey, hvalue⟩
  · rintro ⟨p, hocc, hkey, hvalue⟩
    have hne := insertAll_present.mpr ⟨p, hocc, hkey⟩
    obtain ⟨other, hother⟩ := Option.ne_none_iff_exists'.mp hne
    rcases insertAll_some hother with hnone | ⟨node, hmem, hocc', hkey', hvalue'⟩
    · cases hnone
    · obtain ⟨q, -, rfl⟩ := exists_node_of_mem hmem
      have hpq := hdistinct p q hocc hocc' (hkey.trans hkey'.symm)
      rw [hother, ← hvalue', ← hpq, hvalue]

/-- A `set` function that, on clean tables, answers with clean tables of at
least the same capacity and updates the represented map. -/
def Updates (hash : Key → UInt64)
    (set : Hashmap V → Key → V → Except Fault (Hashmap V)) : Prop :=
  ∀ map σ key value next, Clean hash map → Represents map σ →
    set map key value = .ok next →
    Clean hash next ∧ Represents next (Function.update σ key (some value)) ∧
      map.cap ≤ next.cap

theorem rehash_clean {set : Hashmap V → Key → V → Except Fault (Hashmap V)}
    (hset : Updates hash set) {nodes : List (MapNode V)}
    (hmap : Clean hash map) (hrep : Represents map σ)
    (h : rehash set nodes map = .ok next) :
    Clean hash next ∧ Represents next (insertAll σ nodes) ∧
      map.cap ≤ next.cap := by
  induction nodes generalizing map σ with
  | nil =>
      simp only [rehash, Except.ok.injEq] at h
      exact h ▸ ⟨hmap, hrep, le_rfl⟩
  | cons node nodes ih =>
      rw [insertAll_cons]
      simp only [rehash] at h
      split at h
      · rename_i hocc
        split at h
        · cases h
        · rename_i middle hmiddle
          obtain ⟨hclean, hrep', hcap⟩ := hset _ _ _ _ _ hmap hrep hmiddle
          obtain ⟨hfinal, hrep'', hcap'⟩ := ih hclean hrep' h
          simp only [hocc, if_true]
          exact ⟨hfinal, hrep'', hcap.trans hcap'⟩
      · rename_i hocc
        simp only [hocc, if_false]
        exact ih hmap hrep h

/-- A doubling either gives the next capacity or overflows to zero. -/
theorem doubled_cap (h : IsCapacity map.cap) :
    (IsCapacity (doubled map).cap ∧ (doubled map).cap = 2 * map.cap) ∨
      (doubled map).cap = 0 := by
  obtain ⟨k, hk3, hk, hcap⟩ := h
  simp only [doubled, Hashmap.calloc, hcap, ← Nat.pow_succ, Nat.succ_eq_add_one, sizeModulus]
  rcases Nat.lt_or_ge (k + 1) 64 with hlt | hge
  · rw [Nat.mod_eq_of_lt (Nat.pow_lt_pow_right (by omega) hlt)]
    exact Or.inl ⟨⟨k + 1, by omega, hlt, rfl⟩, by rw [Nat.pow_succ]; omega⟩
  · have hlast : k + 1 = 64 := by omega
    rw [hlast]
    exact Or.inr (Nat.mod_self _)

theorem hashmapSetFuel_cap_zero {fuel : Nat} (hcap : map.cap = 0) :
    hashmapSetFuel hash fuel map key value ≠ .ok next := by
  cases fuel with
  | zero => simp [hashmapSetFuel]
  | succ fuel => simp [hashmapSetFuel, hcap]

/-- Into a table of capacity zero nothing is inserted. -/
theorem rehash_cap_zero {fuel : Nat} {nodes : List (MapNode V)}
    (hcap : map.cap = 0)
    (h : rehash (hashmapSetFuel hash fuel) nodes map = .ok next) :
    next = map := by
  induction nodes with
  | nil => simpa [rehash, eq_comm] using h
  | cons node nodes ih =>
      simp only [rehash] at h
      split at h
      · split at h
        · cases h
        · rename_i middle hmiddle
          exact absurd hmiddle (hashmapSetFuel_cap_zero hcap)
      · exact ih h

/-- The table a rehash loop leaves, unless the doubling overflowed. -/
theorem rehash_doubled_clean {fuel : Nat} {nodes : List (MapNode V)}
    (hset : Updates hash (hashmapSetFuel (V := V) hash fuel))
    (hmap : Intact hash map)
    (h : rehash (hashmapSetFuel hash fuel) nodes (doubled map) = .ok next)
    (hcap : next.cap ≠ 0) :
    Clean hash next ∧ Represents next (insertAll (fun _ => none) nodes) ∧
      2 * map.cap ≤ next.cap := by
  rcases doubled_cap hmap.capacity with ⟨hdoubled, heq⟩ | hzero
  · obtain ⟨hclean, hrep, hle⟩ := rehash_clean hset (calloc_clean hdoubled)
      (calloc_represents _) h
    exact ⟨hclean, hrep, heq ▸ hle⟩
  · exact absurd (rehash_cap_zero hzero h ▸ hzero) hcap

/-- The two ways a `Hashmap_set` returns. -/
theorem hashmapSetFuel_cases {fuel : Nat}
    (h : hashmapSetFuel hash fuel map key value = .ok next) :
    setInPlace hash map key value = some next ∨
      ∃ rest grown, fuel = rest + 1 ∧ setInPlace hash map key value = none ∧
        rehash (hashmapSetFuel hash rest) map.arr (doubled map) = .ok grown ∧
        grown.cap ≠ 0 ∧ hashmapSetFuel hash rest grown key value = .ok next := by
  cases fuel with
  | zero => simp [hashmapSetFuel] at h
  | succ rest =>
      simp only [hashmapSetFuel] at h
      split at h
      · cases h
      · split at h
        · rename_i stored hstored
          simp only [Except.ok.injEq] at h
          exact Or.inl (h ▸ hstored)
        · rename_i hnone
          split at h
          · cases h
          · rename_i grown hgrown
            exact Or.inr ⟨rest, grown, rfl, hnone, hgrown,
              fun hzero => hashmapSetFuel_cap_zero hzero h, h⟩

/-- On tables without tombstones `Hashmap_set` is a map update, however many
growths it nests. -/
theorem hashmapSetFuel_updates (fuel : Nat) :
    Updates hash (hashmapSetFuel (V := V) hash fuel) := by
  induction fuel with
  | zero =>
      intro map σ key value next _ _ h
      simp [hashmapSetFuel] at h
  | succ fuel ih =>
      intro map σ key value next hmap hrep h
      rcases hashmapSetFuel_cases h with
        hstored | ⟨rest, grown, hfuel, -, hgrown, hcap, hretry⟩
      · obtain ⟨pos, hpos⟩ := setInPlace_some hmap.intact hstored
        obtain ⟨hclean, hrep'⟩ := hpos.clean hmap hrep
        exact ⟨hclean, hrep', hpos.cap_eq.ge⟩
      · obtain rfl : fuel = rest := by omega
        obtain ⟨hclean, hrep', hle⟩ :=
          rehash_doubled_clean ih hmap.intact hgrown hcap
        obtain ⟨hnext, hrep'', hle'⟩ := ih _ _ _ _ _ hclean hrep' hretry
        have hsame : insertAll (fun _ => none) map.arr = σ := by
          funext k
          apply Option.ext
          intro v
          rw [insertAll_represents hmap.distinct k v, hrep k v]
        exact ⟨hnext, hsame ▸ hrep'', by omega⟩

/-- A `Hashmap_set` that grows, from any intact table: tombstones are gone,
no key is held twice, and the represented map is the old contents with the
new pair. -/
theorem hashmapSetFuel_grows {fuel : Nat} (hmap : Intact hash map)
    (hnone : setInPlace hash map key value = none)
    (h : hashmapSetFuel hash fuel map key value = .ok next) :
    Clean hash next ∧
      Represents next
        (Function.update (insertAll (fun _ => none) map.arr) key (some value)) ∧
      map.cap < next.cap := by
  rcases hashmapSetFuel_cases h with
    hstored | ⟨rest, grown, -, -, hgrown, hcap, hretry⟩
  · rw [hnone] at hstored
    cases hstored
  · obtain ⟨hclean, hrep, hle⟩ :=
      rehash_doubled_clean (hashmapSetFuel_updates rest) hmap hgrown hcap
    obtain ⟨hnext, hrep', hle'⟩ :=
      hashmapSetFuel_updates rest _ _ _ _ _ hclean hrep hretry
    have := hmap.capacity.pos
    exact ⟨hnext, hrep', by omega⟩

theorem hashmapSetFuel_intact {fuel : Nat} (hmap : Intact hash map)
    (h : hashmapSetFuel hash fuel map key value = .ok next) :
    Intact hash next := by
  cases hplace : setInPlace hash map key value with
  | none => exact (hashmapSetFuel_grows hmap hplace h).1.intact
  | some stored =>
      rcases hashmapSetFuel_cases h with hstored | ⟨_, _, _, hnone, _⟩
      · obtain ⟨pos, hpos⟩ := setInPlace_some hmap hstored
        exact hpos.intact hmap
      · rw [hplace] at hnone
        cases hnone

theorem hashmapDelete_intact {out : V} (hmap : Intact hash map)
    (h : hashmapDelete hash map key = .ok (next, out)) : Intact hash next := by
  simp only [hashmapDelete, hmap.capacity.pos.ne', if_false] at h
  split at h
  · rename_i pos hprobe
    cases h
    exact nodeDelete_intact hmap (probeGet_found hmap hprobe).1
  · cases h
    exact hmap

theorem answer_intact {call : Call V} {out : Option V} (hmap : Intact hash map)
    (h : answer hash map call = .ok (next, out)) : Intact hash next := by
  cases call with
  | set key value =>
      simp only [answer] at h
      split at h
      · cases h
      · rename_i stored hstored
        cases h
        exact hashmapSetFuel_intact hmap hstored
  | get key =>
      simp only [answer] at h
      split at h
      · cases h
      · cases h
        exact hmap
  | delete key =>
      simp only [answer] at h
      split at h
      · cases h
      · rename_i deleted out' hdeleted
        cases h
        exact hashmapDelete_intact hmap hdeleted

theorem Reachable.intact (h : Reachable hash map) : Intact hash map :=
  Served.invariant (fun _ _ _ _ hs hcall => answer_intact hs hcall)
    hashmapNew_intact h

/-- The call falls through to the growth, past `hash % cap`. -/
def MustGrow (hash : Key → UInt64) (map : Hashmap V) (key : Key) (value : V) :
    Prop :=
  map.cap ≠ 0 ∧ setInPlace hash map key value = none

/-- The tables the map goes through in `Hashmap_set(map, key, value)`: the
one it starts from, the stored one, the fresh array of a growth, and those of
the nested calls that the rehash loop and the last line make. -/
inductive During (hash : Key → UInt64) :
    Nat → Hashmap V → Key → V → Hashmap V → Prop
  | start {fuel map key value} : During hash fuel map key value map
  | stored {fuel map key value next} (hcap : map.cap ≠ 0)
      (hstored : setInPlace hash map key value = some next) :
      During hash (fuel + 1) map key value next
  | fresh {fuel map key value} (hgrow : MustGrow hash map key value) :
      During hash (fuel + 1) map key value (doubled map)
  | rehash {fuel map key value before node after inserted table}
      (hgrow : MustGrow hash map key value)
      (harr : map.arr = before ++ node :: after)
      (hocc : node.status = .occupied)
      (hbefore : rehash (hashmapSetFuel hash fuel) before (doubled map) =
        .ok inserted)
      (hnested : During hash fuel inserted node.key node.value table) :
      During hash (fuel + 1) map key value table
  | retry {fuel map key value grown table}
      (hgrow : MustGrow hash map key value)
      (hgrown : rehash (hashmapSetFuel hash fuel) map.arr (doubled map) =
        .ok grown)
      (hnested : During hash fuel grown key value table) :
      During hash (fuel + 1) map key value table

/-- A call on a table of capacity zero divides by zero at once. -/
theorem During.of_cap_zero {fuel : Nat} {table : Hashmap V}
    (h : During hash fuel map key value table) (hzero : map.cap = 0) :
    table = map := by
  cases h with
  | start => rfl
  | stored hcap => exact absurd hzero hcap
  | fresh hgrow => exact absurd hzero hgrow.1
  | rehash hgrow => exact absurd hzero hgrow.1
  | retry hgrow => exact absurd hzero hgrow.1

/-- Every table in the middle of a call is intact, until a doubling of the
capacity has overflowed. -/
theorem During.intact {fuel : Nat} {table : Hashmap V}
    (h : During hash fuel map key value table) (hmap : Intact hash map)
    (hcap : table.cap ≠ 0) : Intact hash table := by
  induction h with
  | start => exact hmap
  | stored _ hstored =>
      obtain ⟨pos, hpos⟩ := setInPlace_some hmap hstored
      exact hpos.intact hmap
  | fresh _ =>
      rcases doubled_cap hmap.capacity with ⟨hdoubled, -⟩ | hzero
      · exact calloc_intact hdoubled
      · exact absurd hzero hcap
  | rehash _ _ _ hbefore hnested ih =>
      refine ih (rehash_doubled_clean (hashmapSetFuel_updates _) hmap hbefore
        fun hzero => ?_).1.intact hcap
      exact hcap (hnested.of_cap_zero hzero ▸ hzero)
  | retry _ hgrown hnested ih =>
      refine ih (rehash_doubled_clean (hashmapSetFuel_updates _) hmap hgrown
        fun hzero => ?_).1.intact hcap
      exact hcap (hnested.of_cap_zero hzero ▸ hzero)

end CsPrimer.BasicHashmap
