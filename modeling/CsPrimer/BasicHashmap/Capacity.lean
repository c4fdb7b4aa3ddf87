import CsPrimer.BasicHashmap.Growth
import CsPrimer.Foundation.PrefixImage

/-!
When a growth ends. Without tombstones the slots of one home bucket are an
initial segment of its probe sequence, as long as the bucket has keys. So a
set of keys can be laid out at a capacity exactly when the segments of
different buckets are disjoint, in whatever order the keys arrive, and the
recursion of `Hashmap_set` stops at the first such capacity.
-/

namespace CsPrimer.BasicHashmap

open Foundation

variable {V : Type} [Zero V] {hash : Key → UInt64} {map next : Hashmap V}
  {key : Key} {value : V} {K : Finset Key} {cap h : Nat}

def keysAt (hash : Key → UInt64) (cap : Nat) (K : Finset Key) (h : Nat) :
    Finset Key :=
  K.filter (fun key => homeBucket hash cap key = h)

/-- Each home bucket has, on an initial segment of its probe sequence, as
many distinct positions as keys, and no position belongs to two buckets. -/
def Fits (hash : Key → UInt64) (cap : Nat) (K : Finset Key) : Prop :=
  ∃ len : Nat → Nat,
    (∀ h < cap, len h ≤ cap + 1 ∧
      (visited (probeSeq cap h) (len h)).card = (keysAt hash cap K h).card) ∧
    ∀ h < cap, ∀ h' < cap, h ≠ h' →
      Disjoint (visited (probeSeq cap h) (len h))
        (visited (probeSeq cap h') (len h'))

omit [Zero V] in
@[simp]
theorem mem_keysAt :
    key ∈ keysAt hash cap K h ↔ key ∈ K ∧ homeBucket hash cap key = h := by
  simp [keysAt]

def slotsOf (map : Hashmap V) (h : Nat) : Finset Nat :=
  (Finset.range map.cap).filter
    (fun p => (map.node p).status ≠ .empty ∧ (map.node p).hash = h)

theorem mem_slotsOf (hmap : Intact hash map) {p : Nat} :
    p ∈ slotsOf map h ↔
      (map.node p).status ≠ .empty ∧ (map.node p).hash = h := by
  simp only [slotsOf, Finset.mem_filter, Finset.mem_range, and_iff_right_iff_imp]
  exact fun hp => hmap.lt_cap hp.1

theorem Clean.occupied_of_used (hmap : Clean hash map) {p : Nat}
    (hused : (map.node p).status ≠ .empty) :
    (map.node p).status = .occupied := by
  cases hstatus : (map.node p).status with
  | empty => exact absurd hstatus hused
  | occupied => rfl
  | deleted => exact absurd hstatus (hmap.no_tombstone p)

/-- One key a slot, one slot a key. -/
theorem card_slotsOf (hmap : Clean hash map) (h : Nat) :
    (slotsOf map h).card = (keysAt hash map.cap map.keys h).card := by
  have himage : (slotsOf map h).image (fun p => (map.node p).key) =
      keysAt hash map.cap map.keys h := by
    ext key
    simp only [Finset.mem_image, mem_slotsOf hmap.intact, mem_keysAt, mem_keys]
    constructor
    · rintro ⟨p, ⟨hused, hhash⟩, rfl⟩
      have hocc := hmap.occupied_of_used hused
      exact ⟨⟨p, hocc, rfl⟩, (hmap.intact.home p hocc).symm.trans hhash⟩
    · rintro ⟨⟨p, hocc, rfl⟩, hhome⟩
      exact ⟨p, ⟨by simp [hocc], (hmap.intact.home p hocc).trans hhome⟩, rfl⟩
  rw [← himage, Finset.card_image_of_injOn]
  intro p hp q hq hkey
  have hp := (mem_slotsOf hmap.intact).mp hp
  have hq := (mem_slotsOf hmap.intact).mp hq
  exact hmap.distinct p q (hmap.occupied_of_used hp.1)
    (hmap.occupied_of_used hq.1) hkey

/-- The used slots of a bucket are an initial segment of its probes. -/
theorem slotsOf_eq_visited (hmap : Intact hash map) (h : Nat) :
    ∃ j ≤ map.cap + 1, slotsOf map h = visited (probeSeq map.cap h) j ∧
      (j ≤ map.cap → probeSeq map.cap h j ∉ slotsOf map h) := by
  apply exists_visited_eq
  intro p hp
  obtain ⟨hused, hhash⟩ := (mem_slotsOf hmap).mp hp
  obtain ⟨j, hj, hseq, hearlier⟩ := hmap.chain p hused
  rw [hhash] at hseq hearlier
  exact ⟨j, hj, hseq, fun i hi => (mem_slotsOf hmap).mpr (hearlier i hi)⟩

/-- The keys of a table without tombstones fit its capacity. -/
theorem Clean.fits (hmap : Clean hash map) : Fits hash map.cap map.keys := by
  choose len hlen hslots _ using slotsOf_eq_visited hmap.intact
  refine ⟨len, fun h _ => ⟨hlen h, ?_⟩, fun h _ h' _ hne => ?_⟩
  · rw [← hslots h, card_slotsOf hmap h]
  · rw [← hslots h, ← hslots h', Finset.disjoint_left]
    intro p hp hp'
    have heq := ((mem_slotsOf hmap.intact).mp hp).2
    have heq' := ((mem_slotsOf hmap.intact).mp hp').2
    exact hne (heq.symm.trans heq')

/-- While the keys fit the capacity, no insertion has to grow. -/
theorem Clean.setInPlace_ne_none (hmap : Clean hash map)
    (hfits : Fits hash map.cap K) (hkeys : map.keys ⊆ K) (hkey : key ∈ K) :
    setInPlace hash map key value ≠ none := by
  intro hnone
  obtain ⟨stop, hstop, hpassed, hforeign⟩ := setInPlace_none hmap.intact hnone
  have hhomeLt : homeBucket hash map.cap key < map.cap :=
    homeBucket_lt hmap.intact.capacity.pos key
  set home := homeBucket hash map.cap key with hhome
  obtain ⟨len, hlen, hdisjoint⟩ := hfits
  obtain ⟨j, hj, hslots, hend⟩ := slotsOf_eq_visited hmap.intact home
  -- the probe stops exactly at the end of the bucket's own segment
  have hmem : ∀ i < stop, probeSeq map.cap home i ∈ slotsOf map home :=
    fun i hi => (mem_slotsOf hmap.intact).mpr
      ⟨by simp [(hpassed i hi).1], (hpassed i hi).2.1⟩
  have hle : stop ≤ j := by
    by_contra hlt
    exact hend (by omega) (hmem j (by omega))
  have hge : j ≤ stop := by
    by_contra hlt
    have : probeSeq map.cap home stop ∈ slotsOf map home := by
      rw [hslots]
      exact mem_visited.mpr ⟨stop, by omega, rfl⟩
    exact (hforeign (by omega)).2 ((mem_slotsOf hmap.intact).mp this).2
  obtain rfl : stop = j := by omega
  -- the key is new to its bucket, so the bucket needs one more position
  have habsent : key ∉ map.keys := by
    rw [mem_keys]
    rintro ⟨p, hocc, hkeyp⟩
    have hp : p ∈ slotsOf map home := (mem_slotsOf hmap.intact).mpr
      ⟨by simp [hocc], by rw [hmap.intact.home p hocc, hkeyp]⟩
    rw [hslots] at hp
    obtain ⟨i, hi, rfl⟩ := mem_visited.mp hp
    exact (hpassed i hi).2.2 hkeyp
  have hmore : (slotsOf map home).card < (keysAt hash map.cap K home).card := by
    rw [card_slotsOf hmap]
    apply Finset.card_lt_card
    refine Finset.ssubset_iff_subset_ne.mpr
      ⟨Finset.filter_subset_filter _ hkeys, fun heq => habsent ?_⟩
    have : key ∈ keysAt hash map.cap K home := by simp [hkey, hhome]
    rw [← heq] at this
    exact (mem_keysAt.mp this).1
  rw [hslots, ← (hlen home hhomeLt).2] at hmore
  have hlt := lt_of_card_visited_lt hmore
  have hle' := (hlen home hhomeLt).1
  -- that position is a used slot of another bucket, which owns it
  have hown : probeSeq map.cap home stop ∈
      visited (probeSeq map.cap home) (len home) :=
    mem_visited.mpr ⟨stop, hlt, rfl⟩
  obtain ⟨hused, hne⟩ := hforeign (by omega)
  set other := (map.node (probeSeq map.cap home stop)).hash with hother
  have hotherLt : other < map.cap := hmap.intact.hash_lt _ hused
  have hslot : probeSeq map.cap home stop ∈ slotsOf map other :=
    (mem_slotsOf hmap.intact).mpr ⟨hused, rfl⟩
  obtain ⟨j', -, hslots', -⟩ := slotsOf_eq_visited hmap.intact other
  have hforeignOwn : probeSeq map.cap home stop ∈
      visited (probeSeq map.cap other) (len other) := by
    rw [hslots'] at hslot
    refine visited_subset_of_card_le ?_ hslot
    rw [← hslots', card_slotsOf hmap, (hlen other hotherLt).2]
    exact Finset.card_le_card (Finset.filter_subset_filter _ hkeys)
  exact Finset.disjoint_left.mp
    (hdisjoint home hhomeLt other hotherLt hne.symm)
    hown hforeignOwn

theorem Clean.represents (hmap : Clean hash map) :
    Represents map (insertAll (fun _ => none) map.arr) :=
  insertAll_represents hmap.distinct

private theorem keys_of_represents {next : Hashmap V}
    (h : Represents next
      (Function.update (insertAll (fun _ => none) map.arr) key (some value))) :
    next.keys = insert key map.keys := by
  ext k
  rw [mem_keys, h.present_iff, Finset.mem_insert, mem_keys,
    ← insertAll_present]
  rcases eq_or_ne k key with hk | hk
  · simp [hk]
  · simp [hk]

theorem hashmapSetFuel_keys {fuel : Nat} (hmap : Clean hash map)
    (h : hashmapSetFuel hash fuel map key value = .ok next) :
    next.keys = insert key map.keys :=
  keys_of_represents
    (hashmapSetFuel_updates fuel _ _ _ _ _ hmap hmap.represents h).2.1

omit [Zero V] in
/-- What holds of the table at every pass of the rehash loop holds at its end,
and the loop returns when each of its calls does. -/
theorem rehash_returns {set : Hashmap V → Key → V → Except Fault (Hashmap V)}
    {holds : Hashmap V → Prop} {nodes : List (MapNode V)}
    (hset : ∀ map, holds map → ∀ node ∈ nodes, node.status = .occupied →
      ∃ next, set map node.key node.value = .ok next ∧ holds next)
    (hmap : holds map) :
    ∃ next, rehash set nodes map = .ok next ∧ holds next := by
  induction nodes generalizing map with
  | nil => exact ⟨map, rfl, hmap⟩
  | cons node nodes ih =>
      have htail := fun map hm node' hmem => hset map hm node' (.tail _ hmem)
      simp only [rehash]
      split
      · rename_i hocc
        obtain ⟨middle, hmiddle, hholds⟩ := hset map hmap node (by simp) hocc
        rw [hmiddle]
        exact ih htail hholds
      · exact ih htail hmap

theorem hashmapSetFuel_stored {fuel : Nat} {stored : Hashmap V}
    (hcap : map.cap ≠ 0) (hplace : setInPlace hash map key value = some stored) :
    hashmapSetFuel hash (fuel + 1) map key value = .ok stored := by
  simp [hashmapSetFuel, hcap, hplace]

theorem hashmapSetFuel_grow {fuel : Nat} {grown : Hashmap V}
    (hcap : map.cap ≠ 0) (hplace : setInPlace hash map key value = none)
    (hgrown : rehash (hashmapSetFuel hash fuel) map.arr (doubled map) =
      .ok grown) :
    hashmapSetFuel hash (fuel + 1) map key value =
      hashmapSetFuel hash fuel grown key value := by
  simp [hashmapSetFuel, hcap, hplace, hgrown]

theorem doubled_cap_eq {k : Nat} (hcap : map.cap = 2 ^ k) (hk : k + 1 < 64) :
    (doubled map).cap = 2 ^ (k + 1) := by
  simp only [doubled, Hashmap.calloc, hcap, sizeModulus, ← Nat.pow_succ,
    Nat.succ_eq_add_one]
  exact Nat.mod_eq_of_lt (Nat.pow_lt_pow_right (by omega) hk)

theorem Intact.exponent_bounds {k : Nat} (hmap : Intact hash map)
    (hcap : map.cap = 2 ^ k) : 3 ≤ k ∧ k < 64 := by
  obtain ⟨e, hthree, hlt, heq⟩ := hmap.capacity
  obtain rfl := Nat.pow_right_injective le_rfl (hcap.symm.trans heq)
  exact ⟨hthree, hlt⟩

/-- A table without tombstones whose capacity lies in a range of powers of two
and whose keys come from a given set. -/
structure Bounded (hash : Key → UInt64) (K : Finset Key) (low high : Nat)
    (map : Hashmap V) : Prop where
  clean : Clean hash map
  keys_subset : map.keys ⊆ K
  cap_eq : ∃ k, low ≤ k ∧ k ≤ high ∧ map.cap = 2 ^ k

theorem Intact.doubled_bounded {k high : Nat} (hmap : Intact hash map)
    (hcap : map.cap = 2 ^ k) (hlt : k < high) (hhigh : high < 64) :
    Bounded hash K (k + 1) high (doubled map) := by
  have hdouble := doubled_cap_eq hcap (by omega)
  have hthree := (hmap.exponent_bounds hcap).1
  refine ⟨calloc_clean ⟨k + 1, by omega, by omega, hdouble⟩, ?_,
    k + 1, le_rfl, hlt, hdouble⟩
  intro key hmem
  obtain ⟨p, hocc, -⟩ := mem_keys.mp hmem
  simp [doubled, MapNode.zeroed] at hocc

/-- One growth returns when the calls nested in it do. -/
theorem Intact.grow_returns {fuel k high : Nat} (hmap : Intact hash map)
    (hcap : map.cap = 2 ^ k) (hlt : k < high) (hhigh : high < 64)
    (hkeys : map.keys ⊆ K) (hkey : key ∈ K)
    (hplace : setInPlace hash map key value = none)
    (hnested : ∀ (table : Hashmap V) (key : Key) (value : V),
      Bounded hash K (k + 1) high table → key ∈ K →
      ∃ next, hashmapSetFuel hash fuel table key value = .ok next ∧
        Bounded hash K (k + 1) high next) :
    ∃ next, hashmapSetFuel hash (fuel + 1) map key value = .ok next ∧
      Bounded hash K (k + 1) high next := by
  obtain ⟨grown, hgrown, hbounded⟩ : ∃ grown,
      rehash (hashmapSetFuel hash fuel) map.arr (doubled map) = .ok grown ∧
        Bounded hash K (k + 1) high grown :=
    rehash_returns
      (fun table htable node hmem hocc => by
        refine hnested table _ _ htable (hkeys ?_)
        obtain ⟨p, -, rfl⟩ := exists_node_of_mem hmem
        exact mem_keys.mpr ⟨p, hocc, rfl⟩)
      (hmap.doubled_bounded hcap hlt hhigh)
  rw [hashmapSetFuel_grow hmap.capacity.pos.ne' hplace hgrown]
  exact hnested grown key value hbounded hkey

/-- As long as all keys fit at a later capacity, a call returns at or before
that capacity. -/
theorem Bounded.set_returns {fuel low high : Nat} (hhigh : high < 64)
    (hfits : Fits hash (2 ^ high) K) (hfuel : high < fuel + low)
    (hmap : Bounded hash K low high map) (hkey : key ∈ K) :
    ∃ next, hashmapSetFuel hash fuel map key value = .ok next ∧
      Bounded hash K low high next := by
  induction fuel generalizing map key value low with
  | zero =>
      obtain ⟨k, hlow, hle, -⟩ := hmap.cap_eq
      omega
  | succ fuel ih =>
      obtain ⟨k, hlow, hle, hcap⟩ := hmap.cap_eq
      have hintact := hmap.clean.intact
      cases hplace : setInPlace hash map key value with
      | some stored =>
          have hset : hashmapSetFuel hash (fuel + 1) map key value =
              .ok stored := hashmapSetFuel_stored hintact.capacity.pos.ne' hplace
          obtain ⟨pos, hpos⟩ := setInPlace_some hintact hplace
          refine ⟨stored, hset, (hpos.clean hmap.clean hmap.clean.represents).1,
            ?_, k, hlow, hle, hpos.cap_eq.trans hcap⟩
          rw [hashmapSetFuel_keys hmap.clean hset]
          exact Finset.insert_subset hkey hmap.keys_subset
      | none =>
          have hlt : k < high := by
            rcases Nat.eq_or_lt_of_le hle with rfl | hlt
            · exact absurd hplace (hmap.clean.setInPlace_ne_none
                (hcap ▸ hfits) hmap.keys_subset hkey)
            · exact hlt
          obtain ⟨next, hnext, hbounded⟩ := hintact.grow_returns hcap hlt hhigh
            hmap.keys_subset hkey hplace
            (fun table key value htable hmem => ih (by omega) htable hmem)
          obtain ⟨e, he, he', heq⟩ := hbounded.cap_eq
          exact ⟨next, hnext, hbounded.clean, hbounded.keys_subset,
            e, by omega, he', heq⟩

/-- Some later 64-bit capacity fits the keys present and the new one. -/
def FitsLater (hash : Key → UInt64) (map : Hashmap V) (key : Key) : Prop :=
  ∃ k, k < 64 ∧ map.cap < 2 ^ k ∧ Fits hash (2 ^ k) (insert key map.keys)

/-- A call returns exactly when it stores in place or some later capacity
separates the chains of all keys. -/
theorem hashmapSet_returns_iff (hmap : Intact hash map) :
    (∃ next, hashmapSet hash map key value = .ok next) ↔
      setInPlace hash map key value ≠ none ∨ FitsLater hash map key := by
  constructor
  · rintro ⟨next, hnext⟩
    cases hplace : setInPlace hash map key value with
    | some stored => simp
    | none =>
        obtain ⟨hclean, hrep, hlt⟩ := hashmapSetFuel_grows hmap hplace hnext
        obtain ⟨k, -, hk, hcap⟩ := hclean.intact.capacity
        refine Or.inr ⟨k, hk, hcap ▸ hlt, ?_⟩
        rw [← hcap, ← keys_of_represents hrep]
        exact hclean.fits
  · intro hcond
    cases hplace : setInPlace hash map key value with
    | some stored =>
        exact ⟨stored, hashmapSetFuel_stored hmap.capacity.pos.ne' hplace⟩
    | none =>
        obtain ⟨high, hhigh, hlt, hfits⟩ := hcond.resolve_left (by simp [hplace])
        obtain ⟨k, -, -, hcap⟩ := hmap.capacity
        have hkhigh : k < high := by
          rw [hcap] at hlt
          exact (Nat.pow_lt_pow_iff_right (by omega)).mp hlt
        obtain ⟨next, hnext, -⟩ : ∃ next,
            hashmapSetFuel hash (63 + 1) map key value = .ok next ∧
              Bounded hash (insert key map.keys) (k + 1) high next :=
          hmap.grow_returns hcap hkhigh hhigh
            (Finset.subset_insert key map.keys)
            (Finset.mem_insert_self key map.keys) hplace
            (fun table key value htable hmem =>
              htable.set_returns hhigh hfits (by omega) hmem)
        exact ⟨next, hnext⟩

omit [Zero V] in
/-- Splitting a rehash loop that returns at one of its occupied nodes. -/
theorem rehash_split {set : Hashmap V → Key → V → Except Fault (Hashmap V)}
    {before after : List (MapNode V)} {node : MapNode V}
    {inserted : Hashmap V}
    (h : rehash set (before ++ node :: after) map = .ok next)
    (hbefore : rehash set before map = .ok inserted)
    (hocc : node.status = .occupied) :
    ∃ middle, set inserted node.key node.value = .ok middle := by
  induction before generalizing map with
  | nil =>
      simp only [rehash, Except.ok.injEq] at hbefore
      subst hbefore
      simp only [List.nil_append, rehash, hocc, if_true] at h
      split at h
      · cases h
      · rename_i middle hmiddle
        exact ⟨middle, hmiddle⟩
  | cons first before ih =>
      simp only [List.cons_append, rehash] at h hbefore
      split at h
      · rename_i hfirst
        simp only [hfirst, if_true] at hbefore
        split at h
        · cases h
        · rename_i middle hmiddle
          simp only [hmiddle] at hbefore
          exact ih h hbefore
      · rename_i hfirst
        simp only [hfirst, if_false] at hbefore
        exact ih h hbefore

theorem setInPlace_cap {stored : Hashmap V}
    (h : setInPlace hash map key value = some stored) : stored.cap = map.cap := by
  simp only [setInPlace] at h
  split at h
  · cases h
    rfl
  · cases h
    rfl
  · cases h

/-- No doubling overflows in a call that returns. -/
theorem During.cap_ne_zero {fuel : Nat} {table : Hashmap V}
    (hduring : During hash fuel map key value table)
    (h : hashmapSetFuel hash fuel map key value = .ok next) :
    table.cap ≠ 0 := by
  induction hduring generalizing next with
  | start => exact fun hzero => hashmapSetFuel_cap_zero hzero h
  | stored hcap hstored => rwa [setInPlace_cap hstored]
  | fresh hgrow =>
      rcases hashmapSetFuel_cases h with hplace | ⟨rest, grown, -, -, hgrown, hne, -⟩
      · simp [hgrow.2] at hplace
      · exact fun hzero => hne (rehash_cap_zero hzero hgrown ▸ hzero)
  | rehash hgrow harr hocc hbefore _ ih =>
      rcases hashmapSetFuel_cases h with
        hplace | ⟨rest, grown, hfuel, -, hgrown, -, -⟩
      · simp [hgrow.2] at hplace
      · obtain rfl := Nat.succ.inj hfuel
        rw [harr] at hgrown
        obtain ⟨middle, hmiddle⟩ := rehash_split hgrown hbefore hocc
        exact ih hmiddle
  | retry hgrow hgrown _ ih =>
      rcases hashmapSetFuel_cases h with
        hplace | ⟨rest, grown, hfuel, -, hgrown', -, hretry⟩
      · simp [hgrow.2] at hplace
      · obtain rfl := Nat.succ.inj hfuel
        rw [hgrown] at hgrown'
        cases hgrown'
        exact ih hretry

omit [Zero V] in
theorem rehash_ne_error {set : Hashmap V → Key → V → Except Fault (Hashmap V)}
    {holds : Hashmap V → Prop} {fault : Fault} {nodes : List (MapNode V)}
    (hset : ∀ map key value, holds map → set map key value ≠ .error fault ∧
      ∀ next, set map key value = .ok next → holds next)
    (hmap : holds map) :
    rehash set nodes map ≠ .error fault ∧
      ∀ next, rehash set nodes map = .ok next → holds next := by
  induction nodes generalizing map with
  | nil =>
      refine ⟨by simp [rehash], fun next h => ?_⟩
      simp only [rehash, Except.ok.injEq] at h
      exact h ▸ hmap
  | cons node nodes ih =>
      obtain ⟨hne, hok⟩ := hset map node.key node.value hmap
      simp only [rehash]
      split
      · cases hcall : set map node.key node.value with
        | error other =>
            rw [hcall] at hne
            exact ⟨by simpa using hne, by simp⟩
        | ok middle => exact ih (hok middle hcall)
      · exact ih hmap

/-- Enough recursion levels are left to double the capacity past 64 bits and
to meet the division by zero there. -/
def Fuelled (hash : Key → UInt64) (fuel : Nat) (map : Hashmap V) : Prop :=
  (Clean hash map ∧ ∃ k, map.cap = 2 ^ k ∧ 64 < fuel + k) ∨
    (map.cap = 0 ∧ 0 < fuel)

/-- A nested call that returns leaves a table with as many levels. -/
theorem Fuelled.kept {fuel : Nat} {table next : Hashmap V}
    (h : Fuelled hash fuel table)
    (hnext : hashmapSetFuel hash fuel table key value = .ok next) :
    Fuelled hash fuel next := by
  rcases h with ⟨hclean, e, he, hlt⟩ | ⟨hzero, hpos⟩
  · obtain ⟨hnextClean, -, hle⟩ := hashmapSetFuel_updates fuel _ _ _ _ _
      hclean hclean.represents hnext
    obtain ⟨e', -, -, heq⟩ := hnextClean.intact.capacity
    rw [he, heq] at hle
    have hgrown := (Nat.pow_le_pow_iff_right (by omega)).mp hle
    exact .inl ⟨hnextClean, e', heq, by omega⟩
  · exact absurd hnext (hashmapSetFuel_cap_zero hzero)

theorem Intact.doubled_fuelled {fuel k : Nat} (hmap : Intact hash map)
    (hcap : map.cap = 2 ^ k) (hfuel : 64 < fuel + 1 + k) :
    Fuelled hash fuel (doubled map) := by
  have hlt := (hmap.exponent_bounds hcap).2
  rcases doubled_cap hmap.capacity with ⟨hdoubled, heq⟩ | hzero
  · refine .inl ⟨calloc_clean hdoubled, k + 1, ?_, by omega⟩
    rw [heq, hcap, Nat.pow_succ, Nat.mul_comm]
  · exact .inr ⟨hzero, by omega⟩

/-- The recursion bound of the embedding is never what ends a call. -/
theorem hashmapSetFuel_ne_outOfFuel {fuel k : Nat} (hmap : Intact hash map)
    (hcap : map.cap = 2 ^ k) (hfuel : 64 < fuel + k) :
    hashmapSetFuel hash fuel map key value ≠ .error .outOfFuel := by
  induction fuel generalizing map key value k with
  | zero =>
      have hlt := (hmap.exponent_bounds hcap).2
      omega
  | succ fuel ih =>
      -- one nested call, on the tables the rehash loop goes through
      have hstep : ∀ table key value, Fuelled (V := V) hash fuel table →
          hashmapSetFuel hash fuel table key value ≠ .error .outOfFuel ∧
            ∀ next, hashmapSetFuel hash fuel table key value = .ok next →
              Fuelled hash fuel next := by
        intro table key value hfuelled
        refine ⟨?_, fun next hnext => hfuelled.kept hnext⟩
        rcases hfuelled with ⟨hclean, e, he, hlt⟩ | ⟨hzero, hpos⟩
        · exact ih hclean.intact he hlt
        · cases fuel with
          | zero => omega
          | succ fuel => simp [hashmapSetFuel, hzero]
      have hfresh := hmap.doubled_fuelled hcap hfuel
      simp only [hashmapSetFuel, hmap.capacity.pos.ne', if_false]
      split
      · simp
      · obtain ⟨hne, hok⟩ :
            rehash (hashmapSetFuel hash fuel) map.arr (doubled map) ≠
              .error .outOfFuel ∧ _ := rehash_ne_error hstep hfresh
        split
        · rename_i fault hfault
          rw [hfault] at hne
          exact hne
        · rename_i grown hgrown
          exact (hstep grown key value (hok grown hgrown)).1

theorem hashmapSet_ne_outOfFuel (hmap : Intact hash map) :
    hashmapSet hash map key value ≠ .error .outOfFuel := by
  obtain ⟨k, hthree, -, hcap⟩ := hmap.capacity
  exact hashmapSetFuel_ne_outOfFuel hmap hcap (by omega)

/-- The call returns, and at every moment of it the capacity is a power of two
below `2 ^ 64`; so it doubles finitely often and no `%` divides by zero. -/
def Terminates (hash : Key → UInt64) (map : Hashmap V) (key : Key) (value : V) :
    Prop :=
  (∃ next, hashmapSet hash map key value = .ok next) ∧
    ∀ table, During hash 64 map key value table → IsCapacity table.cap

theorem terminates_iff (hmap : Intact hash map) :
    Terminates hash map key value ↔
      setInPlace hash map key value ≠ none ∨ FitsLater hash map key := by
  rw [← hashmapSet_returns_iff hmap]
  constructor
  · exact fun h => h.1
  · rintro ⟨next, hnext⟩
    exact ⟨⟨next, hnext⟩, fun table hduring =>
      (hduring.intact hmap (hduring.cap_ne_zero hnext)).capacity⟩

def StoresInPlace (hash : Key → UInt64) (map : Hashmap V) (key : Key) : Prop :=
  ∃ pos, probeSet hash map key = some (pos, .found) ∨
    probeSet hash map key = some (pos, .replace)

theorem setInPlace_ne_none_iff (value : V) :
    setInPlace hash map key value ≠ none ↔ StoresInPlace hash map key := by
  simp only [setInPlace, StoresInPlace]
  split
  · rename_i pos hprobe
    simp [hprobe]
  · rename_i pos hprobe
    simp [hprobe]
  · rename_i hfound hreplace
    simp only [ne_eq, not_true_eq_false, false_iff, not_exists, not_or]
    exact fun pos => ⟨hfound pos, hreplace pos⟩

/-- From a reachable table a call terminates exactly when it can store in
place or some later capacity separates the chains; otherwise the capacity is
doubled until it overflows and the next `%` divides by zero. -/
theorem reachable_set_terminates_iff (hash : Key → UInt64) (map : Hashmap V)
    (key : Key) (value : V) (hmap : Reachable hash map) :
    (Terminates hash map key value ↔
      StoresInPlace hash map key ∨ FitsLater hash map key) ∧
    (hashmapSet hash map key value = .error .divisionByZero ↔
      ¬ (StoresInPlace hash map key ∨ FitsLater hash map key)) := by
  rw [← setInPlace_ne_none_iff value]
  refine ⟨terminates_iff hmap.intact, ?_⟩
  rw [← hashmapSet_returns_iff hmap.intact]
  have hfuel : hashmapSet hash map key value ≠ .error .outOfFuel :=
    hashmapSet_ne_outOfFuel hmap.intact
  cases hcall : hashmapSet hash map key value with
  | ok next => simp
  | error fault =>
      cases fault with
      | divisionByZero => simp
      | outOfFuel => exact absurd hcall hfuel

/-- Two keys of bucket 0: the second one sits in slot 1. -/
def bucketZeroPair : Hashmap Nat where
  cap := 8
  arr := [⟨[0, 1], 5, 0, .occupied⟩, ⟨[0, 2], 6, 0, .occupied⟩] ++
    List.replicate 6 MapNode.zeroed
  size := 2

theorem bucketZeroPair_reachable : Reachable firstByte bucketZeroPair :=
  ⟨[.set [0, 1] 5, .set [0, 2] 6], [none, none], by decide⟩

theorem bucketZeroPair_terminates :
    Terminates firstByte bucketZeroPair [0, 3] 7 :=
  (reachable_set_terminates_iff firstByte bucketZeroPair [0, 3] 7
    bucketZeroPair_reachable).1.mpr (Or.inl ⟨3, by decide⟩)

/-- At every capacity the second slot of bucket 0 is the home slot of
bucket 1, so two keys of the one and one of the other never fit. -/
theorem two_zeros_and_a_one_never_fit {cap : Nat} (hcap : 2 ≤ cap) :
    ¬ Fits firstByte cap {[1], [0, 1], [0, 2]} := by
  rintro ⟨len, hlen, hdisjoint⟩
  have hhome (b : UInt8) (tail : Key) (hb : b.toNat < cap) :
      homeBucket firstByte cap (b :: tail) = b.toNat := by
    simpa [homeBucket, firstByte] using Nat.mod_eq_of_lt hb
  have hzeros : (keysAt firstByte cap {[1], [0, 1], [0, 2]} 0).card = 2 := by
    simp [keysAt, Finset.filter_insert, Finset.filter_singleton,
      hhome 1 [] (by simpa), hhome 0 [1] (by simp; omega),
      hhome 0 [2] (by simp; omega)]
  have hone : (keysAt firstByte cap {[1], [0, 1], [0, 2]} 1).card = 1 := by
    simp [keysAt, Finset.filter_insert, Finset.filter_singleton,
      hhome 1 [] (by simpa), hhome 0 [1] (by simp; omega),
      hhome 0 [2] (by simp; omega)]
  have hlen0 := (hlen 0 (by omega)).2
  have hlen1 := (hlen 1 (by omega)).2
  rw [hzeros] at hlen0
  rw [hone] at hlen1
  have hle0 := card_visited_le (f := probeSeq cap 0) (j := len 0)
  have hle1 := card_visited_le (f := probeSeq cap 1) (j := len 1)
  have hsecond : probeSeq cap 0 1 = 1 := by
    simpa [probeIndex, sizeModulus] using Nat.mod_eq_of_lt (by omega : 1 < cap)
  have hin0 : 1 ∈ visited (probeSeq cap 0) (len 0) :=
    mem_visited.mpr ⟨1, by omega, hsecond⟩
  have hin1 : 1 ∈ visited (probeSeq cap 1) (len 1) :=
    mem_visited.mpr ⟨0, by omega, rfl⟩
  exact Finset.disjoint_left.mp
    (hdisjoint 0 (by omega) 1 (by omega) (by omega)) hin0 hin1

/-- Two keys of bucket 0 and one of bucket 1: every growth meets the same
collision again. -/
theorem bucketZeroPair_overflows :
    ∃ (map : Hashmap Nat) (key : Key) (value : Nat),
      Reachable firstByte map ∧ ¬ Terminates firstByte map key value := by
  refine ⟨bucketZeroPair, [1], 7, bucketZeroPair_reachable, ?_⟩
  rw [terminates_iff bucketZeroPair_reachable.intact]
  rintro (hplace | ⟨k, -, hlt, hfits⟩)
  · exact hplace (by decide)
  · have hkeys : bucketZeroPair.keys = {[0, 1], [0, 2]} := by decide
    have hcap : bucketZeroPair.cap = 8 := rfl
    rw [hkeys] at hfits
    exact two_zeros_and_a_one_never_fit (by omega) hfits

end CsPrimer.BasicHashmap
