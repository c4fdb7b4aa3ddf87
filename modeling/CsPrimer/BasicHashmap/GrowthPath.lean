import CsPrimer.BasicHashmap.FiniteMap

/-!
One `Hashmap_set` that grows, seen from outside. The table it starts from need
not be a reachable one: its chains are intact and no key is in it twice, with
any tombstones and whatever `size` says. The growth counts anew.
-/

namespace CsPrimer.BasicHashmap

open Foundation

variable {V : Type} [Zero V] {hash : Key → UInt64} {map next : Hashmap V}
  {key : Key} {value : V} {σ : Key → Option V}

structure ChainsIntact (hash : Key → UInt64) (map : Hashmap V) : Prop where
  capacity : IsCapacity map.cap
  arr_length : map.arr.length = map.cap
  home : ∀ p, (map.node p).status = .occupied →
    (map.node p).hash = homeBucket hash map.cap (map.node p).key
  hash_lt : ∀ p, (map.node p).status ≠ .empty → (map.node p).hash < map.cap
  chain : ∀ p, (map.node p).status ≠ .empty → OnChain map (map.node p).hash p

/-- The same table with `size` as it should be. -/
def Hashmap.counted (map : Hashmap V) : Hashmap V :=
  { map with size := map.occupied }

theorem ChainsIntact.counted (hmap : ChainsIntact hash map) :
    Intact hash map.counted where
  capacity := hmap.capacity
  arr_length := hmap.arr_length
  home := hmap.home
  hash_lt := hmap.hash_lt
  chain := hmap.chain
  size_eq := rfl

theorem Distinct.counted_models (hdistinct : Distinct map)
    (hmap : ChainsIntact hash map) :
    Models hash map.counted (insertAll (fun _ => none) map.arr) where
  intact := hmap.counted
  distinct := hdistinct
  represents := (insertAll_represents hdistinct : Represents map _)

theorem setInPlace_counted (hnone : setInPlace hash map key value = none) :
    setInPlace hash map.counted key value = none := by
  have hprobe : probeSet hash map.counted key = probeSet hash map key := rfl
  unfold setInPlace at hnone ⊢
  rw [hprobe]
  split at hnone
  · cases hnone
  · cases hnone
  · rfl

/-- The growth does not look at `size`. -/
theorem hashmapSetFuel_counted {fuel : Nat}
    (hnone : setInPlace hash map key value = none)
    (hset : hashmapSetFuel hash fuel map key value = .ok next) :
    hashmapSetFuel hash fuel map.counted key value = .ok next := by
  cases fuel with
  | zero => cases hset
  | succ fuel =>
      simp only [hashmapSetFuel, hnone] at hset
      simp only [hashmapSetFuel, setInPlace_counted hnone]
      exact hset

theorem Models.get_eq (hmap : Models hash map σ) (key : Key) :
    hashmapGet hash map key = .ok ((σ key).getD 0) := by
  cases hget : hashmapGet hash map key with
  | ok out => rw [hmap.get hget]
  | error fault =>
      simp only [hashmapGet, hmap.intact.capacity.pos.ne', if_false] at hget
      split at hget <;> cases hget

/-- What a call on the growth path leaves: the new pair, the others as they
were, no tombstone, and `size` the number of keys. -/
structure Regrown (hash : Key → UInt64) (map : Hashmap V) (key : Key)
    (value : V) (next : Hashmap V) : Prop where
  stored : hashmapGet hash next key = .ok value
  others : ∀ other, other ≠ key →
    hashmapGet hash next other = hashmapGet hash map other
  no_tombstone : ∀ p, (next.node p).status ≠ .deleted
  size_eq : next.size = next.keys.card

/-- However many growths are nested in the rehash loop or in the last call. -/
theorem hashmapSet_growth_path (hash : Key → UInt64) (map next : Hashmap V)
    (key : Key) (value : V) (hmap : ChainsIntact hash map)
    (hdistinct : Distinct map)
    (hgrow : setInPlace hash map key value = none)
    (hset : hashmapSet hash map key value = .ok next) :
    Regrown hash map key value next := by
  have hbefore := hdistinct.counted_models hmap
  obtain ⟨hclean, hrep, _⟩ := hashmapSetFuel_grows hmap.counted
    (setInPlace_counted hgrow) (hashmapSetFuel_counted hgrow hset)
  have hafter : Models hash next _ := ⟨hclean.intact, hclean.distinct, hrep⟩
  refine ⟨?_, ?_, hclean.no_tombstone, ?_⟩
  · rw [hafter.get_eq, Function.update_self, Option.getD_some]
  · intro other hother
    have hlookup : hashmapGet hash map other =
        hashmapGet hash map.counted other := rfl
    rw [hlookup, hafter.get_eq, hbefore.get_eq,
      Function.update_of_ne hother]
    rfl
  · rw [hclean.intact.size_eq, hclean.distinct.occupied_eq]

/-- Bucket 0 has run over into slot 1, slot 2 holds a tombstone, and `size` is
off. -/
def crowdedTable : Hashmap Nat where
  cap := 8
  arr := [⟨[0], 5, 0, .occupied⟩, ⟨[8], 6, 0, .occupied⟩, ⟨[], 7, 2, .deleted⟩] ++
    List.replicate 5 MapNode.zeroed
  size := 9

/-- Apart from `size` the table is one that a few calls leave. -/
theorem crowdedTable_models :
    ∃ σ, Models firstByte { crowdedTable with size := 2 } σ := by
  have hserve : serve (answer firstByte) hashmapNew
      [.set [0] 5, .set [8] 6, .set [2] 7, .delete [2]] =
        .ok ({ crowdedTable with size := 2 }, [none, none, none, some 7]) := by
    decide
  exact ⟨_, (serve_models (by decide) hserve).2⟩

theorem crowdedTable_chainsIntact : ChainsIntact firstByte crowdedTable := by
  obtain ⟨_, hintact, _, _⟩ := crowdedTable_models
  exact ⟨hintact.capacity, hintact.arr_length, hintact.home, hintact.hash_lt,
    hintact.chain⟩

theorem crowdedTable_distinct : Distinct crowdedTable := by
  obtain ⟨_, _, hdistinct, _⟩ := crowdedTable_models
  exact hdistinct

def regrownTable : Hashmap Nat where
  cap := 16
  arr := [⟨[0], 5, 0, .occupied⟩, ⟨[1], 8, 1, .occupied⟩] ++
    List.replicate 6 MapNode.zeroed ++ [⟨[8], 6, 8, .occupied⟩] ++
    List.replicate 7 MapNode.zeroed
  size := 3

theorem crowdedTable_growth_path :
    Regrown firstByte crowdedTable [1] 8 regrownTable :=
  hashmapSet_growth_path firstByte crowdedTable regrownTable [1] 8
    crowdedTable_chainsIntact crowdedTable_distinct (by decide) (by decide)

end CsPrimer.BasicHashmap
