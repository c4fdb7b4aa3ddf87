import CsPrimer.BasicHashmap.Growth

/-!
The map as a finite map from byte strings to values. `Hashmap_set` stores at
the first slot of the chain that can take the key, and a tombstone can. If
the key sits further along, it is then held twice. Runs in which no call does
this behave as the finite map, whatever is deleted, collides or grows.
-/

namespace CsPrimer.BasicHashmap

open Foundation

variable {V : Type} [Zero V] {hash : Key → UInt64} {map next : Hashmap V}
  {key : Key} {value : V} {pos : Nat} {σ : Key → Option V}

/-- The finite map: `0` is `NULL`, and `Hashmap_set` returns nothing. -/
def specAnswer (σ : Key → Option V) : Call V → (Key → Option V) × Option V
  | .set key value => (Function.update σ key (some value), none)
  | .get key => (σ, some ((σ key).getD 0))
  | .delete key => (Function.update σ key none, some ((σ key).getD 0))

/-- A `Hashmap_set` that would store in a tombstone does so only for a key
that no occupied slot holds. -/
def ReusesSafely (hash : Key → UInt64) (map : Hashmap V) : Call V → Prop
  | .set key _ => ∀ pos, probeSet hash map key = some (pos, .found) →
      (map.node pos).status = .deleted → ¬ Present map key
  | .get _ => True
  | .delete _ => True

instance (map : Hashmap V) (call : Call V) :
    Decidable (ReusesSafely hash map call) :=
  match call with
  | .set key _ => decidable_of_iff
      (∀ stop ∈ probeSet hash map key, stop.2 = .found →
        (map.node stop.1).status = .deleted → ¬ Present map key)
      ⟨fun h pos hprobe => h (pos, .found) hprobe rfl,
        fun h stop hprobe hflag => h stop.1 (hflag ▸ hprobe)⟩
  | .get _ => isTrue trivial
  | .delete _ => isTrue trivial

structure Models (hash : Key → UInt64) (map : Hashmap V)
    (σ : Key → Option V) : Prop where
  intact : Intact hash map
  distinct : Distinct map
  represents : Represents map σ

theorem hashmapNew_models :
    Models hash (hashmapNew : Hashmap V) (fun _ => none) where
  intact := hashmapNew_intact
  distinct := calloc_distinct _
  represents := calloc_represents _

theorem Models.lookup (hmap : Models hash map σ)
    (hocc : (map.node pos).status = .occupied) :
    σ (map.node pos).key = some (map.node pos).value :=
  (hmap.represents _ _).mpr ⟨pos, hocc, rfl, rfl⟩

theorem Models.lookup_absent (hmap : Models hash map σ)
    (h : ∀ pos, probeGet hash map key ≠ some (pos, .found)) :
    σ key = none := by
  by_contra hne
  obtain ⟨p, hocc, hkey⟩ := hmap.represents.present_iff.mpr hne
  exact probeGet_absent hmap.intact h p hocc hkey

/-- An in-place store reuses a tombstone only where `ReusesSafely` speaks. -/
theorem StoredAt.reuse (h : StoredAt hash map key value pos next)
    (hallowed : ReusesSafely hash map (.set key value))
    (hdeleted : (map.node pos).status = .deleted) : ¬ Present map key := by
  rcases h.stops with hfound | ⟨-, hocc⟩
  · exact hallowed pos hfound hdeleted
  · rw [hdeleted] at hocc
    cases hocc

theorem Models.set (hmap : Models hash map σ)
    (hallowed : ReusesSafely hash map (.set key value))
    (h : hashmapSet hash map key value = .ok next) :
    Models hash next (Function.update σ key (some value)) := by
  cases hplace : setInPlace hash map key value with
  | some stored =>
      rcases hashmapSetFuel_cases h with hstored | ⟨_, _, _, hnone, _⟩
      · obtain ⟨pos, hpos⟩ := setInPlace_some hmap.intact hstored
        obtain ⟨hdistinct, hrep⟩ := hpos.represents hmap.intact hmap.distinct
          hmap.represents (hpos.reuse hallowed)
        exact ⟨hpos.intact hmap.intact, hdistinct, hrep⟩
      · rw [hplace] at hnone
        cases hnone
  | none =>
      obtain ⟨hclean, hrep, -⟩ := hashmapSetFuel_grows hmap.intact hplace h
      have hsame : insertAll (fun _ => none) map.arr = σ := by
        funext k
        apply Option.ext
        intro v
        rw [insertAll_represents hmap.distinct k v, hmap.represents k v]
      exact ⟨hclean.intact, hclean.distinct, hsame ▸ hrep⟩

theorem Models.get {out : V} (hmap : Models hash map σ)
    (h : hashmapGet hash map key = .ok out) : out = (σ key).getD 0 := by
  simp only [hashmapGet, hmap.intact.capacity.pos.ne', if_false] at h
  split at h
  · rename_i pos hprobe
    obtain ⟨hocc, rfl⟩ := probeGet_found hmap.intact hprobe
    cases h
    rw [hmap.lookup hocc, Option.getD_some]
  · rename_i habsent
    cases h
    rw [hmap.lookup_absent habsent, Option.getD_none]

/-- Turning the one slot of a key into a tombstone removes the key. -/
theorem Models.deleteNode (hmap : Models hash map σ)
    (hocc : (map.node pos).status = .occupied) :
    Models hash { nodeDelete map pos with size := map.size - 1 }
      (Function.update σ (map.node pos).key none) := by
  have hlength : pos < map.arr.length := lt_length_of_used (by simp [hocc])
  set deleted : Hashmap V := { nodeDelete map pos with size := map.size - 1 }
    with hdeleted
  have hput : deleted = map.put pos
      { map.node pos with status := .deleted, key := [] } (map.size - 1) := rfl
  have hself : (deleted.node pos).status ≠ .occupied := by
    rw [hput, put_node_self _ _ hlength]
    simp
  have hother : ∀ {p}, p ≠ pos → deleted.node p = map.node p := by
    intro p hp
    rw [hput, put_node_ne _ _ hp]
  have hne : ∀ {p}, (deleted.node p).status = .occupied → p ≠ pos := by
    rintro p hp rfl
    exact hself hp
  refine ⟨nodeDelete_intact hmap.intact hocc, ?_, ?_⟩
  · intro p q hp hq hkey
    have hpne := hne hp
    have hqne := hne hq
    rw [hother hpne] at hp hkey
    rw [hother hqne] at hq hkey
    exact hmap.distinct p q hp hq hkey
  · intro k v
    rcases eq_or_ne k (map.node pos).key with hk | hk
    · rw [hk, Function.update_self]
      constructor
      · rintro ⟨⟩
      · rintro ⟨p, hp, hkey, -⟩
        have hpos := hne hp
        rw [hother hpos] at hp hkey
        exact absurd (hmap.distinct p pos hp hocc hkey) hpos
    · rw [Function.update_of_ne hk, hmap.represents k v]
      constructor
      · rintro ⟨p, hp, hkey, hvalue⟩
        have hpos : p ≠ pos := by
          rintro rfl
          exact hk hkey.symm
        exact ⟨p, by rw [hother hpos]; exact hp,
          by rw [hother hpos]; exact hkey,
          by rw [hother hpos]; exact hvalue⟩
      · rintro ⟨p, hp, hkey, hvalue⟩
        have hpos := hne hp
        rw [hother hpos] at hp hkey hvalue
        exact ⟨p, hp, hkey, hvalue⟩

theorem Models.delete {out : V} (hmap : Models hash map σ)
    (h : hashmapDelete hash map key = .ok (next, out)) :
    out = (σ key).getD 0 ∧ Models hash next (Function.update σ key none) := by
  simp only [hashmapDelete, hmap.intact.capacity.pos.ne', if_false] at h
  split at h
  · rename_i pos hprobe
    obtain ⟨hocc, rfl⟩ := probeGet_found hmap.intact hprobe
    cases h
    rw [hmap.lookup hocc, Option.getD_some]
    exact ⟨rfl, hmap.deleteNode hocc⟩
  · rename_i habsent
    cases h
    have hnone := hmap.lookup_absent habsent
    rw [hnone, Option.getD_none]
    exact ⟨rfl, by rwa [Function.update_eq_self_iff.mpr hnone.symm]⟩

/-- Every call that reuses tombstones safely answers as the finite map. -/
theorem Models.answer {call : Call V} {out : Option V}
    (hmap : Models hash map σ) (hallowed : ReusesSafely hash map call)
    (h : answer hash map call = .ok (next, out)) :
    out = (specAnswer σ call).2 ∧ Models hash next (specAnswer σ call).1 := by
  cases call with
  | set key value =>
      simp only [BasicHashmap.answer] at h
      split at h
      · cases h
      · rename_i stored hstored
        cases h
        exact ⟨rfl, hmap.set hallowed hstored⟩
  | get key =>
      simp only [BasicHashmap.answer] at h
      split at h
      · cases h
      · rename_i value hvalue
        cases h
        exact ⟨congrArg some (hmap.get hvalue), hmap⟩
  | delete key =>
      simp only [BasicHashmap.answer] at h
      split at h
      · cases h
      · rename_i deleted value hdeleted
        cases h
        obtain ⟨hout, hnext⟩ := hmap.delete hdeleted
        exact ⟨congrArg some hout, hnext⟩

theorem serve_models {final : Hashmap V} {calls : List (Call V)}
    {outs : List (Option V)}
    (hallowed : Along (ReusesSafely hash) (answer hash) hashmapNew calls)
    (hserve : serve (answer hash) hashmapNew calls = .ok (final, outs)) :
    outs = (specify specAnswer (fun _ => none) calls).2 ∧
      Models hash final (specify specAnswer (fun _ => none) calls).1 :=
  serve_refines (fun _ _ _ _ _ hmap hcall h => hmap.answer hcall h)
    hashmapNew_models hallowed hserve

/-- A run whose `Hashmap_set` calls never store in a tombstone in front of the
same key answers as the finite map, and the table holds what that map holds. -/
theorem run_refines_finite_map (hash : Key → UInt64) (calls : List (Call V))
    (final : Hashmap V) (outs : List (Option V))
    (hserve : serve (answer hash) hashmapNew calls = .ok (final, outs))
    (hallowed : Along (ReusesSafely hash) (answer hash) hashmapNew calls) :
    outs = (specify specAnswer (fun _ => none) calls).2 ∧
      Represents final (specify specAnswer (fun _ => none) calls).1 := by
  obtain ⟨houts, hmodels⟩ := serve_models hallowed hserve
  exact ⟨houts, hmodels.represents⟩

def reusedTombstone : Hashmap Nat where
  cap := 8
  arr := ⟨[0, 1], 6, 0, .occupied⟩ :: List.replicate 7 MapNode.zeroed
  size := 1

theorem run_refines_finite_map_reusedTombstone :
    [none, some 5, none, some 6] =
        (specify specAnswer (fun _ => none)
          [.set [0, 1] 5, .delete [0, 1], .set [0, 1] 6, .get [0, 1]]).2 ∧
      Represents reusedTombstone
        (specify specAnswer (fun _ => none)
          [.set [0, 1] 5, .delete [0, 1], .set [0, 1] 6, .get [0, 1]]).1 :=
  run_refines_finite_map firstByte _ reusedTombstone _ (by decide) (by decide)

/-- A key stored again in the tombstone before it survives its deletion. -/
theorem deleted_key_is_still_found :
    ∃ (calls : List (Call Nat)) (final : Hashmap Nat) (outs : List (Option Nat)),
      serve (answer firstByte) hashmapNew calls = .ok (final, outs) ∧
        outs ≠ (specify specAnswer (fun _ => none) calls).2 :=
  ⟨[.set [0, 1] 5, .set [0, 2] 6, .delete [0, 1], .set [0, 2] 7,
      .delete [0, 2], .get [0, 2]],
    ⟨8, [⟨[], 7, 0, .deleted⟩, ⟨[0, 2], 6, 0, .occupied⟩] ++
      List.replicate 6 MapNode.zeroed, 1⟩,
    [none, none, some 5, none, some 7, some 6], by decide, by decide⟩

/-- Each key of a duplicate-free table is counted once. -/
theorem Distinct.occupied_eq (hmap : Distinct map) :
    map.occupied = map.keys.card := by
  rw [Hashmap.keys, List.toFinset_card_of_nodup, List.length_map,
    ← List.countP_eq_length_filter, Hashmap.occupied]
  rw [List.Nodup, List.pairwise_map, List.pairwise_filter,
    List.pairwise_iff_getElem]
  intro i j hi hj hlt hocci hoccj hkey
  have hnode {p : Nat} (hp : p < map.arr.length) : map.node p = map.arr[p] := by
    simp [Hashmap.node, List.getD_eq_getElem?_getD, hp]
  simp only [decide_eq_true_eq, ← hnode] at hocci hoccj hkey
  have := hmap i j hocci hoccj hkey
  omega

/-- A store into a tombstone in front of the same key does leave the key in
two occupied slots. -/
theorem StoredAt.not_distinct (hmap : Intact hash map)
    (h : StoredAt hash map key value pos next)
    (hdeleted : (map.node pos).status = .deleted) (hpresent : Present map key) :
    ¬ Distinct next := by
  intro hdistinct
  obtain ⟨p, hocc, hkey⟩ := hpresent
  have hne : p ≠ pos := by
    rintro rfl
    rw [hdeleted] at hocc
    cases hocc
  refine hne (hdistinct p pos ?_ ?_ ?_)
  · rw [h.node_ne hne]
    exact hocc
  · rw [h.node_self hmap]
  · rw [h.node_ne hne, h.node_self hmap]
    exact hkey

/-- From a duplicate-free table `Hashmap_set` leaves a duplicate-free one
exactly when it reuses no tombstone in front of the key. -/
theorem Models.set_distinct_iff (hmap : Models hash map σ)
    (h : hashmapSet hash map key value = .ok next) :
    Distinct next ↔ ReusesSafely hash map (.set key value) := by
  constructor
  · intro hdistinct pos hprobe hdeleted hpresent
    have hplace : setInPlace hash map key value ≠ none := by
      simp [setInPlace, hprobe]
    rcases hashmapSetFuel_cases h with hstored | ⟨_, _, _, hnone, _⟩
    · obtain ⟨q, hq⟩ := setInPlace_some hmap.intact hstored
      have hqpos : q = pos := by
        rcases hq.stops with hs | ⟨hs, -⟩ <;> rw [hprobe] at hs <;> simp_all
      exact hq.not_distinct hmap.intact (hqpos ▸ hdeleted) hpresent hdistinct
    · exact hplace hnone
  · exact fun hallowed => (hmap.set hallowed h).distinct

/-- Along a run whose `Hashmap_set` calls never store in a tombstone in front
of the same key, no key is in two occupied slots and `size` counts the keys;
a further `Hashmap_set` keeps this exactly when it does not do so either. -/
theorem run_keeps_keys_distinct (hash : Key → UInt64) (calls : List (Call V))
    (final : Hashmap V) (outs : List (Option V))
    (hserve : serve (answer hash) hashmapNew calls = .ok (final, outs))
    (hallowed : Along (ReusesSafely hash) (answer hash) hashmapNew calls) :
    Distinct final ∧ final.size = final.keys.card ∧
      ∀ key value next, hashmapSet hash final key value = .ok next →
        (Distinct next ↔ ReusesSafely hash final (.set key value)) := by
  obtain ⟨-, hmodels⟩ := serve_models hallowed hserve
  refine ⟨hmodels.distinct, ?_, fun _ _ _ h => hmodels.set_distinct_iff h⟩
  rw [hmodels.intact.size_eq, hmodels.distinct.occupied_eq]

theorem run_keeps_keys_distinct_reusedTombstone :
    Distinct reusedTombstone ∧ reusedTombstone.size = reusedTombstone.keys.card ∧
      ∀ key value next,
        hashmapSet firstByte reusedTombstone key value = .ok next →
          (Distinct next ↔
            ReusesSafely firstByte reusedTombstone (.set key value)) :=
  run_keeps_keys_distinct firstByte
    [.set [0, 1] 5, .delete [0, 1], .set [0, 1] 6, .get [0, 1]]
    reusedTombstone [none, some 5, none, some 6] (by decide) (by decide)

def doubledKey : Hashmap Nat where
  cap := 8
  arr := [⟨[0, 2], 7, 0, .occupied⟩, ⟨[0, 2], 6, 0, .occupied⟩] ++
    List.replicate 6 MapNode.zeroed
  size := 2

theorem doubledKey_reachable :
    ∃ map : Hashmap Nat, Reachable firstByte map ∧ ¬ Distinct map ∧
      map.size ≠ map.keys.card :=
  ⟨doubledKey,
    ⟨[.set [0, 1] 5, .set [0, 2] 6, .delete [0, 1], .set [0, 2] 7],
      [none, none, some 5, none], by decide⟩,
    fun hdistinct => absurd (hdistinct 0 1 rfl rfl rfl) (by decide), by decide⟩

end CsPrimer.BasicHashmap
