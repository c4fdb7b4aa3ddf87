import CsPrimer.MultiThreadedMergesort.Sort

/-!
The CPU that `mt_sort` chooses for a thread and the mask that `routine` hands
to `pthread_setaffinity_np`. `mod` counts down at every index of the inherited
mask, set or not, so only one index can be chosen.
-/

namespace CsPrimer.MultiThreadedMergesort

open Foundation

/-- `cpu_set_t`; `setsize` stands for `CPU_SETSIZE`. -/
structure CpuSet (setsize : Nat) where
  cpus : Finset Nat
  cpus_lt : ∀ cpu ∈ cpus, cpu < setsize

variable {setsize : Nat}

namespace CpuSet

def cpuZero : CpuSet setsize := ⟨∅, by simp⟩

def cpuIsset (cpu : Nat) (set : CpuSet setsize) : Bool := decide (cpu ∈ set.cpus)

def cpuCount (set : CpuSet setsize) : Nat := set.cpus.card

theorem cpuCount_le (set : CpuSet setsize) : set.cpuCount ≤ setsize := by
  have hsubset : set.cpus ⊆ Finset.range setsize :=
    fun cpu hcpu => Finset.mem_range.mpr (set.cpus_lt cpu hcpu)
  have hcard := Finset.card_le_card hsubset
  rwa [Finset.card_range] at hcard

end CpuSet

open CpuSet

/-- The loop of `mt_sort` with `left` indices before `CPU_SETSIZE`. -/
def searchCupno (set : CpuSet setsize) : (left cupno : Nat) → (mod : UInt64) → Nat
  | 0, cupno, _ => cupno
  | left + 1, cupno, mod =>
      if cpuIsset cupno set && 0 == mod then cupno
      else searchCupno set left (cupno + 1) (mod - 1)

def mtSortCupno (set : CpuSet setsize) (tcnt : UInt64) : Nat :=
  searchCupno set setsize 0 (tcnt % UInt64.ofNat set.cpuCount)

/-- The mask `routine` builds: its `CPU_ISSET` asks for the CPU and leaves the
mask as it is. -/
def routineSet (setsize cupno : Nat) : CpuSet setsize :=
  let set := cpuZero
  let _isset := cpuIsset cupno set
  set

/-- After the count has been zero it starts again at `2 ^ 64 - 1`, which is
more than there are indices. -/
theorem searchCupno_eq (set : CpuSet setsize) {left : Nat} (cupno : Nat) (mod : UInt64)
    (hleft : left ≤ 2 ^ 64) :
    searchCupno set left cupno mod =
      if mod.toNat < left ∧ cupno + mod.toNat ∈ set.cpus then cupno + mod.toNat
      else cupno + left := by
  induction left generalizing cupno mod with
  | zero => simp [searchCupno]
  | succ left ih =>
      rw [searchCupno, ih _ _ (by omega)]
      rcases eq_or_ne mod 0 with rfl | hmod
      · have hwrap : (0 - 1 : UInt64).toNat = 2 ^ 64 - 1 := rfl
        by_cases hset : cupno ∈ set.cpus
        · simp [cpuIsset, hset]
        · have hmore : ¬ 2 ^ 64 - 1 < left := by omega
          simp only [cpuIsset, hset, hwrap, hmore]
          simp [hset]
          omega
      · have hpos : 0 < mod.toNat := by
          rw [Nat.pos_iff_ne_zero, ← UInt64.toNat_zero, Ne, UInt64.toNat_inj]
          exact hmod
        have hsub : (mod - 1).toNat = mod.toNat - 1 :=
          UInt64.toNat_sub_of_le mod 1 (UInt64.le_iff_toNat_le.mpr hpos)
        have hnext : cupno + 1 + (mod.toNat - 1) = cupno + mod.toNat := by omega
        have hiff : mod.toNat - 1 < left ↔ mod.toNat < left + 1 := by omega
        have hlast : cupno + 1 + left = cupno + (left + 1) := by omega
        have hne : (0 == mod) = false := by simpa using hmod.symm
        rw [hne, Bool.and_false, if_neg Bool.false_ne_true]
        simp only [hsub, hnext, hiff, hlast]

/-- The CPU whose number is the remainder, when the mask has it. -/
theorem mtSortCupno_eq (hsetsize : setsize ≤ intMax) (set : CpuSet setsize)
    (hset : set.cpus.Nonempty) (tcnt : UInt64) :
    mtSortCupno set tcnt =
      if tcnt.toNat % set.cpuCount ∈ set.cpus then tcnt.toNat % set.cpuCount
      else setsize := by
  have hbound : intMax < 2 ^ 64 := by decide
  have hcount := set.cpuCount_le
  have hpos : 0 < set.cpuCount := hset.card_pos
  have hsize : set.cpuCount < UInt64.size := by
    rw [UInt64.size]
    omega
  have hmod : (tcnt % UInt64.ofNat set.cpuCount).toNat = tcnt.toNat % set.cpuCount := by
    rw [UInt64.toNat_mod, UInt64.toNat_ofNat_of_lt' hsize]
  have hlt : tcnt.toNat % set.cpuCount < setsize :=
    lt_of_lt_of_le (Nat.mod_lt _ hpos) hcount
  rw [mtSortCupno, searchCupno_eq set 0 _ (by omega), hmod]
  simp only [hlt, true_and, Nat.zero_add]

/-- The thread may run on the chosen CPU and is told to run there only. -/
def PinsWorker (set : CpuSet setsize) (tcnt : UInt64) : Prop :=
  mtSortCupno set tcnt ∈ set.cpus ∧
    (routineSet setsize (mtSortCupno set tcnt)).cpus = {mtSortCupno set tcnt}

/-- For every mask and count: the chosen CPU is allowed when the remainder of
the count is itself an allowed CPU, and no thread is pinned to it. -/
theorem no_worker_pinned (hsetsize : setsize ≤ intMax) (set : CpuSet setsize)
    (hset : set.cpus.Nonempty) (tcnt : UInt64) :
    (mtSortCupno set tcnt ∈ set.cpus ↔ tcnt.toNat % set.cpuCount ∈ set.cpus) ∧
      ¬ PinsWorker set tcnt := by
  constructor
  · rw [mtSortCupno_eq hsetsize set hset]
    split
    · rename_i hmem
      exact iff_of_true hmem hmem
    · rename_i hmem
      exact iff_of_false (fun hcpu => lt_irrefl _ (set.cpus_lt _ hcpu)) hmem
  · rintro ⟨-, hpinned⟩
    exact Finset.singleton_ne_empty _ hpinned.symm

/-- The mask with the CPUs 0 to 3 and four threads. -/
theorem four_of_four_not_pinned :
    ¬ PinsWorker (⟨Finset.range 4, by decide⟩ : CpuSet 1024) 4 :=
  (no_worker_pinned (by decide) ⟨Finset.range 4, by decide⟩ (by decide) 4).2

/-- With CPU 1 alone allowed, the search ends at `CPU_SETSIZE`, and the mask
that is handed on is empty. -/
theorem lone_cpu_one_missed :
    mtSortCupno (⟨{1}, by simp⟩ : CpuSet 1024) 4 = 1024 ∧
      ¬ PinsWorker (⟨{1}, by simp⟩ : CpuSet 1024) 4 := by
  have hcupno : mtSortCupno (⟨{1}, by simp⟩ : CpuSet 1024) 4 = 1024 := by
    rw [mtSortCupno_eq (by decide) _ (by simp)]
    rfl
  refine ⟨hcupno, fun hpins => ?_⟩
  have hmem := hpins.1
  rw [hcupno] at hmem
  simp at hmem

end CsPrimer.MultiThreadedMergesort
