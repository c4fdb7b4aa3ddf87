import Mathlib.Tactic

/-!
What a program is handed and has to give back. The cells of a heap are named
by ids that are never used again, so that an id given back stays dead; a
descriptor is a number that may be used again, for another file.
-/

namespace CsPrimer.Foundation

variable {α ι : Type*}

/-- Cells by id, and the ids given back. Everything handed out is live or has
been given back once. -/
structure Heap (α : Type*) where
  next : Nat
  cell : Nat → Option α
  released : List Nat
  unused : ∀ id, next ≤ id → cell id = none
  count_released : ∀ id,
    released.count id = if id < next ∧ (cell id).isNone then 1 else 0

namespace Heap

variable {heap heap' : Heap α} {id id' : Nat} {a : α}

def empty : Heap α where
  next := 0
  cell := fun _ => none
  released := []
  unused := fun _ _ => rfl
  count_released := fun _ => rfl

theorem lt_next (h : (heap.cell id).isSome) : id < heap.next := by
  by_contra hle
  rw [heap.unused id (Nat.le_of_not_lt hle)] at h
  cases h

/-- The new cell has the id `heap.next`. -/
def alloc (heap : Heap α) (a : α) : Heap α where
  next := heap.next + 1
  cell := Function.update heap.cell heap.next (some a)
  released := heap.released
  unused := by
    intro id hid
    rw [Function.update_of_ne (Nat.ne_of_gt hid)]
    exact heap.unused id (Nat.le_of_succ_le hid)
  count_released := by
    intro id
    rw [heap.count_released id]
    rcases eq_or_ne id heap.next with rfl | hne
    · simp
    · rw [Function.update_of_ne hne]
      have hlt : id < heap.next + 1 ↔ id < heap.next := by omega
      simp only [hlt]

def write (heap : Heap α) (id : Nat) (a : α) (hlive : (heap.cell id).isSome) :
    Heap α where
  next := heap.next
  cell := Function.update heap.cell id (some a)
  released := heap.released
  unused := by
    intro id' hid
    rw [Function.update_of_ne]
    · exact heap.unused id' hid
    · rintro rfl
      exact Nat.not_lt_of_le hid (lt_next hlive)
  count_released := by
    intro id'
    rw [heap.count_released id']
    rcases eq_or_ne id' id with rfl | hne
    · rw [Function.update_self, Option.isNone_eq_false_iff.mpr hlive]
      rfl
    · rw [Function.update_of_ne hne]

def release (heap : Heap α) (id : Nat) (hlive : (heap.cell id).isSome) :
    Heap α where
  next := heap.next
  cell := Function.update heap.cell id none
  released := heap.released ++ [id]
  unused := by
    intro id' hid
    rcases eq_or_ne id' id with rfl | hne
    · rw [Function.update_self]
    · rw [Function.update_of_ne hne]
      exact heap.unused id' hid
  count_released := by
    intro id'
    rw [List.count_append, heap.count_released id']
    rcases eq_or_ne id' id with rfl | hne
    · rw [Function.update_self, Option.isNone_eq_false_iff.mpr hlive]
      simp [lt_next hlive]
    · rw [Function.update_of_ne hne, List.count_singleton]
      simp [hne.symm]

/-- A write that fails on a cell that is not live. -/
def store (heap : Heap α) (id : Nat) (a : α) : Option (Heap α) :=
  if hlive : (heap.cell id).isSome then some (heap.write id a hlive) else none

/-- A release that fails on a cell that is not live. -/
def free (heap : Heap α) (id : Nat) : Option (Heap α) :=
  if hlive : (heap.cell id).isSome then some (heap.release id hlive) else none

/-- A release by a pointer: there is nothing to do for a null one. -/
def freePointer {ε : Type*} (fault : ε) (heap : Heap α) : Option Nat → Except ε (Heap α)
  | none => .ok heap
  | some id =>
      match heap.free id with
      | some heap => .ok heap
      | none => .error fault

theorem alloc_cell_self : (heap.alloc a).cell heap.next = some a :=
  Function.update_self ..

theorem alloc_cell_of_live (h : (heap.cell id).isSome) :
    (heap.alloc a).cell id = heap.cell id :=
  Function.update_of_ne (Nat.ne_of_lt (lt_next h)) ..

/-- A new cell given back leaves the cells as they were. -/
theorem alloc_released :
    Function.update (heap.alloc a).cell heap.next none = heap.cell := by
  funext id
  rcases eq_or_ne id heap.next with rfl | hne
  · rw [Function.update_self, heap.unused _ le_rfl]
  · rw [Function.update_of_ne hne]
    exact Function.update_of_ne hne ..

theorem store_of_live (hlive : (heap.cell id).isSome) :
    ∃ heap', heap.store id a = some heap' ∧
      heap'.cell = Function.update heap.cell id (some a) :=
  ⟨heap.write id a hlive, dif_pos hlive, rfl⟩

theorem free_of_live (hlive : (heap.cell id).isSome) :
    ∃ heap', heap.free id = some heap' ∧
      heap'.cell = Function.update heap.cell id none :=
  ⟨heap.release id hlive, dif_pos hlive, rfl⟩

/-- What has been handed out is live, or has been given back exactly once. -/
theorem released_once (hid : id < heap.next) :
    heap.released.count id = if (heap.cell id).isSome then 0 else 1 := by
  rw [heap.count_released id]
  cases heap.cell id <;> simp [hid]

structure OwnedBy (heap : Heap α) (owner : ι → Option Nat) : Prop where
  live : ∀ {x id}, owner x = some id → (heap.cell id).isSome
  unique : ∀ {x y id}, owner x = some id → owner y = some id → x = y
  owned : ∀ {id}, (heap.cell id).isSome → ∃ x, owner x = some id

variable {owner : ι → Option Nat} {x : ι}

theorem ownedBy_empty : (empty : Heap α).OwnedBy fun _ : ι => none where
  live := by
    intro x id h
    cases h
  unique := by
    intro x y id h
    cases h
  owned := by
    intro id h
    cases h

theorem OwnedBy.congr (h : heap.OwnedBy owner)
    (hcell : heap'.cell = heap.cell) : heap'.OwnedBy owner where
  live := hcell ▸ h.live
  unique := h.unique
  owned := hcell ▸ h.owned

theorem OwnedBy.store (h : heap.OwnedBy owner)
    (hcell : heap'.cell = Function.update heap.cell id (some a))
    (hlive : (heap.cell id).isSome) : heap'.OwnedBy owner := by
  have hsame : ∀ id', (heap'.cell id').isSome = (heap.cell id').isSome := by
    intro id'
    rw [hcell]
    rcases eq_or_ne id' id with rfl | hne
    · rw [Function.update_self, hlive]
      rfl
    · rw [Function.update_of_ne hne]
  refine ⟨?_, h.unique, ?_⟩
  · intro x id' howner
    rw [hsame]
    exact h.live howner
  · intro id' hlive'
    rw [hsame] at hlive'
    exact h.owned hlive'

variable [DecidableEq ι]

/-- A new cell for who has none. -/
theorem OwnedBy.alloc (h : heap.OwnedBy owner) (hx : owner x = none) :
    (heap.alloc a).OwnedBy (Function.update owner x (some heap.next)) where
  live := by
    intro y id howner
    rcases eq_or_ne y x with rfl | hne
    · rw [Function.update_self] at howner
      cases howner
      rw [alloc_cell_self]
      rfl
    · rw [Function.update_of_ne hne] at howner
      rw [alloc_cell_of_live (h.live howner)]
      exact h.live howner
  unique := by
    intro y z id hy hz
    have hnew : ∀ w, owner w ≠ some heap.next :=
      fun w hw => Nat.lt_irrefl _ (lt_next (h.live hw))
    rcases eq_or_ne y x with rfl | hyx
    · rcases eq_or_ne z y with rfl | hzy
      · rfl
      · rw [Function.update_self] at hy
        rw [Function.update_of_ne hzy, ← hy] at hz
        exact absurd hz (hnew z)
    · rw [Function.update_of_ne hyx] at hy
      rcases eq_or_ne z x with rfl | hzx
      · rw [Function.update_self] at hz
        rw [← hz] at hy
        exact absurd hy (hnew y)
      · rw [Function.update_of_ne hzx] at hz
        exact h.unique hy hz
  owned := by
    intro id hlive
    rcases eq_or_ne id heap.next with rfl | hne
    · exact ⟨_, Function.update_self ..⟩
    · have hcell : (heap.alloc a).cell id = heap.cell id :=
        Function.update_of_ne hne ..
      rw [hcell] at hlive
      obtain ⟨y, hy⟩ := h.owned hlive
      refine ⟨y, ?_⟩
      rw [Function.update_of_ne]
      · exact hy
      · rintro rfl
        rw [hx] at hy
        cases hy

/-- The owner gives its cell back. -/
theorem OwnedBy.free (h : heap.OwnedBy owner) (hx : owner x = some id)
    (hcell : heap'.cell = Function.update heap.cell id none) :
    heap'.OwnedBy (Function.update owner x none) where
  live := by
    intro y id' howner
    rcases eq_or_ne y x with rfl | hne
    · rw [Function.update_self] at howner
      cases howner
    · rw [Function.update_of_ne hne] at howner
      rw [hcell, Function.update_of_ne]
      · exact h.live howner
      · rintro rfl
        exact hne (h.unique howner hx)
  unique := by
    intro y z id' hy hz
    rcases eq_or_ne y x with rfl | hyx
    · rw [Function.update_self] at hy
      cases hy
    · rcases eq_or_ne z x with rfl | hzx
      · rw [Function.update_self] at hz
        cases hz
      · rw [Function.update_of_ne hyx] at hy
        rw [Function.update_of_ne hzx] at hz
        exact h.unique hy hz
  owned := by
    intro id' hlive
    rw [hcell] at hlive
    rcases eq_or_ne id' id with rfl | hne
    · rw [Function.update_self] at hlive
      cases hlive
    · rw [Function.update_of_ne hne] at hlive
      obtain ⟨y, hy⟩ := h.owned hlive
      refine ⟨y, ?_⟩
      rw [Function.update_of_ne]
      · exact hy
      · rintro rfl
        rw [hx] at hy
        exact hne (Option.some.inj hy).symm

end Heap

structure Descriptors where
  files : Heap Nat
  table : Nat → Option Nat
  table_iff : ∀ fd file, table fd = some file ↔ files.cell file = some fd

namespace Descriptors

variable {fds fds' : Descriptors} {fd fd' file : Nat}

def empty : Descriptors where
  files := Heap.empty
  table := fun _ => none
  table_iff := by
    intro fd file
    exact iff_of_false (by simp) (by simp [Heap.empty])

/-- A file is opened under a number that is not in use. -/
def openAt (fds : Descriptors) (fd : Nat) (hfree : fds.table fd = none) :
    Descriptors where
  files := fds.files.alloc fd
  table := Function.update fds.table fd (some fds.files.next)
  table_iff := by
    intro fd' file
    have hnew : fds.table fd' ≠ some fds.files.next := by
      intro hfd'
      have hcell := (fds.table_iff fd' _).mp hfd'
      exact Nat.lt_irrefl _ (Heap.lt_next (Option.isSome_of_eq_some hcell))
    rcases eq_or_ne file fds.files.next with rfl | hfile
    · rw [Heap.alloc_cell_self]
      rcases eq_or_ne fd' fd with rfl | hfd
      · simp
      · rw [Function.update_of_ne hfd]
        exact iff_of_false hnew (fun heq => hfd (Option.some.inj heq).symm)
    · have hcell : (fds.files.alloc fd).cell file = fds.files.cell file :=
        Function.update_of_ne hfile ..
      rw [hcell, ← fds.table_iff]
      rcases eq_or_ne fd' fd with rfl | hfd
      · rw [Function.update_self, hfree]
        exact iff_of_false (fun heq => hfile (Option.some.inj heq).symm) (by simp)
      · rw [Function.update_of_ne hfd]

theorem live_of_table (h : fds.table fd = some file) :
    (fds.files.cell file).isSome := by
  rw [(fds.table_iff fd file).mp h]
  rfl

/-- The number is free again, and the file is gone. -/
def closeAt (fds : Descriptors) (fd file : Nat)
    (hopen : fds.table fd = some file) : Descriptors where
  files := fds.files.release file (live_of_table hopen)
  table := Function.update fds.table fd none
  table_iff := by
    intro fd' file'
    have hcell : (fds.files.release file (live_of_table hopen)).cell =
        Function.update fds.files.cell file none := rfl
    rw [hcell]
    rcases eq_or_ne file' file with rfl | hfile
    · rw [Function.update_self]
      refine iff_of_false ?_ (by simp)
      rcases eq_or_ne fd' fd with rfl | hfd
      · simp
      · rw [Function.update_of_ne hfd, fds.table_iff,
          (fds.table_iff fd file').mp hopen]
        exact fun heq => hfd (Option.some.inj heq).symm
    · rw [Function.update_of_ne hfile, ← fds.table_iff]
      rcases eq_or_ne fd' fd with rfl | hfd
      · rw [Function.update_self, hopen]
        exact iff_of_false (by simp) (fun heq => hfile (Option.some.inj heq).symm)
      · rw [Function.update_of_ne hfd]

/-- An `open` that fails for a number in use. -/
def «open» (fds : Descriptors) (fd : Nat) : Option Descriptors :=
  if hfree : fds.table fd = none then some (fds.openAt fd hfree) else none

/-- A `close` that fails for a number not in use. -/
def close (fds : Descriptors) (fd : Nat) : Option Descriptors :=
  match hopen : fds.table fd with
  | none => none
  | some file => some (fds.closeAt fd file hopen)

theorem open_cases (h : fds.open fd = some fds') :
    fds.table fd = none ∧
      fds'.table = Function.update fds.table fd (some fds.files.next) := by
  unfold Descriptors.open at h
  split at h
  · rename_i hfree
    cases h
    exact ⟨hfree, rfl⟩
  · cases h

theorem close_of_open (hopen : (fds.table fd).isSome) :
    ∃ fds', fds.close fd = some fds' ∧
      fds'.table = Function.update fds.table fd none := by
  unfold close
  split
  · rename_i hclosed
    rw [hclosed] at hopen
    cases hopen
  · rename_i file hfile
    exact ⟨_, rfl, rfl⟩

/-- A file that was opened is open, or has been closed exactly once. -/
theorem closed_once (hfile : file < fds.files.next) :
    ((∃ fd, fds.table fd = some file) ∧ fds.files.released.count file = 0) ∨
      ((∀ fd, fds.table fd ≠ some file) ∧
        fds.files.released.count file = 1) := by
  have honce := Heap.released_once hfile
  cases hcell : fds.files.cell file with
  | some fd =>
      rw [hcell] at honce
      exact .inl ⟨⟨fd, (fds.table_iff fd file).mpr hcell⟩, honce⟩
  | none =>
      rw [hcell] at honce
      refine .inr ⟨?_, honce⟩
      intro fd hfd
      rw [(fds.table_iff fd file).mp hfd] at hcell
      cases hcell

structure Opens (fds : Descriptors) (held : List Nat) : Prop where
  nodup : held.Nodup
  open_iff : ∀ fd, (fds.table fd).isSome ↔ fd ∈ held

variable {held held' : List Nat}

theorem opens_empty : empty.Opens [] :=
  ⟨List.nodup_nil, fun _ => iff_of_false (by simp [empty]) List.not_mem_nil⟩

theorem Opens.perm (h : fds.Opens held) (hperm : held.Perm held') : fds.Opens held' :=
  ⟨hperm.nodup_iff.mp h.nodup, fun fd => (h.open_iff fd).trans hperm.mem_iff⟩

theorem Opens.opened (h : fds.Opens held) (hopen : fds.open fd = some fds') :
    fds'.Opens (fd :: held) := by
  obtain ⟨hfree, htable⟩ := open_cases hopen
  refine ⟨List.nodup_cons.mpr ⟨?_, h.nodup⟩, ?_⟩
  · rw [← h.open_iff, hfree]
    exact Bool.false_ne_true
  · intro other
    rw [htable, List.mem_cons]
    rcases eq_or_ne other fd with rfl | hne
    · rw [Function.update_self]
      exact iff_of_true rfl (.inl rfl)
    · rw [Function.update_of_ne hne, h.open_iff]
      exact (or_iff_right hne).symm

theorem Opens.close (h : fds.Opens (fd :: held)) :
    ∃ fds', fds.close fd = some fds' ∧ fds'.Opens held := by
  obtain ⟨hnew, hnodup⟩ := List.nodup_cons.mp h.nodup
  obtain ⟨fds', hclose, htable⟩ := close_of_open ((h.open_iff fd).mpr List.mem_cons_self)
  refine ⟨fds', hclose, hnodup, ?_⟩
  intro other
  rw [htable]
  rcases eq_or_ne other fd with rfl | hne
  · rw [Function.update_self]
    exact iff_of_false Bool.false_ne_true hnew
  · rw [Function.update_of_ne hne, h.open_iff, List.mem_cons]
    exact or_iff_right hne

end Descriptors

end CsPrimer.Foundation
