import CsPrimer.DynamicArray.Array
import CsPrimer.Foundation.Footprint

/-!
The functions of `dynarray.c` on a heap, with the tests for a `NULL` array. The
fields of an array and its slots are blocks of their own. `realloc` ends the old
block and hands out another one, with a pointer of its own even where it would
grow in place. A load, a store or a `free` that has no live block is a fault.
-/

namespace CsPrimer.DynamicArray

open Foundation

variable {V : Type}

/-- `struct DA`, whose slots are elsewhere. -/
structure Fields where
  cap : Nat
  size : Nat
  arr : Option Nat
  deriving DecidableEq, Repr

inductive Block (V : Type) where
  | da (fields : Fields)
  | slots (arr : List (Option V))
  deriving DecidableEq, Repr

abbrev Memory (V : Type) := Heap (Block V)

def loadFields (heap : Memory V) (da : Nat) : Except Fault Fields :=
  match heap.cell da with
  | some (.da fields) => .ok fields
  | _ => .error .outOfBounds

def storeBlock (heap : Memory V) (id : Nat) (block : Block V) : Except Fault (Memory V) :=
  match heap.store id block with
  | some heap => .ok heap
  | none => .error .outOfBounds

def loadSlots (heap : Memory V) (arr : Option Nat) : Except Fault (List (Option V)) :=
  match arr.bind heap.cell with
  | some (.slots items) => .ok items
  | _ => .error .outOfBounds

def loadSlot (heap : Memory V) (fields : Fields) (i : Nat) : Except Fault V := do
  let items ← loadSlots heap fields.arr
  (DA.mk fields.cap fields.size items).read i

def storeSlot (heap : Memory V) (fields : Fields) (i : Nat) (x : V) :
    Except Fault (Memory V) := do
  let items ← loadSlots heap fields.arr
  let written ← (DA.mk fields.cap fields.size items).write i x
  match fields.arr with
  | some arr => storeBlock heap arr (.slots written.arr)
  | none => .error .outOfBounds

/-- `free`, which takes a `NULL`. -/
def freeBlock (heap : Memory V) (pointer : Option Nat) : Except Fault (Memory V) :=
  heap.freePointer .outOfBounds pointer

/-- `realloc`, with the new block; of a `NULL` it is a `malloc`. -/
def heapRealloc (heap : Memory V) (arr : Option Nat) (bytes : Nat) :
    Except Fault (Memory V × Nat) :=
  match arr with
  | none => .ok (heap.alloc (.slots (malloc bytes)), heap.next)
  | some _ => do
      let items ← loadSlots heap arr
      let heap ← freeBlock heap arr
      return (heap.alloc (.slots (realloc items bytes)), heap.next)

/-- `DA_new`, with the array. -/
def heapNew (heap : Memory V) : Except Fault (Memory V × Nat) := do
  let da := heap.next
  let heap := heap.alloc (.da ⟨startingCapacity, 0, none⟩)
  let arr := heap.next
  let heap := heap.alloc (.slots (malloc (startingCapacity * pointerSize)))
  let heap ← storeBlock heap da (.da ⟨startingCapacity, 0, some arr⟩)
  return (heap, da)

/-- `DA_size`, which has no test for a `NULL`. -/
def heapSize (heap : Memory V) : Option Nat → Except Fault Int
  | none => .error .outOfBounds
  | some da => do
      let fields ← loadFields heap da
      return (fields.size : Int).bmod (2 ^ 32)

/-- The growth in `DA_push`, where the slots are full. -/
def heapGrow (heap : Memory V) (da : Nat) (fields : Fields) :
    Except Fault (Memory V × Fields) :=
  if fields.size = fields.cap then do
    let cap := 3 * fields.cap / 2
    let heap ← storeBlock heap da (.da { fields with cap := cap })
    let (heap, arr) ← heapRealloc heap fields.arr (cap * pointerSize % sizeModulus)
    let fields := { fields with cap := cap, arr := some arr }
    let heap ← storeBlock heap da (.da fields)
    return (heap, fields)
  else return (heap, fields)

def heapPush (heap : Memory V) (da : Option Nat) (x : V) : Except Fault (Memory V) :=
  match da with
  | none => .ok heap
  | some da => do
      let fields ← loadFields heap da
      let (heap, fields) ← heapGrow heap da fields
      let heap ← storeSlot heap fields fields.size x
      storeBlock heap da (.da { fields with size := fields.size + 1 })

def heapPop [Zero V] (heap : Memory V) (da : Option Nat) : Except Fault (Memory V × V) :=
  match da with
  | none => .ok (heap, 0)
  | some da => do
      let fields ← loadFields heap da
      if fields.size ≠ 0 then
        let fields := { fields with size := fields.size - 1 }
        let heap ← storeBlock heap da (.da fields)
        let x ← loadSlot heap fields fields.size
        return (heap, x)
      else return (heap, 0)

def heapSet (heap : Memory V) (da : Option Nat) (x : V) (i : Int) : Except Fault (Memory V) :=
  match da with
  | none => .ok heap
  | some da => do
      let fields ← loadFields heap da
      if 0 ≤ i ∧ i < fields.size then storeSlot heap fields i.toNat x else return heap

def heapGet [Zero V] (heap : Memory V) (da : Option Nat) (i : Int) : Except Fault V :=
  match da with
  | none => .ok 0
  | some da => do
      let fields ← loadFields heap da
      if 0 ≤ i ∧ i < fields.size then loadSlot heap fields i.toNat else return 0

def heapFree (heap : Memory V) (da : Option Nat) : Except Fault (Memory V) :=
  match da with
  | none => .ok heap
  | some id => do
      let fields ← loadFields heap id
      let heap ← freeBlock heap fields.arr
      let heap ← storeBlock heap id (.da { fields with arr := none })
      freeBlock heap da

/-- A call with a pointer to an array, or with a `NULL`. -/
def heapAnswer [Zero V] (heap : Memory V) (da : Option Nat) :
    Call V → Except Fault (Memory V × Answer V)
  | .push x => do
      let heap ← heapPush heap da x
      return (heap, .void)
  | .pop => do
      let (heap, x) ← heapPop heap da
      return (heap, .pointer x)
  | .set x i => do
      let heap ← heapSet heap da x i
      return (heap, .void)
  | .get i => do
      let x ← heapGet heap da i
      return (heap, .pointer x)
  | .size => do
      let n ← heapSize heap da
      return (heap, .int n)

variable {heap heap' : Memory V} {id slots : Nat} {da : DA V}

structure ArrayAt (heap : Memory V) (id slots : Nat) (da : DA V) : Prop where
  fields : heap.cell id = some (.da ⟨da.cap, da.size, some slots⟩)
  slots : heap.cell slots = some (.slots da.arr)

def HandsOn (heap : Memory V) (id slots : Nat) (heap' : Memory V) (next : DA V) : Prop :=
  ∃ slots', ArrayAt heap' id slots' next ∧ heap.Transfers heap' {id, slots} {id, slots'}

theorem ArrayAt.ne (h : ArrayAt heap id slots da) : id ≠ slots := by
  rintro rfl
  have hfields := h.fields
  rw [h.slots] at hfields
  cases hfields

theorem ArrayAt.live (h : ArrayAt heap id slots da) :
    ∀ block ∈ ({id, slots} : Set Nat), (heap.cell block).isSome := by
  rintro block (rfl | rfl)
  · exact Option.isSome_of_eq_some h.fields
  · exact Option.isSome_of_eq_some h.slots

theorem ArrayAt.keeps (h : ArrayAt heap id slots da)
    (hcell : ∀ block ∈ ({id, slots} : Set Nat), heap'.cell block = heap.cell block) :
    ArrayAt heap' id slots da where
  fields := by rw [hcell id (.inl rfl), h.fields]
  slots := by rw [hcell slots (.inr rfl), h.slots]

theorem storeBlock_ok (hlive : (heap.cell id).isSome) (block : Block V) :
    ∃ heap', storeBlock heap id block = .ok heap' ∧ heap.Transfers heap' {id} {id} ∧
      heap'.cell id = some block := by
  obtain ⟨heap', hstore, -⟩ := Heap.store_of_live (a := block) hlive
  exact ⟨heap', by simp only [storeBlock, hstore], Heap.transfers_store hstore⟩

/-- The fields are written, and still point at the slots. -/
theorem ArrayAt.storeFields (h : ArrayAt heap id slots da) (cap size : Nat) :
    ∃ heap', storeBlock heap id (.da ⟨cap, size, some slots⟩) = .ok heap' ∧
      ArrayAt heap' id slots ⟨cap, size, da.arr⟩ ∧
      heap.Transfers heap' {id, slots} {id, slots} := by
  obtain ⟨heap', hstore, hmoved, hcell⟩ := storeBlock_ok (Option.isSome_of_eq_some h.fields)
    (.da ⟨cap, size, some slots⟩)
  refine ⟨heap', hstore, ⟨hcell, ?_⟩, hmoved.framed {slots}⟩
  rw [hmoved.keeps h.ne.symm (Option.isSome_of_eq_some h.slots), h.slots]

theorem ArrayAt.loadSlot (h : ArrayAt heap id slots da) (cap size i : Nat) :
    DynamicArray.loadSlot heap ⟨cap, size, some slots⟩ i = da.read i := by
  simp only [DynamicArray.loadSlot, loadSlots, Option.bind_some, h.slots, ok_bind, DA.read]

theorem DA.write_ok {next : DA V} {i : Nat} {x : V} (h : da.write i x = .ok next) :
    next.cap = da.cap ∧ next.size = da.size := by
  unfold DA.write at h
  split at h
  · cases h
    exact ⟨rfl, rfl⟩
  · cases h

theorem ArrayAt.storeSlot (h : ArrayAt heap id slots da) (i : Nat) (x : V) :
    match da.write i x with
    | .error fault =>
        DynamicArray.storeSlot heap ⟨da.cap, da.size, some slots⟩ i x = .error fault
    | .ok next => ∃ heap',
        DynamicArray.storeSlot heap ⟨da.cap, da.size, some slots⟩ i x = .ok heap' ∧
        ArrayAt heap' id slots next ∧ heap.Transfers heap' {id, slots} {id, slots} := by
  simp only [DynamicArray.storeSlot, loadSlots, Option.bind_some, h.slots, ok_bind]
  cases hwrite : da.write i x with
  | error fault => simp only [error_bind]
  | ok next =>
      obtain ⟨hcap, hsize⟩ := DA.write_ok hwrite
      obtain ⟨heap', hstore, hmoved, hcell⟩ :=
        storeBlock_ok (Option.isSome_of_eq_some h.slots) (.slots next.arr)
      refine ⟨heap', by simp only [ok_bind, hstore], ⟨?_, hcell⟩, ?_⟩
      · rw [hmoved.keeps h.ne (Option.isSome_of_eq_some h.fields), h.fields, hcap, hsize]
      · exact (hmoved.framed {id}).of_iff (fun _ => Or.comm) fun _ => Or.comm

/-- `realloc` exchanges the slots for others. -/
theorem heapRealloc_ok {items : List (Option V)} (hcell : heap.cell slots = some (.slots items))
    (bytes : Nat) :
    ∃ heap' slots', heapRealloc heap (some slots) bytes = .ok (heap', slots') ∧
      heap.Transfers heap' {slots} {slots'} ∧
      heap'.cell slots' = some (.slots (realloc items bytes)) := by
  obtain ⟨freed, hfree, hgiven⟩ :=
    Heap.freePointer_ok Fault.outOfBounds (Option.isSome_of_eq_some hcell)
  refine ⟨freed.alloc (.slots (realloc items bytes)), freed.next, ?_,
    hgiven.trans (Heap.transfers_alloc freed _), Heap.alloc_cell_self⟩
  simp only [heapRealloc, loadSlots, Option.bind_some, hcell, ok_bind, freeBlock, hfree,
    pure_eq_ok]

theorem ArrayAt.grow (h : ArrayAt heap id slots da) {grown : DA V}
    (hgrown : grown = if da.size = da.cap then da.grow else da) :
    ∃ heap' slots', heapGrow heap id ⟨da.cap, da.size, some slots⟩ =
        .ok (heap', ⟨grown.cap, grown.size, some slots'⟩) ∧
      ArrayAt heap' id slots' grown ∧ heap.Transfers heap' {id, slots} {id, slots'} := by
  subst hgrown
  by_cases hfull : da.size = da.cap
  case neg =>
    simp only [heapGrow, if_neg hfull]
    exact ⟨heap, slots, rfl, h, Heap.Transfers.refl⟩
  simp only [if_pos hfull]
  obtain ⟨resized, hresize, hat, hmoved⟩ := h.storeFields (3 * da.cap / 2) da.size
  obtain ⟨grown, slots', hrealloc, hgrown, hcell⟩ :=
    heapRealloc_ok hat.slots (3 * da.cap / 2 * pointerSize % sizeModulus)
  have hkept : grown.cell id = resized.cell id :=
    hgrown.keeps hat.ne (Option.isSome_of_eq_some hat.fields)
  have hne : slots' ≠ id := by
    rintro rfl
    rw [hkept, hat.fields] at hcell
    cases hcell
  obtain ⟨heap', hstore, hwritten, hfields⟩ := storeBlock_ok
    (by rw [hkept]; exact Option.isSome_of_eq_some hat.fields)
    (.da ⟨3 * da.cap / 2, da.size, some slots'⟩)
  refine ⟨heap', slots', ?_, ⟨hfields, ?_⟩, hmoved.trans ?_⟩
  · simp only [heapGrow, if_pos hfull, hresize, ok_bind, hrealloc, hstore, pure_eq_ok, DA.grow]
  · rw [hwritten.keeps hne (Option.isSome_of_eq_some hcell), hcell]
    rfl
  · have hpair := (hgrown.framed {id}).of_iff (fun _ => Or.comm) fun _ => Or.comm
    exact hpair.trans (hwritten.framed {slots'})

theorem ArrayAt.push (h : ArrayAt heap id slots da) (x : V) :
    match daPush da x with
    | .error fault => heapPush heap (some id) x = .error fault
    | .ok next => ∃ heap', heapPush heap (some id) x = .ok heap' ∧
        HandsOn heap id slots heap' next := by
  obtain ⟨grown, hgrown⟩ : ∃ grown, grown = if da.size = da.cap then da.grow else da := ⟨_, rfl⟩
  obtain ⟨room, slots₁, hroom, hat, hmoved⟩ := h.grow hgrown
  simp only [daPush, heapPush, loadFields, h.fields, ok_bind, hroom, ← hgrown]
  have hwrite := hat.storeSlot grown.size x
  cases hwritten : grown.write grown.size x with
  | error fault =>
      rw [hwritten] at hwrite
      simp only [error_bind, hwrite]
  | ok next =>
      rw [hwritten] at hwrite
      obtain ⟨stored, hstored, hnext, hkept⟩ := hwrite
      obtain ⟨hcap, hsize⟩ := DA.write_ok hwritten
      obtain ⟨heap', hstore, hfinal, hsame⟩ := hnext.storeFields grown.cap (grown.size + 1)
      refine ⟨heap', ?_, slots₁, ?_, hmoved.trans (hkept.trans hsame)⟩
      · simp only [hstored, ok_bind, hstore]
      · rwa [← hcap, ← hsize] at hfinal

theorem ArrayAt.pop [Zero V] (h : ArrayAt heap id slots da) :
    match daPop da with
    | .error fault => heapPop heap (some id) = .error fault
    | .ok (next, x) => ∃ heap', heapPop heap (some id) = .ok (heap', x) ∧
        HandsOn heap id slots heap' next := by
  simp only [daPop, heapPop, loadFields, h.fields, ok_bind]
  by_cases hsize : da.size ≠ 0
  · obtain ⟨heap', hstore, hat, hmoved⟩ := h.storeFields da.cap (da.size - 1)
    simp only [if_pos hsize, hstore, ok_bind, hat.loadSlot]
    cases DA.read ⟨da.cap, da.size - 1, da.arr⟩ (da.size - 1) with
    | error fault => rfl
    | ok x => exact ⟨heap', rfl, slots, hat, hmoved⟩
  · simp only [if_neg hsize]
    exact ⟨heap, rfl, slots, h, Heap.Transfers.refl⟩

theorem ArrayAt.set (h : ArrayAt heap id slots da) (x : V) (i : Int) :
    match daSet da x i with
    | .error fault => heapSet heap (some id) x i = .error fault
    | .ok next => ∃ heap', heapSet heap (some id) x i = .ok heap' ∧
        HandsOn heap id slots heap' next := by
  simp only [daSet, heapSet, loadFields, h.fields, ok_bind]
  by_cases hin : 0 ≤ i ∧ i < da.size
  · have hwrite := h.storeSlot i.toNat x
    simp only [if_pos hin]
    cases hwritten : da.write i.toNat x with
    | error fault =>
        rw [hwritten] at hwrite
        exact hwrite
    | ok next =>
        rw [hwritten] at hwrite
        obtain ⟨heap', hstored, hat, hmoved⟩ := hwrite
        exact ⟨heap', hstored, slots, hat, hmoved⟩
  · simp only [if_neg hin]
    exact ⟨heap, rfl, slots, h, Heap.Transfers.refl⟩

theorem ArrayAt.get [Zero V] (h : ArrayAt heap id slots da) (i : Int) :
    heapGet heap (some id) i = daGet da i := by
  simp only [daGet, heapGet, loadFields, h.fields, ok_bind, h.loadSlot]

/-- A call through the pointer answers, or faults, as the array does. -/
theorem ArrayAt.answer [Zero V] (h : ArrayAt heap id slots da) (call : Call V) :
    match DynamicArray.answer da call with
    | .error fault => heapAnswer heap (some id) call = .error fault
    | .ok (next, out) => ∃ heap', heapAnswer heap (some id) call = .ok (heap', out) ∧
        HandsOn heap id slots heap' next := by
  cases call with
  | push x =>
      have hpush := h.push x
      simp only [DynamicArray.answer, heapAnswer]
      cases hrun : daPush da x with
      | error fault =>
          rw [hrun] at hpush
          simp only [hpush, error_bind]
      | ok next =>
          rw [hrun] at hpush
          obtain ⟨heap', hrun', hands⟩ := hpush
          exact ⟨heap', by simp only [hrun', ok_bind, pure_eq_ok], hands⟩
  | pop =>
      have hpop := h.pop
      simp only [DynamicArray.answer, heapAnswer]
      cases hrun : daPop da with
      | error fault =>
          rw [hrun] at hpop
          simp only [hpop, error_bind]
      | ok popped =>
          rw [hrun] at hpop
          obtain ⟨heap', hrun', hands⟩ := hpop
          exact ⟨heap', by simp only [hrun', ok_bind, pure_eq_ok], hands⟩
  | set x i =>
      have hset := h.set x i
      simp only [DynamicArray.answer, heapAnswer]
      cases hrun : daSet da x i with
      | error fault =>
          rw [hrun] at hset
          simp only [hset, error_bind]
      | ok next =>
          rw [hrun] at hset
          obtain ⟨heap', hrun', hands⟩ := hset
          exact ⟨heap', by simp only [hrun', ok_bind, pure_eq_ok], hands⟩
  | get i =>
      simp only [DynamicArray.answer, heapAnswer, h.get]
      cases daGet da i with
      | error fault => rfl
      | ok x => exact ⟨heap, rfl, slots, h, Heap.Transfers.refl⟩
  | size =>
      simp only [DynamicArray.answer, pure_eq_ok]
      have hsize : heapSize heap (some id) = .ok (daSize da) := by
        simp only [heapSize, loadFields, h.fields, ok_bind, pure_eq_ok]
        rfl
      simp only [heapAnswer, hsize, ok_bind, pure_eq_ok]
      exact ⟨heap, rfl, slots, h, Heap.Transfers.refl⟩

/-- `DA_free` gives back the slots, and then the array. -/
theorem ArrayAt.free (h : ArrayAt heap id slots da) :
    ∃ heap', heapFree heap (some id) = .ok heap' ∧ heap.Transfers heap' {id, slots} ∅ := by
  obtain ⟨freed, hfree, hgiven⟩ :=
    Heap.freePointer_ok Fault.outOfBounds (Option.isSome_of_eq_some h.slots)
  have hkept : freed.cell id = heap.cell id :=
    hgiven.keeps h.ne (Option.isSome_of_eq_some h.fields)
  obtain ⟨cleared, hstore, hwritten, hcell⟩ := storeBlock_ok
    (by rw [hkept]; exact Option.isSome_of_eq_some h.fields)
    (.da ⟨da.cap, da.size, none⟩)
  obtain ⟨heap', hfreeSelf, hlast⟩ :=
    Heap.freePointer_ok Fault.outOfBounds (Option.isSome_of_eq_some hcell)
  refine ⟨heap', ?_, ?_⟩
  · simp only [heapFree, loadFields, h.fields, ok_bind, freeBlock, hfree, hstore, hfreeSelf]
  · have hslots := (hgiven.framed {id}).trans
      (((hwritten.trans hlast).framed ∅).of_iff (fun id => by simp) fun _ => Iff.rfl)
    exact hslots.of_iff (fun _ => Or.comm) fun id => by simp

/-- `DA_new` returns an empty array, in two blocks that are new. -/
theorem heapNew_ok (heap : Memory V) :
    ∃ heap' id slots, heapNew heap = .ok (heap', id) ∧ ArrayAt heap' id slots daNew ∧
      heap.Transfers heap' ∅ {id, slots} := by
  have hself := Heap.transfers_alloc heap (.da ⟨startingCapacity, 0, none⟩ : Block V)
  have hslots := Heap.transfers_alloc (heap.alloc (.da ⟨startingCapacity, 0, none⟩ : Block V))
    (.slots (malloc (startingCapacity * pointerSize)))
  have hlive : ((heap.alloc (.da ⟨startingCapacity, 0, none⟩ : Block V)).cell heap.next).isSome :=
    Option.isSome_of_eq_some Heap.alloc_cell_self
  have hkept := hslots.keeps (Set.notMem_empty heap.next) hlive
  obtain ⟨heap', hstore, hwritten, hcell⟩ := storeBlock_ok (by rwa [hkept])
    (.da ⟨startingCapacity, 0, some (heap.next + 1)⟩)
  refine ⟨heap', heap.next, heap.next + 1, ?_, ⟨hcell, ?_⟩, ?_⟩
  · simp only [heapNew, pure_eq_ok]
    exact congrArg (· >>= fun heap' => .ok (heap', heap.next)) hstore
  · rw [hwritten.keeps (Nat.succ_ne_self heap.next)
      (Option.isSome_of_eq_some Heap.alloc_cell_self)]
    exact Heap.alloc_cell_self
  · have hpair := hself.trans ((hslots.framed {heap.next}).of_iff (fun id => by simp)
      fun _ => Or.comm)
    exact hpair.trans (hwritten.framed {heap.next + 1})

end CsPrimer.DynamicArray
