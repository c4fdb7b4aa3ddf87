import CsPrimer.DynamicArray.HeapArray
import CsPrimer.DynamicArray.ListRefinement

/-!
Programs with several arrays on one heap, as in `main`, where a second array
shows that it is not overwritten. Each array has two blocks, and what a call
does to them leaves those of the other arrays alone. So every array is a list
of its own, and the program that has freed all of them has nothing left.
-/

namespace CsPrimer.DynamicArray

open Foundation

variable {V : Type}

/-- What a program does with its variables. One whose array has been freed is
set to `NULL`. -/
inductive Request (V : Type) where
  | new (k : Nat)
  | call (k : Nat) (call : Call V)
  | free (k : Nat)
  deriving DecidableEq, Repr

structure Program (V : Type) where
  heap : Memory V
  vars : Nat → Option Nat

def Program.start : Program V := ⟨Heap.empty, fun _ => none⟩

def Program.answer [Zero V] (p : Program V) : Request V → Except Fault (Program V × Answer V)
  | .new k => do
      let (heap, da) ← heapNew p.heap
      return (⟨heap, Function.update p.vars k (some da)⟩, .void)
  | .call k call => do
      let (heap, out) ← heapAnswer p.heap (p.vars k) call
      return (⟨heap, p.vars⟩, out)
  | .free k => do
      let heap ← heapFree p.heap (p.vars k)
      return (⟨heap, Function.update p.vars k none⟩, .void)

/-- No array is lost by a `DA_new` over it, `DA_size` is not called with a
`NULL`, and a push leaves at most `INT_MAX` elements. -/
def Allowed (p : Program V) : Request V → Prop
  | .new k => p.vars k = none
  | .call k call =>
      match p.vars k with
      | none => call ≠ .size
      | some da => ∀ fields, loadFields p.heap da = .ok fields →
          HasRoom (DA.mk fields.cap fields.size ([] : List (Option V))) call
  | .free _ => True

/-- The lists. A `NULL` answers as an empty array. -/
def specRequest [Zero V] (lists : Nat → Option (List V)) :
    Request V → (Nat → Option (List V)) × Answer V
  | .new k => (Function.update lists k (some []), .void)
  | .call k call =>
      match lists k with
      | none => (lists, (specAnswer [] call).2)
      | some xs => (Function.update lists k (some (specAnswer xs call).1), (specAnswer xs call).2)
  | .free k => (Function.update lists k none, .void)

inductive ListAt (heap : Memory V) : Option Nat → Set Nat → Option (List V) → Prop
  | null : ListAt heap none ∅ none
  | array {id slots : Nat} {da : DA V} {xs : List V} (hat : ArrayAt heap id slots da)
      (hholds : Holds da xs) : ListAt heap (some id) {id, slots} (some xs)

variable {heap heap' : Memory V} {var : Option Nat} {cells : Nat → Set Nat} {k : Nat}
  {list : Option (List V)} {p : Program V} {lists : Nat → Option (List V)}

theorem ListAt.keeps {mine : Set Nat} (h : ListAt heap var mine list)
    (hcell : ∀ id ∈ mine, heap'.cell id = heap.cell id) : ListAt heap' var mine list := by
  cases h with
  | null => exact .null
  | array hat hholds => exact .array (hat.keeps hcell) hholds

theorem ListAt.live {mine : Set Nat} (h : ListAt heap var mine list) :
    ∀ id ∈ mine, (heap.cell id).isSome := by
  cases h with
  | null => exact fun id hid => absurd hid (Set.notMem_empty _)
  | array hat _ => exact hat.live

theorem listAt_null {mine : Set Nat} (h : ListAt heap none mine list) :
    mine = ∅ ∧ list = none := by
  cases h
  exact ⟨rfl, rfl⟩

theorem listAt_array {mine : Set Nat} {id : Nat} (h : ListAt heap (some id) mine list) :
    ∃ slots da xs, mine = {id, slots} ∧ list = some xs ∧ ArrayAt heap id slots da ∧
      Holds da xs := by
  cases h with
  | array hat hholds => exact ⟨_, _, _, rfl, rfl, hat, hholds⟩

theorem ListAt.null_iff {mine : Set Nat} (h : ListAt heap var mine list) :
    var = none ↔ list = none := by
  cases h <;> simp

/-- `DA_free`, which does nothing for a `NULL`. -/
theorem ListAt.free {mine : Set Nat} (h : ListAt heap var mine list) :
    ∃ heap', heapFree heap var = .ok heap' ∧ heap.Transfers heap' mine ∅ := by
  cases h with
  | null => exact ⟨heap, rfl, Heap.Transfers.refl⟩
  | array hat _ => exact hat.free

structure Keeps (p : Program V) (lists : Nat → Option (List V)) (cells : Nat → Set Nat) :
    Prop where
  shared : p.heap.SharedOut cells
  listAt : ∀ k, ListAt p.heap (p.vars k) (cells k) (lists k)

theorem start_keeps : Keeps (Program.start : Program V) (fun _ => none) fun _ => ∅ where
  shared := Heap.sharedOut_empty
  listAt := fun _ => .null

/-- What is done to one array, with the variable that then points at it. -/
theorem Keeps.step (h : Keeps p lists cells) {after : Set Nat}
    (hmoved : p.heap.Transfers heap' (cells k) after) (hlist : ListAt heap' var after list) :
    Keeps ⟨heap', Function.update p.vars k var⟩ (Function.update lists k list)
      (Function.update cells k after) where
  shared := h.shared.step hmoved hlist.live
  listAt := by
    intro j
    rcases eq_or_ne j k with rfl | hne
    · simpa only [Function.update_self] using hlist
    · simp only [Function.update_of_ne hne]
      exact (h.listAt j).keeps fun id hid => h.shared.keeps hmoved hne hid

/-- A `NULL` is an empty array to all calls but `DA_size`. -/
theorem heapAnswer_null [Zero V] (heap : Memory V) {call : Call V} (hcall : call ≠ .size) :
    heapAnswer heap none call = .ok (heap, (specAnswer [] call).2) := by
  cases call with
  | push x | set x i | pop => rfl
  | get i =>
      simp only [specAnswer, List.getD_nil, ite_self]
      rfl
  | size => exact absurd rfl hcall

theorem HasRoom.congr {da da' : DA V} {call : Call V} (h : HasRoom da call)
    (hsize : da'.size = da.size) : HasRoom da' call := by
  cases call with
  | push x =>
      rw [HasRoom, hsize]
      exact h
  | pop | set x i | get i | size => trivial

/-- A call on the array of one variable. -/
theorem Keeps.call [Zero V] (h : Keeps p lists cells) {call : Call V}
    (hallowed : Allowed p (.call k call)) :
    ∃ next, p.answer (.call k call) = .ok (next, (specRequest lists (.call k call)).2) ∧
      ∃ cells', Keeps next (specRequest lists (.call k call)).1 cells' := by
  have hlist := h.listAt k
  simp only [Allowed] at hallowed
  simp only [Program.answer, specRequest]
  cases hvar : p.vars k with
  | none =>
      rw [hvar] at hlist hallowed
      rw [(listAt_null hlist).2]
      exact ⟨p, by simp only [heapAnswer_null p.heap hallowed, ok_bind, pure_eq_ok], cells, h⟩
  | some id =>
      rw [hvar] at hlist hallowed
      obtain ⟨slots, da, xs, hcells, hxs, hat, hholds⟩ := listAt_array hlist
      have hloaded : loadFields p.heap id = .ok ⟨da.cap, da.size, some slots⟩ := by
        simp only [loadFields, hat.fields]
      have hroom : HasRoom da call := (hallowed _ hloaded).congr rfl
      obtain ⟨next, hanswer, hnext⟩ := hholds.answer hroom
      have hcall := hat.answer call
      rw [hanswer] at hcall
      obtain ⟨heap', hrun, slots', hat', hmoved⟩ := hcall
      have hkeeps := h.step (k := k) (hcells ▸ hmoved) (.array hat' hnext)
      rw [← hvar, Function.update_eq_self] at hkeeps
      rw [hxs]
      exact ⟨_, by simp only [hrun, ok_bind, pure_eq_ok], _, hkeeps⟩

/-- Each request is answered as by lists. -/
theorem Keeps.answer [Zero V] (h : Keeps p lists cells) {request : Request V}
    (hallowed : Allowed p request) :
    ∃ next, p.answer request = .ok (next, (specRequest lists request).2) ∧
      ∃ cells', Keeps next (specRequest lists request).1 cells' := by
  cases request with
  | new k =>
      obtain ⟨heap', id, slots, hnew, hat, hmoved⟩ := heapNew_ok p.heap
      have hlist := h.listAt k
      rw [show p.vars k = none from hallowed] at hlist
      exact ⟨_, by simp only [Program.answer, hnew, ok_bind, pure_eq_ok]; rfl, _,
        h.step (k := k) (by rwa [(listAt_null hlist).1]) (.array hat daNew_holds)⟩
  | call k call => exact h.call hallowed
  | free k =>
      obtain ⟨heap', hfree, hmoved⟩ := (h.listAt k).free
      exact ⟨_, by simp only [Program.answer, hfree, ok_bind, pure_eq_ok]; rfl, _,
        h.step (k := k) hmoved .null⟩

/-- For every run of requests that are allowed: no request touches memory
that is not its array's, the answers are those of as many lists, and when all
variables are `NULL` again every block has been freed once. -/
theorem arrays_behave_as_lists [Zero V] (requests : List (Request V))
    (hallowed : Along Allowed Program.answer Program.start requests) :
    ∃ final outs, serve Program.answer Program.start requests = .ok (final, outs) ∧
      outs = (specify specRequest (fun _ => none) requests).2 ∧
      (∀ k, final.vars k = none ↔ (specify specRequest (fun _ => none) requests).1 k = none) ∧
      ((∀ k, final.vars k = none) → ∀ id, final.heap.cell id = none ∧
        (id < final.heap.next → final.heap.released.count id = 1)) := by
  have hstart : ∃ cells, Keeps (Program.start : Program V) (fun _ => none) cells :=
    ⟨_, start_keeps⟩
  have hreturns : ∀ (p : Program V) (request : Request V), (∃ lists cells, Keeps p lists cells) →
      Allowed p request →
        ∃ next out, p.answer request = .ok (next, out) ∧ ∃ lists cells, Keeps next lists cells := by
    rintro p request ⟨lists, cells, h⟩ hrequest
    obtain ⟨next, hanswer, cells', hnext⟩ := h.answer hrequest
    exact ⟨next, _, hanswer, _, cells', hnext⟩
  have hrefines : ∀ (p : Program V) (lists : Nat → Option (List V)) (request : Request V) next out,
      (∃ cells, Keeps p lists cells) → Allowed p request → p.answer request = .ok (next, out) →
        out = (specRequest lists request).2 ∧
          ∃ cells, Keeps next (specRequest lists request).1 cells := by
    rintro p lists request next out ⟨cells, h⟩ hrequest hanswer
    obtain ⟨next', hanswer', hnext⟩ := h.answer hrequest
    rw [hanswer'] at hanswer
    cases hanswer
    exact ⟨rfl, hnext⟩
  obtain ⟨final, outs, hserve⟩ := serve_returns Allowed hreturns ⟨_, hstart⟩ hallowed
  obtain ⟨houts, cells, hkeeps⟩ := serve_refines hrefines hstart hallowed hserve
  refine ⟨final, outs, hserve, houts, fun k => (hkeeps.listAt k).null_iff, fun hfreed => ?_⟩
  apply hkeeps.shared.all_released
  intro k
  have hlist := hkeeps.listAt k
  rw [hfreed k] at hlist
  exact (listAt_null hlist).1

/-- The two arrays of `main`'s last test, of which the second keeps its element
while the first one grows. -/
example :
    (serve Program.answer Program.start
      ([.new 0, .new 1, .call 1 (.push 5)] ++ (List.range 9).map (fun x => .call 0 (.push x)) ++
        [.call 1 .pop, .free 0, .free 1] : List (Request Nat))).map (·.2.getD 12 .void) =
      .ok (.pointer 5) := by
  decide +kernel

end CsPrimer.DynamicArray
