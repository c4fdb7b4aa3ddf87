import CsPrimer.Foundation.CTypes
import CsPrimer.Foundation.CallSequence

/-!
The dynamic array of `dynarray.c`. The elements are pointers that the array
never follows; their type has a distinguished `0`, which is `NULL`. The slots
that `malloc` and `realloc` add hold no value yet, and to read one, or to
touch a slot outside the allocation, is a fault. The array is one that
`DA_new` returned, so the tests for a `NULL` array are left out. Allocation
succeeds.
-/

namespace CsPrimer.DynamicArray

/-- `size_t` arithmetic is modulo this bound. -/
def sizeModulus : Nat := 2 ^ 64

def pointerSize : Nat := 8

def startingCapacity : Nat := 8

variable {V : Type}

structure DA (V : Type) where
  cap : Nat
  size : Nat
  arr : List (Option V)
  deriving DecidableEq, Repr

inductive Fault where
  | outOfBounds
  | indeterminate
  deriving DecidableEq, Repr

def malloc (bytes : Nat) : List (Option V) :=
  List.replicate (bytes / pointerSize) none

def realloc (arr : List (Option V)) (bytes : Nat) : List (Option V) :=
  arr.take (bytes / pointerSize) ++
    List.replicate (bytes / pointerSize - arr.length) none

/-- `(*da->arr)[i] = x`. -/
def DA.write (da : DA V) (i : Nat) (x : V) : Except Fault (DA V) :=
  if i < da.arr.length then .ok { da with arr := da.arr.set i (some x) }
  else .error .outOfBounds

/-- `(*da->arr)[i]`. -/
def DA.read (da : DA V) (i : Nat) : Except Fault V :=
  match da.arr[i]? with
  | none => .error .outOfBounds
  | some none => .error .indeterminate
  | some (some x) => .ok x

def daNew : DA V where
  cap := startingCapacity
  size := 0
  arr := malloc (startingCapacity * pointerSize)

def daSize (da : DA V) : Int := (da.size : Int).bmod (2 ^ 32)

/-- `da->cap *= 1.5` and the `realloc` after it. -/
def DA.grow (da : DA V) : DA V :=
  let cap := 3 * da.cap / 2
  { da with cap := cap, arr := realloc da.arr (cap * pointerSize % sizeModulus) }

def daPush (da : DA V) (x : V) : Except Fault (DA V) := do
  let da := if da.size = da.cap then da.grow else da
  let da ← da.write da.size x
  return { da with size := da.size + 1 }

def daPop [Zero V] (da : DA V) : Except Fault (DA V × V) :=
  if da.size ≠ 0 then do
    let da := { da with size := da.size - 1 }
    let x ← da.read da.size
    return (da, x)
  else return (da, 0)

def daSet (da : DA V) (x : V) (i : Int) : Except Fault (DA V) :=
  if 0 ≤ i ∧ i < da.size then da.write i.toNat x else return da

def daGet [Zero V] (da : DA V) (i : Int) : Except Fault V :=
  if 0 ≤ i ∧ i < da.size then da.read i.toNat else return 0

inductive Call (V : Type) where
  | push (x : V)
  | pop
  | set (x : V) (i : Int)
  | get (i : Int)
  | size
  deriving DecidableEq, Repr

inductive Answer (V : Type) where
  | void
  | pointer (x : V)
  | int (n : Int)
  deriving DecidableEq, Repr

def answer [Zero V] (da : DA V) : Call V → Except Fault (DA V × Answer V)
  | .push x => do
      let da ← daPush da x
      return (da, .void)
  | .pop => do
      let (da, x) ← daPop da
      return (da, .pointer x)
  | .set x i => do
      let da ← daSet da x i
      return (da, .void)
  | .get i => do
      let x ← daGet da i
      return (da, .pointer x)
  | .size => return (da, .int (daSize da))

end CsPrimer.DynamicArray
