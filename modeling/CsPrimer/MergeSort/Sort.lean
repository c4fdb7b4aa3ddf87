import Mathlib.Logic.Function.Basic
import Mathlib.Tactic

/-!
The bottom-up merge sort, `merge_sort.c`. The memory is the two buffers of
`len` items; a read or write outside them has no result. Indices are
`size_t` and wrap. Allocation succeeds. The loops over passes and over pairs
of runs have more fuel than they need; without fuel there is no result.
-/

namespace CsPrimer.MergeSort

inductive Buf where
  | caller
  | work
  deriving DecidableEq, Repr

abbrev Mem := Buf → Nat → Int

def load (len : Nat) (mem : Mem) (buf : Buf) (i : Nat) : Option Int :=
  if i < len then some (mem buf i) else none

def store (len : Nat) (mem : Mem) (buf : Buf) (i : Nat) (value : Int) :
    Option Mem :=
  if i < len then
    some (Function.update mem buf (Function.update (mem buf) i value))
  else none

/-- `memcpy(dst + i, src + j, sizeof(int) * count)`. -/
def memcpy (len : Nat) (mem : Mem) (dst : Buf) (i : Nat) (src : Buf)
    (j count : Nat) : Option Mem :=
  if i + count ≤ len ∧ j + count ≤ len then
    some (Function.update mem dst fun k =>
      if i ≤ k ∧ k < i + count then mem src (j + (k - i)) else mem dst k)
  else none

/-- The loop of `merge`, with the memory and the indices it ends with. -/
def mergeLoop (len : Nat) (src dst : Buf) (m e : Nat) (mem : Mem)
    (i s s2 : Nat) : Option (Mem × Nat × Nat × Nat) :=
  if s < m ∧ s2 < e then do
    let left ← load len mem src s
    let right ← load len mem src s2
    if left < right then
      let mem ← store len mem dst i left
      mergeLoop len src dst m e mem (i + 1) (s + 1) s2
    else
      let mem ← store len mem dst i right
      mergeLoop len src dst m e mem (i + 1) s (s2 + 1)
  else some (mem, i, s, s2)
termination_by (m - s) + (e - s2)

/-- What is left of the two runs after the loop. -/
def mergeTail (len : Nat) (src dst : Buf) (m e : Nat) (mem : Mem)
    (i s s2 : Nat) : Option Mem :=
  if s < m then memcpy len mem dst i src s (m - s)
  else if s2 < e then memcpy len mem dst i src s2 (e - s2)
  else some mem

def merge (len : Nat) (src dst : Buf) (mem : Mem) (s m e : Nat) :
    Option Mem := do
  let (mem, i, s, s2) ← mergeLoop len src dst m e mem s s m
  mergeTail len src dst m e mem i s s2

def wrap (n : Nat) : Nat := n % 2 ^ 64

/-- One pass over `arr` from `s` on: runs of `sz / 2` items are merged in
pairs into `wk`. -/
def mergePass (len sz : Nat) (arr wk : Buf) : Nat → Mem → Nat → Option Mem
  | 0, _, _ => none
  | fuel + 1, mem, s =>
      if s < len then do
        let m := wrap (s + (sz >>> 1))
        let e := wrap (s + sz)
        let mem ← merge len arr wk mem s (if m < len then m else len)
          (if e < len then e else len)
        mergePass len sz arr wk fuel mem (wrap (s + sz))
      else some mem

/-- The passes, with the memory, the two buffers and `sz` they end with. -/
def passes (len : Nat) : Nat → Mem → (arr wk : Buf) → (sz : Nat) →
    Option (Mem × Buf × Buf × Nat)
  | 0, _, _, _, _ => none
  | fuel + 1, mem, arr, wk, sz =>
      if sz < wrap (len <<< 1) then do
        let mem ← mergePass len sz arr wk (len + 1) mem 0
        passes len fuel mem wk arr (wrap (sz <<< 1))
      else some (mem, arr, wk, sz)

/-- The caller's items and the `calloc` of the work buffer. -/
def allocate (cells : Nat → Int) : Mem
  | .caller => cells
  | .work => fun _ => 0

/-- `sort`, with the final memory and the buffer it frees. -/
def sort (len : Nat) (cells : Nat → Int) : Option (Mem × Buf) := do
  let (mem, arr, wk, sz) ← passes len 64 (allocate cells) .caller .work 2
  if 0x5555555555555555 &&& sz ≠ 0 then
    let mem ← memcpy len mem wk 0 arr 0 len
    return (mem, arr)
  else return (mem, wk)

end CsPrimer.MergeSort
