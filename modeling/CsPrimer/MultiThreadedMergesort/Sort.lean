import CsPrimer.Foundation.CTypes
import CsPrimer.Foundation.ForkJoin

/-!
The multi-threaded merge sort, `mergesort.c`, as threads over the memory that
holds the array. Every read and write of an element is a step of its own; the
temporary array, the indices and the context belong to one thread. Allocation,
creation and join of a thread succeed, and the sort does not depend on the CPU
that a thread is pinned to.
-/

namespace CsPrimer.MultiThreadedMergesort

open Foundation

abbrev Thread := Prog Nat Int

def copyBack (arr : Nat) : List Int → Thread
  | [] => .done
  | value :: rest => .write arr value (copyBack (arr + 1) rest)

/-- The merge loop with `count` items left to copy to `x`. -/
def mergeLoop (arr n border : Nat) :
    (count left right : Nat) → (x : List Int) → Thread
  | 0, _, _, x => copyBack arr x
  | count + 1, left, right, x =>
      if right = n then
        .read (arr + left) fun value =>
          mergeLoop arr n border count (left + 1) right (x ++ [value])
      else if left = border then
        .read (arr + right) fun value =>
          mergeLoop arr n border count left (right + 1) (x ++ [value])
      else
        .read (arr + right) fun rightValue =>
          .read (arr + left) fun leftValue =>
            if rightValue < leftValue then
              .read (arr + right) fun value =>
                mergeLoop arr n border count left (right + 1) (x ++ [value])
            else
              .read (arr + left) fun value =>
                mergeLoop arr n border count (left + 1) right (x ++ [value])

def merge (arr n border : Nat) : Thread := mergeLoop arr n border n 0 border []

structure Context where
  arr : Nat
  n : Int

/-- Conversion of a `size_t` to `int`. -/
def intOfSize (n : Nat) : Int := (n : Int).bmod (2 ^ 32)

/-- Conversion of an `int` to `size_t`. -/
def sizeOfInt (n : Int) : Nat := (n % 2 ^ 64).toNat

mutual

def routine (ctx : Context) : Thread := sort ctx.arr (sizeOfInt ctx.n) 1
termination_by (1, 0)

/-- What the thread created for a part runs. -/
def mtSort (arr n : Nat) : Thread := routine ⟨arr, intOfSize n⟩
termination_by (1, 1)

/-- `sort`; the part before `border` has a thread of its own while there are
threads to spare. -/
def sort (arr n tcnt : Nat) : Thread :=
  if n < 2 then .done
  else
    let border := if 2 < tcnt then n / tcnt else n >>> 1
    let rest := sort (arr + border) (n - border)
      (if 2 < tcnt then tcnt - 1 else 1)
    if 1 < tcnt then
      .fork (mtSort arr border) rest (merge arr n border)
    else
      ((sort arr border 1).andThen rest).andThen (merge arr n border)
termination_by (if 1 < tcnt then tcnt else 0, n)
decreasing_by
  -- `border` can be 0 while there are threads: then `tcnt` decreases
  all_goals
    rw [Prod.lex_def]
    simp only [Nat.shiftRight_eq_div_pow, pow_one]
    split_ifs <;> omega

end

end CsPrimer.MultiThreadedMergesort
