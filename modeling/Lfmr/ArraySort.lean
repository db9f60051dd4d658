import Lfmr.Party
import Lfmr.SortLibrary

/-!
# Sorting a segment of an array

`array_qsort` of `array.c` passes a part of the elements of an array to `qsort`. The comparator `int_cmp`
returns the difference of two 64-bit integers as an `int`: the subtraction is that of the machine, and the
conversion keeps the lower 32 bits.
-/

namespace Lfmr.ArraySort

open Lfmr.Party Lfmr.SortLibrary

def intCmp (a b : Int64) : Int32 := (a - b).toInt32

/-- The comparator as `qsort` sees it, by the sign of the result. Signed overflow is taken to wrap around. -/
def compare (a b : Int64) : Int := (intCmp a b).toInt

def segment (a : ArrayT Int64) (start count : Nat) : List Int64 :=
  (List.range' start count).map a.elements

/-- The array after the call, and the indices `qsort` was given, any of which it may read and write: the
second argument of `qsort` is a number of elements. -/
def arrayQsort (library : Functions compare) (a : ArrayT Int64) (start stop : Nat) :
    ArrayT Int64 × List Nat :=
  let sorted := library.qsort (segment a start stop)
  let elements := fun i =>
    if start ≤ i ∧ i < start + stop then sorted.getD (i - start) (a.elements i) else a.elements i
  ({ a with elements := elements }, List.range' start stop)

structure SortsSegment (library : Functions compare) (a : ArrayT Int64) (start stop : Nat) : Prop where
  sorted : (segment (arrayQsort library a start stop).1 start (stop - start)).Pairwise (· ≤ ·)
  perm : (segment (arrayQsort library a start stop).1 start (stop - start)).Perm
    (segment a start (stop - start))
  inside : ∀ i ∈ (arrayQsort library a start stop).2, start ≤ i ∧ i < stop
  frame : ∀ i, i < start ∨ stop ≤ i → (arrayQsort library a start stop).1.elements i = a.elements i

/-- Two different values stay apart, and in order, when their difference is cut down to 32 bits. -/
def Spaced (values : List Int64) : Prop :=
  ∀ x ∈ values, ∀ y ∈ values, x < y →
    0 < (y.toInt - x.toInt) % 4294967296 ∧ (y.toInt - x.toInt) % 4294967296 < 2147483648

end Lfmr.ArraySort
