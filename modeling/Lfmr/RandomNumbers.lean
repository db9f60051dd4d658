import Mathlib.Data.UInt
import Mathlib.Logic.Function.Iterate

/-!
# The random number generators

`Random` of `random.c` and `next` of `MyList.Random` and `MyQueue.Random` are the same text. A `long` has
64 bits in both languages: an operation whose result does not fit is undefined in C and wraps in Java.
-/

namespace Lfmr.RandomNumbers

/-! ### `random.c` -/

/-- The result of an operation on values of type `long`, if it has one. -/
def long (value : Int) : Option Int :=
  if -9223372036854775808 ≤ value ∧ value < 9223372036854775808 then some value else none

def addModulus (t : Int) : Option Int := if t ≤ 0 then long (t + 0x7fffffff) else some t

def sRandom (seed : UInt64) : UInt64 := seed

def random (seed : UInt64) : Option UInt64 := do
  let x := seed.toInt64.toInt
  let hi := x.tdiv 127773
  let lo := x.tmod 127773
  let first ← long (16807 * lo)
  let second ← long (2836 * hi)
  let t ← long (first - second)
  let t ← addModulus t
  return UInt64.ofInt t

def randomAfter (seed : UInt64) : Nat → Option UInt64
  | 0 => some (sRandom seed)
  | n + 1 => (randomAfter seed n).bind random

/-! ### `MyList.java` and `MyQueue.java` -/

def next (seed : Int64) : Int64 :=
  let x := seed
  let hi := x / 127773
  let lo := x % 127773
  let t := 16807 * lo - 2836 * hi
  if t ≤ 0 then t + 0x7fffffff else t

def nextAfter (seed : Int64) (n : Nat) : Int64 := next^[n] seed

/-- The key in `Agent.run`. -/
def key (nKeys r : Int64) : Int64 :=
  let r := r >>> 1
  let r := r >>> 10
  r % nKeys

end Lfmr.RandomNumbers
