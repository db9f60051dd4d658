import Lfmr.Collections.Strip
import Lfmr.EncoreStringDelete

/-!
# `trim` of `String.enc`

Two loops of C look for the first and the last byte to keep, with an index that is an `int`. A read outside
the bytes at `data` is undefined behaviour, and so is counting beyond the largest `int`. Neither loop takes
more turns than there are bytes, and one more.
-/

namespace Lfmr.EncoreString

open Lfmr.Collections.Strip

def isspace (c : UInt8) : Bool := c == 32 || (9 ≤ c && c ≤ 13)

namespace Str

def read (this : Str) (s : Int) : Option UInt8 :=
  if 0 ≤ s then this.memory[s.toNat]? else none

def startIndexLoop (this : Str) : Nat → Int → Option Int
  | 0, _ => none
  | turns + 1, s => do
      let c ← this.read s
      if c ≠ 0 ∧ isspace c then
        if s = intMax then none else this.startIndexLoop turns (s + 1)
      else some s

def stopIndexLoop (this : Str) : Nat → Int → Option Int
  | 0, _ => none
  | turns + 1, s => do
      let c ← this.read s
      if c ≠ 0 ∧ isspace c then this.stopIndexLoop turns (s - 1) else some s

def trim (this : Str) : Option Str := do
  let startIndex ← this.startIndexLoop (this.bytes.length + 1) 0
  let stopIndex ← this.stopIndexLoop (this.bytes.length + 1) (toInt32 (this.length - 1))
  let trimmed ← this.substring startIndex (stopIndex + 1)
  trimmed

structure Trims (this result : Str) : Prop where
  trim : this.trim = some result
  bytes : result.bytes = strip isspace this.bytes
  idempotent : result.trim = some result

structure Trimmable (this : Str) : Prop where
  visible : ∃ c ∈ this.bytes, ¬ isspace c
  last : (this.bytes.rdropWhile isspace).length ≤ toInt32 (this.length - 1) + 1
  short : (strip isspace this.bytes).length < 2147483647

end Str

end Lfmr.EncoreString
