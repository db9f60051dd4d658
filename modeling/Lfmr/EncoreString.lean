import Lfmr.Collections.Matches

/-!
# The strings of `String.enc`

A string is the bytes at `data` up to the first zero; `length` is what `strlen` found when it was made. An
`int` of Encore has 64 bits, of which no length of a string needs all, and is an integer here. An `int` of
the embedded C code has 32 bits.

The result is `none` if the code runs into undefined behaviour or finds no case that matches.
-/

namespace Lfmr.EncoreString

open Lfmr.Collections.Matches

@[ext]
structure Str where
  bytes : List UInt8
  nulFree : 0 ∉ bytes
  deriving DecidableEq

namespace Str

def empty : Str := ⟨[], List.not_mem_nil⟩

def length (s : Str) : Int := s.bytes.length

/-- A value of 64 bits stored in an `int` of C. -/
def toInt32 (value : Int) : Int := value.bmod 4294967296

def intMax : Int := 2147483647

def concatenate (this b : Str) : Str :=
  ⟨this.bytes ++ b.bytes, fun hmem => (List.mem_append.mp hmem).elim this.nulFree b.nulFree⟩

def copyOf (this : Str) (start size : Nat) : Str :=
  ⟨(this.bytes.drop start).take size, fun hmem => this.nulFree (List.mem_of_mem_drop (List.mem_of_mem_take hmem))⟩

/-- Indices are within the string or at its end. The size of the buffer is `siz + 1`, computed as an
`int`. -/
def substring (this : Str) (start stop : Int) : Option (Option Str) :=
  if stop < start then some (some empty)
  else if 0 ≤ start then
    let siz := toInt32 (stop - start)
    let siz := if siz < this.length then siz else toInt32 this.length
    if start ≤ this.length ∧ 0 ≤ siz ∧ siz < intMax then some (some (this.copyOf start.toNat siz.toNat))
    else none
  else some none

def findFrom (this a : Str) (b : Int) : Int :=
  if b < 0 ∨ this.length ≤ b then -1
  else
    match firstMatch a.bytes (this.bytes.drop b.toNat) with
    | some i => b + i
    | none => -1

def find (this a : Str) : Int := this.findFrom a 0

def occurrencesLoop (this s : Str) : Nat → Int → Int → Option Int
  | 0, _, _ => none
  | turns + 1, counter, i =>
      if 0 ≤ i then this.occurrencesLoop s turns (counter + 1) (this.findFrom s (i + s.length))
      else some counter

def occurrences (this s : Str) : Option Int :=
  if s.length = 0 then some this.length
  else this.occurrencesLoop s (this.bytes.length + 1) 0 (this.find s)

def charAt (this : Str) (i : Int) : Option UInt8 :=
  if 0 ≤ i ∧ i < this.length then this.bytes[i.toNat]? else none

def stringFromChar (c : UInt8) : Str :=
  if h : c = 0 then empty else ⟨[c], fun hmem => h (List.mem_singleton.mp hmem).symm⟩

def splitLoop (this p : Str) : Nat → Int → List Str → Option (Int × List Str)
  | 0, start, result => some (start, result)
  | turns + 1, start, result => do
      let stop := this.findFrom p start
      let piece ← (← this.substring start stop)
      this.splitLoop p turns (stop + p.length) (result ++ [piece])

def split (this p : Str) : Option (List Str) := do
  let occurrences ← this.occurrences p
  if occurrences = 0 then return [this]
  else if p.length = 0 then
    (List.range this.bytes.length).mapM fun i : Nat => (this.charAt i).map stringFromChar
  else
    let (start, result) ← this.splitLoop p occurrences.toNat 0 []
    let last ← (← this.substring start this.length)
    return result ++ [last]

def join (this : Str) : List Str → Str
  | [] => empty
  | first :: rest => rest.foldl (fun result string => (result.concatenate this).concatenate string) first

def replace (this a b : Str) : Option Str := (this.split a).map b.join

structure SplitsInto (this p : Str) (strings : List Str) : Prop where
  split : this.split p = some strings
  join : p.join strings = this
  free : p.bytes ≠ [] → ∀ string ∈ strings, ¬ p.bytes <:+: string.bytes
  count : p.bytes ≠ [] → this.occurrences p = some (strings.length - 1 : Int)

end Str

end Lfmr.EncoreString
