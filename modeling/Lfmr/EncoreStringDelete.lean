import Lfmr.EncoreString

/-!
# `delete` of `String.enc`

The method copies bytes with `strncpy` and `strcpy` between buffers whose sizes it computes on its own. A
buffer is the list of its bytes; `alloca` hands out whatever the stack holds. An access outside a buffer, a
negative size or an overflow of an `int` is a fault. The loop is run for a number of turns; if that is not
enough, the method is still running.
-/

namespace Lfmr.EncoreString

open Lfmr.Collections.Matches

inductive Fault where
  | undefined
  | running
  deriving DecidableEq

abbrev Buffer := List UInt8

namespace Buffer

def store (buffer : Buffer) (offset : Int) (bytes : List UInt8) : Except Fault Buffer :=
  if 0 ≤ offset ∧ offset + bytes.length ≤ buffer.length then
    .ok (buffer.take offset.toNat ++ bytes ++ buffer.drop (offset.toNat + bytes.length))
  else .error .undefined

def string (buffer : Buffer) : List UInt8 := buffer.takeWhile (· != 0)

def strcpy (dest : Buffer) (offset : Int) (src : Buffer) (start : Int) : Except Fault Buffer :=
  if 0 ≤ start ∧ 0 ∈ src.drop start.toNat then dest.store offset (string (src.drop start.toNat) ++ [0])
  else .error .undefined

/-- `n` bytes are written: the string, or its beginning, and zeros after it. A negative `n` is a huge size. -/
def strncpy (dest : Buffer) (offset : Int) (src : Buffer) (start n : Int) : Except Fault Buffer :=
  if n = 0 then .ok dest
  else
    let read := (src.drop start.toNat).take n.toNat
    if 0 ≤ start ∧ 0 ≤ n ∧ (0 ∈ read ∨ read.length = n.toNat) then
      dest.store offset (string read ++ List.replicate (n.toNat - (string read).length) 0)
    else .error .undefined

def encoreAlloc (size : Int) : Except Fault Buffer :=
  if 0 ≤ size then .ok (List.replicate size.toNat 0) else .error .undefined

end Buffer

namespace Str

def memory (this : Str) : Buffer := this.bytes ++ [0]

def ofMemory (buffer : Buffer) : Str :=
  ⟨buffer.string, fun hmem => absurd (List.all_eq_true.mp List.all_takeWhile 0 hmem) (by decide)⟩

def strstr (this pattern : Str) (start : Nat) : Option Nat :=
  (firstMatch pattern.bytes (this.bytes.drop start)).map (start + ·)

def stackAllocMax : Nat := 16536

def temporary (stack : Nat → UInt8) (toLen : Nat) : Buffer :=
  if toLen > stackAllocMax then List.replicate (toLen + 1) 0 else (List.range toLen).map stack

structure DeleteState where
  tmp : Buffer
  copied : Int
  skipped : Int

def deleteLoop (this s : Str) : Nat → Option Nat → DeleteState → Except Fault DeleteState
  | 0, _, _ => .error .running
  | _ + 1, none, state => .ok state
  | turns + 1, some next, state => do
      let tmp ← state.tmp.strncpy state.copied this.memory (state.copied + state.skipped)
        (next - state.copied - state.skipped)
      let copied := toInt32 (next - state.skipped)
      let skipped := toInt32 (state.skipped + s.length)
      this.deleteLoop s turns (this.strstr s (next + s.bytes.length)) ⟨tmp, copied, skipped⟩

/-- What follows the loop. The size of the result is `copied + 1`, computed as an `int`. -/
def deleteRest (this : Str) (state : DeleteState) : Except Fault Str := do
  let tmp ← state.tmp.strcpy state.copied this.memory (state.copied + state.skipped)
  if state.copied = intMax then .error .undefined
  else
    let result ← Buffer.encoreAlloc (state.copied + 1)
    let result ← result.strcpy 0 tmp 0
    return ofMemory result

def delete (stack : Nat → UInt8) (turns : Nat) (this s : Str) : Except Fault Str := do
  let state ← this.deleteLoop s turns (this.strstr s 0) ⟨temporary stack this.bytes.length, 0, 0⟩
  this.deleteRest state

/-- What deleting should do: return, within the buffers, what `replace` gives, and the string itself for the
empty pattern. -/
def Deletes (stack : Nat → UInt8) (this s : Str) : Prop :=
  ∃ turns result, this.delete stack turns s = .ok result ∧
    (s.bytes ≠ [] → this.replace s empty = some result) ∧ (s.bytes = [] → result = this)

structure EndsInMatch (this s : Str) : Prop where
  pattern : s.bytes ≠ []
  occurs : s.bytes <:+: this.bytes
  last : (pieces s.bytes this.bytes).getLast? = some []
  copied : (pieces s.bytes this.bytes).flatten.length < 2147483647
  skipped : ((pieces s.bytes this.bytes).length - 1) * s.bytes.length < 2147483648

end Str

end Lfmr.EncoreString
