import Mathlib.Logic.Function.Basic

/-!
# Parallel collections over arrays

`party_each` cuts an array into chunks and makes a tree of them, `party_extract` collects the elements of
a tree in a list and makes an array of it.
-/

namespace Lfmr.Party

variable {α : Type*}

/-- An array. Behind its last element, `elements` goes on with what there is in memory. -/
structure ArrayT (α : Type*) where
  size : Nat
  elements : Nat → α

def ArrayT.toList (a : ArrayT α) : List α := (List.range' 0 a.size).map a.elements

inductive Failure
  | assertion
  | exit
  | nullPointer
  deriving DecidableEq, Repr

def arrayMk (memory : Nat → α) (size : Nat) : ArrayT α := ⟨size, memory⟩

def arrayGet (a : ArrayT α) (i : Nat) : α := a.elements i

def arraySet (a : ArrayT α) (i : Nat) (element : α) : ArrayT α :=
  { a with elements := Function.update a.elements i element }

/-- The chunk, and the indices at which `elements` was read. At 0, which is never passed as `end`, `end - 1` wraps
around in `size_t` and is 0 here. -/
def arrayGetChunk (memory : Nat → α) (start stop : Nat) (a : ArrayT α) :
    Except Failure (ArrayT α × List Nat) :=
  if start ≤ stop then
    let totalSize := a.size
    let localSize := stop - start + 1
    if start < totalSize ∧ stop - 1 ≤ totalSize then
      let newArray := arrayMk memory localSize
      let pivot := totalSize - start
      -- for (; start <= end; start++)
      .ok ((List.range' start (stop + 1 - start)).foldl (fun acc start =>
        (arraySet acc.1 (pivot + start - totalSize) (a.elements start), acc.2 ++ [start])) (newArray, []))
    else .error .exit
  else .error .assertion

/-- A parallel collection. A future is what it will be fulfilled with. -/
inductive Par (α : Type*)
  | value (val : α)
  | future (fut : α)
  | futurePar (fut : Par α)
  | par (left right : Par α)
  | array (array : ArrayT α)

def newParP (p1 p2 : Par α) : Par α := .par p2 p1

def extractHelper (list : List α) : Par α → List α
  | .value val => val :: list
  | .future fut => fut :: list
  | .par left right => extractHelper (extractHelper list left) right
  | .futurePar fut => extractHelper list fut
  | .array ar => (List.range' 0 ar.size).foldl (fun newList i => arrayGet ar i :: newList) list

def listToArrayStep (acc : ArrayT α × List α) (i : Nat) : Except Failure (ArrayT α × List α) :=
  match acc.2 with
  | [] => .error .nullPointer
  | data :: next => .ok (arraySet acc.1 i data, next)

def listToArray (memory : Nat → α) (list : List α) : Except Failure (ArrayT α) := do
  let size := list.length
  let acc ← (List.range' 0 size).foldlM listToArrayStep (arrayMk memory size, list)
  return acc.1

/-- An empty collection is `NULL`, and its tag is read. -/
def partyExtract (memory : Nat → α) : Option (Par α) → Except Failure (ArrayT α)
  | none => .error .nullPointer
  | some p => listToArray memory (extractHelper [] p)

def splitThreshold : Nat := 1000

/-- `ceil(size / (MARGIN * SPLIT_THRESHOLD))` with a margin of 1.3. The division of doubles, which is that
by 1300, has the same ceiling as that of numbers for all sizes below 2 ^ 53. -/
def groups (size : Nat) : Nat := (10 * size + 13 * splitThreshold - 1) / (13 * splitThreshold)

def buildPartyTree : Option (Par α) → Par α → Par α
  | none, node => node
  | some root, node => newParP root node

def chunkStop (size i : Nat) : Nat :=
  if i + 1 = groups size then size + 1 else (i + 1) * splitThreshold

/-- One turn of `party_each`, with the indices of the array read so far. With `PARTY_ARRAY_PARALLEL` the
chunk is the result of a task. -/
def partyEachStep (memory : Nat → Nat → α) (parallel : Bool) (ar : ArrayT α)
    (acc : Option (Par α) × List Nat) (i : Nat) : Except Failure (Option (Par α) × List Nat) := do
  let chunk ← arrayGetChunk (memory i) (i * splitThreshold) (chunkStop ar.size i) ar
  let par := if parallel then .futurePar (.array chunk.1) else .array chunk.1
  return (some (buildPartyTree acc.1 par), acc.2 ++ chunk.2)

def partyEach (memory : Nat → Nat → α) (parallel : Bool) (ar : ArrayT α) :
    Except Failure (Option (Par α) × List Nat) :=
  (List.range' 0 (groups ar.size)).foldlM (partyEachStep memory parallel ar) (none, [])

/-- Both calls return, the result has the elements of the array and nothing outside of it was read. -/
def RoundTrips (memory : Nat → Nat → α) (result : Nat → α) (parallel : Bool) (ar : ArrayT α) : Prop :=
  ∃ root reads extracted, partyEach memory parallel ar = .ok (root, reads) ∧
    partyExtract result root = .ok extracted ∧
    extracted.size = ar.size ∧ extracted.toList.Perm ar.toList ∧ ∀ i ∈ reads, i < ar.size

end Lfmr.Party
