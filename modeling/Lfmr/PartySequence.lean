import Lfmr.Party

/-!
# Mapping a function over a parallel collection

`party_sequence` calls `fmap`, which makes a collection of the results of a closure. Beside the collection
stand the arguments the closure is called with. For a future these calls are made when it is fulfilled, by
the closures that `future_chain_actor` has registered with it.
-/

namespace Lfmr.Party

variable {α β : Type*}

/-- The new array, which is allocated with what was in `memory`, and the values `f` was called with. -/
def fmapRunArray (memory : Nat → β) (f : α → β) (oldArray : ArrayT α) : ArrayT β × List α :=
  let size := oldArray.size
  (List.range' 0 size).foldl (fun acc i =>
    let value := arrayGet oldArray i
    (arraySet acc.1 i (f value), acc.2 ++ [value])) (arrayMk memory size, [])

def fmap (memory : Nat → β) (f : α → β) : Par α → Par β × List α
  | .value val => (.value (f val), [val])
  | .future fut => (.future (f fut), [fut])
  | .par left right =>
      let l := fmap memory f left
      let r := fmap memory f right
      (newParP l.1 r.1, l.2 ++ r.2)
  -- `fmap_party_closure` maps the collection that the future is fulfilled with.
  | .futurePar fut =>
      let par := fmap memory f fut
      (.futurePar par.1, par.2)
  | .array ar =>
      let result := fmapRunArray memory f ar
      (.array result.1, result.2)

def partySequence (memory : Nat → β) (p : Par α) (f : α → β) : Par β × List α := fmap memory f p

end Lfmr.Party
