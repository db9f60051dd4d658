import Lfmr.Concurrency.Interleaving
import Lfmr.Lfrc

/-!
# The counter of one node in `lfrc.c`

What all threads together do to the `refcnt` of one node, access by access. A thread takes a reference whenever
it likes, as `safe_read` does, and may hand it on by storing it in the memory, from where another thread takes it
over. It gives up only what it has.

The thread whose decrement claims the node puts it on the free list. A thread that has a reference to the
node may take it from there, and then applies `clear_lowest_bit`.
-/

namespace Lfmr.ClaimCounter

open Lfmr.Concurrency

inductive Event
  | added
  | decremented (returned : Bool)
  | cleared
  deriving DecidableEq

/-- `stored` counts the references in the memory, `listed` tells whether the node is on the free list. The
log is not a part of the program. -/
structure Shared where
  refcnt : Nat
  stored : Nat
  listed : Bool
  log : List Event
  deriving DecidableEq

/-- `decLoad` and `decCas` are `decrement_and_TAS`, `push` is what follows if it has returned 1, and
`clearLoad` and `clearCas` are `clear_lowest_bit`. -/
inductive Pc
  | idle
  | decLoad
  | decCas (old : Nat)
  | push
  | clearLoad
  | clearCas (old : Nat)
  deriving DecidableEq

structure Thread where
  held : Nat
  pc : Pc
  deriving DecidableEq

inductive Choice
  | go
  | add
  | store
  | take
  | dec
  | pop

def Shared.record (shared : Shared) (refcnt : Nat) (event : Event) : Shared :=
  { shared with refcnt := refcnt, log := shared.log ++ [event] }

def code {Tid : Type} : Code Tid Choice Shared Thread := fun _ choice shared thread =>
  match thread.pc, choice with
  | .idle, .add => some (shared.record (shared.refcnt + 2) .added, ⟨thread.held + 1, .idle⟩)
  | .idle, .store =>
      if 0 < thread.held then
        some ({ shared with stored := shared.stored + 1 }, ⟨thread.held - 1, .idle⟩)
      else none
  | .idle, .take =>
      if 0 < shared.stored then
        some ({ shared with stored := shared.stored - 1 }, ⟨thread.held + 1, .idle⟩)
      else none
  | .idle, .dec => if 0 < thread.held then some (shared, ⟨thread.held - 1, .decLoad⟩) else none
  | .idle, .pop =>
      if shared.listed ∧ 0 < thread.held then
        some ({ shared with listed := false }, ⟨thread.held, .clearLoad⟩)
      else none
  | .decLoad, .go => some (shared, ⟨thread.held, .decCas shared.refcnt⟩)
  | .decCas old, .go =>
      if shared.refcnt = old then
        some (shared.record (Lfrc.decrement old) (.decremented (Lfrc.isClaim old)),
          ⟨thread.held, if Lfrc.isClaim old then .push else .idle⟩)
      else some (shared, ⟨thread.held, .decLoad⟩)
  | .push, .go => some ({ shared with listed := true }, ⟨thread.held, .idle⟩)
  | .clearLoad, .go => some (shared, ⟨thread.held, .clearCas shared.refcnt⟩)
  | .clearCas old, .go =>
      if shared.refcnt = old then some (shared.record (old - 1) .cleared, ⟨thread.held, .idle⟩)
      else some (shared, ⟨thread.held, .clearLoad⟩)
  | _, _ => none

def start {Tid : Type} : Config Tid Shared Thread where
  shared := ⟨1, 0, true, []⟩
  threads _ := ⟨0, .idle⟩

def Thread.refs (thread : Thread) : Nat :=
  match thread.pc with
  | .decLoad => thread.held + 1
  | .decCas _ => thread.held + 1
  | _ => thread.held

def references (log : List Event) : Nat :=
  log.foldl (fun count event =>
    match event with
    | .added => count + 1
    | .decremented _ => count - 1
    | .cleared => count) 0

/-- At the end of the log a decrement has returned 1 since the lowest bit was last cleared. At the start
the node is free. -/
def claimed (log : List Event) : Bool :=
  log.foldl (fun claimed event =>
    match event with
    | .added => claimed
    | .decremented returned => returned || claimed
    | .cleared => false) true

/-- Each time the lowest bit has been cleared, the first decrement that leaves no reference returns 1, and
no other does until it is cleared again. -/
structure ClaimedOnce (log : List Event) : Prop where
  once : ∀ before between after, log = before ++ .cleared :: between ++ .cleared :: after →
    .cleared ∉ between → between.count (.decremented true) = 1
  last : ∀ before returned after, log = before ++ .decremented returned :: after →
    (returned = true ↔ claimed before = false ∧ references (before ++ [.decremented returned]) = 0)

end Lfmr.ClaimCounter
