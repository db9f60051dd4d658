import Lfmr.Concurrency.Linked
import Lfmr.CountedQueue
import Lfmr.Proof.LfrcSteps

/-!
# What holds of the queue with reference counts between two accesses

The nodes that have been linked and not yet been claimed form one chain: those the head has already
moved over, and then the queue. As each of them holds a reference to the next one, they can only be
claimed from the front of the chain. The tail is the last node or the one before; in that case the
reference that the last node has for it is not in the memory yet.

A node of the chain that a thread holds stays in the chain, its link does not change once it is set, and neither
head nor tail comes to it again once they are past it.
-/

namespace Lfmr.CountedQueue

open Lfmr.Concurrency Lfmr.Concurrency.RefCount Lfmr.Lfrc

variable {n m : Nat}

def beyondTail (memory : Memory m) : Fin m → Nat :=
  match (memory.root .tail).target with
  | .node t => (memory.next t).refs
  | _ => 0

def succ (memory : Memory m) (addr : Fin m) : Option (Fin m) :=
  match (memory.next addr).target with
  | .node next => some next
  | _ => none

/-- The head has moved over the nodes in `past`, and `rest` is behind it. -/
structure Ghost (n m : Nat) where
  book : Book (Fin n) (Fin m)
  past : List (Fin m)
  head : Fin m
  rest : List (Fin m)
  tail : Fin m

def Ghost.chain (ghost : Ghost n m) : List (Fin m) :=
  ghost.past ++ ghost.head :: ghost.rest

structure GlobalInv (memory : Memory m) (ghost : Ghost n m) : Prop where
  counted : Counted memory (beyondTail memory) ghost.book
  pool : AtomicPool memory.pool ghost.book.stage
  head : memory.root .head = .node ghost.head
  tail : memory.root .tail = .node ghost.tail
  tail_mem : ghost.tail ∈ ghost.head :: ghost.rest
  linked : Linked (succ memory) ghost.chain.head? ghost.chain
  nodup : ghost.chain.Nodup
  mem_chain : ∀ addr, addr ∈ ghost.chain ↔ (ghost.book.stage addr).isCounted = true
  tidy : ∀ addr ∈ ghost.chain, memory.next addr = .null ∨ ∃ next, memory.next addr = .node next
  lag : ∀ next, memory.next ghost.tail = .node next → memory.next next = .null
  empty : ∀ addr, ghost.book.stage addr = .free ∨ (ghost.book.stage addr).keeper ≠ none →
    (memory.next addr).refs = 0
  loose : ∀ addr, ghost.book.stage addr ≠ .loose
  unpinned : ∀ thread addr, ¬ ghost.book.pinned thread addr

structure Ready (thread : Fin n) (memory : Memory m) (ghost : Ghost n m) (node : Fin m) : Prop where
  owned : ghost.book.stage node = .owned thread
  next : memory.next node = .null

structure Reached (memory : Memory m) (ghost : Ghost n m) (addr : Fin m) : Prop where
  shared : ghost.book.stage addr = .shared
  reached : beyondTail memory addr = 0

structure Passed (ghost : Ghost n m) (addr : Fin m) : Prop where
  shared : ghost.book.stage addr = .shared
  passed : addr ∉ ghost.rest

def TailSeen (ghost : Ghost n m) (h t : Fin m) : Prop :=
  t = h ∨ ghost.tail ≠ h ∨ ghost.head ≠ h

def LineInv (thread : Fin n) (memory : Memory m) (ghost : Ghost n m) : Line m → Prop
  | .newNode _ pc => NewInv thread ghost.book pc
  | .incRef _ node | .writeKey _ node | .writeNext node => ghost.book.stage node = .owned thread
  | .loadTail node _ => Ready thread memory ghost node
  | .readNext node t => Ready thread memory ghost node ∧ Reached memory ghost t
  | .checkTail node t next =>
      Ready thread memory ghost node ∧ Reached memory ghost t ∧ (next ≠ .null → memory.next t = next)
  | .helpTail node t next =>
      Ready thread memory ghost node ∧ ghost.book.stage t = .shared ∧ memory.next t = next ∧ next ≠ .null
  | .link node t => Ready thread memory ghost node ∧ Reached memory ghost t
  | .swingTail node t => ghost.book.stage t = .shared ∧ memory.next t = .node node
  | .loadTailToo h _ => Passed ghost h
  | .loadNext h t _ => Passed ghost h ∧ ghost.book.stage t = .shared ∧ TailSeen ghost h t
  | .checkHead h t next =>
      Passed ghost h ∧ ghost.book.stage t = .shared ∧ TailSeen ghost h t ∧
        (next ≠ .null → memory.next h = next)
  | .helpDequeue h t next =>
      ghost.book.stage h = .shared ∧ h = t ∧ memory.next h = next ∧ next ≠ .null
  | .readKey h t next | .swingHead h t next _ =>
      Passed ghost h ∧ ghost.book.stage t = .shared ∧ TailSeen ghost h t ∧ h ≠ t ∧
        memory.next h = .node next
  | .fault => False
  | _ => True

def Line.own : Line m → Option (Fin m)
  | .newNode _ pc => pc.own
  | .incRef _ node | .writeKey _ node | .writeNext node | .loadTail node _ | .readNext node _ | .checkTail node _ _
  | .helpTail node _ _ | .link node _ => some node
  | _ => none

def holdings : Holdings m (Line m) where
  refs := Line.refs
  own := Line.own
  refs_own line addr hown := by
    cases line with
    | newNode key pc => cases pc <;> simp_all [Line.own, Line.refs, AtomicNew.own, AtomicNew.refs]
    | _ => simp_all [Line.own, Line.refs]

structure ThreadInv (thread : Fin n) (memory : Memory m) (ghost : Ghost n m) (pc : Pc m) : Prop where
  part : ThreadBook atomic.toFreeNode AtomicFree.Inv holdings thread memory ghost.book pc
  line : LineInv thread memory ghost pc.line

structure DataSteady (thread : Fin n) (refs : Fin m → Nat) (before after : Memory m × Ghost n m) :
    Prop where
  owned : ∀ addr, before.2.book.stage addr = .owned thread → after.1.next addr = before.1.next addr
  next : ∀ addr, before.2.book.stage addr = .shared → 0 < refs addr → before.1.next addr ≠ .null →
    after.1.next addr = before.1.next addr
  reached : ∀ addr, before.2.book.stage addr = .shared → 0 < refs addr →
    beyondTail before.1 addr = 0 → beyondTail after.1 addr = 0
  passed : ∀ addr, before.2.book.stage addr = .shared → 0 < refs addr → addr ∉ before.2.rest →
    addr ∉ after.2.rest
  seen : ∀ addr, before.2.book.stage addr = .shared → 0 < refs addr → addr ∉ before.2.rest →
    before.2.tail ≠ addr ∨ before.2.head ≠ addr → after.2.tail ≠ addr ∨ after.2.head ≠ addr

structure Rely (thread : Fin n) (before after : Memory m × Ghost n m) : Prop where
  book : Book.Apart thread before.2.book after.2.book
  data : DataSteady thread (before.2.book.held thread) before after
  claimed : ∀ addr, before.2.book.stage addr = .claimed thread → after.1.next addr = before.1.next addr

variable {memory memory' : Memory m} {ghost ghost' : Ghost n m} {thread other : Fin n} {refs : Fin m → Nat}
  {node h t addr : Fin m} {line : Line m} {pc : Pc m}

section Stable

variable (hsteady : Book.Steady thread refs ghost.book ghost'.book)
  (hdata : DataSteady thread refs (memory, ghost) (memory', ghost'))

include hsteady hdata

theorem Ready.stable (hready : Ready thread memory ghost node) : Ready thread memory' ghost' node where
  owned := hsteady.owned node hready.owned
  next := (hdata.owned node hready.owned).trans hready.next

theorem Reached.stable (hreached : Reached memory ghost addr) (hpos : 0 < refs addr) : Reached memory' ghost' addr where
  shared := hsteady.shared addr hreached.shared (.inl hpos)
  reached := hdata.reached addr hreached.shared hpos hreached.reached

theorem Passed.stable (hpassed : Passed ghost addr) (hpos : 0 < refs addr) : Passed ghost' addr where
  shared := hsteady.shared addr hpassed.shared (.inl hpos)
  passed := hdata.passed addr hpassed.shared hpos hpassed.passed

omit hsteady in
theorem TailSeen.stable (hseen : TailSeen ghost h t) (hpassed : Passed ghost h) (hpos : 0 < refs h) :
    TailSeen ghost' h t :=
  hseen.imp_right (hdata.seen h hpassed.shared hpos hpassed.passed)

attribute [local simp] Line.refs

/-- What a line knows survives the steps of others, and those of the thread itself that give up
references the line does not have. -/
theorem LineInv.stable (hinv : LineInv thread memory ghost line) (hrefs : ∀ addr, line.refs addr ≤ refs addr)
    (hnew : ∀ key pc, line = .newNode key pc → NewInv thread ghost.book pc → NewInv thread ghost'.book pc) :
    LineInv thread memory' ghost' line := by
  have hpos : ∀ addr, 0 < line.refs addr → 0 < refs addr := fun addr hline => hline.trans_le (hrefs addr)
  cases line with
  | newNode key pc => exact hnew key pc rfl hinv
  | incRef key node | writeKey key node | writeNext node => exact hsteady.owned node hinv
  | loadTail node pc => exact Ready.stable hsteady hdata hinv
  | readNext node t | link node t =>
    obtain ⟨hready, hreached⟩ := hinv
    exact ⟨hready.stable hsteady hdata, hreached.stable hsteady hdata (hpos t (by simp))⟩
  | checkTail node t next =>
    obtain ⟨hready, hreached, hnext⟩ := hinv
    have ht := hpos t (by simp)
    refine ⟨hready.stable hsteady hdata, hreached.stable hsteady hdata ht, fun hne => ?_⟩
    have heq := hnext hne
    exact (hdata.next t hreached.shared ht (heq ▸ hne)).trans heq
  | helpTail node t next =>
    obtain ⟨hready, hshared, hnext, hne⟩ := hinv
    have ht := hpos t (by simp)
    exact ⟨hready.stable hsteady hdata, hsteady.shared t hshared (.inl ht),
      (hdata.next t hshared ht (hnext ▸ hne)).trans hnext, hne⟩
  | swingTail node t =>
    obtain ⟨hshared, hnext⟩ := hinv
    have ht := hpos t (by simp)
    exact ⟨hsteady.shared t hshared (.inl ht),
      (hdata.next t hshared ht (by rw [hnext]; simp [Word.node, Word.null])).trans hnext⟩
  | loadTailToo h pc => exact Passed.stable hsteady hdata hinv (hpos h (by simp))
  | loadNext h t pc =>
    obtain ⟨hpassed, hshared, hseen⟩ := hinv
    have hh := hpos h (by simp)
    exact ⟨hpassed.stable hsteady hdata hh, hsteady.shared t hshared (.inl (hpos t (by simp))),
      hseen.stable hdata hpassed hh⟩
  | checkHead h t next =>
    obtain ⟨hpassed, hshared, hseen, hnext⟩ := hinv
    have hh := hpos h (by simp)
    refine ⟨hpassed.stable hsteady hdata hh, hsteady.shared t hshared (.inl (hpos t (by simp))),
      hseen.stable hdata hpassed hh, fun hne => ?_⟩
    have heq := hnext hne
    exact (hdata.next h hpassed.shared hh (heq ▸ hne)).trans heq
  | helpDequeue h t next =>
    obtain ⟨hshared, heq, hnext, hne⟩ := hinv
    have hh := hpos h (by simp)
    exact ⟨hsteady.shared h hshared (.inl hh), heq, (hdata.next h hshared hh (hnext ▸ hne)).trans hnext, hne⟩
  | readKey h t next | swingHead h t next data =>
    obtain ⟨hpassed, hshared, hseen, hne, hnext⟩ := hinv
    have hh := hpos h (by simp)
    exact ⟨hpassed.stable hsteady hdata hh, hsteady.shared t hshared (.inl (hpos t (by simp))),
      hseen.stable hdata hpassed hh, hne,
      (hdata.next h hpassed.shared hh (by rw [hnext]; simp [Word.node, Word.null])).trans hnext⟩
  | fault => exact hinv
  | _ => trivial

end Stable

theorem Rely.threadInv (hrely : Rely thread (memory, ghost) (memory', ghost'))
    (hinv : ThreadInv thread memory ghost pc) : ThreadInv thread memory' ghost' pc where
  part := hinv.part.stable hrely.book hrely.claimed
  line := by
    refine hinv.line.stable hrely.book.toSteady hrely.data hinv.part.line_le_held fun _ _ _ hnew => ?_
    refine hnew.stable fun addr hkeeper => hrely.book.mine addr (.inl ?_)
    cases hstage : ghost.book.stage addr <;> simp_all [Stage.keeper, Stage.owner]

end Lfmr.CountedQueue
