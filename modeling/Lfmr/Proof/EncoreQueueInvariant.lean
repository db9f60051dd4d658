import Lfmr.Concurrency.Linked
import Lfmr.EncoreQueue

/-!
# What holds of the Encore queue between two accesses

`last` need not be reachable from `first`, but both lie on one chain of nodes that starts at some node that was
`first` once and ends at the only node whose `next` is not written. The chain grows at its end, and loses nodes at
its start when they are reused, which is when nothing refers to them nor to a node before them.

The nodes in the variables of a thread stay on the chain, except for the node of an `enqueue` that has not been
linked yet.
-/

namespace Lfmr.EncoreQueue

open Lfmr.Concurrency

variable {n : Nat}

/-- The nodes of the chain before and after `first`; for each thread the node it owns and the nodes its
variables refer to. -/
structure Ghost (n : Nat) where
  before : List NodeAddr
  rest : List NodeAddr
  own : Fin n → Option NodeAddr
  roots : Fin n → List NodeAddr

def chain (shared : Shared n) (ghost : Ghost n) : List NodeAddr :=
  ghost.before ++ shared.first :: ghost.rest

def seen (shared : Shared n) (ghost : Ghost n) : List NodeAddr :=
  ghost.before ++ [shared.first]

structure GlobalInv (shared : Shared n) (ghost : Ghost n) : Prop where
  linked : Linked shared.next (chain shared ghost).head? (chain shared ghost)
  nodup : (chain shared ghost).Nodup
  last : shared.last ∈ chain shared ghost
  values : shared.tried = shared.taken ++ ghost.rest.map shared.elem
  own_notMem : ∀ thread node, ghost.own thread = some node → node ∉ chain shared ghost
  own_inj : ∀ thread other node, ghost.own thread = some node → ghost.own other = some node →
    thread = other

def EnqueuePc.own (node : NodeAddr) : EnqueuePc → Option NodeAddr
  | .catRead _ true | .catCas _ _ true => none
  | _ => some node

def Pc.own : Pc → Option NodeAddr
  | .enqueue _ node pc => pc.own node
  | _ => none

def Ready (shared : Shared n) (x : Int) (node : NodeAddr) : Prop :=
  shared.elem node = x ∧ shared.next node = none

def EnqueueInv (shared : Shared n) (ghost : Ghost n) (x : Int) (node : NodeAddr) : EnqueuePc → Prop
  | .writeElem => shared.next node = none
  | .speculateLast => Ready shared x node
  | .tryRead oldLast | .tryCas oldLast => oldLast ∈ chain shared ghost ∧ Ready shared x node
  | .catRead oldLast done => oldLast ∈ chain shared ghost ∧ (done = false → Ready shared x node)
  | .catCas _ next done => next ∈ chain shared ghost ∧ (done = false → Ready shared x node)

def DequeueInv (thread : Fin n) (shared : Shared n) (ghost : Ghost n) : DequeuePc → Prop
  | .speculateFirst => True
  | .isStable oldFirst | .speculateLast oldFirst | .catRead oldFirst _ => oldFirst ∈ seen shared ghost
  | .catCas oldFirst _ next => oldFirst ∈ seen shared ghost ∧ shared.next oldFirst = some next
  | .readElem next =>
      next ∈ chain shared ghost ∧ shared.taken[shared.slot thread]? = some (shared.elem next)

def ResultInv (thread : Fin n) (shared : Shared n) : Result → Prop
  | .enqueued => True
  | .empty => shared.metEmpty thread = true
  | .value elem => shared.taken[shared.slot thread]? = some elem

def PcInv (thread : Fin n) (shared : Shared n) (ghost : Ghost n) : Pc → Prop
  | .idle | .newNode _ => True
  | .enqueue x node pc => EnqueueInv shared ghost x node pc
  | .dequeue pc => DequeueInv thread shared ghost pc
  | .ret result => ResultInv thread shared result

structure ThreadInv (thread : Fin n) (shared : Shared n) (ghost : Ghost n) (pc : Pc) : Prop where
  own : ghost.own thread = pc.own
  roots : ghost.roots thread = pc.roots
  pcInv : PcInv thread shared ghost pc

structure Rely (thread : Fin n) (before after : Shared n × Ghost n) : Prop where
  own : after.2.own thread = before.2.own thread
  roots : after.2.roots thread = before.2.roots thread
  chain : ∀ node ∈ before.2.roots thread, node ∈ chain before.1 before.2 →
    node ∈ chain after.1 after.2
  seen : ∀ node ∈ before.2.roots thread, node ∈ seen before.1 before.2 →
    node ∈ seen after.1 after.2
  elem : ∀ node ∈ before.2.roots thread, node ∈ EncoreQueue.chain before.1 before.2 →
    after.1.elem node = before.1.elem node
  next : ∀ node ∈ before.2.roots thread, node ∈ EncoreQueue.chain before.1 before.2 →
    ∀ target, before.1.next node = some target → after.1.next node = some target
  own_elem : ∀ node, before.2.own thread = some node → after.1.elem node = before.1.elem node
  own_next : ∀ node, before.2.own thread = some node → after.1.next node = before.1.next node
  taken : before.1.taken <+: after.1.taken
  slot : after.1.slot thread = before.1.slot thread
  metEmpty : after.1.metEmpty thread = before.1.metEmpty thread

variable {shared : Shared n} {ghost : Ghost n} {thread : Fin n} {node : NodeAddr} {pc : Pc}
  {before after : Shared n × Ghost n}

theorem mem_chain_of_mem_seen (hmem : node ∈ seen shared ghost) : node ∈ chain shared ghost := by
  rw [chain, List.append_cons]
  exact List.mem_append_left _ hmem

theorem Pc.mem_roots_of_own (hown : pc.own = some node) : node ∈ pc.roots := by
  cases pc with
  | enqueue x own enqueuePc =>
    rcases enqueuePc with _ | _ | oldLast | oldLast | ⟨oldLast, _ | _⟩ | ⟨oldLast, next, _ | _⟩ <;>
      cases hown <;> exact List.mem_cons_self
  | _ => cases hown

theorem getElem?_of_grown {values values' : List Int} {index : Nat} {value : Int}
    (hgrown : values <+: values') (hget : values[index]? = some value) :
    values'[index]? = some value := by
  obtain ⟨more, rfl⟩ := hgrown
  rw [List.getElem?_append_left (List.getElem?_eq_some_iff.mp hget).1]
  exact hget

theorem Rely.refl {state : Shared n × Ghost n} : Rely thread state state :=
  ⟨rfl, rfl, fun _ _ h => h, fun _ _ h => h, fun _ _ _ => rfl, fun _ _ _ _ h => h, fun _ _ => rfl,
    fun _ _ => rfl, List.prefix_refl _, rfl, rfl⟩

section

variable (hrely : Rely thread before after)
include hrely

theorem Rely.ready {x : Int} (hown : before.2.own thread = some node)
    (hready : Ready before.1 x node) : Ready after.1 x node :=
  ⟨(hrely.own_elem node hown).trans hready.1, (hrely.own_next node hown).trans hready.2⟩

attribute [local simp] EnqueuePc.roots

theorem Rely.enqueueInv {x : Int} {enqueuePc : EnqueuePc} (hown : before.2.own thread = enqueuePc.own node)
    (hroots : before.2.roots thread = enqueuePc.roots node)
    (hinv : EnqueueInv before.1 before.2 x node enqueuePc) :
    EnqueueInv after.1 after.2 x node enqueuePc := by
  have hmem := hrely.chain
  rw [hroots] at hmem
  cases enqueuePc with
  | writeElem => exact (hrely.own_next node hown).trans hinv
  | speculateLast => exact hrely.ready hown hinv
  | tryRead oldLast | tryCas oldLast => exact ⟨hmem oldLast (by simp) hinv.1, hrely.ready hown hinv.2⟩
  | catRead oldLast done =>
    cases done with
    | false =>
      exact ⟨hmem oldLast (by simp) hinv.1, fun h => hrely.ready hown (hinv.2 h)⟩
    | true => exact ⟨hmem oldLast (by simp) hinv.1, fun h => by cases h⟩
  | catCas oldLast next done =>
    cases done with
    | false =>
      exact ⟨hmem next (by simp) hinv.1, fun h => hrely.ready hown (hinv.2 h)⟩
    | true => exact ⟨hmem next (by simp) hinv.1, fun h => by cases h⟩

attribute [local simp] DequeuePc.roots

theorem Rely.dequeueInv {dequeuePc : DequeuePc} (hroots : before.2.roots thread = dequeuePc.roots)
    (hinv : DequeueInv thread before.1 before.2 dequeuePc) :
    DequeueInv thread after.1 after.2 dequeuePc := by
  have hseen := hrely.seen
  have hnext := hrely.next
  have helem := hrely.elem
  have hchain := hrely.chain
  rw [hroots] at hseen hnext helem hchain
  cases dequeuePc with
  | speculateFirst => trivial
  | isStable oldFirst | speculateLast oldFirst | catRead oldFirst oldLast => exact hseen oldFirst (by simp) hinv
  | catCas oldFirst oldLast next =>
    have hroot : oldFirst ∈ (DequeuePc.catCas oldFirst oldLast next).roots := by
      simp
    exact ⟨hseen oldFirst hroot hinv.1, hnext oldFirst hroot (mem_chain_of_mem_seen hinv.1) next hinv.2⟩
  | readElem next =>
    have hroot : next ∈ (DequeuePc.readElem next).roots := by simp
    refine ⟨hchain next hroot hinv.1, ?_⟩
    rw [hrely.slot, helem next hroot hinv.1]
    exact getElem?_of_grown hrely.taken hinv.2

theorem Rely.threadInv (hinv : ThreadInv thread before.1 before.2 pc) : ThreadInv thread after.1 after.2 pc where
  own := hrely.own.trans hinv.own
  roots := hrely.roots.trans hinv.roots
  pcInv := by
    have hpc := hinv.pcInv
    cases pc with
    | idle | newNode x => trivial
    | enqueue x node enqueuePc => exact hrely.enqueueInv hinv.own hinv.roots hpc
    | dequeue dequeuePc => exact hrely.dequeueInv hinv.roots hpc
    | ret result =>
      cases result with
      | enqueued => trivial
      | empty => exact hrely.metEmpty.trans hpc
      | value elem =>
        change after.1.taken[after.1.slot thread]? = some elem
        rw [hrely.slot]
        exact getElem?_of_grown hrely.taken hpc

end

section

variable (hglobal : GlobalInv shared ghost)
include hglobal

theorem GlobalInv.next_mem {target : NodeAddr}
    (hmem : node ∈ chain shared ghost) (hnext : shared.next node = some target) :
    target ∈ chain shared ghost := by
  have hlinked := hglobal.linked
  obtain ⟨front, back, hchain⟩ := List.append_of_mem hmem
  rw [hchain] at hlinked ⊢
  rw [hlinked.next_eq] at hnext
  exact List.mem_append_right _ (List.mem_cons_of_mem _ (List.mem_of_mem_head? hnext))

theorem GlobalInv.chain_eq (hmem : node ∈ chain shared ghost)
    (hnext : shared.next node = none) : ∃ front, chain shared ghost = front ++ [node] := by
  have hlinked := hglobal.linked
  obtain ⟨front, back, hchain⟩ := List.append_of_mem hmem
  rw [hchain] at hlinked
  rw [hlinked.next_eq, List.head?_eq_none_iff] at hnext
  exact ⟨front, by rw [hchain, hnext]⟩

theorem GlobalInv.next_first : shared.next shared.first = ghost.rest.head? :=
  Linked.next_eq hglobal.linked

theorem GlobalInv.rest_eq_nil (hmem : node ∈ seen shared ghost)
    (hnext : shared.next node = none) : ghost.rest = [] := by
  obtain ⟨front, back, hseen⟩ := List.append_of_mem hmem
  have hchain : chain shared ghost = front ++ node :: (back ++ ghost.rest) := by
    rw [← List.cons_append, ← List.append_assoc, ← hseen]
    simp [chain, seen]
  have hlinked := hglobal.linked
  rw [hchain] at hlinked
  rw [hlinked.next_eq, List.head?_eq_none_iff] at hnext
  exact (List.append_eq_nil_iff.mp hnext).2

end

/-- What nothing refers to can be cut off from the chain, with all that comes before it. -/
theorem GlobalInv.exists_cut {config : Config (Fin n) (Shared n) Pc}
    (hglobal : GlobalInv config.shared ghost) (hnode : ¬ Referenced config node) :
    ∃ dropped kept, ghost.before = dropped ++ kept ∧ node ∉ kept ++ config.shared.first :: ghost.rest ∧
      ∀ other, Referenced config other → other ∉ dropped := by
  have hclosed : ∀ other target, Referenced config other → config.shared.next other = some target →
      Referenced config target := fun other target => Referenced.next
  have hrest : node ∉ config.shared.first :: ghost.rest := fun hmem =>
    hnode (Linked.forall_after hclosed hglobal.linked .first node hmem)
  by_cases hbefore : node ∈ ghost.before
  · obtain ⟨front, kept, hsplit⟩ := List.append_of_mem hbefore
    have hchain : chain config.shared ghost = front ++ node :: (kept ++ config.shared.first :: ghost.rest) := by
      simp [chain, hsplit]
    have hnodup := hglobal.nodup
    rw [hchain] at hnodup
    refine ⟨front ++ [node], kept, by simp [hsplit],
      (List.nodup_cons.mp (List.nodup_append.mp hnodup).2.1).1, fun other hother hmem => hnode ?_⟩
    obtain ⟨pre, post, hfront⟩ := List.append_of_mem hmem
    have hlinked := hglobal.linked
    rw [hchain, List.append_cons, hfront, List.append_assoc, List.cons_append] at hlinked
    refine hlinked.forall_after hclosed hother node ?_
    have hlast : node ∈ front ++ [node] := by simp
    rw [← List.cons_append]
    refine List.mem_append_left _ ?_
    -- the node is the last of `pre ++ other :: post`
    have hgetLast := congrArg List.getLast? hfront
    rw [List.getLast?_concat, List.getLast?_append_of_ne_nil _ (List.cons_ne_nil other post)] at hgetLast
    exact List.mem_of_getLast? hgetLast.symm
  · exact ⟨[], ghost.before, rfl, fun hmem => (List.mem_append.mp hmem).elim hbefore hrest,
      fun other _ => List.not_mem_nil⟩

end Lfmr.EncoreQueue
