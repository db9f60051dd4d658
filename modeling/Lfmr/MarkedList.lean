import Lfmr.Concurrency.Linked
import Lfmr.Header
import Mathlib.Data.Finset.Dedup
import Mathlib.Data.Finset.Erase
import Mathlib.Data.Finset.Insert
import Mathlib.Data.List.Induction

/-!
# Sorted lists whose links carry a mark

The memory of the lock-free lists `list_lf_*.c`: the list head and the `key` and `next` of each node.
A `next` field is a pointer with a mark in its lowest bit; a marked node is deleted but may still be linked. A
compare-and-swap either swings an unmarked link from one pointer to another, or marks a link.

`Heap.Valid heap chain` says that the head leads through exactly the nodes of `chain`, in strictly
increasing order of their keys. The set the list stands for is the set of keys of its unmarked nodes.
-/

namespace Lfmr.MarkedList

open List Function Lfmr.Concurrency

structure Link where
  addr : Option NodeAddr
  mark : Bool
  deriving DecidableEq

/-- What a `node_t **` points to: the list head, or the `next` field of a node. -/
inductive Loc
  | head
  | next (node : NodeAddr)
  deriving DecidableEq

/-- The list head holds no mark: only `next` fields are ever marked. -/
structure Heap where
  head : Option NodeAddr
  key : NodeAddr → Int
  next : NodeAddr → Link

namespace Heap

def read (heap : Heap) : Loc → Link
  | .head => ⟨heap.head, false⟩
  | .next node => heap.next node

def write (heap : Heap) (loc : Loc) (target : Option NodeAddr) : Heap :=
  match loc with
  | .head => { heap with head := target }
  | .next node => { heap with next := Function.update heap.next node ⟨target, false⟩ }

def setKey (heap : Heap) (node : NodeAddr) (key : Int) : Heap :=
  { heap with key := Function.update heap.key node key }

def setMark (heap : Heap) (node : NodeAddr) (target : Option NodeAddr) : Heap :=
  { heap with next := Function.update heap.next node ⟨target, true⟩ }

def cas (heap : Heap) (loc : Loc) (old new : Option NodeAddr) : Option Heap :=
  if heap.read loc = ⟨old, false⟩ then some (heap.write loc new) else none

def casMark (heap : Heap) (node : NodeAddr) (old : Option NodeAddr) : Option Heap :=
  if heap.next node = ⟨old, false⟩ then some (heap.setMark node old) else none

def scribble (heap : Heap) (node : NodeAddr) (key : Int) (next : Link) : Heap :=
  { heap with
    key := Function.update heap.key node key
    next := Function.update heap.next node next }

inductive FromHead (heap : Heap) : NodeAddr → Prop
  | head {node : NodeAddr} : heap.head = some node → FromHead heap node
  | next {node target : NodeAddr} :
      FromHead heap node → (heap.next node).addr = some target → FromHead heap target

variable {heap : Heap} {loc other : Loc} {node target : NodeAddr} {old new cur : Option NodeAddr}
  {heap' : Heap}

theorem cas_eq_some (hcas : heap.cas loc old new = some heap') :
    heap.read loc = ⟨old, false⟩ ∧ heap' = heap.write loc new := by
  unfold cas at hcas
  split at hcas
  · rename_i hread
    exact ⟨hread, (Option.some.inj hcas).symm⟩
  · simp at hcas

theorem casMark_eq_some (hcas : heap.casMark node old = some heap') :
    heap.next node = ⟨old, false⟩ ∧ heap' = heap.setMark node old := by
  unfold casMark at hcas
  split at hcas
  · rename_i hread
    exact ⟨hread, (Option.some.inj hcas).symm⟩
  · simp at hcas

@[simp]
theorem write_key : (heap.write loc new).key = heap.key := by
  cases loc <;> rfl

theorem read_write (heap : Heap) (loc : Loc) (new : Option NodeAddr) :
    (heap.write loc new).read = update heap.read loc ⟨new, false⟩ := by
  funext other
  cases loc <;> cases other <;> simp [write, read, update_apply]

theorem next_write_of_ne (hne : loc ≠ .next node) : (heap.write loc new).next node = heap.next node := by
  have hread := congrFun (heap.read_write loc new) (.next node)
  rwa [update_of_ne hne.symm] at hread

@[simp]
theorem next_write_self : (heap.write (.next node) new).next node = ⟨new, false⟩ := by
  simp [write]

theorem mark_write (hread : heap.read loc = ⟨old, false⟩) (node : NodeAddr) :
    ((heap.write loc new).next node).mark = (heap.next node).mark := by
  by_cases heq : loc = .next node
  · subst heq
    rw [next_write_self]
    exact (congrArg Link.mark hread).symm
  · rw [next_write_of_ne heq]

def follow (heap : Heap) (loc : Loc) : Option Loc :=
  (heap.read loc).addr.map .next

structure Valid (heap : Heap) (chain : List NodeAddr) : Prop where
  linked : Linked heap.follow (heap.follow .head) (chain.map .next)
  sorted : chain.Pairwise fun node later => heap.key node < heap.key later

def keys (heap : Heap) (chain : List NodeAddr) : Finset Int :=
  ((chain.filter fun node => !(heap.next node).mark).map heap.key).toFinset

variable {chain before after : List NodeAddr} {k : Int}

theorem mem_keys : k ∈ heap.keys chain ↔ ∃ node ∈ chain, (heap.next node).mark = false ∧ heap.key node = k := by
  simp [keys, and_assoc]

def locs (chain : List NodeAddr) : List Loc := .head :: chain.map .next

def lastLoc (before : List NodeAddr) : Loc := (before.map Loc.next).getLastD .head

theorem lastLoc_concat (before : List NodeAddr) (node : NodeAddr) : lastLoc (before ++ [node]) = .next node := by
  simp [lastLoc]

theorem next_mem_locs : Loc.next node ∈ locs chain ↔ node ∈ chain := by
  simp [locs]

theorem Valid.nodup (hvalid : heap.Valid chain) : chain.Nodup := by
  apply hvalid.sorted.imp
  rintro node later hlt rfl
  exact lt_irrefl _ hlt

theorem Valid.nodup_locs (hvalid : heap.Valid chain) : (locs chain).Nodup := by
  refine nodup_cons.mpr ⟨by simp, ?_⟩
  exact hvalid.nodup.map fun _ _ heq => Loc.next.inj heq

theorem Valid.cut (hvalid : heap.Valid chain) (hmem : loc ∈ locs chain) (hread : (heap.read loc).addr = cur) :
    ∃ before after, chain = before ++ after ∧ lastLoc before = loc ∧ after.head? = cur := by
  obtain ⟨before, after, hchain, hlast, hafter⟩ := hvalid.linked.split hmem
  obtain ⟨nodes, rest, rfl, rfl, rfl⟩ := map_eq_append_iff.mp hchain
  refine ⟨nodes, rest, rfl, hlast, ?_⟩
  cases rest with
  | nil =>
    rw [map_nil, linked_nil, follow, hread, Option.map_eq_none_iff] at hafter
    simp [hafter]
  | cons first rest =>
    have hfirst := (linked_cons.mp hafter).1
    rw [follow, hread, Option.map_eq_some_iff] at hfirst
    obtain ⟨node, rfl, hnode⟩ := hfirst
    simp [Loc.next.inj hnode]

theorem Valid.linked_after (hvalid : heap.Valid (before ++ after)) :
    Linked heap.follow (heap.follow (lastLoc before)) (after.map .next) := by
  have hlinked := hvalid.linked
  rw [map_append] at hlinked
  exact hlinked.after

theorem Valid.read_lastLoc (hvalid : heap.Valid (before ++ node :: after)) :
    (heap.read (lastLoc before)).addr = some node := by
  have hstart := (linked_cons.mp hvalid.linked_after).1
  rw [follow, Option.map_eq_some_iff] at hstart
  obtain ⟨first, hread, hfirst⟩ := hstart
  rw [hread, Loc.next.inj hfirst]

/-- The links in front of the cut stay, so only what comes after it has to be looked at. -/
theorem Valid.splice {after' : List NodeAddr} (hvalid : heap.Valid (before ++ after))
    (hsame : ∀ loc, loc ≠ lastLoc before → loc ∈ locs before → heap'.follow loc = heap.follow loc)
    (hafter : Linked heap'.follow (heap'.follow (lastLoc before)) (after'.map .next)) :
    Linked heap'.follow (heap'.follow .head) ((before ++ after').map .next) := by
  have hlinked := hvalid.linked
  rw [map_append] at hlinked ⊢
  have hnodup : (Loc.head :: before.map .next).Nodup :=
    hvalid.nodup_locs.sublist (by simp [locs])
  apply hlinked.splice hnodup
  · exact fun loc hmem hne => hsame loc hne (mem_cons_of_mem _ hmem)
  · exact fun hne => hsame .head hne mem_cons_self
  · exact hafter

theorem lastLoc_mem (before : List NodeAddr) : lastLoc before ∈ locs before :=
  getLastD_mem (before.map Loc.next) Loc.head

theorem Valid.lastLoc_ne (hvalid : heap.Valid (before ++ after)) (hmem : node ∈ after) :
    Loc.next node ≠ lastLoc before := by
  intro heq
  have hlast := lastLoc_mem before
  rw [← heq, next_mem_locs] at hlast
  exact (disjoint_of_nodup_append hvalid.nodup) hlast hmem

theorem follow_write (heap : Heap) (loc : Loc) (new : Option NodeAddr) :
    (heap.write loc new).follow = update heap.follow loc (new.map .next) := by
  funext other
  by_cases heq : other = loc
  · subst heq
    simp [follow, read_write]
  · simp [follow, read_write, heq]

theorem Valid.key_lt_of_mem_before (hvalid : heap.Valid (before ++ after))
    (hbelow : ∀ node, lastLoc before = .next node → heap.key node < k) :
    ∀ node ∈ before, heap.key node < k := by
  intro node hmem
  induction before using reverseRecOn with
  | nil => simp at hmem
  | append_singleton front last _ =>
    have hlast := hbelow last (lastLoc_concat front last)
    rcases mem_append.mp hmem with hfront | heq
    · have hsorted := (pairwise_append.mp hvalid.sorted).1
      exact lt_trans ((pairwise_append.mp hsorted).2.2 node hfront last (by simp)) hlast
    · rwa [mem_singleton.mp heq]

theorem Valid.lt_key_of_mem_after (hvalid : heap.Valid (before ++ after))
    (habove : ∀ node, after.head? = some node → k < heap.key node) :
    ∀ node ∈ after, k < heap.key node := by
  intro node hmem
  cases after with
  | nil => simp at hmem
  | cons first rest =>
    have hfirst := habove first rfl
    rcases mem_cons.mp hmem with rfl | hrest
    · exact hfirst
    · have hsorted := (pairwise_append.mp hvalid.sorted).2.1
      exact lt_trans hfirst ((pairwise_cons.mp hsorted).1 node hrest)

theorem Valid.notMem_keys (hvalid : heap.Valid chain) (hmem : loc ∈ locs chain)
    (hread : (heap.read loc).addr = cur) (hbelow : ∀ node, loc = .next node → heap.key node < k)
    (habove : ∀ node, cur = some node → k < heap.key node) : k ∉ heap.keys chain := by
  obtain ⟨before, after, rfl, rfl, rfl⟩ := hvalid.cut hmem hread
  rw [mem_keys]
  rintro ⟨node, hnode, _, rfl⟩
  rcases mem_append.mp hnode with hbefore | hafter
  · exact lt_irrefl _ (hvalid.key_lt_of_mem_before hbelow node hbefore)
  · exact lt_irrefl _ (hvalid.lt_key_of_mem_after habove node hafter)

theorem Valid.mem_of_read (hvalid : heap.Valid chain) (hmem : loc ∈ locs chain)
    (hread : (heap.read loc).addr = some node) : node ∈ chain := by
  obtain ⟨before, after, rfl, _, hhead⟩ := hvalid.cut hmem hread
  exact mem_append_right _ (mem_of_head? hhead)

theorem Valid.congr (hvalid : heap.Valid chain) (hhead : heap'.head = heap.head)
    (hkey : ∀ node ∈ chain, heap'.key node = heap.key node)
    (hnext : ∀ node ∈ chain, (heap'.next node).addr = (heap.next node).addr) : heap'.Valid chain where
  linked := by
    have hstart : heap'.follow .head = heap.follow .head := by simp [follow, read, hhead]
    rw [hstart]
    apply hvalid.linked.congr
    intro loc hmem
    obtain ⟨node, hnode, rfl⟩ := mem_map.mp hmem
    simp [follow, read, hnext node hnode]
  sorted := by
    apply hvalid.sorted.imp_of_mem
    intro node later hnode hlater hlt
    rwa [hkey node hnode, hkey later hlater]

theorem keys_congr (hkey : ∀ node ∈ chain, heap'.key node = heap.key node)
    (hmark : ∀ node ∈ chain, (heap'.next node).mark = (heap.next node).mark) :
    heap'.keys chain = heap.keys chain := by
  ext k
  simp only [mem_keys]
  constructor
  · rintro ⟨node, hnode, hunmarked, hk⟩
    exact ⟨node, hnode, hmark node hnode ▸ hunmarked, hkey node hnode ▸ hk⟩
  · rintro ⟨node, hnode, hunmarked, hk⟩
    exact ⟨node, hnode, (hmark node hnode).trans hunmarked, (hkey node hnode).trans hk⟩

structure SameExcept (node : NodeAddr) (heap heap' : Heap) : Prop where
  head : heap'.head = heap.head
  key : ∀ other, other ≠ node → heap'.key other = heap.key other
  next : ∀ other, other ≠ node → heap'.next other = heap.next other

theorem sameExcept_setKey (heap : Heap) (node : NodeAddr) (key : Int) : SameExcept node heap (heap.setKey node key) :=
  ⟨rfl, fun _ hne => update_of_ne hne _ _, fun _ _ => rfl⟩

theorem sameExcept_write (heap : Heap) (node : NodeAddr) (target : Option NodeAddr) :
    SameExcept node heap (heap.write (.next node) target) :=
  ⟨rfl, fun _ _ => rfl, fun _ hne => update_of_ne hne _ _⟩

theorem sameExcept_scribble (heap : Heap) (node : NodeAddr) (key : Int) (next : Link) :
    SameExcept node heap (heap.scribble node key next) :=
  ⟨rfl, fun _ hne => update_of_ne hne _ _, fun _ hne => update_of_ne hne _ _⟩

theorem Valid.sameExcept (hvalid : heap.Valid chain) (hsame : SameExcept node heap heap')
    (hnotMem : node ∉ chain) : heap'.Valid chain := by
  have hne : ∀ other ∈ chain, other ≠ node := fun other hother heq => hnotMem (heq ▸ hother)
  apply hvalid.congr hsame.head
  · exact fun other hother => hsame.key other (hne other hother)
  · exact fun other hother => by rw [hsame.next other (hne other hother)]

theorem SameExcept.keys_eq (hsame : SameExcept node heap heap')
    (hnotMem : node ∉ chain) : heap'.keys chain = heap.keys chain := by
  have hne : ∀ other ∈ chain, other ≠ node := fun other hother heq => hnotMem (heq ▸ hother)
  apply keys_congr
  · exact fun other hother => hsame.key other (hne other hother)
  · exact fun other hother => by rw [hsame.next other (hne other hother)]

theorem Valid.insert (hvalid : heap.Valid chain) (hmem : loc ∈ locs chain)
    (hread : heap.read loc = ⟨cur, false⟩) (hbelow : ∀ prev, loc = .next prev → heap.key prev < heap.key node)
    (habove : ∀ succ, cur = some succ → heap.key node < heap.key succ) (hnew : node ∉ chain)
    (hnext : heap.next node = ⟨cur, false⟩) :
    ∃ chain', (heap.write loc (some node)).Valid chain' ∧ (∀ other, other ∈ chain' ↔ other = node ∨ other ∈ chain) ∧
      (heap.write loc (some node)).keys chain' = insert (heap.key node) (heap.keys chain) := by
  obtain ⟨before, after, rfl, rfl, hcur⟩ := hvalid.cut hmem (congrArg Link.addr hread)
  have hmembers : ∀ other, other ∈ before ++ node :: after ↔ other = node ∨ other ∈ before ++ after := by
    intro other
    simp only [mem_append, mem_cons]
    tauto
  refine ⟨before ++ node :: after, ⟨?_, ?_⟩, hmembers, ?_⟩
  · have hne : Loc.next node ≠ lastLoc before := by
      intro heq
      exact hnew (next_mem_locs.mp (heq ▸ hmem))
    apply hvalid.splice
    · intro loc hloc _
      rw [follow_write, update_of_ne hloc]
    · have hafter := hvalid.linked_after
      have hstart : heap.follow (.next node) = heap.follow (lastLoc before) := by
        simp only [follow, hread]
        exact congrArg (Option.map Loc.next) (congrArg Link.addr hnext)
      rw [follow_write, update_self, map_cons, Option.map_some, linked_cons, update_of_ne hne, hstart]
      refine ⟨rfl, hafter.congr ?_⟩
      intro loc hloc
      obtain ⟨other, hother, rfl⟩ := mem_map.mp hloc
      exact update_of_ne (hvalid.lastLoc_ne hother) _ _
  · have hsorted := pairwise_append.mp hvalid.sorted
    have hlow := hvalid.key_lt_of_mem_before hbelow
    have hhigh := hvalid.lt_key_of_mem_after (fun succ hsucc => habove succ (hcur.symm.trans hsucc))
    simp only [write_key]
    refine pairwise_append.mpr ⟨hsorted.1, pairwise_cons.mpr ⟨hhigh, hsorted.2.1⟩, ?_⟩
    intro first hfirst second hsecond
    rcases mem_cons.mp hsecond with rfl | hrest
    · exact hlow first hfirst
    · exact hsorted.2.2 first hfirst second hrest
  · ext k
    simp only [mem_keys, Finset.mem_insert, hmembers, mark_write hread, write_key]
    constructor
    · rintro ⟨other, rfl | hother, hunmarked, rfl⟩
      · exact .inl rfl
      · exact .inr ⟨other, hother, hunmarked, rfl⟩
    · rintro (rfl | ⟨other, hother, hunmarked, rfl⟩)
      · exact ⟨node, .inl rfl, by rw [hnext], rfl⟩
      · exact ⟨other, .inr hother, hunmarked, rfl⟩

theorem Valid.unlink (hvalid : heap.Valid chain) (hmem : loc ∈ locs chain)
    (hread : heap.read loc = ⟨some node, false⟩) (hnext : heap.next node = ⟨new, true⟩) :
    ∃ chain', (heap.write loc new).Valid chain' ∧ (∀ other, other ∈ chain' ↔ other ≠ node ∧ other ∈ chain) ∧
      (heap.write loc new).keys chain' = heap.keys chain := by
  obtain ⟨before, after, rfl, rfl, hhead⟩ := hvalid.cut hmem (congrArg Link.addr hread)
  obtain ⟨rest, rfl⟩ := head?_eq_some_iff.mp hhead
  have hnodup := hvalid.nodup
  have hmembers : ∀ other, other ∈ before ++ rest ↔ other ≠ node ∧ other ∈ before ++ node :: rest := by
    intro other
    have hnotMem := (nodup_middle.mp hnodup)
    rw [nodup_cons] at hnotMem
    simp only [mem_append, mem_cons] at hnotMem ⊢
    grind
  refine ⟨before ++ rest, ⟨?_, ?_⟩, hmembers, ?_⟩
  · apply hvalid.splice
    · intro loc hloc _
      rw [follow_write, update_of_ne hloc]
    · have hafter := (linked_cons.mp hvalid.linked_after).2
      have hstart : heap.follow (.next node) = new.map .next := by
        exact congrArg (Option.map Loc.next) (congrArg Link.addr hnext)
      rw [hstart] at hafter
      rw [follow_write, update_self]
      apply hafter.congr
      intro loc hloc
      obtain ⟨other, hother, rfl⟩ := mem_map.mp hloc
      exact update_of_ne (hvalid.lastLoc_ne (mem_cons_of_mem node hother)) _ _
  · simp only [write_key]
    exact hvalid.sorted.sublist (by simp)
  · ext k
    simp only [mem_keys, mark_write hread, write_key, hmembers]
    constructor
    · rintro ⟨other, ⟨_, hother⟩, hrest⟩
      exact ⟨other, hother, hrest⟩
    · rintro ⟨other, hother, hunmarked, hk⟩
      refine ⟨other, ⟨?_, hother⟩, hunmarked, hk⟩
      rintro rfl
      simp [hnext] at hunmarked

theorem Valid.key_injective (hvalid : heap.Valid chain) {other : NodeAddr} (hnode : node ∈ chain)
    (hother : other ∈ chain) (hkey : heap.key node = heap.key other) : node = other := by
  have hnodup : (chain.map heap.key).Nodup :=
    pairwise_map.mpr (hvalid.sorted.imp fun hlt => ne_of_lt hlt)
  exact inj_on_of_nodup_map hnodup hnode hother hkey

theorem addr_setMark (hnext : heap.next node = ⟨old, false⟩) (other : NodeAddr) :
    ((heap.setMark node old).next other).addr = (heap.next other).addr := by
  by_cases heq : other = node <;> simp [setMark, heq, hnext]

theorem mark_setMark (other : NodeAddr) : ((heap.setMark node old).next other).mark = false ↔
      other ≠ node ∧ (heap.next other).mark = false := by
  by_cases heq : other = node <;> simp [setMark, heq]

theorem Valid.mark (hvalid : heap.Valid chain) (hnext : heap.next node = ⟨old, false⟩) :
    (heap.setMark node old).Valid chain := by
  apply hvalid.congr
  · rfl
  · exact fun _ _ => rfl
  · exact fun other _ => addr_setMark hnext other

theorem Valid.keys_mark (hvalid : heap.Valid chain) (hmem : node ∈ chain) :
    (heap.setMark node old).keys chain = (heap.keys chain).erase (heap.key node) := by
  ext k
  simp only [mem_keys, Finset.mem_erase, mark_setMark]
  constructor
  · rintro ⟨other, hother, ⟨hne, hunmarked⟩, rfl⟩
    exact ⟨fun hkey => hne (hvalid.key_injective hother hmem hkey), other, hother, hunmarked, rfl⟩
  · rintro ⟨hne, other, hother, hunmarked, rfl⟩
    refine ⟨other, hother, ⟨?_, hunmarked⟩, rfl⟩
    rintro rfl
    exact hne rfl

theorem Valid.fromHead_iff (hvalid : heap.Valid chain) : heap.FromHead node ↔ node ∈ chain := by
  constructor
  · intro hfrom
    induction hfrom with
    | head hhead => exact hvalid.mem_of_read mem_cons_self hhead
    | next _ hnext ih => exact hvalid.mem_of_read (next_mem_locs.mpr ih) hnext
  · intro hmem
    obtain ⟨before, after, rfl⟩ := append_of_mem hmem
    -- each link in front of the node leads one step further from the head
    induction before using reverseRecOn generalizing node after with
    | nil => exact .head hvalid.read_lastLoc
    | append_singleton front last ih =>
      have hread := hvalid.read_lastLoc
      rw [lastLoc_concat] at hread
      rw [append_assoc] at hvalid
      exact .next (ih _ hvalid (by simp)) hread

end Heap

end Lfmr.MarkedList
