import Lfmr.Proof.TreeSetMemory

/-!
# Looking up, comparing, folding and copying

What the functions of `set.c` that do not change a tree make of it.
-/

namespace Lfmr.TreeSet

open Lfmr.Collections.SearchTree

variable {memory memory' : Memory} {cursor : Cursor} {elem : Elem} {fuel : Nat}
  {tree copy left right : BinaryTree (Addr × Elem)} {entry : Addr × Elem}

theorem Holds.link_nil (hholds : Holds memory cursor .nil) : memory.link cursor = none := hholds

theorem elemLoop_found (hholds : Holds memory cursor tree) (hfuel : (names tree).length < fuel) :
    ∃ answer, elemLoop memory elem fuel (memory.link cursor) = some answer ∧
      (answer = true ↔ found elem tree ≠ .nil) := by
  induction tree generalizing cursor fuel with
  | nil =>
    obtain ⟨fuel, rfl⟩ := Nat.exists_eq_add_of_lt hfuel
    rw [hholds.link_nil]
    exact ⟨false, rfl, by simp [found]⟩
  | node entry left right ihl ihr =>
    obtain ⟨fuel, rfl, hfuell, hfuelr⟩ := exists_fuel hfuel
    obtain ⟨hroot, helem, hleft, hright⟩ := hholds
    rw [hroot, elemLoop, helem, found]
    rcases Nat.lt_trichotomy elem entry.2 with hlt | heq | hgt
    · rw [if_pos hlt, if_neg (Nat.ne_of_gt hlt), if_pos hlt]
      exact ihl hleft hfuell
    · subst heq
      rw [if_neg (Nat.lt_irrefl _), if_neg (Nat.lt_irrefl _), if_pos rfl]
      exact ⟨true, rfl, by simp⟩
    · rw [if_neg (Nat.lt_asymm hgt), if_pos hgt, if_neg (Nat.ne_of_lt hgt), if_neg (Nat.lt_asymm hgt)]
      exact ihr hright hfuelr

theorem elemLoop_spec (hholds : Holds memory cursor tree) (hordered : Ordered tree)
    (hfuel : (names tree).length < fuel) :
    elemLoop memory elem fuel (memory.link cursor) = some (decide (elem ∈ elems tree)) := by
  obtain ⟨answer, hloop, hanswer⟩ := elemLoop_found hholds hfuel
  rw [hloop, Option.some_inj, Bool.eq_iff_iff, decide_eq_true_iff, hordered.mem_iff]
  exact hanswer

theorem nodeSubset_spec {set : Option SetAddr} {members : Finset Elem}
    (hset : ∀ elem, setElem memory set elem = some (decide (elem ∈ members)))
    (hholds : Holds memory cursor tree) (hfuel : (names tree).length < fuel) :
    nodeSubset memory set fuel (memory.link cursor) = some (decide (∀ elem ∈ elems tree, elem ∈ members)) := by
  induction tree generalizing cursor fuel with
  | nil =>
    obtain ⟨fuel, rfl⟩ := Nat.exists_eq_add_of_lt hfuel
    rw [hholds.link_nil]
    simp [nodeSubset]
  | node entry left right ihl ihr =>
    obtain ⟨fuel, rfl, hfuell, hfuelr⟩ := exists_fuel hfuel
    obtain ⟨hroot, helem, hleft, hright⟩ := hholds
    rw [hroot, nodeSubset, helem, hset, ihl hleft hfuell, ihr hright hfuelr]
    have hsplit : (∀ elem ∈ elems (.node entry left right), elem ∈ members) ↔
        entry.2 ∈ members ∧ (∀ elem ∈ elems left, elem ∈ members) ∧ ∀ elem ∈ elems right, elem ∈ members := by
      simp only [elems_node, List.mem_append, List.mem_cons, or_imp, forall_and, forall_eq]
      tauto
    by_cases hmem : entry.2 ∈ members
    · by_cases hsub : ∀ elem ∈ elems left, elem ∈ members
      · simp only [hsplit, hmem, decide_true, Option.bind_eq_bind, Option.bind_some, if_true, true_and, eq_true hsub]
      · simp only [hsplit, hmem, decide_true, Option.bind_eq_bind, Option.bind_some, if_true, true_and, eq_false hsub]
        rfl
    · simp only [hsplit, eq_false hmem, false_and]
      rfl

theorem nodeReduce_spec {β : Type} (f : Elem → β → β) (acc : β) (hholds : Holds memory cursor tree)
    (hfuel : (names tree).length < fuel) :
    nodeReduce memory f fuel (memory.link cursor) acc = some ((elems tree).foldl (fun acc elem => f elem acc) acc) := by
  induction tree generalizing cursor fuel acc with
  | nil =>
    obtain ⟨fuel, rfl⟩ := Nat.exists_eq_add_of_lt hfuel
    rw [hholds.link_nil]
    rfl
  | node entry left right ihl ihr =>
    obtain ⟨fuel, rfl, hfuell, hfuelr⟩ := exists_fuel hfuel
    obtain ⟨hroot, helem, hleft, hright⟩ := hholds
    rw [hroot, nodeReduce, helem, ihl acc hleft hfuell, elems_node, List.foldl_append, List.foldl_cons]
    exact ihr _ hright hfuelr

def Settled (memory : Memory) (cursor : Cursor) : Prop := ∀ node, cursor.owner = some node → node < memory.nodes

namespace Settled

theorem mono (hsettled : Settled memory cursor) (hnodes : memory.nodes ≤ memory'.nodes) : Settled memory' cursor :=
  fun node howner => Nat.lt_of_lt_of_le (hsettled node howner) hnodes

theorem owner_ne (hsettled : Settled memory cursor) : cursor.owner ≠ some memory.nodes :=
  fun howner => Nat.lt_irrefl _ (hsettled _ howner)

theorem ne {side : Cursor} (hsettled : Settled memory cursor) (howner : side.owner = some memory.nodes) :
    cursor ≠ side :=
  fun heq => hsettled.owner_ne (heq ▸ howner)

theorem of_owner {node : Addr} (howner : cursor.owner = some node) (hnode : node < memory.nodes) :
    Settled memory cursor := by
  intro other hother
  rwa [← Option.some.inj (howner.symm.trans hother)]

end Settled

theorem agree_addNode {nodes : List Addr} (hnodes : ∀ node ∈ nodes, node < memory.nodes)
    (hout : ¬ Inside cursor nodes) : Agree memory (addNode memory cursor elem) nodes := by
  refine ⟨fun other hinside => addNode_link_of_ne (fun heq => hout (heq ▸ hinside)) fun howner => ?_,
    fun node hmem => addNode_elem_of_ne (Nat.ne_of_lt (hnodes node hmem))⟩
  exact Nat.lt_irrefl _ (hnodes _ ((inside_iff howner).mp hinside))

structure Copied (memory memory' : Memory) (target : Cursor) (tree copy : BinaryTree (Addr × Elem)) : Prop where
  holds : Holds memory' target copy
  elems : elems copy = elems tree
  nodup : (names copy).Nodup
  new : ∀ node ∈ names copy, memory.nodes ≤ node ∧ node < memory'.nodes
  nodes : memory.nodes ≤ memory'.nodes
  sets : memory'.sets = memory.sets
  link : ∀ other, other ≠ target → Settled memory other → memory'.link other = memory.link other
  elem : ∀ node < memory.nodes, memory'.elem node = memory.elem node

namespace Copied

variable {target : Cursor} {memory₁ memory₂ : Memory} {copyl copyr : BinaryTree (Addr × Elem)}

theorem agree {nodes : List Addr} (hcopied : Copied memory memory' target tree copy)
    (hnodes : ∀ node ∈ nodes, node < memory.nodes) (hout : ¬ Inside target nodes) : Agree memory memory' nodes := by
  refine ⟨fun other hinside => hcopied.link other (fun heq => hout (heq ▸ hinside)) fun node howner => ?_,
    fun node hmem => hcopied.elem node (hnodes node hmem)⟩
  exact hnodes node ((inside_iff howner).mp hinside)

/-- A new node, with a copy of the left subtree below it, then one of the right. -/
theorem node (hsettled : Settled memory target)
    (hleft : Copied (addNode memory target entry.2) memory₁ (.left memory.nodes) left copyl)
    (hright : Copied memory₁ memory₂ (.right memory.nodes) right copyr) :
    Copied memory memory₂ target (.node entry left right) (.node (memory.nodes, entry.2) copyl copyr) := by
  have hnodesl : memory.nodes < memory₁.nodes := hleft.nodes
  have hnodesr : memory₁.nodes ≤ memory₂.nodes := hright.nodes
  have hnewl : ∀ node ∈ names copyl, memory.nodes < node ∧ node < memory₁.nodes := hleft.new
  have hlink : ∀ other, Settled memory other → memory₂.link other = (addNode memory target entry.2).link other := by
    intro other hother
    rw [hright.link other (hother.ne rfl) (hother.mono (by omega))]
    exact hleft.link other (hother.ne rfl) (hother.mono (Nat.le_succ _))
  have helem : ∀ node < memory.nodes + 1, memory₂.elem node = (addNode memory target entry.2).elem node := by
    intro node hnode
    rw [hright.elem node (by omega)]
    exact hleft.elem node hnode
  refine ⟨⟨?_, ?_, ?_, hright.holds⟩, ?_, ?_, ?_, by omega, hright.sets.trans hleft.sets, ?_, ?_⟩
  · exact (hlink target hsettled).trans addNode_link_self
  · exact (helem _ (Nat.lt_succ_self _)).trans addNode_elem_self
  · refine hleft.holds.redirect (hright.link _ (by simp) (Settled.of_owner rfl hnodesl)) ?_
    refine hright.agree (fun node hmem => (hnewl node hmem).2) fun hin => ?_
    exact Nat.lt_irrefl _ (hnewl _ ((inside_iff rfl).mp hin)).1
  · rw [elems_node, elems_node, hleft.elems, hright.elems]
  · rw [names_node, List.nodup_append, List.nodup_cons]
    refine ⟨hleft.nodup, ⟨fun hmem => ?_, hright.nodup⟩, fun node hmem other hother heq => ?_⟩
    · exact Nat.not_le_of_lt hnodesl (hright.new _ hmem).1
    · obtain ⟨hgt, hlt⟩ := hnewl node hmem
      rcases List.mem_cons.mp hother with rfl | hother
      · exact Nat.ne_of_gt hgt heq
      · exact Nat.ne_of_lt (Nat.lt_of_lt_of_le hlt (hright.new other hother).1) heq
  · intro node hmem
    rw [names_node, List.mem_append, List.mem_cons] at hmem
    rcases hmem with hmem | rfl | hmem
    · obtain ⟨hgt, hlt⟩ := hnewl node hmem
      exact ⟨Nat.le_of_lt hgt, Nat.lt_of_lt_of_le hlt hnodesr⟩
    · exact ⟨Nat.le_refl _, Nat.lt_of_lt_of_le hnodesl hnodesr⟩
    · obtain ⟨hge, hlt⟩ := hright.new node hmem
      exact ⟨Nat.le_trans (Nat.le_of_lt hnodesl) hge, hlt⟩
  · intro other hne hother
    rw [hlink other hother]
    exact addNode_link_of_ne hne hother.owner_ne
  · intro node hnode
    rw [helem node (by omega)]
    exact addNode_elem_of_ne (Nat.ne_of_lt hnode)

end Copied

theorem cloneNode_spec {source target : Cursor} (hholds : Holds memory source tree)
    (hnodes : ∀ node ∈ names tree, node < memory.nodes) (htarget : memory.link target = none)
    (hsettled : Settled memory target) (hout : ¬ Inside target (names tree))
    (hfuel : (names tree).length < fuel) :
    ∃ memory' copy, cloneNode fuel memory (memory.link source) target = some memory' ∧
      Copied memory memory' target tree copy := by
  induction tree generalizing memory source target fuel with
  | nil =>
    obtain ⟨fuel, rfl⟩ := Nat.exists_eq_add_of_lt hfuel
    rw [hholds.link_nil]
    exact ⟨memory, .nil, rfl, htarget, rfl, List.nodup_nil, by simp, Nat.le_refl _, rfl,
      fun _ _ _ => rfl, fun _ _ => rfl⟩
  | node entry left right ihl ihr =>
    obtain ⟨fuel, rfl, hfuell, hfuelr⟩ := exists_fuel hfuel
    obtain ⟨hroot, helem, hleft, hright⟩ := hholds
    have hnodesl : ∀ node ∈ names left, node < memory.nodes + 1 :=
      fun node h => Nat.lt_succ_of_lt (hnodes node (names_left_subset h))
    have hnodesr : ∀ node ∈ names right, node < memory.nodes + 1 :=
      fun node h => Nat.lt_succ_of_lt (hnodes node (names_right_subset h))
    have hadd : Agree memory (addNode memory target entry.2) (names (.node entry left right)) :=
      agree_addNode hnodes hout
    have hside : ∀ side, side.owner = some entry.1 → (addNode memory target entry.2).link side = memory.link side :=
      fun side howner => hadd.link side ((inside_iff howner).mpr name_mem_node)
    have hfree : ∀ side, side.owner = some memory.nodes →
        (addNode memory target entry.2).link side = none ∧ Settled (addNode memory target entry.2) side ∧
          ¬ Inside side (names (.node entry left right)) := by
      refine fun side howner => ⟨addNode_link_new howner hsettled.owner_ne,
        Settled.of_owner howner (Nat.lt_succ_self _), fun hin => ?_⟩
      exact Nat.lt_irrefl _ (hnodes _ ((inside_iff howner).mp hin))
    obtain ⟨hnulll, hsettledl, houtl⟩ := hfree (.left memory.nodes) rfl
    obtain ⟨hnullr, hsettledr, houtr⟩ := hfree (.right memory.nodes) rfl
    obtain ⟨memory₁, copyl, hclonel, hcopiedl⟩ := ihl
      (hleft.redirect (hside _ rfl) (hadd.mono names_left_subset)) hnodesl hnulll hsettledl
      (fun hin => houtl (hin.mono names_left_subset)) hfuell
    have hnodes₁ : memory.nodes + 1 ≤ memory₁.nodes := hcopiedl.nodes
    have hright₁ : Holds memory₁ (.right entry.1) right := by
      have hholds : Holds (addNode memory target entry.2) (.right entry.1) right :=
        hright.redirect (hside _ rfl) (hadd.mono names_right_subset)
      refine hholds.redirect (hcopiedl.link _ (by simp) (Settled.of_owner rfl ?_)) ?_
      · exact Nat.lt_succ_of_lt (hnodes _ name_mem_node)
      · exact hcopiedl.agree hnodesr fun hin => houtl (hin.mono names_right_subset)
    have hnull₁ : memory₁.link (.right memory.nodes) = none :=
      (hcopiedl.link _ (by simp) hsettledr).trans hnullr
    obtain ⟨memory₂, copyr, hcloner, hcopiedr⟩ := ihr hright₁
      (fun node h => Nat.lt_of_lt_of_le (hnodesr node h) hnodes₁) hnull₁ (hsettledr.mono hnodes₁)
      (fun hin => houtr (hin.mono names_right_subset)) hfuelr
    refine ⟨memory₂, .node (memory.nodes, entry.2) copyl copyr, ?_, hcopiedl.node hsettled hcopiedr⟩
    rw [hroot, cloneNode, helem]
    rw [hclonel]
    exact hcloner

end Lfmr.TreeSet
