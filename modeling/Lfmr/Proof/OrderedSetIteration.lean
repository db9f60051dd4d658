import Lfmr.OrderedSetIterator
import Lfmr.Proof.OrderedSetRuns

/-!
# What the iterator of the ordered set yields

`getNextNode` goes from a left child to its parent, without looking at the right subtree of the child, and
from any other node to the least node of its right subtree. The iteration goes up the left spine of the tree, then
on with the tree to the right of the root. It ends, and yields all elements if and only if there is nothing to the
right of the nodes it goes up.
-/

namespace Lfmr.OrderedSet

open Lfmr.Collections

variable {α : Type} {cmp : α → α → Int} {root node left right : Node α} {elem : α} {this : Ref}
  {elems : List α}

namespace Node

def spine : Node α → List α
  | .null => []
  | .node elem left _ => left.spine ++ [elem]

def visited : Node α → List α
  | .null => []
  | .node elem left right => left.spine ++ elem :: right.visited

theorem deref_child (hthis : root.deref this = .node elem left right) (side : Side) :
    root.deref (side :: this) = (Node.node elem left right).child side := by
  rw [deref, hthis]

theorem getNextNode_left (hthis : root.deref (.left :: this) ≠ .null) :
    root.getNextNode (.left :: this) = .ok (some this) := by
  have hleft : root.childRef .left this = some (.left :: this) := if_neg (by simpa using hthis)
  rw [getNextNode, if_pos hleft]

theorem childRef_left_ne (root : Node α) (this : Ref) : root.childRef .left this ≠ some (.right :: this) := by
  unfold childRef
  split <;> simp

theorem getNextNode_right (hthis : root.deref (.right :: this) ≠ .null) :
    root.getNextNode (.right :: this) = .ok (root.minOfRight (.right :: this)) := by
  have hright : root.childRef .right this = some (.right :: this) := if_neg (by simpa using hthis)
  rw [getNextNode, if_neg (root.childRef_left_ne this), if_pos hright]

end Node

open Node

theorem Iterates.cons {it : Iterator} (hthis : root.deref this = .node elem left right)
    (hnext : root.getNextNode this = .ok it) (hrest : Iterates root it elems) :
    Iterates root (some this) (elem :: elems) := by
  refine .next rfl ?_ hrest
  simp only [Iterator.next, hthis, Iterator.step, hnext]
  rfl

theorem iterates_spine {it : Iterator} (hthis : root.deref this = node) (hnode : node ≠ .null)
    (hnext : root.getNextNode this = .ok it) (hrest : Iterates root it elems) :
    Iterates root (some (node.getMinNode this)) (node.spine ++ elems) := by
  induction node generalizing this it elems with
  | null => exact absurd rfl hnode
  | node elem left right ihleft _ =>
    have hcons := Iterates.cons hthis hnext hrest
    rw [getMinNode, spine, List.append_assoc]
    by_cases hleft : left = .null
    · subst hleft
      exact hcons
    · rw [if_neg (by simpa using hleft)]
      have hderef : root.deref (.left :: this) = left := deref_child hthis .left
      exact ihleft hderef hleft (getNextNode_left (by rwa [hderef])) hcons

theorem iterates_visited (hthis : root.deref this = node) (hnode : node ≠ .null)
    (hnext : root.getNextNode this = .ok (root.minOfRight this)) :
    Iterates root (some (node.getMinNode this)) node.visited := by
  induction node generalizing this with
  | null => exact absurd rfl hnode
  | node elem left right _ ihright =>
    have hderef : root.deref (.right :: this) = right := deref_child hthis .right
    have hrest : Iterates root (root.minOfRight this) right.visited := by
      unfold minOfRight childRef
      rw [hderef]
      by_cases hright : right = .null
      · subst hright
        exact .done rfl
      · rw [if_neg (by simpa using hright)]
        simp only [Option.map_some, hderef]
        exact ihright hderef hright (getNextNode_right (by rwa [hderef]))
    have hspine := iterates_spine hthis hnode hnext hrest
    rwa [spine, List.append_assoc] at hspine

theorem iterates_init (root : Node α) : Iterates root (.init root) root.visited := by
  unfold Iterator.init
  by_cases hnull : root = .null
  · subst hnull
    exact .done rfl
  · rw [if_neg (by simpa using hnull)]
    exact iterates_visited rfl hnull rfl

theorem Iterates.unique {it : Iterator} {others : List α} (hleft : Iterates root it elems)
    (hright : Iterates root it others) : elems = others := by
  induction hleft generalizing others with
  | done hnone =>
    cases hright with
    | done => rfl
    | next hsome => exact absurd hsome (by simp [hnone])
  | next hsome hnext _ ih =>
    cases hright with
    | done hnone => exact absurd hsome (by simp [hnone])
    | next _ hnext' hrest' =>
      rw [hnext, Except.ok.injEq, Prod.mk.injEq] at hnext'
      obtain ⟨rfl, rfl⟩ := hnext'
      rw [ih hrest']

namespace Node

theorem length_spine_le (node : Node α) : node.spine.length ≤ node.elems.length := by
  induction node with
  | null => exact Nat.le_refl _
  | node elem left right ihleft _ =>
    simp only [spine, Node.elems, List.length_append, List.length_cons, List.length_nil]
    omega

theorem length_visited_le (node : Node α) : node.visited.length ≤ node.elems.length := by
  induction node with
  | null => exact Nat.le_refl _
  | node elem left right _ ihright =>
    have hspine := left.length_spine_le
    simp only [visited, Node.elems, List.length_append, List.length_cons]
    omega

theorem length_elems_eq_zero : node.elems.length = 0 ↔ node = .null := by
  cases node <;> simp [Node.elems]

theorem rightless_iff (node : Node α) : node.rightless = true ↔ node.spine.length = node.elems.length := by
  induction node with
  | null => exact iff_of_true rfl rfl
  | node elem left right ihleft _ =>
    have hspine := left.length_spine_le
    have hright : right = .null ↔ right.elems.length = 0 := length_elems_eq_zero.symm
    simp only [rightless, Bool.and_eq_true, isNull_eq_true, ihleft, hright, spine, Node.elems,
      List.length_append, List.length_cons, List.length_nil]
    omega

theorem rightOnSpine_iff (node : Node α) : node.rightOnSpine = true ↔ node.visited.length = node.elems.length := by
  induction node with
  | null => exact iff_of_true rfl rfl
  | node elem left right _ ihright =>
    have hspine := left.length_spine_le
    have hvisited := right.length_visited_le
    simp only [rightOnSpine, Bool.and_eq_true, rightless_iff, ihright, visited, Node.elems,
      List.length_append, List.length_cons]
    omega

theorem spine_sublist (node : Node α) : node.spine.Sublist node.elems := by
  induction node with
  | null => exact List.Sublist.refl _
  | node elem left right ihleft _ => exact ihleft.append (List.Sublist.cons_cons elem (List.nil_sublist _))

theorem visited_sublist (node : Node α) : node.visited.Sublist node.elems := by
  induction node with
  | null => exact List.Sublist.refl _
  | node elem left right _ ihright => exact left.spine_sublist.append (ihright.cons_cons elem)

end Node

theorem elems_addAll (hcmp : TotalCmp cmp) (es : List α) (hdistinct : es.Pairwise fun a b => cmp a b ≠ 0) :
    (addAll cmp es).root.Ordered cmp ∧ (addAll cmp es).root.elems.Perm es := by
  induction es using List.reverseRecOn with
  | nil => exact ⟨.nil, .nil⟩
  | append_singleton es e ih =>
    obtain ⟨hbefore, -, hnew⟩ := List.pairwise_append.mp hdistinct
    obtain ⟨hordered, hperm⟩ := ih hbefore
    have hfresh : ∀ a ∈ (addAll cmp es).root.elems, cmp a e ≠ 0 :=
      fun a ha => hnew a (hperm.mem_iff.mp ha) e List.mem_cons_self
    constructor
    · rw [ordered_add_iff hcmp hordered]
      by_contra hchild
      rw [Bool.not_eq_false] at hchild
      obtain ⟨a, ha, heq⟩ := exists_of_hasRightChild hchild
      exact hfresh a ha (hcmp.eq_iff.mp heq)
    · rw [addAll_append, root_add, cmp_addAll]
      have hcons : (e :: (addAll cmp es).root.elems).Perm (es ++ [e]) :=
        (hperm.cons e).trans (List.perm_append_singleton e es).symm
      by_cases hnull : (addAll cmp es).root = .null
      · rw [hnull] at hcons ⊢
        exact hcons
      · rw [if_neg (by simpa using hnull)]
        rcases elems_add cmp e hnull with ⟨-, hadded, -⟩ | ⟨-, -, a, ha, heq⟩
        · exact hadded.trans hcons
        · exact absurd heq (hfresh a ha)

theorem iterator_right_iff (hcmp : TotalCmp cmp) (es : List α)
    (hdistinct : es.Pairwise fun a b => cmp a b ≠ 0) :
    IterationRight cmp es (addAll cmp es) ↔ (addAll cmp es).root.rightOnSpine = true := by
  obtain ⟨hordered, hperm⟩ := elems_addAll hcmp es hdistinct
  have hiterates : Iterates (addAll cmp es).root (addAll cmp es).iter (addAll cmp es).root.visited :=
    iterates_init _
  rw [rightOnSpine_iff]
  constructor
  · rintro ⟨elems, helems, hall, -⟩
    rw [hiterates.unique helems, hall.length_eq, hperm.length_eq]
  · intro hlength
    have hall := (visited_sublist _).eq_of_length hlength
    exact ⟨_, hiterates, hall ▸ hperm, hall ▸ hordered⟩

theorem iterator_right_two_one_three :
    IterationRight (fun a b : Int => a - b) [2, 1, 3] (addAll (fun a b => a - b) [2, 1, 3]) :=
  (iterator_right_iff totalCmp_sub [2, 1, 3] (by decide)).mpr rfl

/-- 2 is to the right of 1, and the iterator goes from 1 to its parent 3. -/
theorem iterator_skips_two :
    Iterates (addAll (fun a b : Int => a - b) [3, 1, 2]).root
        (addAll (fun a b : Int => a - b) [3, 1, 2]).iter [1, 3] ∧
      ¬ IterationRight (fun a b : Int => a - b) [3, 1, 2] (addAll (fun a b => a - b) [3, 1, 2]) := by
  have hiterates := iterates_init (addAll (fun a b : Int => a - b) [3, 1, 2]).root
  refine ⟨hiterates, ?_⟩
  rintro ⟨elems, helems, hperm, -⟩
  have hlength := hperm.length_eq
  rw [← hiterates.unique helems] at hlength
  revert hlength
  decide

end Lfmr.OrderedSet
