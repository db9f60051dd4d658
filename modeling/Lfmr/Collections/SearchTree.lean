import Mathlib.Data.Tree.Basic
import Mathlib.Order.Lattice

/-!
# Search trees

Binary trees whose nodes have an element and a name, which tells apart nodes with the same contents. The
way down to an element, what is found there, and what becomes of the entries from left to right if another
tree is put in its place.
-/

namespace Lfmr.Collections.SearchTree

open List

variable {κ α : Type}

def entries : BinaryTree (κ × α) → List (κ × α)
  | .nil => []
  | .node entry left right => entries left ++ entry :: entries right

def names (tree : BinaryTree (κ × α)) : List κ := (entries tree).map Prod.fst

def elems (tree : BinaryTree (κ × α)) : List α := (entries tree).map Prod.snd

@[simp]
theorem names_nil : names (.nil : BinaryTree (κ × α)) = [] := rfl

variable {left right : BinaryTree (κ × α)}

@[simp]
theorem names_node {entry : κ × α} : names (.node entry left right) = names left ++ entry.1 :: names right := by
  simp [names, entries]

@[simp]
theorem elems_nil : elems (.nil : BinaryTree (κ × α)) = [] := rfl

@[simp]
theorem elems_node {entry : κ × α} : elems (.node entry left right) = elems left ++ entry.2 :: elems right := by
  simp [elems, entries]

def extractMin (entry : κ × α) : BinaryTree (κ × α) → BinaryTree (κ × α) → (κ × α) × BinaryTree (κ × α)
  | .nil, right => (entry, right)
  | .node leftEntry left middle, right =>
      let result := extractMin leftEntry left middle
      (result.1, .node entry result.2 right)

theorem entries_extractMin (entry : κ × α) (left right : BinaryTree (κ × α)) :
    (extractMin entry left right).1 :: entries (extractMin entry left right).2 = entries (.node entry left right) := by
  induction left generalizing entry right with
  | nil => rfl
  | node leftEntry left middle ih =>
    rw [extractMin, entries, ← cons_append, ih leftEntry middle]
    rfl

def removeRoot : BinaryTree (κ × α) → BinaryTree (κ × α)
  | .nil => .nil
  | .node _ left .nil => left
  | .node _ left (.node entry middle right) =>
      let result := extractMin entry middle right
      .node result.1 left result.2

theorem entries_removeRoot (entry : κ × α) (left right : BinaryTree (κ × α)) :
    entries (removeRoot (.node entry left right)) = entries left ++ entries right := by
  cases right with
  | nil => rw [removeRoot, entries, append_nil]
  | node rightEntry middle right => rw [removeRoot, entries, entries_extractMin]

section Way

variable [LinearOrder α] {e : α} {tree new : BinaryTree (κ × α)}

def found (e : α) : BinaryTree (κ × α) → BinaryTree (κ × α)
  | .nil => .nil
  | .node entry left right =>
      if entry.2 = e then .node entry left right
      else if e < entry.2 then found e left
      else found e right

def replace (e : α) (new : BinaryTree (κ × α)) : BinaryTree (κ × α) → BinaryTree (κ × α)
  | .nil => new
  | .node entry left right =>
      if entry.2 = e then new
      else if e < entry.2 then .node entry (replace e new left) right
      else .node entry left (replace e new right)

theorem found_eq (e : α) (tree : BinaryTree (κ × α)) :
    found e tree = .nil ∨ ∃ name left right, found e tree = .node (name, e) left right := by
  induction tree with
  | nil => exact .inl rfl
  | node entry left right ihl ihr =>
    rw [found]
    split
    · next heq => exact .inr ⟨entry.1, left, right, by rw [← heq]⟩
    · split
      · exact ihl
      · exact ihr

def Ordered (tree : BinaryTree (κ × α)) : Prop := (elems tree).Pairwise (· < ·)

theorem ordered_node {entry : κ × α} : Ordered (.node entry left right) ↔ Ordered left ∧ Ordered right ∧
      (∀ x ∈ elems left, x < entry.2) ∧ ∀ x ∈ elems right, entry.2 < x := by
  simp only [Ordered, elems_node, pairwise_append, pairwise_cons, mem_cons, forall_eq_or_imp]
  constructor
  · rintro ⟨hleft, ⟨habove, hright⟩, hbelow⟩
    exact ⟨hleft, hright, fun x hx => (hbelow x hx).1, habove⟩
  · rintro ⟨hleft, hright, hbelow, habove⟩
    exact ⟨hleft, ⟨habove, hright⟩, fun x hx => ⟨hbelow x hx, fun y hy => (hbelow x hx).trans (habove y hy)⟩⟩

theorem Ordered.mem_iff (hordered : Ordered tree) : e ∈ elems tree ↔ found e tree ≠ .nil := by
  induction tree with
  | nil => simp [found]
  | node entry left right ihl ihr =>
    obtain ⟨hleft, hright, hbelow, habove⟩ := ordered_node.mp hordered
    rw [elems_node, mem_append, mem_cons, found]
    split
    · next heq => exact iff_of_true (.inr (.inl heq.symm)) (by simp)
    · rename_i hne
      split
      · rename_i hlt
        rw [← ihl hleft]
        refine ⟨fun hmem => hmem.resolve_right ?_, .inl⟩
        rintro (heq | hmem)
        · exact hne heq.symm
        · exact lt_asymm hlt (habove e hmem)
      · rename_i hlt
        rw [← ihr hright]
        refine ⟨fun hmem => ?_, fun hmem => .inr (.inr hmem)⟩
        rcases hmem with hmem | heq | hmem
        · exact absurd (hbelow e hmem) hlt
        · exact absurd heq.symm hne
        · exact hmem

/-- Around the end of the way to `e` are the smaller and the greater elements. -/
theorem Ordered.exists_around (hordered : Ordered tree) (e : α) :
    ∃ before after, entries tree = before ++ entries (found e tree) ++ after ∧
      (∀ new, entries (replace e new tree) = before ++ entries new ++ after) ∧
      (∀ entry ∈ before, entry.2 < e) ∧ ∀ entry ∈ after, e < entry.2 := by
  induction tree with
  | nil => exact ⟨[], [], rfl, fun new => by simp [replace], by simp, by simp⟩
  | node root left right ihl ihr =>
    obtain ⟨hleft, hright, hbelow, habove⟩ := ordered_node.mp hordered
    simp only [found, replace]
    split
    · exact ⟨[], [], by simp, fun new => by simp, by simp, by simp⟩
    · rename_i hne
      split
      · rename_i hlt
        obtain ⟨before, after, heq, hnew, hbefore, hafter⟩ := ihl hleft
        refine ⟨before, after ++ root :: entries right, by simp [entries, heq],
          fun new => by simp [entries, hnew], hbefore, ?_⟩
        intro entry hentry
        rcases mem_append.mp hentry with hentry | hentry
        · exact hafter entry hentry
        · rcases mem_cons.mp hentry with rfl | hentry
          · exact hlt
          · exact hlt.trans (habove entry.2 (mem_map_of_mem hentry))
      · rename_i hlt
        obtain ⟨before, after, heq, hnew, hbefore, hafter⟩ := ihr hright
        have hgt : root.2 < e := lt_of_le_of_ne (not_lt.mp hlt) hne
        refine ⟨entries left ++ root :: before, after, by simp [entries, heq],
          fun new => by simp [entries, hnew], ?_, hafter⟩
        intro entry hentry
        rcases mem_append.mp hentry with hentry | hentry
        · exact (hbelow entry.2 (mem_map_of_mem hentry)).trans hgt
        · rcases mem_cons.mp hentry with rfl | hentry
          · exact hgt
          · exact hbefore entry hentry

theorem Ordered.insert (hordered : Ordered tree) (hfound : found e tree = .nil) (name : κ) :
    Ordered (replace e (.node (name, e) .nil .nil) tree) ∧
      (entries (replace e (.node (name, e) .nil .nil) tree)).Perm ((name, e) :: entries tree) := by
  obtain ⟨before, after, heq, hnew, hbefore, hafter⟩ := hordered.exists_around e
  rw [hfound] at heq
  simp only [entries, append_nil] at heq
  constructor
  · simp only [Ordered, elems, heq, map_append, pairwise_append, pairwise_map] at hordered
    obtain ⟨hfirst, hsecond, hacross⟩ := hordered
    simp only [Ordered, elems, hnew, entries, nil_append, append_assoc, cons_append,
      map_append, map_cons, pairwise_append, pairwise_cons, pairwise_map,
      mem_cons, mem_map, forall_exists_index, and_imp, forall_eq_or_imp, forall_apply_eq_imp_iff₂]
    refine ⟨hfirst, ⟨hafter, hsecond⟩, fun entry hentry => ⟨hbefore entry hentry, ?_⟩⟩
    exact fun other hother => hacross _ (mem_map_of_mem hentry) _ (mem_map_of_mem hother)
  · rw [hnew, heq]
    simp only [entries, nil_append, append_assoc, cons_append]
    exact perm_middle

theorem Ordered.remove (hordered : Ordered tree) {name : κ} (hfound : found e tree = .node (name, e) left right) :
    Ordered (replace e (removeRoot (found e tree)) tree) ∧
      (entries tree).Perm ((name, e) :: entries (replace e (removeRoot (found e tree)) tree)) := by
  obtain ⟨before, after, heq, hnew, -, -⟩ := hordered.exists_around e
  rw [hnew, hfound, entries_removeRoot]
  rw [hfound, entries] at heq
  constructor
  · have hsublist : (before ++ (entries left ++ entries right) ++ after).Sublist (entries tree) := by
      rw [heq]
      exact ((List.Sublist.refl _).append ((List.Sublist.refl _).append
        (sublist_cons_self _ _))).append (List.Sublist.refl _)
    rw [Ordered, elems, hnew, entries_removeRoot]
    exact hordered.sublist (hsublist.map _)
  · rw [heq]
    simp only [append_assoc, cons_append]
    rw [← append_assoc before, ← append_assoc before]
    exact perm_middle

end Way

end Lfmr.Collections.SearchTree
