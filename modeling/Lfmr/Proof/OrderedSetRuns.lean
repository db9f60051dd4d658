import Mathlib.Data.List.Induction
import Lfmr.Collections.Comparator
import Lfmr.OrderedSet

/-!
# What the ordered set contains after a sequence of additions

An element that is not in the tree is added where it belongs. One that is there already goes on to the
right of its equal, and is found to be there only if there is nothing to the right.
-/

namespace Lfmr.OrderedSet

open List Lfmr.Collections

variable {α : Type} {cmp : α → α → Int} {e x elem : α} {node left right : Node α} {set : OrderedSet α}

/-! ### One addition -/

namespace Node

@[simp]
theorem isNull_eq_true : node.isNull = true ↔ node = .null := by
  cases node <;> simp [isNull]

@[simp]
theorem isNull_eq_false : node.isNull = false ↔ node ≠ .null := by
  cases node <;> simp [isNull]

@[simp]
theorem elems_new : (Node.new e).elems = [e] := rfl

theorem add_cases (cmp : α → α → Int) (e elem : α) (left right : Node α) :
    ((Node.node elem left right).add cmp e = (.node elem left right, false) ∧ cmp elem e = 0 ∧
        (cmp e elem < 0 ∨ right = .null)) ∨
      (cmp e elem < 0 ∧ left = .null ∧ (Node.node elem left right).add cmp e = (.node elem (.new e) right, true)) ∨
      (cmp e elem < 0 ∧ left ≠ .null ∧ (Node.node elem left right).add cmp e =
        (.node elem (left.add cmp e).1 right, (left.add cmp e).2)) ∨
      (¬ cmp e elem < 0 ∧ right = .null ∧ cmp elem e ≠ 0 ∧
        (Node.node elem left right).add cmp e = (.node elem left (.new e), true)) ∨
      (¬ cmp e elem < 0 ∧ right ≠ .null ∧ (Node.node elem left right).add cmp e =
        (.node elem left (right.add cmp e).1, (right.add cmp e).2)) := by
  rw [add]
  split
  · split
    · split <;> simp_all
    · simp_all
  · split
    · split <;> simp_all
    · simp_all

/-- What `add` says it has added is in the tree, and nothing else has changed. -/
theorem elems_add (cmp : α → α → Int) (e : α) (hnode : node ≠ .null) :
    ((node.add cmp e).2 = true ∧ (node.add cmp e).1.elems.Perm (e :: node.elems) ∧
        node.elems.Sublist (node.add cmp e).1.elems) ∨
      ((node.add cmp e).2 = false ∧ (node.add cmp e).1 = node ∧ ∃ a ∈ node.elems, cmp a e = 0) := by
  induction node with
  | null => exact absurd rfl hnode
  | node elem left right ihl ihr =>
    rcases add_cases cmp e elem left right with ⟨hadd, heq, -⟩ | ⟨-, rfl, hadd⟩ | ⟨-, hleft, hadd⟩ |
      ⟨-, rfl, -, hadd⟩ | ⟨-, hright, hadd⟩
    · rw [hadd]
      exact .inr ⟨rfl, rfl, elem, by simp [elems], heq⟩
    · rw [hadd]
      exact .inl ⟨rfl, .refl _, sublist_cons_self _ _⟩
    · rw [hadd]
      rcases ihl hleft with ⟨htrue, hperm, hsub⟩ | ⟨hfalse, hsame, a, ha, heq⟩
      · exact .inl ⟨htrue, hperm.append_right _, hsub.append_right _⟩
      · exact .inr ⟨hfalse, by rw [hsame], a, mem_append_left _ ha, heq⟩
    · rw [hadd]
      refine .inl ⟨rfl, ?_, ?_⟩
      · have hlast := perm_append_singleton e (left.elems ++ [elem])
        simpa [elems] using hlast
      · simp [elems]
    · rw [hadd]
      rcases ihr hright with ⟨htrue, hperm, hsub⟩ | ⟨hfalse, hsame, a, ha, heq⟩
      · refine .inl ⟨htrue, ?_, ?_⟩
        · have hmiddle : ((left.elems ++ [elem]) ++ e :: right.elems).Perm
              (e :: ((left.elems ++ [elem]) ++ right.elems)) := perm_middle
          simp only [append_assoc, singleton_append] at hmiddle
          exact ((hperm.cons elem).append_left _).trans hmiddle
        · exact (hsub.cons_cons elem).append_left _
      · exact .inr ⟨hfalse, by rw [hsame], a, by simp [elems, ha], heq⟩

theorem elems_sublist_add (cmp : α → α → Int) (e : α) (node : Node α) :
    node.elems.Sublist (node.add cmp e).1.elems := by
  by_cases hnode : node = .null
  · subst hnode
    exact .refl _
  · rcases elems_add cmp e hnode with ⟨-, -, hsub⟩ | ⟨-, hsame, -⟩
    · exact hsub
    · rw [hsame]

theorem exists_elems_add (hcmp : TotalCmp cmp) (hnode : node ≠ .null) :
    (∃ a ∈ (node.add cmp e).1.elems, cmp a x = 0) ↔ (∃ a ∈ node.elems, cmp a x = 0) ∨ cmp e x = 0 := by
  rcases elems_add cmp e hnode with ⟨-, hperm, -⟩ | ⟨-, hsame, found, hfound, heq⟩
  · simp only [hperm.mem_iff, mem_cons, exists_eq_or_imp]
    exact Or.comm
  · rw [hsame]
    refine ⟨.inl, ?_⟩
    rintro (hold | hnew)
    · exact hold
    · exact ⟨found, hfound, hcmp.eq_trans heq hnew⟩

/-! ### Trees in order -/

def Ordered (cmp : α → α → Int) (node : Node α) : Prop :=
  node.elems.Pairwise fun a b => cmp a b < 0

theorem ordered_node : (Node.node elem left right).Ordered cmp ↔ left.Ordered cmp ∧ right.Ordered cmp ∧
      (∀ a ∈ left.elems, cmp a elem < 0) ∧ (∀ b ∈ right.elems, cmp elem b < 0) ∧
      ∀ a ∈ left.elems, ∀ b ∈ right.elems, cmp a b < 0 := by
  simp only [Ordered, elems, pairwise_append, pairwise_cons, mem_cons, forall_eq_or_imp]
  constructor
  · rintro ⟨hleft, ⟨hright, hordered⟩, hacross⟩
    exact ⟨hleft, hordered, fun a ha => (hacross a ha).1, hright, fun a ha => (hacross a ha).2⟩
  · rintro ⟨hleft, hordered, hbelow, hright, hacross⟩
    exact ⟨hleft, ⟨hright, hordered⟩, fun a ha => ⟨hbelow a ha, hacross a ha⟩⟩

theorem exists_of_hasRightChild (hchild : node.hasRightChild cmp e = true) : ∃ a ∈ node.elems, cmp e a = 0 := by
  induction node with
  | null => simp [hasRightChild] at hchild
  | node elem left right ihl ihr =>
    simp only [hasRightChild, Bool.or_eq_true, Bool.and_eq_true, decide_eq_true_eq] at hchild
    rcases hchild with (⟨heq, -⟩ | hleft) | hright
    · exact ⟨elem, by simp [elems], heq⟩
    · obtain ⟨a, ha, heq⟩ := ihl hleft
      exact ⟨a, by simp [elems, ha], heq⟩
    · obtain ⟨a, ha, heq⟩ := ihr hright
      exact ⟨a, by simp [elems, ha], heq⟩

/-- Looking up in a null pointer finds nothing, so the tests for it make no difference. -/
theorem lookup_node : (Node.node elem left right).lookup cmp x =
    if cmp x elem = 0 then some elem else if cmp x elem < 0 then left.lookup cmp x else right.lookup cmp x := by
  cases left <;> cases right <;> simp [lookup, isNull]

section Ordered

variable (hcmp : TotalCmp cmp) (hordered : node.Ordered cmp)

include hcmp hordered

theorem ordered_add (hnode : node ≠ .null) (hchild : node.hasRightChild cmp e = false) :
    (node.add cmp e).1.Ordered cmp := by
  induction node with
  | null => exact absurd rfl hnode
  | node elem left right ihl ihr =>
    obtain ⟨hleftOrd, hrightOrd, hbelow, habove, hacross⟩ := ordered_node.mp hordered
    simp only [hasRightChild, Bool.or_eq_false_iff, Bool.and_eq_false_imp, decide_eq_true_eq] at hchild
    obtain ⟨⟨hhere, hleftChild⟩, hrightChild⟩ := hchild
    rcases add_cases cmp e elem left right with ⟨hadd, -, -⟩ | ⟨hlt, rfl, hadd⟩ | ⟨hlt, hleft, hadd⟩ |
      ⟨hle, rfl, hne, hadd⟩ | ⟨hle, hright, hadd⟩
    · rw [hadd]
      exact hordered
    · rw [hadd, ordered_node]
      refine ⟨pairwise_singleton _ _, hrightOrd, by simpa using hlt, habove, ?_⟩
      simp only [elems_new, mem_singleton, forall_eq]
      exact fun b hb => hcmp.lt_trans hlt (habove b hb)
    · rw [hadd, ordered_node]
      -- What is in the left subtree now was there before or is the new element.
      have hmem : ∀ a ∈ (left.add cmp e).1.elems, a = e ∨ a ∈ left.elems := by
        intro a ha
        rcases elems_add cmp e hleft with ⟨-, hperm, -⟩ | ⟨-, hsame, -⟩
        · exact mem_cons.mp (hperm.mem_iff.mp ha)
        · exact .inr (hsame ▸ ha)
      refine ⟨ihl hleftOrd hleft hleftChild, hrightOrd, fun a ha => ?_, habove, fun a ha b hb => ?_⟩
      · rcases hmem a ha with rfl | hold
        · exact hlt
        · exact hbelow a hold
      · rcases hmem a ha with rfl | hold
        · exact hcmp.lt_trans hlt (habove b hb)
        · exact hacross a hold b hb
    · have hgt : cmp elem e < 0 := by
        rw [hcmp.lt_iff]
        have hzero := hcmp.eq_iff (a := elem) (b := e)
        omega
      rw [hadd, ordered_node]
      refine ⟨hleftOrd, pairwise_singleton _ _, hbelow, by simpa using hgt, ?_⟩
      simp only [elems_new, mem_singleton, forall_eq]
      exact fun a ha => hcmp.lt_trans (hbelow a ha) hgt
    · have hgt : cmp elem e < 0 := by
        rw [hcmp.lt_iff]
        have hne : cmp e elem ≠ 0 := fun heq => by simpa [hright] using hhere heq
        omega
      rw [hadd, ordered_node]
      have hmem : ∀ b ∈ (right.add cmp e).1.elems, b = e ∨ b ∈ right.elems := by
        intro b hb
        rcases elems_add cmp e hright with ⟨-, hperm, -⟩ | ⟨-, hsame, -⟩
        · exact mem_cons.mp (hperm.mem_iff.mp hb)
        · exact .inr (hsame ▸ hb)
      refine ⟨hleftOrd, ihr hrightOrd hright hrightChild, hbelow, fun b hb => ?_, fun a ha b hb => ?_⟩
      · rcases hmem b hb with rfl | hold
        · exact hgt
        · exact habove b hold
      · rcases hmem b hb with rfl | hold
        · exact hcmp.lt_trans (hbelow a ha) hgt
        · exact hacross a ha b hold

/-- An element whose equal has a right child is added although it is in the tree. -/
theorem added_of_hasRightChild (hchild : node.hasRightChild cmp e = true) : (node.add cmp e).2 = true := by
  induction node with
  | null => simp [hasRightChild] at hchild
  | node elem left right ihl ihr =>
    obtain ⟨hleftOrd, hrightOrd, hbelow, habove, -⟩ := ordered_node.mp hordered
    -- The way of `add` is towards the equal of `e`.
    have hside : cmp e elem = 0 ∧ right ≠ .null ∨ cmp e elem < 0 ∧ left.hasRightChild cmp e = true ∨
        cmp elem e < 0 ∧ right.hasRightChild cmp e = true := by
      simp only [hasRightChild, Bool.or_eq_true, Bool.and_eq_true, decide_eq_true_eq,
        Bool.not_eq_true', isNull_eq_false] at hchild
      rcases hchild with (hhere | hleft) | hright
      · exact .inl hhere
      · obtain ⟨a, ha, heq⟩ := exists_of_hasRightChild hleft
        exact .inr (.inl ⟨hcmp.lt_of_le_of_lt (by omega) (hbelow a ha), hleft⟩)
      · obtain ⟨b, hb, heq⟩ := exists_of_hasRightChild hright
        have heq' := hcmp.eq_iff.mp heq
        exact .inr (.inr ⟨hcmp.lt_of_lt_of_le (habove b hb) (by omega), hright⟩)
    have hnull : (Node.null : Node α).hasRightChild cmp e = false := rfl
    rcases add_cases cmp e elem left right with ⟨-, heq, hend⟩ | ⟨-, -, hadd⟩ | ⟨hlt, -, hadd⟩ |
      ⟨-, -, -, hadd⟩ | ⟨hle, hright, hadd⟩
    · exfalso
      have heq' := hcmp.eq_iff.mp heq
      rcases hside with ⟨-, hright⟩ | ⟨hlt, -⟩ | ⟨hgt, -⟩
      · rcases hend with hlt | rfl
        · omega
        · exact hright rfl
      · omega
      · omega
    · rw [hadd]
    · rw [hadd]
      rcases hside with ⟨heq, -⟩ | ⟨-, hchild⟩ | ⟨hgt, -⟩
      · omega
      · exact ihl hleftOrd hchild
      · have := hcmp.lt_iff.mp hgt
        omega
    · rw [hadd]
    · rw [hadd]
      rcases hside with ⟨heq, -⟩ | ⟨hlt, -⟩ | ⟨-, hchild⟩
      · -- Everything to the right is greater, so nothing equal is met any more.
        rcases elems_add cmp e hright with ⟨htrue, -⟩ | ⟨-, -, b, hb, hbe⟩
        · exact htrue
        · have hlt := hcmp.lt_of_le_of_lt (by omega : cmp e elem ≤ 0) (habove b hb)
          have := hcmp.lt_iff.mp hlt
          omega
      · omega
      · exact ihr hrightOrd hchild

theorem lookup_eq_some_iff {a : α} : node.lookup cmp x = some a ↔ a ∈ node.elems ∧ cmp x a = 0 := by
  induction node with
  | null => simp [lookup, elems]
  | node elem left right ihl ihr =>
    obtain ⟨hleftOrd, hrightOrd, hbelow, habove, -⟩ := ordered_node.mp hordered
    have hleft : ¬ cmp x elem < 0 → a ∈ left.elems → cmp x a ≠ 0 := by
      intro hle ha heq
      exact hle (hcmp.lt_of_le_of_lt (by omega) (hbelow a ha))
    have hright : cmp x elem ≤ 0 → a ∈ right.elems → cmp x a ≠ 0 := by
      intro hle ha heq
      have hlt := hcmp.lt_of_le_of_lt hle (habove a ha)
      omega
    rw [lookup_node, elems, mem_append, mem_cons]
    by_cases heq : cmp x elem = 0
    · rw [if_pos heq, Option.some.injEq]
      constructor
      · rintro rfl
        exact ⟨.inr (.inl rfl), heq⟩
      · rintro ⟨ha | rfl | ha, hxa⟩
        · exact absurd hxa (hleft (by omega) ha)
        · rfl
        · exact absurd hxa (hright (by omega) ha)
    · rw [if_neg heq]
      by_cases hlt : cmp x elem < 0
      · rw [if_pos hlt, ihl hleftOrd]
        constructor
        · rintro ⟨ha, hxa⟩
          exact ⟨.inl ha, hxa⟩
        · rintro ⟨ha | rfl | ha, hxa⟩
          · exact ⟨ha, hxa⟩
          · exact absurd hxa heq
          · exact absurd hxa (hright (by omega) ha)
      · rw [if_neg hlt, ihr hrightOrd]
        constructor
        · rintro ⟨ha, hxa⟩
          exact ⟨.inr (.inr ha), hxa⟩
        · rintro ⟨ha | rfl | ha, hxa⟩
          · exact absurd hxa (hleft hlt ha)
          · exact absurd hxa heq
          · exact ⟨ha, hxa⟩

end Ordered

end Node

/-! ### Sequences of additions -/

theorem addAll_append (cmp : α → α → Int) (es : List α) (e : α) : addAll cmp (es ++ [e]) = (addAll cmp es).add e := by
  simp [addAll]

theorem cmp_add : (set.add e).cmp = set.cmp := by
  unfold add
  split
  · rfl
  · dsimp only
    split <;> rfl

theorem root_add : (set.add e).root = if set.root.isNull then .new e else (set.root.add set.cmp e).1 := by
  unfold add
  split
  · rfl
  · dsimp only
    split <;> rfl

@[simp]
theorem cmp_addAll (cmp : α → α → Int) (es : List α) : (addAll cmp es).cmp = cmp := by
  induction es using reverseRecOn with
  | nil => rfl
  | append_singleton es e ih => rw [addAll_append, cmp_add, ih]

theorem size_addAll (cmp : α → α → Int) (es : List α) : (addAll cmp es).size = (addAll cmp es).root.elems.length := by
  induction es using reverseRecOn with
  | nil => rfl
  | append_singleton es e ih =>
    rw [addAll_append, add]
    by_cases hnull : (addAll cmp es).root = .null
    · simp [hnull, Node.isNull]
    · rw [if_neg (by simpa using hnull)]
      rw [cmp_addAll]
      rcases Node.elems_add cmp e hnull with ⟨htrue, hperm, -⟩ | ⟨hfalse, hsame, -⟩
      · simp [htrue, ih, hperm.length_eq]
      · simp [hfalse, ih, hsame]

theorem exists_elems_addAll (hcmp : TotalCmp cmp) (es : List α) (x : α) :
    (∃ a ∈ (addAll cmp es).root.elems, cmp a x = 0) ↔ ∃ e ∈ es, cmp e x = 0 := by
  induction es using reverseRecOn with
  | nil => simp [addAll, init, Node.elems]
  | append_singleton es e ih =>
    rw [addAll_append, root_add, cmp_addAll]
    by_cases hnull : (addAll cmp es).root = .null
    · rw [hnull] at ih ⊢
      simp only [Node.elems, not_mem_nil, false_and, exists_false, false_iff] at ih
      simp only [Node.isNull, if_true, Node.elems_new, mem_append, mem_singleton]
      constructor
      · rintro ⟨a, rfl, heq⟩
        exact ⟨a, .inr rfl, heq⟩
      · rintro ⟨a, ha | rfl, heq⟩
        · exact absurd ⟨a, ha, heq⟩ ih
        · exact ⟨a, rfl, heq⟩
    · rw [if_neg (by simpa using hnull), Node.exists_elems_add hcmp hnull, ih]
      simp only [mem_append, mem_singleton, or_and_right, exists_or, exists_eq_left]

theorem elems_sublist_addAll (cmp : α → α → Int) (before after : List α) :
    (addAll cmp before).root.elems.Sublist (addAll cmp (before ++ after)).root.elems := by
  induction after using reverseRecOn with
  | nil => simp
  | append_singleton after e ih =>
    rw [← append_assoc, addAll_append, root_add]
    refine ih.trans ?_
    split
    · rename_i hnull
      simp [(Node.isNull_eq_true.mp hnull), Node.elems]
    · exact Node.elems_sublist_add _ _ _

/-- After the calls the counter is the number of distinct elements, the tree has each of them in one node
and in order, and what is found is what has been added. -/
structure SetRight (cmp : α → α → Int) (es : List α) (set : OrderedSet α) : Prop where
  size : set.size = (distinct cmp es).length
  ordered : set.root.Ordered cmp
  elems : ∀ x, (∃ a ∈ set.root.elems, cmp a x = 0) ↔ ∃ e ∈ es, cmp e x = 0
  lookup : ∀ x, (set.lookup x).isSome = true ↔ ∃ e ∈ es, cmp e x = 0
  found : ∀ x a, set.lookup x = some a → cmp a x = 0

theorem setRight_iff_ordered (hcmp : TotalCmp cmp) (es : List α) :
    SetRight cmp es (addAll cmp es) ↔ (addAll cmp es).root.Ordered cmp := by
  refine ⟨SetRight.ordered, fun hordered => ?_⟩
  have hlookup : ∀ x, (addAll cmp es).lookup x = (addAll cmp es).root.lookup cmp x := by
    intro x
    unfold lookup
    split
    · rename_i hnull
      rw [Node.isNull_eq_true.mp hnull]
      rfl
    · rw [cmp_addAll]
  refine ⟨?_, hordered, exists_elems_addAll hcmp es, fun x => ?_, fun x a hfound => ?_⟩
  · rw [size_addAll]
    exact length_eq_length_distinct hcmp hordered (exists_elems_addAll hcmp es)
  · rw [hlookup, Option.isSome_iff_exists, ← exists_elems_addAll hcmp es x]
    simp only [Node.lookup_eq_some_iff hcmp hordered, hcmp.eq_iff (a := x)]
  · rw [hlookup, Node.lookup_eq_some_iff hcmp hordered] at hfound
    exact hcmp.eq_iff.mp hfound.2

theorem ordered_add_iff (hcmp : TotalCmp cmp) {es : List α} (hordered : (addAll cmp es).root.Ordered cmp) :
    (addAll cmp (es ++ [e])).root.Ordered cmp ↔ (addAll cmp es).root.hasRightChild cmp e = false := by
  rw [addAll_append, root_add, cmp_addAll]
  by_cases hnull : (addAll cmp es).root = .null
  · simp [hnull, Node.isNull, Node.hasRightChild, Node.Ordered]
  · rw [if_neg (by simpa using hnull)]
    constructor
    · intro hordered'
      by_contra hchild
      rw [Bool.not_eq_false] at hchild
      obtain ⟨a, ha, heq⟩ := Node.exists_of_hasRightChild hchild
      have hadded := Node.added_of_hasRightChild hcmp hordered hchild
      rcases Node.elems_add cmp e hnull with ⟨-, hperm, -⟩ | ⟨hfalse, -⟩
      · -- The new element and its equal are both in the tree.
        have hne : (e :: (addAll cmp es).root.elems).Pairwise fun a b => cmp a b ≠ 0 := by
          refine hperm.pairwise (hordered'.imp fun hlt hzero => by omega) ?_
          intro a b hab hba
          exact hab (hcmp.eq_iff.mp hba)
        exact (pairwise_cons.mp hne).1 a ha heq
      · rw [hadded] at hfalse
        simp at hfalse
    · exact Node.ordered_add hcmp hordered hnull

theorem orderedSet_right_iff (hcmp : TotalCmp cmp) (es : List α) :
    SetRight cmp es (addAll cmp es) ↔
      ∀ before e after, es = before ++ e :: after → (addAll cmp before).root.hasRightChild cmp e = false := by
  rw [setRight_iff_ordered hcmp]
  constructor
  · rintro hordered before e after rfl
    have hsub : ∀ first second, before ++ e :: after = first ++ second →
        (addAll cmp first).root.Ordered cmp := by
      rintro first second heq
      rw [heq] at hordered
      exact hordered.sublist (elems_sublist_addAll cmp first second)
    exact (ordered_add_iff hcmp (hsub before (e :: after) rfl)).mp (hsub (before ++ [e]) after (by simp))
  · intro hfine
    induction es using reverseRecOn with
    | nil => exact List.Pairwise.nil
    | append_singleton es e ih =>
      have hbefore := ih fun before e' after heq => hfine before e' (after ++ [e]) (by simp [heq])
      exact (ordered_add_iff hcmp hbefore).mpr (hfine es e [] rfl)

theorem totalCmp_sub : TotalCmp fun a b : Int => a - b where
  swap a b := by
    rw [← Int.sign_neg]
    congr 1
    omega
  trans a b c hab hbc := by omega

/-- 2 is added once more, with nothing to its right. -/
theorem orderedSet_two_one_two :
    SetRight (fun a b : Int => a - b) [2, 1, 2] (addAll (fun a b => a - b) [2, 1, 2]) := by
  refine (orderedSet_right_iff totalCmp_sub [2, 1, 2]).mpr fun before e after heq => ?_
  rcases before with _ | ⟨first, _ | ⟨second, _ | ⟨third, rest⟩⟩⟩
  all_goals simp only [nil_append, cons_append, cons.injEq] at heq
  · obtain ⟨rfl, -⟩ := heq
    rfl
  · obtain ⟨rfl, rfl, -⟩ := heq
    rfl
  · obtain ⟨rfl, rfl, rfl, -⟩ := heq
    rfl
  · simp at heq

/-- 1 is in the tree with 2 to its right when it is added once more. -/
theorem orderedSet_one_two_one :
    (addAll (fun a b : Int => a - b) [1, 2, 1]).size = 3 ∧
      (addAll (fun a b : Int => a - b) [1, 2, 1]).root.elems = [1, 1, 2] ∧
      ¬ SetRight (fun a b : Int => a - b) [1, 2, 1] (addAll (fun a b => a - b) [1, 2, 1]) := by
  refine ⟨rfl, rfl, fun hright => ?_⟩
  have hsize := hright.size
  revert hsize
  decide

end Lfmr.OrderedSet
