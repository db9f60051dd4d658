import Lfmr.TreeSet

/-!
# Search trees in memory

What each function of `set.c` does to the tree that a cursor leads to. A function that writes changes the
cursor it is given and cursors inside the tree only.
-/

namespace Lfmr.TreeSet

open Function Lfmr.Collections.SearchTree

variable {memory memory' : Memory} {cursor : Cursor} {elem : Elem} {fuel : Nat}
  {tree left right : BinaryTree (Addr × Elem)} {entry : Addr × Elem}

def Cursor.owner : Cursor → Option Addr
  | .root _ => none
  | .left node | .right node => some node

def Inside (cursor : Cursor) (nodes : List Addr) : Prop :=
  ∃ node ∈ nodes, cursor.owner = some node

theorem not_inside_root (set : SetAddr) (nodes : List Addr) : ¬ Inside (.root set) nodes := by
  rintro ⟨node, -, howner⟩
  cases howner

variable {nodes : List Addr} {node : Option Addr}

theorem inside_iff {node : Addr} (howner : cursor.owner = some node) : Inside cursor nodes ↔ node ∈ nodes := by
  constructor
  · rintro ⟨other, hmem, hother⟩
    rwa [Option.some.inj (howner.symm.trans hother)]
  · exact fun hmem => ⟨node, hmem, howner⟩

theorem Inside.mono {others : List Addr} (hinside : Inside cursor nodes) (hsubset : nodes ⊆ others) :
    Inside cursor others :=
  hinside.imp fun _ h => ⟨hsubset h.1, h.2⟩

structure Agree (memory memory' : Memory) (nodes : List Addr) : Prop where
  link : ∀ cursor, Inside cursor nodes → memory'.link cursor = memory.link cursor
  elem : ∀ node ∈ nodes, memory'.elem node = memory.elem node

theorem Agree.mono {others : List Addr} (hagree : Agree memory memory' others) (hsubset : nodes ⊆ others) :
    Agree memory memory' nodes :=
  ⟨fun cursor hinside => hagree.link cursor (hinside.mono hsubset), fun node hmem => hagree.elem node (hsubset hmem)⟩

theorem names_left_subset : names left ⊆ names (.node entry left right) := by
  rw [names_node]
  exact List.subset_append_left _ _

theorem names_right_subset : names right ⊆ names (.node entry left right) := by
  rw [names_node]
  exact fun node hmem => List.mem_append_right _ (List.mem_cons_of_mem _ hmem)

theorem exists_fuel {fuel : Nat} (hfuel : (names (.node entry left right)).length < fuel) :
    ∃ rest, fuel = rest + 1 ∧ (names left).length < rest ∧ (names right).length < rest := by
  rw [names_node, List.length_append, List.length_cons] at hfuel
  exact ⟨fuel - 1, by omega, by omega, by omega⟩

theorem name_mem_node : entry.1 ∈ names (.node entry left right) := by
  rw [names_node]
  exact List.mem_append_right _ List.mem_cons_self

theorem nodup_node (hnodup : (names (.node entry left right)).Nodup) :
    (names left).Nodup ∧ (names right).Nodup ∧ entry.1 ∉ names left ∧ entry.1 ∉ names right ∧
      (names left).Disjoint (names right) := by
  rw [names_node, List.nodup_append, List.nodup_cons] at hnodup
  obtain ⟨hleft, ⟨hright, hnodup⟩, hdisjoint⟩ := hnodup
  refine ⟨hleft, hnodup, fun hmem => ?_, hright, fun node hmem hmem' => ?_⟩
  · exact hdisjoint entry.1 hmem entry.1 List.mem_cons_self rfl
  · exact hdisjoint node hmem node (List.mem_cons_of_mem _ hmem') rfl

theorem Holds.redirect {source : Cursor} (hholds : Holds memory source tree)
    (hlink : memory'.link cursor = memory.link source) (hagree : Agree memory memory' (names tree)) :
    Holds memory' cursor tree := by
  induction tree generalizing cursor source with
  | nil => exact hlink.trans hholds
  | node entry left right ihl ihr =>
    obtain ⟨hroot, helem, hleft, hright⟩ := hholds
    have hname : entry.1 ∈ names (.node entry left right) := name_mem_node
    refine ⟨hlink.trans hroot, (hagree.elem _ hname).trans helem, ?_, ?_⟩
    · exact ihl hleft (hagree.link _ ((inside_iff rfl).mpr hname)) (hagree.mono names_left_subset)
    · exact ihr hright (hagree.link _ ((inside_iff rfl).mpr hname)) (hagree.mono names_right_subset)

theorem Holds.unique {other : BinaryTree (Addr × Elem)} (hholds : Holds memory cursor tree)
    (hother : Holds memory cursor other) : tree = other := by
  induction tree generalizing cursor other with
  | nil =>
    cases other with
    | nil => rfl
    | node entry left right => exact absurd (hholds.symm.trans hother.1) (by simp)
  | node entry left right ihl ihr =>
    cases other with
    | nil => exact absurd (hother.symm.trans hholds.1) (by simp)
    | node entry' left' right' =>
      obtain ⟨hroot, helem, hleft, hright⟩ := hholds
      obtain ⟨hroot', helem', hleft', hright'⟩ := hother
      have hname : entry.1 = entry'.1 := Option.some.inj (hroot.symm.trans hroot')
      have hentry : entry = entry' := Prod.ext hname (by rw [← helem, ← helem', hname])
      subst hentry
      rw [ihl hleft hleft', ihr hright hright']

theorem Holds.elem_of_mem (hholds : Holds memory cursor tree) (hmem : entry ∈ entries tree) :
    memory.elem entry.1 = entry.2 := by
  induction tree generalizing cursor with
  | nil => exact absurd hmem List.not_mem_nil
  | node root left right ihl ihr =>
    obtain ⟨-, helem, hleft, hright⟩ := hholds
    rcases List.mem_append.mp hmem with hmem | hmem
    · exact ihl hleft hmem
    · rcases List.mem_cons.mp hmem with rfl | hmem
      · exact helem
      · exact ihr hright hmem

@[simp]
theorem write_elem : (memory.write cursor node).elem = memory.elem := rfl

@[simp]
theorem write_link_self : (memory.write cursor node).link cursor = node :=
  update_self ..

theorem write_link_of_ne {other : Cursor} (hne : other ≠ cursor) :
    (memory.write cursor node).link other = memory.link other :=
  update_of_ne hne ..

theorem Agree.refl (memory : Memory) (nodes : List Addr) : Agree memory memory nodes :=
  ⟨fun _ _ => rfl, fun _ _ => rfl⟩

theorem Agree.write (hagree : Agree memory memory' nodes)
    (hout : ¬ Inside cursor nodes) : Agree memory (memory'.write cursor node) nodes := by
  refine ⟨fun other hinside => ?_, hagree.elem⟩
  have hne : other ≠ cursor := fun heq => hout (heq ▸ hinside)
  rw [write_link_of_ne hne]
  exact hagree.link other hinside

/-! ### The way to an element -/

theorem names_found_subset (elem : Elem) (tree : BinaryTree (Addr × Elem)) : names (found elem tree) ⊆ names tree := by
  induction tree with
  | nil => exact fun _ h => h
  | node entry left right ihl ihr =>
    rw [found]
    split
    · exact fun _ h => h
    · split
      · exact List.Subset.trans ihl names_left_subset
      · exact List.Subset.trans ihr names_right_subset

/-- What `search` leads to: the cursor of the subtree at which the way to the element ends. If another
tree is put there and the rest is left as it is, the whole tree is changed accordingly. -/
structure Reached (memory : Memory) (start : Cursor) (elem : Elem) (tree : BinaryTree (Addr × Elem))
    (cursor : Cursor) : Prop where
  place : cursor = start ∨ Inside cursor (names tree)
  outside : ¬ Inside cursor (names (found elem tree))
  holds : Holds memory cursor (found elem tree)
  put : ∀ memory' new, Holds memory' cursor new →
    (∀ other, other = start ∨ Inside other (names tree) → other ≠ cursor →
      ¬ Inside other (names (found elem tree)) → memory'.link other = memory.link other) →
    (∀ node ∈ names tree, node ∉ names (found elem tree) → memory'.elem node = memory.elem node) →
    Holds memory' start (replace elem new tree)

structure Branch (memory : Memory) (start child sibling : Cursor) (entry : Addr × Elem)
    (sub rest : BinaryTree (Addr × Elem)) (nodes : List Addr) : Prop where
  hroot : memory.link start = some entry.1
  helem : memory.elem entry.1 = entry.2
  hstart : ¬ Inside start nodes
  hname : entry.1 ∈ nodes
  hchild : child.owner = some entry.1
  hsibling : sibling.owner = some entry.1
  hne : sibling ≠ child
  hsub : names sub ⊆ nodes
  hrest : names rest ⊆ nodes
  hdisjoint : (names sub).Disjoint (names rest)
  hname_sub : entry.1 ∉ names sub
  hname_rest : entry.1 ∉ names rest
  hholds : Holds memory sibling rest

section

variable (hholds : Holds memory cursor (.node entry left right))
  (hout : ¬ Inside cursor (names (.node entry left right))) (hnodup : (names (.node entry left right)).Nodup)
include hholds hout hnodup

theorem branch_left :
    Branch memory cursor (.left entry.1) (.right entry.1) entry left right (names (.node entry left right)) := by
  obtain ⟨hroot, helem, -, hright⟩ := hholds
  obtain ⟨-, -, hnotl, hnotr, hdisjoint⟩ := nodup_node hnodup
  exact ⟨hroot, helem, hout, name_mem_node, rfl, rfl, by simp, names_left_subset,
    names_right_subset, hdisjoint, hnotl, hnotr, hright⟩

theorem branch_right :
    Branch memory cursor (.right entry.1) (.left entry.1) entry right left (names (.node entry left right)) := by
  obtain ⟨hroot, helem, hleft, -⟩ := hholds
  obtain ⟨-, -, hnotl, hnotr, hdisjoint⟩ := nodup_node hnodup
  exact ⟨hroot, helem, hout, name_mem_node, rfl, rfl, by simp, names_right_subset,
    names_left_subset, hdisjoint.symm, hnotr, hnotl, hleft⟩

end

namespace Branch

variable {start child sibling : Cursor} {sub rest new : BinaryTree (Addr × Elem)} {nodes : List Addr}

theorem apart (hbranch : Branch memory start child sibling entry sub rest nodes)
    (hplace : cursor = child ∨ Inside cursor (names sub)) :
    Inside cursor nodes ∧ sibling ≠ cursor ∧ ¬ Inside cursor (names rest) := by
  rcases hplace with rfl | hinside
  · refine ⟨(inside_iff hbranch.hchild).mpr hbranch.hname, hbranch.hne, fun hin => ?_⟩
    exact hbranch.hname_rest ((inside_iff hbranch.hchild).mp hin)
  · refine ⟨hinside.mono hbranch.hsub, ?_, ?_⟩
    · rintro rfl
      exact hbranch.hname_sub ((inside_iff hbranch.hsibling).mp hinside)
    · rintro ⟨node, hmem, howner⟩
      exact hbranch.hdisjoint ((inside_iff howner).mp hinside) hmem

theorem put (hbranch : Branch memory start child sibling entry sub rest nodes)
    (hreached : Reached memory child elem sub cursor) (hnew : Holds memory' cursor new)
    (hlink : ∀ other, other = start ∨ Inside other nodes → other ≠ cursor →
      ¬ Inside other (names (found elem sub)) → memory'.link other = memory.link other)
    (helem : ∀ node ∈ nodes, node ∉ names (found elem sub) → memory'.elem node = memory.elem node) :
    memory'.link start = some entry.1 ∧ memory'.elem entry.1 = entry.2 ∧
      Holds memory' child (replace elem new sub) ∧ Holds memory' sibling rest := by
  obtain ⟨hinside, hsibling, hrest⟩ := hbranch.apart hreached.place
  have hsubset := names_found_subset elem sub
  have hname : entry.1 ∉ names (found elem sub) := fun hmem => hbranch.hname_sub (hsubset hmem)
  refine ⟨?_, (helem _ hbranch.hname hname).trans hbranch.helem, ?_, ?_⟩
  · refine (hlink start (.inl rfl) (fun heq => ?_) fun hin => ?_).trans hbranch.hroot
    · exact hbranch.hstart (heq ▸ hinside)
    · exact hbranch.hstart (hin.mono (List.Subset.trans hsubset hbranch.hsub))
  · refine hreached.put memory' new hnew (fun other hother hne hout => ?_) fun node hmem hout => ?_
    · exact hlink other (.inr (hbranch.apart hother).1) hne hout
    · exact helem node (hbranch.hsub hmem) hout
  · refine hbranch.hholds.redirect (hlink sibling (.inr ?_) hsibling ?_) ⟨fun other hother => ?_, fun node hmem => ?_⟩
    · exact (inside_iff hbranch.hsibling).mpr hbranch.hname
    · exact fun hin => hname ((inside_iff hbranch.hsibling).mp hin)
    · refine hlink other (.inr (hother.mono hbranch.hrest)) (fun heq => hrest (heq ▸ hother)) ?_
      rintro ⟨node, hmem, howner⟩
      exact hbranch.hdisjoint (hsubset hmem) ((inside_iff howner).mp hother)
    · exact helem node (hbranch.hrest hmem) fun hin => hbranch.hdisjoint (hsubset hin) hmem

theorem reached (hbranch : Branch memory start child sibling entry sub rest (names tree))
    (hreached : Reached memory child elem sub cursor) (hfound : found elem tree = found elem sub)
    (hreplace : ∀ {memory'} new, memory'.link start = some entry.1 ∧ memory'.elem entry.1 = entry.2 ∧
      Holds memory' child (replace elem new sub) ∧ Holds memory' sibling rest →
      Holds memory' start (replace elem new tree)) : Reached memory start elem tree cursor := by
  refine ⟨.inr (hbranch.apart hreached.place).1, hfound ▸ hreached.outside, hfound ▸ hreached.holds,
    fun memory' new hnew hlink helem => ?_⟩
  rw [hfound] at hlink helem
  exact hreplace new (hbranch.put hreached hnew hlink helem)

end Branch

theorem search_spec (hholds : Holds memory cursor tree) (hnodup : (names tree).Nodup)
    (hout : ¬ Inside cursor (names tree)) (hfuel : (names tree).length < fuel) :
    ∃ place, search memory elem fuel cursor = some place ∧ Reached memory cursor elem tree place := by
  induction tree generalizing cursor fuel with
  | nil =>
    obtain ⟨fuel, rfl⟩ := Nat.exists_eq_add_of_lt hfuel
    refine ⟨cursor, ?_, .inl rfl, hout, hholds, fun memory' new hnew _ _ => hnew⟩
    have hlink : memory.link cursor = none := hholds
    simp [search, hlink]
  | node entry left right ihl ihr =>
    obtain ⟨fuel, rfl, hfuell, hfuelr⟩ := exists_fuel hfuel
    obtain ⟨hnodupl, hnodupr, hnotl, hnotr, -⟩ := nodup_node hnodup
    have hbranchl := branch_left hholds hout hnodup
    have hbranchr := branch_right hholds hout hnodup
    obtain ⟨hroot, helem, hleft, hright⟩ := hholds
    rw [search, hroot]
    dsimp only
    rw [helem]
    by_cases heq : entry.2 = elem
    · rw [if_pos heq]
      have hfound : found elem (.node entry left right) = .node entry left right := by simp [found, heq]
      refine ⟨cursor, rfl, .inl rfl, ?_, ?_, ?_⟩
      · rwa [hfound]
      · rw [hfound]
        exact ⟨hroot, helem, hleft, hright⟩
      · intro memory' new hnew _ _
        simpa [replace, heq] using hnew
    · rw [if_neg heq]
      by_cases hlt : elem < entry.2
      · rw [if_pos hlt]
        obtain ⟨place, hsearch, hreached⟩ := ihl hleft hnodupl (fun hin => hnotl ((inside_iff rfl).mp hin)) hfuell
        refine ⟨place, hsearch, hbranchl.reached hreached (by simp [found, heq, hlt]) fun new hput => ?_⟩
        simp only [replace, heq, hlt, if_true, if_false]
        exact hput
      · rw [if_neg hlt]
        obtain ⟨place, hsearch, hreached⟩ := ihr hright hnodupr (fun hin => hnotr ((inside_iff rfl).mp hin)) hfuelr
        refine ⟨place, hsearch, hbranchr.reached hreached (by simp [found, heq, hlt]) fun new hput => ?_⟩
        obtain ⟨hroot', helem', hchild, hsibling⟩ := hput
        simp only [replace, heq, hlt, if_false]
        exact ⟨hroot', helem', hsibling, hchild⟩

/-! ### Adding -/

theorem addNode_link_of_ne {other : Cursor} (hne : other ≠ cursor) (howner : other.owner ≠ some memory.nodes) :
    (addNode memory cursor elem).link other = memory.link other := by
  have hleft : other ≠ .left memory.nodes := fun heq => howner (heq ▸ rfl)
  have hright : other ≠ .right memory.nodes := fun heq => howner (heq ▸ rfl)
  simp only [addNode, nodeMk]
  rw [write_link_of_ne hne, write_link_of_ne hright, write_link_of_ne hleft]

theorem addNode_elem_of_ne {node : Addr} (hne : node ≠ memory.nodes) :
    (addNode memory cursor elem).elem node = memory.elem node :=
  update_of_ne hne ..

theorem addNode_elem_self : (addNode memory cursor elem).elem memory.nodes = elem := update_self ..

theorem addNode_link_self : (addNode memory cursor elem).link cursor = some memory.nodes := write_link_self

theorem addNode_link_new {side : Cursor} (howner : side.owner = some memory.nodes)
    (hcursor : cursor.owner ≠ some memory.nodes) : (addNode memory cursor elem).link side = none := by
  have hne : side ≠ cursor := fun heq => hcursor (heq ▸ howner)
  simp only [addNode, nodeMk]
  rw [write_link_of_ne hne]
  cases side with
  | root set => cases howner
  | left node =>
    cases howner
    rw [write_link_of_ne (by simp), write_link_self]
  | right node =>
    cases howner
    rw [write_link_self]

theorem holds_addNode (hcursor : cursor.owner ≠ some memory.nodes) :
    Holds (addNode memory cursor elem) cursor (.node (memory.nodes, elem) .nil .nil) :=
  ⟨addNode_link_self, addNode_elem_self, addNode_link_new rfl hcursor, addNode_link_new rfl hcursor⟩

/-! ### Removing -/

structure Elsewhere (memory memory' : Memory) (cursor : Cursor) (nodes : List Addr) : Prop where
  link : ∀ other, other ≠ cursor → ¬ Inside other nodes → memory'.link other = memory.link other
  elem : memory'.elem = memory.elem
  nodes : memory'.nodes = memory.nodes
  sets : memory'.sets = memory.sets

theorem Elsewhere.agree {others : List Addr} (helse : Elsewhere memory memory' cursor nodes)
    (hcursor : ¬ Inside cursor others) (hdisjoint : nodes.Disjoint others) : Agree memory memory' others := by
  refine ⟨fun other hother => helse.link other (fun heq => hcursor (heq ▸ hother)) ?_, fun node _ => by rw [helse.elem]⟩
  rintro ⟨node, hmem, howner⟩
  exact hdisjoint hmem ((inside_iff howner).mp hother)

theorem extractMin_spec (entry : Addr × Elem) (left right : BinaryTree (Addr × Elem))
    (hholds : Holds memory cursor (.node entry left right))
    (hnodup : (names (.node entry left right)).Nodup) (hout : ¬ Inside cursor (names (.node entry left right)))
    (hfuel : (names (.node entry left right)).length < fuel) :
    ∃ memory', extractMin memory fuel cursor =
        some ((Collections.SearchTree.extractMin entry left right).1.1, memory') ∧
      Holds memory' cursor (Collections.SearchTree.extractMin entry left right).2 ∧
      Elsewhere memory memory' cursor (names (.node entry left right)) := by
  induction left generalizing entry right cursor fuel with
  | nil =>
    obtain ⟨fuel, rfl, -⟩ := exists_fuel hfuel
    obtain ⟨hroot, -, hleft, hright⟩ := hholds
    have hlink : memory.link (.left entry.1) = none := hleft
    refine ⟨memory.write cursor (memory.link (.right entry.1)), ?_, ?_, ?_⟩
    · simp [extractMin, minCursor, hroot, hlink, Collections.SearchTree.extractMin]
    · exact hright.redirect write_link_self  ((Agree.refl _ _).write fun hin => hout (hin.mono names_right_subset))
    · exact ⟨fun other hne _ => write_link_of_ne hne, rfl, rfl, rfl⟩
  | node leftEntry left middle ih =>
    obtain ⟨fuel, rfl, hfuell, -⟩ := exists_fuel hfuel
    obtain ⟨hnodupl, -, hnotl, hnotr, hdisjoint⟩ := nodup_node hnodup
    obtain ⟨hroot, helem, hleft, hright⟩ := hholds
    obtain ⟨memory', hextract, hholds', helse⟩ := ih leftEntry middle hleft hnodupl
      (fun hin => hnotl ((inside_iff rfl).mp hin)) hfuell
    refine ⟨memory', ?_, ⟨?_, ?_, hholds', ?_⟩, ?_⟩
    · have hlink : memory.link (.left entry.1) = some leftEntry.1 := hleft.1
      simpa [extractMin, minCursor, hroot, hlink, Collections.SearchTree.extractMin] using hextract
    · refine (helse.link cursor (fun heq => hout ?_) fun hin => hout (hin.mono names_left_subset)).trans hroot
      rw [heq]
      exact (inside_iff rfl).mpr name_mem_node
    · rw [helse.elem]
      exact helem
    · refine hright.redirect (helse.link _ (by simp) fun hin => hnotl ((inside_iff rfl).mp hin)) ?_
      exact helse.agree (fun hin => hnotr ((inside_iff rfl).mp hin)) hdisjoint
    · refine { helse with link := fun other hne hnot => helse.link other (fun heq => hnot ?_) fun hin => hnot ?_ }
      · rw [heq]
        exact (inside_iff rfl).mpr name_mem_node
      · exact hin.mono names_left_subset

theorem names_extractMin (entry : Addr × Elem) (left right : BinaryTree (Addr × Elem)) :
    (Collections.SearchTree.extractMin entry left right).1.1 ::
      names (Collections.SearchTree.extractMin entry left right).2 = names (.node entry left right) :=
  congrArg (List.map Prod.fst) (entries_extractMin entry left right)

theorem removeNode_spec (hholds : Holds memory cursor (.node entry left right))
    (hnodup : (names (.node entry left right)).Nodup) (hout : ¬ Inside cursor (names (.node entry left right)))
    (hfuel : (names (.node entry left right)).length ≤ memory.nodes) :
    ∃ memory', removeNode memory cursor = some memory' ∧ Holds memory' cursor (removeRoot (.node entry left right)) ∧
      Elsewhere memory memory' cursor (names (.node entry left right)) := by
  obtain ⟨-, hnodupr, hnotl, hnotr, hdisjoint⟩ := nodup_node hnodup
  obtain ⟨hroot, -, hleft, hright⟩ := hholds
  have houtl : ¬ Inside cursor (names left) := fun hin => hout (hin.mono names_left_subset)
  have houtr : ¬ Inside cursor (names right) := fun hin => hout (hin.mono names_right_subset)
  cases right with
  | nil =>
    have hlink : memory.link (.right entry.1) = none := hright
    refine ⟨memory.write cursor (memory.link (.left entry.1)), by simp [removeNode, hroot, hlink], ?_, ?_⟩
    · exact hleft.redirect write_link_self ((Agree.refl _ _).write houtl)
    · exact ⟨fun other hne _ => write_link_of_ne hne, rfl, rfl, rfl⟩
  | node rightEntry middle right =>
    have hlink : memory.link (.right entry.1) = some rightEntry.1 := hright.1
    have hlength : (names (.node rightEntry middle right)).length < memory.turns := by
      rw [names_node, List.length_append, List.length_cons] at hfuel
      rw [Memory.turns]
      omega
    obtain ⟨memory', hextract, hrest, helse⟩ := extractMin_spec rightEntry middle right hright hnodupr
      (fun hin => hnotr ((inside_iff rfl).mp hin)) hlength
    have hnames := names_extractMin rightEntry middle right
    have hmin : memory.elem (Collections.SearchTree.extractMin rightEntry middle right).1.1 =
        (Collections.SearchTree.extractMin rightEntry middle right).1.2 := by
      refine hright.elem_of_mem ?_
      rw [← entries_extractMin]
      exact List.mem_cons_self
    rw [removeRoot]
    generalize Collections.SearchTree.extractMin rightEntry middle right = result at *
    obtain ⟨hfresh, -⟩ := List.nodup_cons.mp (hnames ▸ hnodupr)
    have hsubset : names result.2 ⊆ names (.node rightEntry middle right) :=
      fun node hmem => hnames ▸ List.mem_cons_of_mem _ hmem
    have hmem : result.1.1 ∈ names (.node rightEntry middle right) := hnames ▸ List.mem_cons_self
    have hout' : ∀ side, side.owner = some result.1.1 → side ≠ cursor := fun side howner heq =>
      houtr (heq ▸ (inside_iff howner).mpr hmem)
    refine ⟨((memory'.write (.left result.1.1) (memory'.link (.left entry.1))).write (.right result.1.1)
      (memory'.link (.right entry.1))).write cursor (some result.1.1), ?_, ⟨write_link_self, ?_, ?_, ?_⟩, ?_⟩
    · have hside : Cursor.right entry.1 ≠ .left result.1.1 := by simp
      simp [removeNode, hroot, hlink, hextract, write_link_of_ne hside]
    · rw [write_elem, write_elem, write_elem, helse.elem]
      exact hmin
    · refine hleft.redirect ?_ (((helse.agree ?_ hdisjoint.symm).write ?_).write ?_ |>.write houtl)
      · rw [write_link_of_ne (hout' _ rfl), write_link_of_ne (by simp), write_link_self]
        exact helse.link _ (by simp) fun hin => hnotr ((inside_iff rfl).mp hin)
      · exact fun hin => hnotl ((inside_iff rfl).mp hin)
      · exact fun hin => hdisjoint ((inside_iff rfl).mp hin) hmem
      · exact fun hin => hdisjoint ((inside_iff rfl).mp hin) hmem
    · refine hrest.redirect ?_ ((((Agree.refl _ _).write ?_).write ?_).write fun hin => houtr (hin.mono hsubset))
      · rw [write_link_of_ne (hout' _ rfl), write_link_self]
      · exact fun hin => hfresh ((inside_iff rfl).mp hin)
      · exact fun hin => hfresh ((inside_iff rfl).mp hin)
    · refine { helse with link := fun other hne hnot => ?_ }
      have hside : ∀ side, side.owner = some result.1.1 → other ≠ side := fun side howner heq =>
        hnot (heq ▸ ((inside_iff howner).mpr hmem).mono names_right_subset)
      rw [write_link_of_ne hne, write_link_of_ne (hside _ rfl), write_link_of_ne (hside _ rfl)]
      refine helse.link other (fun heq => hnot ?_) fun hin => hnot (hin.mono names_right_subset)
      rw [heq]
      exact (inside_iff rfl).mpr name_mem_node

end Lfmr.TreeSet
