import Mathlib.Data.List.NodupEquivFin
import Lfmr.Proof.TreeSetTraversal

/-!
# Calls to the functions of `set.c`

Each set is a search tree of nodes of its own, and each call does to its elements what it should do to a
finite set.
-/

namespace Lfmr.TreeSet

open Function Lfmr.Collections.SearchTree

variable {memory memory' : Memory} {contents contents' : Contents} {set : SetAddr} {elem : Elem}
  {members : Finset Elem} {tree new : BinaryTree (Addr × Elem)} {trees : SetAddr → BinaryTree (Addr × Elem)}

structure Stores (memory : Memory) (set : SetAddr) (tree : BinaryTree (Addr × Elem)) (members : Finset Elem) :
    Prop where
  holds : Holds memory (.root set) tree
  ordered : Ordered tree
  nodup : (names tree).Nodup
  nodes : ∀ node ∈ names tree, node < memory.nodes
  members : ∀ elem, elem ∈ elems tree ↔ elem ∈ members

structure Represents (memory : Memory) (contents : Contents) (trees : SetAddr → BinaryTree (Addr × Elem)) :
    Prop where
  sets : memory.sets = contents.length
  stores : ∀ set members, contents[set]? = some members → Stores memory set (trees set) members
  apart : ∀ set other members others, contents[set]? = some members → contents[other]? = some others → set ≠ other →
    (names (trees set)).Disjoint (names (trees other))

namespace Stores

section

variable (hstores : Stores memory set tree members)
include hstores

theorem frame (hlink : memory'.link (.root set) = memory.link (.root set))
    (hagree : Agree memory memory' (names tree)) (hnodes : memory.nodes ≤ memory'.nodes) :
    Stores memory' set tree members where
  holds := hstores.holds.redirect hlink hagree
  ordered := hstores.ordered
  nodup := hstores.nodup
  nodes node hmem := Nat.lt_of_lt_of_le (hstores.nodes node hmem) hnodes
  members := hstores.members

theorem length_lt_turns : (names tree).length < memory.turns := by
  have hsubset : names tree ⊆ List.range memory.nodes := fun node hmem => List.mem_range.mpr (hstores.nodes node hmem)
  have hlength := (hstores.nodup.subperm hsubset).length_le
  rw [List.length_range] at hlength
  exact Nat.lt_succ_of_le hlength

theorem mem_iff : elem ∈ members ↔ found elem tree ≠ .nil := by
  rw [← hstores.members, hstores.ordered.mem_iff]

theorem nodup_found (elem : Elem) : (names (found elem tree)).Nodup := by
  obtain ⟨before, after, heq, -⟩ := hstores.ordered.exists_around elem
  have hsublist : (entries (found elem tree)).Sublist (entries tree) := by
    rw [heq]
    exact (List.sublist_append_right _ _).trans (List.sublist_append_left _ _)
  exact hstores.nodup.sublist (hsublist.map _)

end

end Stores

namespace Represents

section

variable (hrep : Represents memory contents trees) (hset : contents[set]? = some members)
include hrep hset

theorem setElem_eq (elem : Elem) : setElem memory (some set) elem = some (decide (elem ∈ members)) := by
  have hstores := hrep.stores set members hset
  rw [setElem, elemLoop_spec hstores.holds hstores.ordered hstores.length_lt_turns]
  simp only [hstores.members]

theorem setSubset_eq {other : SetAddr} {others : Finset Elem} (hother : contents[other]? = some others) :
    setSubset memory (some set) (some other) = some (decide (members ⊆ others)) := by
  have hstores := hrep.stores set members hset
  rw [setSubset, nodeSubset_spec (hrep.setElem_eq hother) hstores.holds hstores.length_lt_turns]
  simp only [hstores.members, Finset.subset_iff]

theorem setEq_eq {other : SetAddr} {others : Finset Elem} (hother : contents[other]? = some others) :
    setEq memory (some set) (some other) = some (decide (members = others)) := by
  rw [setEq, hrep.setSubset_eq hset hother, hrep.setSubset_eq hother hset]
  by_cases hsubset : members ⊆ others
  · simp [hsubset, Finset.Subset.antisymm_iff]
  · simp [hsubset, Finset.Subset.antisymm_iff]

end

theorem setReduce_eq {β : Type} (f : Elem → β → β) (init : β) (hrep : Represents memory contents trees)
    (hset : contents[set]? = some members) :
    setReduce memory set f init = some ((members.sort (· ≤ ·)).foldl (fun acc elem => f elem acc) init) := by
  have hstores := hrep.stores set members hset
  have hordered : (elems (trees set)).Pairwise (· < ·) := hstores.ordered
  have hmembers : (elems (trees set)).toFinset = members := by
    ext elem
    rw [List.mem_toFinset, hstores.members]
  have hsort : members.sort (· ≤ ·) = elems (trees set) := by
    rw [← hmembers, List.toFinset_sort (· ≤ ·) (hordered.imp Nat.ne_of_lt)]
    exact hordered.imp Nat.le_of_lt
  rw [setReduce, nodeReduce_spec f init hstores.holds hstores.length_lt_turns, hsort]

theorem implements (hrep : Represents memory contents trees) : Implements memory contents where
  tree set members hset := ⟨trees set, (hrep.stores set members hset).holds, (hrep.stores set members hset).ordered,
    (hrep.stores set members hset).members⟩
  apart set other tree tree' hset hother hne hholds hholds' := by
    have hstores := hrep.stores set _ (List.getElem?_eq_getElem hset)
    have hstores' := hrep.stores other _ (List.getElem?_eq_getElem hother)
    rw [hholds.unique hstores.holds, hholds'.unique hstores'.holds]
    exact hrep.apart set other _ _ (List.getElem?_eq_getElem hset) (List.getElem?_eq_getElem hother) hne
  elem set members elem hset := hrep.setElem_eq hset elem
  subset set other members others hset hother := hrep.setSubset_eq hset hother
  eq set other members others hset hother := hrep.setEq_eq hset hother
  reduce β f init set members hset := hrep.setReduce_eq f init hset

section

variable (hrep : Represents memory contents trees)
include hrep

theorem change (hcontents : ∀ other, other ≠ set → contents'[other]? = contents[other]?)
    (hset : contents'[set]? = some members) (hsets : memory'.sets = contents'.length)
    (hnodes : memory.nodes ≤ memory'.nodes) (hnew : Stores memory' set new members)
    (hothers : ∀ other others, other ≠ set → contents[other]? = some others →
      memory'.link (.root other) = memory.link (.root other) ∧ Agree memory memory' (names (trees other)) ∧
        (names new).Disjoint (names (trees other))) :
    Represents memory' contents' (update trees set new) := by
  refine ⟨hsets, fun other others hother => ?_, fun one other ones others hone hother hne => ?_⟩
  · by_cases heq : other = set
    · subst heq
      rw [update_self, ← Option.some.inj (hset.symm.trans hother)]
      exact hnew
    · rw [update_of_ne heq]
      rw [hcontents other heq] at hother
      obtain ⟨hlink, hagree, -⟩ := hothers other others heq hother
      exact (hrep.stores other others hother).frame hlink hagree hnodes
  · by_cases heq : one = set
    · subst heq
      rw [hcontents other hne.symm] at hother
      rw [update_self, update_of_ne hne.symm]
      exact (hothers other others hne.symm hother).2.2
    · rw [update_of_ne heq]
      rw [hcontents one heq] at hone
      by_cases heq' : other = set
      · subst heq'
        rw [update_self]
        exact (hothers one ones heq hone).2.2.symm
      · rw [hcontents other heq'] at hother
        rw [update_of_ne heq']
        exact hrep.apart one other ones others hone hother hne

theorem append (hsets : memory'.sets = memory.sets + 1)
    (hnodes : memory.nodes ≤ memory'.nodes) (hnew : Stores memory' memory.sets new members)
    (hlink : ∀ cursor, cursor ≠ .root memory.sets → Settled memory cursor → memory'.link cursor = memory.link cursor)
    (helem : ∀ node < memory.nodes, memory'.elem node = memory.elem node)
    (hnames : ∀ node ∈ names new, memory.nodes ≤ node) :
    Represents memory' (contents ++ [members]) (update trees memory.sets new) := by
  refine hrep.change (fun other hne => ?_) ?_ ?_ hnodes hnew fun other others hne hother => ⟨?_, ⟨?_, ?_⟩, ?_⟩
  · rw [hrep.sets] at hne
    rcases Nat.lt_or_gt_of_ne hne with hlt | hgt
    · exact List.getElem?_append_left hlt
    · have hle : (contents ++ [members]).length ≤ other := by
        rw [List.length_append, List.length_singleton]
        exact hgt
      rw [List.getElem?_eq_none hle, List.getElem?_eq_none (Nat.le_of_lt hgt)]
  · rw [hrep.sets]
    exact List.getElem?_concat_length
  · rw [hsets, hrep.sets, List.length_append, List.length_singleton]
  · exact hlink _ (by simpa using hne) fun node howner => nomatch howner
  · rintro cursor ⟨node, hmem, howner⟩
    refine hlink cursor (fun heq => ?_) (Settled.of_owner howner ((hrep.stores other others hother).nodes node hmem))
    rw [heq] at howner
    cases howner
  · exact fun node hmem => helem node ((hrep.stores other others hother).nodes node hmem)
  · intro node hmem hmem'
    exact Nat.not_le_of_lt ((hrep.stores other others hother).nodes node hmem') (hnames node hmem)

theorem setMk_represents : Represents (setMk memory).2 (contents ++ [∅]) (update trees memory.sets .nil) := by
  refine hrep.append rfl (Nat.le_refl _) ⟨write_link_self, ?_, ?_, ?_, ?_⟩ (fun cursor hne _ => ?_) ?_ ?_
  · exact List.Pairwise.nil
  · exact List.nodup_nil
  · simp
  · simp
  · exact write_link_of_ne hne
  · exact fun _ _ => rfl
  · simp

theorem setClone_represents (hset : contents[set]? = some members) :
    ∃ memory' copy, setClone memory (some set) = some (some memory.sets, memory') ∧
      Represents memory' (contents ++ [members]) (update trees memory.sets copy) := by
  have hstores := hrep.stores set members hset
  have hne : Cursor.root set ≠ .root memory.sets := by
    have hlt : set < contents.length := (List.getElem?_eq_some_iff.mp hset).1
    rw [hrep.sets]
    simpa using Nat.ne_of_lt hlt
  have hlink : ∀ cursor, cursor ≠ .root memory.sets → (setMk memory).2.link cursor = memory.link cursor :=
    fun cursor hne => write_link_of_ne hne
  have hagree : Agree memory (setMk memory).2 (names (trees set)) := by
    refine ⟨fun cursor hinside => hlink cursor fun heq => ?_, fun _ _ => rfl⟩
    rw [heq] at hinside
    exact not_inside_root _ _ hinside
  have htarget : (setMk memory).2.link (.root memory.sets) = none := write_link_self
  obtain ⟨memory', copy, hclone, hcopied⟩ := cloneNode_spec (hstores.holds.redirect (hlink _ hne) hagree)
    hstores.nodes htarget (fun node howner => nomatch howner) (not_inside_root _ _) hstores.length_lt_turns
  refine ⟨memory', copy, ?_, hrep.append hcopied.sets hcopied.nodes ?_ ?_ hcopied.elem ?_⟩
  · show (do return (some memory.sets, ← cloneNode memory.turns (setMk memory).2
      ((setMk memory).2.link (.root set)) (.root memory.sets))) = _
    rw [hclone]
    rfl
  · refine ⟨hcopied.holds, ?_, hcopied.nodup, fun node hmem => (hcopied.new node hmem).2, ?_⟩
    · rw [Ordered, hcopied.elems]
      exact hstores.ordered
    · rw [hcopied.elems]
      exact hstores.members
  · intro cursor hcursor hsettled
    exact (hcopied.link cursor hcursor hsettled).trans (hlink cursor hcursor)
  · exact fun node hmem => (hcopied.new node hmem).1

/-- Another tree is put where the way to the element ends. -/
theorem put {place : Cursor} (hset : contents[set]? = some members)
    {others : Finset Elem} (hsets : memory'.sets = memory.sets) (hnodes : memory.nodes ≤ memory'.nodes)
    (hplace : place = .root set ∨ Inside place (names (trees set))) (hnew : Stores memory' set new others)
    (hlink : ∀ cursor, cursor ≠ place → Settled memory cursor → ¬ Inside cursor (names (trees set)) →
      memory'.link cursor = memory.link cursor)
    (helem : ∀ node < memory.nodes, memory'.elem node = memory.elem node)
    (hnames : ∀ node ∈ names new, node ∈ names (trees set) ∨ memory.nodes ≤ node) :
    Represents memory' (contents.set set others) (update trees set new) := by
  have hlt : set < contents.length := (List.getElem?_eq_some_iff.mp hset).1
  refine hrep.change (fun other hne => ?_) ?_ ?_ hnodes hnew fun other rest hne hother => ?_
  · exact List.getElem?_set_ne hne.symm
  · exact List.getElem?_set_self hlt
  · rw [hsets, hrep.sets, List.length_set]
  · have hstores := hrep.stores other rest hother
    have hdisjoint := hrep.apart set other members rest hset hother hne.symm
    refine ⟨?_, ⟨?_, ?_⟩, ?_⟩
    · refine hlink _ (fun heq => ?_) (fun node howner => nomatch howner) (not_inside_root _ _)
      rcases hplace with hroot | hinside
      · exact hne (Cursor.root.inj (heq.trans hroot))
      · exact not_inside_root _ _ (heq ▸ hinside)
    · rintro cursor ⟨node, hmem, howner⟩
      refine hlink cursor (fun heq => ?_) (Settled.of_owner howner (hstores.nodes node hmem)) fun hin => ?_
      · rcases hplace with hroot | hinside
        · rw [heq, hroot] at howner
          cases howner
        · exact hdisjoint ((inside_iff howner).mp (heq ▸ hinside)) hmem
      · exact hdisjoint ((inside_iff howner).mp hin) hmem
    · exact fun node hmem => helem node (hstores.nodes node hmem)
    · intro node hmem hmem'
      rcases hnames node hmem with hold | hge
      · exact hdisjoint hold hmem'
      · exact Nat.not_le_of_lt (hstores.nodes node hmem') hge

end

end Represents

/-! ### `set_add` and `set_remove` -/

theorem setAdd_eq (memory : Memory) (set : SetAddr) (elem : Elem) :
    setAdd memory (some set) elem = (search memory elem memory.turns (.root set)).bind fun cursor =>
      match memory.link cursor with
      | none => some (true, addNode memory cursor elem)
      | some _ => some (false, memory) := by
  cases hroot : memory.link (.root set) with
  | none => simp [setAdd, search, Memory.turns, hroot]
  | some node =>
    simp only [setAdd, hroot]
    rfl

theorem setRemove_eq (memory : Memory) (set : SetAddr) (elem : Elem) :
    setRemove memory (some set) elem = (search memory elem memory.turns (.root set)).bind fun cursor =>
      match memory.link cursor with
      | none => some (false, memory)
      | some _ => (removeNode memory cursor).bind fun memory => some (true, memory) := by
  cases hroot : memory.link (.root set) with
  | none => simp [setRemove, search, Memory.turns, hroot]
  | some node =>
    simp only [setRemove, hroot]
    rfl

namespace Stores

theorem exists_search (hstores : Stores memory set tree members) (elem : Elem) :
    ∃ place, search memory elem memory.turns (.root set) = some place ∧
      Reached memory (.root set) elem tree place ∧ Settled memory place := by
  obtain ⟨place, hsearch, hreached⟩ :=
    search_spec hstores.holds hstores.nodup (not_inside_root _ _) hstores.length_lt_turns
  refine ⟨place, hsearch, hreached, ?_⟩
  rcases hreached.place with rfl | ⟨node, hmem, howner⟩
  · exact fun node howner => nomatch howner
  · exact Settled.of_owner howner (hstores.nodes node hmem)

theorem add {place : Cursor} (hstores : Stores memory set tree members)
    (hreached : Reached memory (.root set) elem tree place) (hsettled : Settled memory place)
    (hfound : found elem tree = .nil) :
    Stores (addNode memory place elem) set (replace elem (.node (memory.nodes, elem) .nil .nil) tree)
      (insert elem members) := by
  obtain ⟨hordered, hperm⟩ := hstores.ordered.insert hfound memory.nodes
  have hnames : (names (replace elem (.node (memory.nodes, elem) .nil .nil) tree)).Perm
      (memory.nodes :: names tree) := hperm.map _
  have helems : (elems (replace elem (.node (memory.nodes, elem) .nil .nil) tree)).Perm (elem :: elems tree) :=
    hperm.map _
  refine ⟨?_, hordered, ?_, ?_, ?_⟩
  · refine hreached.put _ _ (holds_addNode hsettled.owner_ne) (fun other hother hne _ => ?_) fun node hmem _ => ?_
    · refine addNode_link_of_ne hne fun howner => ?_
      rcases hother with rfl | hinside
      · cases howner
      · exact Nat.lt_irrefl _ (hstores.nodes _ ((inside_iff howner).mp hinside))
    · exact addNode_elem_of_ne (Nat.ne_of_lt (hstores.nodes node hmem))
  · refine hnames.nodup_iff.mpr (List.nodup_cons.mpr ⟨fun hmem => ?_, hstores.nodup⟩)
    exact Nat.lt_irrefl _ (hstores.nodes _ hmem)
  · intro node hmem
    rcases List.mem_cons.mp (hnames.mem_iff.mp hmem) with rfl | hmem
    · exact Nat.lt_succ_self _
    · exact Nat.lt_succ_of_lt (hstores.nodes node hmem)
  · intro other
    rw [helems.mem_iff, List.mem_cons, Finset.mem_insert, hstores.members]

theorem remove {place : Cursor} {name : Addr} {left right : BinaryTree (Addr × Elem)}
    (hstores : Stores memory set tree members) (hreached : Reached memory (.root set) elem tree place)
    (hfound : found elem tree = .node (name, elem) left right)
    (hholds : Holds memory' place (removeRoot (found elem tree)))
    (helse : Elsewhere memory memory' place (names (found elem tree))) :
    Stores memory' set (replace elem (removeRoot (found elem tree)) tree) (members.erase elem) := by
  obtain ⟨hordered, hperm⟩ := hstores.ordered.remove hfound
  have hnames : (names tree).Perm (name :: names (replace elem (removeRoot (found elem tree)) tree)) := hperm.map _
  have helems : (elems tree).Perm (elem :: elems (replace elem (removeRoot (found elem tree)) tree)) := hperm.map _
  refine ⟨?_, hordered, ?_, ?_, ?_⟩
  · refine hreached.put _ _ hholds (fun other _ hne hout => helse.link other hne hout) fun node _ _ => ?_
    rw [helse.elem]
  · exact (List.nodup_cons.mp (hnames.nodup_iff.mp hstores.nodup)).2
  · intro node hmem
    rw [helse.nodes]
    exact hstores.nodes node (hnames.mem_iff.mpr (List.mem_cons_of_mem _ hmem))
  · have hnodup : (elem :: elems (replace elem (removeRoot (found elem tree)) tree)).Nodup :=
      helems.nodup_iff.mp (List.Pairwise.imp Nat.ne_of_lt hstores.ordered)
    intro other
    rw [Finset.mem_erase, ← hstores.members, helems.mem_iff, List.mem_cons]
    constructor
    · exact fun hmem => ⟨fun heq => (List.nodup_cons.mp hnodup).1 (heq ▸ hmem), .inr hmem⟩
    · exact fun hmem => hmem.2.resolve_left hmem.1

end Stores

namespace Represents

theorem contents_set_self (hset : contents[set]? = some members) : contents.set set members = contents := by
  obtain ⟨hlt, rfl⟩ := List.getElem?_eq_some_iff.mp hset
  exact List.set_getElem_self hlt

section

variable (hrep : Represents memory contents trees)
include hrep

theorem setAdd_represents (hset : contents[set]? = some members) (elem : Elem) :
    ∃ memory' trees', setAdd memory (some set) elem = some (decide (elem ∉ members), memory') ∧
      Represents memory' (contents.set set (insert elem members)) trees' := by
  have hstores := hrep.stores set members hset
  obtain ⟨place, hsearch, hreached, hsettled⟩ := hstores.exists_search elem
  have hholds := hreached.holds
  rw [setAdd_eq, hsearch, Option.bind_some]
  rcases found_eq elem (trees set) with hfound | ⟨name, left, right, hfound⟩
  · have hmem : elem ∉ members := fun hmem => hstores.mem_iff.mp hmem hfound
    rw [hfound] at hholds
    rw [hholds.link_nil, decide_eq_true hmem]
    refine ⟨_, _, rfl, hrep.put hset rfl (Nat.le_succ _) hreached.place (hstores.add hreached hsettled hfound)
      (fun cursor hne hcursor _ => addNode_link_of_ne hne hcursor.owner_ne)
      (fun node hnode => addNode_elem_of_ne (Nat.ne_of_lt hnode)) fun node hnode => ?_⟩
    have hperm := ((hstores.ordered.insert hfound memory.nodes).2.map Prod.fst).mem_iff.mp hnode
    rcases List.mem_cons.mp hperm with rfl | hnode
    · exact .inr (Nat.le_refl _)
    · exact .inl hnode
  · have hmem : elem ∈ members := hstores.mem_iff.mpr (by simp [hfound])
    rw [hfound] at hholds
    rw [hholds.1, decide_eq_false (not_not.mpr hmem), Finset.insert_eq_of_mem hmem, contents_set_self hset]
    exact ⟨memory, trees, rfl, hrep⟩

theorem setRemove_represents (hset : contents[set]? = some members) (elem : Elem) :
    ∃ memory' trees', setRemove memory (some set) elem = some (decide (elem ∈ members), memory') ∧
      Represents memory' (contents.set set (members.erase elem)) trees' := by
  have hstores := hrep.stores set members hset
  obtain ⟨place, hsearch, hreached, hsettled⟩ := hstores.exists_search elem
  have hholds := hreached.holds
  rw [setRemove_eq, hsearch, Option.bind_some]
  rcases found_eq elem (trees set) with hfound | ⟨name, left, right, hfound⟩
  · have hmem : elem ∉ members := fun hmem => hstores.mem_iff.mp hmem hfound
    rw [hfound] at hholds
    rw [hholds.link_nil, decide_eq_false hmem, Finset.erase_eq_of_notMem hmem, contents_set_self hset]
    exact ⟨memory, trees, rfl, hrep⟩
  · have hmem : elem ∈ members := hstores.mem_iff.mpr (by simp [hfound])
    have hsubset := names_found_subset elem (trees set)
    have hnodup := hstores.nodup_found elem
    have hlength : (names (found elem (trees set))).length ≤ memory.nodes :=
      Nat.le_trans (hnodup.subperm hsubset).length_le (Nat.le_of_lt_succ hstores.length_lt_turns)
    obtain ⟨memory', hremove, hholds', helse⟩ : ∃ memory', removeNode memory place = some memory' ∧
        Holds memory' place (removeRoot (found elem (trees set))) ∧
        Elsewhere memory memory' place (names (found elem (trees set))) := by
      have hout := hreached.outside
      rw [hfound] at hholds hnodup hlength hout ⊢
      exact removeNode_spec hholds hnodup hout hlength
    rw [hfound] at hholds
    rw [hholds.1, decide_eq_true hmem]
    dsimp only
    rw [hremove, Option.bind_some]
    refine ⟨_, _, rfl, hrep.put hset helse.sets (Nat.le_of_eq helse.nodes.symm) hreached.place
      (hstores.remove hreached hfound hholds' helse) (fun cursor hne _ hout => ?_) (fun node _ => ?_) fun node hnode => ?_⟩
    · exact helse.link cursor hne fun hin => hout (hin.mono hsubset)
    · rw [helse.elem]
    · exact .inl (((hstores.ordered.remove hfound).2.map Prod.fst).mem_iff.mpr (List.mem_cons_of_mem _ hnode))

theorem perform {answer : Option Bool} {call : Call} (hspecify : call.specify contents = some (answer, contents')) :
    ∃ memory' trees', call.perform memory = some (answer, memory') ∧ Represents memory' contents' trees' := by
  cases call with
  | mk =>
    cases hspecify
    exact ⟨_, _, rfl, hrep.setMk_represents⟩
  | add set elem =>
    obtain ⟨members, hset, hresult⟩ := Option.map_eq_some_iff.mp hspecify
    cases hresult
    obtain ⟨memory', trees', hadd, hrep'⟩ := hrep.setAdd_represents hset elem
    exact ⟨memory', trees', by rw [Call.perform, hadd]; rfl, hrep'⟩
  | remove set elem =>
    obtain ⟨members, hset, hresult⟩ := Option.map_eq_some_iff.mp hspecify
    cases hresult
    obtain ⟨memory', trees', hremove, hrep'⟩ := hrep.setRemove_represents hset elem
    exact ⟨memory', trees', by rw [Call.perform, hremove]; rfl, hrep'⟩
  | clone set =>
    obtain ⟨members, hset, hresult⟩ := Option.map_eq_some_iff.mp hspecify
    cases hresult
    obtain ⟨memory', copy, hclone, hrep'⟩ := hrep.setClone_represents hset
    exact ⟨memory', _, by rw [Call.perform, hclone]; rfl, hrep'⟩

theorem run {answers : List (Option Bool)} {calls : List Call}
    (hspec : specification contents calls = some (answers, contents')) :
    ∃ memory' trees', TreeSet.run memory calls = some (answers, memory') ∧ Represents memory' contents' trees' := by
  induction calls generalizing memory contents trees answers with
  | nil =>
    cases hspec
    exact ⟨memory, trees, rfl, hrep⟩
  | cons call calls ih =>
    obtain ⟨⟨answer, middle⟩, hspecify, hrest⟩ := Option.bind_eq_some_iff.mp hspec
    obtain ⟨⟨rest, last⟩, hcalls, hresult⟩ := Option.bind_eq_some_iff.mp hrest
    cases hresult
    obtain ⟨memory₁, trees₁, hperform, hrep₁⟩ := hrep.perform hspecify
    obtain ⟨memory₂, trees₂, hrun, hrep₂⟩ := ih hrep₁ hcalls
    exact ⟨memory₂, trees₂, by simp [TreeSet.run, hperform, hrun], hrep₂⟩

end

theorem init (elem : Addr → Elem) (link : Cursor → Option Addr) : Represents (Memory.init elem link) [] fun _ => .nil :=
  ⟨rfl, by simp, by simp⟩

end Represents

/-- Every sequence of calls on sets that have been made returns what it should, and leaves sets that
answer every question as the finite sets do. -/
theorem set_implements_finset (elem : Addr → Elem) (link : Cursor → Option Addr) (calls : List Call)
    (answers : List (Option Bool)) (contents : Contents)
    (hspec : specification [] calls = some (answers, contents)) :
    ∃ memory, run (Memory.init elem link) calls = some (answers, memory) ∧ Implements memory contents := by
  obtain ⟨memory, trees, hrun, hrep⟩ := (Represents.init elem link).run hspec
  exact ⟨memory, hrun, hrep.implements⟩

/-- The root is removed, with children on both sides. -/
theorem set_implements_finset_two_children :
    ∃ memory, run (Memory.init (fun _ => 0) fun _ => none) [.mk, .add 0 2, .add 0 1, .add 0 3, .remove 0 2, .clone 0] =
        some ([none, some true, some true, some true, some true, none], memory) ∧
      Implements memory [{1, 3}, {1, 3}] :=
  set_implements_finset _ _ _ _ _ (by decide)

end Lfmr.TreeSet
