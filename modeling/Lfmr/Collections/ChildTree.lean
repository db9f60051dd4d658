import Mathlib.Data.List.Nodup
import Mathlib.Data.List.Range
import Mathlib.Tactic.Common

/-!
# Traversing trees by their children

A kind of trees is given by a function that gets the children of a tree and one that puts others in their
place. What is done at every node of a tree is written in terms of these two. The nodes are named by
positions: the path of indices from the root.
-/

namespace Lfmr.Collections

open List

structure ChildTree (α ε : Type) where
  getChildren : α → List α
  putChildren : List α → α → Except ε α
  exists_size : ∃ size : α → Nat, ∀ {e child}, child ∈ getChildren e → size child < size e
  put_get : ∀ e, putChildren (getChildren e) e = .ok e
  get_put : ∀ {l e}, l.length = (getChildren e).length → ∃ result, putChildren l e = .ok result ∧ getChildren result = l

variable {α β γ ε : Type}

def mapAccumL (f : γ → α → Except ε (γ × β)) : γ → List α → Except ε (γ × List β)
  | acc, [] => .ok (acc, [])
  | acc, x :: xs => do
      let (acc1, y) ← f acc x
      let (acc2, ys) ← mapAccumL f acc1 xs
      return (acc2, y :: ys)

theorem mapAccumL_attach (f : γ → α → Except ε (γ × β)) (l : List α) (P : α → Prop) (h : ∀ x ∈ l, P x) (acc : γ) :
    mapAccumL (fun acc (x : { x // P x }) => f acc x.1) acc (l.attachWith P h) = mapAccumL f acc l := by
  induction l generalizing acc with
  | nil => rfl
  | cons x l ih =>
    rw [attachWith_cons, mapAccumL, mapAccumL]
    congr 1
    funext ⟨acc1, y⟩
    simp only [ih fun y hy => h y (mem_cons_of_mem _ hy)]

namespace ChildTree

variable (tree : ChildTree α ε)

noncomputable def size : α → Nat := tree.exists_size.choose

theorem size_lt {e child : α} (hchild : child ∈ tree.getChildren e) : tree.size child < tree.size e :=
  tree.exists_size.choose_spec hchild

def extendAccum (f : γ → α → γ × α) (acc0 : γ) (e : α) : Except ε (γ × α) := do
  let (acc1, childResults) ← mapAccumL
    (fun acc (child : { child // child ∈ tree.getChildren e }) => extendAccum f acc child.1) acc0
    ((tree.getChildren e).attachWith _ fun _ h => h)
  let result ← tree.putChildren childResults e
  return f acc1 result
termination_by tree.size e
decreasing_by exact tree.size_lt child.2

theorem extendAccum_eq (f : γ → α → γ × α) (acc0 : γ) (e : α) :
    tree.extendAccum f acc0 e = (mapAccumL (tree.extendAccum f) acc0 (tree.getChildren e)).bind fun r =>
      (tree.putChildren r.2 e).map (f r.1) := by
  rw [extendAccum, mapAccumL_attach]
  rfl

def extend (f : α → α) (e : α) : Except ε α := (tree.extendAccum (fun _ e => ((), f e)) () e).map Prod.snd

theorem childInduction {motive : α → Prop}
    (step : ∀ e, (∀ child ∈ tree.getChildren e, motive child) → motive e) (e : α) : motive e := by
  induction hsize : tree.size e using Nat.strong_induction_on generalizing e with
  | _ size ih =>
    refine step e fun child hchild => ih _ ?_ child rfl
    rw [← hsize]
    exact tree.size_lt hchild

def subtreeAt (e : α) : List Nat → Option α
  | [] => some e
  | i :: path => (tree.getChildren e)[i]?.bind fun child => subtreeAt child path

def positions (e : α) : List (List Nat) :=
  (((tree.getChildren e).attachWith _ fun _ h => h).zipIdx.flatMap
    fun (child : { child // child ∈ tree.getChildren e } × Nat) => (positions child.1.1).map (child.2 :: ·)) ++ [[]]
termination_by tree.size e
decreasing_by exact tree.size_lt child.1.2

theorem positions_eq (e : α) : tree.positions e =
      ((tree.getChildren e).zipIdx.flatMap fun child => (tree.positions child.1).map (child.2 :: ·)) ++ [[]] := by
  rw [positions]
  congr 1
  conv_rhs => rw [← attachWith_map_subtype_val (p := (· ∈ tree.getChildren e)) (fun _ h => h)]
  rw [zipIdx_map, flatMap_map]
  rfl

theorem mem_positions_cons_iff (e : α) (i : Nat) (path : List Nat) :
    i :: path ∈ tree.positions e ↔ ∃ child, (tree.getChildren e)[i]? = some child ∧ path ∈ tree.positions child := by
  rw [positions_eq]
  simp only [mem_append, mem_flatMap, mem_map, mem_singleton, reduceCtorEq, or_false,
    cons.injEq, Prod.exists, mem_zipIdx_iff_getElem?]
  constructor
  · rintro ⟨child, j, hchild, path', hpath, rfl, rfl⟩
    exact ⟨child, hchild, hpath⟩
  · rintro ⟨child, hchild, hpath⟩
    exact ⟨child, i, hchild, path, hpath, rfl, rfl⟩

theorem mem_positions_iff (e : α) (path : List Nat) : path ∈ tree.positions e ↔ (tree.subtreeAt e path).isSome := by
  induction path generalizing e with
  | nil =>
    rw [positions_eq]
    exact iff_of_true (mem_append_right _ (mem_singleton_self _)) rfl
  | cons i path ih =>
    rw [mem_positions_cons_iff, subtreeAt]
    cases (tree.getChildren e)[i]? with
    | none => simp
    | some child => simp [ih]

theorem pairwise_positions (e : α) : (tree.positions e).Pairwise fun path later => ¬ path <+: later := by
  induction e using tree.childInduction with
  | step e ih =>
    rw [positions_eq, pairwise_append, pairwise_flatMap]
    refine ⟨⟨?_, ?_⟩, pairwise_singleton _ _, ?_⟩
    · rintro ⟨child, i⟩ hchild
      rw [pairwise_map]
      refine (ih child (mem_of_getElem? (mem_zipIdx_iff_getElem?.mp hchild))).imp fun hnot hbelow => hnot ?_
      exact (cons_prefix_cons.mp hbelow).2
    · -- below two children there are two first indices
      have hindices : (tree.getChildren e).zipIdx.Pairwise fun x y => x.2 ≠ y.2 := by
        rw [← pairwise_map (f := Prod.snd) (R := (· ≠ ·)), zipIdx_map_snd]
        exact nodup_range'
      refine hindices.imp fun {x y} hne path hpath later hlater hbelow => ?_
      obtain ⟨path, -, rfl⟩ := mem_map.mp hpath
      obtain ⟨later, -, rfl⟩ := mem_map.mp hlater
      exact hne (cons_prefix_cons.mp hbelow).1
    · intro path hpath later hlater hbelow
      obtain ⟨child, -, hmem⟩ := mem_flatMap.mp hpath
      obtain ⟨path, -, rfl⟩ := mem_map.mp hmem
      rw [mem_singleton.mp hlater] at hbelow
      exact absurd (prefix_nil.mp hbelow) (cons_ne_nil _ _)

section

variable (f : α → α)

/-- The function is called with these trees, one after the other, and the result is another tree. What is
passed on may be any value that is taken from one call to the next. -/
def CallsWith (e : α) (trees : List α) (out : α) : Prop :=
  ∀ (γ : Type) (step : γ → α → γ) (acc : γ),
    tree.extendAccum (fun acc e => (step acc e, f e)) acc e = .ok (trees.foldl step acc, out)

/-- What the function is called with for a subtree: its children are what they were rewritten to. -/
def CallFor (sub called : α) : Prop :=
  ∃ childResults, List.Forall₂ (fun child result => tree.extend f child = .ok result) (tree.getChildren sub)
    childResults ∧ tree.putChildren childResults sub = .ok called

def CallsAt (e : α) (path : List Nat) (called : α) : Prop :=
  ∃ sub, tree.subtreeAt e path = some sub ∧ tree.CallFor f sub called

variable {tree f}

theorem extend_of_callsWith {e out : α} {trees : List α} (hcalls : tree.CallsWith f e trees out) :
    tree.extend f e = .ok out := by
  rw [extend, hcalls]
  rfl

theorem mapAccumL_of_callsWith {l : List α} (k : Nat) (hl : ∀ e ∈ l, ∃ trees out, tree.CallsWith f e trees out ∧
      List.Forall₂ (tree.CallsAt f e) (tree.positions e) trees) :
    ∃ trees outs, (∀ (γ : Type) (step : γ → α → γ) (acc : γ),
        mapAccumL (tree.extendAccum fun acc e => (step acc e, f e)) acc l = .ok (trees.foldl step acc, outs)) ∧
      List.Forall₂ (fun child result => tree.extend f child = .ok result) l outs ∧
      List.Forall₂ (fun path called => ∃ child i below, path = i :: below ∧ (child, i) ∈ l.zipIdx k ∧
          tree.CallsAt f child below called)
        ((l.zipIdx k).flatMap fun child => (tree.positions child.1).map (child.2 :: ·)) trees := by
  induction l generalizing k with
  | nil => exact ⟨[], [], fun _ _ _ => rfl, .nil, .nil⟩
  | cons e l ih =>
    obtain ⟨trees, out, hcalls, hpositions⟩ := hl e mem_cons_self
    obtain ⟨trees', outs, hrest, hresults, hbelow⟩ := ih (k + 1) fun e he => hl e (mem_cons_of_mem _ he)
    refine ⟨trees ++ trees', out :: outs, fun γ step acc => ?_, .cons (extend_of_callsWith hcalls) hresults, ?_⟩
    · rw [mapAccumL, hcalls γ step acc, foldl_append]
      refine Eq.trans (b := (mapAccumL (tree.extendAccum fun acc e => (step acc e, f e)) (trees.foldl step acc)
        l).bind fun r => .ok (r.1, out :: r.2)) rfl ?_
      rw [hrest]
      rfl
    · rw [zipIdx_cons, flatMap_cons]
      refine rel_append ?_ ?_
      · rw [forall₂_map_left_iff]
        exact hpositions.imp fun path called hat => ⟨e, k, path, rfl, mem_cons_self, hat⟩
      · refine hbelow.imp ?_
        rintro path called ⟨child, i, below, hpath, hmem, hat⟩
        exact ⟨child, i, below, hpath, mem_cons_of_mem _ hmem, hat⟩

variable (tree f)

theorem exists_callsWith (e : α) :
    ∃ trees out, tree.CallsWith f e trees out ∧ List.Forall₂ (tree.CallsAt f e) (tree.positions e) trees := by
  induction e using tree.childInduction with
  | step e ih =>
    obtain ⟨trees, outs, hchildren, hresults, hbelow⟩ := mapAccumL_of_callsWith 0 ih
    obtain ⟨called, hput, -⟩ := tree.get_put hresults.length_eq.symm
    refine ⟨trees ++ [called], f called, fun γ step acc => ?_, ?_⟩
    · rw [extendAccum_eq, hchildren, foldl_append]
      refine Eq.trans (b := (tree.putChildren outs e).map fun called => (step (trees.foldl step acc) called, f called))
        rfl ?_
      rw [hput]
      rfl
    · rw [positions_eq]
      refine rel_append ?_ (.cons ⟨e, rfl, outs, hresults, hput⟩ .nil)
      refine hbelow.imp ?_
      rintro path called ⟨child, i, below, rfl, hmem, sub, hsub, hcall⟩
      refine ⟨sub, ?_, hcall⟩
      rw [subtreeAt, mem_zipIdx_iff_getElem?.mp hmem]
      exact hsub

theorem exists_extend (e : α) : ∃ called, tree.CallFor f e called ∧ tree.extend f e = .ok (f called) := by
  obtain ⟨trees, outs, hchildren, hresults, -⟩ := mapAccumL_of_callsWith 0 fun child _ => tree.exists_callsWith f child
  obtain ⟨called, hput, -⟩ := tree.get_put hresults.length_eq.symm
  refine ⟨called, ⟨outs, hresults, hput⟩, ?_⟩
  rw [extend, extendAccum_eq, hchildren Unit (fun _ _ => ())]
  refine Eq.trans (b := ((tree.putChildren outs e).map fun called => ((), f called)).map Prod.snd) rfl ?_
  rw [hput]
  rfl

theorem extend_id (e : α) : tree.extend id e = .ok e := by
  induction e using tree.childInduction with
  | step e ih =>
    obtain ⟨called, ⟨outs, hresults, hput⟩, hextend⟩ := tree.exists_extend id e
    have houts : tree.getChildren e = outs := by
      have heq : List.Forall₂ (· = ·) (tree.getChildren e) outs := by
        refine ((forall₂_and_left _ _).mpr ⟨ih, hresults⟩).imp ?_
        rintro child result ⟨hchild, hresult⟩
        exact Except.ok.inj (hchild.symm.trans hresult)
      rwa [forall₂_eq_eq_eq] at heq
    rw [← houts, tree.put_get] at hput
    rw [hextend, ← Except.ok.inj hput]
    rfl

end

end ChildTree

end Lfmr.Collections
