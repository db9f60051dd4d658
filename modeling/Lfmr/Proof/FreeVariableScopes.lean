import Mathlib.Data.List.Basic
import Lfmr.FreeVariables

/-!
# When the free variables are the free variables

The traversal has scopes of its own, and what it finds is what these scopes let through. It agrees with
the typechecker on every part of an expression exactly if the two sets of scopes let through the same
names at every node.
-/

namespace Lfmr.Ast

open List

open Lfmr.Types (Name Ty)

section

variable {β : Type} [BEq β]

theorem mem_map_fst_nubAfter (as kept : List (Name × β)) (x : Name) :
    x ∈ (nubAfter kept as).map Prod.fst ∨ x ∈ kept.map Prod.fst ↔ x ∈ as.map Prod.fst ∨ x ∈ kept.map Prod.fst := by
  induction as generalizing kept with
  | nil => rfl
  | cons a as ih =>
    unfold nubAfter
    split
    · -- an element that is dropped has the name of one that is kept
      rename_i hkept
      obtain ⟨b, hb, hsame⟩ := any_eq_true.mp hkept
      have hname : b.1 = a.1 := eq_of_beq (Bool.and_eq_true_iff.mp hsame).1
      rw [ih, map_cons, mem_cons]
      have hmem : a.1 ∈ kept.map Prod.fst := hname ▸ mem_map_of_mem hb
      constructor
      · rintro (hx | hx)
        · exact Or.inl (Or.inr hx)
        · exact Or.inr hx
      · rintro ((rfl | hx) | hx)
        · exact Or.inr hmem
        · exact Or.inl hx
        · exact Or.inr hx
    · have hrest := ih (a :: kept)
      simp only [map_cons, mem_cons] at hrest ⊢
      rw [or_assoc, or_assoc, or_left_comm, hrest, or_left_comm]

theorem mem_map_fst_nub (as : List (Name × β)) (x : Name) : x ∈ (nub as).map Prod.fst ↔ x ∈ as.map Prod.fst := by
  have hkept := mem_map_fst_nubAfter as [] x
  simpa only [nub, map_nil, not_mem_nil, or_false] using hkept

end

namespace Expr

section

variable (occurs : Expr → Name → Prop) (x : Name)

@[simp]
theorem exposes_nil : ¬ Exposes occurs [] x := by
  rintro ⟨scope, hscope, -⟩
  cases hscope

@[simp]
theorem exposes_cons (scope : List Name × Expr) (scopes : List (List Name × Expr)) :
    Exposes occurs (scope :: scopes) x ↔ (occurs scope.2 x ∧ x ∉ scope.1) ∨ Exposes occurs scopes x :=
  exists_mem_cons_iff ..

@[simp]
theorem exposes_append (first second : List (List Name × Expr)) :
    Exposes occurs (first ++ second) x ↔ Exposes occurs first x ∨ Exposes occurs second x :=
  by simp only [Exposes, mem_append, or_and_right, exists_or]

@[simp]
theorem exposes_unbound (es : List Expr) :
    Exposes occurs (es.map fun child => ([], child)) x ↔ ∃ e ∈ es, occurs e x := by
  constructor
  · rintro ⟨scope, hscope, hx, -⟩
    obtain ⟨e, he, rfl⟩ := mem_map.mp hscope
    exact ⟨e, he, hx⟩
  · rintro ⟨e, he, hx⟩
    exact ⟨_, mem_map_of_mem he, hx, not_mem_nil⟩

end

theorem free_iff (e : Expr) (x : Name) :
    Free e x ↔ e.occurrence = some x ∨ x ∈ e.lookups ∨ Exposes Free e.scopes x := by
  constructor
  · rintro (hname | hname | ⟨hscope, hfree, hbound⟩)
    · exact Or.inl hname
    · exact Or.inr (Or.inl hname)
    · exact Or.inr (Or.inr ⟨_, hscope, hfree, hbound⟩)
  · rintro (hname | hname | ⟨scope, hscope, hfree, hbound⟩)
    · exact .here hname
    · exact .embedded hname
    · exact .inside hscope hfree hbound

/-! ### What the traversal finds -/

def Collects (bound : List Name) (e : Expr) (x : Name) : Prop := x ∈ (freeVariables' bound e).map Prod.fst

def Used (e : Expr) (x : Name) : Prop := Collects [] e x

def Filters (x : Name) (e : Expr) : Prop := ∀ bound, Collects bound e x ↔ Used e x ∧ x ∉ bound

def usedNames (e : Expr) : List Name := (freeVariables' [] e).map Prod.fst

def takenScopes : Expr → List (List Name × Expr)
  | closure _ eparams body => [(eparams, body)]
  | letE _ decls body => foldedScopes decls ++ [(decls.flatMap Decl.vars, body)]
  | forE _ name step src body => [([name], step), ([name], src), ([name], body)]
  | matchE _ arg clauses => ([], arg) :: clauses.flatMap (clauseScopes usedNames)
  | e => e.getChildren.map fun child => ([], child)

attribute [local simp] freeVariables' listFreeVars fvDecls clausesFreeVars takenScopes occurrence

section

variable {x : Name}

theorem collects_list (bound : List Name) (es : List Expr) :
    x ∈ (listFreeVars bound es).map Prod.fst ↔ ∃ e ∈ es, Collects bound e x := by
  induction es with
  | nil => simp
  | cons e es ih =>
    rw [listFreeVars, map_append, mem_append, ih, exists_mem_cons_iff]
    rfl

theorem filters_list {es : List Expr} (hes : ∀ e ∈ es, Filters x e) (bound : List Name) :
    x ∈ (listFreeVars bound es).map Prod.fst ↔ (∃ e ∈ es, Used e x) ∧ x ∉ bound := by
  rw [collects_list]
  constructor
  · rintro ⟨e, he, hx⟩
    have hused := (hes e he bound).mp hx
    exact ⟨⟨e, he, hused.1⟩, hused.2⟩
  · rintro ⟨⟨e, he, hused⟩, hbound⟩
    exact ⟨e, he, (hes e he bound).mpr ⟨hused, hbound⟩⟩

theorem fvDecls_bound (bound : List Name) (decls : List (Decl Expr)) :
    (fvDecls bound decls).2 = decls.flatMap Decl.vars ++ bound := by
  induction decls with
  | nil => rfl
  | cons decl decls ih =>
    simp only [fvDecls, ih, flatMap_cons, append_assoc]

variable {decls : List (Decl Expr)} {clauses : List (MatchClause Expr)} {e : Expr}

theorem filters_decls (hdecls : ∀ e ∈ decls.map Decl.val, Filters x e) (bound : List Name) :
    x ∈ ((fvDecls bound decls).1).map Prod.fst ↔ Exposes Used (foldedScopes decls) x ∧ x ∉ bound := by
  induction decls with
  | nil => simp [foldedScopes]
  | cons decl decls ih =>
    obtain ⟨hval, hrest⟩ := forall_mem_cons.mp hdecls
    have hhead := hval (decl.vars ++ (decls.flatMap Decl.vars ++ bound))
    simp only [Collects] at hhead
    simp only [fvDecls, fvDecls_bound, map_append, mem_append, foldedScopes, exposes_cons, ih hrest,
      hhead, not_or, or_and_right, and_assoc]

theorem filters_clauses (hclauses : ∀ clause ∈ clauses, Filters x clause.mchandler ∧ Filters x clause.mcguard)
    (bound : List Name) :
    x ∈ (clausesFreeVars bound clauses).map Prod.fst ↔
      Exposes Used (clauses.flatMap (clauseScopes usedNames)) x ∧ x ∉ bound := by
  induction clauses with
  | nil => simp
  | cons clause clauses ih =>
    obtain ⟨⟨hhandler, hguard⟩, hrest⟩ := forall_mem_cons.mp hclauses
    have hinHandler := hhandler (clause.mcpattern.usedNames ++ bound)
    have hinGuard := hguard (clause.mcpattern.usedNames ++ bound)
    simp only [Collects, usedNames] at hinHandler hinGuard
    simp only [clausesFreeVars, map_append, mem_append, flatMap_cons, clauseScopes, usedNames,
      exposes_append, exposes_cons, exposes_nil, ih hrest, hinHandler, hinGuard, or_false, not_or, or_and_right,
      and_assoc]

def FollowsScopes (x : Name) (e : Expr) : Prop :=
  ∀ bound, Collects bound e x ↔ (e.occurrence = some x ∨ Exposes Used e.takenScopes x) ∧ x ∉ bound

theorem followsScopes_varAccess (m : Meta) (name : Name) : FollowsScopes x (varAccess m name) := by
  intro bound
  simp only [Collects, freeVariables', occurrence, takenScopes, getChildren, Option.some.injEq, map_nil,
    exposes_nil, or_false]
  by_cases hname : name ∈ bound
  · rw [if_pos hname]
    simp only [map_nil, not_mem_nil, false_iff, not_and, not_not]
    rintro rfl
    exact hname
  · rw [if_neg hname]
    simp only [map_cons, map_nil, mem_singleton]
    constructor
    · rintro rfl
      exact ⟨rfl, hname⟩
    · rintro ⟨rfl, -⟩
      rfl

theorem followsScopes_functionCall (m : Meta) (name : Name) {args : List Expr}
    (hargs : ∀ arg ∈ args, Filters x arg) : FollowsScopes x (functionCall m name args) := by
  intro bound
  simp only [Collects, freeVariables', occurrence, takenScopes, getChildren, Option.some.injEq, exposes_unbound]
  by_cases hname : name ∈ bound
  · rw [if_pos hname, filters_list hargs]
    constructor
    · rintro ⟨hused, hbound⟩
      exact ⟨Or.inr hused, hbound⟩
    · rintro ⟨rfl | hused, hbound⟩
      · exact absurd hname hbound
      · exact ⟨hused, hbound⟩
  · rw [if_neg hname, map_append, mem_append, filters_list hargs]
    simp only [map_cons, map_nil, mem_singleton]
    constructor
    · rintro (⟨hused, hbound⟩ | rfl)
      · exact ⟨Or.inr hused, hbound⟩
      · exact ⟨Or.inl rfl, hname⟩
    · rintro ⟨rfl | hused, hbound⟩
      · exact Or.inr rfl
      · exact Or.inl ⟨hused, hbound⟩

theorem followsScopes_letE (m : Meta) {body : Expr}
    (hdecls : ∀ e ∈ decls.map Decl.val, Filters x e) (hbody : Filters x body) :
    FollowsScopes x (letE m decls body) := by
  intro bound
  have hinBody := hbody (decls.flatMap Decl.vars ++ bound)
  simp only [Collects] at hinBody
  simp only [Collects, freeVariables', fvDecls_bound, map_append, mem_append, filters_decls hdecls,
    hinBody, occurrence, takenScopes, exposes_append, exposes_cons, exposes_nil, reduceCtorEq, false_or,
    or_false, not_or, or_and_right, and_assoc]

theorem followsScopes_forE (m : Meta) (name : Name) {step src body : Expr} (hstep : Filters x step)
    (hsrc : Filters x src) (hbody : Filters x body) : FollowsScopes x (forE m name step src body) := by
  intro bound
  have hinStep := hstep (name :: bound)
  have hinSrc := hsrc (name :: bound)
  have hinBody := hbody (name :: bound)
  simp only [Collects] at hinStep hinSrc hinBody
  simp only [Collects, freeVariables', map_append, mem_append, hinStep, hinSrc, hinBody, occurrence,
    takenScopes, exposes_cons, exposes_nil, mem_cons, not_mem_nil, reduceCtorEq, false_or, or_false,
    not_or, or_and_right, and_assoc, or_assoc]

theorem followsScopes_matchE (m : Meta) {arg : Expr} (harg : Filters x arg)
    (hclauses : ∀ clause ∈ clauses, Filters x clause.mchandler ∧ Filters x clause.mcguard) :
    FollowsScopes x (matchE m arg clauses) := by
  intro bound
  have hinArg := harg bound
  simp only [Collects] at hinArg
  simp only [Collects, freeVariables', map_append, mem_append, hinArg, filters_clauses hclauses,
    occurrence, takenScopes, exposes_cons, reduceCtorEq, not_mem_nil, not_false_eq_true, and_true,
    false_or, or_and_right]

theorem followsScopes_of_children (hchildren : ∀ child ∈ e.getChildren, Filters x child) : FollowsScopes x e := by
  cases e with
  | varAccess m name => exact followsScopes_varAccess m name
  | functionCall m name args => exact followsScopes_functionCall m name hchildren
  | letE m decls body =>
    obtain ⟨hbody, hdecls⟩ := forall_mem_cons.mp hchildren
    exact followsScopes_letE m hdecls hbody
  | forE m name step src body =>
    exact followsScopes_forE m name (hchildren _ (.head _)) (hchildren _ (.tail _ (.head _)))
      (hchildren _ (.tail _ (.tail _ (.head _))))
  | matchE m arg clauses =>
    obtain ⟨harg, hclauses⟩ := forall_mem_cons.mp hchildren
    refine followsScopes_matchE m harg fun clause hclause => ?_
    have hmem := fun e he => hclauses e (mem_flatMap.mpr ⟨clause, hclause, he⟩)
    exact ⟨hmem _ (.tail _ (.head _)), hmem _ (.tail _ (.tail _ (.head _)))⟩
  | closure m eparams body =>
    intro bound
    have hbody := hchildren body (.head _) (bound ++ eparams)
    simp only [Collects] at hbody
    simp only [Collects, freeVariables', hbody, occurrence, takenScopes, exposes_cons, exposes_nil,
      mem_append, reduceCtorEq, false_or, or_false, not_or, and_assoc]
    rw [and_comm (a := x ∉ bound)]
  | seq m eseq | node m kind eseq =>
    intro bound
    have heseq : ∀ e ∈ eseq, Filters x e := hchildren
    simp only [Collects, freeVariables', filters_list heseq, occurrence, takenScopes, getChildren, exposes_unbound,
      reduceCtorEq, false_or]
  | foreach m name first second | repeatE m name first second =>
    intro bound
    have hfirst := hchildren first (.head _) bound
    have hsecond := hchildren second (.tail _ (.head _)) bound
    simp only [Collects] at hfirst hsecond
    simp only [Collects, freeVariables', map_append, mem_append, hfirst, hsecond, occurrence,
      takenScopes, getChildren, map_cons, map_nil, exposes_cons, exposes_nil, not_mem_nil,
      reduceCtorEq, false_or, or_false, not_false_eq_true, and_true, or_and_right]
  | async m val | finishAsync m val | get m val | miniLet m val =>
    intro bound
    have hval := hchildren _ (.head _) bound
    simp only [Collects] at hval
    simp only [Collects, freeVariables', hval, occurrence, takenScopes, getChildren, exposes_unbound,
      reduceCtorEq, mem_singleton, exists_eq_left, false_or]

theorem filters (e : Expr) : Filters x e := by
  apply childInduction (motive := Filters x)
  intro e hchildren bound
  have hfollows := followsScopes_of_children hchildren
  rw [hfollows bound, Used, hfollows []]
  simp only [not_mem_nil, not_false_eq_true, and_true]

theorem used_iff (e : Expr) : Used e x ↔ e.occurrence = some x ∨ Exposes Used e.takenScopes x := by
  have hused := followsScopes_of_children (fun child _ => filters child) (x := x) (e := e) []
  simpa only [Used, not_mem_nil, not_false_eq_true, and_true] using hused

theorem collectsFree_iff (e : Expr) : CollectsFree e ↔ ∀ x, Used e x ↔ Free e x := by
  unfold CollectsFree freeVariables
  constructor
  · intro h x
    have hx := h [] x
    rw [mem_map_fst_nub] at hx
    simpa only [Used, Collects, not_mem_nil, not_false_eq_true, and_true] using hx
  · intro h bound x
    rw [mem_map_fst_nub, ← h x]
    exact filters e bound

theorem exposes_congr {occurs occurs' : Expr → Name → Prop} {scopes : List (List Name × Expr)}
    (h : ∀ scope ∈ scopes, occurs scope.2 x ↔ occurs' scope.2 x) :
    Exposes occurs scopes x ↔ Exposes occurs' scopes x :=
  exists_congr fun scope => and_congr_right fun hscope => and_congr_left fun _ => h scope hscope

theorem foldedScopes_child {scope : List Name × Expr}
    (hscope : scope ∈ foldedScopes decls) : scope.2 ∈ decls.map Decl.val := by
  induction decls with
  | nil => cases hscope
  | cons decl decls ih =>
    rcases mem_cons.mp hscope with rfl | hlater
    · exact .head _
    · exact .tail _ (ih hlater)

theorem takenScopes_child {scope : List Name × Expr} (hscope : scope ∈ e.takenScopes) : scope.2 ∈ e.getChildren := by
  cases e with
  | letE m decls body =>
    rcases mem_append.mp hscope with hdecl | hbody
    · exact .tail _ (foldedScopes_child hdecl)
    · rw [mem_singleton.mp hbody]
      exact .head _
  | matchE m arg clauses =>
    rcases mem_cons.mp hscope with rfl | hclauses
    · exact .head _
    · obtain ⟨clause, hclause, hin⟩ := mem_flatMap.mp hclauses
      apply List.Mem.tail
      apply mem_flatMap.mpr ⟨clause, hclause, ?_⟩
      rcases mem_pair.mp hin with rfl | rfl
      · exact .tail _ (.tail _ (.head _))
      · exact .tail _ (.head _)
  | closure m eparams body =>
    rw [mem_singleton.mp hscope]
    exact .head _
  | forE m name step src body =>
    simp only [takenScopes, mem_cons, not_mem_nil, or_false] at hscope
    rcases hscope with rfl | rfl | rfl
    · exact .head _
    · exact .tail _ (.head _)
    · exact .tail _ (.tail _ (.head _))
  | _ =>
    obtain ⟨child, hchild, rfl⟩ := mem_map.mp hscope
    exact hchild

/-- If the children are treated right, the expression is exactly if its two sets of scopes let through the
same names. -/
theorem collectsFree_iff_exposes (hchildren : ∀ child ∈ e.getChildren, CollectsFree child) :
    CollectsFree e ↔ ∀ x, (e.occurrence = some x ∨ Exposes Free e.takenScopes x) ↔
      (e.occurrence = some x ∨ x ∈ e.lookups ∨ Exposes Free e.scopes x) := by
  rw [collectsFree_iff]
  apply forall_congr'
  intro x
  have htaken : Exposes Used e.takenScopes x ↔ Exposes Free e.takenScopes x :=
    exposes_congr fun scope hscope =>
      (collectsFree_iff scope.2).mp (hchildren scope.2 (takenScopes_child hscope)) x
  rw [used_iff, free_iff, htaken]

theorem exposes_declScopes_of_undeclared {before : List Name}
    (hbefore : x ∉ before) (hdecls : x ∉ decls.flatMap Decl.vars) :
    Exposes Free (declScopes before decls) x ↔ ∃ e ∈ decls.map Decl.val, Free e x := by
  induction decls generalizing before with
  | nil => simp [declScopes]
  | cons decl decls ih =>
    rw [flatMap_cons, mem_append, not_or] at hdecls
    have hnext : x ∉ before ++ decl.vars := by
      rw [mem_append, not_or]
      exact ⟨hbefore, hdecls.1⟩
    rw [declScopes, exposes_cons, ih hnext hdecls.2, map_cons, exists_mem_cons_iff]
    exact or_congr_left (and_iff_left hbefore)

theorem exposes_foldedScopes_of_undeclared (hdecls : x ∉ decls.flatMap Decl.vars) :
    Exposes Free (foldedScopes decls) x ↔ ∃ e ∈ decls.map Decl.val, Free e x := by
  induction decls with
  | nil => simp [foldedScopes]
  | cons decl decls ih =>
    have hlater := hdecls
    rw [flatMap_cons, mem_append, not_or] at hlater
    rw [foldedScopes, exposes_cons, ih hlater.2, map_cons, exists_mem_cons_iff]
    exact or_congr_left (and_iff_left hdecls)

theorem exists_of_exposes_statementScopes {es : List Expr} {before : List Name}
    (h : Exposes Free (statementScopes before es) x) : ∃ e ∈ es, Free e x := by
  induction es generalizing before with
  | nil => exact (exposes_nil _ _ h).elim
  | cons e es ih =>
    rw [statementScopes, exposes_cons] at h
    rw [exists_mem_cons_iff]
    exact h.imp And.left ih

theorem exposes_clauses (bindings : Expr → List Name) (clauses : List (MatchClause Expr)) :
    Exposes Free (clauses.flatMap (clauseScopes bindings)) x ↔
      ∃ clause ∈ clauses, (Free clause.mcguard x ∨ Free clause.mchandler x) ∧ x ∉ bindings clause.mcpattern := by
  induction clauses with
  | nil => simp
  | cons clause clauses ih =>
    rw [flatMap_cons, exposes_append, ih, exists_mem_cons_iff]
    simp only [clauseScopes, exposes_cons, exposes_nil, or_false, or_and_right]

theorem letE_alike (m : Meta) (decls : List (Decl Expr)) (body : Expr) :
    (∀ x, Exposes Free (letE m decls body).takenScopes x ↔ Exposes Free (letE m decls body).scopes x) ↔
      ScopedAlike (letE m decls body) := by
  apply forall_congr'
  intro x
  simp only [takenScopes, scopes, exposes_append, exposes_cons, exposes_nil, or_false]
  by_cases hbody : Free body x ∧ x ∉ decls.flatMap Decl.vars
  · -- a name that is let through by the body is not declared, so both ways to read the declarations agree
    rw [exposes_declScopes_of_undeclared not_mem_nil hbody.2, exposes_foldedScopes_of_undeclared hbody.2]
    exact iff_of_true Iff.rfl Iff.rfl
  · rw [or_iff_left hbody, or_iff_left hbody]
    exact iff_comm

theorem forE_alike (m : Meta) (name : Name) (step src body : Expr) :
    (∀ x, Exposes Free (forE m name step src body).takenScopes x ↔ Exposes Free (forE m name step src body).scopes x) ↔
      ScopedAlike (forE m name step src body) := by
  simp only [takenScopes, scopes, exposes_cons, exposes_nil, or_false, mem_singleton, not_mem_nil,
    not_false_eq_true, and_true]
  constructor
  · intro h
    have hname := h name
    simp only [not_true_eq_false, and_false, or_false, false_iff, not_or] at hname
    exact hname
  · rintro ⟨hstep, hsrc⟩ x
    have hkept : ∀ e : Expr, ¬ Free e name → (Free e x ∧ x ≠ name ↔ Free e x) := by
      intro e he
      apply and_iff_left_of_imp
      rintro hfree rfl
      exact he hfree
    rw [hkept step hstep, hkept src hsrc]

theorem matchE_alike (m : Meta) (arg : Expr) (hpatterns : ∀ clause ∈ clauses, CollectsFree clause.mcpattern) :
    (∀ x, Exposes Free (matchE m arg clauses).takenScopes x ↔ Exposes Free (matchE m arg clauses).scopes x) ↔
      ScopedAlike (matchE m arg clauses) := by
  apply forall_congr'
  intro x
  have hused : (∃ clause ∈ clauses, (Free clause.mcguard x ∨ Free clause.mchandler x) ∧
        x ∉ clause.mcpattern.usedNames) ↔
      ∃ clause ∈ clauses, (Free clause.mcguard x ∨ Free clause.mchandler x) ∧ ¬ Free clause.mcpattern x :=
    exists_congr fun clause => and_congr_right fun hclause => and_congr_right fun _ =>
      not_congr ((collectsFree_iff _).mp (hpatterns clause hclause) x)
  simp only [takenScopes, scopes, exposes_cons, exposes_clauses, not_mem_nil, not_false_eq_true, and_true, hused]
  by_cases harg : Free arg x
  · exact iff_of_true (iff_of_true (Or.inl harg) (Or.inl harg)) fun hnot => absurd harg hnot
  · rw [or_iff_right harg, or_iff_right harg]
    exact iff_comm.trans (imp_iff_right harg).symm

theorem binder_alike (names : List Name) (source body : Expr) :
    (∀ x, Exposes Free [([], source), ([], body)] x ↔ Exposes Free [([], source), (names, body)] x) ↔
      ∀ x ∈ names, Free body x → Free source x := by
  simp only [exposes_cons, exposes_nil, or_false, not_mem_nil, not_false_eq_true, and_true]
  constructor
  · intro h x hx hbody
    have hname := (h x).mp (Or.inr hbody)
    exact hname.resolve_right fun hleft => hleft.2 hx
  · intro h x
    constructor
    · rintro (hsource | hbody)
      · exact Or.inl hsource
      · by_cases hx : x ∈ names
        · exact Or.inl (h x hx hbody)
        · exact Or.inr ⟨hbody, hx⟩
    · exact Or.imp_right And.left

theorem thenNames_or_elseNames (cond : Expr) : thenNames cond = [] ∨ elseNames cond = [] := by
  unfold thenNames
  split
  · exact Or.inl rfl
  · rename_i hnot
    exact Or.inr (by unfold elseNames; split <;> simp_all)

theorem branches_alike (cond thn els : Expr) : (∀ x, Exposes Free [([], cond), ([], thn), ([], els)] x ↔
        Exposes Free [([], cond), (thenNames cond, thn), (elseNames cond, els)] x) ↔
      (∀ x ∈ thenNames cond, Free thn x → Free cond x ∨ Free els x) ∧
        ∀ x ∈ elseNames cond, Free els x → Free cond x ∨ Free thn x := by
  simp only [exposes_cons, exposes_nil, or_false, not_mem_nil, not_false_eq_true, and_true]
  constructor
  · intro h
    refine ⟨fun x hx hthn => ?_, fun x hx hels => ?_⟩
    · exact ((h x).mp (Or.inr (Or.inl hthn))).imp_right fun hleft => (hleft.resolve_left fun hout => hout.2 hx).1
    · exact ((h x).mp (Or.inr (Or.inr hels))).imp_right fun hleft => (hleft.resolve_right fun hout => hout.2 hx).1
  · rintro ⟨hthen, helse⟩ x
    refine ⟨?_, Or.imp_right (Or.imp And.left And.left)⟩
    -- one of the branches binds nothing, so what it lets through is not lost
    rcases thenNames_or_elseNames cond with hnone | hnone
    · rw [hnone] at hthen ⊢
      grind
    · rw [hnone] at helse ⊢
      grind

theorem node_alike (m : Meta) (kind : NodeKind) (children : List Expr) :
    (∀ x, Exposes Free (node m kind children).takenScopes x ↔
        x ∈ (node m kind children).lookups ∨ Exposes Free (node m kind children).scopes x) ↔
      ScopedAlike (node m kind children) := by
  unfold ScopedAlike
  split
  case h_7 heq =>
    cases heq
    simp only [lookups, not_mem_nil, false_or]
    exact branches_alike _ _ _
  case h_8 heq =>
    cases heq
    simp only [lookups, not_mem_nil, false_or]
    exact binder_alike _ _ _
  case h_9 heq =>
    cases heq
    simp only [takenScopes, getChildren, scopes, lookups, map_nil, exposes_nil, or_false, false_iff]
    exact eq_nil_iff_forall_not_mem.symm
  case h_10 hif hthen hembed =>
    refine iff_of_true (fun x => ?_) trivial
    have hlookups : (node m kind children).lookups = [] := by
      unfold lookups
      split
      · exact absurd ‹_› (hembed _ _ _)
      · rfl
    have hscopes : (node m kind children).scopes = (node m kind children).takenScopes := by
      unfold scopes
      split <;> first | rfl | exact absurd ‹_› (hif _ _ _ _) | exact absurd ‹_› (hthen _ _ _) | contradiction
    rw [hlookups, hscopes, or_iff_right not_mem_nil]
  all_goals contradiction

theorem seq_alike (m : Meta) (eseq : List Expr) :
    (∀ x, Exposes Free (seq m eseq).takenScopes x ↔ Exposes Free (seq m eseq).scopes x) ↔ ScopedAlike (seq m eseq) := by
  apply forall_congr'
  intro x
  simp only [takenScopes, scopes, getChildren, exposes_unbound]
  exact ⟨Iff.mp, fun h => ⟨h, exists_of_exposes_statementScopes⟩⟩

theorem collectsFree_iff_scopedAlike (hchildren : ∀ child ∈ e.getChildren, CollectsFree child) :
    CollectsFree e ↔ ScopedAlike e := by
  rw [collectsFree_iff_exposes hchildren]
  cases e with
  | node m kind children =>
    simp only [occurrence, reduceCtorEq, false_or]
    exact node_alike m kind children
  | letE m decls body =>
    simp only [occurrence, lookups, not_mem_nil, reduceCtorEq, false_or]
    exact letE_alike m decls body
  | forE m name step src body =>
    simp only [occurrence, lookups, not_mem_nil, reduceCtorEq, false_or]
    exact forE_alike m name step src body
  | matchE m arg clauses =>
    simp only [occurrence, lookups, not_mem_nil, reduceCtorEq, false_or]
    apply matchE_alike
    intro clause hclause
    exact hchildren _ (.tail _ (mem_flatMap.mpr ⟨clause, hclause, .head _⟩))
  | repeatE m name source body | foreach m name source body =>
    simp only [occurrence, lookups, not_mem_nil, reduceCtorEq, false_or]
    exact (binder_alike [name] source body).trans forall_mem_singleton
  | seq m eseq =>
    simp only [occurrence, lookups, not_mem_nil, reduceCtorEq, false_or]
    exact seq_alike m eseq
  | _ => exact iff_of_true (fun _ => or_congr_right (or_iff_right not_mem_nil).symm) trivial

theorem Within.of_child {P : Expr → Prop} (h : ∀ sub, Within sub e → P sub) :
    ∀ child ∈ e.getChildren, ∀ sub, Within sub child → P sub :=
  fun _ hchild sub hsub => h sub (.child hchild hsub)

theorem collectsFree_of_scopedAlike (e : Expr) (h : ∀ sub, Within sub e → ScopedAlike sub) : CollectsFree e := by
  revert h
  apply childInduction (motive := fun e => (∀ sub, Within sub e → ScopedAlike sub) → CollectsFree e)
  intro e ih h
  have hchildren : ∀ child ∈ e.getChildren, CollectsFree child := fun child hchild =>
    ih child hchild (Within.of_child h child hchild)
  exact (collectsFree_iff_scopedAlike hchildren).mpr (h e (.self e))

theorem Within.trans {sub mid : Expr} (hsub : Within sub mid) (hmid : Within mid e) : Within sub e := by
  induction hmid with
  | self => exact hsub
  | child hchild _ ih => exact .child hchild ih

end

end Expr

end Lfmr.Ast
