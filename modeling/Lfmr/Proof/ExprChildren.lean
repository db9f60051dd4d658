import Lfmr.FullAst

/-!
# Getting and putting the children of an expression

The two functions are inverse to each other for every constructor, so that the traversals of `Util.hs`, which
are written in terms of them, visit every subexpression once.
-/

namespace Lfmr.FullAst.Expr

open Lfmr.Ast (Meta Decl MatchClause)
open List Lfmr.Collections

theorem sizeOf_lt_of_mem_decls {decls : List (Decl Expr)} {child : Expr} (hchild : child ∈ decls.map Decl.val) :
    sizeOf child < sizeOf decls := by
  obtain ⟨decl, hdecl, rfl⟩ := mem_map.mp hchild
  have hlt := sizeOf_lt_of_mem hdecl
  have hval : sizeOf decl.val < sizeOf decl := by
    cases decl
    simp only [Decl.mk.sizeOf_spec]
    omega
  omega

theorem sizeOf_lt_of_mem_clauses {clauses : List (MatchClause Expr)} {child : Expr}
    (hchild : child ∈ clauses.flatMap getChildrenClause) : sizeOf child < sizeOf clauses := by
  obtain ⟨clause, hclause, hmem⟩ := mem_flatMap.mp hchild
  have hlt := sizeOf_lt_of_mem hclause
  have hpart : sizeOf child < sizeOf clause := by
    cases clause
    simp only [getChildrenClause, mem_cons, not_mem_nil, or_false] at hmem
    simp only [MatchClause.mk.sizeOf_spec]
    rcases hmem with rfl | rfl | rfl <;> omega
  omega

theorem sizeOf_lt_of_mem_getChildren {e child : Expr} (hchild : child ∈ e.getChildren) : sizeOf child < sizeOf e := by
  cases e with
  | functionCall | tuple | seq | cat | arrayLiteral | newWithInit | print | exit =>
    have hlt := sizeOf_lt_of_mem hchild
    simp only [getChildren] at hlt
    simp
    omega
  | methodCall m target name args | messageSend m target name args =>
    rcases mem_cons.mp hchild with rfl | hmem
    · simp
      omega
    · have hlt := sizeOf_lt_of_mem hmem
      simp
      omega
  | maybeValue m mdt =>
    cases mdt with
    | justData e =>
      obtain rfl := mem_singleton.mp hchild
      simp
      omega
    | nothingData => exact absurd hchild not_mem_nil
  | letE m decls body =>
    rcases mem_cons.mp hchild with rfl | hmem
    · simp +arith
    · have hlt := sizeOf_lt_of_mem_decls hmem
      simp
      omega
  | miniLet m decl =>
    obtain rfl := mem_singleton.mp hchild
    cases decl
    simp
    omega
  | matchE m arg clauses =>
    rcases mem_cons.mp hchild with rfl | hmem
    · simp
      omega
    · have hlt := sizeOf_lt_of_mem_clauses hmem
      simp
      omega
  | _ =>
    simp only [getChildren, mem_cons, not_mem_nil, or_false] at hchild
    try casesm* _ ∨ _
    all_goals
      subst hchild
      simp +arith

theorem putClausesChildren_get (clauses : List (MatchClause Expr)) :
    putClausesChildren (clauses.flatMap getChildrenClause) clauses = .ok clauses := by
  induction clauses with
  | nil => rfl
  | cons clause clauses ih =>
    rw [flatMap_cons, getChildrenClause]
    simp only [cons_append, nil_append, putClausesChildren, ih]
    rfl

theorem getClauses_put (clauses : List (MatchClause Expr)) :
    ∀ {l : List Expr}, l.length = (clauses.flatMap getChildrenClause).length →
      ∃ result, putClausesChildren l clauses = .ok result ∧ result.flatMap getChildrenClause = l := by
  induction clauses with
  | nil =>
    intro l hl
    obtain rfl := length_eq_zero_iff.mp hl
    exact ⟨[], rfl, rfl⟩
  | cons clause clauses ih =>
    intro l hl
    have hclause : (getChildrenClause clause).length = 3 := rfl
    rw [flatMap_cons, length_append, hclause] at hl
    match l, hl with
    | pattern :: handler :: guard :: rest, hl =>
      obtain ⟨result, hput, hget⟩ := ih (l := rest) (by simp only [length_cons] at hl; omega)
      refine ⟨⟨pattern, handler, guard⟩ :: result, ?_, ?_⟩
      · rw [putClausesChildren, hput]
        rfl
      · rw [flatMap_cons, hget]
        rfl
    | [], hl | [_], hl | [_, _], hl =>
      simp only [length_cons, length_nil] at hl
      omega

theorem putChildren_get (e : Expr) : putChildren e.getChildren e = .ok e := by
  cases e with
  | maybeValue m mdt => cases mdt <;> rfl
  | letE m decls body =>
    simp only [getChildren, putChildren, putAtLeastOne, zipWith_map_right, zipWith_self, map_id']
  | matchE m arg clauses =>
    simp only [getChildren, putChildren, putClausesChildren_get]
    rfl
  | _ => rfl

theorem getChildren_put {l : List Expr} {e : Expr} (hl : l.length = e.getChildren.length) :
    ∃ result, putChildren l e = .ok result ∧ result.getChildren = l := by
  cases e with
  | functionCall | tuple | seq | cat | arrayLiteral | newWithInit | print | exit => exact ⟨_, rfl, rfl⟩
  | methodCall m target name args | messageSend m target name args =>
    obtain ⟨first, rest, rfl⟩ := exists_cons_of_length_eq_add_one hl
    exact ⟨_, rfl, rfl⟩
  | maybeValue m mdt =>
    cases mdt with
    | justData e =>
      obtain ⟨first, rfl⟩ := length_eq_one_iff.mp hl
      exact ⟨_, rfl, rfl⟩
    | nothingData =>
      obtain rfl := length_eq_zero_iff.mp hl
      exact ⟨_, rfl, rfl⟩
  | letE m decls body =>
    obtain ⟨first, rest, rfl⟩ := exists_cons_of_length_eq_add_one hl
    refine ⟨_, rfl, ?_⟩
    have hrest : rest.length = decls.length := by simpa [getChildren] using hl
    have hvals : map Decl.val (zipWith (fun decl e => ⟨decl.vars, e⟩) decls rest) = (decls.zip rest).map Prod.snd := by
      rw [map_zipWith, ← map_uncurry_zip_eq_zipWith]
      rfl
    simp only [getChildren, hvals, map_snd_zip hrest.le]
  | matchE m arg clauses =>
    obtain ⟨first, rest, rfl⟩ := exists_cons_of_length_eq_add_one hl
    obtain ⟨result, hput, hget⟩ := getClauses_put clauses (l := rest) (by simpa [getChildren] using hl)
    refine ⟨matchE m first result, ?_, ?_⟩
    · simp only [putChildren, hput]
      rfl
    · simp only [getChildren, hget]
  | skip | breakE | eos | suspend | varAccess | null | bTrue | bFalse | new | peer | stringLiteral
  | charLiteral | intLiteral | realLiteral | embed =>
    obtain rfl := length_eq_zero_iff.mp hl
    exact ⟨_, rfl, rfl⟩
  | returnE | typedExpr | closure | liftf | liftv | partyJoin | partyExtract | partyEach | async | finishAsync
  | freeze | isFrozen | get | yield | isEos | streamNext | await | fieldAccess | arraySize | arrayNew
  | consume | speculate | unary | miniLet =>
    obtain ⟨first, rfl⟩ := length_eq_one_iff.mp hl
    exact ⟨_, rfl, rfl⟩
  | partySeq | partyPar | foreach | ifThen | unlessE | whileE | repeatE | tryAssign | futureChain
  | arrayAccess | assign | binop =>
    obtain ⟨first, second, rfl⟩ := length_eq_two.mp hl
    exact ⟨_, rfl, rfl⟩
  | ifThenElse | forE | rangeLiteral =>
    obtain ⟨first, second, third, rfl⟩ := length_eq_three.mp hl
    exact ⟨_, rfl, rfl⟩

def childTree : ChildTree Expr String where
  getChildren := getChildren
  putChildren := putChildren
  exists_size := ⟨sizeOf, sizeOf_lt_of_mem_getChildren⟩
  put_get := putChildren_get
  get_put := getChildren_put

def extendAccum {γ : Type} (f : γ → Expr → γ × Expr) (acc0 : γ) (e : Expr) : Except String (γ × Expr) :=
  childTree.extendAccum f acc0 e

def extend (f : Expr → Expr) (e : Expr) : Except String Expr := childTree.extend f e

/-- Putting children is inverse to getting them, and `extend` calls its function once for each position of a
subexpression, with the positions below it before. -/
theorem extend_visits_once (e : Expr) :
    putChildren e.getChildren e = .ok e ∧
    (∀ l : List Expr, l.length = e.getChildren.length →
      ∃ result, putChildren l e = .ok result ∧ result.getChildren = l) ∧
    (∀ path, path ∈ childTree.positions e ↔ (childTree.subtreeAt e path).isSome) ∧
    ((childTree.positions e).Pairwise fun path later => ¬ path <+: later) ∧
    (∀ f : Expr → Expr, ∃ trees out, childTree.CallsWith f e trees out ∧
      List.Forall₂ (childTree.CallsAt f e) (childTree.positions e) trees ∧ extend f e = .ok out) ∧
    extend id e = .ok e := by
  refine ⟨putChildren_get e, fun l hl => getChildren_put hl, childTree.mem_positions_iff e,
    childTree.pairwise_positions e, fun f => ?_, childTree.extend_id e⟩
  obtain ⟨trees, out, hcalls, hpositions⟩ := childTree.exists_callsWith f e
  exact ⟨trees, out, hcalls, hpositions, ChildTree.extend_of_callsWith hcalls⟩

end Lfmr.FullAst.Expr
