import Lfmr.DesugarForms
import Lfmr.Proof.DesugarTasks

/-!
# What desugaring leaves

Every rewriting puts the children it is given into nodes without sugar. The one place where it makes up a
sequence that may be empty is a block of `finish`: the sequence has one `get` for each task of the block.
-/

namespace Lfmr.Ast.Expr

open Lfmr.Types (Name Ty)

variable {printer : Printer} {m : Meta}

theorem allNodes_iff {property : Expr → Prop} (e : Expr) :
    e.AllNodes property ↔ property e ∧ ∀ child ∈ e.getChildren, child.AllNodes property := by
  constructor
  · intro hall
    exact ⟨hall e (.self e), fun child hchild sub hsub => hall sub (.child hchild hsub)⟩
  · rintro ⟨hroot, hchildren⟩ sub hsub
    cases hsub with
    | self => exact hroot
    | child hchild hsub => exact hchildren _ hchild sub hsub

theorem normal_iff (e : Expr) : e.Normal ↔ normalNode e = true ∧ ∀ child ∈ e.getChildren, child.Normal :=
  allNodes_iff e

section

variable {e cond first second : Expr} {es : List Expr} {kind : NodeKind} {name : Name} {decls : List (Decl Expr)}

@[simp]
theorem normal_varAccess : (varAccess m name).Normal :=
  (normal_iff _).mpr ⟨rfl, nofun⟩

@[simp]
theorem normal_functionCall : (functionCall m name es).Normal ↔ ∀ e ∈ es, e.Normal :=
  (normal_iff _).trans (and_iff_right rfl)

@[simp]
theorem normal_async : (async m e).Normal ↔ e.Normal :=
  (normal_iff _).trans ((and_iff_right rfl).trans List.forall_mem_singleton)

@[simp]
theorem normal_get : (get m e).Normal ↔ e.Normal :=
  (normal_iff _).trans ((and_iff_right rfl).trans List.forall_mem_singleton)

@[simp]
theorem normal_letE : (letE m decls e).Normal ↔ e.Normal ∧ ∀ val ∈ decls.map Decl.val, val.Normal :=
  (normal_iff _).trans ((and_iff_right rfl).trans List.forall_mem_cons)

@[simp]
theorem normal_seq : (seq m es).Normal ↔ es ≠ [] ∧ ∀ e ∈ es, e.Normal := by
  rw [normal_iff]
  simp [normalNode, getChildren]

theorem normal_node : (node m kind es).Normal ↔ normalNode (node m kind es) = true ∧ ∀ e ∈ es, e.Normal :=
  normal_iff _

end

attribute [local simp] normal_node

theorem normal_desugarCall (name : Name) (args : List Expr) :
    (desugarCall printer m name args).Normal ↔ ∀ e ∈ args, e.Normal := by
  unfold desugarCall
  repeat' split
  all_goals simp [normalNode, skip, failWithExpr, failWithMessage, stringLiteral, intLiteral, selfSugar, setMeta]

theorem normal_desugarNew (ty : Ty) (args : List Expr) : (desugarNew m ty args).Normal ↔ ∀ e ∈ args, e.Normal := by
  unfold desugarNew
  repeat' split
  all_goals simp [normalNode]

def FormedNode : Expr → Prop
  | node _ .ifThen children => children.length = 2
  | node _ .unlessE children => children.length = 2
  | node _ (.new _) children => children.length = 0
  | _ => True

theorem normal_desugar_node {kind : NodeKind} {children : List Expr} (hformed : FormedNode (node m kind children)) :
    (desugar printer (node m kind children)).Normal ↔ ∀ e ∈ children, e.Normal := by
  cases kind with
  | ifThen | unlessE =>
    obtain ⟨cond, thn, rfl⟩ := List.length_eq_two.mp hformed
    simp [desugar, normalNode, skip]
  | new ty =>
    obtain rfl := List.length_eq_zero_iff.mp hformed
    simp [desugar, normalNode]
  | newWithInit ty => exact normal_desugarNew ty children
  | stringLiteral text => cases children <;> simp [desugar, normalNode]
  | _ => simp [desugar, normalNode]

theorem normal_desugarRepeat (name : Name) (times body : Expr) :
    (desugarRepeat m name times body).Normal ↔ times.Normal ∧ body.Normal := by
  simp [desugarRepeat, normalNode, intLiteral, and_comm]

theorem normal_desugarForeach (item : Name) (arr body : Expr) :
    (desugarForeach m item arr body).Normal ↔ arr.Normal ∧ body.Normal := by
  simp [desugarForeach, normalNode, intLiteral, skip]
  tauto

def NormalStatement (e : Expr) : Prop :=
  (e.isMiniLet = false → normalNode e = true) ∧ ∀ child ∈ e.getChildren, child.Normal

theorem normalStatement_iff {e : Expr} (he : e.isMiniLet = false) : e.NormalStatement ↔ e.Normal := by
  rw [normal_iff, NormalStatement]
  exact and_congr_left fun _ => ⟨fun h => h he, fun h _ => h⟩

theorem normalStatement_miniLet (decl : Decl Expr) : (miniLet m decl).NormalStatement ↔ decl.val.Normal := by
  simp [NormalStatement, isMiniLet, getChildren]

theorem expandMiniLets_eq_nil_iff (es : List Expr) : expandMiniLets es = [] ↔ es = [] := by
  cases es with
  | nil => exact iff_of_true rfl rfl
  | cons e es => cases e <;> simp [expandMiniLets]

theorem forall_normal_expandMiniLets (es : List Expr) :
    (∀ e ∈ expandMiniLets es, e.Normal) ↔ ∀ e ∈ es, e.NormalStatement := by
  induction es with
  | nil => simp [expandMiniLets]
  | cons e es ih =>
    rw [List.forall_mem_cons, ← ih]
    cases hlet : e.isMiniLet with
    | false => rw [expandMiniLets_cons hlet, List.forall_mem_cons, normalStatement_iff hlet]
    | true =>
      cases e with
      | miniLet m decl =>
        rw [expandMiniLets, List.forall_mem_singleton, normal_letE, normal_seq, normalStatement_miniLet]
        cases expandMiniLets es with
        | nil => simp [skip, normalNode]
        | cons first rest => simp [and_comm]
      | _ => cases hlet

theorem normal_seq_expandMiniLets (es : List Expr) :
    (seq m (expandMiniLets es)).Normal ↔ es ≠ [] ∧ ∀ e ∈ es, e.NormalStatement := by
  rw [normal_seq, forall_normal_expandMiniLets, ne_eq, expandMiniLets_eq_nil_iff]

/-! ### Blocks of `finish` -/

theorem taskGets_eq_nil_iff (index : Nat) (es : List Expr) : taskGets m index es = [] ↔ es.any isAsyncTask = false := by
  induction es generalizing index with
  | nil => exact iff_of_true rfl rfl
  | cons e es ih =>
    rw [taskGets, List.any_cons]
    cases e.isAsyncTask with
    | true => simp
    | false => simpa using ih (index + 1)

def blockStartsTask : Expr → Bool
  | seq _ eseq => eseq.any isAsyncTask
  | _ => true

theorem normal_desugarBody (body : Expr) :
    (seq m [desugarBody body]).Normal ↔ blockStartsTask body = true ∧ body.Normal := by
  rw [normal_seq, List.forall_mem_singleton, and_iff_right (List.cons_ne_nil _ _)]
  cases body with
  | seq m' es =>
    have hgets : ∀ e ∈ taskGets m' 0 es, e.Normal := by
      intro e he
      obtain ⟨i, -, -, rfl⟩ := mem_taskGets he
      simp
    rw [desugarBody, normal_letE, normal_seq, normal_seq, bindings_val, ne_eq, taskGets_eq_nil_iff,
      Bool.not_eq_false, blockStartsTask, and_iff_left hgets]
    refine and_congr_right fun htask => (and_iff_right ?_).symm
    rintro rfl
    cases htask
  | _ => exact (and_iff_right rfl).symm

theorem vals_extendDecls (f : Expr → Expr) (decls : List (Decl Expr)) :
    (extendDecls f decls).map Decl.val = (decls.map Decl.val).map (extend f) := by
  rw [extendDecls_eq_map, List.map_map, List.map_map]
  rfl

theorem parts_extendClauses (f : Expr → Expr) (clauses : List (MatchClause Expr)) :
    ((extendClauses f clauses).flatMap fun clause => [clause.mcpattern, clause.mchandler, clause.mcguard]) =
      (clauses.flatMap fun clause => [clause.mcpattern, clause.mchandler, clause.mcguard]).map (extend f) := by
  induction clauses with
  | nil => rfl
  | cons clause clauses ih =>
    rw [extendClauses, List.flatMap_cons, ih, List.flatMap_cons, List.map_append]
    rfl

theorem formedNode_map {kind : NodeKind} {children : List Expr} (m' : Meta) (f : Expr → Expr)
    (hformed : FormedNode (node m kind children)) : FormedNode (node m' kind (children.map f)) := by
  cases kind with
  | ifThen | unlessE | new => exact (List.length_map f).trans hformed
  | _ => trivial

def isBlock : Expr → Bool
  | seq _ _ | finishAsync _ _ | miniLet _ _ => true
  | _ => false

theorem normal_desugarExpr_of_not_isBlock {e : Expr} (hblock : e.isBlock = false) (hformed : FormedNode e) :
    (desugarExpr printer e).Normal ↔ ∀ child ∈ e.getChildren.map (desugarExpr printer), child.Normal := by
  cases e with
  | seq | finishAsync | miniLet => cases hblock
  | varAccess m name => exact iff_of_true normal_varAccess nofun
  | functionCall m name args =>
    rw [← desugarList_eq_map]
    exact normal_desugarCall name _
  | node m kind children =>
    rw [← desugarList_eq_map]
    refine normal_desugar_node ?_
    rw [desugarList_eq_map]
    exact formedNode_map _ _ hformed
  | repeatE m name times body =>
    refine (normal_desugarRepeat name _ _).trans ?_
    simp [getChildren, desugarExpr]
  | foreach m item arr body =>
    refine (normal_desugarForeach item _ _).trans ?_
    simp [getChildren, desugarExpr]
  | letE m decls body =>
    refine normal_letE.trans ?_
    rw [vals_extendDecls, vals_extendDecls, List.map_map]
    exact List.forall_mem_cons.symm
  | matchE m arg clauses =>
    have hnormal := normal_iff (desugarExpr printer (matchE m arg clauses))
    simp only [desugarExpr, extend, selfSugar, setMeta, desugar, getChildren] at hnormal
    rw [parts_extendClauses, parts_extendClauses, List.map_map] at hnormal
    exact hnormal.trans (and_iff_right rfl)
  | closure | async | get | forE => exact (normal_iff _).trans (and_iff_right rfl)

theorem desugar_isAsyncTask (e : Expr) : (desugar printer e).isAsyncTask = e.isAsyncTask := by
  cases e with
  | functionCall m name args =>
    rw [desugar]
    unfold desugarCall
    repeat' split
    all_goals rfl
  | node m kind children =>
    unfold desugar
    split
    all_goals first
      | rfl
      | contradiction
      | (unfold desugarNew; repeat' split)
    all_goals rfl
  | _ => rfl

theorem extend_isAsyncTask {f : Expr → Expr} (hf : ∀ e, (f e).isAsyncTask = e.isAsyncTask) (e : Expr) :
    (extend f e).isAsyncTask = e.isAsyncTask := by
  cases e <;> exact hf _

theorem selfSugar_isAsyncTask (e : Expr) : (selfSugar printer e).isAsyncTask = e.isAsyncTask := by
  cases e <;> rfl

theorem desugarExpr_isAsyncTask (printer : Printer) (e : Expr) :
    (desugarExpr printer e).isAsyncTask = e.isAsyncTask := by
  rw [desugarExpr, extend_isAsyncTask desugar_isAsyncTask, extend_isAsyncTask selfSugar_isAsyncTask]

theorem desugarBody_isAsyncTask (e : Expr) : (desugarBody e).isAsyncTask = e.isAsyncTask := by
  cases e <;> rfl

theorem any_expandMiniLets (es : List Expr) :
    (expandMiniLets es).any isAsyncTask = (es.takeWhile (!·.isMiniLet)).any isAsyncTask := by
  induction es with
  | nil => rfl
  | cons e es ih =>
    cases e with
    | miniLet m decl => rfl
    | _ => simp [expandMiniLets, isMiniLet, ih]

theorem blockStartsTask_desugarExpr (printer : Printer) (m : Meta) (body : Expr) :
    blockStartsTask (desugarExpr printer body) = startsTask (finishAsync m body) := by
  cases body with
  | seq m' es =>
    have htakeWhile : (fun e : Expr => !e.isMiniLet) ∘ desugarExpr printer = fun e => !e.isMiniLet :=
      funext fun e => congrArg _ (desugarExpr_isMiniLet printer e)
    have htask : isAsyncTask ∘ desugarExpr printer = isAsyncTask := funext (desugarExpr_isAsyncTask printer)
    rw [startsTask, ← htask, ← List.any_map, ← htakeWhile, ← List.takeWhile_map, ← any_expandMiniLets,
      ← desugarList_eq_map]
    rfl
  | finishAsync m' inner =>
    rw [startsTask, ← desugarExpr_isAsyncTask printer, ← desugarBody_isAsyncTask]
    exact Bool.or_false _
  | functionCall m' name args =>
    refine (?_ : blockStartsTask (desugarCall printer _ name _) = true)
    unfold desugarCall
    repeat' split
    all_goals rfl
  | node m' kind children =>
    refine (?_ : blockStartsTask (desugar printer (node _ kind _)) = true)
    unfold desugar
    split
    all_goals first
      | rfl
      | contradiction
      | (unfold desugarNew; repeat' split)
    all_goals rfl
  | _ => rfl

/-- Desugaring leaves no sugar and no empty sequence exactly if every block of `finish` starts a task. -/
theorem normalStatement_desugarExpr (e : Expr) : e.AllNodes (parsedNode · = true) → e.AllNodes FormedNode →
      ((desugarExpr printer e).NormalStatement ↔ e.StartsTasks) := by
  refine childInduction (motive := fun e => e.AllNodes (parsedNode · = true) → e.AllNodes FormedNode →
    ((desugarExpr printer e).NormalStatement ↔ e.StartsTasks)) (fun e ih hparsed hformed => ?_) e
  obtain ⟨hparsedNode, hparsedChildren⟩ := (allNodes_iff e).mp hparsed
  obtain ⟨hformedNode, hformedChildren⟩ := (allNodes_iff e).mp hformed
  have hchildren : ∀ child ∈ e.getChildren,
      ((desugarExpr printer child).NormalStatement ↔ child.StartsTasks) := fun child hchild =>
    ih child hchild (hparsedChildren child hchild) (hformedChildren child hchild)
  have hstatements : (∀ child ∈ e.getChildren.map (desugarExpr printer), child.NormalStatement) ↔
      ∀ child ∈ e.getChildren, child.AllNodes (startsTask · = true) := by
    rw [List.forall_mem_map]
    exact forall₂_congr hchildren
  have hplain (hseq : e.getChildren.all (!·.isMiniLet) = true) (child : Expr)
      (hchild : child ∈ e.getChildren.map (desugarExpr printer)) : child.NormalStatement ↔ child.Normal := by
    obtain ⟨child, hmem, rfl⟩ := List.mem_map.mp hchild
    refine normalStatement_iff ((desugarExpr_isMiniLet printer child).trans ?_)
    simpa using List.all_eq_true.mp hseq child hmem
  rw [StartsTasks, allNodes_iff, ← hstatements]
  cases hblock : e.isBlock with
  | false =>
    have hroot : e.getChildren.all (!·.isMiniLet) = true ∧ e.isMiniLet = false ∧ startsTask e = true := by
      cases e with
      | seq | finishAsync | miniLet => cases hblock
      | _ => exact ⟨hparsedNode, rfl, rfl⟩
    rw [normalStatement_iff ((desugarExpr_isMiniLet printer e).trans hroot.2.1), and_iff_right hroot.2.2,
      normal_desugarExpr_of_not_isBlock hblock hformedNode]
    exact (forall₂_congr (hplain hroot.1)).symm
  | true =>
    cases e with
    | seq m es =>
      have hne : es.map (desugarExpr printer) ≠ [] := by
        rintro hnil
        rw [List.map_eq_nil_iff.mp hnil] at hparsedNode
        cases hparsedNode
      have hroot : startsTask (seq m es) = true := rfl
      rw [normalStatement_iff (desugarExpr_isMiniLet printer _), and_iff_right hroot]
      rw [← desugarList_eq_map] at hne
      refine (normal_seq_expandMiniLets _).trans ((and_iff_right hne).trans ?_)
      rw [desugarList_eq_map]
      rfl
    | miniLet m decl =>
      have hroot : startsTask (miniLet m decl) = true := rfl
      rw [and_iff_right hroot, forall₂_congr (hplain hparsedNode)]
      exact (normalStatement_miniLet _).trans List.forall_mem_singleton.symm
    | finishAsync m body =>
      rw [normalStatement_iff (desugarExpr_isMiniLet printer _), forall₂_congr (hplain hparsedNode),
        ← blockStartsTask_desugarExpr printer m body]
      exact (normal_desugarBody _).trans (and_congr_right fun _ => List.forall_mem_singleton.symm)
    | _ => cases hblock

end Lfmr.Ast.Expr

namespace Lfmr.FullAst.Expr

open Lfmr.Ast (Meta Decl MatchClause)
open Lfmr.Ast.Expr (AllNodes FormedNode Parsed Normal StartsTasks Within desugarExpr)

theorem compactList_eq_map (es : List Expr) : compactList es = es.map compact := by
  induction es with
  | nil => rfl
  | cons e es ih => rw [compactList, ih, List.map_cons]

theorem vals_compactDecls (decls : List (Decl Expr)) :
    (compactDecls decls).map Decl.val = (decls.map Decl.val).map compact := by
  induction decls with
  | nil => rfl
  | cons decl decls ih => rw [compactDecls, List.map_cons, ih]; rfl

theorem parts_compactClauses (clauses : List (MatchClause Expr)) :
    ((compactClauses clauses).flatMap fun clause => [clause.mcpattern, clause.mchandler, clause.mcguard]) =
      (clauses.flatMap getChildrenClause).map compact := by
  induction clauses with
  | nil => rfl
  | cons clause clauses ih =>
    rw [compactClauses, List.flatMap_cons, ih, List.flatMap_cons, List.map_append]
    rfl

theorem getChildren_compact (e : Expr) : e.compact.getChildren = e.getChildren.map compact := by
  cases e with
  | maybeValue m mdt => cases mdt <;> rfl
  | letE m decls body => exact congrArg (_ :: ·) (vals_compactDecls decls)
  | matchE m arg clauses => exact congrArg (_ :: ·) (parts_compactClauses clauses)
  | functionCall | tuple | seq | cat | arrayLiteral | newWithInit | print | exit => exact compactList_eq_map _
  | methodCall | messageSend => exact congrArg (_ :: ·) (compactList_eq_map _)
  | _ => rfl

theorem formedNode_compact (e : Expr) : FormedNode e.compact := by
  cases e with
  | maybeValue m mdt => cases mdt <;> trivial
  | ifThen | unlessE | new => rfl
  | _ => trivial

theorem allNodes_formedNode_compact (e : Expr) : e.compact.AllNodes FormedNode := by
  intro sub hsub
  generalize hcompact : e.compact = whole at hsub
  induction hsub generalizing e with
  | self => exact hcompact ▸ formedNode_compact e
  | child hchild _ ih =>
    rw [← hcompact, getChildren_compact] at hchild
    obtain ⟨child, -, hchild⟩ := List.mem_map.mp hchild
    exact ih child hchild

/-- For what the parser makes, desugaring leaves no sugar and no empty sequence exactly if every block of
`finish` starts a task. -/
theorem desugarExpr_normal_iff (printer : Ast.Printer) (e : Expr) (hparsed : e.compact.Parsed) :
    (desugarExpr printer e.compact).Normal ↔ e.compact.StartsTasks := by
  have hroot := (Ast.Expr.desugarExpr_isMiniLet printer e.compact).trans hparsed.root
  rw [← Ast.Expr.normalStatement_iff hroot]
  exact Ast.Expr.normalStatement_desugarExpr _ hparsed.nodes (allNodes_formedNode_compact e)

def finishOf (statement : Expr) : Expr := finishAsync (Meta.meta (1, 1)) (seq (Meta.meta (1, 8)) [statement])

theorem parsed_finishOf {statement : Expr}
    (hnodes : statement.compact.AllNodes (Ast.Expr.parsedNode · = true)) : (finishOf statement).compact.Parsed := by
  have hblock : (seq (Meta.meta (1, 8)) [statement]).compact.AllNodes (Ast.Expr.parsedNode · = true) :=
    (Ast.Expr.allNodes_iff _).mpr ⟨rfl, List.forall_mem_singleton.mpr hnodes⟩
  exact ⟨rfl, (Ast.Expr.allNodes_iff _).mpr ⟨rfl, List.forall_mem_singleton.mpr hblock⟩⟩

theorem parsed_skip : (skip (Meta.meta (1, 10))).compact.AllNodes (Ast.Expr.parsedNode · = true) :=
  (Ast.Expr.allNodes_iff _).mpr ⟨rfl, nofun⟩

theorem parsed_task : (finishOf (async (Meta.meta (1, 10)) (skip (Meta.meta (1, 10))))).compact.Parsed :=
  parsed_finishOf ((Ast.Expr.allNodes_iff _).mpr ⟨rfl, List.forall_mem_singleton.mpr parsed_skip⟩)

/-- A block that is one task. -/
theorem desugarExpr_normal_task :
    (finishOf (async (Meta.meta (1, 10)) (skip (Meta.meta (1, 10))))).compact.Parsed ∧
      ∀ printer, (desugarExpr printer (finishOf (async (Meta.meta (1, 10)) (skip (Meta.meta (1, 10))))).compact).Normal ↔
        (finishOf (async (Meta.meta (1, 10)) (skip (Meta.meta (1, 10))))).compact.StartsTasks :=
  ⟨parsed_task, fun printer => desugarExpr_normal_iff printer _ parsed_task⟩

/-- A block without a task: the sequence of its `get`s is empty. -/
theorem finish_without_task :
    (finishOf (skip (Meta.meta (1, 10)))).compact.Parsed ∧
      ∀ printer, (∃ m, Within (.seq m []) (desugarExpr printer (finishOf (skip (Meta.meta (1, 10)))).compact)) ∧
        ¬ (desugarExpr printer (finishOf (skip (Meta.meta (1, 10)))).compact).Normal := by
  refine ⟨parsed_finishOf parsed_skip, fun printer => ?_⟩
  have hwithin : ∃ m, Within (.seq m []) (desugarExpr printer (finishOf (skip (Meta.meta (1, 10)))).compact) :=
    ⟨_, .child List.mem_cons_self (.child List.mem_cons_self (.self _))⟩
  obtain ⟨m, hempty⟩ := hwithin
  exact ⟨⟨m, hempty⟩, fun hnormal => Bool.false_ne_true (hnormal _ hempty)⟩

end Lfmr.FullAst.Expr
