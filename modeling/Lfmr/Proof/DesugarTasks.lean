import Mathlib.Data.List.Basic
import Lfmr.TaskBlocks

/-!
# What desugaring does to tasks

It starts no tasks that were not there, and a statement that is a task, or a `let`, stays one.
-/

namespace Lfmr.Ast

open List

open Lfmr.Types (Name)

namespace Expr

variable {printer : Printer}

def KeepsTasks (f : Expr → Expr) : Prop := ∀ e pos, HasTask (f e) pos → HasTask e pos

theorem hasTask_iff (e : Expr) (pos : SourcePos) :
    HasTask e pos ↔ (e.isAsyncTask = true ∧ e.sourcePos = pos) ∨ ∃ child ∈ e.spine, HasTask child pos := by
  constructor
  · intro h
    cases h with
    | here m body => exact Or.inl ⟨rfl, rfl⟩
    | inside hchild htask => exact Or.inr ⟨_, hchild, htask⟩
  · rintro (⟨htask, rfl⟩ | ⟨child, hchild, htask⟩)
    · cases e with
      | async m body => exact .here m body
      | _ => cases htask
    · exact .inside hchild htask

variable {e : Expr}

theorem not_hasTask_of_spine_nil (htask : e.isAsyncTask = false) (hspine : e.spine = [])
    (pos : SourcePos) : ¬ HasTask e pos := by
  rw [hasTask_iff, htask, hspine]
  simp

theorem not_hasTask_node (m : Meta) (kind : NodeKind) (children : List Expr) (pos : SourcePos) :
    ¬ HasTask (node m kind children) pos :=
  not_hasTask_of_spine_nil rfl rfl pos

theorem setMeta_keepsTasks (m : Expr → Meta) (hm : ∀ e, (m e).sourcePos = e.sourcePos) :
    KeepsTasks fun e => e.setMeta (m e) := by
  intro e pos htask
  rw [hasTask_iff] at htask ⊢
  have hpos := hm e
  cases e <;> simpa only [setMeta, isAsyncTask, sourcePos, emeta, spine, hpos] using htask

theorem extend_keepsTasks {f : Expr → Expr} (hf : KeepsTasks f) : KeepsTasks (extend f) := by
  intro e
  apply childInduction (motive := fun e => ∀ pos, HasTask (extend f e) pos → HasTask e pos)
  intro e ih pos htask
  cases e with
  | async m body =>
    rw [extend] at htask
    obtain ⟨-, hpos⟩ | ⟨child, hchild, -⟩ := (hasTask_iff _ _).mp (hf _ _ htask)
    · exact (hasTask_iff _ _).mpr (Or.inl ⟨rfl, hpos⟩)
    · cases hchild
  | get m val | finishAsync m val | miniLet m decl | repeatE m name times body =>
    rw [extend] at htask
    obtain ⟨hasync, -⟩ | ⟨child, hchild, hin⟩ := (hasTask_iff _ _).mp (hf _ _ htask)
    · cases hasync
    · rw [mem_singleton.mp hchild] at hin
      exact .inside (.head _) (ih _ (.head _) pos hin)
  | letE m decls body =>
    rw [extend] at htask
    obtain ⟨hasync, -⟩ | ⟨child, hchild, hin⟩ := (hasTask_iff _ _).mp (hf _ _ htask)
    · cases hasync
    · rcases mem_cons.mp hchild with rfl | hdecl
      · exact .inside (.head _) (ih body (.head _) pos hin)
      · rw [extendDecls_eq_map, map_map] at hdecl
        obtain ⟨decl, hmem, rfl⟩ := mem_map.mp hdecl
        have hval : decl.val ∈ decls.map Decl.val := mem_map_of_mem hmem
        exact .inside (.tail _ hval) (ih _ (.tail _ hval) pos hin)
  | seq m eseq =>
    rw [extend, extendList_eq_map] at htask
    obtain ⟨hasync, -⟩ | ⟨child, hchild, hin⟩ := (hasTask_iff _ _).mp (hf _ _ htask)
    · cases hasync
    · obtain ⟨e, hmem, rfl⟩ := mem_map.mp hchild
      exact .inside hmem (ih e hmem pos hin)
  | _ =>
    rw [extend] at htask
    exact absurd (hf _ _ htask) (not_hasTask_of_spine_nil rfl rfl pos)

theorem selfSugar_keepsTasks : KeepsTasks (selfSugar printer) :=
  setMeta_keepsTasks _ fun _ => rfl

theorem not_hasTask_desugarCall (m : Meta) (name : Name) (args : List Expr) (pos : SourcePos) :
    ¬ HasTask (desugarCall printer m name args) pos := by
  unfold desugarCall
  repeat' split
  all_goals exact not_hasTask_of_spine_nil rfl rfl pos

theorem not_hasTask_desugarNew (m : Meta) (ty : Types.Ty) (args : List Expr) (pos : SourcePos) :
    ¬ HasTask (desugarNew m ty args) pos := by
  unfold desugarNew
  repeat' split
  all_goals exact not_hasTask_node _ _ _ pos

theorem not_hasTask_desugar_node (m : Meta) (kind : NodeKind) (children : List Expr) (pos : SourcePos) :
    ¬ HasTask (desugar printer (node m kind children)) pos := by
  unfold desugar
  split
  all_goals first
    | exact not_hasTask_node _ _ _ pos
    | exact not_hasTask_desugarNew _ _ _ pos
    | contradiction

variable {pos : SourcePos}

theorem hasTask_seq {m : Meta} {eseq : List Expr} (h : HasTask (seq m eseq) pos) : ∃ e ∈ eseq, HasTask e pos := by
  obtain ⟨hasync, -⟩ | hchild := (hasTask_iff _ _).mp h
  · cases hasync
  · exact hchild

theorem hasTask_letE {m : Meta} {decls : List (Decl Expr)} {body : Expr} (h : HasTask (letE m decls body) pos) :
    HasTask body pos ∨ ∃ e ∈ decls.map Decl.val, HasTask e pos := by
  obtain ⟨hasync, -⟩ | hchild := (hasTask_iff _ _).mp h
  · cases hasync
  · exact (exists_mem_cons_iff ..).mp hchild

theorem expandMiniLets_miniLet (m : Meta) (decl : Decl Expr) (es : List Expr) :
    ∃ rest, expandMiniLets (miniLet m decl :: es) = [letE m [decl] (seq m rest)] ∧
      (rest = expandMiniLets es ∨ expandMiniLets es = [] ∧ rest = [skip m]) := by
  rw [expandMiniLets]
  split
  · rename_i hnil
    exact ⟨_, rfl, Or.inr ⟨hnil, rfl⟩⟩
  · exact ⟨_, rfl, Or.inl rfl⟩

theorem expandMiniLets_cons (he : e.isMiniLet = false) (es : List Expr) :
    expandMiniLets (e :: es) = e :: expandMiniLets es := by
  cases e with
  | miniLet => cases he
  | _ => rfl

theorem expandMiniLets_hasTask {es : List Expr} (he : e ∈ expandMiniLets es)
    (htask : HasTask e pos) : ∃ s ∈ es, HasTask s pos := by
  induction es generalizing e with
  | nil => cases he
  | cons s es ih =>
    rw [exists_mem_cons_iff]
    by_cases hlet : s.isMiniLet = true
    · cases s with
      | miniLet m decl =>
        obtain ⟨rest, hexpand, hrest⟩ := expandMiniLets_miniLet m decl es
        rw [hexpand, mem_singleton] at he
        rw [he] at htask
        rcases hasTask_letE htask with hbody | ⟨val, hval, hin⟩
        · obtain ⟨s', hs', hin⟩ := hasTask_seq hbody
          rcases hrest with rfl | ⟨-, rfl⟩
          · exact Or.inr (ih hs' hin)
          · rw [mem_singleton.mp hs'] at hin
            exact absurd hin (not_hasTask_node _ _ _ pos)
        · exact Or.inl (.inside hval hin)
      | _ => cases hlet
    · rw [expandMiniLets_cons (Bool.eq_false_iff.mpr hlet)] at he
      rcases mem_cons.mp he with rfl | hlater
      · exact Or.inl htask
      · exact Or.inr (ih hlater htask)

theorem bindings_val (index : Nat) (es : List Expr) : (bindings index es).map Decl.val = es := by
  induction es generalizing index with
  | nil => rfl
  | cons e es ih => rw [bindings, map_cons, ih]

theorem mem_taskGets {m : Meta} {index : Nat} {es : List Expr} (he : e ∈ taskGets m index es) :
    ∃ i, index ≤ i ∧ i < index + es.length ∧ e = get m (varAccess m (seqName i)) := by
  induction es generalizing index with
  | nil => cases he
  | cons s es ih =>
    rw [length_cons]
    have hlater : e ∈ taskGets m (index + 1) es →
        ∃ i, index ≤ i ∧ i < index + (es.length + 1) ∧ e = get m (varAccess m (seqName i)) := by
      intro hin
      obtain ⟨i, hle, hlt, rfl⟩ := ih hin
      exact ⟨i, by omega, by omega, rfl⟩
    rw [taskGets] at he
    split at he
    · rcases mem_cons.mp he with rfl | hin
      · exact ⟨index, by omega, by omega, rfl⟩
      · exact hlater hin
    · exact hlater he

theorem not_hasTask_taskGets {m : Meta} {index : Nat} {es : List Expr}
    (he : e ∈ taskGets m index es) (pos : SourcePos) : ¬ HasTask e pos := by
  obtain ⟨i, -, -, rfl⟩ := mem_taskGets he
  intro htask
  obtain ⟨hasync, -⟩ | ⟨child, hchild, hin⟩ := (hasTask_iff _ _).mp htask
  · cases hasync
  · rw [mem_singleton.mp hchild] at hin
    exact absurd hin (not_hasTask_of_spine_nil rfl rfl pos)

theorem desugarBody_hasTask {body : Expr} (h : HasTask (desugarBody body) pos) : HasTask body pos := by
  cases body with
  | seq m eseq =>
    rcases hasTask_letE h with hgets | ⟨e, he, hin⟩
    · obtain ⟨e, he, hin⟩ := hasTask_seq hgets
      exact absurd hin (not_hasTask_taskGets he pos)
    · rw [bindings_val] at he
      exact .inside he hin
  | _ => exact h

theorem desugar_keepsTasks : KeepsTasks (desugar printer) := by
  intro e pos htask
  cases e with
  | seq m eseq =>
    obtain ⟨e, he, hin⟩ := hasTask_seq htask
    obtain ⟨s, hs, hin'⟩ := expandMiniLets_hasTask he hin
    exact .inside hs hin'
  | functionCall m name args => exact absurd htask (not_hasTask_desugarCall m name args pos)
  | node m kind children => exact absurd htask (not_hasTask_desugar_node m kind children pos)
  | repeatE m name times body =>
    rcases hasTask_letE htask with hwhile | ⟨e, he, hin⟩
    · exact absurd hwhile (not_hasTask_node _ _ _ pos)
    · rcases mem_pair.mp he with rfl | rfl
      · exact absurd hin (not_hasTask_node _ _ _ pos)
      · exact .inside (.head _) hin
  | foreach m item arr body =>
    rcases hasTask_letE htask with hcond | ⟨e, he, hin⟩
    · exact absurd hcond (not_hasTask_node _ _ _ pos)
    · rw [mem_singleton.mp he] at hin
      exact absurd hin (not_hasTask_node _ _ _ pos)
  | finishAsync m body =>
    obtain ⟨e, he, hin⟩ := hasTask_seq htask
    rw [mem_singleton.mp he] at hin
    exact .inside (.head _) (desugarBody_hasTask hin)
  | _ => exact htask

theorem desugarExpr_keepsTasks : KeepsTasks (desugarExpr printer) := by
  intro e pos htask
  apply extend_keepsTasks selfSugar_keepsTasks e pos
  exact extend_keepsTasks desugar_keepsTasks _ pos htask

theorem extend_isMiniLet {f : Expr → Expr} (hf : ∀ e, (f e).isMiniLet = e.isMiniLet) (e : Expr) :
    (extend f e).isMiniLet = e.isMiniLet := by
  cases e <;> exact hf _

theorem selfSugar_isMiniLet (e : Expr) : (selfSugar printer e).isMiniLet = e.isMiniLet := by
  cases e <;> rfl

theorem desugarCall_isMiniLet (m : Meta) (name : Name) (args : List Expr) :
    (desugarCall printer m name args).isMiniLet = false := by
  unfold desugarCall
  repeat' split
  all_goals rfl

theorem desugarNew_isMiniLet (m : Meta) (ty : Types.Ty) (args : List Expr) :
    (desugarNew m ty args).isMiniLet = false := by
  unfold desugarNew
  repeat' split
  all_goals rfl

theorem desugar_isMiniLet (e : Expr) : (desugar printer e).isMiniLet = e.isMiniLet := by
  cases e with
  | functionCall m name args => exact desugarCall_isMiniLet m name args
  | node m kind children =>
    unfold desugar
    split
    all_goals first
      | rfl
      | exact desugarNew_isMiniLet _ _ _
      | contradiction
  | _ => rfl

theorem desugarExpr_isMiniLet (printer : Printer) (e : Expr) : (desugarExpr printer e).isMiniLet = e.isMiniLet := by
  rw [desugarExpr, extend_isMiniLet desugar_isMiniLet, extend_isMiniLet selfSugar_isMiniLet]

theorem desugarExpr_async (printer : Printer) {task : Expr} (htask : task.isAsyncTask = true) :
    ∃ m body, desugarExpr printer task = async m body ∧ m.sourcePos = task.sourcePos := by
  cases task with
  | async m body => exact ⟨_, _, rfl, rfl⟩
  | _ => cases htask

theorem desugarList_eq_map (printer : Printer) (es : List Expr) :
    extendList (desugar printer) (extendList (selfSugar printer) es) = es.map (desugarExpr printer) := by
  rw [extendList_eq_map, extendList_eq_map, map_map]
  rfl

theorem desugarExpr_finishAsync (printer : Printer) (m blockMeta : Meta) (block : List Expr) :
    ∃ m' m'', desugarExpr printer (finishAsync m (seq blockMeta block)) =
      seq m' [desugarBody (seq m'' (expandMiniLets (block.map (desugarExpr printer))))] := by
  rw [← desugarList_eq_map]
  exact ⟨_, _, rfl⟩

end Expr

end Lfmr.Ast
