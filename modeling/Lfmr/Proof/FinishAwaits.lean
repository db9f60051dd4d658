import Lfmr.Proof.DesugarTasks

/-!
# Which tasks a finish block waits for

Sequences are desugared before the `finish` around them, so the statements after a `let` are no longer
statements of the block when `finish` looks for tasks.
-/

namespace Lfmr.Ast

open List

open Lfmr.Types (Name)

namespace Expr

variable {printer : Printer} (oracle : Oracle)

/-! ### Names of statements -/

theorem seqName_injective {i j : Nat} (h : seqName i = seqName j) : i = j := by
  have hdigits : Nat.toDigits 10 i = Nat.toDigits 10 j := append_cancel_left h
  have hi := Nat.ofDigitChars_toDigits (b := 10) (n := i) (by decide) (by decide)
  have hj := Nat.ofDigitChars_toDigits (b := 10) (n := j) (by decide) (by decide)
  rw [← hi, hdigits, hj]

theorem bindings_append (index : Nat) (first second : List Expr) :
    bindings index (first ++ second) = bindings index first ++ bindings (index + first.length) second := by
  induction first generalizing index with
  | nil => rfl
  | cons e es ih =>
    rw [cons_append, bindings, bindings, ih, length_cons, cons_append]
    rw [Nat.add_right_comm, Nat.add_assoc]

theorem taskGets_append (m : Meta) (index : Nat) (first second : List Expr) : taskGets m index (first ++ second) =
      taskGets m index first ++ taskGets m (index + first.length) second := by
  induction first generalizing index with
  | nil => rfl
  | cons e es ih =>
    have hlength : index + (e :: es).length = index + 1 + es.length := by
      rw [length_cons]
      omega
    rw [cons_append, taskGets, taskGets, ih, hlength]
    split
    · rfl
    · rfl

/-! ### Runs of lists -/

theorem execDecls_append (first second : List (Decl Expr)) (store : Store) (next : Nat) :
    execDecls oracle (first ++ second) store next =
      let (store', bound) := execDecls oracle first store next
      let (store'', rest) := execDecls oracle second store' bound.next
      (store'', bound.before rest) := by
  induction first generalizing store next with
  | nil => rfl
  | cons decl decls ih =>
    simp only [cons_append, execDecls, ih, Outcome.before, append_assoc]

theorem lookup_declare_ne {name other : Name} (h : name ≠ other) (store : Store) (value : Value) :
    (store.declare [other] value).lookup name = store.lookup name := by
  simp only [Store.declare, map_cons, map_nil, cons_append, nil_append]
  rw [lookup_cons, beq_eq_false_iff_ne.mpr h]

theorem lookup_bindings {i index : Nat} (hi : i < index) (es : List Expr) (store : Store) (next : Nat) :
    (execDecls oracle (bindings index es) store next).1.lookup (seqName i) = store.lookup (seqName i) := by
  induction es generalizing index store next with
  | nil => rfl
  | cons e es ih =>
    rw [bindings, execDecls]
    have hne : seqName i ≠ seqName index := fun heq => Nat.ne_of_lt hi (seqName_injective heq)
    exact (ih (Nat.lt_succ_of_lt hi) _ _).trans (lookup_declare_ne hne store _)

/-! ### Tasks that are waited for -/

theorem expandMiniLets_append {first : List Expr} (hfirst : ∀ s ∈ first, s.isMiniLet = false)
    (second : List Expr) : expandMiniLets (first ++ second) = first ++ expandMiniLets second := by
  induction first with
  | nil => rfl
  | cons s first ih =>
    obtain ⟨hs, hrest⟩ := forall_mem_cons.mp hfirst
    rw [cons_append, expandMiniLets_cons hs, ih hrest, cons_append]

theorem exec_desugarBody (m : Meta) (es : List Expr) (store : Store) (next : Nat) :
    (desugarBody (seq m es)).exec oracle store next =
      let (store', bound) := execDecls oracle (bindings 0 es) store next
      bound.before (execSeq oracle (taskGets m 0 es) store' (.data 0) bound.next) :=
  rfl

theorem exec_seq_singleton (m : Meta) (e : Expr) (store : Store) (next : Nat) :
    ((seq m [e]).exec oracle store next).trace = (e.exec oracle store next).trace :=
  append_nil _

theorem mem_trace_execSeq {es : List Expr} {e : Expr} (he : e ∈ es) {store : Store} {event : Event}
    (hevent : ∀ next, event ∈ (e.exec oracle store next).trace) (value : Value) (next : Nat) :
    event ∈ (execSeq oracle es store value next).trace := by
  induction es generalizing value next with
  | nil => cases he
  | cons s es ih =>
    rw [execSeq]
    rcases mem_cons.mp he with rfl | hlater
    · exact mem_append_left _ (hevent next)
    · exact mem_append_right _ (ih hlater _ _)

theorem get_mem_trace {store : Store} {name : Name} {fut : Nat}
    (hlookup : store.lookup name = some (.future fut)) (m : Meta) (next : Nat) :
    Event.get fut ∈ ((get m (varAccess m name)).exec oracle store next).trace := by
  simp only [exec, hlookup, Outcome.awaited, nil_append, mem_singleton]

theorem get_mem_taskGets (m : Meta) (first second : List Expr) {task : Expr} (htask : task.isAsyncTask = true) :
    get m (varAccess m (seqName first.length)) ∈ taskGets m 0 (first ++ task :: second) := by
  rw [taskGets_append, taskGets, if_pos htask, Nat.zero_add]
  exact mem_append_right _ (.head _)

theorem awaited_of_statement (m : Meta) (first second : List Expr) (taskMeta : Meta) (body : Expr)
    (store : Store) (next : Nat) :
    Awaited ((desugarBody (seq m (first ++ async taskMeta body :: second))).exec oracle store next).trace
      taskMeta.sourcePos := by
  have hget : get m (varAccess m (seqName first.length)) ∈
      taskGets m 0 (first ++ async taskMeta body :: second) := get_mem_taskGets m first second rfl
  rw [exec_desugarBody, bindings_append, execDecls_append, Nat.zero_add]
  simp only [bindings, execDecls, exec, Outcome.before]
  set before := execDecls oracle (bindings 0 first) store next
  set after := execDecls oracle (bindings (first.length + 1) second)
    (before.1.declare [seqName first.length] (.future before.2.next)) (before.2.next + 1) with hafter
  have hlookup : after.1.lookup (seqName first.length) = some (.future before.2.next) := by
    rw [hafter, lookup_bindings oracle (Nat.lt_succ_self _)]
    exact lookup_cons_self
  refine ⟨before.2.trace, _, before.2.next, ?_, mem_append_right after.2.trace
    (mem_trace_execSeq oracle hget (get_mem_trace oracle hlookup m) (.data 0) after.2.next)⟩
  simp only [append_assoc, cons_append, nil_append]

/-! ### What the block itself can wait for -/

end Expr

def Store.Holds (store : Store) (fut : Nat) : Prop := ∃ name, (name, Value.future fut) ∈ store

def Store.Knows (store : Store) (next fut : Nat) : Prop := store.Holds fut ∨ next ≤ fut

def Store.Made (store : Store) (next : Nat) : Prop := ∀ fut, store.Holds fut → fut < next

theorem Store.Knows.mono {store : Store} {base next fut : Nat} (h : store.Knows next fut)
    (hle : base ≤ next) : store.Knows base fut :=
  h.imp_right (Nat.le_trans hle)

theorem Store.Made.mono {store : Store} {base next : Nat} (h : store.Made base) (hle : base ≤ next) : store.Made next :=
  fun fut hfut => Nat.lt_of_lt_of_le (h fut hfut) hle

theorem Store.declare_holds {store : Store} {vars : List Name} {value : Value} {fut : Nat}
    (h : (store.declare vars value).Holds fut) : value = .future fut ∨ store.Holds fut := by
  obtain ⟨name, hmem⟩ := h
  rcases mem_append.mp hmem with hnew | hold
  · obtain ⟨var, -, heq⟩ := mem_map.mp hnew
    exact Or.inl (Prod.ext_iff.mp heq).2
  · exact Or.inr ⟨name, hold⟩

namespace Outcome

structure Contained (store : Store) (next : Nat) (tasks : SourcePos → Prop) (outcome : Outcome) : Prop where
  next_le : next ≤ outcome.next
  spawn : ∀ pos fut, .spawn pos fut ∈ outcome.trace → tasks pos ∧ next ≤ fut ∧ fut < outcome.next
  get : ∀ fut, .get fut ∈ outcome.trace → store.Knows next fut ∧ fut < outcome.next

def Valued (store : Store) (next : Nat) (outcome : Outcome) : Prop :=
  ∀ fut, outcome.value = .future fut → store.Knows next fut ∧ fut < outcome.next

section

variable {store store' : Store} {next : Nat} {tasks : SourcePos → Prop} {first second outcome : Outcome}

theorem contained_silent (store : Store) (value : Value) (next : Nat) (tasks : SourcePos → Prop) :
    Contained store next tasks ⟨value, next, []⟩ where
  next_le := Nat.le_refl next
  spawn _ _ h := by cases h
  get _ h := by cases h

theorem Contained.before (hfirst : first.Contained store next tasks)
    (hsecond : second.Contained store' first.next tasks)
    (hstore : ∀ fut, store'.Holds fut → store.Knows next fut) :
    (first.before second).Contained store next tasks where
  next_le := Nat.le_trans hfirst.next_le hsecond.next_le
  spawn pos fut h := by
    rcases mem_append.mp h with hin | hin
    · obtain ⟨htask, hle, hlt⟩ := hfirst.spawn pos fut hin
      exact ⟨htask, hle, Nat.lt_of_lt_of_le hlt hsecond.next_le⟩
    · obtain ⟨htask, hle, hlt⟩ := hsecond.spawn pos fut hin
      exact ⟨htask, Nat.le_trans hfirst.next_le hle, hlt⟩
  get fut h := by
    rcases mem_append.mp h with hin | hin
    · obtain ⟨hknows, hlt⟩ := hfirst.get fut hin
      exact ⟨hknows, Nat.lt_of_lt_of_le hlt hsecond.next_le⟩
    · obtain ⟨hknows, hlt⟩ := hsecond.get fut hin
      exact ⟨hknows.elim (hstore fut) fun hle => Or.inr (Nat.le_trans hfirst.next_le hle), hlt⟩

theorem Valued.before (hfirst : next ≤ first.next) (hsecond : second.Valued store' first.next)
    (hstore : ∀ fut, store'.Holds fut → store.Knows next fut) : (first.before second).Valued store next := by
  intro fut hfut
  obtain ⟨hknows, hlt⟩ := hsecond fut hfut
  exact ⟨hknows.elim (hstore fut) fun hle => Or.inr (Nat.le_trans hfirst hle), hlt⟩

theorem Contained.awaited (h : outcome.Contained store next tasks) (hvalued : outcome.Valued store next) :
    (outcome.awaited .quiet).Contained store next tasks := by
  unfold Outcome.awaited
  split
  · rename_i fut hvalue
    refine ⟨h.next_le, fun pos fut' hin => ?_, fun fut' hin => ?_⟩
    · rcases mem_append.mp hin with hold | hnew
      · exact h.spawn pos fut' hold
      · cases mem_singleton.mp hnew
    · rcases mem_append.mp hin with hold | hnew
      · exact h.get fut' hold
      · cases mem_singleton.mp hnew
        exact hvalued fut hvalue
  · exact ⟨h.next_le, h.spawn, h.get⟩

theorem valued_awaited (store : Store) (next : Nat) (outcome : Outcome) :
    (outcome.awaited .quiet).Valued store next := by
  intro fut hfut
  unfold Outcome.awaited at hfut
  split at hfut
  · cases hfut
  · cases hfut

theorem Contained.mono {tasks' : SourcePos → Prop} (h : outcome.Contained store next tasks)
    (htasks : ∀ pos, tasks pos → tasks' pos) : outcome.Contained store next tasks' :=
  ⟨h.next_le, fun pos fut hin => (h.spawn pos fut hin).imp_left (htasks pos), h.get⟩

theorem Valued.declare_made (h : outcome.Valued store next) (hmade : store.Made next)
    (hle : next ≤ outcome.next) (vars : List Name) :
    (store.declare vars outcome.value).Made outcome.next := by
  intro fut hfut
  rcases Store.declare_holds hfut with hvalue | hold
  · exact (h fut hvalue).2
  · exact Nat.lt_of_lt_of_le (hmade fut hold) hle

theorem Valued.declare_knows (h : outcome.Valued store next) (vars : List Name) (fut : Nat)
    (hfut : (store.declare vars outcome.value).Holds fut) : store.Knows next fut := by
  rcases Store.declare_holds hfut with hvalue | hold
  · exact (h fut hvalue).1
  · exact Or.inl hold

end

end Outcome

namespace Expr

variable (oracle : Oracle)

/-- Runs of the expression by itself wait for, and give, nothing they were not given or made. -/
def Contains (e : Expr) : Prop :=
  ∀ (store : Store) (next : Nat), store.Made next →
    (e.exec .quiet store next).Contained store next e.HasTask ∧ (e.exec .quiet store next).Valued store next

section

variable {store : Store} {next : Nat} {tasks : SourcePos → Prop}

theorem contained_execSeq {es : List Expr} (hes : ∀ e ∈ es, e.Contains)
    (htasks : ∀ e ∈ es, ∀ pos, e.HasTask pos → tasks pos) (hmade : store.Made next) (value : Value) :
    (execSeq .quiet es store value next).Contained store next tasks := by
  induction es generalizing value next with
  | nil => exact Outcome.contained_silent store value next tasks
  | cons e es ih =>
    obtain ⟨hcontains, hrest⟩ := forall_mem_cons.mp hes
    obtain ⟨htask, htaskRest⟩ := forall_mem_cons.mp htasks
    have hfirst := (hcontains store next hmade).1.mono htask
    exact hfirst.before (ih hrest htaskRest (hmade.mono hfirst.next_le) _) fun _ => Or.inl

theorem valued_execSeq {es : List Expr} (hes : ∀ e ∈ es, e.Contains) (hmade : store.Made next) {base : Nat}
    (hbase : base ≤ next) {value : Value}
    (hvalue : ∀ fut, value = .future fut → store.Knows base fut ∧ fut < next) :
    (execSeq .quiet es store value next).Valued store base := by
  induction es generalizing value next with
  | nil => exact hvalue
  | cons e es ih =>
    obtain ⟨hcontains, hrest⟩ := forall_mem_cons.mp hes
    obtain ⟨hfirst, hvalued⟩ := hcontains store next hmade
    apply ih hrest (hmade.mono hfirst.next_le) (Nat.le_trans hbase hfirst.next_le)
    intro fut hfut
    exact (hvalued fut hfut).imp_left fun hknows => hknows.mono hbase

theorem contained_execDecls {decls : List (Decl Expr)} (hdecls : ∀ e ∈ decls.map Decl.val, e.Contains)
    (htasks : ∀ e ∈ decls.map Decl.val, ∀ pos, e.HasTask pos → tasks pos) (hmade : store.Made next) :
    (execDecls .quiet decls store next).2.Contained store next tasks ∧
      (execDecls .quiet decls store next).1.Made (execDecls .quiet decls store next).2.next ∧
      ∀ fut, (execDecls .quiet decls store next).1.Holds fut → store.Knows next fut := by
  induction decls generalizing store next with
  | nil => exact ⟨Outcome.contained_silent store _ next tasks, hmade, fun _ => Or.inl⟩
  | cons decl decls ih =>
    obtain ⟨hcontains, hrest⟩ := forall_mem_cons.mp hdecls
    obtain ⟨htask, htaskRest⟩ := forall_mem_cons.mp htasks
    obtain ⟨hfirst, hvalued⟩ := hcontains store next hmade
    have hmade' := hvalued.declare_made hmade hfirst.next_le decl.vars
    have hknows := hvalued.declare_knows decl.vars
    obtain ⟨hsecond, hmadeLast, hknowsLast⟩ := ih hrest htaskRest hmade'
    refine ⟨(hfirst.mono htask).before hsecond hknows, hmadeLast, fun fut hfut => ?_⟩
    exact (hknowsLast fut hfut).elim (hknows fut) fun hle => Or.inr (Nat.le_trans hfirst.next_le hle)

end

variable {store : Store} {es : List Expr} {next : Nat}

theorem lookup_holds {name : Name} {fut : Nat} (h : store.lookup name = some (.future fut)) : store.Holds fut := by
  induction store with
  | nil => cases h
  | cons entry store ih =>
    obtain ⟨other, value⟩ := entry
    rw [lookup_cons] at h
    split at h
    · cases h
      exact ⟨other, .head _⟩
    · obtain ⟨found, hmem⟩ := ih h
      exact ⟨found, .tail _ hmem⟩

theorem contains (e : Expr) : e.Contains := by
  apply childInduction (motive := Contains)
  intro e ih store next hmade
  cases e with
  | varAccess m name =>
    rw [exec]
    split
    · rename_i value hlookup
      refine ⟨Outcome.contained_silent _ _ _ _, ?_⟩
      rintro fut rfl
      have hholds := lookup_holds hlookup
      exact ⟨Or.inl hholds, hmade fut hholds⟩
    · exact ⟨Outcome.contained_silent _ _ _ _, fun _ h => by cases h⟩
  | async m body =>
    refine ⟨⟨Nat.le_succ next, ?_, ?_⟩, ?_⟩
    · intro pos fut h
      cases mem_singleton.mp h
      exact ⟨.here m body, Nat.le_refl next, Nat.lt_succ_self next⟩
    · intro fut h
      cases mem_singleton.mp h
    · intro fut h
      cases h
      exact ⟨Or.inr (Nat.le_refl next), Nat.lt_succ_self next⟩
  | get m val =>
    obtain ⟨hval, hvalued⟩ := ih val (.head _) store next hmade
    have htasks : ∀ pos, val.HasTask pos → (get m val).HasTask pos := fun pos hin => .inside (.head _) hin
    exact ⟨(hval.mono htasks).awaited hvalued, Outcome.valued_awaited store next _⟩
  | letE m decls body =>
    obtain ⟨hbody, hdecls⟩ := forall_mem_cons.mp ih
    have htasks : ∀ e ∈ decls.map Decl.val, ∀ pos, e.HasTask pos → (letE m decls body).HasTask pos :=
      fun e he pos hin => .inside (.tail _ he) hin
    obtain ⟨hbound, hmade', hknows⟩ := contained_execDecls hdecls htasks hmade
    obtain ⟨hin, hvalued⟩ := hbody _ _ hmade'
    have htaskBody : ∀ pos, body.HasTask pos → (letE m decls body).HasTask pos :=
      fun pos hin => .inside (.head _) hin
    exact ⟨hbound.before (hin.mono htaskBody) hknows, hvalued.before hbound.next_le hknows⟩
  | seq m eseq =>
    refine ⟨contained_execSeq ih (fun e he pos hin => .inside he hin) hmade (.data 0), ?_⟩
    exact valued_execSeq ih hmade (Nat.le_refl next) fun _ h => by cases h
  | _ => exact ⟨Outcome.contained_silent _ _ _ _, fun _ h => by cases h⟩

/-! ### Tasks that are not waited for -/

def Abandons (trace : List Event) (pos : SourcePos) : Prop :=
  ∀ fut, .spawn pos fut ∈ trace → .get fut ∉ trace

theorem not_awaited_of_abandons {trace : List Event} {pos : SourcePos} (h : Abandons trace pos) :
    ¬ Awaited trace pos := by
  rintro ⟨before, after, fut, rfl, hget⟩
  exact h fut (mem_append_right _ (.head _)) (mem_append_right _ (.tail _ hget))

section

variable {store store' : Store} {next : Nat} {first second : Outcome} {pos : SourcePos}
  {tasks tasks' : SourcePos → Prop}

theorem abandons_after (hfirst : first.Contained store next tasks)
    (hsecond : second.Contained store' first.next tasks') (hpos : ¬ tasks pos)
    (h : Abandons second.trace pos) : Abandons (first.before second).trace pos := by
  intro fut hspawn hget
  have hin : .spawn pos fut ∈ second.trace :=
    (mem_append.mp hspawn).resolve_left fun hin => hpos (hfirst.spawn pos fut hin).1
  rcases mem_append.mp hget with hget | hget
  · have hlt := (hfirst.get fut hget).2
    have hle := (hsecond.spawn pos fut hin).2.1
    omega
  · exact h fut hin hget

theorem abandons_before (m : Meta) (body : Expr) (hmade : store.Made next)
    (hsecond : second.Contained store (next + 1) tasks) (hpos : ¬ tasks m.sourcePos) :
    Abandons (((async m body).exec .quiet store next).before second).trace m.sourcePos := by
  intro fut hspawn hget
  have hnone : ∀ fut, .spawn m.sourcePos fut ∉ second.trace := fun fut hin =>
    hpos (hsecond.spawn _ fut hin).1
  have hfut : fut = next := by
    rcases mem_append.mp hspawn with hin | hin
    · cases mem_singleton.mp hin
      rfl
    · exact absurd hin (hnone fut)
  subst hfut
  rcases mem_append.mp hget with hin | hin
  · cases mem_singleton.mp hin
  · rcases (hsecond.get fut hin).1 with hold | hle
    · exact Nat.lt_irrefl fut (hmade fut hold)
    · omega

end

theorem contained_expandMiniLets (tasks : SourcePos → Prop) (htasks : ∀ e ∈ es, ∀ pos, e.HasTask pos → tasks pos)
    (hmade : store.Made next) (value : Value) :
    (execSeq .quiet (expandMiniLets es) store value next).Contained store next tasks := by
  refine contained_execSeq (fun e _ => contains e) (fun e he pos hin => ?_) hmade value
  obtain ⟨s, hs, htask⟩ := expandMiniLets_hasTask he hin
  exact htasks s hs pos htask

theorem expandMiniLets_let_cons {s : Expr} (hs : s.isMiniLet = true) (hes : es ≠ []) : ∃ m decl, s = miniLet m decl ∧
      expandMiniLets (s :: es) = [letE m [decl] (seq m (expandMiniLets es))] := by
  cases s with
  | miniLet m decl =>
    obtain ⟨rest, hexpand, rfl | ⟨hnil, -⟩⟩ := expandMiniLets_miniLet m decl es
    · exact ⟨m, decl, rfl, hexpand⟩
    · exfalso
      cases es with
      | nil => exact hes rfl
      | cons t es =>
        cases t with
        | miniLet m' decl' =>
          obtain ⟨rest', hexpand', -⟩ := expandMiniLets_miniLet m' decl' es
          rw [hexpand'] at hnil
          cases hnil
        | _ => cases hnil
  | _ => cases hs

theorem exec_let_seq (m : Meta) (decl : Decl Expr) (es : List Expr) (store : Store) (next : Nat) :
    ((letE m [decl] (seq m es)).exec oracle store next).trace = ((decl.val.exec oracle store next).before
        (execSeq oracle es (store.declare decl.vars (decl.val.exec oracle store next).value) (.data 0)
          (decl.val.exec oracle store next).next)).trace := by
  simp only [exec, execDecls, Outcome.before, append_nil]

/-- A run of a sequence never waits for a task that is one of its statements. -/
theorem abandons_execSeq {task : Expr} (htask : task ∈ es)
    (hasync : task.isAsyncTask = true) (hdistinct : DistinctTasks es)
    (hmade : store.Made next) (value : Value) :
    Abandons (execSeq .quiet (expandMiniLets es) store value next).trace task.sourcePos := by
  have hposTask : task.HasTask task.sourcePos := (hasTask_iff _ _).mpr (Or.inl ⟨hasync, rfl⟩)
  induction es generalizing store next value with
  | nil => cases htask
  | cons s es ih =>
    obtain ⟨hs, hrest⟩ := pairwise_cons.mp hdistinct
    by_cases hlet : s.isMiniLet = true
    · -- the rest of the sequence is now the body of the let
      have hin : task ∈ es := (mem_cons.mp htask).resolve_left fun heq => by
        subst heq
        cases task <;> cases hlet
        cases hasync
      obtain ⟨m, decl, rfl, hexpand⟩ := expandMiniLets_let_cons hlet (ne_nil_of_mem hin)
      obtain ⟨hfirst, hvalued⟩ := contains decl.val store next hmade
      have hmade' := hvalued.declare_made hmade hfirst.next_le decl.vars
      have hnot : ¬ decl.val.HasTask task.sourcePos := fun hval =>
        hs task hin task.sourcePos (.inside (.head _) hval) hposTask
      rw [hexpand, execSeq, execSeq, Outcome.before, append_nil, exec_let_seq]
      exact abandons_after hfirst
        (contained_expandMiniLets (fun _ => True) (fun _ _ _ _ => trivial) hmade' (.data 0)) hnot
        (ih hin hrest hmade' (.data 0))
    · rw [expandMiniLets_cons (Bool.eq_false_iff.mpr hlet), execSeq]
      obtain ⟨hfirst, -⟩ := contains s store next hmade
      have hmade' := hmade.mono hfirst.next_le
      rcases mem_cons.mp htask with rfl | hin
      · cases task with
        | async m body =>
          have hsecond := contained_expandMiniLets (fun pos => ∃ e ∈ es, e.HasTask pos)
            (fun e he pos hin => ⟨e, he, hin⟩) hmade' ((async m body).exec .quiet store next).value
          refine abandons_before m body hmade hsecond ?_
          rintro ⟨e, he, hin⟩
          exact hs e he m.sourcePos hposTask hin
        | _ => cases hasync
      · have hnot : ¬ s.HasTask task.sourcePos := fun hval => hs task hin task.sourcePos hval hposTask
        exact abandons_after hfirst (contained_expandMiniLets (fun _ => True) (fun _ _ _ _ => trivial) hmade' _) hnot
          (ih hin hrest hmade' _)

theorem get_mem_trace_taskGets {m : Meta} {limit fut : Nat}
    (hstore : ∀ i < es.length, ∀ fut, store.lookup (seqName i) = some (.future fut) → fut < limit)
    {value : Value}
    (hget : .get fut ∈ (execSeq .quiet (taskGets m 0 es) store value next).trace) : fut < limit := by
  have hall : ∀ gets : List Expr, (∀ e ∈ gets, e ∈ taskGets m 0 es) → ∀ value next,
      .get fut ∈ (execSeq .quiet gets store value next).trace → fut < limit := by
    intro gets hgets
    induction gets with
    | nil =>
      intro _ _ hin
      cases hin
    | cons e gets ih =>
      intro value next hin
      obtain ⟨he, hrest⟩ := forall_mem_cons.mp hgets
      rcases mem_append.mp hin with hhere | hlater
      · obtain ⟨i, -, hi, rfl⟩ := mem_taskGets he
        rw [Nat.zero_add] at hi
        simp only [exec] at hhere
        split at hhere
        · rename_i found hlookup
          cases found with
          | future fut' =>
            cases mem_singleton.mp hhere
            exact hstore i hi fut hlookup
          | data => cases hhere
        · cases hhere
      · exact ih hrest _ _ hlater
  exact hall _ (fun _ he => he) value next hget

theorem contained_taskGets (m : Meta) (es : List Expr) (hmade : store.Made next) (value : Value) :
    (execSeq .quiet (taskGets m 0 es) store value next).Contained store next fun _ => False :=
  contained_execSeq (fun e _ => contains e) (fun _ he pos hin => not_hasTask_taskGets he pos hin) hmade value

theorem contained_bindings (es : List Expr) (hmade : store.Made next) :
    let bound := execDecls .quiet (bindings 0 es) store next
    bound.2.Contained store next (fun pos => ∃ e ∈ es, e.HasTask pos) ∧ bound.1.Made bound.2.next := by
  have htasks : ∀ e ∈ (bindings 0 es).map Decl.val, ∀ pos, e.HasTask pos → ∃ e ∈ es, e.HasTask pos := by
    rw [bindings_val]
    exact fun e he pos hin => ⟨e, he, hin⟩
  obtain ⟨hbound, hmade', -⟩ := contained_execDecls (fun e _ => contains e) htasks hmade
  exact ⟨hbound, hmade'⟩

theorem exec_desugarBody_last (m : Meta) (first : List Expr) {last : Expr} (hlast : last.isAsyncTask = false)
    (store : Store) (next : Nat) :
    let before := execDecls oracle (bindings 0 first) store next
    let lastOutcome := last.exec oracle before.1 before.2.next
    ((desugarBody (seq m (first ++ [last]))).exec oracle store next).trace =
      (before.2.before (lastOutcome.before (execSeq oracle (taskGets m 0 first)
        (before.1.declare [seqName first.length] lastOutcome.value) (.data 0) lastOutcome.next))).trace := by
  rw [exec_desugarBody, bindings_append, execDecls_append, taskGets_append, Nat.zero_add]
  simp only [bindings, execDecls, taskGets, hlast, Bool.false_eq_true, if_false, append_nil,
    Outcome.before, append_assoc]

theorem abandons_gets (m : Meta) (es : List Expr) {last : Outcome}
    {tasks : SourcePos → Prop} {pos : SourcePos} (hlast : last.Contained store next tasks)
    (hvalued : last.Valued store next) (hmade : store.Made next)
    (hstore : ∀ i < es.length, ∀ fut, store.lookup (seqName i) = some (.future fut) → fut < next)
    (h : Abandons last.trace pos) :
    Abandons (last.before (execSeq .quiet (taskGets m 0 es)
      (store.declare [seqName es.length] last.value) (.data 0) last.next)).trace pos := by
  have hgets := contained_taskGets m es (hvalued.declare_made hmade hlast.next_le [seqName es.length]) (.data 0)
  intro fut hspawn hget
  have hin : .spawn pos fut ∈ last.trace :=
    (mem_append.mp hspawn).resolve_right fun hin => (hgets.spawn pos fut hin).1
  rcases mem_append.mp hget with hget | hget
  · exact h fut hin hget
  · have hlt : fut < next := by
      refine get_mem_trace_taskGets (fun i hi fut hlookup => ?_) hget
      have hne : seqName i ≠ seqName es.length := fun heq => Nat.ne_of_lt hi (seqName_injective heq)
      rw [lookup_declare_ne hne] at hlookup
      exact hstore i hi fut hlookup
    have hle := (hlast.spawn pos fut hin).2.1
    omega

/-- A task after the first `let` is not waited for. -/
theorem abandons_desugarBody (m : Meta) {first rest : List Expr} {s task : Expr}
    (hfirst : ∀ t ∈ first, t.isMiniLet = false) (hlet : s.isMiniLet = true) (htask : task ∈ rest)
    (hasync : task.isAsyncTask = true) (hdistinct : DistinctTasks (first ++ s :: rest)) (hmade : store.Made next) :
    Abandons ((desugarBody (seq m (expandMiniLets (first ++ s :: rest)))).exec .quiet store next).trace
      task.sourcePos := by
  obtain ⟨-, hdistinctRest, hacross⟩ := pairwise_append.mp hdistinct
  have hposTask : task.HasTask task.sourcePos := (hasTask_iff _ _).mpr (Or.inl ⟨hasync, rfl⟩)
  have hin : task ∈ s :: rest := .tail _ htask
  obtain ⟨letMeta, decl, -, hexpand⟩ := expandMiniLets_let_cons hlet (ne_nil_of_mem htask)
  obtain ⟨hbefore, hmade'⟩ := contained_bindings first hmade
  have hnot : ¬ ∃ e ∈ first, e.HasTask task.sourcePos := fun ⟨e, he, hpos⟩ =>
    hacross e he task hin task.sourcePos hpos hposTask
  -- the rest of the block is one statement, a let
  have hlast := abandons_execSeq hin hasync hdistinctRest hmade' (.data 0)
  rw [hexpand, execSeq, execSeq, Outcome.before, append_nil] at hlast
  obtain ⟨hlast', hvalued⟩ := contains (letE letMeta [decl] (seq letMeta (expandMiniLets rest))) _ _ hmade'
  have hwhole := abandons_gets m first hlast' hvalued hmade'
    (fun _ _ fut hlookup => hmade' fut (lookup_holds hlookup)) hlast
  rw [expandMiniLets_append hfirst, hexpand, exec_desugarBody_last .quiet m first rfl]
  have hgets := contained_taskGets m first (hvalued.declare_made hmade' hlast'.next_le [seqName first.length]) (.data 0)
  exact abandons_after hbefore (hlast'.before (hgets.mono fun _ => False.elim) (hvalued.declare_knows _)) hnot hwhole

end Expr

theorem DistinctTasks.desugar (printer : Printer) {block : List Expr} (h : DistinctTasks block) :
    DistinctTasks (block.map (Expr.desugarExpr printer)) := by
  apply pairwise_map.mpr
  refine h.imp fun {s t} hst pos hs ht => ?_
  exact hst pos (Expr.desugarExpr_keepsTasks s pos hs) (Expr.desugarExpr_keepsTasks t pos ht)

theorem exists_first_let {block : List Expr} (h : ∃ s ∈ block, s.isMiniLet = true) :
    ∃ first s rest, block = first ++ s :: rest ∧ (∀ t ∈ first, t.isMiniLet = false) ∧ s.isMiniLet = true := by
  induction block with
  | nil =>
    obtain ⟨s, hs, -⟩ := h
    cases hs
  | cons s block ih =>
    by_cases hs : s.isMiniLet = true
    · exact ⟨[], s, block, rfl, fun _ ht => absurd ht not_mem_nil, hs⟩
    · obtain ⟨t, ht, hlet⟩ := h
      have hin : t ∈ block := (mem_cons.mp ht).resolve_left fun heq => hs (heq ▸ hlet)
      obtain ⟨first, s', rest, rfl, hfirst, hs'⟩ := ih ⟨t, hin, hlet⟩
      exact ⟨s :: first, s', rest, rfl, forall_mem_cons.mpr ⟨Bool.eq_false_iff.mpr hs, hfirst⟩, hs'⟩

section

variable {printer : Printer} {m blockMeta : Meta} {first rest : List Expr} {s task : Expr}

theorem desugar_no_lets (printer : Printer) (hfirst : ∀ t ∈ first, t.isMiniLet = false) :
    ∀ t ∈ first.map (Expr.desugarExpr printer), t.isMiniLet = false := by
  intro t ht
  obtain ⟨s, hs, rfl⟩ := mem_map.mp ht
  rw [Expr.desugarExpr_isMiniLet, hfirst s hs]

theorem awaited_before_lets (hfirst : ∀ t ∈ first, t.isMiniLet = false) (htask : task.isAsyncTask = true)
    (oracle : Oracle) (store : Store) (next : Nat) :
    Awaited (((Expr.finishAsync m (.seq blockMeta (first ++ task :: rest))).desugarExpr printer).exec oracle
      store next).trace task.sourcePos := by
  obtain ⟨m', m'', hfinish⟩ := Expr.desugarExpr_finishAsync printer m blockMeta (first ++ task :: rest)
  obtain ⟨taskMeta, body, hasync, hpos⟩ := Expr.desugarExpr_async printer htask
  rw [hfinish, Expr.exec_seq_singleton, map_append, map_cons, hasync,
    Expr.expandMiniLets_append (desugar_no_lets printer hfirst), Expr.expandMiniLets_cons rfl, ← hpos]
  exact Expr.awaited_of_statement oracle m'' _ _ taskMeta body store next

theorem not_awaited_after_let (hfirst : ∀ t ∈ first, t.isMiniLet = false) (hlet : s.isMiniLet = true)
    (hin : task ∈ rest) (htask : task.isAsyncTask = true) (hdistinct : DistinctTasks (first ++ s :: rest)) :
    ¬ Awaited (((Expr.finishAsync m (.seq blockMeta (first ++ s :: rest))).desugarExpr printer).exec .quiet
      [] 0).trace task.sourcePos := by
  obtain ⟨m', m'', hfinish⟩ := Expr.desugarExpr_finishAsync printer m blockMeta (first ++ s :: rest)
  obtain ⟨taskMeta, body, hasync, hpos⟩ := Expr.desugarExpr_async printer htask
  have hdistinct' := hdistinct.desugar printer
  have hin' := mem_map_of_mem (f := Expr.desugarExpr printer) hin
  have hlet' := (Expr.desugarExpr_isMiniLet printer s).trans hlet
  rw [hasync] at hin'
  rw [map_append, map_cons] at hdistinct'
  rw [hfinish, Expr.exec_seq_singleton, map_append, map_cons, ← hpos]
  have hempty : Store.Made [] 0 := by
    rintro fut ⟨name, hmem⟩
    cases hmem
  exact Expr.not_awaited_of_abandons (Expr.abandons_desugarBody m'' (desugar_no_lets printer hfirst) hlet' hin'
    rfl hdistinct' hempty)

end

/-- A `finish` block waits for each `async` that is one of its statements exactly if there is no `let`
before one of them. -/
theorem finish_awaits_iff (printer : Printer) (m blockMeta : Meta) (block : List Expr)
    (hdistinct : DistinctTasks block) :
    AwaitsTasks printer m blockMeta block ↔
      block.Pairwise fun s t => s.isMiniLet = true → t.isAsyncTask = false := by
  constructor
  · intro hawaits
    by_cases hlets : ∃ s ∈ block, s.isMiniLet = true
    · obtain ⟨first, s, rest, rfl, hfirst, hlet⟩ := exists_first_let hlets
      have hrest : ∀ t ∈ rest, t.isAsyncTask = false := by
        intro t ht
        rw [← Bool.not_eq_true]
        intro hasync
        have hin : t ∈ first ++ s :: rest := mem_append_right _ (.tail _ ht)
        exact not_awaited_after_let hfirst hlet ht hasync hdistinct (hawaits t hin hasync .quiet [] 0)
      have hnever : ∀ t ∈ first, ∀ u : Expr, t.isMiniLet = true → u.isAsyncTask = false := by
        intro t ht u hlet
        rw [hfirst t ht] at hlet
        cases hlet
      apply pairwise_append.mpr
      refine ⟨pairwise_of_forall_mem_list fun t ht u _ => hnever t ht u, ?_,
        fun t ht u _ => hnever t ht u⟩
      exact pairwise_cons.mpr ⟨fun t ht _ => hrest t ht,
        pairwise_of_forall_mem_list fun _ _ t ht _ => hrest t ht⟩
    · exact pairwise_of_forall_mem_list fun s hs _ _ hlet => absurd ⟨s, hs, hlet⟩ hlets
  · intro hpairs task hin hasync oracle store next
    obtain ⟨first, rest, rfl⟩ := append_of_mem hin
    refine awaited_before_lets (fun s hs => ?_) hasync oracle store next
    rw [← Bool.not_eq_true]
    intro hlet
    have hnot := (pairwise_append.mp hpairs).2.2 s hs task (.head _) hlet
    rw [hasync] at hnot
    cases hnot

/-- `finish { async (); async (); let x = () }` -/
theorem finish_awaits_iff_two_tasks :
    let printer : Printer := ⟨fun _ => [], id⟩
    let task (line : Nat) : Expr := .async (Meta.meta (line, 3)) (.skip (Meta.meta (line, 9)))
    let block := [task 2, task 3, .miniLet (Meta.meta (4, 3)) ⟨[['x']], .skip (Meta.meta (4, 11))⟩]
    DistinctTasks block ∧ AwaitsTasks printer (Meta.meta (1, 1)) (Meta.meta (1, 8)) block := by
  intro printer task block
  have hlines : ∀ line pos, (task line).HasTask pos → pos = (line, 3) := by
    intro line pos h
    obtain ⟨-, rfl⟩ | ⟨child, hchild, -⟩ := (Expr.hasTask_iff _ _).mp h
    · rfl
    · cases hchild
  have hlet : ∀ pos, ¬ (Expr.miniLet (Meta.meta (4, 3)) ⟨[['x']], .skip (Meta.meta (4, 11))⟩).HasTask pos := by
    intro pos h
    obtain ⟨hasync, -⟩ | ⟨child, hchild, hin⟩ := (Expr.hasTask_iff _ _).mp h
    · cases hasync
    · rw [mem_singleton.mp hchild] at hin
      exact Expr.not_hasTask_node _ _ _ pos hin
  have hdistinct : DistinctTasks block := by
    refine pairwise_cons.mpr ⟨?_, pairwise_pair.mpr fun pos _ => hlet pos⟩
    intro t ht pos hpos
    rcases mem_pair.mp ht with rfl | rfl
    · intro hother
      have hsame := (hlines 2 pos hpos).symm.trans (hlines 3 pos hother)
      exact absurd (congrArg Prod.fst hsame) (by decide)
    · exact hlet pos
  refine ⟨hdistinct, (finish_awaits_iff printer _ _ block hdistinct).mpr ?_⟩
  have hpair : List.Pairwise (fun s t : Expr => s.isMiniLet = true → t.isAsyncTask = false)
      (task 3 :: block.drop 2) := pairwise_pair.mpr nofun
  exact pairwise_cons.mpr ⟨fun _ _ => nofun, hpair⟩

/-- `finish { let x = (); async () }` starts a task and waits for nothing. -/
theorem finish_abandons_after_let :
    let printer : Printer := ⟨fun _ => [], id⟩
    let task : Expr := .async (Meta.meta (3, 3)) (.skip (Meta.meta (3, 9)))
    let block := [.miniLet (Meta.meta (2, 3)) ⟨[['x']], .skip (Meta.meta (2, 11))⟩, task]
    let finish := (Expr.finishAsync (Meta.meta (1, 1)) (.seq (Meta.meta (1, 8)) block)).desugarExpr printer
    (finish.exec .quiet [] 0).trace = [.spawn (3, 3) 0] ∧
      ¬ AwaitsTasks printer (Meta.meta (1, 1)) (Meta.meta (1, 8)) block := by
  intro printer task block finish
  have htrace : (finish.exec .quiet [] 0).trace = [.spawn (3, 3) 0] := rfl
  refine ⟨htrace, fun hawaits => ?_⟩
  have htask : Awaited (finish.exec .quiet [] 0).trace (3, 3) := hawaits task (.tail _ (.head _)) rfl .quiet [] 0
  rw [htrace] at htask
  refine Expr.not_awaited_of_abandons (fun fut _ hget => ?_) htask
  cases mem_singleton.mp hget

end Lfmr.Ast
