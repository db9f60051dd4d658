import Lfmr.ModuleExpander

/-!
# Importing checks the modules in order

The traversal goes down a path of modules that import each other. Those on the path are not checked yet, all
others that were reached are: so a module that comes up again either was checked, or imports itself.
-/

namespace Lfmr.ModuleExpander

open List Lfmr.Collections.DependencyOrder
open Lfmr.Programs
open Relation (TransGen ReflTransGen)

variable {ε env ρ : Type} {checker : Checker ε env ρ} {modules : ModuleMap ρ} {emptyEnv : env}
  {p prg : Program ρ} {calls : List (Call env ρ)} {seen : List QName} {target : QName}

structure Books (checker : Checker ε env ρ) (modules : ModuleMap ρ) (emptyEnv : env) (p : Program ρ)
    (tables : ModuleMap ρ × env) (away kept : List QName) (calls : List (Call env ρ)) : Prop where
  inOrder : InOrder modules p calls
  chained : Chained checker emptyEnv calls tables.2
  stored : ∀ call ∈ calls, Stored checker tables.1 call
  recorded : ∀ target, target ∈ tables.1 ↔ target ∈ calls.map Call.target
  away : ∀ target ∈ away, target ∉ calls.map Call.target
  kept : ∀ target ∈ kept, target ∈ calls.map Call.target

def Explained (checker : Checker ε env ρ) (modules : ModuleMap ρ) (p : Program ρ) (calls : List (Call env ρ)) :
    Abort ε → Prop
  | .importsItself target => Reachable modules p target ∧ OnCycle (importsOf modules p) target
  | .notFound target => modules.lookup target = none ∧ TransGen (DependsOn (importsOf modules p)) [] target
  | .checker error => ∃ call ∈ calls, checker call.newEnv call.pp = .error error

structure Path (modules : ModuleMap ρ) (p : Program ρ) (seen : List QName) (target : QName) : Prop where
  nodup : seen.Nodup
  known : ∀ above ∈ seen, above ∈ [] :: modules.keys
  reaches : ∀ above ∈ seen, TransGen (DependsOn (importsOf modules p)) above target
  top : target = [] ∨ [] ∈ seen

structure Aborts (checker : Checker ε env ρ) (modules : ModuleMap ρ) (p : Program ρ) (abort : Abort ε)
    (calls : List (Call env ρ)) : Prop where
  inOrder : InOrder modules p calls
  explained : Explained checker modules p calls abort

def Checks (checker : Checker ε env ρ) (modules : ModuleMap ρ) (emptyEnv : env) (p : Program ρ) (seen : List QName)
    (program : ModuleMap ρ → env → QName → Program ρ → Importing ε env ρ (ModuleMap ρ × env)) : Prop :=
  ∀ importTable env target prg kept, Path modules p seen target → Reachable modules p target →
    (target ∉ seen → ModuleExpander.program modules p target = some prg) →
    Triple (Books checker modules emptyEnv p (importTable, env) (target :: seen) kept)
      (program importTable env target prg)
      (fun tables => Books checker modules emptyEnv p tables seen (target :: kept))
      (Aborts checker modules p)

theorem importsOf_eq (hprogram : program modules p target = some prg) :
    importsOf modules p target = (addStdLib target prg).imports := by
  rw [importsOf, hprogram]

theorem InOrder.snoc {newEnv : env} (hinOrder : InOrder modules p calls) (htarget : Reachable modules p target)
    (hprogram : program modules p target = some prg) (hnew : target ∉ calls.map Call.target)
    (himports : ∀ i ∈ importsOf modules p target, i ∈ calls.map Call.target) :
    InOrder modules p (calls ++ [⟨target, newEnv, addStdLib target prg⟩]) where
  ordered := by
    rw [map_append]
    exact hinOrder.ordered.snoc hnew himports
  reachable := forall_mem_append.mpr ⟨hinOrder.reachable, forall_mem_singleton.mpr htarget⟩
  given := by
    refine forall_mem_append.mpr ⟨hinOrder.given, forall_mem_singleton.mpr ?_⟩
    rw [hprogram, Option.map_some]

theorem importOne_triple {pre : List (Call env ρ) → Prop} {abort : Abort ε → List (Call env ρ) → Prop}
    (hmissing : modules.lookup target = none → ∀ calls, pre calls → abort (.notFound target) calls) :
    Triple pre (importOne modules target : Importing ε env ρ (Program ρ))
      (fun impl calls => pre calls ∧ modules.lookup target = some impl) abort := by
  unfold importOne
  cases hlookup : modules.lookup target with
  | none => exact .throw _ (hmissing hlookup)
  | some impl => exact .pure impl fun calls hpre => ⟨hpre, rfl⟩

theorem program_of_lookup {impl : Program ρ} (hne : target ≠ []) (hlookup : modules.lookup target = some impl) :
    program modules p target = some impl := by
  rw [program, if_neg hne, hlookup]

theorem performImport_triple {program : ModuleMap ρ → env → QName → Program ρ → Importing ε env ρ (ModuleMap ρ × env)}
    (hchecks : Checks checker modules emptyEnv p seen program) (hpath : Path modules p seen target)
    (htop : TransGen (DependsOn (importsOf modules p)) [] target) (hroot : [] ∈ seen)
    (tables : ModuleMap ρ × env) (kept : List QName) :
    Triple (Books checker modules emptyEnv p tables seen kept) (performImport modules program tables target)
      (fun tables => Books checker modules emptyEnv p tables seen (target :: kept))
      (Aborts checker modules p) := by
  unfold performImport
  split
  · case isTrue hmember =>
      refine .pure tables fun calls hbooks => { hbooks with kept := ?_ }
      exact forall_mem_cons.mpr ⟨(hbooks.recorded target).mp hmember, hbooks.kept⟩
  · case isFalse hmember =>
      refine (importOne_triple fun hlookup calls hbooks => ⟨hbooks.inOrder, hlookup, htop⟩).bind fun impl => ?_
      refine .of_pre (fun _ hpre => hpre.2) fun hlookup => ?_
      refine (hchecks tables.1 tables.2 target impl kept hpath htop.to_reflTransGen fun hnew => ?_).imp ?_
        fun _ _ hbooks => hbooks
      · exact program_of_lookup (fun heq => hnew (heq ▸ hroot)) hlookup
      · rintro calls ⟨hbooks, -⟩
        have hnew : target ∉ calls.map Call.target := mt (hbooks.recorded target).mpr hmember
        exact { hbooks with away := forall_mem_cons.mpr ⟨hnew, hbooks.away⟩ }

theorem Books.logged {tables : ModuleMap ρ × env} {kept : List QName} {checked : env × Program ρ}
    (hbooks : Books checker modules emptyEnv p tables (target :: seen)
      ((addStdLib target prg).imports.reverse ++ kept) calls)
    (hinOrder : InOrder modules p (calls ++ [⟨target, tables.2, addStdLib target prg⟩])) (hseen : target ∉ seen)
    (hcheck : checker tables.2 (addStdLib target prg) = .ok checked) :
    Books checker modules emptyEnv p (tables.1.insert target checked.2, checked.1) seen (target :: kept)
      (calls ++ [⟨target, tables.2, addStdLib target prg⟩]) where
  inOrder := hinOrder
  chained := hbooks.chained.snoc hcheck
  stored := by
    refine forall_mem_append.mpr ⟨fun call hcall => ?_, forall_mem_singleton.mpr ⟨checked, hcheck, ?_⟩⟩
    · obtain ⟨before, hbefore, hlookup⟩ := hbooks.stored call hcall
      have hne : call.target ≠ target := fun heq =>
        hbooks.away target mem_cons_self (heq ▸ mem_map_of_mem hcall)
      exact ⟨before, hbefore, (AList.lookup_insert_ne hne).trans hlookup⟩
    · exact AList.lookup_insert _
  recorded t := by
    rw [AList.mem_insert, hbooks.recorded, map_append, mem_append, map_singleton, mem_singleton, or_comm]
  away t ht := by
    have haway := hbooks.away t (mem_cons_of_mem _ ht)
    have hne : t ≠ target := fun heq => hseen (heq ▸ ht)
    rw [map_append, mem_append, map_singleton, mem_singleton]
    exact not_or.mpr ⟨haway, hne⟩
  kept t ht := by
    rw [map_append, mem_append, map_singleton, mem_singleton]
    rcases mem_cons.mp ht with rfl | ht
    · exact Or.inr rfl
    · exact Or.inl (hbooks.kept t (mem_append_right _ ht))

theorem callChecker_triple (htarget : Reachable modules p target) (hseen : target ∉ seen)
    (hprogram : program modules p target = some prg) (tables : ModuleMap ρ × env) (kept : List QName) :
    Triple (Books checker modules emptyEnv p tables (target :: seen) ((addStdLib target prg).imports.reverse ++ kept))
      (callChecker checker target tables.2 (addStdLib target prg))
      (fun checked => Books checker modules emptyEnv p (tables.1.insert target checked.2, checked.1) seen
        (target :: kept))
      (Aborts checker modules p) := by
  intro calls hbooks
  have hinOrder : InOrder modules p (calls ++ [⟨target, tables.2, addStdLib target prg⟩]) := by
    refine hbooks.inOrder.snoc htarget hprogram (hbooks.away target mem_cons_self) fun i hi => ?_
    rw [importsOf_eq hprogram] at hi
    exact hbooks.kept i (mem_append_left _ (mem_reverse.mpr hi))
  unfold callChecker
  refine Triple.bind (Triple.modify _ fun _ heq => congrArg (· ++ _) heq : Triple (· = calls) _ (fun _ => (· = _)) _)
    (fun _ => ?_) calls rfl
  cases hcheck : checker tables.2 (addStdLib target prg) with
  | error error =>
    refine .throw _ ?_
    rintro _ rfl
    exact ⟨hinOrder, _, mem_append_right _ mem_cons_self, hcheck⟩
  | ok checked =>
    refine .pure checked ?_
    rintro _ rfl
    exact hbooks.logged hinOrder hseen hcheck

theorem mem_known (hprogram : program modules p target = some prg) : target ∈ [] :: modules.keys := by
  rw [program] at hprogram
  split at hprogram
  · case isTrue heq => exact heq ▸ mem_cons_self
  · exact mem_cons_of_mem _ (AList.mem_keys.mp (AList.lookup_isSome.mp (Option.isSome_of_eq_some hprogram)))

theorem Path.root_mem (hpath : Path modules p seen target) : [] ∈ target :: seen := by
  rcases hpath.top with rfl | htop
  · exact mem_cons_self
  · exact mem_cons_of_mem _ htop

theorem Path.down (hpath : Path modules p seen target) (hseen : target ∉ seen)
    (hprogram : program modules p target = some prg) {i : QName} (hi : i ∈ (addStdLib target prg).imports) :
    Path modules p (target :: seen) i := by
  have hstep : DependsOn (importsOf modules p) target i := by
    rw [← importsOf_eq hprogram] at hi
    exact hi
  exact ⟨nodup_cons.mpr ⟨hseen, hpath.nodup⟩, forall_mem_cons.mpr ⟨mem_known hprogram, hpath.known⟩,
    forall_mem_cons.mpr ⟨.single hstep, fun above habove => (hpath.reaches above habove).tail hstep⟩,
    Or.inr hpath.root_mem⟩

theorem Path.length_le (hpath : Path modules p seen target) : seen.length ≤ modules.keys.length + 1 :=
  (subperm_of_subset hpath.nodup hpath.known).length_le

theorem imports_triple {program : ModuleMap ρ → env → QName → Program ρ → Importing ε env ρ (ModuleMap ρ × env)}
    (hchecks : Checks checker modules emptyEnv p (target :: seen) program) (hpath : Path modules p seen target)
    (hseen : target ∉ seen) (hprogram : ModuleExpander.program modules p target = some prg)
    (tables : ModuleMap ρ × env) (kept : List QName) :
    Triple (Books checker modules emptyEnv p tables (target :: seen) kept)
      ((addStdLib target prg).imports.foldlM (performImport modules program) tables)
      (fun tables => Books checker modules emptyEnv p tables (target :: seen) ((addStdLib target prg).imports.reverse ++ kept))
      (Aborts checker modules p) := by
  refine Triple.foldlM
    (fun before tables => Books checker modules emptyEnv p tables (target :: seen) (before.reverse ++ kept)) _ ?_ tables
  intro before i after tables himports
  have hi : i ∈ (addStdLib target prg).imports := himports ▸ mem_append_right _ mem_cons_self
  have hdown := hpath.down hseen hprogram hi
  rw [reverse_append]
  exact performImport_triple hchecks hdown (hdown.reaches [] hpath.root_mem) hpath.root_mem tables
    (before.reverse ++ kept)

theorem importAndCheckProgram_checks (checker : Checker ε env ρ) (modules : ModuleMap ρ) (emptyEnv : env)
    (p : Program ρ) :
    ∀ (depth : Nat) (seen : List QName), modules.keys.length + 2 ≤ depth + seen.length →
      Checks checker modules emptyEnv p seen (importAndCheckProgram checker modules depth seen)
  | 0, seen, hdepth => fun _ _ _ _ _ hpath => by
    have := hpath.length_le
    omega
  | depth + 1, seen, hdepth => by
    intro importTable env target prg kept hpath htarget hprogram
    have hchecks := importAndCheckProgram_checks checker modules emptyEnv p depth (target :: seen)
      (by rw [length_cons]; omega)
    unfold importAndCheckProgram
    split
    · case isTrue hseen =>
        exact .throw _ fun calls hbooks => ⟨hbooks.inOrder, htarget, hpath.reaches target hseen⟩
    · case isFalse hseen =>
        refine (imports_triple hchecks hpath hseen (hprogram hseen) (importTable, env) kept).bind fun tables => ?_
        refine (callChecker_triple htarget hseen (hprogram hseen) tables kept).bind fun checked => ?_
        exact .pure _ fun calls hbooks => hbooks

theorem importAndCheckProgram_below (checker : Checker ε env ρ) (modules : ModuleMap ρ) :
    ∀ (depth : Nat) (seen : List QName) (importTable : ModuleMap ρ) (env : env) (target : QName) (prg : Program ρ),
      Below (importAndCheckProgram checker modules depth seen importTable env target prg)
        (importAndCheckProgram checker modules (depth + 1) seen importTable env target prg)
  | 0, _, _, _, _, _ => .stuck _
  | depth + 1, seen, importTable, env, target, prg => by
    have himport : ∀ tables i, Below
        (performImport modules (importAndCheckProgram checker modules depth (target :: seen)) tables i)
        (performImport modules (importAndCheckProgram checker modules (depth + 1) (target :: seen)) tables i) := by
      intro tables i
      unfold performImport
      split
      · exact .refl _
      · exact (Below.refl _).bind fun impl => importAndCheckProgram_below checker modules depth _ _ _ _ _
    rw [importAndCheckProgram, importAndCheckProgram]
    split
    · exact .refl _
    · exact (Below.foldlM himport _ _).bind fun tables => .refl _

theorem importAndCheckModules_below (checker : Checker ε env ρ) (modules : ModuleMap ρ) (emptyEnv : env)
    (p : Program ρ) {depth deeper : Nat} (hdepth : depth ≤ deeper) :
    Below (importAndCheckModules checker modules emptyEnv p depth)
      (importAndCheckModules checker modules emptyEnv p deeper) := by
  induction hdepth with
  | refl => exact .refl _
  | step _ ih =>
    intro calls ended hended
    exact (importAndCheckProgram_below checker modules _ _ _ _ _ _).bind (fun _ => .refl _) calls ended
      (ih calls ended hended)

theorem importAndCheckModules_triple (checker : Checker ε env ρ) (modules : ModuleMap ρ) (emptyEnv : env)
    (p : Program ρ) :
    Triple (· = []) (importAndCheckModules checker modules emptyEnv p (modules.keys.length + 2))
      (fun importTable calls => ∃ newerEnv, Books checker modules emptyEnv p (importTable, newerEnv) [] [[]] calls)
      (Aborts checker modules p) := by
  have hpath : Path modules p [] [] := ⟨nodup_nil, nofun, nofun, Or.inl rfl⟩
  have hprogram : program modules p [] = some p := if_pos rfl
  have hchecks := importAndCheckProgram_checks checker modules emptyEnv p (modules.keys.length + 2) [] le_rfl
  refine ((hchecks ∅ emptyEnv [] p [] hpath .refl fun _ => hprogram).imp ?_ fun _ _ hbooks => hbooks).bind
    fun tables => .pure _ fun calls hbooks => ⟨tables.2, hbooks⟩
  rintro calls rfl
  exact ⟨⟨.nil, nofun, nofun⟩, .nil, nofun, fun target => by simp, by simp, nofun⟩

theorem imports_of_books {importTable : ModuleMap ρ} {newerEnv : env}
    (hbooks : Books checker modules emptyEnv p (importTable, newerEnv) [] [[]] calls) :
    Imports checker modules emptyEnv p (.ok importTable, calls) := by
  have htop : [] ∈ calls.map Call.target := hbooks.kept [] mem_cons_self
  have hcalled : ∀ target, target ∈ calls.map Call.target ↔ Reachable modules p target := fun target =>
    ⟨forall_mem_map.mpr hbooks.inOrder.reachable target, hbooks.inOrder.ordered.mem_of_reaches htop⟩
  refine ⟨hbooks.inOrder, fun _ _ _ => ⟨importTable, newerEnv, rfl, hbooks.chained, hbooks.stored, fun target =>
    ⟨hcalled target, ?_⟩⟩, fun target hreachable hcycle => ?_⟩
  · rw [hbooks.recorded, hcalled]
  · exact absurd hcycle (hbooks.inOrder.ordered.not_onCycle ((hcalled target).mpr hreachable))

theorem imports_of_aborts {abort : Abort ε} (haborts : Aborts checker modules p abort calls) :
    Imports checker modules emptyEnv p (.error abort, calls) := by
  obtain ⟨hinOrder, hexplained⟩ := haborts
  refine ⟨hinOrder, fun hacyclic hfound hchecker => ?_, fun _ _ _ => ⟨abort, rfl⟩⟩
  exfalso
  cases abort with
  | importsItself target => exact hacyclic target hexplained.1 hexplained.2
  | notFound target =>
    obtain ⟨hlookup, hreaches⟩ := hexplained
    have htarget := hfound target hreaches.to_reflTransGen
    rw [program] at htarget
    split at htarget
    · case isTrue heq => exact hacyclic [] .refl (heq ▸ hreaches)
    · rw [hlookup] at htarget
      cases htarget
  | checker error =>
    obtain ⟨call, hcall, herror⟩ := hexplained
    have hok := hchecker call hcall
    rw [herror] at hok
    cases hok

/-- Importing ends, whatever the import graph is: recursion that may go deeper than there are modules always
ends in the same way. -/
theorem importAndCheckModules_imports (checker : Checker ε env ρ) (modules : ModuleMap ρ) (emptyEnv : env)
    (p : Program ρ) :
    ∃ ended, (∀ depth, modules.keys.length + 2 ≤ depth →
      (importAndCheckModules checker modules emptyEnv p depth).outcome [] = some ended) ∧
      Imports checker modules emptyEnv p ended := by
  obtain ⟨⟨result, calls⟩, hended, hends⟩ := importAndCheckModules_triple checker modules emptyEnv p [] rfl
  refine ⟨(result, calls), fun depth hdepth => ?_, ?_⟩
  · exact importAndCheckModules_below checker modules emptyEnv p hdepth [] _ hended
  · cases result with
    | ok importTable => exact imports_of_books hends.choose_spec
    | error abort => exact imports_of_aborts hends

example :
    let modules : ModuleMap Unit := ((∅ : ModuleMap Unit).insert ["String".toList] ⟨[], ()⟩).insert [['A']] ⟨[], ()⟩
    let checker : Checker Empty Nat Unit := fun env prg => .ok (env + 1, prg)
    ((importAndCheckModules checker modules 0 ⟨[[['A']]], ()⟩ 4).outcome []).map
        (fun ended => ended.2.map fun call => (call.target, call.newEnv, call.pp.imports)) =
      some [(["String".toList], 0, []), ([['A']], 1, stdLib), ([], 2, [['A']] :: stdLib)] := by
  decide +kernel

end Lfmr.ModuleExpander
