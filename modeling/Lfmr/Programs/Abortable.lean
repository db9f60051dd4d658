import Mathlib.Logic.Basic

/-!
# Programs that may abort

Programs with a state that survives an abort, and that may not end. `Triple` is total: the program ends from
every state with the precondition. `Below` compares the approximations of a program by the depth of recursion
they are given.
-/

namespace Lfmr.Programs

variable {σ ε α β : Type}

abbrev Abortable (σ ε α : Type) := ExceptT ε (StateT σ Option) α

namespace Abortable

def outcome (program : Abortable σ ε α) (s : σ) : Option (Except ε α × σ) := program.run.run s

def stuck : Abortable σ ε α := fun _ => none

theorem outcome_bind (program : Abortable σ ε α) (rest : α → Abortable σ ε β) (s : σ) :
    (program >>= rest).outcome s = (program.outcome s).bind fun (result, s') =>
      match result with
      | .ok a => (rest a).outcome s'
      | .error e => some (.error e, s') := by
  simp only [outcome, ExceptT.run_bind, StateT.run_bind]
  cases program.run.run s with
  | none => rfl
  | some ended =>
    obtain ⟨result, s'⟩ := ended
    cases result <;> rfl

end Abortable

def Ends (post : α → σ → Prop) (abort : ε → σ → Prop) : Except ε α × σ → Prop
  | (.ok a, s) => post a s
  | (.error e, s) => abort e s

def Triple (pre : σ → Prop) (program : Abortable σ ε α) (post : α → σ → Prop) (abort : ε → σ → Prop) : Prop :=
  ∀ s, pre s → ∃ ended, program.outcome s = some ended ∧ Ends post abort ended

namespace Triple

variable {pre : σ → Prop} {post : α → σ → Prop} {post' : β → σ → Prop} {abort : ε → σ → Prop}

theorem pure (a : α) (hpost : ∀ s, pre s → post a s) : Triple pre (Pure.pure a : Abortable σ ε α) post abort :=
  fun s hpre => ⟨(.ok a, s), rfl, hpost s hpre⟩

theorem throw (e : ε) (habort : ∀ s, pre s → abort e s) :
    Triple pre (MonadExcept.throw e : Abortable σ ε α) post abort :=
  fun s hpre => ⟨(.error e, s), rfl, habort s hpre⟩

theorem modify (f : σ → σ) {post : PUnit → σ → Prop} (hpost : ∀ s, pre s → post ⟨⟩ (f s)) :
    Triple pre (MonadState.modifyGet fun s => (PUnit.unit, f s) : Abortable σ ε PUnit) post abort :=
  fun s hpre => ⟨(.ok ⟨⟩, f s), rfl, hpost s hpre⟩

variable {program : Abortable σ ε α}

theorem bind {rest : α → Abortable σ ε β} (hprogram : Triple pre program post abort)
    (hrest : ∀ a, Triple (post a) (rest a) post' abort) : Triple pre (program >>= rest) post' abort := by
  intro s hpre
  obtain ⟨⟨result, s'⟩, hended, hends⟩ := hprogram s hpre
  rw [Abortable.outcome_bind, hended]
  cases result with
  | ok a => exact hrest a s' hends
  | error e => exact ⟨_, rfl, hends⟩

theorem imp {pre' : σ → Prop} {wider : α → σ → Prop} (hprogram : Triple pre program post abort)
    (hpre : ∀ s, pre' s → pre s) (hpost : ∀ a s, post a s → wider a s) : Triple pre' program wider abort := by
  intro s hs
  obtain ⟨⟨result, s'⟩, hended, hends⟩ := hprogram s (hpre s hs)
  refine ⟨_, hended, ?_⟩
  cases result with
  | ok a => exact hpost a s' hends
  | error e => exact hends

theorem of_pre {fact : Prop} (hfact : ∀ s, pre s → fact)
    (hprogram : fact → Triple pre program post abort) : Triple pre program post abort :=
  fun s hpre => hprogram (hfact s hpre) s hpre

theorem foldlM {step : α → β → Abortable σ ε α} (inv : List β → α → σ → Prop) (list : List β)
    (hstep : ∀ before b after a, list = before ++ b :: after →
      Triple (inv before a) (step a b) (inv (before ++ [b])) abort) (a : α) :
    Triple (inv [] a) (list.foldlM step a) (inv list) abort := by
  suffices hrest : ∀ (after before : List β) (a : α), list = before ++ after →
      Triple (inv before a) (after.foldlM step a) (inv list) abort from hrest list [] a rfl
  intro after
  induction after with
  | nil =>
    rintro before a rfl
    refine Triple.pure a fun s hinv => ?_
    rwa [List.append_nil]
  | cons b after ih =>
    intro before a hlist
    rw [List.foldlM_cons]
    exact (hstep before b after a hlist).bind fun a' => ih (before ++ [b]) a' (by simp [hlist])

end Triple

def Below (program program' : Abortable σ ε α) : Prop :=
  ∀ s ended, program.outcome s = some ended → program'.outcome s = some ended

namespace Below

variable {program program' : Abortable σ ε α}

theorem refl (program : Abortable σ ε α) : Below program program := fun _ _ hended => hended

theorem stuck (program : Abortable σ ε α) : Below Abortable.stuck program := nofun

theorem bind {rest rest' : α → Abortable σ ε β} (hprogram : Below program program')
    (hrest : ∀ a, Below (rest a) (rest' a)) : Below (program >>= rest) (program' >>= rest') := by
  intro s ended hended
  rw [Abortable.outcome_bind, Option.bind_eq_some_iff] at hended
  obtain ⟨⟨result, s'⟩, hfirst, hsecond⟩ := hended
  rw [Abortable.outcome_bind, hprogram s _ hfirst]
  cases result with
  | ok a => exact hrest a s' ended hsecond
  | error e => exact hsecond

theorem foldlM {step step' : α → β → Abortable σ ε α} (hstep : ∀ a b, Below (step a b) (step' a b)) :
    ∀ (list : List β) (a : α), Below (list.foldlM step a) (list.foldlM step' a)
  | [], a => refl _
  | b :: list, a => by
    rw [List.foldlM_cons, List.foldlM_cons]
    exact (hstep a b).bind fun a' => foldlM hstep list a'

end Below

end Lfmr.Programs
