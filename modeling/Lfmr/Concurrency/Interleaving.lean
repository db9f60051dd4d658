import Mathlib.Logic.Function.Basic
import Mathlib.Logic.Relation
import Mathlib.Tactic.Common

/-!
# Threads interleaved over a shared memory

A thread's code takes one atomic access, from the shared memory and the thread's own state. A run picks a thread
and performs one such access at a time, so the runs are exactly the sequentially consistent interleavings.

The rules at the end say how an invariant is carried through all of them: a fact `Global` about the memory with
one fact `Local` about each thread, where what a thread may assume of the others is a relation `rely` between the
memories before and after their accesses.
-/

namespace Lfmr.Concurrency

open Function

variable {Tid Choice Shared Priv : Type}

@[ext]
structure Config (Tid Shared Priv : Type) where
  shared : Shared
  threads : Tid → Priv

/-- The code all threads run: one atomic access of a thread. The choice settles what the code leaves
open (which call a client makes next, which address an allocator returns); `none` is a choice that is
not available there. -/
abbrev Code (Tid Choice Shared Priv : Type) :=
  Tid → Choice → Shared → Priv → Option (Shared × Priv)

def soloRun (code : Code Tid Choice Shared Priv) (thread : Tid) :
    List Choice → Shared → Priv → Option (Shared × Priv)
  | [], shared, priv => some (shared, priv)
  | choice :: rest, shared, priv =>
      (code thread choice shared priv).bind fun result => soloRun code thread rest result.1 result.2

theorem soloRun_append {thread : Tid} {shared middle : Shared} {priv between : Priv}
    {code : Code Tid Choice Shared Priv} {choices : List Choice}
    (hfirst : soloRun code thread choices shared priv = some (middle, between)) (rest : List Choice) :
    soloRun code thread (choices ++ rest) shared priv = soloRun code thread rest middle between := by
  induction choices generalizing shared priv with
  | nil =>
    cases hfirst
    rfl
  | cons choice choices ih =>
    simp only [soloRun, Option.bind_eq_some_iff] at hfirst
    obtain ⟨⟨_, _⟩, hcode, hchoices⟩ := hfirst
    simp only [List.cons_append, soloRun, hcode, Option.bind_some]
    exact ih hchoices

section Runs

variable [DecidableEq Tid]

def Config.step (code : Code Tid Choice Shared Priv) (config : Config Tid Shared Priv) (thread : Tid)
    (choice : Choice) : Option (Config Tid Shared Priv) :=
  (code thread choice config.shared (config.threads thread)).map fun result =>
    { shared := result.1, threads := Function.update config.threads thread result.2 }

/-- The state after a schedule, a list of threads with the choices they make, all of which `allowed`
must admit. -/
def Config.runVia (code : Code Tid Choice Shared Priv)
    (allowed : Config Tid Shared Priv → Tid → Choice → Prop)
    [∀ config thread choice, Decidable (allowed config thread choice)] :
    Config Tid Shared Priv → List (Tid × Choice) → Option (Config Tid Shared Priv)
  | config, [] => some config
  | config, (thread, choice) :: rest =>
      if allowed config thread choice then
        (config.step code thread choice).bind fun next => next.runVia code allowed rest
      else
        none

def Config.run (code : Code Tid Choice Shared Priv) :
    Config Tid Shared Priv → List (Tid × Choice) → Option (Config Tid Shared Priv) :=
  Config.runVia code fun _ _ _ => True

theorem Config.step_eq_some_iff {code : Code Tid Choice Shared Priv}
    {config next : Config Tid Shared Priv} {thread : Tid} {choice : Choice} :
    config.step code thread choice = some next ↔
      ∃ priv, code thread choice config.shared (config.threads thread) = some (next.shared, priv) ∧
        next.threads = update config.threads thread priv := by
  unfold Config.step
  rw [Option.map_eq_some_iff]
  constructor
  · rintro ⟨⟨shared, priv⟩, hcode, rfl⟩
    exact ⟨priv, hcode, rfl⟩
  · rintro ⟨priv, hcode, hthreads⟩
    exact ⟨(next.shared, priv), hcode, by cases next; simp_all⟩

/-- The states of the runs that start at `start` and in which every access is made in a state, by a
thread and with a choice that `allowed` admits. -/
inductive ReachableVia (code : Code Tid Choice Shared Priv)
    (allowed : Config Tid Shared Priv → Tid → Choice → Prop) (start : Config Tid Shared Priv) :
    Config Tid Shared Priv → Prop
  | refl : ReachableVia code allowed start start
  | step {config next : Config Tid Shared Priv} {thread : Tid} {choice : Choice} :
      ReachableVia code allowed start config → allowed config thread choice →
      config.step code thread choice = some next → ReachableVia code allowed start next

def Reachable (code : Code Tid Choice Shared Priv) (start : Config Tid Shared Priv) :
    Config Tid Shared Priv → Prop :=
  ReachableVia code (fun _ _ _ => True) start

variable {code : Code Tid Choice Shared Priv} {start config next : Config Tid Shared Priv}
  {allowed : Config Tid Shared Priv → Tid → Choice → Prop}

theorem Reachable.refl : Reachable code start start := ReachableVia.refl

theorem ReachableVia.mono {weaker : Config Tid Shared Priv → Tid → Choice → Prop}
    (hreach : ReachableVia code allowed start config)
    (hweaker : ∀ config thread choice, allowed config thread choice → weaker config thread choice) :
    ReachableVia code weaker start config := by
  induction hreach with
  | refl => exact .refl
  | step _ hallowed hstep ih => exact .step ih (hweaker _ _ _ hallowed) hstep

theorem ReachableVia.trans {middle : Config Tid Shared Priv}
    (hfirst : ReachableVia code allowed start middle) (hsecond : ReachableVia code allowed middle config) :
    ReachableVia code allowed start config := by
  induction hsecond with
  | refl => exact hfirst
  | step _ hallowed hstep ih => exact .step ih hallowed hstep

theorem ReachableVia.run [∀ config thread choice, Decidable (allowed config thread choice)]
    (hreach : ReachableVia code allowed start config) (schedule : List (Tid × Choice))
    (hrun : config.runVia code allowed schedule = some next) :
    ReachableVia code allowed start next := by
  induction schedule generalizing config with
  | nil =>
    simp only [Config.runVia, Option.some.injEq] at hrun
    exact hrun ▸ hreach
  | cons entry rest ih =>
    obtain ⟨thread, choice⟩ := entry
    simp only [Config.runVia, Option.ite_none_right_eq_some, Option.bind_eq_some_iff] at hrun
    obtain ⟨hallowed, middle, hstep, hrest⟩ := hrun
    exact ih (hreach.step hallowed hstep) hrest

/-- **Bounded runs.** A measure that every access with a choice of some kind makes smaller bounds the length
of the runs that make only such choices. -/
theorem Config.length_le_of_runVia [∀ config thread choice, Decidable (allowed config thread choice)]
    (kind : Choice → Prop) (measure : Config Tid Shared Priv → Nat)
    (hless : ∀ (config next : Config Tid Shared Priv) (thread : Tid) (choice : Choice), kind choice →
      config.step code thread choice = some next → measure next < measure config)
    {schedule : List (Tid × Choice)} (hkind : ∀ entry ∈ schedule, kind entry.2)
    (hrun : config.runVia code allowed schedule = some next) : schedule.length ≤ measure config := by
  induction schedule generalizing config with
  | nil => exact Nat.zero_le _
  | cons entry rest ih =>
    obtain ⟨thread, choice⟩ := entry
    simp only [Config.runVia, Option.ite_none_right_eq_some, Option.bind_eq_some_iff] at hrun
    obtain ⟨-, middle, hstep, hrest⟩ := hrun
    obtain ⟨hfirst, hkind⟩ := List.forall_mem_cons.mp hkind
    exact Nat.le_trans (Nat.succ_le_succ (ih hkind hrest)) (hless _ _ _ _ hfirst hstep)

theorem exists_reachableVia_of_run [∀ config thread choice, Decidable (allowed config thread choice)]
    (schedule : List (Tid × Choice)) (check : Config Tid Shared Priv → Bool)
    (hrun : (start.runVia code allowed schedule).any check = true) :
    ∃ config, ReachableVia code allowed start config ∧ check config = true := by
  rw [Option.any_eq_true_iff_get] at hrun
  obtain ⟨hsome, hcheck⟩ := hrun
  exact ⟨_, ReachableVia.refl.run schedule (Option.some_get hsome).symm, hcheck⟩

theorem exists_reachable_of_run (schedule : List (Tid × Choice)) (check : Config Tid Shared Priv → Bool)
    (hrun : (start.run code schedule).any check = true) :
    ∃ config, Reachable code start config ∧ check config = true :=
  exists_reachableVia_of_run schedule check hrun

theorem Reachable.solo {thread : Tid} {shared : Shared} {before after : Priv} {choices : List Choice}
    (hreach : Reachable code start config) (hbefore : config.threads thread = before)
    (hsolo : soloRun code thread choices config.shared before = some (shared, after)) :
    Reachable code start ⟨shared, update config.threads thread after⟩ := by
  induction choices generalizing config before with
  | nil =>
    cases hsolo
    rw [← hbefore, update_eq_self]
    exact hreach
  | cons choice rest ih =>
    simp only [soloRun, Option.bind_eq_some_iff] at hsolo
    obtain ⟨⟨middle, between⟩, hcode, hrest⟩ := hsolo
    rw [← hbefore] at hcode
    have hstep : config.step code thread choice = some ⟨middle, update config.threads thread between⟩ :=
      Config.step_eq_some_iff.mpr ⟨between, hcode, rfl⟩
    have hnext := ih (ReachableVia.step hreach trivial hstep) (by simp) hrest
    rwa [update_idem] at hnext

theorem ReachableVia.strengthen {Inv : Config Tid Shared Priv → Prop} (hreach : ReachableVia code allowed start config)
    (hinv : ∀ config, ReachableVia code allowed start config → Inv config) :
    ReachableVia code (fun config thread choice => allowed config thread choice ∧ Inv config) start config := by
  induction hreach with
  | refl => exact .refl
  | step hreach hallowed hstep ih => exact .step ih ⟨hallowed, hinv _ hreach⟩ hstep

/-- **Invariants.** What holds at the start and is kept by every admitted access holds in every state
of every run. -/
theorem ReachableVia.invariant (hreach : ReachableVia code allowed start config)
    (Inv : Config Tid Shared Priv → Prop) (hstart : Inv start)
    (hkeep : ∀ (config next : Config Tid Shared Priv) (thread : Tid) (choice : Choice),
      Inv config → allowed config thread choice → config.step code thread choice = some next →
      Inv next) : Inv config := by
  induction hreach with
  | refl => exact hstart
  | step _ hallowed hstep ih => exact hkeep _ _ _ _ ih hallowed hstep

variable (code allowed) {Ghost : Type} (Global : Shared → Ghost → Prop) (Local : Tid → Shared → Ghost → Priv → Prop)
  (rely : Tid → Shared × Ghost → Shared × Ghost → Prop)

/-- An access of `thread` that leads to `shared'` and `priv` re-establishes `Global` and the thread's own
`Local`, both of which may speak of a ghost value that changes along with the memory, and every other
thread sees a change it relies on. -/
def Keeps (thread : Tid) (shared : Shared) (ghost : Ghost) (shared' : Shared) (priv : Priv) : Prop :=
  ∃ ghost', Global shared' ghost' ∧ Local thread shared' ghost' priv ∧
    ∀ other, other ≠ thread → rely other (shared, ghost) (shared', ghost')

/-- What has to be shown of each access for `Global` and `Local` to be invariant: it keeps them, and a
thread's own fact survives the changes it relies on. -/
structure RelyGuarantee : Prop where
  step : ∀ (config : Config Tid Shared Priv) (ghost : Ghost) (thread : Tid) (choice : Choice)
    (shared : Shared) (priv : Priv), Global config.shared ghost →
    (∀ other, Local other config.shared ghost (config.threads other)) →
    allowed config thread choice →
    code thread choice config.shared (config.threads thread) = some (shared, priv) →
    Keeps Global Local rely thread config.shared ghost shared priv
  stable : ∀ (other : Tid) (before after : Shared × Ghost) (priv : Priv),
    Global before.1 before.2 → Global after.1 after.2 → Local other before.1 before.2 priv →
    rely other before after → Local other after.1 after.2 priv

variable {code allowed Global Local rely}

theorem RelyGuarantee.invariant (hrg : RelyGuarantee code allowed Global Local rely)
    (hreach : ReachableVia code allowed start config) (ghost : Ghost)
    (hglobal : Global start.shared ghost)
    (hlocal : ∀ thread, Local thread start.shared ghost (start.threads thread)) :
    ∃ ghost, Global config.shared ghost ∧ ∀ thread, Local thread config.shared ghost (config.threads thread) := by
  refine hreach.invariant (fun config => ∃ ghost, Global config.shared ghost ∧
      ∀ thread, Local thread config.shared ghost (config.threads thread)) ⟨ghost, hglobal, hlocal⟩ ?_
  rintro config next thread choice ⟨ghost, hglobal, hlocal⟩ hallowed hstep
  obtain ⟨priv, hcode, hthreads⟩ := Config.step_eq_some_iff.mp hstep
  obtain ⟨ghost', hglobal', hown, hothers⟩ :=
    hrg.step config ghost thread choice next.shared priv hglobal hlocal hallowed hcode
  refine ⟨ghost', hglobal', fun other => ?_⟩
  rw [hthreads]
  by_cases heq : other = thread
  · subst heq
    simpa using hown
  · rw [update_of_ne heq]
    exact hrg.stable other (config.shared, ghost) (next.shared, ghost') _ hglobal hglobal'
      (hlocal other) (hothers other heq)

end Runs

end Lfmr.Concurrency
