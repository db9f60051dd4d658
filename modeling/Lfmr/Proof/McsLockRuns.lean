import Mathlib.Data.List.Basic
import Lfmr.McsLock

/-!
# Who has the queueing lock

A thread is queued from its exchange until it gives the lock away. The queued threads are those that `arrived` lists
from `served` on, and only the first of them can get out of the loop of `mcs_lock`.
-/

namespace Lfmr.McsLock

open Function Lfmr.Concurrency

variable {n : Nat} {shared shared' : Shared n} {place : Fin n → Nat} {thread : Fin n} {pc pc' : Pc n}

def Queued (shared : Shared n) (place : Fin n → Nat) (thread : Fin n) : Prop :=
  shared.served ≤ place thread ∧ shared.arrived[place thread]? = some thread

def First (shared : Shared n) (place : Fin n → Nat) (thread : Fin n) : Prop :=
  Queued shared place thread ∧ place thread = shared.served

def Behind (shared : Shared n) (place : Fin n → Nat) (pred thread : Fin n) : Prop :=
  Queued shared place pred ∧ Queued shared place thread ∧ place pred + 1 = place thread

def PcInv (thread : Fin n) (shared : Shared n) (place : Fin n → Nat) : Pc n → Prop
  | .idle => ¬ Queued shared place thread
  | .clearLocked => ¬ Queued shared place thread ∧ shared.next thread = none
  | .exchange => ¬ Queued shared place thread ∧ shared.next thread = none ∧ shared.locked thread = false
  | .setLocked pred => Behind shared place pred thread ∧ shared.next pred = none
  | .link pred => Behind shared place pred thread ∧ shared.next pred = none ∧ shared.locked thread = true
  | .spin => Queued shared place thread ∧ (place thread = shared.served → shared.locked thread = false) ∧
      ∀ pred, Behind shared place pred thread → shared.next pred = some thread ∧ shared.locked thread = true
  | .holding | .cas => First shared place thread
  | .await => First shared place thread ∧ shared.served + 1 < shared.arrived.length
  | .readNext => First shared place thread ∧ shared.next thread ≠ none
  | .signal next => First shared place thread ∧ shared.next thread = some next

structure GlobalInv (shared : Shared n) (place : Fin n → Nat) : Prop where
  free : shared.lock = none → shared.served = shared.arrived.length
  taken : ∀ last, shared.lock = some last →
    Queued shared place last ∧ place last + 1 = shared.arrived.length ∧ shared.next last = none
  present : ∀ i, shared.served ≤ i → i < shared.arrived.length →
    ∃ thread, place thread = i ∧ shared.arrived[i]? = some thread
  linked : ∀ pred thread, Queued shared place pred → shared.next pred = some thread →
    Behind shared place pred thread

def Keeps (thread : Fin n) (shared : Shared n) (place : Fin n → Nat) (shared' : Shared n) (pc : Pc n) : Prop :=
  ∃ place', GlobalInv shared' place' ∧ PcInv thread shared' place' pc ∧
    ∀ other, other ≠ thread → ∀ pc, PcInv other shared place pc → PcInv other shared' place' pc

theorem Queued.lt_length (hqueued : Queued shared place thread) : place thread < shared.arrived.length :=
  (List.getElem?_eq_some_iff.mp hqueued.2).1

theorem Queued.eq_of_place {other : Fin n} (hqueued : Queued shared place thread)
    (hother : Queued shared place other) (hplace : place other = place thread) : other = thread := by
  have hthere := hother.2
  rw [hplace, hqueued.2] at hthere
  exact (Option.some.inj hthere).symm

attribute [local grind] Queued First Behind PcInv update

section

variable (hglobal : GlobalInv shared place)
include hglobal

theorem keeps_stay (hpc : PcInv thread shared place pc) : Keeps thread shared place shared pc :=
  ⟨place, hglobal, hpc, fun _ _ _ hother => hother⟩

/-- A write to the thread's own node; `next` changes only while it is not queued. -/
theorem keeps_own {next : Fin n → Option (Fin n)} {locked : Fin n → Bool}
    (hnext : ∀ other, other ≠ thread ∨ Queued shared place other → next other = shared.next other)
    (hlocked : ∀ other, other ≠ thread → locked other = shared.locked other)
    (hpc : PcInv thread { shared with next := next, locked := locked } place pc) :
    Keeps thread shared place { shared with next := next, locked := locked } pc := by
  have hqueued : ∀ other, Queued shared place other → next other = shared.next other := fun other => hnext other ∘ .inr
  refine ⟨place, ⟨hglobal.free, fun last hlast => ?_, hglobal.present, fun pred other hpred hlink => ?_⟩, hpc,
    fun other hne pc hother => ?_⟩
  · obtain ⟨hlast, hend, hnone⟩ := hglobal.taken last hlast
    exact ⟨hlast, hend, (hqueued last hlast).trans hnone⟩
  · exact hglobal.linked pred other hpred ((hqueued pred hpred).symm.trans hlink)
  · have hown := hnext other (.inl hne)
    have hsame := hlocked other hne
    cases pc with
    | idle | holding | cas | await => exact hother
    | setLocked pred | link pred =>
      have hpred := hqueued pred hother.1.1
      grind
    | spin =>
      obtain ⟨hother, hfirst, hbehind⟩ := hother
      refine ⟨hother, fun hplace => hsame.trans (hfirst hplace), fun pred hpred => ?_⟩
      obtain ⟨hlink, hset⟩ := hbehind pred hpred
      exact ⟨(hqueued pred hpred.1).trans hlink, hsame.trans hset⟩
    | _ => grind

theorem keeps_exchange (hinv : PcInv thread shared place .exchange)
    (hpred : ∀ pred, shared.lock = some pred → pc = .setLocked pred) (halone : shared.lock = none → pc = .spin) :
    Keeps thread shared place { shared with lock := some thread, arrived := shared.arrived ++ [thread] } pc := by
  obtain ⟨hnot, hnone, hunlocked⟩ := hinv
  obtain ⟨hfree, htaken, hpresent, hlinked⟩ := hglobal
  let after := { shared with lock := some thread, arrived := shared.arrived ++ [thread] }
  let place' := update place thread shared.arrived.length
  have hserved : shared.served ≤ shared.arrived.length := by cases hlock : shared.lock <;> grind
  have hself : Queued after place' thread := by grind
  have hqueued : ∀ other, other ≠ thread → (Queued after place' other ↔ Queued shared place other) := by grind
  have hbehind : ∀ pred other, pred ≠ thread → other ≠ thread →
      (Behind after place' pred other ↔ Behind shared place pred other) := by grind
  have hlast : ∀ other, ¬ Behind after place' thread other := by grind
  refine ⟨place', ⟨nofun, by grind, fun i hi hlt => ?_, fun pred other hother hlink => ?_⟩, ?_,
    fun other hne pc hother => ?_⟩
  · by_cases heq : i = shared.arrived.length
    · exact ⟨thread, by grind, by grind⟩
    · have hold := hpresent i hi
      grind
  · have hold := hlinked pred other
    grind
  · cases hlock : shared.lock with
    | some pred =>
      have hend := htaken pred hlock
      grind
    | none =>
      -- the queue was empty
      have hempty := hfree hlock
      grind
  · cases pc with
    | setLocked pred | link pred =>
      have hpred : pred ≠ thread := fun heq => hnot (heq ▸ hother.1.1)
      grind
    | spin =>
      have hfront : ∀ pred, Behind after place' pred other → pred ≠ thread := by grind
      grind
    | _ => grind

theorem keeps_link {pred : Fin n} (hinv : PcInv thread shared place (.link pred)) :
    Keeps thread shared place { shared with next := update shared.next pred (some thread) } .spin := by
  obtain ⟨⟨hpred, hqueued, hplace⟩, hnone, hset⟩ := hinv
  have hlast : ∀ last, shared.lock = some last → last ≠ pred := by
    rintro last hlock rfl
    have hend := (hglobal.taken last hlock).2.1
    have hlt := hqueued.lt_length
    omega
  -- only the thread stands behind `pred`
  have hback : ∀ other, Behind shared place pred other → other = thread := fun other hother =>
    hqueued.eq_of_place hother.2.1 (hother.2.2.symm.trans hplace)
  refine ⟨place, ⟨hglobal.free, fun last hlock => ?_, hglobal.present, fun front other hfront hlink => ?_⟩, ?_,
    fun other hne pc hother => ?_⟩
  · obtain ⟨hold, hend, hlink⟩ := hglobal.taken last hlock
    exact ⟨hold, hend, (update_of_ne (hlast last hlock) _ _).trans hlink⟩
  · have hold := hglobal.linked front other hfront
    grind
  · grind
  · cases pc with
    | idle | holding | cas | await => exact hother
    | setLocked front | link front =>
      have hfront : front ≠ pred := fun heq => hne (hback other (heq ▸ hother.1))
      grind
    | spin =>
      obtain ⟨hother, hfirst, hbehind⟩ := hother
      refine ⟨hother, hfirst, fun front hfront => ?_⟩
      have hfar : front ≠ pred := by
        rintro rfl
        exact hne (hback other hfront)
      obtain ⟨hlink, hset⟩ := hbehind front hfront
      exact ⟨(update_of_ne hfar _ _).trans hlink, hset⟩
    | _ => grind

/-- A thread that is not the first has one in front of it, and is locked. -/
theorem first_of_unlocked (hinv : PcInv thread shared place .spin)
    (hlocked : shared.locked thread = false) : First shared place thread := by
  obtain ⟨hqueued, hfirst, hbehind⟩ := hinv
  by_contra hnot
  obtain ⟨pred, hplace, hpred⟩ := hglobal.present (place thread - 1) (by grind) (by grind)
  have hblocked := hbehind pred (by grind)
  grind

/-- The lock goes to the thread behind, or is free if there is none. -/
theorem keeps_leave {lock : Option (Fin n)} {locked : Fin n → Bool} (hfirst : First shared place thread)
    (hleave : shared.lock = some thread ∧ lock = none ∧ locked = shared.locked ∨
      ∃ next, shared.next thread = some next ∧ lock = shared.lock ∧ locked = update shared.locked next false) :
    Keeps thread shared place { shared with lock := lock, locked := locked, served := shared.served + 1 } .idle := by
  obtain ⟨hfree, htaken, hpresent, hlinked⟩ := hglobal
  let after := { shared with lock := lock, locked := locked, served := shared.served + 1 }
  have hqueued : ∀ other, Queued after place other ↔ Queued shared place other ∧ other ≠ thread := by grind
  have hbehind : ∀ pred other, Behind after place pred other ↔ Behind shared place pred other ∧ pred ≠ thread := by
    grind
  -- only the thread behind may be unlocked, and it has linked itself
  have ⟨hkept, hgiven⟩ : (∀ other, ¬ Behind shared place thread other → locked other = shared.locked other) ∧
      ∀ other, Behind shared place thread other → locked other = false ∧ shared.next thread ≠ none := by
    obtain ⟨hlock, -, rfl⟩ | ⟨next, hnext, -, rfl⟩ := hleave
    · have hend := (htaken thread hlock).2.1
      refine ⟨fun _ _ => rfl, fun other hother => ?_⟩
      have hlt := hother.2.1.lt_length
      have hplace := hother.2.2
      omega
    · have hnear := hlinked thread next hfirst.1 hnext
      refine ⟨fun other hnot => update_of_ne ?_ _ _, fun other hother => ?_⟩
      · rintro rfl
        exact hnot hnear
      · rw [hnear.2.1.eq_of_place hother.2.1 (hother.2.2.symm.trans hnear.2.2), hnext]
        exact ⟨update_self .., nofun⟩
  refine ⟨place, ⟨by grind, by grind, fun i hi => hpresent i (Nat.le_of_succ_le hi), by grind⟩, by grind,
    fun other hne pc hother => ?_⟩
  cases pc with
  | holding | cas | await | readNext | signal next =>
    have hother : First shared place other := by grind
    exact absurd (hfirst.1.eq_of_place hother.1 (hother.2.trans hfirst.2.symm)) hne
  | setLocked pred | link pred =>
    have hpred : pred ≠ thread := by
      rintro rfl
      exact (hgiven other hother.1).2 (by grind)
    grind
  | spin =>
    obtain ⟨hother, -, hfront⟩ := hother
    refine ⟨(hqueued other).mpr ⟨hother, hne⟩, fun hplace => ?_, fun pred hpred => ?_⟩
    · -- it stands behind the thread, and is the first now
      exact (hgiven other ⟨hfirst.1, hother, hfirst.2 ▸ hplace.symm⟩).1
    · obtain ⟨hpred, hfar⟩ := (hbehind pred other).mp hpred
      have hsame := hkept other (by grind)
      exact ⟨(hfront pred hpred).1, hsame.trans (hfront pred hpred).2⟩
  | _ => grind

theorem longer_of_next (hfirst : First shared place thread)
    (hnext : shared.next thread ≠ none) : shared.served + 1 < shared.arrived.length := by
  obtain ⟨next, hlink⟩ := Option.ne_none_iff_exists'.mp hnext
  obtain ⟨-, hqueued, hplace⟩ := hglobal.linked thread next hfirst.1 hlink
  rw [← hfirst.2, hplace]
  exact hqueued.lt_length

theorem longer_of_lock (hfirst : First shared place thread)
    (hlock : shared.lock ≠ some thread) : shared.served + 1 < shared.arrived.length := by
  have hlt := hfirst.1.lt_length
  have hplace := hfirst.2
  cases hlast : shared.lock with
  | none =>
    have hend := hglobal.free hlast
    omega
  | some last =>
    obtain ⟨hqueued, hend, -⟩ := hglobal.taken last hlast
    have hle := hqueued.1
    have hne : place last ≠ shared.served := fun heq => hlock (hfirst.1.eq_of_place hqueued (heq.trans hplace.symm) ▸ hlast)
    omega

theorem code_keeps {choice : Unit} (hinv : PcInv thread shared place pc)
    (hcode : code thread choice shared pc = some (shared', pc')) : Keeps thread shared place shared' pc' := by
  cases pc with
  | idle =>
    cases hcode
    refine keeps_own hglobal (fun other hother => update_of_ne ?_ _ _) (fun _ _ => rfl) ⟨hinv, update_self ..⟩
    rintro rfl
    exact hother.elim (absurd rfl) hinv
  | clearLocked | setLocked pred =>
    cases hcode
    exact keeps_own hglobal (fun _ _ => rfl) (fun _ hne => update_of_ne hne _ _) ⟨hinv.1, hinv.2, update_self ..⟩
  | exchange =>
    cases hcode
    exact keeps_exchange hglobal hinv (fun pred hlock => by rw [hlock]) fun hlock => by rw [hlock]
  | link pred =>
    cases hcode
    exact keeps_link hglobal hinv
  | spin =>
    cases hcode
    refine keeps_stay hglobal ?_
    split
    · exact hinv
    · exact first_of_unlocked hglobal hinv (Bool.eq_false_iff.mpr ‹_›)
  | holding =>
    cases hcode
    refine keeps_stay hglobal ?_
    split
    · exact hinv
    · exact ⟨hinv, longer_of_next hglobal hinv ‹_›⟩
  | cas =>
    simp only [code] at hcode
    split at hcode <;> cases hcode
    · exact keeps_leave hglobal hinv (.inl ⟨‹_›, rfl, rfl⟩)
    · exact keeps_stay hglobal ⟨hinv, longer_of_lock hglobal hinv ‹_›⟩
  | await =>
    cases hcode
    refine keeps_stay hglobal ?_
    split
    · exact hinv
    · exact ⟨hinv.1, ‹_›⟩
  | readNext =>
    simp only [code, Option.map_eq_some_iff, Prod.mk.injEq] at hcode
    obtain ⟨next, hnext, rfl, rfl⟩ := hcode
    exact keeps_stay hglobal ⟨hinv.1, hnext⟩
  | signal next =>
    cases hcode
    exact keeps_leave hglobal hinv.1 (.inr ⟨next, hinv.2, rfl, rfl⟩)

end

theorem code_relyGuarantee : RelyGuarantee (code (n := n)) (fun _ _ _ => True) GlobalInv PcInv fun other before after =>
    ∀ pc, PcInv other before.1 before.2 pc → PcInv other after.1 after.2 pc where
  step _ _ _ _ _ _ hglobal hlocal _ hcode := code_keeps hglobal (hlocal _) hcode
  stable _ _ _ pc _ _ hlocal hrely := hrely pc hlocal

variable {next : Fin n → Option (Fin n)} {locked : Fin n → Bool} {config : Config (Fin n) (Shared n) (Pc n)}

theorem inv_of_reachable (hreach : Reachable code (init next locked) config) :
    ∃ place, GlobalInv config.shared place ∧ ∀ thread, PcInv thread config.shared place (config.threads thread) :=
  code_relyGuarantee.invariant hreach (fun _ => 0) ⟨fun _ => rfl, nofun, nofun, nofun⟩ fun _ => nofun

/-- The first in the queue moves on, unless it waits for the next one to link itself, which then does. -/
theorem exists_not_blocked (hglobal : GlobalInv config.shared place)
    (hlocal : ∀ thread, PcInv thread config.shared place (config.threads thread))
    (hqueued : Queued config.shared place thread) :
    ∃ other, config.threads other ≠ .idle ∧ ¬ Blocked config other := by
  obtain ⟨first, hplace, hfirst⟩ := hglobal.present config.shared.served (Nat.le_refl _) (by grind)
  have hinv := hlocal first
  by_cases hblocked : Blocked config first
  · obtain ⟨hspin, hlocked⟩ | ⟨hawait, hnext⟩ := hblocked
    · rw [hspin] at hinv
      grind
    · rw [hawait] at hinv
      obtain ⟨second, hplace', hsecond⟩ := hglobal.present (config.shared.served + 1) (by grind) (by grind)
      -- it has arrived and is not linked yet, so it is not in the loop of `mcs_lock`
      have hinv' := hlocal second
      refine ⟨second, ?_, ?_⟩ <;> grind [Blocked]
  · exact ⟨first, by grind, hblocked⟩

theorem first_of_holds (hinv : PcInv thread shared place pc) (hholds : pc.holds = true) : First shared place thread := by
  cases pc with
  | holding | cas => exact hinv
  | await | readNext | signal next => exact hinv.1
  | _ => cases hholds

/-- Threads get the lock one at a time and in the order of their exchanges. -/
theorem mcs_inOrder (hreach : Reachable code (init next locked) config)
    (hholds : (config.threads thread).holds = true) :
    config.shared.arrived[config.shared.served]? = some thread := by
  obtain ⟨place, -, hlocal⟩ := inv_of_reachable hreach
  obtain ⟨hqueued, hplace⟩ := first_of_holds (hlocal thread) hholds
  rw [← hplace]
  exact hqueued.2

/-- The first thread gets the lock and the second waits, until the first gives the lock away. -/
def handOver (first second : Fin n) : List (Fin n × Unit) :=
  List.replicate 4 (first, ()) ++ List.replicate 5 (second, ()) ++ List.replicate 4 (first, ()) ++ [(second, ())]

def unlocked : Config (Fin 2) (Shared 2) (Pc 2) := init (fun _ => none) fun _ => false

theorem mcs_inOrder_handOver : ∃ config, Reachable code unlocked config ∧ (config.threads 1).holds = true ∧
    config.shared.arrived[config.shared.served]? = some 1 := by
  have hrun : (unlocked.run code (handOver 0 1)).any (·.threads 1 |>.holds) = true := by decide +kernel
  obtain ⟨config, hreach, hholds⟩ := exists_reachable_of_run _ _ hrun
  exact ⟨config, hreach, hholds, mcs_inOrder hreach hholds⟩

/-- No null pointer is followed, and as long as a thread has a call to finish there is one that is not waiting. -/
theorem mcs_progress (hreach : Reachable code (init next locked) config) :
    (∀ thread, (config.step code thread ()).isSome = true) ∧
      ((∃ thread, config.threads thread ≠ .idle) →
        ∃ thread, config.threads thread ≠ .idle ∧ ¬ Blocked config thread) := by
  obtain ⟨place, hglobal, hlocal⟩ := inv_of_reachable hreach
  refine ⟨fun thread => ?_, fun ⟨thread, hbusy⟩ => ?_⟩
  · have hinv := hlocal thread
    rw [Config.step, Option.isSome_map]
    cases hpc : config.threads thread with
    | readNext =>
      rw [hpc] at hinv
      simpa [code, Option.isSome_iff_ne_none] using hinv.2
    | cas =>
      simp only [code]
      split <;> rfl
    | _ => rfl
  · by_cases hqueued : Queued config.shared place thread
    · exact exists_not_blocked hglobal hlocal hqueued
    · refine ⟨thread, hbusy, ?_⟩
      have hinv := hlocal thread
      grind [Blocked]

theorem mcs_progress_handOver : ∃ config, Reachable code unlocked config ∧ Blocked config 1 ∧
    ∃ thread, config.threads thread ≠ .idle ∧ ¬ Blocked config thread := by
  have hrun : (unlocked.run code ((handOver 0 1).take 9)).any
      (fun config => config.threads 1 == .spin && config.shared.locked 1) = true := by decide +kernel
  obtain ⟨config, hreach, hcheck⟩ := exists_reachable_of_run _ _ hrun
  rw [Bool.and_eq_true, beq_iff_eq] at hcheck
  exact ⟨config, hreach, .inl hcheck, (mcs_progress hreach).2 ⟨1, hcheck.1 ▸ nofun⟩⟩

end Lfmr.McsLock
