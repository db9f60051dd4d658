import Lfmr.ClaimCounter
import Lfmr.Proof.LfrcCounts

/-!
# A node is claimed once

The counter is twice the number of references plus the claim bit. Whoever is to put the node on the free
list or to clear the bit is alone, and then the bit is set.
-/

namespace Lfmr.ClaimCounter

open Lfmr.Concurrency Finset

variable {log : List Event}

@[simp]
theorem references_added : references (log ++ [.added]) = references log + 1 := by
  simp [references]

@[simp]
theorem references_decremented {returned : Bool} :
    references (log ++ [.decremented returned]) = references log - 1 := by
  simp [references]

@[simp]
theorem references_cleared : references (log ++ [.cleared]) = references log := by
  simp [references]

@[simp]
theorem claimed_added : claimed (log ++ [.added]) = claimed log := by
  simp [claimed]

@[simp]
theorem claimed_decremented {returned : Bool} :
    claimed (log ++ [.decremented returned]) = (returned || claimed log) := by
  simp [claimed]

@[simp]
theorem claimed_cleared : claimed (log ++ [.cleared]) = false := by
  simp [claimed]

theorem append_singleton_eq_split {α : Type} {list before after : List α} {new place : α}
    (hsplit : list ++ [new] = before ++ place :: after) :
    (∃ rest, after = rest ++ [new] ∧ list = before ++ place :: rest) ∨ (after = [] ∧ new = place ∧ list = before) := by
  rcases List.eq_nil_or_concat' after with rfl | ⟨rest, last, rfl⟩
  · obtain ⟨hlist, hnew⟩ := List.append_inj' hsplit rfl
    exact .inr ⟨rfl, List.singleton_inj.mp hnew, hlist⟩
  · have hsplit' : list ++ [new] = (before ++ place :: rest) ++ [last] := by simpa using hsplit
    obtain ⟨hlist, hnew⟩ := List.append_inj' hsplit' rfl
    rw [← List.singleton_inj.mp hnew]
    exact .inl ⟨rest, rfl, hlist⟩

structure Claims (log : List Event) : Prop extends ClaimedOnce log where
  current : ∀ before since, log = before ++ .cleared :: since → .cleared ∉ since →
    since.count (.decremented true) = if claimed log then 1 else 0

theorem Claims.nil : Claims [] :=
  ⟨⟨by simp, by simp⟩, by simp⟩

namespace Claims

variable {returned : Bool}

section

variable (hclaims : Claims log)
include hclaims

theorem once_append {event : Event} (hcleared : event = .cleared → claimed log = true)
    (before between after : List Event)
    (hsplit : log ++ [event] = before ++ .cleared :: between ++ .cleared :: after) (hbetween : .cleared ∉ between) :
    between.count (.decremented true) = 1 := by
  rcases append_singleton_eq_split hsplit with ⟨rest, -, hlog⟩ | ⟨-, hevent, hlog⟩
  · exact hclaims.once before between rest hlog hbetween
  · rw [hclaims.current before between hlog hbetween, hcleared hevent]
    rfl

theorem last_append {event : Event} (hevent : ∀ returned, event ≠ .decremented returned)
    (before : List Event) (returned : Bool) (after : List Event)
    (hsplit : log ++ [event] = before ++ .decremented returned :: after) :
    returned = true ↔ claimed before = false ∧ references (before ++ [.decremented returned]) = 0 := by
  rcases append_singleton_eq_split hsplit with ⟨rest, -, hlog⟩ | ⟨-, heq, -⟩
  · exact hclaims.last before returned rest hlog
  · exact absurd heq (hevent returned)

theorem added : Claims (log ++ [.added]) := by
  refine ⟨⟨hclaims.once_append (by simp), hclaims.last_append (by simp)⟩, fun before since hsplit hsince => ?_⟩
  rcases append_singleton_eq_split hsplit with ⟨rest, rfl, hlog⟩ | ⟨-, heq, -⟩
  · rw [List.mem_append, not_or] at hsince
    simpa using hclaims.current before rest hlog hsince.1
  · cases heq

theorem cleared (hclaimed : claimed log = true) : Claims (log ++ [.cleared]) := by
  refine ⟨⟨hclaims.once_append fun _ => hclaimed, hclaims.last_append (by simp)⟩, fun before since hsplit hsince => ?_⟩
  rcases append_singleton_eq_split hsplit with ⟨rest, rfl, -⟩ | ⟨rfl, -, -⟩
  · simp at hsince
  · simp

theorem decremented (hreturned : returned = true ↔ claimed log = false ∧ references log - 1 = 0) :
    Claims (log ++ [.decremented returned]) := by
  refine ⟨⟨hclaims.once_append (by simp), fun before other after hsplit => ?_⟩, fun before since hsplit hsince => ?_⟩
  · rcases append_singleton_eq_split hsplit with ⟨rest, -, hlog⟩ | ⟨-, heq, rfl⟩
    · exact hclaims.last before other rest hlog
    · cases heq
      rw [references_decremented]
      exact hreturned
  · rcases append_singleton_eq_split hsplit with ⟨rest, rfl, hlog⟩ | ⟨-, heq, -⟩
    · rw [List.mem_append, not_or] at hsince
      have hcurrent := hclaims.current before rest hlog hsince.1
      cases returned with
      | false => simpa using hcurrent
      | true => simpa [(hreturned.mp rfl).1] using hcurrent
    · cases heq

end

end Claims

def Pc.isPending : Pc → Bool
  | .push | .clearLoad | .clearCas _ => true
  | _ => false

variable {Tid : Type} [Fintype Tid] {config next : Config Tid Shared Thread} {thread : Tid}

structure Inv (config : Config Tid Shared Thread) : Prop where
  counter : config.shared.refcnt = 2 * references config.shared.log + (claimed config.shared.log).toNat
  total : references config.shared.log = config.shared.stored + ∑ thread, (config.threads thread).refs
  pending : config.shared.listed.toNat + ∑ thread, (config.threads thread).pc.isPending.toNat =
    (claimed config.shared.log).toNat
  claims : Claims config.shared.log

namespace Inv

theorem start : Inv (ClaimCounter.start : Config Tid Shared Thread) where
  counter := rfl
  total := by simp [ClaimCounter.start, references, Thread.refs]
  pending := by simp [ClaimCounter.start, claimed, Pc.isPending]
  claims := Claims.nil

theorem refs_le (hinv : Inv config) (thread : Tid) : (config.threads thread).refs ≤ references config.shared.log := by
  rw [hinv.total]
  exact Nat.le_add_left_of_le
    (single_le_sum (f := fun thread => (config.threads thread).refs) (fun _ _ => Nat.zero_le _) (mem_univ thread))

theorem of_isPending (hinv : Inv config) (hpending : (config.threads thread).pc.isPending = true) :
    claimed config.shared.log = true ∧ config.shared.listed = false := by
  have hle := single_le_sum (f := fun thread => (config.threads thread).pc.isPending.toNat)
    (fun _ _ => Nat.zero_le _) (mem_univ thread)
  rw [hpending, Bool.toNat_true] at hle
  have hsum := hinv.pending
  have hclaimed := Bool.toNat_le (claimed config.shared.log)
  exact ⟨Bool.toNat_eq_one.mp (by omega), Bool.toNat_eq_zero.mp (by omega)⟩

variable [DecidableEq Tid]

theorem update (hinv : Inv config) {shared : Shared} {priv : Thread}
    (hcounter : shared.refcnt = 2 * references shared.log + (claimed shared.log).toNat)
    (htotal : references shared.log + (config.shared.stored + (config.threads thread).refs) =
      references config.shared.log + (shared.stored + priv.refs))
    (hpending : (claimed shared.log).toNat + (config.shared.listed.toNat + (config.threads thread).pc.isPending.toNat) =
      (claimed config.shared.log).toNat + (shared.listed.toNat + priv.pc.isPending.toNat))
    (hclaims : Claims shared.log) : Inv ⟨shared, Function.update config.threads thread priv⟩ := by
  have hrefs := RefCount.sum_update_add (Finset.mem_univ thread) Thread.refs config.threads priv
  have hpcs := RefCount.sum_update_add (Finset.mem_univ thread) (·.pc.isPending.toNat) config.threads priv
  refine ⟨hcounter, ?_, ?_, hclaims⟩
  · have hbefore := hinv.total
    dsimp only
    omega
  · have hbefore := hinv.pending
    dsimp only
    omega

theorem quiet (hinv : Inv config) (stored : Nat) {priv : Thread}
    (hrefs : config.shared.stored + (config.threads thread).refs = stored + priv.refs)
    (hpending : priv.pc.isPending = (config.threads thread).pc.isPending) :
    Inv ⟨{ config.shared with stored := stored }, Function.update config.threads thread priv⟩ := by
  refine hinv.update hinv.counter ?_ ?_ hinv.claims
  · dsimp only
    omega
  · rw [hpending]

theorem record (hinv : Inv config) {refcnt : Nat} {event : Event} {priv : Thread} (hcounter : refcnt =
      2 * references (config.shared.log ++ [event]) + (claimed (config.shared.log ++ [event])).toNat)
    (hrefs : references (config.shared.log ++ [event]) + (config.threads thread).refs =
      references config.shared.log + priv.refs)
    (hpending : (claimed (config.shared.log ++ [event])).toNat + (config.threads thread).pc.isPending.toNat =
      (claimed config.shared.log).toNat + priv.pc.isPending.toNat)
    (hclaims : Claims (config.shared.log ++ [event])) :
    Inv ⟨config.shared.record refcnt event, Function.update config.threads thread priv⟩ := by
  refine hinv.update hcounter ?_ ?_ hclaims
  · dsimp only [Shared.record]
    omega
  · dsimp only [Shared.record]
    omega

/-- The reference is one of those that are counted, so that there is something to take away. -/
theorem decremented (hinv : Inv config) {held : Nat} {pc : Pc} (hpos : 0 < references config.shared.log)
    (hrefs : (config.threads thread).refs = held + 1) (hidle : (config.threads thread).pc.isPending = false)
    (hpc : pc.isPending = Lfrc.isClaim config.shared.refcnt) (hheld : (Thread.mk held pc).refs = held) :
    Inv ⟨config.shared.record (Lfrc.decrement config.shared.refcnt)
      (.decremented (Lfrc.isClaim config.shared.refcnt)), Function.update config.threads thread ⟨held, pc⟩⟩ := by
  have hcounter := hinv.counter
  have hbit := Bool.toNat_le (claimed config.shared.log)
  have hclaim : Lfrc.isClaim config.shared.refcnt = true ↔
      claimed config.shared.log = false ∧ references config.shared.log - 1 = 0 := by
    rw [Lfrc.isClaim_iff, hcounter, ← Bool.toNat_eq_zero]
    omega
  refine hinv.record ?_ ?_ ?_ (hinv.claims.decremented hclaim)
  · rw [references_decremented, claimed_decremented]
    by_cases htwo : config.shared.refcnt = 2
    · obtain ⟨hfalse, hzero⟩ := hclaim.mp (Lfrc.isClaim_iff.mpr htwo)
      rw [Lfrc.isClaim_iff.mpr htwo, hzero, htwo]
      rfl
    · have hnot : Lfrc.isClaim config.shared.refcnt = false :=
        Bool.eq_false_iff.mpr fun hclaim => htwo (Lfrc.isClaim_iff.mp hclaim)
      rw [hnot, Lfrc.decrement_of_ne (by omega) htwo, Bool.false_or]
      omega
  · rw [references_decremented, hrefs, hheld]
    omega
  · rw [claimed_decremented, hidle, hpc]
    cases hreturned : Lfrc.isClaim config.shared.refcnt with
    | false => rfl
    | true => rw [(hclaim.mp hreturned).1]; rfl

theorem step (hinv : Inv config) {choice : Choice} (hstep : config.step code thread choice = some next) : Inv next := by
  obtain ⟨priv, hcode, hthreads⟩ := Config.step_eq_some_iff.mp hstep
  obtain ⟨shared, threads⟩ := next
  obtain rfl : threads = _ := hthreads
  have hrefs := hinv.refs_le thread
  have hcounter := hinv.counter
  generalize hthread : config.threads thread = old at hcode hrefs
  obtain ⟨held, pc⟩ := old
  cases pc with
  | idle =>
    cases choice with
    | go => cases hcode
    | add =>
      cases hcode
      refine hinv.record ?_ ?_ ?_ hinv.claims.added
      · rw [references_added, claimed_added]
        omega
      · simp only [references_added, hthread, Thread.refs]
        omega
      · rw [claimed_added, hthread]
    | store =>
      obtain ⟨hheld, hcode⟩ := Option.ite_none_right_eq_some.mp hcode
      cases hcode
      refine hinv.quiet _ ?_ (by rw [hthread])
      simp only [hthread, Thread.refs] at hheld ⊢
      omega
    | take =>
      obtain ⟨hstored, hcode⟩ := Option.ite_none_right_eq_some.mp hcode
      cases hcode
      refine hinv.quiet _ ?_ (by rw [hthread])
      simp only [hthread, Thread.refs]
      omega
    | dec =>
      obtain ⟨hheld, hcode⟩ := Option.ite_none_right_eq_some.mp hcode
      cases hcode
      refine hinv.quiet config.shared.stored ?_ (by rw [hthread]; rfl)
      simp only [hthread, Thread.refs] at hheld ⊢
      omega
    | pop =>
      obtain ⟨⟨hlisted, hheld⟩, hcode⟩ := Option.ite_none_right_eq_some.mp hcode
      cases hcode
      refine hinv.update hcounter (by simp only [hthread, Thread.refs]) ?_ hinv.claims
      simp [hthread, hlisted, Pc.isPending]
  | decLoad | clearLoad =>
    cases choice with
    | go =>
      cases hcode
      exact hinv.quiet _ (by simp only [hthread, Thread.refs]) (by rw [hthread]; rfl)
    | _ => cases hcode
  | decCas old =>
    cases choice with
    | go =>
      simp only [code] at hcode
      split at hcode
      · rename_i heq
        subst heq
        cases hcode
        refine hinv.decremented (Nat.lt_of_lt_of_le (Nat.succ_pos held) hrefs) (by rw [hthread]; rfl)
          (by rw [hthread]; rfl) ?_ ?_
        · cases Lfrc.isClaim config.shared.refcnt <;> rfl
        · cases Lfrc.isClaim config.shared.refcnt <;> rfl
      · cases hcode
        exact hinv.quiet _ (by simp only [hthread, Thread.refs]) (by rw [hthread]; rfl)
    | _ => cases hcode
  | push =>
    have hpending : (config.threads thread).pc.isPending = true := by rw [hthread]; rfl
    cases choice with
    | go =>
      cases hcode
      obtain ⟨-, hlisted⟩ := hinv.of_isPending hpending
      refine hinv.update hcounter (by simp only [hthread, Thread.refs]) ?_ hinv.claims
      simp [hthread, hlisted, Pc.isPending]
    | _ => cases hcode
  | clearCas old =>
    have hpending : (config.threads thread).pc.isPending = true := by rw [hthread]; rfl
    cases choice with
    | go =>
      obtain ⟨hclaimed, -⟩ := hinv.of_isPending hpending
      simp only [code] at hcode
      split at hcode
      · rename_i heq
        subst heq
        cases hcode
        refine hinv.record ?_ ?_ ?_ (hinv.claims.cleared hclaimed)
        · rw [references_cleared, claimed_cleared, hcounter, hclaimed]
          rfl
        · simp only [references_cleared, hthread, Thread.refs]
        · rw [claimed_cleared, hclaimed, hthread]
          rfl
      · cases hcode
        exact hinv.quiet _ (by simp only [hthread, Thread.refs]) (by rw [hthread]; rfl)
    | _ => cases hcode

theorem of_reachable (hreach : Reachable code ClaimCounter.start config) : Inv config :=
  ReachableVia.invariant hreach Inv Inv.start fun _ _ _ _ hinv _ hstep => hinv.step hstep

end Inv

variable [DecidableEq Tid]

/-- In every run, the lowest bit of the counter is set from the decrement that returns 1 until it is
cleared. Between two such times one decrement returns 1, and that is the first that leaves none of the
references. -/
theorem claim_unique (hreach : Reachable code start config) :
    (config.shared.refcnt % 2 = 1 ↔ claimed config.shared.log = true) ∧
      references config.shared.log = config.shared.stored + ∑ thread, (config.threads thread).refs ∧
      ClaimedOnce config.shared.log := by
  have hinv := Inv.of_reachable hreach
  refine ⟨?_, hinv.total, hinv.claims.toClaimedOnce⟩
  rw [hinv.counter, ← Bool.toNat_eq_one]
  have hbit := Bool.toNat_le (claimed config.shared.log)
  omega

/-- The second thread has a reference to the node that the first takes from the free list, and gives it up only
when the node has been claimed. The node is then taken again. -/
def twice {n : Nat} (first second : Fin n) : List (Fin n × Choice) :=
  [(first, .add), (first, .pop), (first, .go), (first, .go), (first, .dec), (first, .go), (first, .go),
    (second, .add), (first, .go), (first, .add), (first, .pop), (second, .dec), (second, .go), (second, .go),
    (first, .go), (first, .go)]

theorem claim_unique_twice :
    ∃ config : Config (Fin 2) Shared Thread, Reachable code start config ∧
      config.shared.log = [.added, .cleared, .decremented true, .added, .added, .decremented false, .cleared] ∧
      (config.shared.refcnt % 2 = 1 ↔ claimed config.shared.log = true) ∧
      references config.shared.log = config.shared.stored + ∑ thread, (config.threads thread).refs ∧
      ClaimedOnce config.shared.log := by
  have hrun : ((start : Config (Fin 2) Shared Thread).run code (twice 0 1)).any (fun config =>
      decide (config.shared.log =
        [.added, .cleared, .decremented true, .added, .added, .decremented false, .cleared])) = true := by
    decide +kernel
  obtain ⟨config, hreach, hlog⟩ := exists_reachable_of_run _ _ hrun
  exact ⟨config, hreach, of_decide_eq_true hlog, claim_unique hreach⟩

end Lfmr.ClaimCounter
