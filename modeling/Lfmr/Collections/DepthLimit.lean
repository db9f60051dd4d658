import Mathlib.Data.List.Basic
import Mathlib.Tactic.Common

/-!
# Recursion to a depth

A recursive function whose calls may not end is run with a bound on the depth of its calls. If one call of
it makes finitely many others, the results for all bounds together are a solution of its equation.
-/

namespace Lfmr.Collections

variable {ι β γ δ : Type}

/-- A result of `F` needs only the values of its argument at finitely many places, which all exist. -/
def Finitary (F : (ι → Option β) → Option γ) : Prop :=
  ∀ f c, F f = some c →
    ∃ calls : List ι, (∀ i ∈ calls, ∃ b, f i = some b) ∧ ∀ g, (∀ i ∈ calls, g i = f i) → F g = some c

namespace Finitary

theorem const (o : Option γ) : Finitary fun _ : ι → Option β => o := by
  intro f c hc
  exact ⟨[], by simp, fun _ _ => hc⟩

theorem call (i : ι) : Finitary fun f : ι → Option β => f i := by
  intro f c hc
  exact ⟨[i], by simpa using ⟨c, hc⟩, fun g hg => (hg i (by simp)).trans hc⟩

variable {F : (ι → Option β) → Option γ}

theorem bind {G : γ → (ι → Option β) → Option δ} (hF : Finitary F)
    (hG : ∀ c, Finitary (G c)) : Finitary fun f => F f >>= fun c => G c f := by
  intro f d hd
  obtain ⟨c, hc, hd⟩ := Option.bind_eq_some_iff.mp hd
  obtain ⟨calls, hcalls, hsame⟩ := hF f c hc
  obtain ⟨calls', hcalls', hsame'⟩ := hG c f d hd
  refine ⟨calls ++ calls', ?_, fun g hg => ?_⟩
  · simp only [List.mem_append]
    rintro i (hi | hi)
    · exact hcalls i hi
    · exact hcalls' i hi
  · refine Option.bind_eq_some_iff.mpr ⟨c, hsame g fun i hi => hg i ?_, hsame' g fun i hi => hg i ?_⟩
    · exact List.mem_append_left _ hi
    · exact List.mem_append_right _ hi

theorem map (hF : Finitary F) (h : γ → δ) : Finitary fun f => h <$> F f := by
  have hmap : (fun f => h <$> F f) = fun f => F f >>= fun c => some (h c) := by
    funext f
    cases F f <;> rfl
  rw [hmap]
  exact bind hF fun c => const _

theorem foldlM {body : δ → γ → (ι → Option β) → Option δ} (hbody : ∀ d c, Finitary (body d c)) (l : List γ)
    (d : δ) : Finitary fun f => l.foldlM (fun d c => body d c f) d := by
  induction l generalizing d with
  | nil => exact const _
  | cons c l ih =>
    simp only [List.foldlM_cons]
    exact bind (hbody d c) ih

theorem mapM {body : γ → (ι → Option β) → Option δ} (hbody : ∀ c, Finitary (body c)) (l : List γ) :
    Finitary fun f => l.mapM fun c => body c f := by
  induction l with
  | nil => exact const _
  | cons c l ih =>
    simp only [List.mapM_cons]
    exact bind (hbody c) fun d => bind ih fun ds => const _

theorem ite {G : (ι → Option β) → Option γ} {p : Prop} [Decidable p] (hF : Finitary F) (hG : Finitary G) :
    Finitary fun f => if p then F f else G f := by
  by_cases hp : p
  · simpa only [if_pos hp] using hF
  · simpa only [if_neg hp] using hG

end Finitary

def iterate (step : (ι → Option β) → ι → Option β) : Nat → ι → Option β
  | 0, _ => none
  | depth + 1, i => step (iterate step depth) i

section Limit

variable {step : (ι → Option β) → ι → Option β} {depth depth' : Nat} {i : ι} {b : β}

theorem iterate_succ (hstep : ∀ i, Finitary fun f => step f i) (hb : iterate step depth i = some b) :
    iterate step (depth + 1) i = some b := by
  induction depth generalizing i b with
  | zero => simp [iterate] at hb
  | succ depth ih =>
    obtain ⟨calls, hcalls, hsame⟩ := hstep i (iterate step depth) b hb
    refine hsame _ fun j hj => ?_
    obtain ⟨c, hc⟩ := hcalls j hj
    rw [hc, ih hc]

theorem iterate_mono (hstep : ∀ i, Finitary fun f => step f i) (hle : depth ≤ depth')
    (hb : iterate step depth i = some b) : iterate step depth' i = some b := by
  induction hle with
  | refl => exact hb
  | step _ ih => exact iterate_succ hstep ih

open Classical in
noncomputable def limit (step : (ι → Option β) → ι → Option β) (i : ι) : Option β :=
  if h : ∃ depth b, iterate step depth i = some b then some h.choose_spec.choose else none

theorem limit_eq_some_iff (hstep : ∀ i, Finitary fun f => step f i) :
    limit step i = some b ↔ ∃ depth, iterate step depth i = some b := by
  unfold limit
  split_ifs with h
  · have hchosen := h.choose_spec.choose_spec
    rw [Option.some.injEq]
    constructor
    · rintro rfl
      exact ⟨_, hchosen⟩
    · rintro ⟨depth, hb⟩
      have hfirst := iterate_mono hstep (Nat.le_max_left h.choose depth) hchosen
      have hsecond := iterate_mono hstep (Nat.le_max_right h.choose depth) hb
      exact Option.some.inj (hfirst.symm.trans hsecond)
  · simp only [false_iff]
    rintro ⟨depth, hb⟩
    exact h ⟨depth, b, hb⟩

theorem exists_iterate_eq_limit (hstep : ∀ i, Finitary fun f => step f i) (calls : List ι)
    (hcalls : ∀ i ∈ calls, ∃ b, limit step i = some b) :
    ∃ depth, ∀ i ∈ calls, iterate step depth i = limit step i := by
  induction calls with
  | nil => exact ⟨0, by simp⟩
  | cons i calls ih =>
    obtain ⟨b, hb⟩ := hcalls i (by simp)
    obtain ⟨first, hfirst⟩ := (limit_eq_some_iff hstep).mp hb
    obtain ⟨rest, hrest⟩ := ih fun j hj => hcalls j (by simp [hj])
    refine ⟨max first rest, fun j hj => ?_⟩
    rcases List.mem_cons.mp hj with rfl | hj
    · rw [hb, iterate_mono hstep (Nat.le_max_left first rest) hfirst]
    · obtain ⟨c, hc⟩ := hcalls j (by simp [hj])
      rw [hc, iterate_mono hstep (Nat.le_max_right first rest) ((hrest j hj).trans hc)]

theorem limit_eq (hstep : ∀ i, Finitary fun f => step f i) (i : ι) : limit step i = step (limit step) i := by
  refine Option.ext fun b => ?_
  rw [limit_eq_some_iff hstep]
  constructor
  · rintro ⟨_ | depth, hb⟩
    · simp [iterate] at hb
    · obtain ⟨calls, hcalls, hsame⟩ := hstep i (iterate step depth) b hb
      refine hsame _ fun j hj => ?_
      obtain ⟨c, hc⟩ := hcalls j hj
      rw [hc]
      exact (limit_eq_some_iff hstep).mpr ⟨depth, hc⟩
  · intro hb
    obtain ⟨calls, hcalls, hsame⟩ := hstep i (limit step) b hb
    obtain ⟨depth, hdepth⟩ := exists_iterate_eq_limit hstep calls hcalls
    exact ⟨depth + 1, hsame _ hdepth⟩

end Limit

end Lfmr.Collections
