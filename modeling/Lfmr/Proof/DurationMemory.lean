import Lfmr.Proof.DurationInvariant

/-!
# The memory of the durations

What `new_duration` and `free_duration` do to the books of the allocator, with the pools of the root
`dw.c` and without them.
-/

namespace Lfmr.DurationWindow

open Function Lfmr.Concurrency Lfmr.ClosingOrder

variable {n : Nat} {Heap Op : Type} {variant : Variant} {thread : Fin n}
  {shared shared' : Shared n Heap}

theorem malloc_eq {d new : Addr} {entry : Nat} (hmalloc : malloc d entry shared = some (new, shared')) :
    shared.allocated d = false ∧ new = d ∧ shared' = { shared with
        allocated := update shared.allocated d true
        durations := update shared.durations d { (shared.durations d).reset with entry } } := by
  unfold malloc at hmalloc
  split at hmalloc
  · simp at hmalloc
  · rename_i hfree
    cases hmalloc
    exact ⟨by simpa using hfree, rfl, rfl⟩

theorem newDuration_eq {choice : Choice Op} {new : Addr}
    (hnew : newDuration variant thread shared choice = some (new, shared')) :
    ∃ entry allocated durationPool, shared' = { shared with
        allocated, durationPool
        durations := update shared.durations new { (shared.durations new).reset with entry } } := by
  unfold newDuration at hnew
  split at hnew
  · split at hnew
    · simp at hnew
    · obtain ⟨-, rfl, rfl⟩ := malloc_eq hnew
      exact ⟨_, _, _, rfl⟩
  · split at hnew
    · cases hnew
      exact ⟨_, _, _, rfl⟩
    · simp at hnew
  · simp at hnew

variable {live : List Addr}

theorem Owned.append {new : Addr} (howned : Owned shared live) (hnew : new ∉ live)
    (halloc : shared'.allocated new = true)
    (hkeep : ∀ d, shared.allocated d = true → shared'.allocated d = true)
    (hpool : ∀ other d, d ∈ shared'.durationPool other → d ∈ shared.durationPool other ∧ d ≠ new)
    (hnodup : ∀ other, (shared'.durationPool other).Nodup) : Owned shared' (live ++ [new]) := by
  refine ⟨?_, ?_, ?_, hnodup, ?_⟩
  · rw [List.nodup_append]
    refine ⟨howned.nodup, by simp, ?_⟩
    rintro d hd e he rfl
    rw [List.mem_singleton] at he
    exact hnew (he ▸ hd)
  · intro d hd
    rcases List.mem_append.mp hd with hd | hd
    · exact hkeep d (howned.allocated d hd)
    · simp only [List.mem_singleton] at hd
      exact hd ▸ halloc
  · intro other d hd
    obtain ⟨hd, hne⟩ := hpool other d hd
    obtain ⟨halloc, hnot⟩ := howned.pooled other d hd
    exact ⟨hkeep d halloc, by simpa [hne] using hnot⟩
  · intro first second d hfirst hsecond
    exact howned.pool_disjoint first second d (hpool first d hfirst).1 (hpool second d hsecond).1

theorem Owned.newDuration {choice : Choice Op} {new : Addr} (howned : Owned shared live)
    (hnew : newDuration variant thread shared choice = some (new, shared')) :
    new ∉ live ∧ Owned shared' (live ++ [new]) := by
  unfold DurationWindow.newDuration at hnew
  split at hnew
  · split at hnew
    · simp at hnew
    · obtain ⟨hfree, rfl, rfl⟩ := malloc_eq hnew
      have hfresh : new ∉ live := fun hmem => by simp [howned.allocated new hmem] at hfree
      refine ⟨hfresh, howned.append hfresh (by simp) ?_ ?_ howned.pool_nodup⟩
      · intro d hd
        by_cases heq : d = new <;> simp [heq, hd]
      · intro other d hd
        refine ⟨hd, ?_⟩
        rintro rfl
        simp [(howned.pooled other d hd).1] at hfree
  · split at hnew
    · rename_i d rest hpool
      simp only [Option.some.injEq, Prod.mk.injEq] at hnew
      obtain ⟨rfl, rfl⟩ := hnew
      have hmem : d ∈ shared.durationPool thread := by simp [hpool]
      have hnodup := howned.pool_nodup thread
      rw [hpool, List.nodup_cons] at hnodup
      obtain ⟨halloc, hnot⟩ := howned.pooled thread d hmem
      refine ⟨hnot, howned.append hnot halloc (fun _ he => he) ?_ ?_⟩
      · intro other e he
        by_cases heq : other = thread
        · subst heq
          replace he : e ∈ rest := by simpa [Shared.write] using he
          refine ⟨by simp [hpool, he], ?_⟩
          rintro rfl
          exact hnodup.1 he
        · replace he : e ∈ shared.durationPool other := by simpa [Shared.write, heq] using he
          refine ⟨he, ?_⟩
          rintro rfl
          exact heq (howned.pool_disjoint other thread e he hmem)
      · intro other
        by_cases heq : other = thread
        · simpa [Shared.write, heq] using hnodup.2
        · simpa [Shared.write, heq] using howned.pool_nodup other
    · simp at hnew
  · simp at hnew

theorem freeDuration_eq (variant : Variant) (thread : Fin n) (d : Addr) (shared : Shared n Heap) :
    ∃ allocated durationPool, freeDuration variant thread d shared = { shared with allocated, durationPool } := by
  unfold freeDuration
  cases variant with
  | encore => exact ⟨_, _, rfl⟩
  | root =>
    simp only
    split
    · exact ⟨_, _, rfl⟩
    · exact ⟨_, _, rfl⟩

/-- A duration no longer in use goes on top of what the thread keeps of its pool. -/
theorem Owned.toPool {kept : List Addr} {d : Addr} {allocated : Addr → Bool}
    (howned : Owned shared (d :: live)) (hkept : kept.Sublist (shared.durationPool thread))
    (hallocated : ∀ e, shared.allocated e = true → (e ∈ shared.durationPool thread → e ∈ kept) → allocated e = true) :
    Owned { shared with
      allocated, durationPool := update shared.durationPool thread (d :: kept) } live := by
  obtain ⟨hd, hnodup⟩ := List.nodup_cons.mp howned.nodup
  have hunpooled : ∀ other, d ∉ shared.durationPool other :=
    fun other hmem => (howned.pooled other d hmem).2 List.mem_cons_self
  have hmem : ∀ other e, e ∈ update shared.durationPool thread (d :: kept) other → (e = d ∧ other = thread) ∨
        (e ∈ shared.durationPool other ∧ (e ∈ shared.durationPool thread → e ∈ kept)) := by
    intro other e he
    by_cases heq : other = thread
    · subst heq
      rw [update_self, List.mem_cons] at he
      rcases he with rfl | he
      · exact Or.inl ⟨rfl, rfl⟩
      · exact Or.inr ⟨hkept.subset he, fun _ => he⟩
    · rw [update_of_ne heq] at he
      exact Or.inr ⟨he, fun hother => absurd (howned.pool_disjoint other thread e he hother) heq⟩
  refine ⟨hnodup, ?_, ?_, ?_, ?_⟩
  · intro e he
    refine hallocated e (howned.allocated e (List.mem_cons_of_mem d he)) fun hpool => ?_
    exact absurd (List.mem_cons_of_mem d he) (howned.pooled thread e hpool).2
  · intro other e he
    rcases hmem other e he with ⟨rfl, -⟩ | ⟨hpool, hkeep⟩
    · exact ⟨hallocated e (howned.allocated e List.mem_cons_self) fun hpool => absurd hpool (hunpooled thread), hd⟩
    · obtain ⟨halloc, hnot⟩ := howned.pooled other e hpool
      exact ⟨hallocated e halloc hkeep, fun hlive => hnot (List.mem_cons_of_mem d hlive)⟩
  · intro other
    change (update shared.durationPool thread (d :: kept) other).Nodup
    by_cases heq : other = thread
    · subst heq
      rw [update_self, List.nodup_cons]
      exact ⟨fun hmem => hunpooled other (hkept.subset hmem), hkept.nodup (howned.pool_nodup other)⟩
    · rw [update_of_ne heq]
      exact howned.pool_nodup other
  · intro first second e hfirst hsecond
    rcases hmem first e hfirst with ⟨rfl, rfl⟩ | ⟨hone, -⟩
    · rcases hmem second e hsecond with ⟨-, rfl⟩ | ⟨htwo, -⟩
      · rfl
      · exact absurd htwo (hunpooled second)
    · rcases hmem second e hsecond with ⟨rfl, -⟩ | ⟨htwo, -⟩
      · exact absurd hone (hunpooled first)
      · exact howned.pool_disjoint first second e hone htwo

theorem Owned.freeDuration {d : Addr} (howned : Owned shared (d :: live)) :
    Owned (freeDuration variant thread d shared) live := by
  unfold DurationWindow.freeDuration
  cases variant with
  | encore =>
    obtain ⟨hd, hnodup⟩ := List.nodup_cons.mp howned.nodup
    refine ⟨hnodup, ?_, ?_, howned.pool_nodup, howned.pool_disjoint⟩
    · intro e he
      have hne : e ≠ d := by
        rintro rfl
        exact hd he
      simpa [hne] using howned.allocated e (List.mem_cons_of_mem d he)
    · intro other e he
      obtain ⟨halloc, hnot⟩ := howned.pooled other e he
      rw [List.mem_cons, not_or] at hnot
      exact ⟨by simpa [hnot.1] using halloc, hnot.2⟩
  | root =>
    simp only
    split
    · -- The pool is full: all that it holds goes back to the allocator.
      refine howned.toPool (List.nil_sublist _) fun e halloc hkept => ?_
      simpa [halloc] using hkept
    · exact howned.toPool (List.Sublist.refl _) fun _ halloc _ => halloc

end Lfmr.DurationWindow
