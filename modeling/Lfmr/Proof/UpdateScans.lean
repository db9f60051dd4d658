import Lfmr.EpochScan
import Lfmr.Proof.UpdateOverrun

/-!
# When a scan of `shared_object.c` is up to date

A scan lets a thread pass whose local epoch equals the copy taken before the lock. The epoch that is
advanced is the one at the moment the lock was taken.
-/

namespace Lfmr.EpochReclaim

open Function Lfmr.Concurrency

variable {n : Nat} {Item Heap Op : Type} {scheme : Scheme Item Heap Op} {thread : Fin n}
  {shared shared' : Shared n Item Heap} {pc pc' : Pc n Item} {scan : Scan n}

/-! ### What one access can do -/

structure Placed (thread : Fin n) (shared : Shared n Item Heap) (pc : Pc n Item) : Prop where
  flag : (shared.threads thread).inCritical = pc.flag
  inside : shared.inside thread = pc.isInside

def Continues (shared shared' : Shared n Item Heap) (reader : Fin n) : Prop :=
  ∀ k ≤ shared.entered reader, k ≤ shared'.entered reader ∧ (shared'.StillOpen reader k →
    shared.StillOpen reader k ∧ (shared'.threads reader).localEpoch = (shared.threads reader).localEpoch)

structure Effect (thread : Fin n) (shared shared' : Shared n Item Heap) (pc pc' : Pc n Item) : Prop where
  record : ∀ other, other ≠ thread → shared'.threads other = shared.threads other
  inside : ∀ other, other ≠ thread → shared'.inside other = shared.inside other
  entered : ∀ other, other ≠ thread → shared'.entered other = shared.entered other
  own : Placed thread shared pc → Placed thread shared' pc' ∧ Continues shared shared' thread
  epoch : pc.scanning = false → shared'.globalEpoch = shared.globalEpoch
  lock : (shared'.globalEpochLock = shared.globalEpochLock ∧ pc'.scanning = pc.scanning) ∨
    (shared.globalEpochLock = false ∧ shared'.globalEpochLock = true ∧ pc'.scanning = true) ∨
    (pc.scanning = true ∧ pc'.scanning = false)

theorem Effect.write {threads' : Fin n → PerThread n Item} {heap' : Heap}
    (hothers : ∀ other, other ≠ thread → threads' other = shared.threads other)
    (hflag : (shared.threads thread).inCritical = pc.flag → (threads' thread).inCritical = pc'.flag)
    (hlocal : pc.isInside = true → (threads' thread).localEpoch = (shared.threads thread).localEpoch)
    (hpcs : pc'.isInside = pc.isInside ∧ pc'.scanning = pc.scanning) :
    Effect thread shared { shared with threads := threads', heap := heap' } pc pc' := by
  refine ⟨hothers, fun _ _ => rfl, fun _ _ => rfl,
    fun hplaced => ⟨⟨hflag hplaced.flag, hplaced.inside.trans hpcs.1.symm⟩, fun k hle => ⟨hle, fun hstill => ?_⟩⟩,
    fun _ => rfl, .inl ⟨rfl, hpcs.2⟩⟩
  exact ⟨hstill, hlocal (hplaced.inside.symm.trans hstill.1)⟩

theorem Effect.writeEpoch {epoch : Epoch} {lock : Bool} (hinside : pc'.isInside = pc.isInside)
    (hflag : pc'.flag = pc.flag) (hepoch : pc.scanning = false → epoch = shared.globalEpoch)
    (hlock : (lock = shared.globalEpochLock ∧ pc'.scanning = pc.scanning) ∨
      (shared.globalEpochLock = false ∧ lock = true ∧ pc'.scanning = true) ∨
      (pc.scanning = true ∧ pc'.scanning = false)) :
    Effect thread shared { shared with globalEpoch := epoch, globalEpochLock := lock } pc pc' :=
  ⟨fun _ _ => rfl, fun _ _ => rfl, fun _ _ => rfl,
    fun hplaced => ⟨⟨hplaced.flag.trans hflag.symm, hplaced.inside.trans hinside.symm⟩,
      fun _ hle => ⟨hle, fun hstill => ⟨hstill, rfl⟩⟩⟩,
    hepoch, hlock⟩

theorem Effect.read (hinside : pc'.isInside = pc.isInside) (hscanning : pc'.scanning = pc.scanning)
    (hflag : pc'.flag = pc.flag) : Effect thread shared shared pc pc' :=
  .writeEpoch hinside hflag (fun _ => rfl) (.inl ⟨rfl, hscanning⟩)

/-- The entry function returns: the section that is open now has not been open before. -/
theorem Effect.open {write : PerThread n Item → PerThread n Item} (hflag : pc.flag = true)
    (hscanning : pc.scanning = false)
    (hcritical : (write (shared.threads thread)).inCritical = (shared.threads thread).inCritical) :
    Effect thread shared ((shared.setThread thread write).open thread) pc .inside := by
  refine ⟨fun other hne => setThread_of_ne shared hne write, fun other hne => ?_, fun other hne => ?_,
    fun hplaced => ⟨⟨?_, ?_⟩, fun k hle => ⟨?_, fun hstill => ?_⟩⟩, fun _ => rfl, .inl ⟨rfl, hscanning.symm⟩⟩
  · exact Sections.enter_inside_of_ne hne
  · exact update_of_ne hne ..
  · refine (congrArg PerThread.inCritical (setThread_self shared thread write)).trans ?_
    exact hcritical.trans (hplaced.flag.trans hflag)
  · exact Sections.enter_inside_self
  · exact Nat.le_trans hle (Sections.entered_le_enter shared.toSections thread thread)
  · exact absurd rfl (Sections.StillOpen.of_enter hstill hle).2

variable {choice : Choice Item Op}

attribute [local simp] Pc.flag PerThread.push

theorem call_effect (hcode : call scheme thread shared pc choice = some (shared', pc')) :
    Effect thread shared shared' pc pc' := by
  unfold call at hcode
  split at hcode
  · cases hcode
    exact Effect.read rfl rfl rfl
  · cases hcode
    refine ⟨fun other hne => ?_, fun other hne => ?_, fun other hne => rfl,
      fun _ => ⟨⟨?_, ?_⟩, fun k hle => ⟨hle, fun hstill => ?_⟩⟩, fun _ => rfl, .inl ⟨rfl, rfl⟩⟩
    · simp [Shared.setThread, hne]
    · exact Sections.exit_inside_of_ne hne
    · simp [Shared.setThread]
    · exact Sections.exit_inside_self
    · exact absurd rfl (Sections.StillOpen.of_exit hstill).2
  · cases hcode
    exact Effect.write (fun _ hne => update_of_ne hne ..) (by simp [PerThread.push]) (by simp [PerThread.push]) ⟨rfl, rfl⟩
  · split at hcode <;> cases hcode
    exact Effect.write (fun _ hne => update_of_ne hne ..) (by simp [PerThread.push]) (by simp [PerThread.push]) ⟨rfl, rfl⟩
  · cases hcode
    exact Effect.write (fun _ _ => rfl) id (fun _ => rfl) ⟨rfl, rfl⟩
  · cases hcode

theorem cleanList_effect (hcode : cleanList scheme thread shared pc = some (shared', pc')) :
    Effect thread shared shared' pc pc' := by
  unfold cleanList at hcode
  split at hcode
  · cases hcode
    exact Effect.read rfl rfl rfl
  · cases hcode
    refine Effect.write (fun _ _ => rfl) ?_ (fun _ => rfl) ?_
    · split <;> exact id
    · split <;> exact ⟨rfl, rfl⟩
  · split at hcode
    · cases hcode
      exact Effect.write (fun _ _ => rfl) id (fun _ => rfl) ⟨rfl, rfl⟩
    · cases hcode
      exact Effect.write (fun _ hne => update_of_ne hne ..) (by simp [PerThread.push]) (by simp [PerThread.push])
        ⟨rfl, rfl⟩
  · cases hcode
    exact Effect.write (fun _ hne => update_of_ne hne ..) (by simp) (by simp) ⟨rfl, rfl⟩
  · cases hcode

theorem criticalEnter_effect (hcode : criticalEnter scheme thread shared pc = some (shared', pc')) :
    Effect thread shared shared' pc pc' := by
  cases pc with
  | raiseFlag l | lowerFlag l =>
    cases hcode
    exact Effect.write (fun _ hne => update_of_ne hne ..) (by simp) (by simp) ⟨rfl, rfl⟩
  | readEpoch l =>
    simp only [criticalEnter] at hcode
    split at hcode
    all_goals
      cases hcode
      exact Effect.read rfl rfl rfl
  | publish g =>
    cases hcode
    exact Effect.write (fun _ hne => update_of_ne hne ..) (by simp) (by simp [Pc.isInside]) ⟨rfl, rfl⟩
  | resetEntries =>
    cases hcode
    exact Effect.open rfl rfl rfl
  | countEntry l =>
    simp only [criticalEnter] at hcode
    split at hcode
    · cases hcode
      exact Effect.open rfl rfl rfl
    · cases hcode
      exact Effect.write (fun _ hne => update_of_ne hne ..) (by simp) (by simp) ⟨rfl, rfl⟩
  | resetCount l =>
    simp only [criticalEnter] at hcode
    split at hcode
    all_goals
      cases hcode
      exact Effect.write (fun _ hne => update_of_ne hne ..) (by simp) (by simp) ⟨rfl, rfl⟩
  | _ => cases hcode

theorem updateEpoch_effect (hcode : updateEpoch shared pc = some (shared', pc')) :
    Effect thread shared shared' pc pc' := by
  cases pc with
  | copyEpoch l | advanceRead l =>
    cases hcode
    exact Effect.read rfl rfl rfl
  | tryLock l expected =>
    simp only [updateEpoch] at hcode
    split at hcode
    · cases hcode
      exact Effect.read rfl rfl rfl
    · rename_i hfree
      cases hcode
      exact Effect.writeEpoch rfl rfl (fun _ => rfl) (.inr (.inl ⟨by simpa using hfree, rfl, rfl⟩))
  | scanFlag l expected i =>
    simp only [updateEpoch] at hcode
    repeat' split at hcode
    all_goals
      cases hcode
      exact Effect.read rfl rfl rfl
  | scanLocal l expected i =>
    simp only [updateEpoch] at hcode
    repeat' split at hcode
    all_goals
      cases hcode <;> exact Effect.read rfl rfl rfl
  | scanGlobal l i found =>
    simp only [updateEpoch] at hcode
    split at hcode
    all_goals
      cases hcode
      exact Effect.read rfl rfl rfl
  | advanceWrite l g =>
    cases hcode
    exact Effect.writeEpoch rfl rfl (fun h => by cases h) (.inl ⟨rfl, rfl⟩)
  | unlock l =>
    cases hcode
    exact Effect.writeEpoch rfl rfl (fun h => by cases h) (.inr (.inr ⟨rfl, rfl⟩))
  | _ => cases hcode

theorem code_effect (hcode : code scheme thread choice shared pc = some (shared', pc')) :
    Effect thread shared shared' pc pc' := by
  cases choice with
  | go =>
    simp only [code] at hcode
    split at hcode
    · rename_i henter
      cases hcode
      exact criticalEnter_effect henter
    · split at hcode
      · rename_i hclean
        cases hcode
        exact cleanList_effect hclean
      · exact updateEpoch_effect hcode
  | _ => exact call_effect hcode

structure Scan.Passed (scan : Scan n) (shared : Shared n Item Heap) (i : Nat) : Prop where
  current : shared.globalEpoch = scan.current
  found : ∀ entry ∈ scan.found, entry.2 = scan.copied
  entered : ∀ reader k, scan.opened reader = some k → k ≤ shared.entered reader
  inside : ∀ reader : Fin n, reader < i → ∀ k, scan.opened reader = some k → shared.StillOpen reader k →
    (reader, (shared.threads reader).localEpoch) ∈ scan.found

/-- `update_epoch` of `shared_object.c` compares with a copy. -/
def Scan.Inv (scan : Scan n) (shared : Shared n Item Heap) : Pc n Item → Prop
  | .tryLock _ expected => expected ≠ none
  | .scanFlag _ expected i | .scanLocal _ expected i => expected = some scan.copied ∧ scan.Passed shared i
  | .scanGlobal _ _ _ => False
  | .advanceRead _ => scan.Passed shared n
  | .advanceWrite _ g => g = scan.current ∧ scan.Passed shared n
  | _ => True

theorem Scan.Passed.continue {i : Nat} (hpassed : scan.Passed shared i)
    (hepoch : shared'.globalEpoch = shared.globalEpoch)
    (hcontinues : ∀ reader, Continues shared shared' reader) : scan.Passed shared' i := by
  refine ⟨hepoch.trans hpassed.current, hpassed.found, fun reader k hopened => ?_,
    fun reader hlt k hopened hstill => ?_⟩
  · exact (hcontinues reader k (hpassed.entered reader k hopened)).1
  · obtain ⟨hstill', hlocal⟩ := (hcontinues reader k (hpassed.entered reader k hopened)).2 hstill
    rw [hlocal]
    exact hpassed.inside reader hlt k hopened hstill'

theorem Scan.Inv.continue (hinv : scan.Inv shared pc)
    (hepoch : pc.scanning = true → shared'.globalEpoch = shared.globalEpoch)
    (hcontinues : ∀ reader, Continues shared shared' reader) : scan.Inv shared' pc := by
  cases pc with
  | scanFlag l expected i | scanLocal l expected i | advanceWrite l g =>
    exact ⟨hinv.1, hinv.2.continue (hepoch rfl) hcontinues⟩
  | advanceRead l => exact Scan.Passed.continue hinv (hepoch rfl) hcontinues
  | _ => exact hinv

theorem Scan.passed_zero (shared : Shared n Item Heap) (copied : Epoch) :
    Scan.Passed ⟨copied, shared.globalEpoch, shared.snapshot, []⟩ shared 0 := by
  refine ⟨rfl, by simp, fun reader k hopened => ?_, fun reader hlt => absurd hlt (Nat.not_lt_zero _)⟩
  exact Nat.le_of_eq (Sections.snapshot_eq_some.mp hopened).2.symm

theorem Scan.Passed.skip {i : Nat} (hpassed : scan.Passed shared i)
    (hflag : ∀ h : i < n, (shared.threads ⟨i, h⟩).inCritical = false)
    (hplaced : ∀ reader, shared.inside reader = true → (shared.threads reader).inCritical = true) :
    scan.Passed shared (i + 1) := by
  refine { hpassed with inside := fun reader hlt k hopened hstill => ?_ }
  rcases Nat.lt_or_eq_of_le (Nat.le_of_lt_succ hlt) with hlt | rfl
  · exact hpassed.inside reader hlt k hopened hstill
  · exact absurd (hplaced reader hstill.1) (by rw [hflag reader.2]; simp)

theorem Scan.Passed.find {i : Nat} (h : i < n) (hpassed : scan.Passed shared i)
    (hlocal : (shared.threads ⟨i, h⟩).localEpoch = scan.copied) :
    Scan.Passed { scan with found := scan.found ++ [(⟨i, h⟩, (shared.threads ⟨i, h⟩).localEpoch)] } shared (i + 1) := by
  refine ⟨hpassed.current, fun entry hentry => ?_, hpassed.entered, fun reader hlt k hopened hstill => ?_⟩
  · rcases List.mem_append.mp hentry with hentry | hentry
    · exact hpassed.found entry hentry
    · rw [List.mem_singleton.mp hentry]
      exact hlocal
  · rcases Nat.lt_or_eq_of_le (Nat.le_of_lt_succ hlt) with hlt | rfl
    · exact List.mem_append_left _ (hpassed.inside reader hlt k hopened hstill)
    · exact List.mem_append_right _ (List.mem_singleton_self _)

theorem Scan.Inv.update (hplaced : ∀ reader, shared.inside reader = true → (shared.threads reader).inCritical = true)
    (hinv : scan.Inv shared pc) (hcode : updateEpoch shared pc = some (shared', pc')) :
    (scan.observe shared pc).Inv shared' pc' := by
  cases pc with
  | copyEpoch l =>
    cases hcode
    exact Option.some_ne_none _
  | tryLock l expected =>
    obtain ⟨copied, rfl⟩ := Option.ne_none_iff_exists'.mp hinv
    simp only [updateEpoch] at hcode
    split at hcode
    · cases hcode
      trivial
    · cases hcode
      exact ⟨rfl, (Scan.passed_zero shared copied).continue rfl fun _ _ hle => ⟨hle, fun hstill => ⟨hstill, rfl⟩⟩⟩
  | scanFlag l expected i =>
    obtain ⟨hexpected, hpassed⟩ := hinv
    simp only [updateEpoch] at hcode
    split at hcode
    · rename_i h
      split at hcode
      · cases hcode
        exact ⟨hexpected, hpassed⟩
      · rename_i hflag
        cases hcode
        exact ⟨hexpected, hpassed.skip (fun _ => by simpa using hflag) hplaced⟩
    · rename_i h
      cases hcode
      exact { hpassed with
          inside := fun reader _ => hpassed.inside reader (Nat.lt_of_lt_of_le reader.2 (Nat.le_of_not_lt h)) }
  | scanLocal l expected i =>
    obtain ⟨rfl, hpassed⟩ := hinv
    simp only [updateEpoch] at hcode
    split at hcode
    · rename_i h
      split at hcode
      · cases hcode
        trivial
      · rename_i hlocal
        cases hcode
        rw [Scan.observe, dif_pos h]
        exact ⟨rfl, hpassed.find h (not_not.mp hlocal)⟩
    · cases hcode
  | scanGlobal l i found => exact hinv.elim
  | advanceRead l =>
    cases hcode
    exact ⟨hinv.current, hinv⟩
  | advanceWrite l g | unlock l =>
    cases hcode
    trivial
  | _ => cases hcode

theorem Scan.inv_criticalEnter (hcopies : scheme.copiesEpoch = true)
    (hcode : criticalEnter scheme thread shared pc = some (shared', pc')) : scan.Inv shared' pc' := by
  cases pc with
  | resetCount l =>
    simp only [criticalEnter, hcopies, if_true] at hcode
    cases hcode
    trivial
  | readEpoch l | countEntry l =>
    simp only [criticalEnter] at hcode
    split at hcode <;> cases hcode <;> trivial
  | raiseFlag l | publish g | resetEntries | lowerFlag l =>
    cases hcode
    trivial
  | _ => cases hcode

theorem Scan.inv_cleanList (hcode : cleanList scheme thread shared pc = some (shared', pc')) :
    scan.Inv shared' pc' := by
  unfold cleanList at hcode
  split at hcode
  · cases hcode
    trivial
  · cases hcode
    split <;> trivial
  · split at hcode <;> cases hcode <;> trivial
  · cases hcode
    trivial
  · cases hcode

theorem Scan.inv_call (hcode : call scheme thread shared pc choice = some (shared', pc')) : scan.Inv shared' pc' := by
  unfold call at hcode
  split at hcode
  case h_4 =>
    split at hcode <;> cases hcode
    trivial
  all_goals cases hcode <;> trivial

theorem Scan.Inv.step (hcopies : scheme.copiesEpoch = true)
    (hplaced : ∀ reader, shared.inside reader = true → (shared.threads reader).inCritical = true)
    (hinv : scan.Inv shared pc) (hcode : code scheme thread choice shared pc = some (shared', pc')) :
    (scan.observe shared pc).Inv shared' pc' := by
  cases choice with
  | go =>
    simp only [code] at hcode
    split at hcode
    · rename_i henter
      cases hcode
      exact Scan.inv_criticalEnter hcopies henter
    · split at hcode
      · rename_i hclean
        cases hcode
        exact Scan.inv_cleanList hclean
      · exact hinv.update hplaced hcode
  | _ => exact Scan.inv_call hcode

structure ScansInv (config : Config (Fin n) (Shared n Item Heap) (Pc n Item × Scan n)) : Prop where
  placed : ∀ thread, Placed thread config.shared (config.threads thread).1
  locked : ∀ thread, (config.threads thread).1.scanning = true → config.shared.globalEpochLock = true
  alone : ∀ thread other, (config.threads thread).1.scanning = true →
    (config.threads other).1.scanning = true → thread = other
  scan : ∀ thread, (config.threads thread).2.Inv config.shared (config.threads thread).1

theorem Pc.flag_of_isInside (hinside : pc.isInside = true) : pc.flag = true := by
  cases pc with
  | inside => rfl
  | _ => cases hinside

namespace ScansInv

variable {config next : Config (Fin n) (Shared n Item Heap) (Pc n Item × Scan n)}

theorem inCritical (hinv : ScansInv config) {reader : Fin n} (hinside : config.shared.inside reader = true) :
    (config.shared.threads reader).inCritical = true := by
  have hplaced := hinv.placed reader
  rw [hplaced.flag]
  exact Pc.flag_of_isInside (hplaced.inside.symm.trans hinside)

theorem init (heap : Heap) : ScansInv (observedInit heap : Config (Fin n) (Shared n Item Heap) (Pc n Item × Scan n)) :=
  ⟨fun _ => ⟨rfl, rfl⟩, fun _ h => (by cases h), fun _ _ h => (by cases h), fun _ => trivial⟩

theorem step {choice : Choice Item Op} (hcopies : scheme.copiesEpoch = true) (hinv : ScansInv config)
    (hstep : config.step (observed scheme) thread choice = some next) : ScansInv next := by
  obtain ⟨priv, hobserved, hthreads⟩ := Config.step_eq_some_iff.mp hstep
  obtain ⟨⟨shared', pc'⟩, hcode, hresult⟩ := Option.map_eq_some_iff.mp hobserved
  obtain ⟨hshared, rfl⟩ := Prod.mk.inj hresult
  obtain ⟨shared, threads⟩ := next
  obtain rfl : shared' = shared := hshared
  obtain rfl : threads = _ := hthreads
  have heffect := code_effect hcode
  obtain ⟨hplaced, hcontinues⟩ := heffect.own (hinv.placed thread)
  have hall : ∀ reader, Continues config.shared shared' reader := by
    intro reader k hle
    by_cases heq : reader = thread
    · subst heq
      exact hcontinues k hle
    · simp only [Sections.StillOpen, heffect.inside reader heq, heffect.entered reader heq, heffect.record reader heq]
      exact ⟨hle, fun hstill => ⟨hstill, trivial⟩⟩
  -- While another thread scans, this one does not, and does not take the lock either.
  have hother : ∀ other, other ≠ thread → (config.threads other).1.scanning = true →
      (config.threads thread).1.scanning = false ∧ pc'.scanning = false ∧ shared'.globalEpochLock = true := by
    intro other hne hscanning
    have hlock := hinv.locked other hscanning
    have hidle : (config.threads thread).1.scanning = false :=
      Bool.eq_false_iff.mpr fun h => hne (hinv.alone other thread hscanning h)
    rcases heffect.lock with ⟨hsame, hpc⟩ | ⟨hfree, -⟩ | ⟨hholds, -⟩
    · exact ⟨hidle, hpc.trans hidle, hsame.trans hlock⟩
    · exact absurd (hfree.symm.trans hlock) (by simp)
    · exact absurd (hidle.symm.trans hholds) (by simp)
  have hown : pc'.scanning = true → shared'.globalEpochLock = true := by
    intro hscanning
    rcases heffect.lock with ⟨hsame, hpc⟩ | ⟨-, htaken, -⟩ | ⟨-, hidle⟩
    · exact hsame.trans (hinv.locked thread (hpc.symm.trans hscanning))
    · exact htaken
    · exact absurd (hidle.symm.trans hscanning) (by simp)
  refine ⟨fun other => ?_, fun other hscanning => ?_, fun one other hone hanother => ?_, fun other => ?_⟩
  · by_cases heq : other = thread
    · subst heq
      simpa using hplaced
    · dsimp only
      rw [update_of_ne heq]
      exact ⟨by rw [heffect.record other heq]; exact (hinv.placed other).flag,
        (heffect.inside other heq).trans (hinv.placed other).inside⟩
  · by_cases heq : other = thread
    · subst heq
      exact hown (by simpa using hscanning)
    · dsimp only at hscanning ⊢
      rw [update_of_ne heq] at hscanning
      exact (hother other heq hscanning).2.2
  · dsimp only at hone hanother
    by_cases heq : one = thread
    · by_cases heq' : other = thread
      · exact heq.trans heq'.symm
      · rw [update_of_ne heq'] at hanother
        rw [heq, update_self] at hone
        exact absurd ((hother other heq' hanother).2.1.symm.trans hone) (by simp)
    · rw [update_of_ne heq] at hone
      by_cases heq' : other = thread
      · rw [heq', update_self] at hanother
        exact absurd ((hother one heq hone).2.1.symm.trans hanother) (by simp)
      · rw [update_of_ne heq'] at hanother
        exact hinv.alone one other hone hanother
  · by_cases heq : other = thread
    · subst heq
      simpa using (hinv.scan other).step hcopies (fun _ => hinv.inCritical) hcode
    · dsimp only
      rw [update_of_ne heq]
      exact (hinv.scan other).continue (fun hscanning => heffect.epoch (hother other heq hscanning).1) hall

theorem of_reachable {heap : Heap} (hcopies : scheme.copiesEpoch = true)
    (hreach : Reachable (observed scheme) (observedInit heap) config) : ScansInv config :=
  ReachableVia.invariant hreach ScansInv (init heap) fun _ _ _ _ hinv _ hstep => hinv.step hcopies hstep

end ScansInv

theorem Scan.Passed.agrees_iff (hpassed : scan.Passed shared n) :
    scan.Agrees shared scan.current ↔ scan.copied = scan.current ∨ scan.found = [] := by
  constructor
  · intro hagrees
    by_cases hnil : scan.found = []
    · exact .inr hnil
    · obtain ⟨entry, hmem⟩ := List.exists_mem_of_ne_nil _ hnil
      exact .inl ((hpassed.found entry hmem).symm.trans (hagrees.found entry hmem))
  · rintro (hcopied | hnil)
    · refine ⟨fun entry hentry => (hpassed.found entry hentry).trans hcopied, fun reader k hopened hstill => ?_⟩
      exact (hpassed.found _ (hpassed.inside reader reader.2 k hopened hstill)).trans hcopied
    · refine ⟨by simp [hnil], fun reader k hopened hstill => ?_⟩
      have hmem := hpassed.inside reader reader.2 k hopened hstill
      simp [hnil] at hmem

/-- In every run of `shared_object.c`, when `update_epoch` is about to store the epoch after `g`: that is
the global epoch, and the scan has found it to be the local epoch of all threads in a critical section if
and only if the copy it compared with was the global epoch when the lock was taken, or it has found no
such thread. -/
theorem sharedObject_scan_iff {objects : Objects}
    {config : Config (Fin n) (Shared n Nat Objects) (Pc n Nat × Scan n)}
    (hreach : Reachable (observed sharedObject) (observedInit objects) config) {l g : Epoch}
    (hstore : (config.threads thread).1 = .advanceWrite l g) :
    config.shared.globalEpoch = g ∧ ((config.threads thread).2.Agrees config.shared g ↔
      (config.threads thread).2.copied = (config.threads thread).2.current ∨
        (config.threads thread).2.found = []) := by
  have hscan := (ScansInv.of_reachable rfl hreach).scan thread
  rw [hstore] at hscan
  obtain ⟨rfl, hpassed⟩ := hscan
  exact ⟨hpassed.current, hpassed.agrees_iff⟩

def storesAfter (thread reader : Fin n) (config : Config (Fin n) (Shared n Item Heap) (Pc n Item × Scan n)) :
    Bool :=
  match (config.threads thread).1 with
  | .advanceWrite _ g => (config.threads thread).2.found == [(reader, g)]
  | _ => false

/-- The updater moves the epoch on from 1 while the reader is inside. -/
theorem sharedObject_scan_iff_inside :
    ∃ config : Config (Fin 2) (Shared 2 Nat Objects) (Pc 2 Nat × Scan 2),
      storesAfter 1 0 config = true ∧
      ∃ l g, (config.threads 1).1 = .advanceWrite l g ∧ config.shared.globalEpoch = g ∧
        ((config.threads 1).2.Agrees config.shared g ↔
          (config.threads 1).2.copied = (config.threads 1).2.current ∨ (config.threads 1).2.found = []) := by
  have hrun : ((observedInit plainObjects).run (observed sharedObject)
      (enterNew (n := 2) 0 ++ enterNew 1 ++ [(1, .exit)] ++ wearOut 1 ++ (1, .enter) :: go 1 (6 + 6))).any
        (storesAfter 1 0) = true := by
    decide +kernel
  obtain ⟨config, hreach, hstores⟩ := exists_reachable_of_run _ _ hrun
  refine ⟨config, hstores, ?_⟩
  unfold storesAfter at hstores
  split at hstores
  · next l g hstore => exact ⟨l, g, hstore, sharedObject_scan_iff hreach hstore⟩
  · cases hstores

/-- Three threads. One copies the global epoch 1 and stops before the lock, the reader begins a call in
epoch 1, and the updater moves the epoch to 2. Then the first takes the lock and compares. -/
def outdatedCopy (reader updater late : Fin n) : List (Fin n × Choice Nat (Objects → Objects)) :=
  enterNew late ++ [(late, .exit)] ++ wearOut late ++ (late, .enter) :: go late 6 ++
  enterNew reader ++
  enterNew updater ++ [(updater, .exit)] ++ wearOut updater ++ (updater, .enter) :: go updater (6 + 9) ++
  go late 7

def storesBeyond (thread reader : Fin n) (config : Config (Fin n) (Shared n Item Heap) (Pc n Item × Scan n)) :
    Bool :=
  match (config.threads thread).1 with
  | .advanceWrite _ g =>
      (config.shared.threads reader).localEpoch + 2 == g + 1 && (config.threads thread).2.opened reader == some 1 &&
        config.shared.inside reader && config.shared.entered reader == 1 &&
        (config.threads thread).2.found == [(reader, g - 1)]
  | _ => false

theorem sharedObject_outdatedCopy :
    ∃ config, Reachable (observed (n := 3) sharedObject) (observedInit plainObjects) config ∧
      storesBeyond 2 0 config = true ∧
      ∃ l g, (config.threads 2).1 = .advanceWrite l g ∧ ¬ (config.threads 2).2.Agrees config.shared g := by
  have hrun : ((observedInit plainObjects).run (observed sharedObject) (outdatedCopy (n := 3) 0 1 2)).any
      (storesBeyond 2 0) = true := by
    decide +kernel
  obtain ⟨config, hreach, hbeyond⟩ := exists_reachable_of_run _ _ hrun
  refine ⟨config, hreach, hbeyond, ?_⟩
  unfold storesBeyond at hbeyond
  split at hbeyond
  · rename_i l g hstore
    refine ⟨l, g, hstore, fun hagrees => ?_⟩
    simp only [Bool.and_eq_true, beq_iff_eq] at hbeyond
    have hne : ∀ epoch : Epoch, epoch - 1 ≠ epoch := by decide
    exact hne g (hagrees.found (0, g - 1) (by simp [hbeyond.2]))
  · cases hbeyond

end Lfmr.EpochReclaim
