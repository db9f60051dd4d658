import Lfmr.EpochClock
import Lfmr.EpochReclaim

/-!
# When the three-epoch schemes keep the grace period

The counters of the code are remainders modulo three. A clock whose epochs are numbered follows each run, and the
run obeys the clock's rule if the scan does not take the old local epoch of a thread that has read a newer one for
the current one, the copy `update_epoch` compares with is not out of date when the lock is taken, and `clean_list`
registers nothing under an old local epoch other than the one just before the current.
-/

namespace Lfmr.EpochReclaim

open Lfmr.Concurrency Lfmr.EpochClock

variable {n : Nat} {Item Heap Op : Type} {scheme : Scheme Item Heap Op}

/-- The accesses of a run that keeps the grace period. `update_epoch` does not read the local epoch of a
thread that has read a new global epoch and not yet stored it when the old one equals the current one, nor
does it take the lock with an outdated copy. What the release of an object registers goes to the list of the
epoch before, and a function that anybody can call is called in a critical section. -/
def Regular (scheme : Scheme Item Heap Op)
    (config : Config (Fin n) (Shared n Item Heap) (Pc n Item)) (thread : Fin n)
    (choice : Choice Item Op) : Prop :=
  match config.threads thread with
  | .outside => scheme.retiresOutside = true → choice.isRetire = false
  | .scanLocal _ _ i => ∀ h : i < n, (config.threads ⟨i, h⟩).unpublished ≠ none →
      (config.shared.threads ⟨i, h⟩).localEpoch ≠ config.shared.globalEpoch
  | .tryLock _ (some expected) => scheme.copiesEpoch = true → expected = config.shared.globalEpoch
  | .cleanRelease _ _ item _ => (scheme.release config.shared.heap item).2 ≠ none →
      (config.shared.threads thread).localEpoch + 1 = config.shared.globalEpoch
  | _ => True

instance (scheme : Scheme Item Heap Op) (config : Config (Fin n) (Shared n Item Heap) (Pc n Item))
    (thread : Fin n) (choice : Choice Item Op) : Decidable (Regular scheme config thread choice) := by
  unfold Regular
  split <;> infer_instance

/-! ### What a program point says about the record and the clock -/

def Pc.flag : Pc n Item → Bool
  | .outside | .raiseFlag _ | .resetCount _ | .copyEpoch _ | .tryLock _ _ | .scanFlag _ _ _
  | .scanLocal _ _ _ | .scanGlobal _ _ _ | .advanceRead _ | .advanceWrite _ _ | .unlock _ => false
  | _ => true

def Pc.active : Pc n Item → Bool
  | .readEpoch _ => false
  | pc => pc.flag

def Pc.isInside : Pc n Item → Bool
  | .inside => true
  | _ => false

def Pc.scanning : Pc n Item → Bool
  | .scanFlag _ _ _ | .scanLocal _ _ _ | .scanGlobal _ _ _ | .advanceRead _ | .advanceWrite _ _
  | .unlock _ => true
  | _ => false

def Pc.localVar : Pc n Item → Option Epoch
  | .outside | .inside | .publish _ | .resetEntries => none
  | .raiseFlag l | .readEpoch l | .cleanStart l _ | .clean l _ _ | .cleanRelease l _ _ _
  | .countEntry l | .lowerFlag l | .resetCount l | .copyEpoch l | .tryLock l _ | .scanFlag l _ _
  | .scanLocal l _ _ | .scanGlobal l _ _ | .advanceRead l | .advanceWrite l _ | .unlock l => some l

def Pc.draining : Pc n Item → List (Deferred n Item)
  | .clean _ _ cur | .cleanRelease _ _ _ cur => cur
  | _ => []

/-- What the scan has established: the threads before `i` are cleared, and the epoch it compares with
is the current one. -/
def ScanInv (scheme : Scheme Item Heap Op) (shared : Shared n Item Heap) (clock : Clock (Fin n)) :
    Pc n Item → Prop
  | .copyEpoch _ | .tryLock _ (some _) => scheme.copiesEpoch = true
  | .scanFlag _ expected i | .scanLocal _ expected i =>
      (∀ other : Fin n, other < i → clock.cleared other) ∧
        ∀ g, expected = some g → g = shared.globalEpoch
  | .scanGlobal _ i found =>
      (∀ other : Fin n, other < i → clock.cleared other) ∧
        ∀ other : Fin n, other = i → found = shared.globalEpoch → clock.active other →
          clock.reading other = clock.now
  | .advanceRead _ => ∀ other, clock.cleared other
  | .advanceWrite _ g => (∀ other, clock.cleared other) ∧ g = shared.globalEpoch
  | _ => True

/-- An entry that was put aside in epoch `label`: the sections open then had read an epoch of at most
`label + 1`. -/
def Bound (shared : Shared n Item Heap) (clock : Clock (Fin n)) (label : Nat)
    (entry : Deferred n Item) : Prop :=
  ∀ reader k, entry.openWhen reader = some k →
    k ≤ shared.entered reader ∧ (shared.StillOpen reader k → clock.reading reader ≤ label + 1)

structure ThreadInv (scheme : Scheme Item Heap Op) (thread : Fin n) (shared : Shared n Item Heap)
    (clock : Clock (Fin n)) (pc : Pc n Item) : Prop where
  flag : (shared.threads thread).inCritical = pc.flag
  active : clock.active thread ↔ pc.active = true
  inside : shared.inside thread = pc.isInside
  scanner : clock.scanner = some thread ↔ pc.scanning = true
  localVar : ∀ l, pc.localVar = some l → (shared.threads thread).localEpoch = l
  published : pc.unpublished = none →
    ((shared.threads thread).localEpoch : Nat) = clock.reading thread % 3
  unpublished : ∀ g, pc.unpublished = some g →
    (g : Nat) = clock.reading thread % 3 ∧ (shared.threads thread).localEpoch ≠ g
  scan : ScanInv scheme shared clock pc
  placed : ∀ k entry, entry ∈ (shared.threads thread).limboList k → pc.unpublished ≠ some k →
    ∃ label, label ≤ clock.reading thread ∧ label % 3 = k ∧ Bound shared clock label entry
  old : ∀ g entry, pc.unpublished = some g →
    entry ∈ (shared.threads thread).limboList g ∨ entry ∈ pc.draining →
    ∃ label, label + 3 ≤ clock.reading thread ∧ label % 3 = g ∧ Bound shared clock label entry

structure GlobalInv (shared : Shared n Item Heap) (clock : Clock (Fin n)) : Prop where
  valid : clock.Valid
  epoch : (shared.globalEpoch : Nat) = clock.now % 3
  lock : shared.globalEpochLock = clock.scanner.isSome
  inside : ∀ thread, shared.inside thread = true → clock.active thread

def Later (before after : Shared n Item Heap × Clock (Fin n)) : Prop :=
  ∀ reader k, k ≤ before.1.entered reader → k ≤ after.1.entered reader ∧
    (after.1.StillOpen reader k →
      before.1.StillOpen reader k ∧ after.2.reading reader = before.2.reading reader)

/-- What the accesses of other threads leave alone. While a thread holds the lock, the epoch stands
still, and a thread that becomes active has read it. -/
structure Rely (other : Fin n) (before after : Shared n Item Heap × Clock (Fin n)) : Prop where
  later : Later before after
  record : after.1.threads other = before.1.threads other
  inside : after.1.inside other = before.1.inside other
  reading : after.2.reading other = before.2.reading other
  active : after.2.active other ↔ before.2.active other
  scanner : after.2.scanner = some other ↔ before.2.scanner = some other
  locked : before.2.scanner = some other →
    after.2.now = before.2.now ∧ after.1.globalEpoch = before.1.globalEpoch ∧
      after.2.cleared = before.2.cleared ∧
      ∀ thread, after.2.active thread →
        after.2.reading thread = after.2.now ∨
          before.2.active thread ∧ after.2.reading thread = before.2.reading thread

variable {before after : Shared n Item Heap × Clock (Fin n)} {other : Fin n}
  {config : Config (Fin n) (Shared n Item Heap) (Pc n Item)} {choice : Choice Item Op}

theorem Bound.later {label : Nat} {entry : Deferred n Item} (hlater : Later before after)
    (hbound : Bound before.1 before.2 label entry) : Bound after.1 after.2 label entry := by
  intro reader k hopen
  obtain ⟨hle, hread⟩ := hbound reader k hopen
  obtain ⟨hle', hkeep⟩ := hlater reader k hle
  refine ⟨hle', fun hstill => ?_⟩
  obtain ⟨hstill', hsame⟩ := hkeep hstill
  rw [hsame]
  exact hread hstill'

theorem ScanInv.rely {pc : Pc n Item} (hscanner : pc.scanning = true → before.2.scanner = some other)
    (hrely : Rely other before after) (hscan : ScanInv scheme before.1 before.2 pc) :
    ScanInv scheme after.1 after.2 pc := by
  cases pc with
  | scanFlag l expected i | scanLocal l expected i | advanceWrite l g =>
    obtain ⟨-, hglobal, hcleared, -⟩ := hrely.locked (hscanner rfl)
    simpa only [ScanInv, hglobal, hcleared] using hscan
  | scanGlobal l i found =>
    obtain ⟨hnow, hglobal, hcleared, hactive⟩ := hrely.locked (hscanner rfl)
    refine ⟨by simpa only [hcleared] using hscan.1, fun thread hi hfound hafter => ?_⟩
    rcases hactive thread hafter with hread | ⟨hbefore, hsame⟩
    · exact hread
    · rw [hsame, hnow]
      exact hscan.2 thread hi (hfound.trans hglobal) hbefore
  | advanceRead l =>
    obtain ⟨-, -, hcleared, -⟩ := hrely.locked (hscanner rfl)
    simpa only [ScanInv, hcleared] using hscan
  | tryLock l expected => cases expected <;> exact hscan
  | _ => exact hscan

theorem ThreadInv.rely {pc : Pc n Item} (hinv : ThreadInv scheme other before.1 before.2 pc)
    (hrely : Rely other before after) : ThreadInv scheme other after.1 after.2 pc := by
  constructor
  · rw [hrely.record]; exact hinv.flag
  · rw [hrely.active]; exact hinv.active
  · rw [hrely.inside]; exact hinv.inside
  · rw [hrely.scanner]; exact hinv.scanner
  · rw [hrely.record]; exact hinv.localVar
  · rw [hrely.record, hrely.reading]; exact hinv.published
  · rw [hrely.record, hrely.reading]; exact hinv.unpublished
  · exact hinv.scan.rely hinv.scanner.mpr hrely
  · rw [hrely.record, hrely.reading]
    intro k entry hmem hne
    obtain ⟨label, hle, hmod, hbound⟩ := hinv.placed k entry hmem hne
    exact ⟨label, hle, hmod, hbound.later hrely.later⟩
  · rw [hrely.record, hrely.reading]
    intro g entry hg hmem
    obtain ⟨label, hle, hmod, hbound⟩ := hinv.old g entry hg hmem
    exact ⟨label, hle, hmod, hbound.later hrely.later⟩

attribute [local simp] Shared.setThread

@[simp]
theorem setThread_self (shared : Shared n Item Heap) (thread : Fin n) (write : PerThread n Item → PerThread n Item) :
    (shared.setThread thread write).threads thread = write (shared.threads thread) := by
  simp

theorem setThread_of_ne (shared : Shared n Item Heap) {thread : Fin n} (hne : other ≠ thread)
    (write : PerThread n Item → PerThread n Item) :
    (shared.setThread thread write).threads other = shared.threads other := by
  simp [hne]

theorem later_of_eq (hinside : after.1.inside = before.1.inside) (hentered : after.1.entered = before.1.entered)
    (hreading : after.2.reading = before.2.reading) : Later before after := by
  intro reader k hle
  rw [hentered, hreading]
  refine ⟨hle, fun hstill => ⟨?_, rfl⟩⟩
  simpa only [Sections.StillOpen, hinside, hentered] using hstill

abbrev Keeps (scheme : Scheme Item Heap Op) (thread : Fin n) :=
  Concurrency.Keeps GlobalInv (ThreadInv scheme) Rely thread

variable {thread : Fin n} {shared shared' : Shared n Item Heap} {clock clock' : Clock (Fin n)}
  {pc pc' : Pc n Item}

theorem Keeps.quiet {threads' : Fin n → PerThread n Item} {heap' : Heap} (hglobal : GlobalInv shared clock)
    (hthread : ThreadInv scheme thread { shared with threads := threads', heap := heap' } clock pc')
    (hothers : ∀ other, other ≠ thread → threads' other = shared.threads other) :
    Keeps scheme thread shared clock { shared with threads := threads', heap := heap' } pc' := by
  refine ⟨clock, { hglobal with }, hthread, fun other hne => ?_⟩
  exact ⟨later_of_eq rfl rfl rfl, hothers other hne, rfl, rfl, Iff.rfl, Iff.rfl,
    fun _ => ⟨rfl, rfl, rfl, fun _ hactive => Or.inr ⟨hactive, rfl⟩⟩⟩

theorem ThreadInv.settled (hinv : ThreadInv scheme thread shared clock pc)
    (hpc : pc.unpublished = none) (hpc' : pc'.unpublished = none)
    (hlater : Later (shared, clock) (shared', clock'))
    (hlimbo : (shared'.threads thread).limboList = (shared.threads thread).limboList)
    (hlocal : (shared'.threads thread).localEpoch = (shared.threads thread).localEpoch)
    (hreading : clock'.reading thread = clock.reading thread)
    (hflag : (shared'.threads thread).inCritical = pc'.flag)
    (hactive : clock'.active thread ↔ pc'.active = true)
    (hinside : shared'.inside thread = pc'.isInside)
    (hscanner : clock'.scanner = some thread ↔ pc'.scanning = true)
    (hvar : ∀ l, pc'.localVar = some l → (shared'.threads thread).localEpoch = l)
    (hscan : ScanInv scheme shared' clock' pc') : ThreadInv scheme thread shared' clock' pc' := by
  refine ⟨hflag, hactive, hinside, hscanner, hvar, ?_, ?_, hscan, ?_, ?_⟩
  · intro _
    rw [hlocal, hreading]
    exact hinv.published hpc
  · intro g hg
    simp [hpc'] at hg
  · intro k entry hmem _
    rw [hlimbo] at hmem
    obtain ⟨label, hle, hmod, hbound⟩ := hinv.placed k entry hmem (by simp [hpc])
    exact ⟨label, by rwa [hreading], hmod, hbound.later hlater⟩
  · intro g entry hg
    simp [hpc'] at hg

structure SamePlace (pc pc' : Pc n Item) : Prop where
  before : pc.unpublished = none
  after : pc'.unpublished = none
  flag : pc'.flag = pc.flag
  active : pc'.active = pc.active
  inside : pc'.isInside = pc.isInside
  localVar : pc'.localVar = pc.localVar

theorem keeps_write (write : PerThread n Item → PerThread n Item) (hglobal : GlobalInv shared clock)
    (hinv : ThreadInv scheme thread shared clock pc)
    (hscan : ScanInv scheme (shared.setThread thread write) clock pc') (hplace : SamePlace pc pc')
    (hscanning : pc'.scanning = pc.scanning)
    (hrecord : ∀ record, (write record).limboList = record.limboList ∧
      (write record).localEpoch = record.localEpoch ∧ (write record).inCritical = record.inCritical) :
    Keeps scheme thread shared clock (shared.setThread thread write) pc' := by
  have hself := setThread_self shared thread write
  obtain ⟨hlimbo, hlocal, hcritical⟩ := hrecord (shared.threads thread)
  suffices hthread : ThreadInv scheme thread (shared.setThread thread write) clock pc' from
    Keeps.quiet hglobal hthread fun _ hne => setThread_of_ne shared hne write
  refine hinv.settled hplace.before hplace.after (later_of_eq rfl rfl rfl) (by rw [hself, hlimbo])
    (by rw [hself, hlocal]) rfl ?_ ?_ ?_ ?_ ?_ hscan
  · rw [hself, hcritical, hplace.flag]; exact hinv.flag
  · rw [hplace.active]; exact hinv.active
  · rw [hplace.inside]; exact hinv.inside
  · rw [hscanning]; exact hinv.scanner
  · rw [hself, hlocal, hplace.localVar]; exact hinv.localVar

theorem keeps_stay (hglobal : GlobalInv shared clock) (hinv : ThreadInv scheme thread shared clock pc)
    (hscan : ScanInv scheme shared clock pc') (hplace : SamePlace pc pc')
    (hscanning : pc'.scanning = pc.scanning) : Keeps scheme thread shared clock shared pc' := by
  have hsame : shared.setThread thread id = shared := by simp
  have hkeeps := keeps_write id hglobal hinv (by rwa [hsame]) hplace hscanning fun _ => ⟨rfl, rfl, rfl⟩
  rwa [hsame] at hkeeps

attribute [local simp] Pc.localVar Pc.flag

theorem keeps_raiseFlag {l : Epoch} (hglobal : GlobalInv shared clock)
    (hinv : ThreadInv scheme thread shared clock (.raiseFlag l)) :
    Keeps scheme thread shared clock
      (shared.setThread thread fun record => { record with inCritical := true }) (.readEpoch l) := by
  refine Keeps.quiet hglobal ?_ fun _ hne => Function.update_of_ne hne ..
  exact hinv.settled rfl rfl (later_of_eq rfl rfl rfl) (by simp) (by simp) rfl (by simp)
    (by simpa [Pc.active] using hinv.active) hinv.inside
    (by simpa [Pc.scanning] using hinv.scanner) (by simpa using hinv.localVar) trivial

attribute [local simp] Clock.read

/-- What remains the same when a thread reads the global epoch: it is not inside a critical section,
so no open section changes. -/
theorem later_read (houtside : shared.inside thread = false) : Later (shared, clock) (shared, clock.read thread) := by
  intro reader k hle
  refine ⟨hle, fun hstill => ⟨hstill, ?_⟩⟩
  have hne : reader ≠ thread := by
    rintro rfl
    exact absurd (hstill.1 : shared.inside reader = true) (by simp [houtside])
  simp [hne]

theorem GlobalInv.read (hglobal : GlobalInv shared clock) (thread : Fin n) : GlobalInv shared (clock.read thread) := by
  refine ⟨hglobal.valid.read thread, hglobal.epoch, hglobal.lock, fun other hother => ?_⟩
  by_cases heq : other = thread
  · subst heq
    simp
  · simpa [heq] using hglobal.inside other hother

theorem rely_read (hne : other ≠ thread) (houtside : shared.inside thread = false) :
    Rely other (shared, clock) (shared, clock.read thread) := by
  refine ⟨later_read houtside, rfl, rfl, ?_, ?_, Iff.rfl, fun _ => ⟨rfl, rfl, rfl, ?_⟩⟩
  · simp [hne]
  · simp [hne]
  · intro reader hactive
    by_cases heq : reader = thread
    · exact Or.inl (by simp [heq])
    · exact Or.inr ⟨by simpa [heq] using hactive, by simp [heq]⟩

section

variable {l : Epoch} (hglobal : GlobalInv shared clock) (hinv : ThreadInv scheme thread shared clock (.readEpoch l))
include hglobal hinv

theorem keeps_readEpoch_same (hsame : l = shared.globalEpoch) :
    Keeps scheme thread shared clock shared (.countEntry l) := by
  refine ⟨clock.read thread, hglobal.read thread, ?_, fun other hne => rely_read hne hinv.inside⟩
  have hreading : (clock.read thread).reading thread = clock.now := by simp
  refine ⟨hinv.flag, by simp [Pc.active], hinv.inside, hinv.scanner,
    hinv.localVar, ?_, ?_, trivial, ?_, ?_⟩
  · intro _
    rw [hreading, hinv.localVar l rfl, hsame]
    exact hglobal.epoch
  · intro g hg
    cases hg
  · intro k entry hmem _
    obtain ⟨label, hle, hmod, hbound⟩ := hinv.placed k entry hmem (by simp [Pc.unpublished])
    exact ⟨label, hreading ▸ Nat.le_trans hle (hglobal.valid.reading_le thread), hmod, hbound.later (later_read hinv.inside)⟩
  · intro g entry hg
    cases hg

/-- A thread that reads a new epoch `g` finds on the list of `g` only entries of an earlier epoch with
the same remainder: an entry of the thread's last epoch would be on another list. -/
theorem keeps_readEpoch_new (hnew : l ≠ shared.globalEpoch) :
    Keeps scheme thread shared clock shared (.cleanStart l shared.globalEpoch) := by
  refine ⟨clock.read thread, hglobal.read thread, ?_, fun other hne => rely_read hne hinv.inside⟩
  have hreading : (clock.read thread).reading thread = clock.now := by simp
  have hle := hglobal.valid.reading_le thread
  have hlocal := hinv.localVar l rfl
  have hpublished := hinv.published rfl
  rw [hlocal] at hpublished
  refine ⟨hinv.flag, by simp [Pc.active], hinv.inside, hinv.scanner,
    hinv.localVar, ?_, ?_, trivial, ?_, ?_⟩
  · intro hg
    cases hg
  · intro g hg
    obtain rfl : shared.globalEpoch = g := by simpa [Pc.unpublished] using hg
    rw [hreading, hlocal]
    exact ⟨hglobal.epoch, hnew⟩
  · intro k entry hmem _
    obtain ⟨label, hlabel, hmod, hbound⟩ := hinv.placed k entry hmem (by simp [Pc.unpublished])
    exact ⟨label, hreading ▸ Nat.le_trans hlabel hle, hmod, hbound.later (later_read hinv.inside)⟩
  · intro g entry hg hmem
    obtain rfl : shared.globalEpoch = g := by simpa [Pc.unpublished] using hg
    have hmem' : entry ∈ (shared.threads thread).limboList shared.globalEpoch := by
      simpa [Pc.draining] using hmem
    obtain ⟨label, hlabel, hmod, hbound⟩ := hinv.placed _ entry hmem' (by simp [Pc.unpublished])
    refine ⟨label, ?_, hmod, hbound.later (later_read hinv.inside)⟩
    have hne : (l : Nat) ≠ shared.globalEpoch := fun h => hnew (Fin.ext h)
    rw [hreading]
    have hepoch := hglobal.epoch
    omega

end

theorem keeps_publish {g : Epoch} (hglobal : GlobalInv shared clock)
    (hinv : ThreadInv scheme thread shared clock (.publish g)) :
    Keeps scheme thread shared clock
      (shared.setThread thread fun record => { record with localEpoch := g }) .resetEntries := by
  refine Keeps.quiet hglobal ?_ fun _ hne => Function.update_of_ne hne ..
  obtain ⟨hg, -⟩ := hinv.unpublished g rfl
  refine ⟨by simpa using hinv.flag, hinv.active, hinv.inside, hinv.scanner, ?_, ?_, ?_,
    trivial, ?_, ?_⟩
  · simp
  · simpa using fun _ => hg
  · simp [Pc.unpublished]
  · intro k entry hmem _
    have hmem' : entry ∈ (shared.threads thread).limboList k := by simpa using hmem
    by_cases hk : k = g
    · subst hk
      obtain ⟨label, hle, hmod, hbound⟩ := hinv.old k entry rfl (Or.inl hmem')
      exact ⟨label, by omega, hmod, hbound⟩
    · exact hinv.placed k entry hmem' (by simpa [Pc.unpublished] using fun h => hk h.symm)
  · simp [Pc.unpublished]

/-- A section that begins now is not one that was open before: it has a new number. -/
theorem later_open (write : PerThread n Item → PerThread n Item) :
    Later (shared, clock) ((shared.setThread thread write).open thread, clock) := by
  intro reader k hle
  have hle' : k ≤ shared.entered reader := hle
  refine ⟨Nat.le_trans hle' (Sections.entered_le_enter shared.toSections thread reader), fun hstill => ?_⟩
  exact ⟨(Sections.StillOpen.of_enter hstill hle').1, rfl⟩

section

variable (hglobal : GlobalInv shared clock) (hinv : ThreadInv scheme thread shared clock pc)
include hglobal hinv

theorem keeps_open {write : PerThread n Item → PerThread n Item} (hpc : pc.unpublished = none)
    (hflag : pc.flag = true) (hactive : pc.active = true) (hscanning : pc.scanning = false)
    (hlimbo : (write (shared.threads thread)).limboList = (shared.threads thread).limboList)
    (hlocal : (write (shared.threads thread)).localEpoch = (shared.threads thread).localEpoch)
    (hcritical : (write (shared.threads thread)).inCritical = (shared.threads thread).inCritical) :
    Keeps scheme thread shared clock ((shared.setThread thread write).open thread) .inside := by
  have hself : ((shared.setThread thread write).open thread).threads thread
      = write (shared.threads thread) := setThread_self shared thread write
  refine ⟨clock, { hglobal with inside := fun other hother => ?_ }, ?_, fun other hne => ?_⟩
  · by_cases heq : other = thread
    · exact heq ▸ hinv.active.mpr hactive
    · exact hglobal.inside other (by simpa [Shared.open, heq] using hother)
  · refine hinv.settled hpc rfl (later_open write) (by rw [hself, hlimbo]) (by rw [hself, hlocal]) rfl
      ?_ ?_ (by simp [Shared.open, Pc.isInside]) ?_ (by simp) trivial
    · rw [hself, hcritical, hinv.flag, hflag]
      rfl
    · rw [hinv.active, hactive]
      rfl
    · rw [hinv.scanner, hscanning]
      rfl
  · refine ⟨later_open write, setThread_of_ne shared hne write, ?_, rfl, Iff.rfl, Iff.rfl,
      fun _ => ⟨rfl, rfl, rfl, fun _ hother => Or.inr ⟨hother, rfl⟩⟩⟩
    simp [Shared.open, hne]

attribute [local simp] Clock.leave

/-- The thread stops being active, with its flag lowered. -/
theorem keeps_leave {sections' : Sections (Fin n)}
    (hothers : ∀ other, other ≠ thread → sections'.inside other = shared.inside other)
    (hinside : sections'.inside thread = false) (hentered : sections'.entered = shared.entered)
    (hvar : ∀ l, pc'.localVar = some l → (shared.threads thread).localEpoch = l)
    (hscan : ∀ shared', ScanInv scheme shared' (clock.leave thread) pc')
    (hpc : pc.unpublished = none ∧ pc.scanning = false)
    (hpc' : pc'.unpublished = none ∧ pc'.flag = false ∧ pc'.active = false ∧ pc'.isInside = false ∧
      pc'.scanning = false) :
    Keeps scheme thread shared clock { shared with
      toSections := sections'
      threads := (shared.setThread thread fun record => { record with inCritical := false }).threads } pc' := by
  obtain ⟨hafter, hflag', hactive', hinside', hscanning'⟩ := hpc'
  have hlater : ∀ threads', Later (shared, clock)
      ({ shared with toSections := sections', threads := threads' }, clock.leave thread) := by
    intro threads' reader k hle
    refine ⟨by rw [hentered]; exact hle, fun hstill => ⟨⟨?_, ?_⟩, rfl⟩⟩
    · have hne : reader ≠ thread := by
        rintro rfl
        exact absurd hstill.1 (by simp [hinside])
      rw [← hothers reader hne]
      exact hstill.1
    · rw [← hstill.2, hentered]
  refine ⟨clock.leave thread, { hglobal with valid := hglobal.valid.leave thread, inside := fun other hother => ?_ },
    ?_, fun other hne => ?_⟩
  · have hne : other ≠ thread := by
      rintro rfl
      simp [hinside] at hother
    rw [hothers other hne] at hother
    simpa [hne] using hglobal.inside other hother
  · refine hinv.settled hpc.1 hafter (hlater _) (by simp) (by simp) rfl (by rw [hflag']; simp) ?_
      (by rw [hinside, hinside']) ?_ (by simpa using hvar) (hscan _)
    · simp [hactive']
    · rw [hscanning', ← hpc.2]
      exact hinv.scanner
  · refine ⟨hlater _, Function.update_of_ne hne .., hothers other hne, rfl, ?_, Iff.rfl,
      fun _ => ⟨rfl, rfl, rfl, fun reader hactive => Or.inr ⟨?_, rfl⟩⟩⟩
    · simp [hne]
    · by_cases heq : reader = thread
      · simp [heq] at hactive
      · simpa [heq] using hactive

theorem criticalEnter_keeps (hcode : criticalEnter scheme thread shared pc = some (shared', pc')) :
    Keeps scheme thread shared clock shared' pc' := by
  cases pc with
  | raiseFlag l =>
    cases hcode
    exact keeps_raiseFlag hglobal hinv
  | readEpoch l =>
    simp only [criticalEnter] at hcode
    split at hcode
    · cases hcode
      exact keeps_readEpoch_new hglobal hinv (by assumption)
    · rename_i hsame
      cases hcode
      exact keeps_readEpoch_same hglobal hinv (by simpa using hsame)
  | publish g =>
    cases hcode
    exact keeps_publish hglobal hinv
  | resetEntries =>
    cases hcode
    exact keeps_open hglobal hinv rfl rfl rfl rfl rfl rfl rfl
  | countEntry l =>
    simp only [criticalEnter] at hcode
    split at hcode
    · cases hcode
      exact keeps_open hglobal hinv rfl rfl rfl rfl rfl rfl rfl
    · cases hcode
      exact keeps_write _ hglobal hinv trivial (by constructor <;> rfl) rfl fun _ => ⟨rfl, rfl, rfl⟩
  | lowerFlag l =>
    cases hcode
    exact keeps_leave hglobal hinv (fun _ _ => rfl) hinv.inside rfl hinv.localVar (fun _ => trivial) ⟨rfl, rfl⟩
      ⟨rfl, rfl, rfl, rfl, rfl⟩
  | resetCount l =>
    cases hcode
    split
    · rename_i hcopies
      exact keeps_write _ hglobal hinv hcopies (by constructor <;> rfl) rfl fun _ => ⟨rfl, rfl, rfl⟩
    · exact keeps_write _ hglobal hinv trivial (by constructor <;> rfl) rfl fun _ => ⟨rfl, rfl, rfl⟩
  | _ => simp [criticalEnter] at hcode

end

/-! ### `update_epoch` -/

theorem keeps_scan {epoch' : Epoch} {lock' : Bool} (clock' : Clock (Fin n))
    (hinv : ThreadInv scheme thread shared clock pc)
    (hglobal' : GlobalInv { shared with globalEpoch := epoch', globalEpochLock := lock' } clock')
    (hscanner : clock'.scanner = some thread ↔ pc'.scanning = true)
    (hfree : ∀ other, other ≠ thread → clock.scanner ≠ some other ∧ clock'.scanner ≠ some other)
    (hscan : ScanInv scheme { shared with globalEpoch := epoch', globalEpochLock := lock' } clock' pc')
    (hplace : SamePlace pc pc') (hreading : clock'.reading = clock.reading)
    (hactive : clock'.active = clock.active) :
    Keeps scheme thread shared clock { shared with globalEpoch := epoch', globalEpochLock := lock' } pc' := by
  refine ⟨clock', hglobal', ?_, fun other hne => ⟨later_of_eq rfl rfl hreading, rfl, rfl, congrFun hreading other,
    by simp only [hactive], by simp [hfree other hne], fun hlocked => absurd hlocked (hfree other hne).1⟩⟩
  refine hinv.settled hplace.before hplace.after (later_of_eq rfl rfl hreading) rfl rfl (by rw [hreading]) ?_ ?_ ?_
    hscanner ?_ hscan
  · rw [hplace.flag]; exact hinv.flag
  · rw [hactive, hplace.active]; exact hinv.active
  · rw [hplace.inside]; exact hinv.inside
  · rw [hplace.localVar]; exact hinv.localVar

theorem keeps_clear {l : Epoch} {expected : Option Epoch} {i : Nat} (hi : i < n)
    (hglobal : GlobalInv shared clock) (hinv : ThreadInv scheme thread shared clock pc)
    (hbefore : ∀ other : Fin n, other < i → clock.cleared other)
    (hexpected : ∀ g, expected = some g → g = shared.globalEpoch)
    (hcurrent : clock.active ⟨i, hi⟩ → clock.reading ⟨i, hi⟩ = clock.now)
    (hscanning : pc.scanning = true) (hplace : SamePlace pc (.scanFlag l expected (i + 1))) :
    Keeps scheme thread shared clock shared (.scanFlag l expected (i + 1)) := by
  have hscanner := hinv.scanner.mpr hscanning
  have hcleared : ∀ other : Fin n, other < i + 1 → (clock.clear ⟨i, hi⟩).cleared other := by
    intro other hlt
    by_cases heq : other = ⟨i, hi⟩
    · simp [Clock.clear, heq]
    · have hne : (other : Nat) ≠ i := fun h => heq (Fin.ext h)
      simpa [Clock.clear, heq] using hbefore other (by omega)
  refine keeps_scan (clock.clear ⟨i, hi⟩) hinv
    { hglobal with valid := hglobal.valid.clear hcurrent } ⟨fun _ => rfl, fun _ => hscanner⟩ ?_
    ⟨hcleared, hexpected⟩ hplace rfl rfl
  intro other hne
  have hother : clock.scanner ≠ some other := by
    rw [hscanner]
    simpa using hne.symm
  exact ⟨hother, hother⟩

theorem Pc.flag_of_active (h : pc.active = true) : pc.flag = true := by
  cases pc <;> simp_all [Pc.active]

theorem reading_eq_now_of_published (hglobal : GlobalInv shared clock)
    (hother : ThreadInv scheme other shared clock pc) (hpc : pc.unpublished = none)
    (hmatch : (shared.threads other).localEpoch = shared.globalEpoch) (hactive : clock.active other) :
    clock.reading other = clock.now := by
  have hpublished := hother.published hpc
  have hepoch := hglobal.epoch
  have hle := hglobal.valid.reading_le other
  have hlag := hglobal.valid.lag other hactive
  rw [hmatch] at hpublished
  omega

theorem updateEpoch_keeps (hglobal : GlobalInv config.shared clock)
    (hall : ∀ other, ThreadInv scheme other config.shared clock (config.threads other))
    (hregular : Regular scheme config thread choice)
    (hcode : updateEpoch config.shared (config.threads thread) = some (shared', pc')) :
    Keeps scheme thread config.shared clock shared' pc' := by
  have hinv := hall thread
  -- The scanner is the acting thread, whatever it does with the lock.
  have hfree : clock.scanner = some thread → ∀ other, other ≠ thread → clock.scanner ≠ some other := by
    intro hscanner other hne
    rw [hscanner]
    simpa using hne.symm
  cases hpc : config.threads thread with
  | copyEpoch l =>
    rw [hpc] at hcode hinv
    cases hcode
    exact keeps_stay hglobal hinv hinv.scan (by constructor <;> rfl) rfl
  | tryLock l expected =>
    rw [hpc] at hcode hinv
    simp only [updateEpoch] at hcode
    split at hcode
    · cases hcode
      exact keeps_stay hglobal hinv trivial (by constructor <;> rfl) rfl
    · rename_i hunlocked
      cases hcode
      have hnone : clock.scanner = none := by
        have hlock := hglobal.lock
        simp_all
      refine keeps_scan (clock.beginScan thread) hinv
        ⟨hglobal.valid.beginScan thread, hglobal.epoch, rfl, hglobal.inside⟩
        ⟨fun _ => rfl, fun _ => rfl⟩ ?_ ⟨?_, ?_⟩ (by constructor <;> rfl) rfl rfl
      · intro other hne
        exact ⟨by simp [hnone], by simpa [Clock.beginScan] using hne.symm⟩
      · intro other hlt
        simp at hlt
      · rintro g rfl
        simp only [Regular, hpc] at hregular
        exact hregular hinv.scan
  | scanFlag l expected i =>
    rw [hpc] at hcode hinv
    obtain ⟨hbefore, hexpected⟩ := hinv.scan
    simp only [updateEpoch] at hcode
    split at hcode
    · rename_i hi
      split at hcode
      · cases hcode
        exact keeps_stay hglobal hinv hinv.scan (by constructor <;> rfl) rfl
      · rename_i hflag
        cases hcode
        refine keeps_clear hi hglobal hinv hbefore hexpected ?_ rfl (by constructor <;> rfl)
        intro hactive
        have hother := hall ⟨i, hi⟩
        rw [hother.flag, Pc.flag_of_active (hother.active.mp hactive)] at hflag
        simp at hflag
    · rename_i hi
      cases hcode
      refine keeps_stay hglobal hinv ?_ (by constructor <;> rfl) rfl
      intro other
      exact hbefore other (by omega)
  | scanLocal l expected i =>
    -- A thread that has read an epoch and not stored it does not match: that is `Regular`.
    have hcurrent : ∀ other : Fin n, other = i → (config.shared.threads other).localEpoch = config.shared.globalEpoch →
        clock.active other → clock.reading other = clock.now := by
      rintro other rfl hmatch hactive
      refine reading_eq_now_of_published hglobal (hall other) ?_ hmatch hactive
      by_contra hunpublished
      simp only [Regular, hpc] at hregular
      exact hregular other.isLt hunpublished hmatch
    rw [hpc] at hcode hinv
    obtain ⟨hbefore, hexpected⟩ := hinv.scan
    simp only [updateEpoch] at hcode
    split at hcode
    · rename_i hi
      cases expected with
      | none =>
        cases hcode
        refine keeps_stay hglobal hinv ⟨hbefore, ?_⟩ (by constructor <;> rfl) rfl
        rintro other rfl hmatch
        exact hcurrent other rfl hmatch
      | some g =>
        simp only at hcode
        split at hcode
        · cases hcode
          exact keeps_stay hglobal hinv trivial (by constructor <;> rfl) rfl
        · rename_i hmatch
          cases hcode
          refine keeps_clear hi hglobal hinv hbefore hexpected ?_ rfl (by constructor <;> rfl)
          refine hcurrent ⟨i, hi⟩ rfl ?_
          rw [← hexpected g rfl]
          simpa using hmatch
    · simp at hcode
  | scanGlobal l i found =>
    rw [hpc] at hcode hinv
    obtain ⟨hbefore, hfound⟩ := hinv.scan
    simp only [updateEpoch] at hcode
    split at hcode
    · cases hcode
      exact keeps_stay hglobal hinv trivial (by constructor <;> rfl) rfl
    · rename_i hmatch
      cases hcode
      by_cases hi : i < n
      · refine keeps_clear hi hglobal hinv hbefore (by simp) ?_ rfl (by constructor <;> rfl)
        exact hfound ⟨i, hi⟩ rfl (by simpa using hmatch)
      · refine keeps_stay hglobal hinv ⟨fun other _ => hbefore other (by omega), by simp⟩ (by constructor <;> rfl) rfl
  | advanceRead l =>
    rw [hpc] at hcode hinv
    cases hcode
    exact keeps_stay hglobal hinv ⟨hinv.scan, rfl⟩ (by constructor <;> rfl) rfl
  | advanceWrite l g =>
    rw [hpc] at hcode hinv
    obtain ⟨hcleared, rfl⟩ := hinv.scan
    cases hcode
    have hscanner := hinv.scanner.mpr rfl
    have hepoch := hglobal.epoch
    refine keeps_scan clock.advance hinv ⟨hglobal.valid.advance hcleared, ?_, hglobal.lock, hglobal.inside⟩
      ⟨fun _ => rfl, fun _ => hscanner⟩
      (fun other hne => ⟨hfree hscanner other hne, hfree hscanner other hne⟩) trivial (by constructor <;> rfl)
      rfl rfl
    simp only [Clock.advance, epoch_val_succ]
    omega
  | unlock l =>
    rw [hpc] at hcode hinv
    cases hcode
    have hscanner := hinv.scanner.mpr rfl
    exact keeps_scan clock.endScan hinv
      ⟨hglobal.valid.endScan, hglobal.epoch, rfl, hglobal.inside⟩ (by simp [Clock.endScan, Pc.scanning])
      (fun other hne => ⟨hfree hscanner other hne, by simp [Clock.endScan]⟩) trivial (by constructor <;> rfl)
      rfl rfl
  | _ =>
    rw [hpc] at hcode
    simp [updateEpoch] at hcode

/-! ### `clean_list`, and the calls of the client -/

theorem bound_of_now_le {label : Nat} (hglobal : GlobalInv shared clock)
    (hlabel : clock.now ≤ label + 1) (item : Item) :
    Bound shared clock label { item, openWhen := shared.snapshot } := by
  intro reader k hopen
  have hk : shared.entered reader = k := (Sections.snapshot_eq_some.mp hopen).2
  exact ⟨Nat.le_of_eq hk.symm, fun _ => Nat.le_trans (hglobal.valid.reading_le reader) hlabel⟩

theorem keeps_retire (label : Nat) (hglobal : GlobalInv shared clock) (item : Item)
    (hinv : ThreadInv scheme thread shared clock pc)
    (hscan : ∀ shared' : Shared n Item Heap, ScanInv scheme shared' clock pc)
    (hfresh : pc.unpublished ≠ some (shared.threads thread).localEpoch)
    (hreading : label ≤ clock.reading thread)
    (hmod : label % 3 = (shared.threads thread).localEpoch) (hlabel : clock.now ≤ label + 1) :
    Keeps scheme thread shared clock (retire thread item shared) pc := by
  suffices hthread : ThreadInv scheme thread (retire thread item shared) clock pc from
    Keeps.quiet hglobal hthread fun _ hne => Function.update_of_ne hne ..
  have hself : (retire thread item shared).threads thread
      = (shared.threads thread).push { item, openWhen := shared.snapshot } :=
    setThread_self shared thread _
  have hbound := bound_of_now_le hglobal hlabel item
  refine ⟨?_, hinv.active, hinv.inside, hinv.scanner, ?_, ?_, ?_, hscan _, ?_, ?_⟩
  all_goals rw [hself]
  · exact hinv.flag
  · exact hinv.localVar
  · exact hinv.published
  · exact hinv.unpublished
  · intro k entry hmem hne
    by_cases hk : k = (shared.threads thread).localEpoch
    · subst hk
      simp only [PerThread.push, Function.update_self, List.mem_cons] at hmem
      rcases hmem with rfl | hmem
      · exact ⟨label, hreading, hmod, hbound⟩
      · exact hinv.placed _ entry hmem hne
    · exact hinv.placed k entry (by simpa [PerThread.push, hk] using hmem) hne
  · intro g entry hg hmem
    have hne : g ≠ (shared.threads thread).localEpoch := by
      rintro rfl
      exact hfresh hg
    exact hinv.old g entry hg (by simpa [PerThread.push, hne] using hmem)

theorem ThreadInv.setHeap {heap : Heap} (hinv : ThreadInv scheme thread shared clock pc)
    (hscan : ScanInv scheme { shared with heap } clock pc) :
    ThreadInv scheme thread { shared with heap } clock pc :=
  { hinv with scan := hscan }

theorem GlobalInv.setHeap (hglobal : GlobalInv shared clock) (heap : Heap) : GlobalInv { shared with heap } clock :=
  { hglobal with }

/-- Moving along in the loop of `clean_list`: the entries still to drain are among those there were. -/
theorem ThreadInv.drain {g : Epoch} (hinv : ThreadInv scheme thread shared clock pc)
    (hpc : pc.unpublished = some g) (hpc' : pc'.unpublished = some g)
    (hpcs : pc'.flag = pc.flag ∧ pc'.active = pc.active ∧ pc'.isInside = pc.isInside ∧
      pc'.scanning = pc.scanning ∧ ∀ l, pc'.localVar = some l → pc.localVar = some l)
    (hscan : ScanInv scheme shared clock pc')
    (hdraining : ∀ entry ∈ pc'.draining, entry ∈ (shared.threads thread).limboList g ∨ entry ∈ pc.draining) :
    ThreadInv scheme thread shared clock pc' := by
  obtain ⟨hflag', hactive', hinside', hscanning', hvar'⟩ := hpcs
  refine ⟨?_, ?_, ?_, ?_, fun l hl => hinv.localVar l (hvar' l hl), ?_, ?_, hscan, ?_, ?_⟩
  · rw [hflag']; exact hinv.flag
  · rw [hactive']; exact hinv.active
  · rw [hinside']; exact hinv.inside
  · rw [hscanning']; exact hinv.scanner
  · simp [hpc']
  · rw [hpc', ← hpc]; exact hinv.unpublished
  · rw [hpc', ← hpc]; exact hinv.placed
  · intro g' entry hg' hmem
    obtain rfl : g = g' := by simpa [hpc'] using hg'
    rcases hmem with hmem | hmem
    · exact hinv.old g entry hpc (Or.inl hmem)
    · exact hinv.old g entry hpc (hdraining entry hmem)

theorem cleanList_keeps (hglobal : GlobalInv config.shared clock)
    (hinv : ThreadInv scheme thread config.shared clock (config.threads thread))
    (hregular : Regular scheme config thread choice)
    (hcode : cleanList scheme thread config.shared (config.threads thread) = some (shared', pc')) :
    Keeps scheme thread config.shared clock shared' pc' := by
  have hquiet : ∀ (heap : Heap) (pc' : Pc n Item), ThreadInv scheme thread { config.shared with heap } clock pc' →
      Keeps scheme thread config.shared clock { config.shared with heap } pc' :=
    fun heap pc' h => Keeps.quiet hglobal h fun _ _ => rfl
  cases hpc : config.threads thread with
  | cleanStart l g =>
    rw [hpc] at hcode hinv
    cases hcode
    refine Keeps.quiet hglobal ?_ fun _ _ => rfl
    exact hinv.drain rfl rfl ⟨rfl, rfl, rfl, rfl, fun _ h => h⟩ trivial fun _ h => Or.inl h
  | clean l g cur =>
    rw [hpc] at hcode hinv
    cases cur with
    | nil =>
      cases hcode
      refine Keeps.quiet hglobal ?_ fun _ hne => Function.update_of_ne hne ..
      have hpublish : ThreadInv scheme thread config.shared clock (.publish g) :=
        hinv.drain rfl rfl ⟨rfl, rfl, rfl, rfl, by simp⟩ trivial
          (by simp [Pc.draining])
      refine ⟨?_, hpublish.active, hpublish.inside, hpublish.scanner, ?_, ?_, ?_, trivial, ?_, ?_⟩
      all_goals simp only [Function.update_self]
      · exact hpublish.flag
      · exact hpublish.localVar
      · exact hpublish.published
      · exact hpublish.unpublished
      · intro k entry hmem hne
        have hk : k ≠ g := fun h => hne (by simp [Pc.unpublished, h])
        exact hpublish.placed k entry (by simpa [hk] using hmem) hne
      · intro g' entry hg' hmem
        obtain rfl : g = g' := by simpa [Pc.unpublished] using hg'
        simp [Pc.draining] at hmem
    | cons entry cur =>
      cases hcode
      refine hquiet _ _ (ThreadInv.setHeap ?_ ?_)
      · split
        all_goals
          exact hinv.drain rfl rfl ⟨rfl, rfl, rfl, rfl, fun _ h => h⟩ trivial
            fun _ h => Or.inr (List.mem_cons_of_mem entry h)
      · split <;> trivial
  | cleanRelease l g item cur =>
    have hmoved : ThreadInv scheme thread config.shared clock (.clean l g cur) := by
      rw [hpc] at hinv
      exact hinv.drain rfl rfl ⟨rfl, rfl, rfl, rfl, fun _ h => h⟩ trivial fun _ h => Or.inr h
    rw [hpc] at hcode
    simp only [Regular, hpc] at hregular
    simp only [cleanList] at hcode
    split at hcode
    · rename_i heap hrelease
      cases hcode
      exact hquiet heap _ (hmoved.setHeap trivial)
    · rename_i heap next hrelease
      cases hcode
      -- The local epoch is the one just before the current one, so its number is `now - 1`.
      have hepoch := congrArg Fin.val (hregular (by simp [hrelease]))
      rw [epoch_val_succ] at hepoch
      have hlt := epoch_val_lt (config.shared.threads thread).localEpoch
      obtain ⟨hg, hlocal⟩ := hmoved.unpublished g rfl
      have hne : ((config.shared.threads thread).localEpoch : Nat) ≠ g := fun h => hlocal (Fin.ext h)
      have hglobalEpoch := hglobal.epoch
      have hpositive := hglobal.valid.positive
      have hle := hglobal.valid.reading_le thread
      have hlag := hglobal.valid.lag thread (hmoved.active.mpr rfl)
      have hnow : clock.now = clock.reading thread := by omega
      obtain ⟨clock', hglobal', hthread', hrely⟩ := keeps_retire (clock.now - 1)
        (hglobal.setHeap heap) next (hmoved.setHeap trivial) (fun _ => trivial)
        (by simpa [Pc.unpublished] using hlocal.symm) (by omega)
        (by change (clock.now - 1) % 3 = ((config.shared.threads thread).localEpoch : Nat); omega)
        (by omega)
      refine ⟨clock', hglobal', hthread', fun other hne => ?_⟩
      exact ⟨(hrely other hne).later, (hrely other hne).record, (hrely other hne).inside,
        (hrely other hne).reading, (hrely other hne).active, (hrely other hne).scanner,
        (hrely other hne).locked⟩
  | _ =>
    rw [hpc] at hcode
    simp [cleanList] at hcode

theorem call_keeps (hglobal : GlobalInv shared clock) (hinv : ThreadInv scheme thread shared clock pc)
    (hregular : pc = .outside → scheme.retiresOutside = true → choice.isRetire = false)
    (hcode : call scheme thread shared pc choice = some (shared', pc')) :
    Keeps scheme thread shared clock shared' pc' := by
  unfold call at hcode
  split at hcode
  · -- The entry function is called.
    cases hcode
    refine Keeps.quiet hglobal ?_ fun _ _ => rfl
    exact hinv.settled rfl rfl (later_of_eq rfl rfl rfl) rfl rfl rfl hinv.flag hinv.active hinv.inside
      hinv.scanner (by simp) trivial
  · -- The exit function.
    cases hcode
    exact keeps_leave hglobal hinv (fun other hne => by simp [hne]) (by simp) rfl (by simp) (fun _ => trivial)
      ⟨rfl, rfl⟩ ⟨rfl, rfl, rfl, rfl, rfl⟩
  · -- An entry is registered: in the epoch the thread has read.
    cases hcode
    exact keeps_retire _ hglobal _ hinv (fun _ => trivial) (by simp [Pc.unpublished]) (Nat.le_refl _)
      (hinv.published rfl).symm (hglobal.valid.lag thread (hinv.active.mpr rfl))
  · split at hcode
    · rename_i houtside
      exact absurd (hregular rfl houtside) Bool.true_eq_false.mp
    · simp at hcode
  · cases hcode
    exact Keeps.quiet hglobal (hinv.setHeap trivial) fun _ _ => rfl
  · simp at hcode

theorem relyGuarantee_regular (scheme : Scheme Item Heap Op) :
    RelyGuarantee (code (n := n) scheme) (Regular scheme) GlobalInv (ThreadInv scheme) Rely := by
  refine ⟨?_, fun other before after pc _ _ hinv hrely => hinv.rely hrely⟩
  intro config clock thread choice shared' pc' hglobal hall hregular hcode
  change Keeps scheme thread config.shared clock shared' pc'
  unfold code at hcode
  split at hcode
  · split at hcode
    · rename_i result hresult
      obtain rfl : result = (shared', pc') := by simpa using hcode
      exact criticalEnter_keeps hglobal (hall thread) hresult
    · split at hcode
      · rename_i result hresult
        obtain rfl : result = (shared', pc') := by simpa using hcode
        exact cleanList_keeps hglobal (hall thread) hregular hresult
      · exact updateEpoch_keeps hglobal hall hregular hcode
  · refine call_keeps hglobal (hall thread) (fun hpc => ?_) hcode
    simpa only [Regular, hpc] using hregular

def initialClock : Clock (Fin n) :=
  { now := 1, reading := fun _ => 0, active := fun _ => False, scanner := none,
    cleared := fun _ => False }

theorem invariants_of_regular {heap : Heap} (hreach : ReachableVia (code scheme) (Regular scheme) (init heap) config) :
    ∃ clock, GlobalInv config.shared clock ∧
      ∀ thread, ThreadInv scheme thread config.shared clock (config.threads thread) := by
  refine (relyGuarantee_regular scheme).invariant hreach initialClock ?_ ?_
  · refine ⟨⟨Nat.one_pos, fun _ => Nat.zero_le _, fun _ h => h.elim, fun _ h => h.elim⟩, rfl, rfl, ?_⟩
    intro thread hinside
    simp [init, Sections.fresh] at hinside
  · intro thread
    refine ⟨rfl, ?_, rfl, ?_, ?_, fun _ => rfl, ?_, trivial, ?_, ?_⟩
    · simp [initialClock, init, Pc.active]
    · simp [initialClock, init, Pc.scanning]
    · simp [init]
    · simp [init, Pc.unpublished]
    · simp [init]
    · simp [init, Pc.unpublished]

/-- **The grace period of a regular run.** -/
theorem gracePeriod_of_regular {heap : Heap} (hreach : ReachableVia (code scheme) (Regular scheme) (init heap) config) :
    GracePeriod config := by
  obtain ⟨clock, hglobal, hall⟩ := invariants_of_regular hreach
  intro collector l g entry cur hpc reader k hopen hstill
  have hinv := hall collector
  rw [hpc] at hinv
  obtain ⟨label, hlabel, -, hbound⟩ := hinv.old g entry rfl (Or.inr List.mem_cons_self)
  have hreading := (hbound reader k hopen).2 hstill
  exact hglobal.valid.not_active hreading hlabel (hglobal.inside reader hstill.1)

end Lfmr.EpochReclaim
