import Lfmr.Proof.HazardInvariant

/-!
# The accesses of the list with hazard pointers keep its invariant

One lemma for each kind of access: those that read a pointer, the announcement and the check that turns
it into a guard, the three compare-and-swaps, and what concerns the allocator and the scan.
-/

namespace Lfmr.HazardList

open Function Lfmr.Concurrency Lfmr.Concurrency.Hazards Lfmr.MarkedList Lfmr.Smr

variable {n : Nat} {shared shared' : Shared n} {ghost ghost' : Ghost} {thread other : Fin n}
  {off : Bool} {prev : Loc} {cur node : NodeAddr} {next target : Option NodeAddr} {key : Int}
  {task : Task} {mine : ThisThread} {pc : Pc} {priv : Priv} {link : Link}

abbrev Keeps (thread : Fin n) := Concurrency.Keeps GlobalInv ThreadInv Rely thread

theorem keeps_of_threadInv (hglobal : GlobalInv shared ghost)
    (hinv : ThreadInv thread shared ghost priv) : Keeps thread shared ghost shared priv :=
  ⟨ghost, hglobal, hinv, fun _ _ => .refl⟩

theorem holds_of_not_isFreeing {rlist : List NodeAddr} (hholds : shared.Holds thread rlist)
    (hfreeing : pc.isFreeing = false) : shared.Holds thread (rlist ++ pc.pending) := by
  rwa [Pc.pending_eq_nil hfreeing, List.append_nil]

theorem ThreadInv.steady (hinv : ThreadInv thread shared ghost priv)
    (hsteady : Steady thread (fun _ => True) (fun _ => True) shared.toHazards ghost.guard shared'.toHazards ghost.guard)
    (hheap : shared'.heap = shared.heap) : ThreadInv thread shared' ghost priv where
  holds := hinv.holds.steady hsteady fun _ _ => trivial
  owns node hown := (hinv.owns node hown).steady hsteady trivial
  pc := hinv.pc.steady hsteady (.of_heap_eq hheap) (fun _ => trivial) hinv.holds
    (fun _ _ => trivial) fun node hown => (hinv.owns node hown).owned

/-! ### Reading pointers -/

theorem GlobalInv.see (hglobal : GlobalInv shared ghost) : GlobalInv (shared.see thread target) ghost :=
  { hglobal with hazards := hglobal.hazards.see }

theorem GlobalInv.load (hglobal : GlobalInv shared ghost) : GlobalInv (shared.load thread target) ghost :=
  { hglobal with hazards := hglobal.hazards.load }

theorem ThreadInv.see (hinv : ThreadInv thread shared ghost priv) :
    ThreadInv thread (shared.see thread target) ghost priv :=
  hinv.steady Steady.refl.see rfl

theorem keeps_see (hglobal : GlobalInv shared ghost) (hinv : ThreadInv thread shared ghost priv) :
    Keeps thread shared ghost (shared.see thread target) priv :=
  ⟨ghost, hglobal.see, hinv.see, fun _ _ => ⟨Steady.refl.see, .of_heap_eq rfl⟩⟩

theorem keeps_load (hglobal : GlobalInv shared ghost) (hinv : ThreadInv thread shared ghost priv) :
    Keeps thread shared ghost (shared.load thread target) priv :=
  ⟨ghost, hglobal.load, hinv.steady Steady.refl.load rfl, fun _ _ => ⟨Steady.refl.load, .of_heap_eq rfl⟩⟩

/-! ### What is linked -/

section

variable (hglobal : GlobalInv shared ghost)
include hglobal

/-- A guarded node that is not marked is linked: unlinked ones are marked. -/
theorem GlobalInv.mem_chain {i : Nat}
    (hguard : ghost.guard i = some node) (hmark : (shared.heap.next node).mark = false) :
    node ∈ ghost.chain := by
  rw [hglobal.linked_iff]
  have hinUse := hglobal.hazards.inUse i node hguard
  cases hcustody : shared.custody node with
  | linked => rfl
  | unlinked unlinker => simp [hglobal.marked node unlinker hcustody] at hmark
  | free | owned owner => simp [hcustody, Custody.InUse] at hinUse

theorem GlobalInv.mem_locs
    (hbelow : Below thread shared ghost off key prev) (hmark : (shared.heap.read prev).mark = false) :
    prev ∈ Heap.locs ghost.chain := by
  cases prev with
  | head => exact List.mem_cons_self
  | next node =>
    exact Heap.next_mem_locs.mpr (hglobal.mem_chain (hbelow node rfl).1.guard hmark)

theorem GlobalInv.custody_of_read (hbelow : Below thread shared ghost off key prev)
    (hread : shared.heap.read prev = ⟨some cur, false⟩) : shared.custody cur = .linked := by
  have hmem := hglobal.mem_locs hbelow (by rw [hread])
  exact (hglobal.linked_iff cur).mp (hglobal.valid.mem_of_read hmem (congrArg Link.addr hread))

theorem GlobalInv.notMem_of_owned (howned : shared.custody node = .owned thread) : node ∉ ghost.chain := by
  rw [hglobal.linked_iff, howned]
  simp

theorem GlobalInv.unguarded_of_owned
    (howned : shared.custody node = .owned thread) (i : Nat) : ghost.guard i ≠ some node :=
  hglobal.hazards.unguarded (by simp [howned, Custody.InUse]) i

end

/-! ### Announcing a node -/

theorem GlobalInv.announce (hglobal : GlobalInv shared ghost) (i : Nat) :
    GlobalInv (shared.announce i target) ⟨ghost.chain, update ghost.guard i none⟩ where
  valid := hglobal.valid
  linked_iff := hglobal.linked_iff
  marked := hglobal.marked
  hazards := hglobal.hazards.announce i target
  bound found node hguard := hglobal.bound found node (guard_of_clear hguard)

theorem rely_announce (hne : other ≠ thread) : Rely other (shared, ghost) (shared.announce (slot thread off) target,
      ⟨ghost.chain, update ghost.guard (slot thread off) none⟩) :=
  ⟨steady_announce (not_ownSlot hne off), .of_heap_eq rfl⟩

section

variable (hglobal : GlobalInv shared ghost)
include hglobal

theorem keeps_protect (hinv : ThreadInv thread shared ghost ⟨mine, .walk task off (.protect prev cur)⟩) :
    Keeps thread shared ghost (shared.announce (slot thread off) (some cur))
      ⟨mine, .walk task off (.check prev cur)⟩ := by
  have hne : slot thread (!off) ≠ slot thread off := by
    intro heq
    simpa using (slot_injective heq).2
  have hsteady : Steady thread (· = slot thread (!off)) (fun _ => True) shared.toHazards ghost.guard
      (shared.announce (slot thread off) (some cur)).toHazards
      (update ghost.guard (slot thread off) none) :=
    steady_announce hne.symm
  refine ⟨_, hglobal.announce _, ⟨?_, ?_, ?_, ?_⟩, fun _ => rely_announce⟩
  · exact hinv.holds.steady hsteady fun _ _ => trivial
  · exact fun node hown => (hinv.owns node hown).steady hsteady trivial
  · exact Below.steady hsteady hinv.pc (fun _ _ _ => rfl) rfl
  · simp [Shared.announce, Hazards.announce]

theorem keeps_clear {i : Nat} (hlt : i < K) (hholds : shared.Holds thread mine.rlist) :
    Keeps thread shared ghost (shared.announce (thread.val * K + i) none) ⟨mine, .clear (i + 1)⟩ := by
  obtain ⟨off, rfl⟩ := exists_off_of_lt hlt
  have hsteady : Steady thread (fun _ => False) (fun _ => True) shared.toHazards ghost.guard
      (shared.announce (slot thread off) none).toHazards
      (update ghost.guard (slot thread off) none) :=
    steady_announce id
  refine ⟨_, hglobal.announce _, ⟨holds_of_not_isFreeing ?_ rfl, by simp [Pc.own], trivial⟩,
    fun _ => rely_announce⟩
  exact hholds.steady hsteady fun _ _ => trivial

/-- The check: `prev` is guarded and not marked, so `cur` is linked now and the slot guards it. -/
theorem keeps_check (hinv : ThreadInv thread shared ghost ⟨mine, .walk task off (.check prev cur)⟩)
    (hread : shared.heap.read prev = ⟨some cur, false⟩) :
    Keeps thread shared ghost (shared.see thread (some cur)) ⟨mine, .walk task off (.readNext prev cur)⟩ := by
  obtain ⟨hbelow, hpointer⟩ := hinv.see.pc
  have hglobal' : GlobalInv (shared.see thread (some cur)) ghost := hglobal.see
  have hlinked : (shared.see thread (some cur)).custody cur = .linked :=
    hglobal'.custody_of_read hbelow hread
  have hne : slot thread off ≠ slot thread (!off) := by
    intro heq
    simpa using (slot_injective heq).2
  have hsteady : Steady thread (· = slot thread (!off)) (fun _ => True)
      (shared.see thread (some cur)).toHazards ghost.guard (shared.see thread (some cur)).toHazards
      (update ghost.guard (slot thread off) (some cur)) :=
    steady_confirm hne hlinked
  refine ⟨⟨ghost.chain, update ghost.guard (slot thread off) (some cur)⟩,
    { hglobal' with hazards := hglobal'.hazards.confirm hpointer hlinked, bound := ?_ }, ⟨?_, ?_, ?_, ?_⟩, ?_⟩
  · intro i found hguard
    rcases guard_of_set hguard with ⟨rfl, rfl⟩ | hold
    · exact slot_lt thread off
    · exact hglobal.bound i found hold
  · exact hinv.see.holds
  · exact hinv.see.owns
  · exact hbelow.steady hsteady (fun _ _ _ => rfl) rfl
  · exact ⟨update_self _ _ _, current_see_self⟩
  · intro other hother
    have hconfirm : Steady other (OwnSlot other) (shared.HeldBy other) shared.toHazards ghost.guard
        shared.toHazards (update ghost.guard (slot thread off) (some cur)) :=
      steady_confirm (not_ownSlot hother off) hlinked
    exact ⟨hconfirm.see, .of_heap_eq rfl⟩

/-! ### Changing a link of the list -/

theorem GlobalInv.dataSteady_write {old new : Option NodeAddr}
    (hmem : prev ∈ Heap.locs ghost.chain) (hread : shared.heap.read prev = ⟨old, false⟩)
    (hheap : shared'.heap = shared.heap.write prev new) :
    DataSteady thread ghost.guard shared shared' where
  key _ node _ := by rw [hheap, Heap.write_key]
  frozen _ node _ hmark := by
    rw [hheap, Heap.next_write_of_ne]
    rintro rfl
    rw [Heap.read] at hread
    simp [hread] at hmark
  own_key node _ := by rw [hheap, Heap.write_key]
  own_next node howned := by
    rw [hheap, Heap.next_write_of_ne]
    rintro rfl
    exact hglobal.notMem_of_owned howned (Heap.next_mem_locs.mp hmem)

end

def Shared.unlink (shared : Shared n) (thread : Fin n) (prev : Loc) (cur : NodeAddr)
    (next : Option NodeAddr) : Shared n :=
  ⟨shared.toHazards.assign cur (.unlinked thread), shared.heap.write prev next⟩

theorem not_heldBy_of_linked (hlinked : shared.custody cur = .linked) : ¬ shared.HeldBy thread cur := by
  simp [HeldBy, hlinked]

attribute [local simp] Hazards.assign

section

variable (hglobal : GlobalInv shared ghost)
include hglobal

theorem GlobalInv.unlink (hbelow : Below thread shared ghost off key prev)
    (hread : shared.heap.read prev = ⟨some cur, false⟩)
    (hnext : shared.heap.next cur = ⟨next, true⟩) :
    ∃ chain, GlobalInv (shared.unlink thread prev cur next) ⟨chain, ghost.guard⟩ := by
  have hmem := hglobal.mem_locs hbelow (by rw [hread])
  obtain ⟨chain, hvalid, hmembers, _⟩ := hglobal.valid.unlink hmem hread hnext
  refine ⟨chain, hvalid, ?_, ?_, ?_, hglobal.bound⟩
  · intro node
    rw [hmembers, hglobal.linked_iff]
    by_cases heq : node = cur
    · simp [Shared.unlink, heq]
    · simp [Shared.unlink, heq]
  · intro node unlinker hcustody
    rw [Shared.unlink, Heap.mark_write hread]
    by_cases heq : node = cur
    · rw [heq, hnext]
    · simp only [Shared.unlink, Hazards.assign, update_of_ne heq] at hcustody
      exact hglobal.marked node unlinker hcustody
  · exact hglobal.hazards.assign fun _ => trivial

/-- An unlinked node is retired next, and the thread goes on where it can with what it knew. -/
theorem keeps_unlink
    (hholds : shared.Holds thread mine.rlist) (howns : ∀ node, pc.own = some node → shared.Owns thread node)
    (hfreeing : pc.isFreeing = false) (hpc : PcInv thread shared ghost mine.rlist pc)
    (hbelow : Below thread shared ghost (!off) key prev) (hguards : Guards thread shared ghost off cur)
    (hread : shared.heap.read prev = ⟨some cur, false⟩)
    (hnext : shared.heap.next cur = ⟨next, true⟩) :
    Keeps thread shared ghost (shared.unlink thread prev cur next) ⟨mine, .retire cur pc⟩ := by
  have hmem := hglobal.mem_locs hbelow (by rw [hread])
  have hlinked := hglobal.custody_of_read hbelow hread
  obtain ⟨chain, hglobal'⟩ := hglobal.unlink hbelow hread hnext
  have hsteady : ∀ (reader : Fin n) (isOwn : Nat → Prop), Steady reader isOwn (shared.HeldBy reader)
      shared.toHazards ghost.guard (shared.unlink thread prev cur next).toHazards ghost.guard :=
    fun _ _ => steady_assign (not_heldBy_of_linked hlinked)
  have hdata : ∀ reader : Fin n, DataSteady reader ghost.guard shared (shared.unlink thread prev cur next) :=
    fun _ => hglobal.dataSteady_write hmem hread rfl
  refine ⟨_, hglobal', ⟨?_, ?_, hfreeing, ?_⟩, fun other _ => ⟨hsteady other _, hdata other⟩⟩
  · exact (hholds.unlink hlinked hguards.current).perm List.perm_append_comm
  · exact fun node hown => (howns node hown).steady (hsteady thread fun _ => True) (.inl (howns node hown).owned)
  · refine PcInv.steady (hsteady thread fun _ => True) (hdata thread) hpc (fun _ => trivial) ?_ ?_ ?_
    · exact holds_of_not_isFreeing hholds hfreeing
    · intro node hnode
      rw [Pc.pending_eq_nil hfreeing, List.append_nil] at hnode
      exact .inr (hholds.unlinked node hnode)
    · exact fun node hown => (howns node hown).owned

/-! ### Linking and marking -/

theorem keeps_link (hholds : shared.Holds thread mine.rlist) (howns : shared.Owns thread node) {cur : Option NodeAddr}
    (hbelow : Below thread shared ghost (!off) key prev) (habove : Above thread shared ghost off key cur)
    (hkey : shared.heap.key node = key) (hnext : shared.heap.next node = ⟨cur, false⟩)
    (hread : shared.heap.read prev = ⟨cur, false⟩) :
    Keeps thread shared ghost ⟨shared.toHazards.assign node .linked, shared.heap.write prev (some node)⟩
      ⟨mine, .ret true⟩ := by
  subst hkey
  have hnew := hglobal.notMem_of_owned howns.owned
  have hmem := hglobal.mem_locs hbelow (by rw [hread])
  obtain ⟨chain, hvalid, hmembers, _⟩ := hglobal.valid.insert hmem hread
    (fun p hprev => (hbelow p hprev).2) (fun p hcur => (habove p hcur).2) hnew hnext
  refine ⟨⟨chain, ghost.guard⟩, ⟨hvalid, ?_, ?_, hglobal.hazards.assign fun _ => trivial,
    hglobal.bound⟩, ⟨holds_of_not_isFreeing ?_ rfl, by simp [Pc.own], trivial⟩, ?_⟩
  · intro found
    rw [hmembers, hglobal.linked_iff]
    by_cases heq : found = node
    · simp [heq]
    · simp [heq]
  · intro found unlinker hcustody
    have hne : found ≠ node := by
      rintro rfl
      simp at hcustody
    simp only [Hazards.assign, update_of_ne hne] at hcustody
    rw [Heap.mark_write hread]
    exact hglobal.marked found unlinker hcustody
  · have hne : ∀ found ∈ mine.rlist, found ≠ node := by
      rintro found hfound rfl
      simpa [howns.owned] using hholds.unlinked found hfound
    exact hholds.steady (steady_assign fun h => h rfl : Steady thread (fun _ => True) (· ≠ node)
      shared.toHazards ghost.guard _ ghost.guard) hne
  · intro other hne
    refine ⟨steady_assign ?_, hglobal.dataSteady_write hmem hread rfl⟩
    simp [HeldBy, howns.owned, hne.symm]

theorem keeps_mark (hinv : ThreadInv thread shared ghost ⟨mine, .delete key prev cur next .mark⟩)
    (hnext : shared.heap.next cur = ⟨next, false⟩) :
    Keeps thread shared ghost { shared with heap := shared.heap.setMark cur next }
      ⟨mine, .delete key prev cur next .unlink⟩ := by
  obtain ⟨⟨off, hbelow, hguards⟩, _⟩ := hinv.pc
  have hmem := hglobal.mem_chain hguards.guard (by rw [hnext])
  have hdata : ∀ reader : Fin n, DataSteady reader ghost.guard shared
      { shared with heap := shared.heap.setMark cur next } := by
    intro reader
    refine ⟨fun _ _ _ => rfl, ?_, fun _ _ => rfl, ?_⟩
    · intro _ node _ hmark
      apply update_of_ne
      rintro rfl
      simp [hnext] at hmark
    · intro node howned
      apply update_of_ne
      rintro rfl
      exact hglobal.notMem_of_owned howned hmem
  refine ⟨ghost, { hglobal with valid := hglobal.valid.mark hnext, marked := ?_ },
    ⟨hinv.holds, hinv.owns, ⟨off, ?_, hguards.guard, hguards.current⟩, ?_⟩, fun other _ =>
      ⟨.refl, hdata other⟩⟩
  · intro node unlinker hcustody
    have hmark := hglobal.marked node unlinker hcustody
    by_cases heq : node = cur
    · simp [Heap.setMark, heq]
    · simpa [Heap.setMark, heq] using hmark
  · intro node hprev
    exact ⟨⟨(hbelow node hprev).1.guard, (hbelow node hprev).1.current⟩, (hbelow node hprev).2⟩
  · simp [DeleteInv, Heap.setMark]

/-! ### Nodes outside the list -/

theorem keeps_private {heap : Heap}
    (howned : shared.custody node = .owned thread) (hsame : Heap.SameExcept node shared.heap heap)
    (hinv : ThreadInv thread { shared with heap := heap } ghost priv) :
    Keeps thread shared ghost { shared with heap := heap } priv := by
  refine ⟨ghost, ⟨hglobal.valid.sameExcept hsame (hglobal.notMem_of_owned howned),
    hglobal.linked_iff, ?_, hglobal.hazards, hglobal.bound⟩, hinv, ?_⟩
  · intro found unlinker hcustody
    have hne : found ≠ node := by
      rintro rfl
      simp [howned] at hcustody
    rw [hsame.next found hne]
    exact hglobal.marked found unlinker hcustody
  · intro other hne
    refine ⟨.refl, .of_sameExcept hsame (hglobal.unguarded_of_owned howned) ?_⟩
    simp [howned, hne.symm]

end

section Renew

variable {hazards : Hazards (Fin n) Nat NodeAddr}

theorem GlobalInv.renew (hglobal : GlobalInv shared ghost) (hlinked : shared.custody node ≠ .linked)
    (hcustody : ∀ found, found ≠ node → hazards.custody found = shared.custody found)
    (hinUse : ¬ (hazards.custody node).InUse) (hvalid : hazards.Valid ghost.guard) :
    GlobalInv ⟨hazards, shared.heap.scribble node key link⟩ ghost := by
  have hnotMem : node ∉ ghost.chain := by rwa [hglobal.linked_iff]
  have hsame := shared.heap.sameExcept_scribble node key link
  refine ⟨hglobal.valid.sameExcept hsame hnotMem, ?_, ?_, hvalid, hglobal.bound⟩
  · intro found
    by_cases heq : found = node
    · subst heq
      refine ⟨fun hmem => absurd hmem hnotMem, fun hfound => absurd ?_ hinUse⟩
      simp only at hfound
      rw [hfound]
      trivial
    · rw [hglobal.linked_iff, hcustody found heq]
  · intro found unlinker hfound
    have hne : found ≠ node := by
      rintro rfl
      simp only at hfound
      rw [hfound] at hinUse
      exact hinUse trivial
    simp only [hcustody found hne] at hfound
    rw [hsame.next found hne]
    exact hglobal.marked found unlinker hfound

end Renew

section

variable (hglobal : GlobalInv shared ghost)
include hglobal

theorem keeps_newNode {insertKey : Int} (hinv : ThreadInv thread shared ghost ⟨mine, .newNode insertKey⟩)
    (hfree : shared.custody node = .free) :
    Keeps thread shared ghost (shared.newNode thread node key link)
      ⟨mine, .walk (.insert insertKey node) false .load⟩ := by
  have hheld : ∀ reader, ¬ shared.HeldBy reader node := by simp [HeldBy, hfree]
  have hclear : ∀ i, ghost.guard i ≠ some node :=
    hglobal.hazards.unguarded (by simp [hfree, Custody.InUse])
  have hsteady : ∀ (reader : Fin n) (isOwn : Nat → Prop), Steady reader isOwn (shared.HeldBy reader)
      shared.toHazards ghost.guard (shared.newNode thread node key link).toHazards ghost.guard :=
    fun reader _ => (steady_assign (hheld reader)).load
  refine ⟨ghost, ?_, ⟨?_, ?_, trivial⟩, ?_⟩
  · refine hglobal.renew (by simp [hfree]) ?_ ?_ (hglobal.hazards.assign ?_).load
    · exact fun found hne => update_of_ne hne _ _
    · simp [Hazards.load, Hazards.see, Custody.InUse]
    · simp [hfree, Custody.InUse]
  · exact hinv.holds.steady (hsteady thread fun _ => True) fun found hmem => .inr (hinv.holds.unlinked found hmem)
  · intro found hown
    obtain rfl : node = found := Option.some.inj hown
    exact ⟨by simp [Shared.newNode, Hazards.load, Hazards.see],
      current_see_self⟩
  · intro other _
    refine ⟨hsteady other _, .of_sameExcept (shared.heap.sameExcept_scribble node key link) hclear ?_⟩
    simp [hfree]

theorem keeps_free (hheld : shared.HeldBy thread node) (hclear : ∀ i, ghost.guard i ≠ some node)
    (hinv : ThreadInv thread (shared.free node key link) ghost priv) :
    Keeps thread shared ghost (shared.free node key link) priv := by
  refine ⟨ghost, ?_, hinv, ?_⟩
  · refine hglobal.renew ?_ ?_ ?_ (hglobal.hazards.free hclear)
    · intro hlinked
      exact not_heldBy_of_linked hlinked hheld
    · exact fun found hne => update_of_ne hne _ _
    · simp [Hazards.free, Custody.InUse]
  · intro other hne
    have hother : ¬ shared.HeldBy other node := by
      rintro (howned | hunlinked)
      · rcases hheld with h | h <;> simp_all
      · rcases hheld with h | h <;> simp_all
    refine ⟨steady_free hclear hother, .of_sameExcept (shared.heap.sameExcept_scribble node key link) hclear ?_⟩
    exact fun howned => hother (.inl howned)

theorem keeps_freeNode (hinv : ThreadInv thread shared ghost ⟨mine, .freeNode node⟩) :
    Keeps thread shared ghost (shared.free node key link) ⟨mine, .ret false⟩ := by
  have howned := (hinv.owns node rfl).owned
  refine keeps_free hglobal (.inl howned) (hglobal.unguarded_of_owned howned) ⟨?_, by simp [Pc.own], trivial⟩
  have hne : ∀ found ∈ mine.rlist ++ [], found ≠ node := by
    rintro found hfound rfl
    simpa [howned] using hinv.holds.unlinked found hfound
  exact hinv.holds.steady (steady_free (hglobal.unguarded_of_owned howned) fun h => h rfl :
    Steady thread (fun _ => True) (· ≠ node) shared.toHazards ghost.guard _ ghost.guard) hne

/-- The scan frees a node: nobody guards it, and it is the thread's own to free. -/
theorem keeps_sweep {scanPc scanPc' : ScanPc} (hinv : ThreadInv thread shared ghost ⟨mine, .scan scanPc pc⟩)
    (hunneeded : scanPc.unneeded = some (node, scanPc')) :
    Keeps thread shared ghost (shared.free node key link) ⟨mine, .scan scanPc' pc⟩ := by
  obtain ⟨hscan, hfreeing, hback⟩ := hinv.pc
  obtain ⟨htmplist, hscan', hclear⟩ := hscan.unneeded hglobal.bound hunneeded
  have hperm : (node :: (mine.rlist ++ scanPc'.tmplist)).Perm (mine.rlist ++ scanPc.tmplist) := by
    rw [htmplist]
    exact List.perm_middle.symm
  have hholds := hinv.holds.perm hperm
  have hsteady : Steady thread (fun _ => True) (· ≠ node) shared.toHazards ghost.guard
      (shared.free node key link).toHazards ghost.guard :=
    steady_free hclear fun h => h rfl
  have hunlinked := hholds.unlinked node List.mem_cons_self
  refine keeps_free hglobal (.inr hunlinked) hclear ⟨hholds.free, ?_, hscan', hfreeing, ?_⟩
  · intro found hown
    refine (hinv.owns found hown).steady hsteady ?_
    rintro rfl
    simp [(hinv.owns found hown).owned] at hunlinked
  · refine PcInv.steady hsteady ?_ hback (fun _ => trivial) (holds_of_not_isFreeing hinv.holds.left hfreeing) ?_
      fun found hown => (hinv.owns found hown).owned
    · refine .of_sameExcept (shared.heap.sameExcept_scribble node key link) hclear ?_
      simp [hunlinked]
    · intro found hfound
      rw [Pc.pending_eq_nil hfreeing, List.append_nil] at hfound
      rintro rfl
      exact (List.nodup_cons.mp hholds.nodup).1 (List.mem_append_left _ hfound)

end

/-! ### The steps of `free_node_later` that free nothing -/

theorem keeps_retire (hglobal : GlobalInv shared ghost) (hinv : ThreadInv thread shared ghost ⟨mine, .retire node pc⟩) :
    Keeps thread shared ghost shared ⟨mine.push node, afterPush n (mine.push node) pc⟩ := by
  obtain ⟨hfreeing, hback⟩ := hinv.pc
  have hholds : shared.Holds thread (mine.push node).rlist :=
    hinv.holds.perm (List.perm_append_comm : ([node] ++ mine.rlist).Perm (mine.rlist ++ [node]))
  apply keeps_of_threadInv hglobal
  unfold afterPush
  split
  · refine ⟨?_, hinv.owns, scanInv_start, hfreeing, hback.of_not_isFreeing hfreeing _⟩
    simpa [Pc.pending, ScanPc.tmplist] using hholds
  · exact ⟨holds_of_not_isFreeing hholds hfreeing, hinv.owns, hback.of_not_isFreeing hfreeing _⟩

theorem keeps_scanStep {scanPc scanPc' : ScanPc} {mine' : ThisThread}
    (hglobal : GlobalInv shared ghost) (hinv : ThreadInv thread shared ghost ⟨mine, .scan scanPc pc⟩)
    (hstep : scanStep n shared.pointer mine scanPc = some (mine', scanPc')) :
    Keeps thread shared ghost shared ⟨mine', .scan scanPc' pc⟩ := by
  obtain ⟨hscan, hfreeing, hback⟩ := hinv.pc
  apply keeps_of_threadInv hglobal
  refine ⟨hinv.holds.perm (scanStep_perm hstep), hinv.owns, hscan.step hglobal.hazards hstep,
    hfreeing, hback.of_not_isFreeing hfreeing _⟩

theorem keeps_scanDone {scanPc : ScanPc} (hglobal : GlobalInv shared ghost)
    (hinv : ThreadInv thread shared ghost ⟨mine, .scan scanPc pc⟩) :
    Keeps thread shared ghost shared ⟨mine, pc⟩ := by
  obtain ⟨_, hfreeing, hback⟩ := hinv.pc
  exact keeps_of_threadInv hglobal ⟨holds_of_not_isFreeing hinv.holds.left hfreeing, hinv.owns, hback⟩

end Lfmr.HazardList
