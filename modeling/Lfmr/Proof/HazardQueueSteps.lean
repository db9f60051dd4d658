import Lfmr.Proof.HazardQueueInvariant

/-!
# The accesses of the queue with hazard pointers keep its invariant
-/

namespace Lfmr.HazardQueue

open Function Lfmr.Concurrency Lfmr.Concurrency.Hazards Lfmr.Smr

variable {n : Nat} {shared shared' : Shared n} {ghost ghost' : Ghost} {thread other : Fin n}
  {off : Bool} {node t h next : NodeAddr} {target succ : Option NodeAddr} {key data : Int}
  {mine : ThisThread} {pc : Pc} {priv : Priv}

abbrev Keeps (thread : Fin n) := Concurrency.Keeps GlobalInv ThreadInv Rely thread

section

variable (hglobal : GlobalInv shared ghost)
include hglobal

theorem keeps_of_threadInv (hinv : ThreadInv thread shared ghost priv) : Keeps thread shared ghost shared priv :=
  ⟨ghost, hglobal, hinv, fun _ _ => .refl⟩

theorem GlobalInv.head_linked : shared.custody shared.memory.head = .linked :=
  (hglobal.linked_iff _).mp List.mem_cons_self

theorem GlobalInv.tail_linked : shared.custody shared.memory.tail = .linked :=
  (hglobal.linked_iff _).mp hglobal.valid.tail_mem

theorem GlobalInv.linked_of_next_eq_none {i : Nat}
    (hguard : ghost.guard i = some node) (hnext : shared.memory.next node = none) :
    shared.custody node = .linked := by
  have hinUse := hglobal.hazards.inUse i node hguard
  cases hcustody : shared.custody node with
  | linked => rfl
  | unlinked unlinker => exact absurd hnext (hglobal.unlinked_next node unlinker hcustody)
  | free | owned owner => simp [hcustody, Custody.InUse] at hinUse

theorem GlobalInv.notMem_of_owned
    (howned : shared.custody node = .owned thread) : node ∉ shared.memory.head :: ghost.rest := by
  rw [hglobal.linked_iff, howned]
  simp

theorem GlobalInv.unguarded_of_owned
    (howned : shared.custody node = .owned thread) (i : Nat) : ghost.guard i ≠ some node :=
  hglobal.hazards.unguarded (by simp [howned, Custody.InUse]) i

end

theorem GlobalInv.see (hglobal : GlobalInv shared ghost) : GlobalInv (shared.see thread target) ghost :=
  { hglobal with hazards := hglobal.hazards.see }

theorem rely_see : Rely other (shared, ghost) (shared.see thread target, ghost) :=
  ⟨Steady.refl.see, .of_memory_eq rfl, .of_eq rfl rfl rfl⟩

theorem rely_load : Rely other (shared, ghost) (shared.load thread target, ghost) :=
  ⟨Steady.refl.load, .of_memory_eq rfl, .of_eq rfl rfl rfl⟩

section

variable (hglobal : GlobalInv shared ghost)
include hglobal

theorem keeps_see (hinv : ThreadInv thread shared ghost priv) :
    Keeps thread shared ghost (shared.see thread target) priv :=
  ⟨ghost, hglobal.see, rely_see.threadInv hglobal hinv, fun _ _ => rely_see⟩

theorem GlobalInv.load : GlobalInv (shared.load thread target) ghost :=
  { hglobal with hazards := hglobal.hazards.load }

theorem keeps_load (hinv : ThreadInv thread shared ghost priv) :
    Keeps thread shared ghost (shared.load thread target) priv :=
  ⟨ghost, hglobal.load, rely_load.threadInv hglobal hinv, fun _ _ => rely_load⟩

/-- A pointer that is read now is that of a node that has not been freed since. -/
theorem keeps_load_self (hinv : ThreadInv thread (shared.load thread target) ghost priv) :
    Keeps thread shared ghost (shared.load thread target) priv :=
  ⟨ghost, hglobal.load, hinv, fun _ _ => rely_load⟩

end

theorem keeps_announce (hglobal : GlobalInv shared ghost)
    (hinv : ThreadInv thread (shared.announce (slot thread off) target)
      ⟨ghost.rest, update ghost.guard (slot thread off) none⟩ priv) :
    Keeps thread shared ghost (shared.announce (slot thread off) target) priv := by
  refine ⟨⟨ghost.rest, update ghost.guard (slot thread off) none⟩,
    { hglobal with hazards := hglobal.hazards.announce _ target, bound := ?_ }, hinv, fun other hne => ?_⟩
  · exact fun i node hguard => hglobal.bound i node (guard_of_clear hguard)
  · exact ⟨steady_announce (not_ownSlot hne off), .of_memory_eq rfl, .of_eq rfl rfl rfl⟩

/-- A node is linked after it has been announced, so the slot guards it. -/
theorem keeps_confirm (hglobal : GlobalInv shared ghost) (hpointer : shared.pointer (slot thread off) = some node)
    (hlinked : shared.custody node = .linked)
    (hinv : ThreadInv thread (shared.see thread target)
      ⟨ghost.rest, update ghost.guard (slot thread off) (some node)⟩ priv) :
    Keeps thread shared ghost (shared.see thread target) priv := by
  refine ⟨⟨ghost.rest, update ghost.guard (slot thread off) (some node)⟩,
    { hglobal with hazards := (hglobal.hazards.confirm hpointer hlinked).see, bound := ?_ }, hinv, fun other hne => ?_⟩
  · intro i found hguard
    rcases guard_of_set hguard with ⟨rfl, rfl⟩ | hold
    · exact slot_lt thread off
    · exact hglobal.bound i found hold
  · have hconfirm : Steady other (OwnSlot other) (shared.HeldBy other) shared.toHazards ghost.guard
        shared.toHazards (update ghost.guard (slot thread off) (some node)) :=
      steady_confirm (not_ownSlot hne off) hlinked
    exact ⟨hconfirm.see, .of_memory_eq rfl, .of_eq rfl rfl rfl⟩

theorem slot_true_ne (thread : Fin n) : slot thread false ≠ slot thread true := by
  intro heq
  simpa using (slot_injective heq).2

theorem Guards.of_second {guard : Option NodeAddr} (hguards : Guards thread shared ghost false node)
    (hcurrent : shared.Current thread node → shared'.Current thread node) :
    Guards thread shared' ⟨ghost.rest, update ghost.guard (slot thread true) guard⟩ false node where
  guard := (update_of_ne (slot_true_ne thread) _ _).trans hguards.guard
  current := hcurrent hguards.current

theorem holds_of_pending_eq_nil {rlist : List NodeAddr} (hholds : shared.Holds thread rlist)
    (hpending : pc.pending = []) : shared.Holds thread (rlist ++ pc.pending) := by
  rwa [hpending, List.append_nil]

attribute [local simp] Hazards.assign Pc.own

section

variable (hglobal : GlobalInv shared ghost)
include hglobal

theorem keeps_casTail (hnext : shared.memory.next t = some next)
    (hinv : ThreadInv thread { shared with memory := shared.memory.casTail t next } ghost priv) :
    Keeps thread shared ghost { shared with memory := shared.memory.casTail t next } priv := by
  unfold Memory.casTail at hinv ⊢
  split
  · rename_i htail
    subst htail
    rw [if_pos rfl] at hinv
    refine ⟨ghost, { hglobal with valid := hglobal.valid.moveTail hnext }, hinv, fun other _ => ⟨.refl, ?_, ?_⟩⟩
    · exact ⟨fun _ _ _ => rfl, fun _ _ _ _ hsucc => hsucc, fun _ _ => rfl, fun _ _ => rfl⟩
    · refine ⟨fun _ _ _ hseen => hseen, fun _ h _ hpassed => ?_, fun _ _ _ hlinked => hlinked, fun _ _ => rfl⟩
      rcases hpassed with ⟨rfl, _⟩ | hunlinked
      · refine .inl ⟨rfl, ?_⟩
        rintro rfl
        have hmem := hglobal.valid.next_mem hglobal.valid.tail_mem hnext
        exact (List.nodup_cons.mp hglobal.valid.nodup).1 hmem
      · exact .inr hunlinked
  · rename_i htail
    rw [if_neg htail] at hinv
    exact keeps_of_threadInv hglobal hinv

theorem keeps_link (hinv : ThreadInv thread shared ghost ⟨mine, .enqueue key node (.link t)⟩)
    (hnext : shared.memory.next t = none) :
    Keeps thread shared ghost ⟨shared.toHazards.assign node .linked, shared.memory.link t node key⟩
      ⟨mine, .enqueue key node (.swingTail t)⟩ := by
  obtain ⟨⟨rfl, hnode⟩, hguards⟩ := hinv.pc
  have howns := hinv.owns node rfl
  have hnew := hglobal.notMem_of_owned howns.owned
  have hlinked := hglobal.linked_of_next_eq_none hguards.guard hnext
  have hmem := (hglobal.linked_iff t).mpr hlinked
  have hne : t ≠ node := fun heq => hnew (heq ▸ hmem)
  have hcustody : ∀ found, found ≠ node → (shared.toHazards.assign node .linked).custody found = shared.custody found :=
    fun found hfound => update_of_ne hfound _ _
  refine ⟨⟨ghost.rest ++ [node], ghost.guard⟩,
    ⟨hglobal.valid.link hmem hnext hnew hnode, ?_, ?_, hglobal.hazards.assign fun _ => trivial,
      hglobal.bound⟩, ⟨holds_of_pending_eq_nil ?_ rfl, by simp, ?_, ?_⟩, ?_⟩
  · intro found
    by_cases heq : found = node
    · simp [heq]
    · rw [hcustody found heq, ← hglobal.linked_iff]
      simp [Memory.link, Memory.setNext, heq]
  · intro found unlinker hunlinked
    have hfound : found ≠ node := by
      rintro rfl
      simp at hunlinked
    have hsome := hglobal.unlinked_next found unlinker ((hcustody found hfound).symm.trans hunlinked)
    by_cases heq : found = t
    · simp [Memory.link, Memory.setNext, heq]
    · simpa [Memory.link, Memory.setNext, heq] using hsome
  · have hholds := hinv.holds.left
    have hfound : ∀ found ∈ mine.rlist, found ≠ node := by
      rintro found hfound rfl
      simpa [howns.owned] using hholds.unlinked found hfound
    exact hholds.steady (steady_assign fun h => h rfl : Steady thread (fun _ => True) (· ≠ node)
      shared.toHazards ghost.guard _ ghost.guard) hfound
  · exact ⟨hguards.guard, hguards.current⟩
  · exact ⟨update_self _ _ _, fun _ => howns.current⟩
  · intro other hother
    refine ⟨steady_assign (by simp [HeldBy, howns.owned, hother.symm]), ⟨fun _ _ _ => rfl, ?_,
      fun _ _ => rfl, ?_⟩, .of_custody rfl rfl ?_ fun _ _ => rfl⟩
    · intro _ cell succ _ hsucc
      refine (update_of_ne ?_ _ _).trans hsucc
      rintro rfl
      simp [hnext] at hsucc
    · intro cell hcell
      apply update_of_ne
      rintro rfl
      simp [hlinked] at hcell
    · intro i found hguard
      apply hcustody
      rintro rfl
      exact hglobal.unguarded_of_owned howns.owned i hguard

theorem GlobalInv.not_isUnlinked_head : ¬ IsUnlinked shared shared.memory.head := by
  rintro ⟨unlinker, hunlinked⟩
  simp [hglobal.head_linked] at hunlinked

theorem keeps_unlink (hinv : ThreadInv thread shared ghost ⟨mine, .dequeue (.swingHead h next data)⟩)
    (hhead : shared.memory.head = h) :
    Keeps thread shared ghost ⟨shared.toHazards.assign h (.unlinked thread), shared.memory.unlink next data⟩
      ⟨mine, .clear1 (some h) (.value data)⟩ := by
  subst hhead
  obtain ⟨hguards, hpassed, hfollows, _, rfl⟩ := hinv.pc
  have hlinked := hglobal.head_linked
  have htail : shared.memory.tail ≠ shared.memory.head := by
    rcases hpassed with ⟨_, hne⟩ | hunlinked
    · exact hne
    · exact absurd hunlinked hglobal.not_isUnlinked_head
  obtain ⟨rest, hrest, hvalid⟩ := hglobal.valid.unlink hfollows.next htail
  have hnodup := hglobal.valid.nodup
  have hmembers := hglobal.linked_iff
  rw [hrest] at hnodup
  simp only [hrest] at hmembers
  have hcustody : ∀ found, found ≠ shared.memory.head →
      (shared.toHazards.assign shared.memory.head (.unlinked thread)).custody found = shared.custody found :=
    fun found hfound => update_of_ne hfound _ _
  have hgone : (shared.toHazards.assign shared.memory.head (.unlinked thread)).custody
      shared.memory.head = .unlinked thread := update_self _ _ _
  refine ⟨⟨rest, ghost.guard⟩, ⟨hvalid, ?_, ?_, hglobal.hazards.assign fun _ => trivial, hglobal.bound⟩,
    ⟨?_, by simp, trivial⟩, ?_⟩
  · intro found
    by_cases heq : found = shared.memory.head
    · subst heq
      rw [hgone]
      simpa [Memory.unlink] using (List.nodup_cons.mp hnodup).1
    · have hfound := hmembers found
      rw [List.mem_cons, or_iff_right heq] at hfound
      rw [hcustody found heq, ← hfound]
      rfl
  · intro found unlinker hunlinked
    by_cases heq : found = shared.memory.head
    · simp [Memory.unlink, heq, hfollows.next]
    · exact hglobal.unlinked_next found unlinker ((hcustody found heq).symm.trans hunlinked)
  · exact (hinv.holds.left.unlink hlinked hguards.current).perm List.perm_append_comm
  · intro other _
    refine ⟨steady_assign (by simp [HeldBy, hlinked]), ⟨fun _ _ _ => rfl, fun _ _ _ _ hsucc => hsucc,
      fun _ _ => rfl, fun _ _ => rfl⟩, ?_⟩
    refine ⟨fun _ h _ hseen => ?_, fun _ h _ hpassed => ?_, fun _ found _ hfound => ?_, fun _ _ => rfl⟩
    · by_cases heq : h = shared.memory.head
      · exact .inr ⟨thread, heq ▸ hgone⟩
      · obtain ⟨unlinker, hunlinked⟩ := hseen.resolve_left (Ne.symm heq)
        exact .inr ⟨unlinker, (hcustody h heq).trans hunlinked⟩
    · by_cases heq : h = shared.memory.head
      · exact .inr ⟨thread, heq ▸ hgone⟩
      · obtain ⟨unlinker, hunlinked⟩ := hpassed.resolve_left fun hboth => heq hboth.1.symm
        exact .inr ⟨unlinker, (hcustody h heq).trans hunlinked⟩
    · by_cases heq : found = shared.memory.head
      · exact heq ▸ hlinked
      · exact (hcustody found heq).symm.trans hfound

theorem keeps_private {memory : Memory} (howned : shared.custody node = .owned thread)
    (hsame : Memory.SameExcept node shared.memory memory)
    (hinv : ThreadInv thread { shared with memory := memory } ghost priv) :
    Keeps thread shared ghost { shared with memory := memory } priv := by
  refine ⟨ghost, ⟨hglobal.valid.sameExcept hsame (hglobal.notMem_of_owned howned), ?_, ?_,
    hglobal.hazards, hglobal.bound⟩, hinv, fun other hne => ⟨.refl, ?_, ?_⟩⟩
  · intro found
    simp only [hsame.head]
    exact hglobal.linked_iff found
  · intro found unlinker hunlinked
    have hfound : found ≠ node := by
      rintro rfl
      simp [howned] at hunlinked
    simp only [hsame.next found hfound]
    exact hglobal.unlinked_next found unlinker hunlinked
  · exact .of_sameExcept hsame (hglobal.unguarded_of_owned howned) (by simp [howned, hne.symm])
  · exact .of_custody hsame.head hsame.tail (fun _ _ _ => rfl) fun _ _ => rfl

end

section Renew

variable {hazards : Hazards (Fin n) Nat NodeAddr}
  (hcustody : ∀ found, found ≠ node → hazards.custody found = shared.custody found)
  (hlinked : shared.custody node ≠ .linked)

include hcustody hlinked

theorem GlobalInv.renew (hglobal : GlobalInv shared ghost) (hinUse : ¬ (hazards.custody node).InUse)
    (hvalid : hazards.Valid ghost.guard) :
    GlobalInv ⟨hazards, shared.memory.scribble node key succ⟩ ghost := by
  have hnotMem : node ∉ shared.memory.head :: ghost.rest := by rwa [hglobal.linked_iff]
  have hsame := shared.memory.sameExcept_scribble node key succ
  refine ⟨hglobal.valid.sameExcept hsame hnotMem, ?_, ?_, hvalid, hglobal.bound⟩
  · intro found
    by_cases heq : found = node
    · subst heq
      refine ⟨fun hmem => absurd hmem hnotMem, fun hfound => absurd ?_ hinUse⟩
      simp only at hfound
      rw [hfound]
      trivial
    · rw [hcustody found heq, ← hglobal.linked_iff]
      rfl
  · intro found unlinker hfound
    have hne : found ≠ node := by
      rintro rfl
      simp only at hfound
      rw [hfound] at hinUse
      exact hinUse trivial
    simp only [hcustody found hne] at hfound
    rw [hsame.next found hne]
    exact hglobal.unlinked_next found unlinker hfound

theorem rely_renew (hsteady : Steady other (OwnSlot other) (shared.HeldBy other) shared.toHazards ghost.guard hazards
      ghost.guard)
    (hclear : ∀ i, ghost.guard i ≠ some node) (howned : shared.custody node ≠ .owned other)
    (hfrees : ∀ found, found ≠ node → hazards.frees found = shared.frees found) :
    Rely other (shared, ghost) (⟨hazards, shared.memory.scribble node key succ⟩, ghost) where
  hazards := hsteady
  data := .of_sameExcept (shared.memory.sameExcept_scribble node key succ) hclear howned
  ends := by
    refine .of_custody rfl rfl ?_ ?_
    · intro i found hguard
      exact hcustody found fun heq => hclear i (heq ▸ hguard)
    · intro found hfound
      exact hfrees found fun heq => hlinked (heq ▸ hfound)

end Renew

section

variable (hglobal : GlobalInv shared ghost)
include hglobal

theorem keeps_newNode {enqueueKey : Int} (hinv : ThreadInv thread shared ghost ⟨mine, .newNode enqueueKey⟩)
    (hfree : shared.custody node = .free) :
    Keeps thread shared ghost (shared.newNode thread node key succ) ⟨mine, .enqueue enqueueKey node .writeKey⟩ := by
  have hheld : ∀ reader, ¬ shared.HeldBy reader node := by simp [HeldBy, hfree]
  have hclear : ∀ i, ghost.guard i ≠ some node :=
    hglobal.hazards.unguarded (by simp [hfree, Custody.InUse])
  have hsteady : ∀ (reader : Fin n) (isOwn : Nat → Prop), Steady reader isOwn (shared.HeldBy reader)
      shared.toHazards ghost.guard (shared.newNode thread node key succ).toHazards ghost.guard :=
    fun reader _ => (steady_assign (hheld reader)).load
  have hcustody : ∀ found, found ≠ node → (shared.newNode thread node key succ).custody found = shared.custody found :=
    fun found hne => update_of_ne hne _ _
  refine ⟨ghost, ?_, ⟨?_, ?_, trivial⟩, ?_⟩
  · refine hglobal.renew hcustody (by simp [hfree]) ?_ (hglobal.hazards.assign ?_).load
    · simp [Hazards.load, Hazards.see, Custody.InUse]
    · simp [hfree, Custody.InUse]
  · exact hinv.holds.steady (hsteady thread fun _ => True) fun found hmem => .inr (hinv.holds.unlinked found hmem)
  · intro found hown
    obtain rfl : node = found := Option.some.inj hown
    exact ⟨by simp [Shared.newNode, Hazards.load, Hazards.see], current_see_self⟩
  · exact fun other _ => rely_renew hcustody (by simp [hfree]) (hsteady other _) hclear
      (by simp [hfree]) fun _ _ => rfl

theorem keeps_sweep {scanPc scanPc' : ScanPc} {back : Back}
    (hinv : ThreadInv thread shared ghost ⟨mine, .scan scanPc back⟩)
    (hunneeded : scanPc.unneeded = some (node, scanPc')) :
    Keeps thread shared ghost (shared.free node key succ) ⟨mine, .scan scanPc' back⟩ := by
  obtain ⟨htmplist, hscan', hclear⟩ := ScanInv.unneeded hinv.pc hglobal.bound hunneeded
  have hperm : (node :: (mine.rlist ++ scanPc'.tmplist)).Perm (mine.rlist ++ scanPc.tmplist) := by
    rw [htmplist]
    exact List.perm_middle.symm
  have hholds := hinv.holds.perm hperm
  have hunlinked := hholds.unlinked node List.mem_cons_self
  have hcustody : ∀ found, found ≠ node → (shared.free node key succ).custody found = shared.custody found :=
    fun found hne => update_of_ne hne _ _
  refine ⟨ghost, ?_, ⟨hholds.free, by simp, hscan'⟩, fun other hne => ?_⟩
  · refine hglobal.renew hcustody (by simp [hunlinked]) ?_ (hglobal.hazards.free hclear)
    simp [Hazards.free, Custody.InUse]
  · refine rely_renew hcustody (by simp [hunlinked]) (steady_free hclear ?_) hclear
      (by simp [hunlinked]) fun found hfound => update_of_ne hfound _ _
    simp [HeldBy, hunlinked, hne.symm]

/-! ### The steps of `free_node_later` that free nothing -/

theorem keeps_retire {result : Result} (hinv : ThreadInv thread shared ghost ⟨mine, .retire node result⟩) :
    Keeps thread shared ghost shared ⟨mine.push node, afterPush n (mine.push node) result⟩ := by
  have hholds : shared.Holds thread (mine.push node).rlist :=
    hinv.holds.perm (List.perm_append_comm : ([node] ++ mine.rlist).Perm (mine.rlist ++ [node]))
  apply keeps_of_threadInv hglobal
  unfold afterPush
  split
  · exact ⟨holds_of_pending_eq_nil hholds rfl, by simp, (scanInv_start : ScanInv n _ _ _)⟩
  · exact ⟨holds_of_pending_eq_nil hholds rfl, by simp, trivial⟩

theorem keeps_scanStep {scanPc scanPc' : ScanPc} {back : Back} {mine' : ThisThread}
    (hinv : ThreadInv thread shared ghost ⟨mine, .scan scanPc back⟩)
    (hstep : scanStep n shared.pointer mine scanPc = some (mine', scanPc')) :
    Keeps thread shared ghost shared ⟨mine', .scan scanPc' back⟩ :=
  keeps_of_threadInv hglobal ⟨hinv.holds.perm (scanStep_perm hstep), by simp,
    ScanInv.step hinv.pc hglobal.hazards hstep⟩

end

end Lfmr.HazardQueue
