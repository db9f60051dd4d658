import Lfmr.Proof.HazardSteps

/-!
# The runs of the list with hazard pointers

Every access keeps the invariant, so it holds in every state of every run. It says of each node that a
thread uses that the node is guarded, or owned, or still to be freed by the thread itself.
-/

namespace Lfmr.HazardList

open Lfmr.Concurrency Lfmr.Concurrency.Hazards Lfmr.MarkedList Lfmr.Smr

variable {n : Nat} {shared shared' : Shared n} {ghost : Ghost} {thread : Fin n} {off : Bool}
  {prev : Loc} {cur node : NodeAddr} {next : Option NodeAddr} {key : Int} {task : Task}
  {mine : ThisThread} {pc : Pc} {priv : Priv} {choice : Choice}

structure Walking (thread : Fin n) (shared : Shared n) (mine : ThisThread) (task : Task) : Prop where
  holds : shared.Holds thread mine.rlist
  owns : ∀ node, task.own = some node → shared.Owns thread node

section

variable (hwalking : Walking thread shared mine task)
include hwalking

theorem Walking.threadInv {walkPc : WalkPc} (hinv : WalkInv thread shared ghost task.key off walkPc) :
    ThreadInv thread shared ghost ⟨mine, .walk task off walkPc⟩ :=
  ⟨holds_of_not_isFreeing hwalking.holds rfl, hwalking.owns, hinv⟩

theorem Walking.ret (result : Bool) : ThreadInv thread shared ghost ⟨mine, .ret result⟩ :=
  ⟨holds_of_not_isFreeing hwalking.holds rfl, by simp [Pc.own], trivial⟩

section

variable (hbelow : Below thread shared ghost (!off) task.key prev)
include hbelow

theorem Walking.notFound {cur : Option NodeAddr} (habove : Above thread shared ghost off task.key cur) :
    ThreadInv thread shared ghost ⟨mine, notFound task prev cur⟩ := by
  cases task with
  | insert key node =>
    exact ⟨holds_of_not_isFreeing hwalking.holds rfl, hwalking.owns, ⟨off, hbelow, habove⟩, trivial⟩
  | delete key | search key => exact hwalking.ret false

theorem Walking.found (hguards : Guards thread shared ghost off cur) :
    ThreadInv thread shared ghost ⟨mine, found task prev cur next⟩ := by
  cases task with
  | insert key node => exact ⟨holds_of_not_isFreeing hwalking.holds rfl, hwalking.owns, trivial⟩
  | delete key =>
    exact ⟨holds_of_not_isFreeing hwalking.holds rfl, by simp [HazardList.found, Pc.own],
      ⟨off, hbelow, hguards⟩, trivial⟩
  | search key => exact hwalking.ret true

theorem Walking.loop : ThreadInv thread shared ghost ⟨mine, loop task off prev next⟩ := by
  cases next with
  | none => exact hwalking.notFound hbelow (by simp [Above])
  | some cur => exact hwalking.threadInv hbelow

end

theorem Walking.advance (hguards : Guards thread shared ghost off cur) (hlt : shared.heap.key cur < task.key) :
    ThreadInv thread shared ghost ⟨mine, HazardList.loop task (!off) (.next cur) next⟩ := by
  apply hwalking.loop
  intro node heq
  obtain rfl := Loc.next.inj heq
  rw [Bool.not_not]
  exact ⟨hguards, hlt⟩

end

theorem below_head : Below thread shared ghost off key .head := by
  simp [Below]

theorem loop_isFreeing (task : Task) (off : Bool) (prev : Loc) (next : Option NodeAddr) :
    (loop task off prev next).isFreeing = false := by
  cases next with
  | none => cases task <;> rfl
  | some cur => rfl

theorem walkStep_keeps {walkPc : WalkPc} (hglobal : GlobalInv shared ghost)
    (hinv : ThreadInv thread shared ghost ⟨mine, .walk task off walkPc⟩)
    (hstep : walkStep thread shared task off walkPc = (shared', pc)) :
    Keeps thread shared ghost shared' ⟨mine, pc⟩ := by
  have hwalking : Walking thread shared mine task := ⟨hinv.holds.left, hinv.owns⟩
  have hload : ThreadInv thread shared ghost ⟨mine, .walk task off .load⟩ :=
    hwalking.threadInv trivial
  have hpc := hinv.pc
  cases walkPc with
  | load =>
    cases hstep
    exact keeps_load hglobal (hwalking.loop below_head)
  | protect prev cur =>
    cases hstep
    exact keeps_protect hglobal hinv
  | check prev cur =>
    cases hstep
    split
    · rename_i hread
      rw [hread]
      exact keeps_check hglobal hinv hread
    · exact keeps_see hglobal hload
  | readNext prev cur =>
    cases hstep
    apply keeps_load hglobal
    split
    · rename_i hmark
      refine hwalking.threadInv ⟨hpc.1, hpc.2, ?_⟩
      rw [← hmark]
    · cases task <;> exact hwalking.threadInv hpc
  | unlink prev cur next =>
    obtain ⟨hbelow, hguards, hnext⟩ := hpc
    simp only [walkStep] at hstep
    split at hstep
    · rename_i heap hcas
      obtain ⟨hread, rfl⟩ := Heap.cas_eq_some hcas
      cases hstep
      have hloop : ThreadInv thread shared ghost ⟨mine, loop task off prev next⟩ :=
        hwalking.loop hbelow
      exact keeps_unlink hglobal hwalking.holds hloop.owns (loop_isFreeing task off prev next)
        hloop.pc hbelow hguards hread hnext
    · cases hstep
      exact keeps_of_threadInv hglobal hload
  | searchKey prev cur next =>
    cases hstep
    exact keeps_of_threadInv hglobal (hwalking.threadInv ⟨hpc.1, hpc.2, rfl⟩)
  | searchRecheck prev cur next ckey =>
    obtain ⟨_, hguards, hkey⟩ := hpc
    cases hstep
    apply keeps_see hglobal
    split
    · exact hload
    · split
      · rename_i hlt
        exact hwalking.advance hguards (by rwa [hkey])
      · exact hwalking.ret _
  | findRecheck prev cur next =>
    cases hstep
    apply keeps_see hglobal
    split
    · exact hload
    · exact hwalking.threadInv hpc
  | findKey prev cur next =>
    cases hstep
    apply keeps_of_threadInv hglobal
    split
    · rename_i hlt
      exact hwalking.advance hpc.2 hlt
    · rename_i hge
      exact hwalking.threadInv ⟨hpc.1, hpc.2, not_lt.mp hge⟩
  | findKeyAgain prev cur next =>
    obtain ⟨hbelow, hguards, hle⟩ := hpc
    cases hstep
    apply keeps_of_threadInv hglobal
    split
    · exact hwalking.found hbelow hguards
    · rename_i hne
      apply hwalking.notFound hbelow
      intro node heq
      obtain rfl := Option.some.inj heq
      exact ⟨hguards, lt_of_le_of_ne hle (Ne.symm hne)⟩

section

variable (hglobal : GlobalInv shared ghost)
include hglobal

theorem linkStep_keeps {cur : Option NodeAddr} {linkPc : LinkPc}
    (hinv : ThreadInv thread shared ghost ⟨mine, .link key node prev cur linkPc⟩)
    (hstep : linkStep shared key node prev cur linkPc = (shared', pc)) :
    Keeps thread shared ghost shared' ⟨mine, pc⟩ := by
  have howns := hinv.owns node rfl
  have hclear := hglobal.unguarded_of_owned howns.owned
  obtain ⟨⟨off, hbelow, habove⟩, hlink⟩ := hinv.pc
  -- what is written into the new node does not change the keys of `prev` and `cur`
  have hbounds : ∀ heap, Heap.SameExcept node shared.heap heap →
      ∃ off, Below thread { shared with heap := heap } ghost (!off) key prev ∧
        Above thread { shared with heap := heap } ghost off key cur := by
    intro heap hsame
    have hkey : ∀ i found, ghost.guard i = some found → heap.key found = shared.heap.key found :=
      fun i found hguard => hsame.key found fun heq => hclear i (heq ▸ hguard)
    refine ⟨off, fun found hprev => ?_, fun found hcur => ?_⟩
    · obtain ⟨hguards, hlt⟩ := hbelow found hprev
      exact ⟨⟨hguards.guard, hguards.current⟩, (hkey _ found hguards.guard).trans_lt hlt⟩
    · obtain ⟨hguards, hlt⟩ := habove found hcur
      exact ⟨⟨hguards.guard, hguards.current⟩, hlt.trans_eq (hkey _ found hguards.guard).symm⟩
  cases linkPc with
  | writeKey =>
    cases hstep
    have hsame := shared.heap.sameExcept_setKey node key
    exact keeps_private hglobal howns.owned hsame
      ⟨hinv.holds, hinv.owns, hbounds _ hsame, by simp [LinkInv, Heap.setKey]⟩
  | writeNext =>
    cases hstep
    have hsame := shared.heap.sameExcept_write node cur
    exact keeps_private hglobal howns.owned hsame ⟨hinv.holds, hinv.owns, hbounds _ hsame, hlink, by simp⟩
  | cas =>
    simp only [linkStep] at hstep
    split at hstep
    · rename_i heap hcas
      obtain ⟨hread, rfl⟩ := Heap.cas_eq_some hcas
      cases hstep
      exact keeps_link hglobal hinv.holds.left howns hbelow habove hlink.1 hlink.2 hread
    · cases hstep
      exact keeps_of_threadInv hglobal ⟨hinv.holds, hinv.owns, trivial⟩

theorem deleteStep_keeps {deletePc : DeletePc}
    (hinv : ThreadInv thread shared ghost ⟨mine, .delete key prev cur next deletePc⟩)
    (hstep : deleteStep thread shared key prev cur next deletePc = (shared', pc)) :
    Keeps thread shared ghost shared' ⟨mine, pc⟩ := by
  have hwalking : Walking thread shared mine (.delete key) :=
    ⟨hinv.holds.left, by simp [Task.own]⟩
  obtain ⟨⟨off, hbelow, hguards⟩, hdelete⟩ := hinv.pc
  cases deletePc with
  | mark =>
    simp only [deleteStep] at hstep
    split at hstep
    · rename_i heap hcas
      obtain ⟨hnext, rfl⟩ := Heap.casMark_eq_some hcas
      cases hstep
      exact keeps_mark hglobal hinv hnext
    · cases hstep
      exact keeps_of_threadInv hglobal (hwalking.threadInv trivial)
  | unlink =>
    simp only [deleteStep] at hstep
    split at hstep
    · rename_i heap hcas
      obtain ⟨hread, rfl⟩ := Heap.cas_eq_some hcas
      cases hstep
      exact keeps_unlink hglobal hwalking.holds (by simp [Pc.own]) rfl trivial hbelow hguards hread
        hdelete
    · cases hstep
      exact keeps_of_threadInv hglobal (hwalking.ret true)

theorem advance_keeps (hinv : ThreadInv thread shared ghost ⟨mine, pc⟩)
    (hstep : advance thread shared mine pc = some (shared', priv)) :
    Keeps thread shared ghost shared' priv := by
  cases pc with
  | walk task off walkPc =>
    cases hstep
    exact walkStep_keeps hglobal hinv rfl
  | link key node prev cur linkPc =>
    cases hstep
    exact linkStep_keeps hglobal hinv rfl
  | delete key prev cur next deletePc =>
    cases hstep
    exact deleteStep_keeps hglobal hinv rfl
  | retire node back =>
    cases hstep
    exact keeps_retire hglobal hinv
  | scan scanPc back =>
    simp only [advance] at hstep
    split at hstep
    · cases hstep
      exact keeps_scanDone hglobal hinv
    · simp only [Option.map_eq_some_iff, Prod.mk.injEq] at hstep
      obtain ⟨⟨mine', scanPc'⟩, hscan, rfl, rfl⟩ := hstep
      exact keeps_scanStep hglobal hinv hscan
  | ret result =>
    cases hstep
    exact keeps_of_threadInv hglobal ⟨hinv.holds, by simp [Pc.own], trivial⟩
  | clear i =>
    simp only [advance] at hstep
    split at hstep
    · rename_i hlt
      cases hstep
      exact keeps_clear hglobal hlt hinv.holds.left
    · cases hstep
      exact keeps_of_threadInv hglobal ⟨hinv.holds, by simp [Pc.own], trivial⟩
  | drain =>
    simp only [advance] at hstep
    split at hstep
    · cases hstep
      exact keeps_of_threadInv hglobal ⟨hinv.holds, by simp [Pc.own], scanInv_start, rfl, trivial⟩
    · cases hstep
      exact keeps_of_threadInv hglobal ⟨hinv.holds, by simp [Pc.own], trivial⟩
  | idle | newNode key | freeNode node | gone => simp [advance] at hstep

theorem code_keeps (hinv : ThreadInv thread shared ghost priv)
    {priv' : Priv} (hstep : code thread choice shared priv = some (shared', priv')) :
    Keeps thread shared ghost shared' priv' := by
  obtain ⟨mine, pc⟩ := priv
  simp only [code] at hstep
  split at hstep
  · exact advance_keeps hglobal hinv hstep
  · rename_i op
    cases hstep
    apply keeps_of_threadInv hglobal
    cases op with
    | insert key => exact ⟨hinv.holds, by simp [start, Pc.own], trivial⟩
    | delete key | search key => exact ⟨hinv.holds, by simp [start, Pc.own, Task.own], trivial⟩
  · cases hstep
    exact keeps_of_threadInv hglobal ⟨hinv.holds, by simp [Pc.own], trivial⟩
  · split at hstep
    · rename_i hfree
      cases hstep
      exact keeps_newNode hglobal hinv hfree
    · simp at hstep
  · cases hstep
    exact keeps_freeNode hglobal hinv
  · simp only [Option.map_eq_some_iff, Prod.mk.injEq] at hstep
    obtain ⟨⟨node, scanPc'⟩, hunneeded, rfl, rfl⟩ := hstep
    exact keeps_sweep hglobal hinv hunneeded
  · simp at hstep

end

theorem relyGuarantee : RelyGuarantee (code (n := n)) (fun _ _ _ => True) GlobalInv
    (fun thread shared ghost priv => ThreadInv thread shared ghost priv) Rely where
  step _ _ thread _ _ _ hglobal hlocal _ hcode := code_keeps hglobal (hlocal thread) hcode
  stable _ _ _ _ _ _ hinv hrely := hrely.threadInv hinv

variable {config : Config (Fin n) (Shared n) Priv} {initKey : NodeAddr → Int}
  {initNext : NodeAddr → Link}

theorem invariants (hreach : Reachable code (init initKey initNext) config) : ∃ ghost, GlobalInv config.shared ghost ∧
      ∀ thread, ThreadInv thread config.shared ghost (config.threads thread) := by
  refine relyGuarantee.invariant hreach ⟨[], fun _ => none⟩ ?_ ?_
  · exact ⟨⟨rfl, .nil⟩, by simp [init, Hazards.fresh], by simp [init, Hazards.fresh], valid_fresh,
      by simp⟩
  · exact fun _ => ⟨holds_nil, by simp [init, Pc.own], trivial⟩

/-! ### The nodes a thread uses -/

theorem GlobalInv.inPlace (hglobal : GlobalInv shared ghost) (hguards : Guards thread shared ghost off node) :
    shared.custody node ≠ .free ∧ shared.Current thread node := by
  refine ⟨fun hfree => ?_, hguards.current⟩
  have hinUse := hglobal.hazards.inUse _ node hguards.guard
  simp [hfree, Custody.InUse] at hinUse

theorem GlobalInv.prev_inPlace (hglobal : GlobalInv shared ghost)
    (hbelow : Below thread shared ghost off key prev) (hnode : Loc.node? prev = some node) :
    shared.custody node ≠ .free ∧ shared.Current thread node := by
  cases prev with
  | head => simp [Loc.node?] at hnode
  | next found =>
    obtain rfl := Option.some.inj hnode
    exact hglobal.inPlace (hbelow found rfl).1

theorem GlobalInv.walk_inPlace (hglobal : GlobalInv shared ghost) {walkPc : WalkPc}
    (hinv : WalkInv thread shared ghost key off walkPc) (hderef : walkPc.deref = some node) :
    shared.custody node ≠ .free ∧ shared.Current thread node := by
  cases walkPc with
  | load | protect prev cur => simp [WalkPc.deref] at hderef
  | check prev cur | unlink prev cur next | searchRecheck prev cur next ckey | findRecheck prev cur next =>
    exact hglobal.prev_inPlace hinv.1 hderef
  | readNext prev cur | searchKey prev cur next | findKey prev cur next =>
    exact Option.some.inj hderef ▸ hglobal.inPlace hinv.2
  | findKeyAgain prev cur next => exact Option.some.inj hderef ▸ hglobal.inPlace hinv.2.1

theorem Owns.inPlace (howns : shared.Owns thread node) : shared.custody node ≠ .free ∧ shared.Current thread node :=
  ⟨by simp [howns.owned], howns.current⟩

theorem Holds.inPlace {nodes : List NodeAddr} (hholds : shared.Holds thread nodes)
    (hmem : node ∈ nodes) : shared.custody node ≠ .free ∧ shared.Current thread node :=
  ⟨by simp [hholds.unlinked node hmem], hholds.current node hmem⟩

theorem ThreadInv.inPlace (hglobal : GlobalInv shared ghost)
    (hinv : ThreadInv thread shared ghost ⟨mine, pc⟩) (hderef : pc.deref = some node) :
    shared.custody node ≠ .free ∧ shared.Current thread node := by
  obtain ⟨hholds, howns, hpc⟩ := hinv
  cases pc with
  | walk task off walkPc => exact hglobal.walk_inPlace hpc hderef
  | link key own prev cur linkPc =>
    obtain ⟨⟨off, hbelow, _⟩, _⟩ := hpc
    cases linkPc with
    | cas => exact hglobal.prev_inPlace hbelow hderef
    | writeKey | writeNext => exact Owns.inPlace (howns node hderef)
  | delete key prev cur next deletePc =>
    obtain ⟨⟨off, hbelow, hguards⟩, _⟩ := hpc
    cases deletePc with
    | mark => exact Option.some.inj hderef ▸ hglobal.inPlace hguards
    | unlink => exact hglobal.prev_inPlace hbelow hderef
  | retire retired back =>
    obtain rfl := Option.some.inj hderef
    exact Holds.inPlace hholds (by simp [Pc.pending])
  | scan scanPc back =>
    cases scanPc with
    | sweep plist tmplist =>
      cases tmplist with
      | nil => simp [Pc.deref] at hderef
      | cons cur rest =>
        obtain rfl := Option.some.inj hderef
        exact Holds.inPlace hholds (by simp [Pc.pending, ScanPc.tmplist])
    | test i plist | copy i plist => simp [Pc.deref] at hderef
  | freeNode freed => exact Owns.inPlace (howns node hderef)
  | _ => simp [Pc.deref] at hderef

/-- No access goes through a node that is free, or that has been freed since the thread last saw a
pointer to it. -/
theorem listLfSmr_inPlace (hreach : Reachable code (init initKey initNext) config)
    (hderef : (config.threads thread).pc.deref = some node) :
    config.shared.custody node ≠ .free ∧ config.shared.Current thread node := by
  obtain ⟨ghost, hglobal, hlocal⟩ := invariants hreach
  exact ThreadInv.inPlace hglobal (hlocal thread) hderef

def insertAlone (writer : Fin n) (key : Int) (node : NodeAddr) : List (Fin n × Choice) :=
  (writer, .call (.insert key)) :: (writer, .newNode node 0 ⟨none, false⟩) ::
    List.replicate 5 (writer, .go)

def deleteAlone (writer : Fin n) (key : Int) : List (Fin n × Choice) :=
  (writer, .call (.delete key)) :: List.replicate 10 (writer, .go)

/-- The first thread has announced the node that the second one has inserted, and checked it. -/
def announceAndCheck (reader writer : Fin n) : List (Fin n × Choice) :=
  insertAlone writer 5 9 ++ [(reader, .call (.search 5)), (reader, .go), (reader, .go), (reader, .go)]

theorem listLfSmr_inPlace_announceAndCheck :
    ∃ config, Reachable code (init (n := 2) (fun _ => 0) (fun _ => ⟨none, false⟩)) config ∧
      (config.threads 0).pc.deref = some 9 ∧ config.shared.custody 9 ≠ .free ∧
      config.shared.Current 0 9 := by
  have hrun : ((init (fun _ => 0) (fun _ => ⟨none, false⟩)).run code
      (announceAndCheck (n := 2) 0 1)).any
      (fun config => decide ((config.threads 0).pc.deref = some 9)) = true := by
    decide +kernel
  obtain ⟨config, hreach, hderef⟩ := exists_reachable_of_run _ _ hrun
  have hderef' := of_decide_eq_true hderef
  exact ⟨config, hreach, hderef', listLfSmr_inPlace hreach hderef'⟩

/-- However nodes are reused, the list is finite and ascending, and consists of the nodes that are linked; one
that is no longer linked is marked until it is freed. -/
def WellFormed (shared : Shared n) : Prop :=
  ∃ nodes, shared.heap.Valid nodes ∧ (∀ node, node ∈ nodes ↔ shared.custody node = .linked) ∧
    ∀ node thread, shared.custody node = .unlinked thread → (shared.heap.next node).mark = true

theorem listLfSmr_wellFormed (hreach : Reachable code (init initKey initNext) config) :
    WellFormed config.shared := by
  obtain ⟨ghost, hglobal, -⟩ := invariants hreach
  exact ⟨ghost.chain, hglobal.valid, hglobal.linked_iff, hglobal.marked⟩

theorem listLfSmr_wellFormed_announceAndCheck :
    ∃ config, Reachable code (init (n := 2) (fun _ => 0) (fun _ => ⟨none, false⟩)) config ∧
      (config.threads 0).pc.deref = some 9 ∧ WellFormed config.shared := by
  have hrun : ((init (fun _ => 0) (fun _ => ⟨none, false⟩)).run code (announceAndCheck (n := 2) 0 1)).any
      (fun config => (config.threads 0).pc.deref == some 9) = true := by
    decide +kernel
  obtain ⟨config, hreach, hderef⟩ := exists_reachable_of_run _ _ hrun
  exact ⟨config, hreach, beq_iff_eq.mp hderef, listLfSmr_wellFormed hreach⟩

/-- The reader has loaded a pointer to node 200 and stops. The writer deletes the node and enough others
for a scan, which frees it, and inserts it again. The reader announces it and finds it linked. -/
def recycleBehindReader (reader writer : Fin n) : List (Fin n × Choice) :=
  insertAlone writer 5 200 ++ [(reader, .call (.search 5)), (reader, .go)] ++
    deleteAlone writer 5 ++ [(writer, .go)] ++
    (List.range (R n - 2)).flatMap (fun node =>
      insertAlone writer 5 node ++ deleteAlone writer 5 ++ [(writer, .go)]) ++
    insertAlone writer 5 300 ++ deleteAlone writer 5 ++ List.replicate 7 (writer, .go) ++
    List.replicate (R n - 1) (writer, .freed 0 ⟨none, false⟩) ++ List.replicate 2 (writer, .go) ++
    insertAlone writer 5 200 ++ [(reader, .go), (reader, .go)]

/-- Between the load of a pointer and the check that confirms it, the node may have been freed. -/
theorem listLfSmr_freedSinceLoad :
    ∃ config thread task off prev node,
      Reachable code (init (n := 2) (fun _ => 0) (fun _ => ⟨none, false⟩)) config ∧
      (config.threads thread).pc = .walk task off (.readNext prev node) ∧
      config.shared.loadedAt thread node < config.shared.frees node := by
  have hrun : ((init (fun _ => 0) (fun _ => ⟨none, false⟩)).run code
      (recycleBehindReader (n := 2) 0 1)).any (fun config =>
        match (config.threads 0).pc with
        | .walk _ _ (.readNext _ node) =>
          decide (config.shared.loadedAt 0 node < config.shared.frees node)
        | _ => false) = true := by
    decide +kernel
  obtain ⟨config, hreach, hcheck⟩ := exists_reachable_of_run _ _ hrun
  split at hcheck
  · rename_i task off prev node hpc
    exact ⟨config, 0, task, off, prev, node, hreach, hpc, of_decide_eq_true hcheck⟩
  · simp at hcheck

end Lfmr.HazardList
