import Lfmr.Proof.DurationMemory

/-!
# The accesses of a duration reclaimer keep its invariant
-/

namespace Lfmr.DurationWindow

open List Function Lfmr.Concurrency Lfmr.ClosingOrder

variable {n : Nat} {Heap Op : Type} {variant : Variant} {thread : Fin n}
  {shared shared' : Shared n Heap} {ghost ghost' : Ghost n} {pc pc' : Pc}

abbrev Keeps (variant : Variant) (thread : Fin n) :=
  Concurrency.Keeps (GlobalInv variant : Shared n Heap → _) (ThreadInv variant) Rely thread

/-! ### Where the durations are -/

variable {d myD : Addr} {item : ItemAddr}

section

variable (hglobal : GlobalInv variant shared ghost)
include hglobal

theorem GlobalInv.closed_notMem (hmem : d ∈ ghost.order.closed) : d ∉ shared.currentD :: ghost.spare.toList := by
  have hnodup := hglobal.owned.nodup
  rw [Ghost.live, hglobal.current, nodup_cons, nodup_append] at hnodup
  exact fun hlater => hnodup.2.2.2 d hmem d hlater rfl

theorem GlobalInv.closed_ne (hmem : d ∈ ghost.order.closed) : d ≠ shared.currentD := by
  rintro rfl
  exact hglobal.closed_notMem hmem mem_cons_self

theorem GlobalInv.mem_closed_of_chain (hmem : d ∈ ghost.chain) : d ∈ ghost.order.closed := by
  rw [hglobal.closed]
  exact mem_append_left _ hmem

theorem GlobalInv.closer_eq_none (heven : shared.aba % 2 = 0) : ghost.closer = none := by
  have hparity := hglobal.parity
  rw [heven] at hparity
  by_contra hcloser
  simp [hcloser] at hparity

theorem GlobalInv.odd_of_closer (hcloser : ghost.closer = some thread) : shared.aba % 2 = 1 := by
  rw [hglobal.parity, hcloser]
  rfl

end

/-! ### Accesses that leave the ghost value as it is -/

/-- Memories that agree on all that the invariant says about the durations, but for their heads and
their numbers of entries. -/
structure Frame (shared shared' : Shared n Heap) : Prop where
  aba : shared'.aba = shared.aba
  currentD : shared'.currentD = shared.currentD
  queueTail : shared'.queueTail = shared.queueTail
  lock : shared'.lock = shared.lock
  sections : shared'.toSections = shared.toSections
  allocated : shared'.allocated = shared.allocated
  durationPool : shared'.durationPool = shared.durationPool
  exit : ∀ d, (shared'.durations d).exit = (shared.durations d).exit
  collectible : ∀ d, (shared'.durations d).collectible = (shared.durations d).collectible
  stw : ∀ d, (shared'.durations d).stw = (shared.durations d).stw
  next : ∀ d, (shared'.durations d).next = (shared.durations d).next
  openWhen : ∀ d, (shared'.durations d).openWhen = (shared.durations d).openWhen

def SameWork (shared shared' : Shared n Heap) : Prop :=
  shared'.entry = shared.entry ∧ shared'.queueHead = shared.queueHead ∧
    (shared'.durations shared.currentD).entry = (shared.durations shared.currentD).entry

theorem Owned.congr {live : List Addr} (howned : Owned shared live) (hallocated : shared'.allocated = shared.allocated)
    (hpool : shared'.durationPool = shared.durationPool) : Owned shared' live := by
  obtain ⟨hnodup, halloc, hpooled, hpoolNodup, hdisjoint⟩ := howned
  exact ⟨hnodup, by rwa [hallocated], by rwa [hallocated, hpool], by rwa [hpool], by rwa [hpool]⟩

theorem GlobalInv.frame (hglobal : GlobalInv variant shared ghost) (hframe : Frame shared shared')
    (hentry : ∀ d ∈ ghost.order.closed, (shared'.durations d).entry = (shared.durations d).entry)
    (hwork : ghost.closer = none → SameWork shared shared') : GlobalInv variant shared' ghost := by
  refine ⟨?_, ?_, hglobal.closed, hglobal.owned.congr hframe.allocated hframe.durationPool, ?_, ?_,
    ?_, ?_, hglobal.setter, ?_, ?_, ?_, ?_⟩
  · rw [hframe.sections]
    exact hglobal.order.congr fun d _ => hframe.openWhen d
  · rw [hframe.currentD]; exact hglobal.current
  · rw [hframe.next]
    exact hglobal.linked.congr fun d _ => hframe.next d
  · intro d hd
    rw [hframe.next]
    exact hglobal.limbo d hd
  · intro d hd
    rw [hframe.currentD] at hd
    obtain ⟨hexit, hcollectible, hstw, hnext⟩ := hglobal.blank d hd
    exact ⟨by rw [hframe.exit, hexit], by rw [hframe.collectible, hcollectible],
      by rw [hframe.stw, hstw], by rw [hframe.next, hnext]⟩
  · intro d hd
    obtain ⟨hbalance, hbounded, hsound, hcollectible, hsetter, hstw⟩ := hglobal.counted d hd
    exact ⟨by rw [hframe.exit, hbalance], hbounded, by rw [hentry d hd]; exact hsound,
      by rw [hframe.collectible]; exact hcollectible, hsetter, by rw [hframe.stw, hstw]⟩
  · rw [hframe.aba]; exact hglobal.parity
  · rw [hframe.lock]; exact hglobal.lock
  · intro hcloser
    obtain ⟨hentries, hhead, -⟩ := hwork hcloser
    obtain ⟨htidy, hcounts⟩ := hglobal.rest hcloser
    refine ⟨⟨by rw [hhead, htidy.queueHead], htidy.limbo, htidy.spare⟩, ?_⟩
    unfold EntryCounts
    rw [hentries, hframe.currentD]
    exact hcounts
  · rw [hframe.queueTail]; exact hglobal.tail

theorem rely_frame {other : Fin n} (hframe : Frame shared shared')
    (hentry : ∀ d ∈ ghost.order.closed, (shared'.durations d).entry = (shared.durations d).entry)
    (hwork : ghost.closer = some other → SameWork shared shared') :
    Rely other (shared, ghost) (shared', ghost) := by
  refine ⟨Nat.le_of_eq hframe.aba.symm, fun _ _ => hframe.currentD, ?_, fun _ => Iff.rfl,
    fun _ => Iff.rfl, Iff.rfl, Iff.rfl, fun d hd _ => ⟨hd, hentry d hd⟩, fun hcloser => ?_, fun _ => ?_⟩
  · simp only [hframe.sections]
  · obtain ⟨hentries, hhead, hcurrent⟩ := hwork hcloser
    exact ⟨hentries, hframe.currentD, hhead, rfl, rfl, rfl, rfl, hcurrent⟩
  · exact ⟨hframe.queueTail, rfl, prefix_rfl, fun d _ h => (hframe.collectible d).trans h, hframe.stw _⟩

def Pc.role (pc : Pc) : List Addr × Bool × Option Addr × Bool × Bool :=
  (pc.owed, pc.isInside, pc.setting, pc.closing, pc.collecting)

theorem ThreadInv.move (hinv : ThreadInv variant thread shared ghost pc) (hrole : pc'.role = pc.role)
    (hinside : shared'.inside thread = shared.inside thread) (hat : PcInv variant shared' ghost pc') :
    ThreadInv variant thread shared' ghost pc' := by
  simp only [Pc.role, Prod.mk.injEq] at hrole
  obtain ⟨howed, hisInside, hsetting, hclosing, hcollecting⟩ := hrole
  refine ⟨?_, ?_, ?_, ?_, ?_, hat⟩
  · rw [howed]; exact hinv.owed
  · rw [hinside, hisInside]; exact hinv.inside
  · rw [hsetting]; exact hinv.setter
  · rw [hclosing]; exact hinv.closer
  · rw [hcollecting]; exact hinv.collector

theorem keeps_frame (hglobal : GlobalInv variant shared ghost)
    (hinv : ThreadInv variant thread shared ghost pc) (hframe : Frame shared shared')
    (hentry : ∀ d ∈ ghost.order.closed, (shared'.durations d).entry = (shared.durations d).entry)
    (hwork : pc.closing = false → SameWork shared shared') (hat : PcInv variant shared' ghost pc')
    (hrole : pc'.role = pc.role) :
    Keeps variant thread shared ghost shared' pc' := by
  have hcloser : ghost.closer ≠ some thread → SameWork shared shared' := by
    intro hne
    refine hwork ?_
    rw [← Bool.not_eq_true]
    exact fun hclosing => hne (hinv.closer.mpr hclosing)
  refine ⟨ghost, hglobal.frame hframe hentry fun hnone => hcloser (by simp [hnone]), ?_,
    fun other hne => rely_frame hframe hentry fun hother => hcloser ?_⟩
  · exact hinv.move hrole (by simp only [hframe.sections]) hat
  · rw [hother]
    simpa using hne

theorem keeps_stay {heap : Heap} {pending : Nat} (hglobal : GlobalInv variant shared ghost)
    (hinv : ThreadInv variant thread shared ghost pc) (hat : PcInv variant { shared with heap, pending } ghost pc')
    (hrole : pc'.role = pc.role) :
    Keeps variant thread shared ghost { shared with heap, pending } pc' := by
  refine keeps_frame hglobal hinv ?_ (fun _ _ => rfl) (fun _ => ⟨rfl, rfl, rfl⟩) hat hrole
  exact ⟨rfl, rfl, rfl, rfl, rfl, rfl, rfl, fun _ => rfl, fun _ => rfl, fun _ => rfl, fun _ => rfl, fun _ => rfl⟩

theorem keeps_around {sections : Sections (Fin n)} {lock : Bool} {queueTail : Addr} (collector : Option (Fin n))
    (hglobal : GlobalInv variant shared ghost)
    (horder : ghost.order.Valid sections fun d => (shared.durations d).openWhen)
    (hlock : lock = collector.isSome) (htail : collector = none → queueTail = ghost.dummy)
    (hinv : ThreadInv variant thread { shared with toSections := sections, lock, queueTail }
      { ghost with collector } pc')
    (hothers : ∀ other, other ≠ thread → sections.inside other = shared.inside other ∧
      (collector = some other ↔ ghost.collector = some other) ∧
      (ghost.collector = some other → queueTail = shared.queueTail)) :
    Keeps variant thread shared ghost { shared with toSections := sections, lock, queueTail } pc' := by
  refine ⟨{ ghost with collector }, ?_, hinv, fun other hne => ?_⟩
  · refine { hglobal with
      order := horder, owned := hglobal.owned.congr rfl rfl, lock := hlock, rest := fun hcloser => ?_, tail := htail }
    obtain ⟨htidy, hcounts⟩ := hglobal.rest hcloser
    exact ⟨{ htidy with }, hcounts⟩
  · obtain ⟨hinside, hcollector, htail⟩ := hothers other hne
    exact ⟨Nat.le_refl _, fun _ _ => rfl, hinside, fun _ => Iff.rfl, fun _ => Iff.rfl, Iff.rfl, hcollector,
      fun _ he _ => ⟨he, rfl⟩, fun _ => ⟨rfl, rfl, rfl, rfl, rfl, rfl, rfl, rfl⟩,
      fun hother => ⟨htail hother, rfl, prefix_rfl, fun _ _ h => h, rfl⟩⟩

/-! ### The entry function -/

section

variable (hglobal : GlobalInv variant shared ghost)
include hglobal

/-- The compare-and-swap succeeds: the thread joins the current duration. -/
theorem keeps_join {aba entry : Nat} (hinv : ThreadInv variant thread shared ghost (.entry item (.cas aba entry d)))
    (haba : shared.aba = aba) (hentry : shared.entry = entry) :
    Keeps variant thread shared ghost { shared with entry := entry + 1 } (.entry item (.storeDuration d)) := by
  obtain ⟨heven, -, hd⟩ := hinv.at_pc
  obtain rfl := hd haba
  have hcloser := hglobal.closer_eq_none (haba ▸ heven)
  obtain ⟨htidy, hcounts⟩ := hglobal.rest hcloser
  have hnot : thread ∉ ghost.order.owing shared.currentD := by
    rw [hinv.owed]
    simp [Pc.owed]
  have hsame : ∀ e ∈ ghost.order.closed, (ghost.order.join thread shared.currentD).owing e = ghost.order.owing e := by
    intro e he
    simp [Order.join, hglobal.closed_ne he]
  refine ⟨{ ghost with order := ghost.order.join thread shared.currentD }, ?_, ?_, ?_⟩
  · refine { hglobal with
      order := hglobal.order.join thread (by simp [hglobal.current]), owned := hglobal.owned.congr rfl rfl
      counted := ?_, rest := fun _ => ⟨{ htidy with }, ?_⟩ }
    · intro e he
      simp only [hsame e he]
      exact hglobal.counted e he
    · have hcounts : shared.entry = _ := hcounts
      simp [EntryCounts, Order.join, Finset.card_insert_of_notMem hnot, ← hcounts, hentry]
  · refine { hinv with owed := fun e => ?_, at_pc := trivial }
    rw [Order.mem_owing_join, hinv.owed]
    simp [Pc.owed]
  · intro other hne
    refine ⟨Nat.le_refl _, fun _ _ => rfl, rfl, fun e => ?_, fun _ => Iff.rfl, Iff.rfl, Iff.rfl,
      fun e he _ => ⟨he, rfl⟩, fun hother => ?_,
      fun _ => ⟨rfl, rfl, prefix_rfl, fun _ _ h => h, rfl⟩⟩
    · simp [Order.mem_owing_join, hne]
    · simp [hcloser] at hother

theorem keeps_storeDuration (hinv : ThreadInv variant thread shared ghost (.entry item (.storeDuration d))) :
    Keeps variant thread shared ghost { shared with toSections := shared.enter thread } (.inside item d) := by
  have howing : thread ∈ ghost.order.owing d := (hinv.owed d).mpr (by simp [Pc.owed])
  exact keeps_around ghost.collector hglobal (hglobal.order.enter howing) hglobal.lock hglobal.tail
    { hinv with inside := by simp [Pc.isInside], at_pc := trivial }
    fun other hne => ⟨by simp [hne], Iff.rfl, fun _ => rfl⟩

theorem onEntry_keeps {pc : EntryPc} (hinv : ThreadInv variant thread shared ghost (.entry item pc)) :
    Keeps variant thread shared ghost (onEntry thread item shared pc).1 (onEntry thread item shared pc).2 := by
  have hat := hinv.at_pc
  cases pc with
  | loadAba =>
    simp only [onEntry]
    split
    · exact keeps_stay hglobal hinv trivial rfl
    · rename_i heven
      exact keeps_stay hglobal hinv ⟨by omega, Nat.le_refl _⟩ rfl
  | readCurrent aba =>
    exact keeps_stay hglobal hinv ⟨hat.1, hat.2, fun _ => rfl⟩ rfl
  | loadEntry aba d => exact keeps_stay hglobal hinv hat rfl
  | cas aba entry d =>
    simp only [onEntry]
    split
    · rename_i hequal
      exact keeps_join hglobal hinv hequal.1 hequal.2
    · split
      · exact keeps_stay hglobal hinv trivial rfl
      · exact keeps_stay hglobal hinv hat rfl
  | storeDuration d => exact keeps_storeDuration hglobal hinv

/-! ### The exit function -/

theorem rely_of_closer {other : Fin n}
    (hcloser : ghost.closer = some thread) (hne : other ≠ thread) (haba : shared.aba ≤ shared'.aba)
    (hsections : shared'.toSections = shared.toSections)
    (howing : ∀ d, other ∈ ghost'.order.owing d ↔ other ∈ ghost.order.owing d)
    (hsetter : ghost'.setter = ghost.setter) (hcloser' : ghost'.closer ≠ some other)
    (hcollector : ghost'.collector = ghost.collector)
    (hclosed : ∀ d ∈ ghost.order.closed, d ∈ ghost'.order.closed ∧
      (shared'.durations d).entry = (shared.durations d).entry)
    (hcollecting : SameCollecting (shared, ghost) (shared', ghost')) :
    Rely other (shared, ghost) (shared', ghost') := by
  have hother : ghost.closer ≠ some other := by
    rw [hcloser]
    simpa using hne.symm
  refine ⟨haba, fun heven => ?_, by simp only [hsections], howing, fun d => by simp only [hsetter],
    iff_of_false hcloser' hother, by simp only [hcollector], fun d hd _ => hclosed d hd,
    fun h => absurd h hother, fun _ => hcollecting⟩
  simp [hglobal.odd_of_closer hcloser] at heven

/-- The compare-and-swap on `aba` succeeds: the thread is the one that closes. -/
theorem keeps_closeCas {aba : Nat} (hinv : ThreadInv variant thread shared ghost (.close item myD (.cas aba)))
    (haba : shared.aba = aba) :
    Keeps variant thread shared ghost { shared with aba := aba + 1 } (.close item myD .readCurrent) := by
  have heven : aba % 2 = 0 := hinv.at_pc
  have hcloser := hglobal.closer_eq_none (haba ▸ heven)
  obtain ⟨htidy, hcounts⟩ := hglobal.rest hcloser
  refine ⟨{ ghost with closer := some thread }, ?_, ?_, fun other hne => ?_⟩
  · exact { hglobal with
      owned := hglobal.owned.congr rfl rfl, parity := by simp only [reduceCtorEq, if_false]; omega, rest := by simp }
  · exact { hinv with
      closer := by simp [Pc.closing, ClosePc.closing], at_pc := ⟨{ htidy with }, hcounts⟩ }
  · refine ⟨by simp only; omega, fun _ _ => rfl, rfl, fun _ => Iff.rfl, fun _ => Iff.rfl, ?_, Iff.rfl,
      fun e he _ => ⟨he, rfl⟩, fun hother => ?_,
      fun _ => ⟨rfl, rfl, prefix_rfl, fun _ _ h => h, rfl⟩⟩
    · simpa [hcloser] using hne.symm
    · simp [hcloser] at hother

end

theorem durations_write (d : Addr) (change : Duration n → Duration n) (e : Addr) : (shared.write d change).durations e
      = if e = d then change (shared.durations d) else shared.durations e := by
  by_cases heq : e = d <;> simp [Shared.write, heq]

theorem Frame.write {change : Duration n → Duration n} (hexit : ∀ duration, (change duration).exit = duration.exit)
    (hcollectible : ∀ duration, (change duration).collectible = duration.collectible)
    (hstw : ∀ duration, (change duration).stw = duration.stw)
    (hnext : ∀ duration, (change duration).next = duration.next)
    (hopenWhen : ∀ duration, (change duration).openWhen = duration.openWhen) :
    Frame shared (shared.write d change) := by
  refine ⟨rfl, rfl, rfl, rfl, rfl, rfl, rfl, ?_, ?_, ?_, ?_, ?_⟩
  all_goals
    intro e
    rw [durations_write]
    split <;> simp_all

attribute [local simp] durations_write

section

variable {pc pc' : ClosePc} (hglobal : GlobalInv variant shared ghost)
  (hinv : ThreadInv variant thread shared ghost (.close item myD pc)) (hclosing : pc.closing = true)
include hglobal hinv hclosing

theorem keeps_zeroEntry (hat : CloseInv variant { shared with entry := 0 } ghost myD pc')
    (hrole : (Pc.close item myD pc').role = (Pc.close item myD pc).role) :
    Keeps variant thread shared ghost { shared with entry := 0 } (.close item myD pc') := by
  refine keeps_frame hglobal hinv ?_ (fun _ _ => rfl) ?_ hat hrole
  · exact ⟨rfl, rfl, rfl, rfl, rfl, rfl, rfl, fun _ => rfl, fun _ => rfl, fun _ => rfl, fun _ => rfl, fun _ => rfl⟩
  · simp [Pc.closing, hclosing]

theorem keeps_writeEntry {entry : Nat}
    (hat : CloseInv variant (shared.write shared.currentD fun duration => { duration with entry }) ghost myD pc')
    (hrole : (Pc.close item myD pc').role = (Pc.close item myD pc).role) :
    Keeps variant thread shared ghost (shared.write shared.currentD fun duration => { duration with entry })
      (.close item myD pc') := by
  refine keeps_frame hglobal hinv ?_ ?_ ?_ hat hrole
  · exact .write (fun _ => rfl) (fun _ => rfl) (fun _ => rfl) (fun _ => rfl) fun _ => rfl
  · intro e he
    simp [hglobal.closed_ne he]
  · simp [Pc.closing, hclosing]

end

theorem keeps_writeHead {pc : ClosePc} {pc' : Pc} (hglobal : GlobalInv variant shared ghost)
    (hinv : ThreadInv variant thread shared ghost (.close item myD pc))
    (hat : PcInv variant (shared.write d fun duration => { duration with head := some item }) ghost pc')
    (hrole : pc'.role = (Pc.close item myD pc).role) :
    Keeps variant thread shared ghost (shared.write d fun duration => { duration with head := some item }) pc' := by
  have hentry : ∀ e, ((shared.write d fun duration => { duration with head := some item }).durations e).entry
        = (shared.durations e).entry := by
    intro e
    rw [durations_write]
    split <;> simp_all
  refine keeps_frame hglobal hinv ?_ (fun e _ => hentry e) (fun _ => ⟨rfl, rfl, hentry _⟩) hat hrole
  exact .write (fun _ => rfl) (fun _ => rfl) (fun _ => rfl) (fun _ => rfl) fun _ => rfl

theorem pcInv_settleBoth (hd : d ∈ ghost.order.closed)
    (hmyD : myD ∈ ghost.order.closed) : PcInv variant shared ghost (settleBoth myD d) := by
  unfold settleBoth
  split
  · rename_i hne
    exact ⟨by simpa using hmyD, hd, by simpa using hne.symm⟩
  · exact ⟨by simp, hmyD, by simp⟩

attribute [local simp] Ghost.live

/-- The closing thread allocates the duration that is going to be current. -/
theorem keeps_new {choice : Choice Op} {new : Addr} (hglobal : GlobalInv variant shared ghost)
    (hinv : ThreadInv variant thread shared ghost (.close item myD (.new d)))
    (hnew : newDuration variant thread shared choice = some (new, shared')) :
    Keeps variant thread shared ghost shared' (.close item myD (.storeCurrent d new)) := by
  obtain ⟨rfl, htidy, hentry, hsound⟩ := hinv.at_pc
  have hcloser := hinv.closer.mpr rfl
  obtain ⟨hfresh, howned⟩ := hglobal.owned.newDuration hnew
  obtain ⟨garbage, allocated, durationPool, rfl⟩ := newDuration_eq hnew
  have hold : ∀ e ∈ ghost.live, update shared.durations new
      { (shared.durations new).reset with entry := garbage } e = shared.durations e := by
    intro e he
    have hne : e ≠ new := by
      rintro rfl
      exact hfresh he
    simp [hne]
  have hcurrent : shared.currentD ∈ ghost.live := by simp [hglobal.current]
  have hclosed : ∀ e ∈ ghost.order.closed, e ∈ ghost.live := by
    intro e he
    simp [he]
  have hdummy : ghost.dummy ∈ ghost.live := by simp
  have hlive : Ghost.live { ghost with spare := some new } = ghost.live ++ [new] := by
    simp [htidy.spare]
  refine ⟨{ ghost with spare := some new }, ?_, ?_, fun other hne => ?_⟩
  · refine { hglobal with
      order := hglobal.order.congr ?_, owned := hlive ▸ howned, linked := ?_, limbo := ?_, blank := ?_
      counted := ?_, rest := ?_ }
    · intro e he
      simp only [hold e (hclosed e he)]
    · simp only [hold _ hdummy]
      refine hglobal.linked.congr fun e he => ?_
      simp only [hold e (hclosed e (hglobal.mem_closed_of_chain he))]
    · simp [htidy.limbo]
    · intro e he
      simp only [Option.toList_some, mem_cons, not_mem_nil, or_false] at he
      rcases he with rfl | rfl
      · simp only [hold _ hcurrent]
        exact hglobal.blank _ mem_cons_self
      · simp only [update_self]
        exact ⟨rfl, rfl, rfl, rfl⟩
    · intro e he
      simp only [hold e (hclosed e he)]
      exact hglobal.counted e he
    · simp [hcloser]
  · refine { hinv with at_pc := ?_ }
    refine ⟨rfl, htidy.queueHead, htidy.limbo, rfl, hentry, ?_⟩
    simp only [hold _ hcurrent]
    exact hsound
  · refine rely_of_closer hglobal hcloser hne (Nat.le_refl _) rfl (fun _ => Iff.rfl) rfl ?_ rfl ?_ ?_
    · simpa [hcloser] using hne.symm
    · exact fun e he => ⟨he, by simp only [hold e (hclosed e he)]⟩
    · refine ⟨rfl, rfl, prefix_rfl, fun e he => ?_, ?_⟩
      · simp only [hold e (hclosed e (hglobal.mem_closed_of_chain he))]
        exact id
      · simp only [hold _ hdummy]

/-! A write to one field of one duration changes one function of the addresses. -/

theorem write_openWhen (shared : Shared n Heap) (d : Addr) (openWhen : Fin n → Option Nat) :
    (shared.write d fun duration => { duration with openWhen }) = { shared with
        durations := fun e =>
          { shared.durations e with
            openWhen :=
              update (fun e => (shared.durations e).openWhen) d openWhen e } } := by
  unfold Shared.write
  congr 1
  funext e
  by_cases heq : e = d <;> simp [heq]

theorem write_next (shared : Shared n Heap) (d : Addr) (next : Option Addr) :
    (shared.write d fun duration => { duration with next }) = { shared with
        durations := fun e =>
          { shared.durations e with
            next := update (fun e => (shared.durations e).next) d next e } } := by
  unfold Shared.write
  congr 1
  funext e
  by_cases heq : e = d <;> simp [heq]

theorem write_exit (shared : Shared n Heap) (d : Addr) :
    (shared.write d fun duration => { duration with exit := duration.exit + 1 }) = { shared with
        durations := fun e =>
          { shared.durations e with
            exit := update (fun e => (shared.durations e).exit) d ((shared.durations d).exit + 1) e } } := by
  unfold Shared.write
  congr 1
  funext e
  by_cases heq : e = d <;> simp [heq]

theorem write_collectible (shared : Shared n Heap) (d : Addr) (collectible : Bool) :
    (shared.write d fun duration => { duration with collectible }) = { shared with
        durations := fun e =>
          { shared.durations e with
            collectible :=
              update (fun e => (shared.durations e).collectible) d collectible e } } := by
  unfold Shared.write
  congr 1
  funext e
  by_cases heq : e = d <;> simp [heq]

def Ghost.close (ghost : Ghost n) (thread : Fin n) (myD d new : Addr) : Ghost n :=
  { ghost with
    order :=
      { closed := ghost.order.closed ++ [d]
        current := new
        owing := (ghost.order.join thread d).owing }
    limbo := some d
    spare := none
    count := Function.update ghost.count d (closingCount ghost myD d) }

theorem card_owing_join {pc : ClosePc}
    (hinv : ThreadInv variant thread shared ghost (.close item myD pc)) (hjoined : pc.joined = none) :
    ((ghost.order.join thread d).owing d).card = closingCount ghost myD d := by
  have howed := hinv.owed d
  simp only [Pc.owed, hjoined, mem_singleton] at howed
  by_cases heq : d = myD
  · simp [Order.join, closingCount, heq, Finset.insert_eq_of_mem (heq ▸ howed.mpr heq)]
  · simp [Order.join, closingCount, heq, Finset.card_insert_of_notMem fun h => heq (howed.mp h)]

attribute [local simp] Ghost.close

section

variable (hglobal : GlobalInv variant shared ghost)
include hglobal

theorem GlobalInv.spare_notMem {new : Addr}
    (hspare : ghost.spare = some new) : new ∉ ghost.order.closed ++ [ghost.order.current] := by
  have hnodup := hglobal.owned.nodup
  simp only [Ghost.live, hspare, Option.toList_some] at hnodup
  have happend : (ghost.order.closed ++ [ghost.order.current] ++ [new]).Nodup := by
    simpa using hnodup.of_cons
  rw [nodup_append] at happend
  exact fun hmem => happend.2.2 new hmem new (by simp) rfl

/-- The new duration is current: the old one is closed, and the closing thread has joined it. -/
theorem keeps_storeCurrent {new : Addr}
    (hinv : ThreadInv variant thread shared ghost (.close item myD (.storeCurrent d new))) :
    Keeps variant thread shared ghost ({ shared with currentD := new }.write d fun duration =>
        { duration with openWhen := shared.snapshot })
      (.close item myD (.pushRead d)) := by
  obtain ⟨rfl, hhead, hlimbo, hspare, hentry, hsound⟩ := hinv.at_pc
  have hcloser := hinv.closer.mpr rfl
  have hcount := card_owing_join hinv rfl (d := shared.currentD)
  have hnew := hglobal.spare_notMem hspare
  have hblank := hglobal.blank shared.currentD mem_cons_self
  have hjoin : ∀ e, e ≠ shared.currentD → (ghost.order.join thread shared.currentD).owing e = ghost.order.owing e := by
    intro e hne
    simp [Order.join, hne]
  have hcurrent : shared.currentD ∈ ghost.order.closed ++ [ghost.order.current] := by
    simp [hglobal.current]
  rw [write_openWhen]
  refine ⟨ghost.close thread myD shared.currentD new, ?_, ?_, fun other hne => ?_⟩
  · refine ⟨?_, rfl, ?_, ?_, hglobal.linked, ?_, ?_, ?_, ?_, hglobal.parity, hglobal.lock, ?_, hglobal.tail⟩
    · have hrecord : update (fun e => (shared.durations e).openWhen) shared.currentD
          shared.snapshot ghost.order.current = shared.snapshot := by
        rw [hglobal.current, update_self]
      have hclose := (hglobal.order.join thread hcurrent).close hnew hrecord fun e he =>
        update_of_ne (hglobal.closed_ne he) _ _
      simpa only [Ghost.close, Order.join, hglobal.current] using hclose
    · simp [hglobal.closed, hlimbo]
    · have howned := hglobal.owned
      have hlive : (ghost.close thread myD shared.currentD new).live = ghost.live := by
        simp [hspare, hglobal.current]
      rw [hlive]
      exact howned.congr rfl rfl
    · intro e he
      obtain rfl : shared.currentD = e := by simpa using he
      exact hblank.next
    · intro e he
      obtain rfl : e = new := by simpa using he
      have hfresh := hglobal.blank e (by simp [hspare])
      exact ⟨hfresh.exit, hfresh.collectible, hfresh.stw, hfresh.next⟩
    · intro e he
      by_cases heq : e = shared.currentD
      · subst heq
        have hsetter : ghost.setter shared.currentD = none := by
          by_contra hsome
          exact hglobal.closed_ne (hglobal.setter _ hsome) rfl
        refine ⟨?_, ?_, ?_, ?_, ?_, hblank.stw⟩
        · simp only [Ghost.close, hcount, hblank.exit, update_self]
          omega
        · simp only [Ghost.close, update_self, ← hcount]
          exact card_finset_fin_le _
        · simpa only [Ghost.close, update_self] using hsound
        · simp [hblank.collectible]
        · simp [hsetter]
      · have hmem : e ∈ ghost.order.closed := by simpa [heq] using he
        simpa only [Ghost.close, hjoin e heq, update_of_ne heq] using hglobal.counted e hmem
    · exact fun e he => mem_append_left _ (hglobal.setter e he)
    · simp [hcloser]
  · refine { hinv with owed := fun e => ?_, at_pc := ?_ }
    · simp only [Ghost.close, Order.mem_owing_join, hinv.owed, true_and]
      simp only [Pc.owed, ClosePc.joined, mem_singleton]
      split
      · simp [or_comm]
      · simp_all
    · refine ⟨rfl, rfl, ?_, hhead, ?_⟩
      · have hempty := hglobal.order.owing_eq_empty hnew
        have hne : new ≠ shared.currentD := by
          rintro rfl
          exact hnew hcurrent
        simp [EntryCounts, hjoin new hne, hempty, hentry]
      · have hmyD := hglobal.order.owing_mem myD thread ((hinv.owed myD).mpr (by simp [Pc.owed, ClosePc.joined]))
        simpa only [Ghost.close, hglobal.current] using hmyD
  · refine rely_of_closer hglobal hcloser hne (Nat.le_refl _) rfl (fun e => ?_) rfl ?_ rfl ?_ ?_
    · simp [Order.mem_owing_join, hne]
    · simpa [hcloser] using hne.symm
    · exact fun e he => ⟨mem_append_left _ he, rfl⟩
    · exact ⟨rfl, rfl, prefix_rfl, fun _ _ h => h, rfl⟩

theorem keeps_pushNext {prev : Addr}
    (hinv : ThreadInv variant thread shared ghost (.close item myD (.pushNext d prev))) :
    Keeps variant thread shared ghost (shared.write prev fun duration => { duration with next := some d })
      (.close item myD (.addAba d)) := by
  obtain ⟨hlimbo, hspare, hcounts, rfl, rfl, hmyD⟩ := hinv.at_pc
  have hcloser := hinv.closer.mpr rfl
  have hclosed : ghost.order.closed = ghost.chain ++ [shared.queueHead] := by
    rw [hglobal.closed, hlimbo]
    rfl
  have hnodup := hglobal.owned.nodup
  simp only [Ghost.live, hclosed, hspare, hglobal.current, Option.toList_none] at hnodup
  have hchain : (ghost.dummy :: (ghost.chain ++ [shared.queueHead])).Nodup := by
    rw [← cons_append] at hnodup
    exact (nodup_append.mp hnodup).1
  have hlast : ghost.last ∈ ghost.dummy :: ghost.chain := by
    rw [Ghost.last, getLastD_eq_getLast?]
    cases hget : ghost.chain.getLast? with
    | none => simp
    | some last => exact mem_cons_of_mem _ (mem_of_getLast? hget)
  have hcurrent : shared.currentD ≠ ghost.last := by
    intro heq
    rw [← heq] at hlast
    rw [← cons_append, nodup_append] at hnodup
    refine hnodup.2.2 shared.currentD ?_ shared.currentD (by simp) rfl
    rw [← cons_append]
    exact mem_append_left _ hlast
  rw [write_next]
  refine ⟨{ ghost with chain := ghost.chain ++ [shared.queueHead], limbo := none }, ?_, ?_, fun other hne => ?_⟩
  · refine { hglobal with
      closed := by simp [hclosed], owned := hglobal.owned.congr rfl rfl
      linked := hglobal.linked.snoc hchain (hglobal.limbo _ hlimbo), limbo := by simp, blank := ?_, counted := ?_
      rest := by simp [hcloser] }
    · intro e he
      obtain rfl : e = shared.currentD := by simpa [hspare] using he
      have hblank := hglobal.blank _ mem_cons_self
      exact ⟨hblank.exit, hblank.collectible, hblank.stw, by simpa only [update_of_ne hcurrent] using hblank.next⟩
    · intro e he
      exact { hglobal.counted e he with }
  · refine { hinv with at_pc := ?_ }
    refine ⟨⟨?_, rfl, hspare⟩, hcounts, by simp [hclosed], hmyD⟩
    simp [Ghost.last]
  · refine rely_of_closer hglobal hcloser hne (Nat.le_refl _) rfl (fun _ => Iff.rfl) rfl ?_ rfl
      (fun e he => ⟨he, rfl⟩) ⟨rfl, rfl, prefix_append _ _, fun _ _ h => h, rfl⟩
    simpa [hcloser] using hne.symm

theorem keeps_addAba {pc' : Pc} (hinv : ThreadInv variant thread shared ghost (.close item myD (.addAba d)))
    (howed : pc'.owed = (Pc.close item myD (.addAba d)).owed)
    (hflags : pc'.isInside = false ∧ pc'.closing = false ∧ pc'.collecting = false ∧ pc'.setting = none)
    (hat : ∀ shared' : Shared n Heap, PcInv variant shared' { ghost with closer := none } pc') :
    Keeps variant thread shared ghost { shared with aba := shared.aba + 1 } pc' := by
  obtain ⟨htidy, hcounts, -, -⟩ := hinv.at_pc
  have hcloser := hinv.closer.mpr rfl
  have hodd := hglobal.odd_of_closer hcloser
  obtain ⟨hisInside, hclosing, hcollecting, hsetting⟩ := hflags
  refine ⟨{ ghost with closer := none }, ?_, ?_, fun other hne => ?_⟩
  · refine { hglobal with
      owned := hglobal.owned.congr rfl rfl, parity := ?_
      rest := fun _ => ⟨{ htidy with }, hcounts⟩ }
    simp only [if_true]
    omega
  · refine ⟨?_, hinv.inside.trans hisInside.symm, ?_, by simp [hclosing], ?_, hat _⟩
    · rw [howed]; exact hinv.owed
    · rw [hsetting]; exact hinv.setter
    · rw [hcollecting]; exact hinv.collector
  · exact rely_of_closer hglobal hcloser hne (Nat.le_succ _) rfl (fun _ => Iff.rfl) rfl (by simp) rfl
      (fun e he => ⟨he, rfl⟩) ⟨rfl, rfl, prefix_rfl, fun _ _ h => h, rfl⟩

end

section

variable {scheme : Scheme n Heap Op} {pc : ClosePc} {pc' : Pc} {choice : Choice Op}
  {config : Config (Fin n) (Shared n Heap) Pc} (hglobal : GlobalInv scheme.variant config.shared ghost)
  (hinv : ThreadInv scheme.variant thread config.shared ghost (.close item myD pc))
  (hpc : config.threads thread = .close item myD pc) (hregular : Regular scheme config thread choice)
include hglobal hinv hpc hregular

theorem closeDuration_keeps (hcode : closeDuration scheme item myD config.shared pc = some (shared', pc')) :
    Keeps scheme.variant thread config.shared ghost shared' pc' := by
  have hat := hinv.at_pc
  cases pc with
  | readEntry d =>
    obtain ⟨rfl, htidy, hcounts⟩ := hat
    have hcounts' : config.shared.entry = _ := hcounts
    simp only [Regular, hpc] at hregular
    simp only [closeDuration] at hcode
    split at hcode
    · rename_i hvariant
      cases hcode
      exact keeps_zeroEntry hglobal hinv rfl ⟨rfl, { htidy with }, rfl, hvariant, hcounts⟩ rfl
    · rename_i hvariant
      cases hcode
      refine keeps_stay hglobal hinv ⟨rfl, htidy, ?_⟩ rfl
      rw [hvariant]
      simpa only [Sound, closingCount, ← hcounts'] using hregular hvariant
  | zeroEntry d =>
    obtain ⟨rfl, htidy, hsound⟩ := hat
    cases hcode
    exact keeps_zeroEntry hglobal hinv rfl ⟨rfl, { htidy with }, rfl, hsound⟩ rfl
  | storeEntry d entry =>
    obtain ⟨rfl, htidy, hentry, hvariant, rfl⟩ := hat
    cases hcode
    refine keeps_writeEntry hglobal hinv rfl ?_ ?_
    · split
      · rename_i hne
        refine ⟨rfl, { htidy with }, hentry, hvariant, hne, ?_⟩
        simp
      · rename_i heq
        refine ⟨rfl, { htidy with }, hentry, ?_⟩
        simp only [durations_write, if_true, hvariant, Sound, closingCount, heq, if_false]
        rfl
    · split <;> rfl
  | readCount d =>
    cases hcode
    exact keeps_stay hglobal hinv hat rfl
  | storeCount d entry =>
    obtain ⟨rfl, htidy, hentry, hvariant, hne, rfl⟩ := hat
    cases hcode
    refine keeps_writeEntry hglobal hinv rfl ⟨rfl, { htidy with }, hentry, ?_⟩ rfl
    simp [hvariant, Sound, closingCount, hne]
  | storeHead d =>
    obtain ⟨rfl, htidy, hentry, hsound⟩ := hat
    cases hcode
    refine keeps_writeHead hglobal hinv ⟨rfl, { htidy with }, hentry, ?_⟩ rfl
    simpa using hsound
  | lateHead d =>
    cases hcode
    refine keeps_writeHead hglobal hinv (pcInv_settleBoth hat.1 hat.2) ?_
    simp only [Pc.role, owed_settleBoth, flags_settleBoth]
    rfl
  | _ => simp [closeDuration] at hcode

theorem onExit_keeps (hcode : onExit scheme thread choice item myD config.shared pc = some (shared', pc')) :
    Keeps scheme.variant thread config.shared ghost shared' pc' := by
  have hat := hinv.at_pc
  unfold onExit at hcode
  split at hcode
  · split at hcode
    · cases hcode
      exact keeps_stay hglobal hinv trivial rfl
    · rename_i heven
      cases hcode
      exact keeps_stay hglobal hinv (show config.shared.aba % 2 = 0 by omega) rfl
  · split at hcode
    · rename_i haba
      simp only [Regular, hpc, AbaFits, haba, true_imp_iff] at hregular
      rw [hregular] at hcode
      cases hcode
      exact keeps_closeCas hglobal hinv haba
    · cases hcode
      exact keeps_stay hglobal hinv trivial rfl
  · cases hcode
    exact keeps_stay hglobal hinv ⟨rfl, hat.1, hat.2⟩ rfl
  · rw [Option.map_eq_some_iff] at hcode
    obtain ⟨⟨new, allocated⟩, hnew, hresult⟩ := hcode
    cases hresult
    exact keeps_new hglobal hinv hnew
  · cases hcode
    exact keeps_storeCurrent hglobal hinv
  · cases hcode
    exact keeps_stay hglobal hinv hat rfl
  · -- The queue's head is written: nobody but the closing thread reads it.
    cases hcode
    obtain ⟨hlimbo, hspare, hcounts, hprev, hmyD⟩ := hat
    refine keeps_frame hglobal hinv ?_ (fun _ _ => rfl) (by simp [Pc.closing, ClosePc.closing])
      ⟨hlimbo, hspare, hcounts, hprev, rfl, hmyD⟩ rfl
    exact ⟨rfl, rfl, rfl, rfl, rfl, rfl, rfl, fun _ => rfl, fun _ => rfl, fun _ => rfl, fun _ => rfl, fun _ => rfl⟩
  · cases hcode
    exact keeps_pushNext hglobal hinv
  · rename_i d
    obtain ⟨-, -, hd, hmyD⟩ := hat
    simp only [Regular, hpc, AbaFits] at hregular
    rw [hregular] at hcode
    cases hcode
    split
    · exact keeps_addAba hglobal hinv (owed_settleBoth myD d) (flags_settleBoth myD d) fun _ => pcInv_settleBoth hd hmyD
    · exact keeps_addAba hglobal hinv rfl ⟨rfl, rfl, rfl, rfl⟩ fun _ => ⟨hd, hmyD⟩
  · exact closeDuration_keeps hglobal hinv hpc hregular hcode

end

end Lfmr.DurationWindow
