import Lfmr.Concurrency.Piles
import Lfmr.Proof.DurationRuns

/-!
# Item lists of the root `dw.c`

Every item list is in one place at a time: free memory, the pool of a thread, a critical section, the
head of a duration, or the hands of the collector. So the nodes of its list are freed once, and nothing
else is, provided that a list begins empty.
-/

namespace Lfmr.DurationWindow

open Function Lfmr.Concurrency Lfmr.ClosingOrder

variable {n : Nat}

/-- Nodes are freed no more often than they have been passed to `free_node_later`. -/
def FreedRight (config : Config (Fin n) (Shared n (Nodes n)) Pc) : Prop :=
  ∀ p, config.shared.heap.freed.count p ≤ config.shared.heap.retired.count p

/-! ### The runs to be considered -/

def FreshEmpty (config : Config (Fin n) (Shared n (Nodes n)) Pc) (thread : Fin n) :
    Choice CellAddr → Prop
  | .enter _ address => config.shared.heap.itemListPool thread = [] → address = none
  | _ => True

def PassedOnce (config : Config (Fin n) (Shared n (Nodes n)) Pc) : Choice CellAddr → Prop
  | .client p => config.shared.heap.retired.count p = config.shared.heap.freed.count p
  | _ => True

def Proper (config : Config (Fin n) (Shared n (Nodes n)) Pc) (thread : Fin n)
    (choice : Choice CellAddr) : Prop :=
  Regular root config thread choice ∧ FreshEmpty config thread choice ∧ PassedOnce config choice

instance (config : Config (Fin n) (Shared n (Nodes n)) Pc) (thread : Fin n) (choice : Choice CellAddr) :
    Decidable (FreshEmpty config thread choice) := by
  unfold FreshEmpty
  split <;> infer_instance

instance (config : Config (Fin n) (Shared n (Nodes n)) Pc) (choice : Choice CellAddr) :
    Decidable (PassedOnce config choice) := by
  unfold PassedOnce
  split <;> infer_instance

instance (config : Config (Fin n) (Shared n (Nodes n)) Pc) (thread : Fin n) (choice : Choice CellAddr) :
    Decidable (Proper config thread choice) :=
  inferInstanceAs (Decidable (_ ∧ _ ∧ _))

/-! ### Where the item lists are -/

inductive Place (n : Nat)
  | free
  | pooled (thread : Fin n)
  | owned (thread : Fin n)
  | handed (d : Addr)
  | walked (thread : Fin n)
  deriving DecidableEq

/-- The place of each item list, what is left of its list, and the duration that the collector has
begun to clean and not yet taken out of the queue. -/
structure Books (n : Nat) where
  place : ItemAddr → Place n
  start : ItemAddr → Option CellAddr
  nodes : ItemAddr → List CellAddr
  collector : Option (Fin n)
  popping : Option Addr

def Pc.claim (thread : Fin n) : Pc → Option (ItemAddr × Place n)
  | .entry item _ | .inside item _ | .close item _ _ => some (item, .owned thread)
  | .collect _ (.cleanOne d item) => some (item, .handed d)
  | .collect _ (.cleanCell _ item _) => some (item, .walked thread)
  | _ => none

def Pc.popping : Pc → Option Addr
  | .collect _ (.cleanCell d _ _) | .collect _ (.popTail d) | .collect _ (.popNext d _)
  | .collect _ (.popFree d _ _) | .collect _ (.popStore d _) => some d
  | _ => none

/-- The head of the duration is going to be read, unless it is written again before. -/
structure Waiting (shared : Shared n (Nodes n)) (books : Books n) (d : Addr) : Prop where
  allocated : shared.allocated d = true
  unpooled : ∀ thread, d ∉ shared.durationPool thread
  tail : d ≠ shared.queueTail
  popping : books.popping ≠ some d

structure ItemsInv (shared : Shared n (Nodes n)) (books : Books n) : Prop where
  unallocated : ∀ i, shared.heap.allocated i = false → books.place i = .free
  pooled : ∀ thread, ∀ i ∈ shared.heap.itemListPool thread, books.place i = .pooled thread
  pool_nodup : ∀ thread, (shared.heap.itemListPool thread).Nodup
  handed : ∀ d, Waiting shared books d → ∀ i, (shared.durations d).head = some i →
    books.place i = .handed d
  start : ∀ i, books.place i ≠ .free → (∀ thread, books.place i ≠ .walked thread) →
    books.start i = shared.heap.address i
  idle : ∀ i, books.place i = .free ∨ (∃ thread, books.place i = .pooled thread) → books.start i = none
  piles : Piles shared.heap.mrNext books.start books.nodes
  passed : ∀ i, ∀ p ∈ books.nodes i, shared.heap.retired.count p = shared.heap.freed.count p + 1
  counts : ∀ p, shared.heap.freed.count p ≤ shared.heap.retired.count p
  lock : shared.lock = books.collector.isSome
  unlocked : books.collector = none → books.popping = none

def PopInv (thread : Fin n) (shared : Shared n (Nodes n)) : Pc → Prop
  | .collect _ (.popFree _ tail _) => tail = shared.queueTail
  | .collect _ (.popStore d next) => next = d ∧ shared.queueTail ∈ shared.durationPool thread
  | .close _ _ (.storeHead _) => False
  | _ => True

structure Claims (thread : Fin n) (shared : Shared n (Nodes n)) (books : Books n) (pc : Pc) : Prop where
  claim : ∀ i place, pc.claim thread = some (i, place) → books.place i = place
  walk : ∀ rest d i cur, pc = .collect rest (.cleanCell d i cur) → books.start i = cur
  collector : books.collector = some thread ↔ pc.collecting = true
  popping : pc.collecting = true → books.popping = pc.popping
  pop : PopInv thread shared pc

structure ItemsRely (thread : Fin n) (before after : Shared n (Nodes n) × Books n) : Prop where
  owned : ∀ i, before.2.place i = .owned thread → after.2.place i = .owned thread
  collector : after.2.collector = some thread ↔ before.2.collector = some thread
  popping : before.2.collector = some thread → after.2.popping = before.2.popping
  handed : before.2.collector = some thread → ∀ i d, before.2.place i = .handed d →
    after.2.place i = .handed d
  walked : before.2.collector = some thread → ∀ i, before.2.place i = .walked thread →
    after.2.place i = .walked thread ∧ after.2.start i = before.2.start i
  queueTail : before.2.collector = some thread → after.1.queueTail = before.1.queueTail
  durationPool : after.1.durationPool thread = before.1.durationPool thread

variable {thread : Fin n} {shared shared' : Shared n (Nodes n)} {books books' : Books n} {pc pc' : Pc}
  {item : ItemAddr} {heap : Nodes n} {d : Addr} {rest : Option Addr}
  {choice : Choice CellAddr} {ghost : Ghost n}

theorem place_update {i : ItemAddr} {place old new : Place n} (hi : books.place i = place)
    (hplace : books.place item = old) (hne : place ≠ old) : update books.place item new i = place := by
  rw [update_of_ne, hi]
  rintro rfl
  exact hne (hi.symm.trans hplace)

theorem Claims.stable {before after : Shared n (Nodes n) × Books n}
    (hclaims : Claims thread before.1 before.2 pc) (hrely : ItemsRely thread before after) :
    Claims thread after.1 after.2 pc := by
  have hcollector := hclaims.collector
  refine ⟨fun i place hclaim => ?_, ?_, hrely.collector.trans hcollector, fun hcollecting => ?_, ?_⟩
  · have hplace := hclaims.claim i place hclaim
    unfold Pc.claim at hclaim
    split at hclaim
    all_goals simp only [Option.some.injEq, Prod.mk.injEq, reduceCtorEq] at hclaim
    all_goals obtain ⟨rfl, rfl⟩ := hclaim
    · exact hrely.owned _ hplace
    · exact hrely.owned _ hplace
    · exact hrely.owned _ hplace
    · exact hrely.handed (hcollector.mpr rfl) _ _ hplace
    · exact (hrely.walked (hcollector.mpr rfl) _ hplace).1
  · rintro rest d i cur rfl
    have hplace := hclaims.claim i (.walked thread) rfl
    rw [(hrely.walked (hcollector.mpr rfl) i hplace).2]
    exact hclaims.walk rest d i cur rfl
  · rw [hrely.popping (hcollector.mpr hcollecting)]
    exact hclaims.popping hcollecting
  · have hpop := hclaims.pop
    unfold PopInv at hpop ⊢
    split
    · rw [hrely.queueTail (hcollector.mpr rfl)]
      exact hpop
    · rw [hrely.queueTail (hcollector.mpr rfl), hrely.durationPool]
      exact hpop
    · exact hpop
    · trivial

abbrev KeepsItems (thread : Fin n) := Concurrency.Keeps ItemsInv Claims ItemsRely thread

theorem keepsItems_frame (hitems : ItemsInv shared books) (hheap : shared'.heap = shared.heap)
    (hlock : shared'.lock = shared.lock)
    (hhead : ∀ d, Waiting shared' books d → ∀ i, (shared'.durations d).head = some i →
      Waiting shared books d ∧ (shared.durations d).head = some i)
    (htail : books.collector ≠ some thread → shared'.queueTail = shared.queueTail)
    (hpool : ∀ other, other ≠ thread → shared'.durationPool other = shared.durationPool other)
    (hclaims : Claims thread shared' books pc') : KeepsItems thread shared books shared' pc' := by
  refine ⟨books, ?_, hclaims, fun other hne => ?_⟩
  · have hhanded : ∀ d, Waiting shared' books d → ∀ i, (shared'.durations d).head = some i →
        books.place i = .handed d := by
      intro d hwaiting i hi
      obtain ⟨hwaiting, hi⟩ := hhead d hwaiting i hi
      exact hitems.handed d hwaiting i hi
    cases shared'
    cases hheap
    cases hlock
    exact { hitems with handed := hhanded }
  · refine ⟨fun _ h => h, Iff.rfl, fun _ => rfl, fun _ _ _ h => h, fun _ _ h => ⟨h, rfl⟩,
      fun hother => htail ?_, hpool other hne⟩
    rw [hother]
    simpa using hne

/-- What the books say of a thread, as far as it does not depend on the cell that it is at. -/
def Pc.stand (thread : Fin n) (pc : Pc) : Option (ItemAddr × Place n) × Bool × Option Addr :=
  (pc.claim thread, pc.collecting, pc.popping)

def QuietInv (thread : Fin n) (shared : Shared n (Nodes n)) : Pc → Prop
  | .collect _ (.cleanCell _ _ _) => False
  | pc => PopInv thread shared pc

theorem Claims.move (hclaims : Claims thread shared books pc) (hstand : pc'.stand thread = pc.stand thread)
    (hquiet : QuietInv thread shared' pc') : Claims thread shared' books pc' := by
  simp only [Pc.stand, Prod.mk.injEq] at hstand
  obtain ⟨hclaim, hcollecting, hpopping⟩ := hstand
  refine ⟨?_, ?_, ?_, ?_, ?_⟩
  · rw [hclaim]; exact hclaims.claim
  · rintro rest d i cur rfl
    exact hquiet.elim
  · rw [hcollecting]; exact hclaims.collector
  · rw [hcollecting, hpopping]; exact hclaims.popping
  · unfold QuietInv at hquiet
    split at hquiet
    · exact hquiet.elim
    · exact hquiet

theorem keepsItems_quiet {sections : Sections (Fin n)} {aba entry pending : Nat} {currentD queueHead : Addr}
    {durations : Addr → Duration n} (hitems : ItemsInv shared books) (hclaims : Claims thread shared books pc)
    (hquiet : QuietInv thread shared pc') (hstand : pc'.stand thread = pc.stand thread)
    (hhead : ∀ d, (durations d).head = (shared.durations d).head) :
    KeepsItems thread shared books
      { shared with toSections := sections, aba, entry, pending, currentD, queueHead, durations } pc' := by
  refine keepsItems_frame hitems rfl rfl ?_ (fun _ => rfl) (fun _ _ => rfl) (hclaims.move hstand hquiet)
  intro d hwaiting i hi
  exact ⟨{ hwaiting with }, (hhead d).symm.trans hi⟩

/-! ### Item lists in a critical section -/

section

variable (hitems : ItemsInv shared books)
include hitems

theorem keepsItems_own {i : ItemAddr} (hclaims : Claims thread shared books pc)
    (hidle : books.place i = .free ∨ ∃ other, books.place i = .pooled other)
    (hmrNext : heap.mrNext = shared.heap.mrNext) (hretired : heap.retired = shared.heap.retired)
    (hfreed : heap.freed = shared.heap.freed) (haddress : heap.address i = none)
    (hothers : ∀ j, j ≠ i → heap.address j = shared.heap.address j)
    (hallocated : ∀ j, heap.allocated j = false → shared.heap.allocated j = false ∧ j ≠ i)
    (hpool : ∀ other, ∀ j ∈ heap.itemListPool other, j ∈ shared.heap.itemListPool other ∧ j ≠ i)
    (hnodup : ∀ other, (heap.itemListPool other).Nodup)
    (hclaim : pc'.claim thread = some (i, .owned thread)) (hcollecting : pc.collecting = false)
    (hcollecting' : pc'.collecting = false) (hpop : ∀ shared', PopInv thread shared' pc') :
    KeepsItems thread shared books { shared with heap } pc' := by
  have hstart := hitems.idle i hidle
  have hsame : ∀ {j place}, books.place j = place → place ≠ .free → (∀ other, place ≠ .pooled other) →
      update books.place i (.owned thread) j = place := by
    intro j place hj hfree hpooled
    rcases hidle with h | ⟨other, h⟩
    · exact place_update hj h hfree
    · exact place_update hj h (hpooled other)
  refine ⟨{ books with place := update books.place i (.owned thread) }, ?_, ?_, fun other hne => ?_⟩
  · refine ⟨?_, ?_, hnodup, ?_, ?_, ?_, ?_, ?_, ?_, hitems.lock, hitems.unlocked⟩
    · intro j hj
      obtain ⟨hj, hne⟩ := hallocated j hj
      simpa [hne] using hitems.unallocated j hj
    · intro other j hj
      obtain ⟨hj, hne⟩ := hpool other j hj
      simpa [hne] using hitems.pooled other j hj
    · intro d hwaiting j hj
      exact hsame (hitems.handed d { hwaiting with } j hj) (by simp) (by simp)
    · intro j hfree hwalked
      by_cases heq : j = i
      · subst heq
        exact hstart.trans haddress.symm
      · simp only [update_of_ne heq] at hfree hwalked
        exact (hitems.start j hfree hwalked).trans (hothers j heq).symm
    · intro j hj
      by_cases heq : j = i
      · simp [heq] at hj
      · simp only [update_of_ne heq] at hj
        exact hitems.idle j hj
    · simp only [hmrNext]
      exact hitems.piles
    · simp only [hretired, hfreed]
      exact hitems.passed
    · simp only [hretired, hfreed]
      exact hitems.counts
  · refine ⟨?_, ?_, ?_, by simp [hcollecting'], hpop _⟩
    · intro j place hj
      rw [hclaim] at hj
      cases hj
      simp
    · rintro rest d j cur rfl
      simp [Pc.collecting] at hcollecting'
    · rw [hcollecting', ← hcollecting]
      exact hclaims.collector
  · refine ⟨fun j hj => ?_, Iff.rfl, fun _ => rfl, fun _ j d hj => ?_, fun _ j hj => ⟨?_, rfl⟩, fun _ => rfl, rfl⟩
    all_goals exact hsame hj (by simp) (by simp)

theorem enter_keepsItems {i : ItemAddr} {address : Option CellAddr} (hclaims : Claims thread shared books .outside)
    (hempty : shared.heap.itemListPool thread = [] → address = none)
    (hnew : newItemList thread item address shared.heap = some (i, heap)) :
    KeepsItems thread shared books { shared with heap } (.entry i .loadAba) := by
  unfold newItemList at hnew
  split at hnew
  · rename_i pooled rest hpool
    simp only [Option.some.injEq, Prod.mk.injEq] at hnew
    obtain ⟨rfl, rfl⟩ := hnew
    have hplace := hitems.pooled thread pooled (by simp [hpool])
    have hnodup := hitems.pool_nodup thread
    rw [hpool, List.nodup_cons] at hnodup
    have hstart := hitems.idle pooled (Or.inr ⟨thread, hplace⟩)
    refine keepsItems_own hitems hclaims (Or.inr ⟨thread, hplace⟩) rfl rfl rfl ?_ (fun _ _ => rfl) ?_ ?_
      ?_ rfl rfl rfl fun _ => trivial
    · rw [← hitems.start pooled (by simp [hplace]) (by simp [hplace])]
      exact hstart
    · intro j hj
      refine ⟨hj, ?_⟩
      rintro rfl
      simp [hitems.unallocated j hj] at hplace
    · intro other j hj
      by_cases heq : other = thread
      · subst heq
        replace hj : j ∈ rest := by simpa using hj
        refine ⟨by simp [hpool, hj], ?_⟩
        rintro rfl
        exact hnodup.1 hj
      · replace hj : j ∈ shared.heap.itemListPool other := by simpa [heq] using hj
        refine ⟨hj, ?_⟩
        rintro rfl
        have hother := hitems.pooled other j hj
        rw [hplace, Place.pooled.injEq] at hother
        exact heq hother.symm
    · intro other
      by_cases heq : other = thread
      · subst heq
        simpa using hnodup.2
      · simpa [heq] using hitems.pool_nodup other
  · rename_i hpool
    split at hnew
    · simp at hnew
    · rename_i hfree
      cases hnew
      have hplace := hitems.unallocated item (by simpa using hfree)
      refine keepsItems_own hitems hclaims (Or.inl hplace) rfl rfl rfl ?_ ?_ ?_ ?_ hitems.pool_nodup rfl
        rfl rfl fun _ => trivial
      · simpa using hempty hpool
      · intro j hne
        simp [hne]
      · intro j hj
        by_cases heq : j = item
        · simp [heq] at hj
        · exact ⟨by simpa [heq] using hj, heq⟩
      · intro other j hj
        refine ⟨hj, ?_⟩
        rintro rfl
        simp [hitems.pooled other j hj] at hplace

theorem client_keepsItems {p : CellAddr} (hclaims : Claims thread shared books (.inside item d))
    (honce : shared.heap.retired.count p = shared.heap.freed.count p) :
    KeepsItems thread shared books { shared with heap := root.client p item shared.heap } (.inside item d) := by
  have hplace := hclaims.claim item _ rfl
  have hstart := hitems.start item (by simp [hplace]) (by simp [hplace])
  have hnew : ∀ i, p ∉ books.nodes i := by
    intro i hi
    have hcount := hitems.passed i p hi
    omega
  refine ⟨{ books with
    start := update books.start item (some p)
    nodes := update books.nodes item (p :: books.nodes item) }, ?_, ?_, fun other hne => ?_⟩
  · refine { hitems with handed := ?_, start := ?_, idle := ?_, piles := ?_, passed := ?_, counts := ?_ }
    · intro e hwaiting i hi
      exact hitems.handed e { hwaiting with } i hi
    · intro i hfree hwalked
      by_cases heq : i = item
      · simp [heq, root]
      · simpa [heq, root] using hitems.start i hfree hwalked
    · intro i hi
      have hne : i ≠ item := by
        rintro rfl
        simp [hplace] at hi
      simpa [hne] using hitems.idle i hi
    · have hpush := hitems.piles.push item hnew
      rw [hstart] at hpush
      exact hpush
    · intro i q hq
      by_cases heq : q = p
      · subst heq
        simp [root, honce]
      · have hmem : q ∈ books.nodes i := by
          by_cases hi : i = item
          · subst hi
            simpa [heq] using hq
          · simpa [hi] using hq
        simpa [root, Ne.symm heq] using hitems.passed i q hmem
    · intro q
      have hcounts := hitems.counts q
      simp only [root, List.count_append]
      omega
  · exact { hclaims with walk := by simp, pop := trivial }
  · refine ⟨fun _ h => h, Iff.rfl, fun _ => rfl, fun _ _ _ h => h, fun _ i hi => ⟨hi, ?_⟩, fun _ => rfl, rfl⟩
    have hne : i ≠ item := by
      rintro rfl
      simp [hplace] at hi
    simp [hne]

theorem lateHead_keepsItems {myD : Addr} (hclaims : Claims thread shared books (.close item myD (.lateHead d))) :
    KeepsItems thread shared books
      (shared.write d fun duration => { duration with head := some item }) (settleBoth myD d) := by
  have hplace := hclaims.claim item _ rfl
  have hcollecting : (settleBoth myD d).collecting = false := (flags_settleBoth myD d).2.2.1
  have hclaim : (settleBoth myD d).claim thread = none := by
    unfold settleBoth
    split <;> rfl
  refine ⟨{ books with place := update books.place item (.handed d) }, ?_, ?_, fun other hne => ?_⟩
  · refine { hitems with unallocated := ?_, pooled := ?_, handed := ?_, start := ?_, idle := ?_ }
    · exact fun i hi => place_update (hitems.unallocated i hi) hplace (by simp)
    · exact fun other i hi => place_update (hitems.pooled other i hi) hplace (by simp)
    · intro e hwaiting i hi
      have hold : Waiting shared books e := { hwaiting with }
      rw [durations_write] at hi
      split at hi
      · rename_i heq
        obtain rfl : item = i := by simpa using hi
        simp [heq]
      · exact place_update (hitems.handed e hold i hi) hplace (by simp)
    · intro i hfree hwalked
      by_cases heq : i = item
      · subst heq
        exact hitems.start i (by simp [hplace]) (by simp [hplace])
      · simp only [update_of_ne heq] at hfree hwalked
        exact hitems.start i hfree hwalked
    · intro i hi
      by_cases heq : i = item
      · simp [heq] at hi
      · simp only [update_of_ne heq] at hi
        exact hitems.idle i hi
  · refine ⟨by simp [hclaim], ?_, ?_, by simp [hcollecting], ?_⟩
    · intro rest e i cur heq
      rw [heq] at hcollecting
      simp [Pc.collecting] at hcollecting
    · rw [hcollecting]
      exact hclaims.collector
    · unfold settleBoth
      split <;> trivial
  · refine ⟨fun i hi => ?_, Iff.rfl, fun _ => rfl, fun _ i e hi => ?_, fun _ i hi => ⟨?_, rfl⟩, fun _ => rfl, rfl⟩
    all_goals exact place_update hi hplace (by simp [hne])

end

/-! ### Item lists in the hands of the collector -/

section

variable (hitems : ItemsInv shared books)
include hitems

theorem lock_keepsItems (hlock : shared.lock = false) :
    KeepsItems thread shared books { shared with lock := true } (.collect rest .loadPending) := by
  have hcollector : books.collector = none := by
    have hbooks := hitems.lock
    rw [hlock] at hbooks
    simpa using hbooks.symm
  have hpopping := hitems.unlocked hcollector
  refine ⟨{ books with collector := some thread }, ?_, ?_, fun other hne => ?_⟩
  · exact { hitems with
      handed := fun d hwaiting => hitems.handed d { hwaiting with }, lock := rfl
      unlocked := by simp }
  · exact ⟨by simp [Pc.claim], by simp, by simp [Pc.collecting], fun _ => hpopping, trivial⟩
  · refine ⟨fun _ h => h, ?_, ?_, ?_, ?_, fun _ => rfl, rfl⟩
    all_goals simp [hcollector, hne.symm]

theorem unlock_keepsItems (hclaims : Claims thread shared books pc) (hcollecting : pc.collecting = true)
    (hpopping : pc.popping = none) :
    KeepsItems thread shared books { shared with lock := false } (settleRest rest) := by
  have hcollector := hclaims.collector.mpr hcollecting
  have hnone : books.popping = none := (hclaims.popping hcollecting).trans hpopping
  have hcollecting' : (settleRest rest).collecting = false := (flags_settleRest rest).2.2.1
  refine ⟨{ books with collector := none }, ?_, ?_, fun other hne => ?_⟩
  · exact { hitems with
      handed := fun d hwaiting => hitems.handed d { hwaiting with }, lock := rfl
      unlocked := fun _ => hnone }
  · refine ⟨?_, ?_, by simp [hcollecting'], by simp [hcollecting'], ?_⟩
    · cases rest <;> simp [settleRest, Pc.claim]
    · cases rest <;> simp [settleRest]
    · cases rest <;> trivial
  · refine ⟨fun _ h => h, ?_, ?_, ?_, ?_, fun _ => rfl, rfl⟩
    all_goals simp [hcollector, hne.symm]

theorem cleanOne_keepsItems (hclaims : Claims thread shared books (.collect rest (.cleanOne d item))) :
    KeepsItems thread shared books shared (.collect rest (.cleanCell d item (shared.heap.address item))) := by
  have hplace := hclaims.claim item _ rfl
  have hcollector := hclaims.collector.mpr rfl
  have hpopping : books.popping = none := hclaims.popping rfl
  refine ⟨{ books with
    place := update books.place item (.walked thread), popping := some d }, ?_, ?_,
    fun other hne => ?_⟩
  · refine { hitems with
      unallocated := ?_, pooled := ?_, handed := ?_, start := ?_, idle := ?_, unlocked := by simp [hcollector] }
    · exact fun i hi => place_update (hitems.unallocated i hi) hplace (by simp)
    · exact fun other i hi => place_update (hitems.pooled other i hi) hplace (by simp)
    · intro e hwaiting i hi
      have hed : e ≠ d := by
        rintro rfl
        exact hwaiting.popping rfl
      exact place_update (hitems.handed e ⟨hwaiting.1, hwaiting.2, hwaiting.3, by simp [hpopping]⟩ i hi) hplace
        (by simp [hed])
    · intro i hfree hwalked
      by_cases heq : i = item
      · simp [heq] at hwalked
      · simp only [update_of_ne heq] at hfree hwalked
        exact hitems.start i hfree hwalked
    · intro i hi
      by_cases heq : i = item
      · simp [heq] at hi
      · simp only [update_of_ne heq] at hi
        exact hitems.idle i hi
  · refine ⟨?_, ?_, by simp [hcollector, Pc.collecting], fun _ => rfl, trivial⟩
    · intro i place hi
      cases hi
      simp
    · intro rest' e i cur heq
      simp only [Pc.collect.injEq, CollectPc.cleanCell.injEq] at heq
      obtain ⟨rfl, rfl, rfl, rfl⟩ := heq
      exact hitems.start item (by simp [hplace]) (by simp [hplace])
  · refine ⟨fun i hi => ?_, Iff.rfl, ?_, ?_, ?_, fun _ => rfl, rfl⟩
    · exact place_update hi hplace (by simp)
    all_goals simp [hcollector, hne.symm]

theorem visit_keepsItems {cur : CellAddr}
    (hclaims : Claims thread shared books (.collect rest (.cleanCell d item (some cur)))) :
    KeepsItems thread shared books { shared with heap := { shared.heap with freed := shared.heap.freed ++ [cur] } }
      (.collect rest (.cleanCell d item (shared.heap.mrNext cur))) := by
  have hplace := hclaims.claim item _ rfl
  have hcollector := hclaims.collector.mpr rfl
  have hstart := hclaims.walk rest d item (some cur) rfl
  obtain ⟨later, hnodes, htake⟩ := hitems.piles.take hstart
  have hcount := hitems.passed item cur (by simp [hnodes])
  refine ⟨{ books with
    start := update books.start item (shared.heap.mrNext cur)
    nodes := update books.nodes item later }, ?_, ?_, fun other hne => ?_⟩
  · refine { hitems with
      handed := fun e hwaiting => hitems.handed e { hwaiting with }, start := ?_
      idle := ?_, piles := htake, passed := ?_, counts := ?_ }
    · intro i hfree hwalked
      have hne : i ≠ item := by
        rintro rfl
        exact hwalked thread hplace
      simpa [hne] using hitems.start i hfree hwalked
    · intro i hi
      have hne : i ≠ item := by
        rintro rfl
        simp [hplace] at hi
      simpa [hne] using hitems.idle i hi
    · intro i p hp
      replace hp : p ∈ update books.nodes item later i := hp
      have hmem : p ∈ books.nodes i ∧ p ≠ cur := by
        by_cases heq : i = item
        · subst heq
          have hnodup := hitems.piles.nodup i
          rw [hnodes, List.nodup_cons] at hnodup
          rw [update_self] at hp
          refine ⟨by simp [hnodes, hp], ?_⟩
          rintro rfl
          exact hnodup.1 hp
        · rw [update_of_ne heq] at hp
          refine ⟨hp, ?_⟩
          rintro rfl
          exact heq (hitems.piles.disjoint i item p hp (by simp [hnodes]))
      simpa [Ne.symm hmem.2] using hitems.passed i p hmem.1
    · intro p
      by_cases heq : p = cur
      · subst heq
        simp only [List.count_append, List.count_singleton_self]
        omega
      · simpa [Ne.symm heq] using hitems.counts p
  · refine ⟨?_, ?_, hclaims.collector, hclaims.popping, trivial⟩
    · intro i place hi
      exact hclaims.claim i place hi
    · intro rest' e i cur' heq
      simp only [Pc.collect.injEq, CollectPc.cleanCell.injEq] at heq
      obtain ⟨rfl, rfl, rfl, rfl⟩ := heq
      simp
  · refine ⟨fun _ h => h, Iff.rfl, fun _ => rfl, fun _ _ _ h => h, ?_, fun _ => rfl, rfl⟩
    simp [hcollector, hne.symm]

/-- The empty item list goes into the pool of the collector, on top of what it keeps of it. -/
theorem toPool_keepsItems {kept : List ItemAddr}
    (hclaims : Claims thread shared books (.collect rest (.cleanCell d item none)))
    (hkept : kept.Sublist (shared.heap.itemListPool thread))
    (hmrNext : heap.mrNext = shared.heap.mrNext) (hretired : heap.retired = shared.heap.retired)
    (hfreed : heap.freed = shared.heap.freed)
    (haddress : heap.address = update shared.heap.address item none)
    (hallocated : ∀ i, heap.allocated i = false → shared.heap.allocated i = false ∨
      (i ∈ shared.heap.itemListPool thread ∧ i ∉ kept))
    (hpool : heap.itemListPool = update shared.heap.itemListPool thread (item :: kept)) :
    KeepsItems thread shared books { shared with heap } (.collect rest (.popTail d)) := by
  have hplace := hclaims.claim item _ rfl
  have hcollector := hclaims.collector.mpr rfl
  have hstart := hclaims.walk rest d item none rfl
  have hunpooled : ∀ other, item ∉ shared.heap.itemListPool other := by
    intro other hmem
    simp [hitems.pooled other item hmem] at hplace
  let place : ItemAddr → Place n := fun i =>
    if i = item then .pooled thread
    else if i ∈ shared.heap.itemListPool thread ∧ i ∉ kept then .free
    else books.place i
  -- Only item lists of the pool move besides.
  have hsame : ∀ i, i ≠ item → (∀ other, books.place i ≠ .pooled other) → place i = books.place i := by
    intro i hne hnot
    have hpooled : i ∉ shared.heap.itemListPool thread :=
      fun hmem => hnot thread (hitems.pooled thread i hmem)
    simp [place, hne, hpooled]
  have hcases : ∀ i, i ≠ item → place i = .free ∨ place i = books.place i := by
    intro i hne
    simp only [place, hne, if_false]
    split
    · exact Or.inl rfl
    · exact Or.inr rfl
  have hbooks : ∀ i, i ≠ item → place i = .free → books.start i = none := by
    intro i hne hfree
    simp only [place, hne, if_false] at hfree
    split at hfree
    · rename_i hmem
      exact hitems.idle i (Or.inr ⟨thread, hitems.pooled thread i hmem.1⟩)
    · exact hitems.idle i (Or.inl hfree)
  refine ⟨{ books with place }, ?_, ?_, fun other hne => ?_⟩
  · refine ⟨?_, ?_, ?_, ?_, ?_, ?_, ?_, ?_, ?_, hitems.lock, hitems.unlocked⟩
    · intro i hi
      rcases hallocated i hi with hold | hflushed
      · have hfree := hitems.unallocated i hold
        have hne : i ≠ item := by
          rintro rfl
          simp [hplace] at hfree
        exact (hsame i hne (by simp [hfree])).trans hfree
      · have hne : i ≠ item := by
          rintro rfl
          exact hunpooled thread hflushed.1
        simp [place, hne, hflushed]
    · intro other i hi
      simp only [hpool] at hi
      by_cases heq : other = thread
      · subst heq
        rw [update_self, List.mem_cons] at hi
        rcases hi with rfl | hi
        · simp [place]
        · have hne : i ≠ item := by
            rintro rfl
            exact hunpooled other (hkept.subset hi)
          simpa [place, hne, hi] using hitems.pooled other i (hkept.subset hi)
      · rw [update_of_ne heq] at hi
        have hold := hitems.pooled other i hi
        have hne : i ≠ item := by
          rintro rfl
          exact hunpooled other hi
        have hnot : i ∉ shared.heap.itemListPool thread := by
          intro hmem
          rw [hitems.pooled thread i hmem, Place.pooled.injEq] at hold
          exact heq hold.symm
        simpa [place, hne, hnot] using hold
    · intro other
      simp only [hpool]
      by_cases heq : other = thread
      · subst heq
        rw [update_self, List.nodup_cons]
        exact ⟨fun hmem => hunpooled other (hkept.subset hmem), hkept.nodup (hitems.pool_nodup other)⟩
      · rw [update_of_ne heq]
        exact hitems.pool_nodup other
    · intro e hwaiting i hi
      have hhanded := hitems.handed e { hwaiting with } i hi
      have hne : i ≠ item := by
        rintro rfl
        simp [hplace] at hhanded
      exact (hsame i hne (by simp [hhanded])).trans hhanded
    · intro i hfree hwalked
      by_cases heq : i = item
      · simp [heq, haddress, hstart]
      · simp only [haddress, update_of_ne heq]
        rcases hcases i heq with hnow | hnow
        · exact absurd hnow hfree
        · simp only [hnow] at hfree hwalked
          exact hitems.start i hfree hwalked
    · intro i hi
      by_cases heq : i = item
      · rw [heq]
        exact hstart
      · rcases hi with hfree | ⟨other, hpooled⟩
        · exact hbooks i heq hfree
        · rcases hcases i heq with hnow | hnow
          · exact hbooks i heq hnow
          · exact hitems.idle i (Or.inr ⟨other, hnow.symm.trans hpooled⟩)
    · simp only [hmrNext]
      exact hitems.piles
    · simp only [hretired, hfreed]
      exact hitems.passed
    · simp only [hretired, hfreed]
      exact hitems.counts
  · exact ⟨by simp [Pc.claim], by simp, hclaims.collector, hclaims.popping, trivial⟩
  · refine ⟨fun i hi => ?_, Iff.rfl, ?_, ?_, ?_, fun _ => rfl, rfl⟩
    · replace hi : books.place i = .owned other := hi
      have hne' : i ≠ item := by
        rintro rfl
        simp [hplace] at hi
      exact (hsame i hne' (by simp [hi])).trans hi
    all_goals simp [hcollector, hne.symm]

theorem release_keepsItems (hclaims : Claims thread shared books (.collect rest (.cleanCell d item none))) :
    KeepsItems thread shared books { shared with heap := root.release thread item shared.heap }
      (.collect rest (.popTail d)) := by
  simp only [root, freeItemList]
  split
  · -- The pool is full, and all that it holds goes back to the allocator.
    refine toPool_keepsItems hitems hclaims (List.nil_sublist _) rfl rfl rfl rfl ?_ rfl
    intro i hi
    by_cases hmem : i ∈ shared.heap.itemListPool thread
    · exact Or.inr ⟨hmem, by simp⟩
    · exact Or.inl (by simpa [hmem] using hi)
  · exact toPool_keepsItems hitems hclaims (List.Sublist.refl _) rfl rfl rfl rfl (fun _ hi => Or.inl hi) rfl

theorem popStore_keepsItems {next : Addr} (hclaims : Claims thread shared books (.collect rest (.popStore d next))) :
    KeepsItems thread shared books { shared with queueTail := next } (.collect rest (.readStw d)) := by
  obtain ⟨rfl, hpool⟩ := hclaims.pop
  have hcollector := hclaims.collector.mpr rfl
  have hpopping : books.popping = some next := hclaims.popping rfl
  refine ⟨{ books with popping := none }, ?_, ?_, fun other hne => ?_⟩
  · refine { hitems with handed := fun e hwaiting => ?_, unlocked := fun _ => rfl }
    refine hitems.handed e ⟨hwaiting.1, hwaiting.2, ?_, ?_⟩
    · rintro rfl
      exact hwaiting.unpooled thread hpool
    · rw [hpopping]
      simpa using (Ne.symm hwaiting.tail)
  · exact ⟨by simp [Pc.claim], by simp, hclaims.collector, fun _ => rfl, trivial⟩
  · refine ⟨fun _ h => h, Iff.rfl, ?_, ?_, ?_, ?_, rfl⟩
    all_goals simp [hcollector, hne.symm]

end

theorem new_keepsItems {myD new : Addr}
    (hitems : ItemsInv shared books) (hclaims : Claims thread shared books (.close item myD (.new d)))
    (hnew : newDuration .root thread shared choice = some (new, shared')) :
    KeepsItems thread shared books shared' (.close item myD (.storeCurrent d new)) := by
  unfold newDuration at hnew
  split at hnew
  · split at hnew
    · simp at hnew
    · obtain ⟨hfree, rfl, rfl⟩ := malloc_eq hnew
      refine keepsItems_frame hitems rfl rfl ?_ (fun _ => rfl) (fun _ _ => rfl) (hclaims.move rfl trivial)
      intro e hwaiting i hi
      by_cases heq : e = new
      · simp [heq, Duration.reset] at hi
      · exact ⟨⟨by simpa [heq] using hwaiting.1, hwaiting.2, hwaiting.3, hwaiting.4⟩,
          by simpa [heq] using hi⟩
  · split at hnew
    · rename_i first rest hpool
      cases hnew
      refine keepsItems_frame hitems rfl rfl ?_ (fun _ => rfl) ?_ (hclaims.move rfl trivial)
      · intro e hwaiting i hi
        rw [durations_write] at hi
        split at hi
        · simp [Duration.reset] at hi
        · rename_i hne
          refine ⟨⟨hwaiting.1, fun other hmem => ?_, hwaiting.3, hwaiting.4⟩, hi⟩
          have hunpooled := hwaiting.unpooled other
          by_cases heq : other = thread
          · subst heq
            rw [hpool, List.mem_cons] at hmem
            exact hunpooled (by simpa [Shared.write] using hmem.resolve_left hne)
          · exact hunpooled (by simpa [Shared.write, heq] using hmem)
      · intro other hne
        simp [Shared.write, hne]
    · simp at hnew
  · simp at hnew

theorem popFree_keepsItems {tail : Addr} (hitems : ItemsInv shared books)
    (hclaims : Claims thread shared books (.collect rest (.popFree d tail d))) :
    KeepsItems thread shared books (freeDuration .root thread tail shared) (.collect rest (.popStore d d)) := by
  obtain rfl : tail = shared.queueTail := hclaims.pop
  unfold freeDuration
  simp only
  split
  · refine keepsItems_frame hitems rfl rfl ?_ (fun _ => rfl) ?_ (hclaims.move rfl ⟨rfl, by simp⟩)
    · intro e hwaiting i hi
      obtain ⟨halloc, hunpooled, htail, hpopping⟩ := hwaiting
      simp only [Bool.and_eq_true, Bool.not_eq_true', List.contains_eq_mem, decide_eq_false_iff_not]
        at halloc
      refine ⟨⟨halloc.1, fun other => ?_, htail, hpopping⟩, hi⟩
      by_cases heq : other = thread
      · rw [heq]
        exact halloc.2
      · simpa [heq] using hunpooled other
    · intro other hne
      simp [hne]
  · refine keepsItems_frame hitems rfl rfl ?_ (fun _ => rfl) ?_ (hclaims.move rfl ⟨rfl, by simp⟩)
    · intro e hwaiting i hi
      obtain ⟨halloc, hunpooled, htail, hpopping⟩ := hwaiting
      refine ⟨⟨halloc, fun other hmem => hunpooled other ?_, htail, hpopping⟩, hi⟩
      by_cases heq : other = thread
      · subst heq
        simp [hmem]
      · simpa [heq] using hmem
    · intro other hne
      simp [hne]

theorem readHead_keepsItems (hglobal : GlobalInv .root shared ghost)
    (hinv : ThreadInv .root thread shared ghost (.collect rest (.readHead d)))
    (hitems : ItemsInv shared books) (hclaims : Claims thread shared books (.collect rest (.readHead d)))
    (hhead : (shared.durations d).head = some item) :
    KeepsItems thread shared books shared (.collect rest (.cleanOne d item)) := by
  obtain ⟨-, htail, hfirst, -⟩ := hinv.at_pc
  have hclosed := hglobal.mem_closed_of_chain (List.mem_of_mem_head? hfirst)
  have hlive : d ∈ ghost.live := by simp [Ghost.live, hclosed]
  have hnodup := hglobal.owned.nodup
  rw [Ghost.live, List.nodup_cons] at hnodup
  have hpopping : books.popping = none := hclaims.popping rfl
  have hwaiting : Waiting shared books d := by
    refine ⟨hglobal.owned.allocated d hlive, fun other hmem => ?_, ?_, by simp [hpopping]⟩
    · exact (hglobal.owned.pooled other d hmem).2 hlive
    · rw [htail]
      rintro rfl
      exact hnodup.1 (List.mem_append_left _ hclosed)
  refine keepsItems_frame hitems rfl rfl (fun _ hwaiting _ hi => ⟨hwaiting, hi⟩) (fun _ => rfl)
    (fun _ _ => rfl) ⟨?_, by simp, hclaims.collector, fun _ => hpopping, trivial⟩
  intro i place hi
  cases hi
  exact hitems.handed d hwaiting item hhead

theorem onEntry_keepsItems {pc : EntryPc} (hitems : ItemsInv shared books)
    (hclaims : Claims thread shared books (.entry item pc)) :
    KeepsItems thread shared books (onEntry thread item shared pc).1 (onEntry thread item shared pc).2 := by
  cases pc with
  | loadAba =>
    simp only [onEntry]
    split
    all_goals
      exact keepsItems_quiet hitems hclaims trivial rfl fun _ => rfl
  | cas aba entry d =>
    simp only [onEntry]
    split
    · exact keepsItems_quiet hitems hclaims trivial rfl fun _ => rfl
    · split
      all_goals
        exact keepsItems_quiet hitems hclaims trivial rfl fun _ => rfl
  | readCurrent aba | loadEntry aba d | storeDuration d =>
    exact keepsItems_quiet hitems hclaims trivial rfl fun _ => rfl

theorem head_update {durations : Addr → Duration n} {duration : Duration n}
    (hhead : duration.head = (durations d).head) (e : Addr) :
    (update durations d duration e).head = (durations e).head := by
  by_cases heq : e = d
  · rw [heq, update_self, hhead]
  · rw [update_of_ne heq]

section

variable {myD : Addr} {pc : ClosePc} (hinv : ThreadInv .root thread shared ghost (.close item myD pc))
  (hitems : ItemsInv shared books) (hclaims : Claims thread shared books (.close item myD pc))
include hinv hitems hclaims

theorem closeDuration_keepsItems (hcode : closeDuration root item myD shared pc = some (shared', pc')) :
    KeepsItems thread shared books shared' pc' := by
  have hat := hinv.at_pc
  cases pc with
  | readEntry d | zeroEntry d =>
    cases hcode
    exact keepsItems_quiet hitems hclaims trivial rfl fun _ => rfl
  | storeEntry d entry | readCount d | storeCount d entry => simp [PcInv, CloseInv] at hat
  | storeHead d => exact hclaims.pop.elim
  | lateHead d =>
    cases hcode
    exact lateHead_keepsItems hitems hclaims
  | _ => simp [closeDuration] at hcode

theorem onExit_keepsItems (hcode : onExit root thread choice item myD shared pc = some (shared', pc')) :
    KeepsItems thread shared books shared' pc' := by
  unfold onExit at hcode
  split at hcode
  · split at hcode
    all_goals
      cases hcode
      exact keepsItems_quiet hitems hclaims trivial rfl fun _ => rfl
  · split at hcode
    all_goals
      cases hcode
      exact keepsItems_quiet hitems hclaims trivial rfl fun _ => rfl
  · cases hcode
    exact keepsItems_quiet hitems hclaims trivial rfl fun _ => rfl
  · rw [Option.map_eq_some_iff] at hcode
    obtain ⟨⟨new, allocated⟩, hnew, hresult⟩ := hcode
    cases hresult
    exact new_keepsItems hitems hclaims hnew
  · cases hcode
    exact keepsItems_quiet hitems hclaims trivial rfl (head_update rfl)
  · cases hcode
    exact keepsItems_quiet hitems hclaims trivial rfl fun _ => rfl
  · cases hcode
    exact keepsItems_quiet hitems hclaims trivial rfl fun _ => rfl
  · cases hcode
    exact keepsItems_quiet hitems hclaims trivial rfl (head_update rfl)
  · simp only [root, Option.some.injEq, Prod.mk.injEq] at hcode
    obtain ⟨rfl, rfl⟩ := hcode
    exact keepsItems_quiet hitems hclaims trivial rfl fun _ => rfl
  · exact closeDuration_keepsItems hinv hitems hclaims hcode

end

theorem quietInv_settleRest (rest : Option Addr) : QuietInv thread shared (settleRest rest) := by
  cases rest <;> trivial

theorem stand_settleRest (rest : Option Addr) : (settleRest rest).stand thread = (none, false, none) := by
  cases rest <;> rfl

theorem setCollectible_keepsItems {pc : SettlePc} (hitems : ItemsInv shared books)
    (hclaims : Claims thread shared books (.settle d rest pc))
    (hcode : setCollectible root choice d rest shared pc = some (shared', pc')) :
    KeepsItems thread shared books shared' pc' := by
  cases pc with
  | start =>
    simp only [setCollectible] at hcode
    split at hcode
    all_goals simp only [Option.some.injEq, Prod.mk.injEq, reduceCtorEq] at hcode
    · obtain ⟨rfl, rfl⟩ := hcode
      exact keepsItems_quiet hitems hclaims trivial rfl fun _ => rfl
    · obtain ⟨rfl, rfl⟩ := hcode
      exact keepsItems_quiet hitems hclaims trivial rfl (head_update rfl)
  | add entry =>
    cases hcode
    split
    · exact keepsItems_quiet hitems hclaims trivial rfl (head_update rfl)
    · exact keepsItems_quiet hitems hclaims (quietInv_settleRest rest) (stand_settleRest rest) (head_update rfl)
  | late exit entryThen =>
    cases hcode
    split
    · exact keepsItems_quiet hitems hclaims trivial rfl fun _ => rfl
    · exact keepsItems_quiet hitems hclaims (quietInv_settleRest rest) (stand_settleRest rest) fun _ => rfl
  | store =>
    cases hcode
    exact keepsItems_quiet hitems hclaims trivial rfl (head_update rfl)

section

variable {pc : CollectPc} (hglobal : GlobalInv .root shared ghost)
  (hinv : ThreadInv .root thread shared ghost (.collect rest pc)) (hitems : ItemsInv shared books)
  (hclaims : Claims thread shared books (.collect rest pc))
include hglobal hinv hitems hclaims

theorem collectOne_keepsItems (hcode : collectOne root thread rest shared pc = some (shared', pc')) :
    KeepsItems thread shared books shared' pc' := by
  obtain ⟨-, hat⟩ := hinv.at_pc
  cases pc with
  | peekTail | popTail d =>
    cases hcode
    exact keepsItems_quiet hitems hclaims trivial rfl fun _ => rfl
  | peekNext tail | loadCollectible d =>
    simp only [collectOne] at hcode
    split at hcode
    all_goals
      cases hcode
      exact keepsItems_quiet hitems hclaims trivial rfl fun _ => rfl
  | readHead d =>
    simp only [collectOne, Option.map_eq_some_iff, Prod.mk.injEq] at hcode
    obtain ⟨item, hhead, rfl, rfl⟩ := hcode
    exact readHead_keepsItems hglobal hinv hitems hclaims hhead
  | cleanOne d item =>
    cases hcode
    exact cleanOne_keepsItems hitems hclaims
  | cleanCell d item cur =>
    cases cur with
    | none =>
      cases hcode
      exact release_keepsItems hitems hclaims
    | some cell =>
      cases hcode
      exact visit_keepsItems hitems hclaims
  | popNext d tail =>
    obtain ⟨rfl, htail, hfirst, -⟩ := hat
    obtain ⟨newer, hchain⟩ := List.head?_eq_some_iff.mp hfirst
    have hlinked := hglobal.linked
    rw [hchain, linked_cons] at hlinked
    simp only [collectOne, hlinked.1, Option.some.injEq, Prod.mk.injEq] at hcode
    obtain ⟨rfl, rfl⟩ := hcode
    exact keepsItems_quiet hitems hclaims htail.symm rfl fun _ => rfl
  | popFree d tail next =>
    obtain ⟨-, rfl, -, -⟩ := hat
    cases hcode
    exact popFree_keepsItems hitems hclaims
  | popStore d next =>
    cases hcode
    exact popStore_keepsItems hitems hclaims
  | readStw d =>
    simp only [collectOne, root, reduceCtorEq, false_and, if_false, Option.some.injEq, Prod.mk.injEq] at hcode
    obtain ⟨rfl, rfl⟩ := hcode
    exact keepsItems_quiet hitems hclaims trivial rfl fun _ => rfl
  | addAba => exact hat.elim
  | _ => simp [collectOne] at hcode

theorem collect_keepsItems (hcode : collect root thread rest shared pc = some (shared', pc')) :
    KeepsItems thread shared books shared' pc' := by
  cases pc with
  | addPending =>
    cases hcode
    split
    · exact keepsItems_quiet hitems hclaims (quietInv_settleRest rest) (stand_settleRest rest) fun _ => rfl
    · exact keepsItems_quiet hitems hclaims trivial rfl fun _ => rfl
  | casLock =>
    simp only [collect] at hcode
    split at hcode
    · cases hcode
      exact keepsItems_quiet hitems hclaims (quietInv_settleRest rest) (stand_settleRest rest) fun _ => rfl
    · rename_i hfree
      cases hcode
      exact lock_keepsItems hitems (by simpa using hfree)
  | loadPending | readPending =>
    cases hcode
    split
    all_goals exact keepsItems_quiet hitems hclaims trivial rfl fun _ => rfl
  | casEmpty | casLoop =>
    simp only [collect] at hcode
    split at hcode
    · cases hcode
      exact unlock_keepsItems hitems hclaims rfl rfl
    · cases hcode
      exact keepsItems_quiet hitems hclaims trivial rfl fun _ => rfl
  | subPending =>
    cases hcode
    exact keepsItems_quiet hitems hclaims trivial rfl fun _ => rfl
  | _ =>
    simp only [collect] at hcode
    exact collectOne_keepsItems hglobal hinv hitems hclaims hcode

end

theorem code_keepsItems
    {config : Config (Fin n) (Shared n (Nodes n)) Pc} (hglobal : GlobalInv .root config.shared ghost)
    (hinv : ThreadInv .root thread config.shared ghost (config.threads thread))
    (hitems : ItemsInv config.shared books)
    (hclaims : Claims thread config.shared books (config.threads thread))
    (hempty : FreshEmpty config thread choice) (honce : PassedOnce config choice)
    (hcode : code root thread choice config.shared (config.threads thread) = some (shared', pc')) :
    KeepsItems thread config.shared books shared' pc' := by
  generalize config.threads thread = pc at hinv hclaims hcode
  unfold code at hcode
  split at hcode
  · rw [Option.map_eq_some_iff] at hcode
    obtain ⟨⟨item, heap⟩, hnew, hresult⟩ := hcode
    cases hresult
    exact enter_keepsItems hitems hclaims hempty hnew
  · simp only [Option.some.injEq] at hcode
    have hkeeps := onEntry_keepsItems hitems hclaims
    rwa [hcode] at hkeeps
  · cases hcode
    exact client_keepsItems hitems hclaims honce
  · cases hcode
    exact keepsItems_quiet hitems hclaims trivial rfl fun _ => rfl
  · exact onExit_keepsItems hinv hitems hclaims hcode
  · exact setCollectible_keepsItems hitems hclaims hcode
  · exact collect_keepsItems hglobal hinv hitems hclaims hcode
  · simp at hcode

def DurationsKept (config : Config (Fin n) (Shared n (Nodes n)) Pc) : Prop :=
  ∃ ghost, GlobalInv .root config.shared ghost ∧
    ∀ thread, ThreadInv .root thread config.shared ghost (config.threads thread)

theorem relyGuarantee_items : RelyGuarantee (code (n := n) root)
      (fun config thread choice => Proper config thread choice ∧ DurationsKept config) ItemsInv Claims
      ItemsRely := by
  refine ⟨?_, fun _ _ _ _ _ _ hclaims hrely => hclaims.stable hrely⟩
  rintro config books thread choice shared' pc' hitems hclaims ⟨⟨-, hempty, honce⟩, ghost, hglobal, hlocal⟩ hcode
  exact code_keepsItems hglobal (hlocal thread) hitems (hclaims thread) hempty honce hcode

structure Unused (heap : Nodes n) : Prop where
  allocated : ∀ i, heap.allocated i = false
  itemListPool : ∀ thread, heap.itemListPool thread = []
  retired : heap.retired = []
  freed : heap.freed = []

def Books.fresh : Books n :=
  { place := fun _ => .free, start := fun _ => none, nodes := fun _ => [], collector := none
    popping := none }

attribute [local simp] Books.fresh

theorem itemsInv_init {memory : Addr → Duration n} (hunused : Unused heap) :
    ItemsInv (init memory heap).shared .fresh := by
  refine ⟨fun _ _ => rfl, ?_, ?_, ?_, ?_, fun _ _ => rfl, ⟨?_, ?_, ?_⟩, ?_, ?_, rfl, fun _ => rfl⟩
  · simp [init, hunused.itemListPool]
  · simp [init, hunused.itemListPool]
  · intro d hwaiting i hi
    -- The only duration besides the dummy is the first one, and it has no head.
    have htail : d ≠ 0 := hwaiting.tail
    obtain rfl : d = 1 := by simpa [init, htail] using hwaiting.allocated
    simp [init, Duration.reset] at hi
  · simp
  · simp
  · simp
  · simp
  · simp
  · simp [init, hunused.retired, hunused.freed]

/-- In every proper run of the root `dw.c` only nodes that were passed to `free_node_later` are freed,
and no more often than they were passed. -/
theorem root_freedRight {memory : Addr → Duration n} {heap : Nodes n} (hunused : Unused heap)
    {config : Config (Fin n) (Shared n (Nodes n)) Pc}
    (hreach : ReachableVia (code root) Proper (init memory heap) config) : FreedRight config := by
  have hsettled : ∀ config, ReachableVia (code root) Proper (init memory heap) config →
      DurationsKept config :=
    fun config hreach => invariants_of_regular (hreach.mono fun _ _ _ hproper => hproper.1)
  obtain ⟨books, hitems, -⟩ := relyGuarantee_items.invariant (hreach.strengthen hsettled) .fresh
    (itemsInv_init hunused) fun thread =>
      ⟨by simp [init, Pc.claim], by simp [init], by simp [init, Pc.collecting],
        by simp [init, Pc.collecting], trivial⟩
  exact hitems.counts

def hasFreed (retired freed : List CellAddr) (config : Config (Fin n) (Shared n (Nodes n)) Pc) : Bool :=
  config.shared.heap.retired == retired && config.shared.heap.freed == freed

/-- A thread on its own enters with a fresh item list, does something, leaves and cleans its list. -/
def aloneWith (thread : Fin n) (address : Option CellAddr) (ops : List CellAddr) :
    List (Fin n × Choice CellAddr) :=
  (thread, .enter 10 address) :: go thread 5 ++ ops.map (fun p => (thread, .client p)) ++
    exit thread 3 6 2 ++ settleAndClean thread ++ go thread 2

theorem root_freedRight_alone :
    ∃ config : Config (Fin 1) (Shared 1 (Nodes 1)) Pc, ReachableVia (code root) Proper (init (memoryWith 1) noNodes) config ∧
      hasFreed [7] [7] config = true ∧ FreedRight config := by
  have hrun : ((init (memoryWith 1) noNodes).runVia (code root) Proper (aloneWith (n := 1) 0 none [7])).any
      (hasFreed [7] [7]) = true := by
    decide +kernel
  obtain ⟨config, hreach, hfreed⟩ := exists_reachableVia_of_run _ _ hrun
  exact ⟨config, hreach, hfreed, root_freedRight ⟨fun _ => rfl, fun _ => rfl, rfl, rfl⟩ hreach⟩

/-- The fresh item list holds the address 7, which nobody has passed to `free_node_later`. -/
theorem root_freesGarbage :
    ∃ config, Reachable (code (n := 1) root) (init (memoryWith 1) noNodes) config ∧
      hasFreed [] [7] config = true ∧ ¬ FreedRight config := by
  have hrun : ((init (memoryWith 1) noNodes).run (code root) (aloneWith (n := 1) 0 (some 7) [])).any
      (hasFreed [] [7]) = true := by
    decide +kernel
  obtain ⟨config, hreach, hfreed⟩ := exists_reachable_of_run _ _ hrun
  refine ⟨config, hreach, hfreed, fun hright => ?_⟩
  simp only [hasFreed, Bool.and_eq_true, beq_iff_eq] at hfreed
  have hcount := hright 7
  simp [hfreed] at hcount

end Lfmr.DurationWindow
