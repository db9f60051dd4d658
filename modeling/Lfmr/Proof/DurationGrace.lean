import Lfmr.Proof.DurationSteps

/-!
# The grace period of the durations

The accesses of `set_collectible` and `collect`, and what follows for whole runs.
-/

namespace Lfmr.DurationWindow

open Function Lfmr.Concurrency Lfmr.ClosingOrder

variable {n : Nat} {Heap Op : Type} {variant : Variant} {thread : Fin n}
  {shared shared' : Shared n Heap} {ghost : Ghost n} {pc pc' : Pc}

/-! ### `set_collectible` -/

variable {rest : Option Addr} {d : Addr} {scheme : Scheme n Heap Op}
  {config : Config (Fin n) (Shared n Heap) Pc}

theorem pcInv_settleRest (hrest : ∀ myD ∈ rest, myD ∈ ghost.order.closed) :
    PcInv variant shared ghost (settleRest rest) := by
  cases rest with
  | none => trivial
  | some myD => exact ⟨by simp, hrest myD rfl, by simp⟩

theorem role_settleRest (rest : Option Addr) : (settleRest rest).role = (rest.toList, false, none, false, false) := by
  cases rest <;> rfl

theorem Counted.leave {duration : Duration n} {owing : Finset (Fin n)} {count : Nat}
    {setter : Option (Fin n)} (hcounted : Counted variant duration owing count setter)
    (hmem : thread ∈ owing) :
    Counted variant { duration with exit := duration.exit + 1 } (owing.erase thread) count
      (if duration.exit + 1 = duration.entry then some thread else none) := by
  obtain ⟨hbalance, hbounded, hsound, hcollectible, -, hstw⟩ := hcounted
  have hcard := Finset.card_erase_add_one hmem
  have hopen : duration.collectible = false := by
    rw [← Bool.not_eq_true]
    intro hset
    simp [(hcollectible hset).1] at hmem
  refine ⟨?_, hbounded, hsound, by simp [hopen], ?_, hstw⟩
  · simp only
    omega
  · intro hsetter
    have hlast : duration.exit + 1 = duration.entry := by
      by_contra hne
      simp [hne] at hsetter
    have hle := hsound.le (by omega)
    rw [← Finset.card_eq_zero]
    omega

theorem keeps_leave (hglobal : GlobalInv variant shared ghost)
    (hinv : ThreadInv variant thread shared ghost pc) (howed : pc.owed = d :: rest.toList)
    (hflags : pc.isInside = false ∧ pc.closing = false ∧ pc.collecting = false ∧ pc.setting = none)
    (hclosed : d ∈ ghost.order.closed) (hd : d ∉ rest)
    (howed' : pc'.owed = rest.toList)
    (hflags' : pc'.isInside = false ∧ pc'.closing = false ∧ pc'.collecting = false)
    (hsetting : pc'.setting = if (shared.durations d).exit + 1 = (shared.durations d).entry then some d else none)
    (hat : ∀ (shared' : Shared n Heap) (setter : Addr → Option (Fin n)),
      PcInv variant shared' { ghost with order := ghost.order.leave thread d, setter } pc') :
    Keeps variant thread shared ghost
      (shared.write d fun duration => { duration with exit := duration.exit + 1 }) pc' := by
  have howing : thread ∈ ghost.order.owing d := (hinv.owed d).mpr (by simp [howed])
  have hne := hglobal.closed_ne hclosed
  have hcounted := hglobal.counted d hclosed
  have hsetter : ghost.setter d = none := by
    by_contra hsome
    simp [hcounted.setter hsome] at howing
  have hcurrent : (ghost.order.leave thread d).owing shared.currentD = ghost.order.owing shared.currentD := by
    simp [Order.leave, hne.symm]
  let setter := if (shared.durations d).exit + 1 = (shared.durations d).entry then some thread else none
  have hsetter' : ∀ e other, update ghost.setter d setter e = some other ↔
      if e = d then setter = some other else ghost.setter e = some other := by
    intro e other
    by_cases heq : e = d <;> simp [heq]
  rw [write_exit]
  refine ⟨{ ghost with
    order := ghost.order.leave thread d, setter := update ghost.setter d setter },
    ?_, ?_, fun other hother => ?_⟩
  · refine { hglobal with
      order := hglobal.order.leave (hinv.inside.trans hflags.1), owned := hglobal.owned.congr rfl rfl
      blank := ?_, counted := ?_, setter := ?_, rest := ?_ }
    · intro e he
      have hblank := hglobal.blank e he
      have hed : e ≠ d := by
        rintro rfl
        exact hglobal.closed_notMem hclosed he
      exact ⟨by simpa [hed] using hblank.exit, hblank.collectible, hblank.stw, hblank.next⟩
    · intro e he
      by_cases heq : e = d
      · subst heq
        simpa [Order.leave] using hcounted.leave howing
      · obtain ⟨hbalance, hbounded, hsound, hcollectible, hset, hstw⟩ := hglobal.counted e he
        have howing : (ghost.order.leave thread d).owing e = ghost.order.owing e := by
          simp [Order.leave, heq]
        simp only [howing, update_of_ne heq]
        exact ⟨by simpa [heq] using hbalance, hbounded, hsound, hcollectible, hset, hstw⟩
    · intro e he
      by_cases heq : e = d
      · exact heq ▸ hclosed
      · exact hglobal.setter e (by simpa [heq] using he)
    · intro hcloser
      obtain ⟨htidy, hcounts⟩ := hglobal.rest hcloser
      refine ⟨{ htidy with }, ?_⟩
      simp only [EntryCounts, hcurrent]
      exact hcounts
  · refine ⟨fun e => ?_, hinv.inside.trans (hflags.1.trans hflags'.1.symm), fun e => ?_, ?_, ?_, hat _ _⟩
    · rw [Order.mem_owing_leave, hinv.owed, howed, howed']
      simp only [true_and, List.mem_cons, Option.mem_toList]
      constructor
      · rintro ⟨heq | hmem, hne⟩
        · exact absurd heq hne
        · exact hmem
      · intro hmem
        refine ⟨Or.inr hmem, ?_⟩
        rintro rfl
        exact hd hmem
    · have hold := hinv.setter e
      rw [hsetter', hsetting]
      simp only [setter, hflags.2.2.2] at hold ⊢
      split
      · rename_i heq
        split <;> simp [heq]
      · rename_i heq
        rw [hold]
        split <;> simp [Ne.symm heq]
    · rw [hinv.closer, hflags.2.1, hflags'.2.1]
    · rw [hinv.collector, hflags.2.2.1, hflags'.2.2]
  · refine ⟨Nat.le_refl _, fun _ _ => rfl, rfl, fun e => ?_, fun e => ?_, Iff.rfl, Iff.rfl,
      fun e he _ => ⟨he, rfl⟩, fun _ => ⟨rfl, rfl, rfl, rfl, rfl, rfl, hcurrent, rfl⟩,
      fun _ => ⟨rfl, rfl, List.prefix_rfl, fun _ _ h => h, rfl⟩⟩
    · simp [Order.mem_owing_leave, hother]
    · rw [hsetter']
      split
      · rename_i heq
        simp only [setter, heq, hsetter]
        split <;> simp [hother.symm]
      · exact Iff.rfl

/-- The thread that made the last exit marks the duration as collectible. -/
theorem keeps_store (hglobal : GlobalInv variant shared ghost)
    (hinv : ThreadInv variant thread shared ghost (.settle d rest .store)) :
    Keeps variant thread shared ghost (shared.write d fun duration => { duration with collectible := true })
      (.collect rest .addPending) := by
  have hsetter : ghost.setter d = some thread := (hinv.setter d).mpr rfl
  have hclosed := hglobal.setter d (by simp [hsetter])
  have hleft := (hglobal.counted d hclosed).setter (by simp [hsetter])
  rw [write_collectible]
  refine ⟨{ ghost with setter := update ghost.setter d none }, ?_, ?_, fun other hother => ?_⟩
  · refine { hglobal with
      owned := hglobal.owned.congr rfl rfl, blank := ?_, counted := ?_, setter := ?_, rest := ?_ }
    · intro e he
      have hblank := hglobal.blank e he
      have hne : e ≠ d := by
        rintro rfl
        exact hglobal.closed_notMem hclosed he
      exact ⟨hblank.exit, by simpa [hne] using hblank.collectible, hblank.stw, hblank.next⟩
    · intro e he
      obtain ⟨hbalance, hbounded, hsound, hcollectible, hset, hstw⟩ := hglobal.counted e he
      by_cases heq : e = d
      · subst heq
        exact ⟨hbalance, hbounded, hsound, fun _ => ⟨hleft, by simp⟩, fun _ => hleft, hstw⟩
      · simp only [update_of_ne heq]
        exact ⟨hbalance, hbounded, hsound, hcollectible, hset, hstw⟩
    · intro e he
      refine hglobal.setter e fun hnone => ?_
      by_cases heq : e = d <;> simp_all
    · intro hcloser
      obtain ⟨htidy, hcounts⟩ := hglobal.rest hcloser
      exact ⟨{ htidy with }, hcounts⟩
  · refine ⟨hinv.owed, hinv.inside, fun e => ?_, hinv.closer, hinv.collector, hinv.at_pc.1, trivial⟩
    by_cases heq : e = d
    · simp [heq, Pc.setting]
    · simp [heq, Pc.setting, hinv.setter, Ne.symm heq]
  · refine ⟨Nat.le_refl _, fun _ _ => rfl, rfl, fun _ => Iff.rfl, fun e => ?_, Iff.rfl, Iff.rfl,
      fun e he _ => ⟨he, rfl⟩, fun _ => ⟨rfl, rfl, rfl, rfl, rfl, rfl, rfl, rfl⟩,
      fun _ => ⟨rfl, rfl, List.prefix_rfl, fun e _ hset => ?_, rfl⟩⟩
    · by_cases heq : e = d
      · simp [heq, hsetter, hother.symm]
      · simp [heq]
    · by_cases heq : e = d
      · simp [heq]
      · simpa [heq] using hset

theorem setCollectible_keeps {pc : SettlePc} {pc' : Pc} {choice : Choice Op}
    (hglobal : GlobalInv scheme.variant config.shared ghost)
    (hinv : ThreadInv scheme.variant thread config.shared ghost (.settle d rest pc))
    (hpc : config.threads thread = .settle d rest pc)
    (hregular : Regular scheme config thread choice)
    (hcode : setCollectible scheme choice d rest config.shared pc = some (shared', pc')) :
    Keeps scheme.variant thread config.shared ghost shared' pc' := by
  obtain ⟨hrest, hat⟩ := hinv.at_pc
  cases pc with
  | start =>
    simp only [setCollectible] at hcode
    split at hcode
    · cases hcode
      exact keeps_stay hglobal hinv ⟨hrest, hat.1, hat.2, rfl⟩ rfl
    · rename_i hvariant
      cases hcode
      exact keeps_leave hglobal hinv rfl ⟨rfl, rfl, rfl, rfl⟩ hat.1 hat.2 rfl ⟨rfl, rfl, rfl⟩ rfl
        fun _ _ => ⟨hrest, hvariant⟩
    · simp at hcode
  | add entry =>
    obtain ⟨hclosed, hd, rfl⟩ := hat
    cases hcode
    split
    · rename_i hlast
      exact keeps_leave hglobal hinv rfl ⟨rfl, rfl, rfl, rfl⟩ hclosed hd rfl ⟨rfl, rfl, rfl⟩
        (by simp [Pc.setting, hlast]) fun _ _ => ⟨hrest, trivial⟩
    · rename_i hmore
      obtain ⟨hisInside, hclosing, hcollecting, hsetting⟩ := flags_settleRest rest
      exact keeps_leave hglobal hinv rfl ⟨rfl, rfl, rfl, rfl⟩ hclosed hd (owed_settleRest rest)
        ⟨hisInside, hclosing, hcollecting⟩ (by simp [hsetting, hmore]) fun _ _ => pcInv_settleRest hrest
  | late exit entryThen =>
    simp only [Regular, hpc] at hregular
    have hentry := hregular hat
    cases hcode
    rw [hentry]
    split
    · rename_i hlast
      refine keeps_stay hglobal hinv ⟨hrest, trivial⟩ ?_
      simp only [Pc.role, Pc.setting, hlast, if_true]
      rfl
    · rename_i hmore
      refine keeps_stay hglobal hinv (pcInv_settleRest hrest) ((role_settleRest rest).trans ?_)
      simp only [Pc.role, Pc.setting, hmore, if_false]
      rfl
  | store =>
    cases hcode
    exact keeps_store hglobal hinv

/-! ### `collect` -/

section

variable (hglobal : GlobalInv variant shared ghost)
include hglobal

theorem keeps_lock (hinv : ThreadInv variant thread shared ghost (.collect rest .casLock))
    (hlock : shared.lock = false) :
    Keeps variant thread shared ghost { shared with lock := true } (.collect rest .loadPending) := by
  have hcollector : ghost.collector = none := by
    have hglobalLock := hglobal.lock
    rw [hlock] at hglobalLock
    simpa using hglobalLock.symm
  exact keeps_around (some thread) hglobal hglobal.order rfl (by simp)
    ⟨hinv.owed, hinv.inside, hinv.setter, hinv.closer, by simp [Pc.collecting], hinv.at_pc.1,
      hglobal.tail hcollector⟩
    fun other hne => ⟨rfl, by simpa [hcollector] using hne.symm, by simp [hcollector]⟩

theorem keeps_unlock {pc : CollectPc} (hinv : ThreadInv variant thread shared ghost (.collect rest pc))
    (hcollecting : (Pc.collect rest pc).collecting = true)
    (htail : shared.queueTail = ghost.dummy) :
    Keeps variant thread shared ghost { shared with lock := false } (settleRest rest) := by
  have hcollector := hinv.collector.mpr hcollecting
  obtain ⟨hisInside, hclosing, hcollecting', hsetting⟩ := flags_settleRest rest
  refine keeps_around none hglobal hglobal.order rfl (fun _ => htail)
    ⟨?_, ?_, ?_, ?_, by simp [hcollecting'], pcInv_settleRest hinv.at_pc.1⟩
    fun other hne => ⟨rfl, by simpa [hcollector] using hne.symm, fun _ => rfl⟩
  · rw [owed_settleRest]; exact hinv.owed
  · rw [hisInside]; exact hinv.inside
  · rw [hsetting]; exact hinv.setter
  · rw [hclosing]; exact hinv.closer

/-- The oldest closed duration becomes the dummy of the queue, and the old dummy is freed. -/
theorem keeps_popFree (hinv : ThreadInv variant thread shared ghost (.collect rest (.popFree d ghost.dummy d)))
    (hfirst : ghost.chain.head? = some d) (hset : (shared.durations d).collectible = true) :
    Keeps variant thread shared ghost (freeDuration variant thread ghost.dummy shared)
      (.collect rest (.popStore d d)) := by
  obtain ⟨newer, hchain⟩ := List.head?_eq_some_iff.mp hfirst
  have hclosed : ghost.order.closed = d :: (newer ++ ghost.limbo.toList) := by
    rw [hglobal.closed, hchain, List.cons_append]
  have hmem : d ∈ ghost.order.closed := by simp [hclosed]
  have hcounted := hglobal.counted d hmem
  obtain ⟨hleft, hsetter⟩ := hcounted.collectible hset
  have hcollector := hinv.collector.mpr rfl
  have hlinked := hglobal.linked
  rw [hchain, linked_cons] at hlinked
  have hlive : ghost.live = ghost.dummy :: d ::
      (newer ++ ghost.limbo.toList ++ ghost.order.current :: ghost.spare.toList) := by
    simp [Ghost.live, hclosed]
  have howned : Owned (freeDuration variant thread ghost.dummy shared)
      (d :: (newer ++ ghost.limbo.toList ++ ghost.order.current :: ghost.spare.toList)) :=
    Owned.freeDuration (hlive ▸ hglobal.owned)
  have hsub : ∀ e ∈ newer ++ ghost.limbo.toList, e ∈ ghost.order.closed := by
    intro e he
    rw [hclosed]
    exact List.mem_cons_of_mem d he
  have hlast : newer.getLastD d = ghost.last := by
    rw [Ghost.last, hchain, List.getLastD_cons]
  obtain ⟨allocated, durationPool, heq⟩ := freeDuration_eq variant thread ghost.dummy shared
  rw [heq] at howned ⊢
  refine ⟨{ ghost with
    order := { ghost.order with closed := newer ++ ghost.limbo.toList }, dummy := d, chain := newer },
    ?_, ?_, fun other hne => ?_⟩
  · refine { hglobal with
      order := hglobal.order.drop hclosed hleft, closed := rfl, owned := howned, linked := hlinked.2
      counted := fun e he => hglobal.counted e (hsub e he), setter := fun e he => ?_, rest := fun hcloser => ?_
      tail := by simp [hcollector] }
    · have hne : e ≠ d := by
        rintro rfl
        exact he hsetter
      have hold := hglobal.setter e he
      rw [hclosed] at hold
      simpa [hne] using hold
    · obtain ⟨htidy, hcounts⟩ := hglobal.rest hcloser
      exact ⟨⟨htidy.queueHead.trans hlast.symm, htidy.limbo, htidy.spare⟩, hcounts⟩
  · refine ⟨hinv.owed, hinv.inside, hinv.setter, hinv.closer, hinv.collector, fun myD hmyD => ?_, rfl,
      rfl, hcounted.stw⟩
    have hold := hinv.at_pc.1 myD hmyD
    have howing : thread ∈ ghost.order.owing myD := (hinv.owed myD).mpr (by simpa [Pc.owed] using hmyD)
    have hne : myD ≠ d := by
      rintro rfl
      simp [hleft] at howing
    rw [hclosed] at hold
    simpa [hne] using hold
  · refine ⟨Nat.le_refl _, fun _ _ => rfl, rfl, fun _ => Iff.rfl, fun _ => Iff.rfl, Iff.rfl, Iff.rfl,
      fun e he hopen => ⟨?_, rfl⟩, fun _ => ⟨rfl, rfl, rfl, hlast, rfl, rfl, rfl, rfl⟩, fun hother => ?_⟩
    · have hne : e ≠ d := by
        rintro rfl
        simp [hset] at hopen
      rw [hclosed] at he
      simpa [hne] using he
    · rw [hcollector, Option.some.injEq] at hother
      exact absurd hother.symm hne

theorem keeps_popStore (hinv : ThreadInv variant thread shared ghost (.collect rest (.popStore d d)))
    (hdummy : ghost.dummy = d) (hstw : (shared.durations d).stw = false) :
    Keeps variant thread shared ghost { shared with queueTail := d } (.collect rest (.readStw d)) := by
  have hcollector := hinv.collector.mpr rfl
  exact keeps_around ghost.collector hglobal hglobal.order hglobal.lock (by simp [hcollector])
    ⟨hinv.owed, hinv.inside, hinv.setter, hinv.closer, hinv.collector, hinv.at_pc.1, hdummy.symm, hdummy, hstw⟩
    fun other hne => ⟨rfl, Iff.rfl, by simp [hcollector, hne.symm]⟩

end

section

variable {pc : CollectPc} {pc' : Pc} (hglobal : GlobalInv scheme.variant shared ghost)
  (hinv : ThreadInv scheme.variant thread shared ghost (.collect rest pc))
include hglobal hinv

theorem collectOne_keeps (hcode : collectOne scheme thread rest shared pc = some (shared', pc')) :
    Keeps scheme.variant thread shared ghost shared' pc' := by
  obtain ⟨hrest, hat⟩ := hinv.at_pc
  -- Behind the dummy is the oldest closed duration.
  have hnext : ∀ d, ghost.chain.head? = some d → (shared.durations ghost.dummy).next = some d := by
    intro d hfirst
    obtain ⟨newer, hchain⟩ := List.head?_eq_some_iff.mp hfirst
    have hlinked := hglobal.linked
    rw [hchain, linked_cons] at hlinked
    exact hlinked.1
  cases pc with
  | peekTail =>
    cases hcode
    exact keeps_stay hglobal hinv ⟨hrest, hat, hat⟩ rfl
  | peekNext tail =>
    obtain ⟨htail, rfl⟩ := hat
    simp only [collectOne] at hcode
    split at hcode
    · cases hcode
      exact keeps_stay hglobal hinv ⟨hrest, htail⟩ rfl
    · rename_i d hd
      cases hcode
      refine keeps_stay hglobal hinv ⟨hrest, htail, ?_⟩ rfl
      have hlinked := hglobal.linked
      rw [hd] at hlinked
      cases hchain : ghost.chain with
      | nil => simp [hchain] at hlinked
      | cons first newer =>
        rw [hchain, linked_cons] at hlinked
        exact hlinked.1.symm
  | loadCollectible d =>
    simp only [collectOne] at hcode
    split at hcode
    · rename_i hset
      cases hcode
      exact keeps_stay hglobal hinv ⟨hrest, hat.1, hat.2, hset⟩ rfl
    · cases hcode
      exact keeps_stay hglobal hinv ⟨hrest, hat.1⟩ rfl
  | readHead d =>
    simp only [collectOne, Option.map_eq_some_iff, Prod.mk.injEq] at hcode
    obtain ⟨item, -, rfl, rfl⟩ := hcode
    exact keeps_stay hglobal hinv ⟨hrest, hat⟩ rfl
  | cleanOne d item =>
    cases hcode
    exact keeps_stay hglobal hinv ⟨hrest, hat⟩ rfl
  | cleanCell d item cur =>
    cases cur with
    | none | some cell =>
      cases hcode
      exact keeps_stay hglobal hinv ⟨hrest, hat⟩ rfl
  | popTail d =>
    cases hcode
    exact keeps_stay hglobal hinv ⟨hrest, hat.1, hat⟩ rfl
  | popNext d tail =>
    obtain ⟨rfl, htail, hfirst, hset⟩ := hat
    simp only [collectOne, hnext d hfirst, Option.some.injEq, Prod.mk.injEq] at hcode
    obtain ⟨rfl, rfl⟩ := hcode
    exact keeps_stay hglobal hinv ⟨hrest, rfl, rfl, hfirst, hset⟩ rfl
  | popFree d tail next =>
    obtain ⟨rfl, rfl, hfirst, hset⟩ := hat
    cases hcode
    exact keeps_popFree hglobal hinv hfirst hset
  | popStore d next =>
    obtain ⟨rfl, hdummy, hstw⟩ := hat
    cases hcode
    exact keeps_popStore hglobal hinv hdummy hstw
  | readStw d =>
    obtain ⟨htail, hdummy, hstw⟩ := hat
    simp only [collectOne, hstw, Bool.false_eq_true, and_false, if_false, Option.some.injEq, Prod.mk.injEq] at hcode
    obtain ⟨rfl, rfl⟩ := hcode
    exact keeps_stay hglobal hinv ⟨hrest, htail⟩ rfl
  | addAba => exact hat.elim
  | _ => simp [collectOne] at hcode

theorem collect_keeps (hcode : collect scheme thread rest shared pc = some (shared', pc')) :
    Keeps scheme.variant thread shared ghost shared' pc' := by
  obtain ⟨hrest, hat⟩ := hinv.at_pc
  unfold collect at hcode
  split at hcode
  · cases hcode
    split
    · exact keeps_stay hglobal hinv (pcInv_settleRest hrest) (role_settleRest rest)
    · exact keeps_stay hglobal hinv ⟨hrest, trivial⟩ rfl
  · split at hcode
    · cases hcode
      exact keeps_stay hglobal hinv (pcInv_settleRest hrest) (role_settleRest rest)
    · rename_i hunlocked
      cases hcode
      exact keeps_lock hglobal hinv (by simpa using hunlocked)
  · cases hcode
    split <;> exact keeps_stay hglobal hinv ⟨hrest, hat⟩ rfl
  · split at hcode
    all_goals
      cases hcode
    · exact keeps_unlock hglobal hinv rfl hat
    · exact keeps_stay hglobal hinv ⟨hrest, hat⟩ rfl
  · cases hcode
    generalize (shared.pending + (uint32Size - 1)) % uint32Size = pending
    exact keeps_stay hglobal hinv ⟨hrest, hat⟩ rfl
  · cases hcode
    split <;> exact keeps_stay hglobal hinv ⟨hrest, hat⟩ rfl
  · split at hcode
    all_goals
      cases hcode
    · exact keeps_unlock hglobal hinv rfl hat
    · exact keeps_stay hglobal hinv ⟨hrest, hat⟩ rfl
  · exact collectOne_keeps hglobal hinv hcode

end

theorem keeps_exit {item : ItemAddr} (hglobal : GlobalInv variant shared ghost)
    (hinv : ThreadInv variant thread shared ghost (.inside item d)) :
    Keeps variant thread shared ghost { shared with toSections := shared.exit thread } (.close item d .loadAba) := by
  exact keeps_around ghost.collector hglobal hglobal.order.exit hglobal.lock hglobal.tail
    { hinv with inside := by simp [Pc.isInside], at_pc := trivial }
    fun other hne => ⟨by simp [hne], Iff.rfl, fun _ => rfl⟩

theorem code_keeps {choice : Choice Op} {pc' : Pc} (hglobal : GlobalInv scheme.variant config.shared ghost)
    (hinv : ThreadInv scheme.variant thread config.shared ghost (config.threads thread))
    (hregular : Regular scheme config thread choice)
    (hcode : code scheme thread choice config.shared (config.threads thread) = some (shared', pc')) :
    Keeps scheme.variant thread config.shared ghost shared' pc' := by
  generalize hpc : config.threads thread = pc at hinv hcode
  unfold code at hcode
  split at hcode
  · rw [Option.map_eq_some_iff] at hcode
    obtain ⟨⟨item, heap⟩, -, hresult⟩ := hcode
    cases hresult
    exact keeps_stay hglobal hinv trivial rfl
  · rename_i item pc
    simp only [Option.some.injEq] at hcode
    have hkeeps := onEntry_keeps hglobal hinv
    rwa [hcode] at hkeeps
  · cases hcode
    exact keeps_stay hglobal hinv trivial rfl
  · cases hcode
    exact keeps_exit hglobal hinv
  · exact onExit_keeps hglobal hinv hpc hregular hcode
  · exact setCollectible_keeps hglobal hinv hpc hregular hcode
  · exact collect_keeps hglobal hinv hcode
  · simp at hcode

theorem relyGuarantee_regular (scheme : Scheme n Heap Op) :
    RelyGuarantee (code scheme) (Regular scheme) (GlobalInv scheme.variant) (ThreadInv scheme.variant) Rely := by
  refine ⟨?_, fun _ _ _ _ hbefore _ hinv hrely => hinv.stable hbefore hrely⟩
  intro config ghost thread choice shared pc hglobal hlocal hregular hcode
  exact code_keeps hglobal (hlocal thread) hregular hcode

def Ghost.initial : Ghost n :=
  { order := { closed := [], current := 1, owing := fun _ => ∅ }
    dummy := 0
    chain := []
    limbo := none
    spare := none
    count := fun _ => 0
    setter := fun _ => none
    closer := none
    collector := none }

theorem invariants_of_regular {memory : Addr → Duration n} {heap : Heap}
    (hreach : ReachableVia (code scheme) (Regular scheme) (init memory heap) config) :
    ∃ ghost, GlobalInv scheme.variant config.shared ghost ∧
      ∀ thread, ThreadInv scheme.variant thread config.shared ghost (config.threads thread) := by
  refine (relyGuarantee_regular scheme).invariant hreach Ghost.initial ?_ ?_
  · refine ⟨⟨?_, ?_, ?_, ?_, ?_⟩, rfl, rfl, ⟨?_, ?_, ?_, ?_, ?_⟩, rfl, ?_, ?_, ?_, ?_, rfl, rfl, ?_, fun _ => rfl⟩
    all_goals simp [Ghost.initial, Ghost.live, init, Sections.fresh, EntryCounts]
    · exact ⟨rfl, rfl, rfl, rfl⟩
    · exact ⟨rfl, rfl, rfl⟩
  · intro thread
    refine ⟨?_, rfl, ?_, ?_, ?_, trivial⟩
    all_goals simp [Ghost.initial, init, Pc.owed, Pc.setting, Pc.closing, Pc.collecting]

/-- **The grace period of a regular run.** A duration that is being cleaned is the oldest closed one,
and nobody owes it. -/
theorem gracePeriod_of_regular {memory : Addr → Duration n} {heap : Heap}
    (hreach : ReachableVia (code scheme) (Regular scheme) (init memory heap) config) :
    GracePeriod config := by
  obtain ⟨ghost, hglobal, hlocal⟩ := invariants_of_regular hreach
  intro collector d hcleaning reader k hopen
  have hfirst : ghost.chain.head? = some d ∧ (config.shared.durations d).collectible = true := by
    have hat := (hlocal collector).at_pc
    unfold Pc.cleaning at hcleaning
    split at hcleaning
    all_goals simp only [Option.some.injEq, reduceCtorEq] at hcleaning
    all_goals
      rename_i hpc
      subst hcleaning
      rw [hpc] at hat
      exact hat.2.2
  obtain ⟨newer, hchain⟩ := List.head?_eq_some_iff.mp hfirst.1
  have hclosed : ghost.order.closed = d :: (newer ++ ghost.limbo.toList) := by
    rw [hglobal.closed, hchain, List.cons_append]
  have hcounted := hglobal.counted d (by simp [hclosed])
  exact hglobal.order.not_stillOpen hclosed (hcounted.collectible hfirst.2).1 hopen

end Lfmr.DurationWindow
