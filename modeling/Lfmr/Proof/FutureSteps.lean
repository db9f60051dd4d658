import Lfmr.Proof.FutureInvariant

/-!
# The accesses to a future keep its invariant
-/

namespace Lfmr.Futures

open List Function Lfmr.Concurrency

variable {n : Nat} {shared shared' : Shared n} {ghost ghost' : Ghost n} {thread other : Tid n} {pc pc' : Pc n}
  {i : Fin n} {c : Nat} {value : Value} {byTask : Bool}

abbrev Keeps (thread : Tid n) := Concurrency.Keeps GlobalInv ThreadInv Rely thread

theorem keeps_of_threadInv (hglobal : GlobalInv shared ghost) (hinv : ThreadInv thread shared ghost pc) :
    Keeps thread shared ghost shared pc :=
  ⟨ghost, hglobal, hinv, fun _ _ => .refl⟩

theorem GlobalInv.withLock (hglobal : GlobalInv shared ghost) (lock : Option (Tid n)) :
    GlobalInv { shared with lock := lock } ghost :=
  { hglobal with lists := fun h => ⟨(hglobal.lists h).1, (hglobal.lists h).2, (hglobal.lists h).3⟩ }

theorem PcRely.withLock (lock : Option (Tid n)) : PcRely (shared, ghost) ({ shared with lock := lock }, ghost) thread :=
  .of_lists (fun _ _ _ => .rfl) rfl rfl rfl

section

variable (hglobal : GlobalInv shared ghost)
include hglobal

theorem keeps_acquire (hacquire : shared.acquire thread = some shared')
    (hholds : pc.holdsLock = true) (hpc : PcInv { shared with lock := some thread } ghost pc thread) :
    Keeps thread shared ghost shared' pc := by
  unfold Shared.acquire at hacquire
  split at hacquire
  · rename_i hfree
    cases hacquire
    refine ⟨ghost, hglobal.withLock _, ⟨iff_of_true rfl hholds, hpc⟩, fun other hne => ⟨?_, ?_, .withLock _⟩⟩
    · exact iff_of_false (fun heq => hne (Option.some.inj heq).symm) (by rw [hfree]; exact nofun)
    · intro hother
      rw [hfree] at hother
      cases hother
  · cases hacquire

theorem keeps_release (hlock : shared.lock = some thread)
    (hholds : pc.holdsLock = false) (hpc : PcInv shared.release ghost pc thread) :
    Keeps thread shared ghost shared.release pc := by
  refine ⟨ghost, hglobal.withLock none, ⟨iff_of_false nofun (by rw [hholds]; exact nofun), hpc⟩,
    fun other hne => ⟨?_, ?_, .withLock none⟩⟩
  · exact iff_of_false nofun fun heq => hne (Option.some.inj (heq.symm.trans hlock))
  · exact fun heq => absurd (Option.some.inj (heq.symm.trans hlock)) hne

theorem keeps_block (hlock : shared.lock = some (.actor i))
    (hfulfilled : shared.fulfilled = false) (howner : ∀ c, ghost.owner c ≠ some i) :
    Keeps (.actor i) shared ghost (shared.block i) (.get .switch) := by
  obtain ⟨hblocked, hawaiting, hclosures⟩ := hglobal.lists hfulfilled
  refine ⟨{ ghost with blocked := ghost.blocked ++ [i] },
    { hglobal with waits := ?_, lists := fun _ => ⟨by rw [hblocked]; rfl, hawaiting, hclosures⟩ },
    ⟨iff_of_true hlock rfl, fun c => iff_of_false (howner c) nofun, ?_⟩, fun other hne => ?_⟩
  · have hperm : (shared.waited ++ [i]).Perm ((shared.resumed ++ (ghost.blocked ++ ghost.awaiting)) ++ [i]) :=
      hglobal.waits.append_right [i]
    refine hperm.trans ?_
    rw [append_assoc, append_assoc, append_assoc]
    exact ((perm_append_comm.append_left _).append_left _)
  · exact Or.inl (mem_append_right _ (.head _))
  · refine .of_holder hlock rfl hne (.of_unfulfilled hfulfilled rfl rfl fun j _ => ?_)
    exact ⟨id, fun hj => hj.imp_left (mem_append_left _), id, fun _ => Iff.rfl⟩

theorem keeps_await (hlock : shared.lock = some (.actor i))
    (hfulfilled : shared.fulfilled = false) (howner : ∀ c, ghost.owner c ≠ some i) :
    Keeps (.actor i) shared ghost (shared.await i) (.await .switch) := by
  obtain ⟨hblocked, hawaiting, hclosures⟩ := hglobal.lists hfulfilled
  refine ⟨{ ghost with awaiting := i :: ghost.awaiting },
    { hglobal with waits := ?_, lists := fun _ => ⟨hblocked, by rw [hawaiting]; rfl, hclosures⟩ },
    ⟨iff_of_true hlock rfl, fun c => iff_of_false (howner c) nofun, Or.inl (.head _)⟩, fun other hne => ?_⟩
  · have hperm : (shared.waited ++ [i]).Perm (i :: (shared.resumed ++ (ghost.blocked ++ ghost.awaiting))) :=
      (perm_append_singleton i _).trans (hglobal.waits.cons i)
    refine hperm.trans ?_
    rw [← append_assoc, ← append_assoc]
    exact perm_middle.symm
  · refine .of_holder hlock rfl hne (.of_unfulfilled hfulfilled rfl rfl fun j _ => ?_)
    exact ⟨id, id, fun hj => hj.imp_left (.tail _), fun _ => Iff.rfl⟩

theorem keeps_wakeUp (hinv : ThreadInv (.actor i) { shared with awake := update shared.awake i false } ghost pc) :
    Keeps (.actor i) shared ghost { shared with awake := update shared.awake i false } pc := by
  have hlists := fun h => hglobal.lists h
  refine ⟨ghost, { hglobal with lists := fun h => ⟨(hlists h).1, (hlists h).2, (hlists h).3⟩, awake := fun j hj => ?_ },
    hinv, fun other hne => ?_⟩
  · change update shared.awake i false j = true at hj
    by_cases heq : j = i
    · rw [heq, update_self] at hj
      cases hj
    · rw [update_of_ne heq] at hj
      exact hglobal.awake j hj
  · refine .of_guarded ?_ rfl (by constructor <;> rfl)
    cases other with
    | producer => exact ⟨rfl, rfl, fun _ => rfl, fun _ => rfl, fun _ => rfl⟩
    | runner => trivial
    | actor j =>
      have hj : update shared.awake i false j = shared.awake j :=
        update_of_ne (fun heq => hne (congrArg Tid.actor heq)) _ _
      refine ⟨id, ?_, ?_, fun _ => Iff.rfl⟩
      · exact fun hwait => hwait.imp_right hj.trans
      · exact fun hwait => hwait.imp_right hj.trans

end

theorem given_append {α : Type} {entries : List (α × Value)} {entry : α × Value}
    (hold : ∀ e ∈ entries, shared.given = some e.2) (hnew : shared.given = some entry.2) :
    ∀ e ∈ entries ++ [entry], shared.given = some e.2 := by
  intro e he
  rcases mem_append.mp he with hmem | hmem
  · exact hold e hmem
  · rw [mem_singleton.mp hmem]
    exact hnew

theorem keeps_readValue (hglobal : GlobalInv shared ghost) (hinv : ThreadInv (.actor i) shared ghost .idle)
    (hfulfilled : shared.fulfilled = true) :
    Keeps (.actor i) shared ghost { shared with returned := shared.returned ++ [(i, shared.value)] } .idle := by
  exact ⟨ghost, { hglobal with
      lists := by simp [hfulfilled]
      returned := given_append hglobal.returned (hglobal.value hfulfilled) },
    hinv, fun other _ => .of_guarded (.of_lists (fun _ _ _ => .rfl) rfl rfl rfl) rfl (by constructor <;> rfl)⟩

variable {owner : Nat → Option (Fin n)} {a : Fin n} {rest : List (Fin n)}

theorem owner_update_iff {next : Option (Fin n)} {j : Fin n}
    (hold : owner c ≠ some j) (hnew : next ≠ some j) (d : Nat) :
    update owner c next d = some j ↔ owner d = some j := by
  by_cases heq : d = c
  · subst heq
    rw [update_self]
    exact iff_of_false hnew hold
  · rw [update_of_ne heq]

theorem keeps_chain (hglobal : GlobalInv shared ghost) (hlock : shared.lock ≠ some (.actor i))
    (howner : ∀ c, ghost.owner c ≠ some i) :
    Keeps (.actor i) shared ghost { shared with chainCalls := shared.chainCalls + 1 }
      (.chain shared.chainCalls .lock) := by
  have hfresh : ∀ j, ghost.owner shared.chainCalls ≠ some j := fun j hj =>
    Nat.lt_irrefl _ (hglobal.listed.owned _ j hj)
  refine ⟨{ ghost with owner := update ghost.owner shared.chainCalls (some i) }, { hglobal with
      lists := fun h => ⟨(hglobal.lists h).1, (hglobal.lists h).2, (hglobal.lists h).3⟩
      listed := hglobal.listed.start i },
    ⟨iff_of_false hlock nofun, fun c => ?_, trivial⟩, fun other hne => ?_⟩
  · change update ghost.owner shared.chainCalls (some i) c = some i ↔ some shared.chainCalls = some c
    by_cases heq : c = shared.chainCalls
    · rw [heq, update_self]
      exact iff_of_true rfl rfl
    · rw [update_of_ne heq]
      exact iff_of_false (howner c) fun hsome => heq (Option.some.inj hsome).symm
  · refine .of_guarded (.of_lists (fun j hj => ?_) rfl rfl rfl) rfl (by constructor <;> rfl)
    have hji : some i ≠ some j := fun heq => hne (hj.trans (congrArg Tid.actor (Option.some.inj heq).symm))
    exact owner_update_iff (hfresh j) hji

theorem inFlight_unlock (howner : ∀ d, owner d = some i ↔ some c = some d)
    (d : Nat) : update owner c none d = some i ↔ (Pc.chain c .unlock : Pc n).inFlight = some d := by
  refine iff_of_false ?_ nofun
  by_cases heq : d = c
  · rw [heq, update_self]
    exact nofun
  · rw [update_of_ne heq, howner]
    exact fun hsome => heq (Option.some.inj hsome).symm

section

variable (hglobal : GlobalInv shared ghost)
include hglobal

theorem keeps_run (hlock : shared.lock = some (.actor i))
    (hfulfilled : shared.fulfilled = true) (howner : ∀ d, ghost.owner d = some i ↔ some c = some d) :
    Keeps (.actor i) shared ghost (shared.runClosure c shared.value) (.chain c .unlock) := by
  have hc : ghost.owner c = some i := (howner c).mpr rfl
  refine ⟨{ ghost with owner := update ghost.owner c none }, { hglobal with
      lists := by simp [Shared.runClosure, hfulfilled]
      listed := ?_
      ran := given_append hglobal.ran (hglobal.value hfulfilled) },
    ⟨iff_of_true hlock rfl, inFlight_unlock howner, trivial⟩, fun other hne => ?_⟩
  · apply (hglobal.listed.finish hc).perm
    rw [listedClosures, listedClosures, Shared.runClosure, map_append, append_assoc]
    exact perm_middle.symm
  · refine .of_holder hlock rfl hne (.of_lists (fun j hj => ?_) rfl rfl rfl)
    refine owner_update_iff (fun howned => hne (hj.trans ?_)) nofun
    exact congrArg Tid.actor (Option.some.inj (howned.symm.trans hc))

theorem keeps_add (hlock : shared.lock = some (.actor i))
    (hfulfilled : shared.fulfilled = false) (howner : ∀ d, ghost.owner d = some i ↔ some c = some d) :
    Keeps (.actor i) shared ghost (shared.addChild c) (.chain c .unlock) := by
  have hc : ghost.owner c = some i := (howner c).mpr rfl
  obtain ⟨hblocked, hawaiting, hclosures⟩ := hglobal.lists hfulfilled
  refine ⟨{ ghost with closures := c :: ghost.closures, owner := update ghost.owner c none },
    { hglobal with lists := fun _ => ⟨hblocked, hawaiting, by rw [hclosures]; rfl⟩, listed := ?_ },
    ⟨iff_of_true hlock rfl, inFlight_unlock howner, trivial⟩, fun other hne => ?_⟩
  · apply (hglobal.listed.finish hc).perm
    rw [listedClosures, listedClosures, ← append_assoc, ← append_assoc]
    exact perm_middle.symm
  · refine .of_holder hlock rfl hne (.of_unfulfilled hfulfilled rfl rfl fun j hj => ?_)
    refine ⟨id, id, id, owner_update_iff (fun howned => hne (hj.trans ?_)) nofun⟩
    exact congrArg Tid.actor (Option.some.inj (howned.symm.trans hc))

theorem keeps_given (hlock : shared.lock ≠ some .producer)
    (hfulfilled : shared.fulfilled = false) (hgiven : shared.given = none) :
    Keeps .producer shared ghost { shared with given := some value } (.fulfil value byTask .assertUnfulfilled) := by
  have hnone : ∀ given : Value, shared.given ≠ some given := fun given heq =>
    absurd (hgiven.symm.trans heq) nofun
  refine ⟨ghost, { hglobal with
      lists := fun h => ⟨(hglobal.lists h).1, (hglobal.lists h).2, (hglobal.lists h).3⟩
      value := by simp [hfulfilled]
      ran := fun entry hentry => absurd (hglobal.ran entry hentry) (hnone _)
      tasks := fun entry hentry => absurd (hglobal.tasks entry hentry) (hnone _)
      returned := fun entry hentry => absurd (hglobal.returned entry hentry) (hnone _) },
    ⟨iff_of_false hlock nofun, rfl, hfulfilled⟩, fun other hne => ?_⟩
  exact .of_guarded (.of_ne_producer hne fun j _ => ⟨id, id, id, fun _ => Iff.rfl⟩) rfl (by constructor <;> rfl)

theorem keeps_writeValue (hlock : shared.lock = some .producer)
    (hgiven : shared.given = some value) (hfulfilled : shared.fulfilled = false) :
    Keeps .producer shared ghost { shared with value := value } (.fulfil value byTask .setFulfilled) := by
  obtain ⟨hblocked, hawaiting, hclosures⟩ := hglobal.lists hfulfilled
  refine ⟨ghost, { hglobal with lists := fun _ => ⟨hblocked, hawaiting, hclosures⟩, value := fun _ => hgiven },
    ⟨iff_of_true hlock rfl, hgiven, hfulfilled, rfl⟩, fun other hne => ?_⟩
  exact .of_holder hlock rfl hne (.of_lists (fun _ _ _ => .rfl) rfl rfl rfl)

theorem keeps_setFulfilled (hlock : shared.lock = some .producer)
    (hgiven : shared.given = some value) (hfulfilled : shared.fulfilled = false)
    (hvalue : shared.value = value) :
    Keeps .producer shared ghost { shared with fulfilled := true } (.fulfil value byTask (.unblock 0)) := by
  obtain ⟨hblocked, hawaiting, hclosures⟩ := hglobal.lists hfulfilled
  refine ⟨ghost, { hglobal with lists := nofun, value := fun _ => ?_, awake := fun _ _ => rfl },
    ⟨iff_of_true hlock rfl, hgiven, rfl, hblocked, hclosures, hawaiting⟩, fun other hne => ?_⟩
  · exact hgiven.trans (congrArg some hvalue.symm)
  · exact .of_holder hlock rfl hne (.of_ne_producer hne fun j _ => ⟨fun _ => rfl, id, id, fun _ => Iff.rfl⟩)

end

theorem mem_or_awake {j : Fin n} (h : j ∈ a :: rest ∨ shared.awake j = true) :
    j ∈ rest ∨ (shared.resume a).awake j = true := by
  change j ∈ rest ∨ update shared.awake a true j = true
  by_cases heq : j = a
  · rw [heq, update_self]
    exact Or.inr rfl
  · rw [update_of_ne heq]
    exact h.imp_left fun hmem => (mem_cons.mp hmem).resolve_left heq

theorem awake_resume {j : Fin n} (h : shared.awake j = true) : (shared.resume a).awake j = true := by
  change update shared.awake a true j = true
  by_cases heq : j = a
  · rw [heq, update_self]
  · rw [update_of_ne heq]
    exact h

theorem keeps_resume (blocked awaiting : List (Fin n)) (hglobal : GlobalInv shared ghost)
    (hlock : shared.lock = some .producer) (hfulfilled : shared.fulfilled = true)
    (hwaits : ghost.blocked ++ ghost.awaiting = a :: (blocked ++ awaiting))
    (hblocked : ∀ j, j ∈ ghost.blocked ∨ shared.awake j = true → j ∈ blocked ∨ (shared.resume a).awake j = true)
    (hawaiting : ∀ j, j ∈ ghost.awaiting ∨ shared.awake j = true → j ∈ awaiting ∨ (shared.resume a).awake j = true)
    (hpc : ProducerInv (shared.resume a) { ghost with blocked := blocked, awaiting := awaiting } pc)
    (hholds : pc.holdsLock = true) : Keeps .producer shared ghost (shared.resume a) pc := by
  refine ⟨{ ghost with blocked := blocked, awaiting := awaiting }, { hglobal with
      waits := ?_
      lists := by simp [Shared.resume, hfulfilled]
      awake := fun _ _ => hfulfilled },
    ⟨iff_of_true hlock hholds, hpc⟩, fun other hne => .of_holder hlock rfl hne (.of_ne_producer hne fun j _ => ?_)⟩
  · have hperm := hglobal.waits
    rw [hwaits] at hperm
    simpa only [Shared.resume, append_assoc, cons_append, nil_append] using hperm
  · exact ⟨id, hblocked j, hawaiting j, fun _ => Iff.rfl⟩

theorem keeps_takeChild {rest : List Nat} (hlock : shared.lock = some .producer)
    (hlock' : shared'.lock = shared.lock) (hglobal' : GlobalInv shared' { ghost with closures := rest })
    (hsame : shared'.fulfilled = shared.fulfilled) (hawake : shared'.awake = shared.awake)
    (hpc : ProducerInv shared' { ghost with closures := rest } pc) (hholds : pc.holdsLock = true) :
    Keeps .producer shared ghost shared' pc := by
  refine ⟨{ ghost with closures := rest }, hglobal', ⟨iff_of_true (hlock'.trans hlock) hholds, hpc⟩,
    fun other hne => .of_holder hlock hlock' hne (.of_ne_producer hne fun j _ => ?_)⟩
  refine ⟨hsame.trans, ?_, ?_, fun _ => Iff.rfl⟩
  all_goals
    dsimp only
    rw [hawake]
    exact id

section

variable {rest : List Nat} (hglobal : GlobalInv shared ghost) (hclosures : ghost.closures = c :: rest)
  (hfulfilled : shared.fulfilled = true) (hgiven : shared.given = some value)
include hglobal hclosures hfulfilled hgiven

theorem GlobalInv.runChild : GlobalInv (shared.runClosure c value) { ghost with closures := rest } := by
  refine { hglobal with
    lists := by simp [Shared.runClosure, hfulfilled]
    listed := ?_
    ran := given_append hglobal.ran hgiven }
  apply hglobal.listed.perm
  rw [listedClosures, listedClosures, Shared.runClosure, map_append, append_assoc, hclosures]
  exact perm_middle.append_left _

theorem GlobalInv.scheduleChild : GlobalInv (shared.schedule c value) { ghost with closures := rest } := by
  refine { hglobal with
    lists := by simp [Shared.schedule, hfulfilled]
    listed := ?_
    tasks := given_append hglobal.tasks hgiven }
  have hlisted := hglobal.listed
  rw [listedClosures, hclosures] at hlisted
  simpa only [listedClosures, Shared.schedule, map_append, map_cons, map_nil,
    append_assoc, cons_append, nil_append] using hlisted

end

theorem keeps_runTask {tasks : List (Nat × Value)} (hglobal : GlobalInv shared ghost)
    (hinv : ThreadInv .runner shared ghost pc) (htasks : shared.tasks = (c, value) :: tasks) :
    Keeps .runner shared ghost ({ shared with tasks := tasks }.runClosure c value) pc := by
  refine ⟨ghost, { hglobal with
      lists := fun h => ⟨(hglobal.lists h).1, (hglobal.lists h).2, (hglobal.lists h).3⟩
      listed := ?_
      ran := given_append hglobal.ran (hglobal.tasks (c, value) (htasks ▸ .head _))
      tasks := fun entry hentry => hglobal.tasks entry (htasks ▸ .tail _ hentry) },
    hinv, fun other hne => .of_guarded (.of_lists (fun _ _ _ => .rfl) rfl rfl rfl) rfl (by constructor <;> rfl)⟩
  have hlisted := hglobal.listed
  rw [listedClosures, htasks] at hlisted
  simpa only [listedClosures, Shared.runClosure, map_append, map_cons, map_nil,
    append_assoc, cons_append, nil_append] using hlisted

end Lfmr.Futures
