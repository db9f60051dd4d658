import Mathlib.Algebra.GroupWithZero.Nat
import Mathlib.Algebra.Order.BigOperators.Group.List
import Lfmr.PartyJoin
import Lfmr.Proof.PartyEach

/-!
# When `party_join` flattens

A value or a future in a collection is replaced by the collection it holds, without a new node. The array
node stays, with what `party_join` makes of each collection in it: that collection is taken for one of
collections itself, and the result is one element of the array, whatever was in it.

For a value node this is right, as `party_join` returns what is in the node without looking at it. For the others
it never is: nodes are given a weight which the elements of a collection can only reach together if it is a value
node.
-/

namespace Lfmr.PartyJoin

open List

open Lfmr.Party (ArrayT listToArray listToArray_eq)

variable {δ : Type}

@[induction_eliminator]
theorem Word.induction {motive : Word δ → Prop} (data : ∀ data, motive (.data data))
    (value : ∀ val, motive val → motive (.value val)) (future : ∀ fut, motive fut → motive (.future fut))
    (futurePar : ∀ fut, motive fut → motive (.futurePar fut))
    (par : ∀ left right, motive left → motive right → motive (.par left right))
    (array : ∀ array, (∀ value ∈ array, motive value) → motive (.array array)) (word : Word δ) :
    motive word :=
  @Word.rec δ motive (fun words => ∀ word ∈ words, motive word) data value future futurePar par array
    (fun _ hmem => absurd hmem not_mem_nil)
    (fun _ _ hfirst hrest => forall_mem_cons.mpr ⟨hfirst, hrest⟩) word

variable {memory : Nat → Word δ} {p q pp joined value : Word δ} {IsElem : Word δ → Prop}
  {array values : List (Word δ)}

theorem bind_eq_ok {α β : Type} {first : Except Fault α} {next : α → Except Fault β} {result : β} :
    first >>= next = .ok result ↔ ∃ middle, first = .ok middle ∧ next middle = .ok result := by
  cases first with
  | error fault | ok middle => simp [bind, Except.bind]

theorem partyJoin_par {left right : Word δ} : partyJoin (.par left right) = .ok joined ↔
    ∃ pleft, partyJoin left = .ok pleft ∧ ∃ pright, partyJoin right = .ok pright ∧ newParP pleft pright = joined := by
  simp only [partyJoin, bind_eq_ok, pure, Except.pure, Except.ok.injEq]

theorem partyJoin_futurePar : partyJoin (.futurePar p) = .ok joined ↔
    ∃ fut, partyJoin p = .ok fut ∧ .futurePar fut = joined := by
  simp only [partyJoin, bind_eq_ok, pure, Except.pure, Except.ok.injEq]

theorem partyJoin_array : partyJoin (.array array) = .ok joined ↔
    ∃ values, partyJoinArray array = .ok values ∧ .array values = joined := by
  simp only [partyJoin, bind_eq_ok, pure, Except.pure, Except.ok.injEq]

theorem partyJoinArray_iff : partyJoinArray array = .ok values ↔
    List.Forall₂ (fun value joined => partyJoin value = .ok joined) array values := by
  induction array generalizing values with
  | nil => simp [partyJoinArray, eq_comm]
  | cons value rest ih =>
    simp only [partyJoinArray, bind_eq_ok, pure, Except.pure, Except.ok.injEq, ih, forall₂_cons_left_iff]
    constructor
    · rintro ⟨joined, hjoined, others, hothers, rfl⟩
      exact ⟨joined, others, hjoined, hothers, rfl⟩
    · rintro ⟨joined, others, hjoined, hothers, rfl⟩
      exact ⟨joined, hjoined, others, hothers, rfl⟩

def pushed : Word δ → List (Word δ)
  | .data _ => []
  | .value val => [val]
  | .future fut => [fut]
  | .par left right => pushed left ++ pushed right
  | .futurePar fut => pushed fut
  | .array array => array

theorem extractHelper_eq (p : Word δ) (hp : IsPar IsElem p) (list : List (Word δ)) :
    extractHelper list p = .ok ((pushed p).reverse ++ list) := by
  induction p generalizing list with
  | data data => exact hp.elim
  | value val => rfl
  | future fut => rfl
  | futurePar fut ih => exact ih hp list
  | par left right ihl ihr =>
    rw [extractHelper, ihl hp.1]
    change extractHelper _ right = _
    rw [ihr hp.2, pushed, reverse_append, append_assoc]
  | array array => exact congrArg Except.ok (foldl_flip_cons_eq_append' ..)

theorem partyExtract_eq (memory : Nat → Word δ) (hp : IsPar IsElem p) :
    ∃ extracted, partyExtract memory p = .ok extracted ∧ extracted.toList = (pushed p).reverse := by
  obtain ⟨extracted, hextracted, -, hlist⟩ := listToArray_eq memory ((pushed p).reverse ++ [])
  refine ⟨extracted, ?_, by rw [hlist, append_nil]⟩
  rw [partyExtract, extractHelper_eq p hp]
  change (listToArray memory _).mapError _ = _
  rw [hextracted]
  rfl

theorem toList_of_partyExtract {extracted : ArrayT (Word δ)} (hp : IsPar IsElem p)
    (hextract : partyExtract memory p = .ok extracted) : extracted.toList = (pushed p).reverse := by
  obtain ⟨other, hother, hlist⟩ := partyExtract_eq memory hp
  rw [hextract] at hother
  rwa [Except.ok.inj hother]

theorem isElem_of_mem_pushed (hp : IsPar IsElem p) (hvalue : value ∈ pushed p) : IsElem value := by
  induction p with
  | data data => exact hp.elim
  | value val | future fut => exact mem_singleton.mp hvalue ▸ hp
  | futurePar fut ih => exact ih hp hvalue
  | par left right ihl ihr => exact (mem_append.mp hvalue).elim (ihl hp.1) (ihr hp.2)
  | array array => exact hp value hvalue

theorem flatMap_perm {qs : List (Word δ)} {parts : List (ArrayT (Word δ))} (hqs : ∀ q ∈ qs, IsPar IsElem q)
    (hparts : List.Forall₂ (fun q part => partyExtract memory q = .ok part) qs parts) :
    (parts.flatMap ArrayT.toList).Perm (qs.flatMap pushed) := by
  induction hparts with
  | nil => exact .nil
  | cons hpart _ ih =>
    obtain ⟨hq, hqs⟩ := forall_mem_cons.mp hqs
    rw [flatMap_cons, flatMap_cons, toList_of_partyExtract hq hpart]
    exact (reverse_perm _).append (ih hqs)

theorem exists_parts (memory : Nat → Word δ) {qs : List (Word δ)} (hqs : ∀ q ∈ qs, IsPar IsElem q) :
    ∃ parts, List.Forall₂ (fun q part => partyExtract memory q = .ok part) qs parts := by
  induction qs with
  | nil => exact ⟨[], .nil⟩
  | cons q qs ih =>
    obtain ⟨hq, hqs⟩ := forall_mem_cons.mp hqs
    obtain ⟨part, hpart, -⟩ := partyExtract_eq memory hq
    obtain ⟨parts, hparts⟩ := ih hqs
    exact ⟨part :: parts, .cons hpart hparts⟩

theorem flattens_iff (hpp : IsParPar pp) (hjoined : ∀ joined, partyJoin pp = .ok joined → IsPar (fun _ => True) joined) :
    Flattens memory pp ↔ ∃ joined, partyJoin pp = .ok joined ∧ (pushed joined).Perm ((pushed pp).flatMap pushed) := by
  have hqs : ∀ q ∈ (pushed pp).reverse, IsPar (fun _ => True) q :=
    fun q hq => isElem_of_mem_pushed hpp (mem_reverse.mp hq)
  have hreverse : ((pushed pp).reverse.flatMap pushed).Perm ((pushed pp).flatMap pushed) :=
    (reverse_perm _).flatMap_right pushed
  constructor
  · rintro ⟨joined, result, collections, parts, hjoin, hresult, hcollections, hparts, hperm⟩
    rw [toList_of_partyExtract hpp hcollections] at hparts
    rw [toList_of_partyExtract (hjoined joined hjoin) hresult] at hperm
    refine ⟨joined, hjoin, (reverse_perm _).symm.trans (hperm.trans ?_)⟩
    exact (flatMap_perm hqs hparts).trans hreverse
  · rintro ⟨joined, hjoin, hperm⟩
    obtain ⟨result, hresult, hlist⟩ := partyExtract_eq memory (hjoined joined hjoin)
    obtain ⟨collections, hcollections, hlist'⟩ := partyExtract_eq memory hpp
    obtain ⟨parts, hparts⟩ := exists_parts memory hqs
    refine ⟨joined, result, collections, parts, hjoin, hresult, hcollections, hlist' ▸ hparts, ?_⟩
    rw [hlist]
    exact (reverse_perm _).trans (hperm.trans (hreverse.symm.trans (flatMap_perm hqs hparts).symm))

theorem isPar_of_partyJoin (hpp : IsParPar pp) (hjoin : partyJoin pp = .ok joined) : IsPar (fun _ => True) joined := by
  induction pp generalizing joined with
  | data data => exact hpp.elim
  | value val | future fut => exact Except.ok.inj hjoin ▸ hpp
  | futurePar fut ih =>
    obtain ⟨joinedFut, hfut, rfl⟩ := partyJoin_futurePar.mp hjoin
    have hjoined := ih hpp hfut
    exact hjoined
  | par left right ihl ihr =>
    obtain ⟨pleft, hleft, pright, hright, rfl⟩ := partyJoin_par.mp hjoin
    exact ⟨ihr hpp.2 hright, ihl hpp.1 hleft⟩
  | array array =>
    obtain ⟨values, -, rfl⟩ := partyJoin_array.mp hjoin
    exact fun _ _ => trivial

theorem partyJoinArray_values (hvalues : array.all isValue = true) :
    ∃ values, partyJoinArray array = .ok values ∧ values = array.flatMap pushed := by
  induction array with
  | nil => exact ⟨[], rfl, rfl⟩
  | cons first rest ih =>
    rw [all_cons, Bool.and_eq_true] at hvalues
    obtain ⟨values, hrest, rfl⟩ := ih hvalues.2
    cases first with
    | value val =>
      refine ⟨val :: rest.flatMap pushed, ?_, rfl⟩
      rw [partyJoinArray, hrest]
      rfl
    | _ => exact absurd hvalues.1 Bool.false_ne_true

theorem pushed_partyJoin (hpp : IsParPar pp) (hvalues : arraysOfValues pp = true) :
    ∃ joined, partyJoin pp = .ok joined ∧ (pushed joined).Perm ((pushed pp).flatMap pushed) := by
  induction pp with
  | data data => exact hpp.elim
  | value val => exact ⟨val, rfl, by simp [pushed]⟩
  | future fut => exact ⟨.futurePar fut, rfl, by simp [pushed]⟩
  | futurePar fut ih =>
    obtain ⟨joined, hjoin, hperm⟩ := ih hpp hvalues
    exact ⟨.futurePar joined, partyJoin_futurePar.mpr ⟨joined, hjoin, rfl⟩, hperm⟩
  | par left right ihl ihr =>
    rw [arraysOfValues, Bool.and_eq_true] at hvalues
    obtain ⟨pleft, hleft, hperml⟩ := ihl hpp.1 hvalues.1
    obtain ⟨pright, hright, hpermr⟩ := ihr hpp.2 hvalues.2
    refine ⟨newParP pleft pright, partyJoin_par.mpr ⟨pleft, hleft, pright, hright, rfl⟩, ?_⟩
    rw [pushed, flatMap_append]
    exact perm_append_comm.trans (hperml.append hpermr)
  | array array =>
    obtain ⟨values, hjoin, rfl⟩ := partyJoinArray_values hvalues
    exact ⟨_, partyJoin_array.mpr ⟨_, hjoin, rfl⟩, .refl _⟩

mutual

def weight : Word δ → Nat
  | .data _ => 1
  | .value val => weight val + 1
  | .future fut | .futurePar fut => weight fut + 1
  | .par left right => weight left + weight right + 1
  | .array array => 2 * weights array + 1

def weights : List (Word δ) → Nat
  | [] => 0
  | first :: rest => weight first + weights rest

end

theorem weights_eq (list : List (Word δ)) : weights list = (list.map weight).sum := by
  induction list with
  | nil => rfl
  | cons first rest ih => rw [weights, ih, map_cons, sum_cons]

theorem weights_append (front back : List (Word δ)) : weights (front ++ back) = weights front + weights back := by
  rw [weights_eq, weights_eq, weights_eq, map_append, sum_append]

theorem weights_perm {list other : List (Word δ)} (hperm : list.Perm other) : weights list = weights other := by
  rw [weights_eq, weights_eq, (hperm.map weight).sum_eq]

theorem weight_pos (word : Word δ) : 0 < weight word := by
  cases word <;> simp [weight]

theorem weights_le_of_forall (hjoin : partyJoinArray array = .ok values) (hle : ∀ value ∈ array, ∀ joined,
    partyJoin value = .ok joined → weight value ≤ 2 * weight joined) : weights array ≤ 2 * weights values := by
  rw [partyJoinArray_iff] at hjoin
  induction hjoin with
  | nil => exact Nat.le_refl _
  | cons hfirst _ ih =>
    obtain ⟨hle, hrest⟩ := forall_mem_cons.mp hle
    have hle' := hle _ hfirst
    have hrest' := ih hrest
    rw [weights, weights]
    omega

theorem weight_le_partyJoin {word : Word δ} (hjoin : partyJoin word = .ok joined) :
    weight word ≤ 2 * weight joined := by
  induction word generalizing joined with
  | data data => simp [partyJoin] at hjoin
  | value val =>
    cases hjoin
    have hpos := weight_pos val
    rw [weight]
    omega
  | future fut =>
    cases hjoin
    rw [weight, weight]
    omega
  | futurePar fut ih =>
    obtain ⟨joinedFut, hfut, rfl⟩ := partyJoin_futurePar.mp hjoin
    have hle := ih hfut
    rw [weight, weight]
    omega
  | par left right ihl ihr =>
    obtain ⟨pleft, hleft, pright, hright, rfl⟩ := partyJoin_par.mp hjoin
    have hlel := ihl hleft
    have hler := ihr hright
    rw [newParP, weight, weight]
    omega
  | array array ih =>
    obtain ⟨values, hvalues, rfl⟩ := partyJoin_array.mp hjoin
    have hle := weights_le_of_forall hvalues fun value hmem _ hvalue => ih value hmem hvalue
    rw [weight, weight]
    omega

theorem weights_pushed_le (hq : IsPar IsElem q) (hjoin : partyJoin q = .ok joined) :
    weights (pushed q) ≤ weight joined ∧ (isValue q = false → weights (pushed q) < weight joined) := by
  induction q generalizing joined with
  | data data => exact hq.elim
  | value val =>
    cases hjoin
    exact ⟨Nat.le_refl _, fun hvalue => absurd hvalue.symm Bool.false_ne_true⟩
  | future fut =>
    cases hjoin
    simp only [pushed, weights, weight]
    omega
  | futurePar fut ih =>
    obtain ⟨joinedFut, hfut, rfl⟩ := partyJoin_futurePar.mp hjoin
    have hle := (ih hq hfut).1
    simp only [pushed, weight]
    omega
  | par left right ihl ihr =>
    obtain ⟨pleft, hleft, pright, hright, rfl⟩ := partyJoin_par.mp hjoin
    have hlel := (ihl hq.1 hleft).1
    have hler := (ihr hq.2 hright).1
    simp only [pushed, newParP, weight, weights_append]
    omega
  | array array =>
    obtain ⟨values, hvalues, rfl⟩ := partyJoin_array.mp hjoin
    have hle := weights_le_of_forall hvalues fun _ _ _ => weight_le_partyJoin
    simp only [pushed, weight]
    omega

theorem weights_array_le (harray : ∀ q ∈ array, IsPar IsElem q) (hjoin : partyJoinArray array = .ok values) :
    weights (array.flatMap pushed) ≤ weights values ∧
      (array.all isValue = false → weights (array.flatMap pushed) < weights values) := by
  induction array generalizing values with
  | nil =>
    cases hjoin
    exact ⟨Nat.le_refl _, fun hall => absurd hall.symm Bool.false_ne_true⟩
  | cons first rest ih =>
    obtain ⟨hfirst, hrest⟩ := forall_mem_cons.mp harray
    obtain ⟨joined, others, hjoined, hothers, rfl⟩ := forall₂_cons_left_iff.mp (partyJoinArray_iff.mp hjoin)
    obtain ⟨hle, hlt⟩ := weights_pushed_le hfirst hjoined
    obtain ⟨hle', hlt'⟩ := ih hrest (partyJoinArray_iff.mpr hothers)
    rw [flatMap_cons, weights_append, weights, all_cons]
    refine ⟨by omega, fun hall => ?_⟩
    rcases Bool.and_eq_false_iff.mp hall with hvalue | hvalue
    · have := hlt hvalue
      omega
    · have := hlt' hvalue
      omega

theorem weights_partyJoin_le (hpp : IsParPar pp) (hjoin : partyJoin pp = .ok joined) :
    weights ((pushed pp).flatMap pushed) ≤ weights (pushed joined) ∧
      (arraysOfValues pp = false → weights ((pushed pp).flatMap pushed) < weights (pushed joined)) := by
  induction pp generalizing joined with
  | data data => exact hpp.elim
  | value val | future fut =>
    cases hjoin
    simp [pushed, arraysOfValues]
  | futurePar fut ih =>
    obtain ⟨joinedFut, hfut, rfl⟩ := partyJoin_futurePar.mp hjoin
    have hjoined := ih hpp hfut
    exact hjoined
  | par left right ihl ihr =>
    obtain ⟨pleft, hleft, pright, hright, rfl⟩ := partyJoin_par.mp hjoin
    obtain ⟨hlel, hltl⟩ := ihl hpp.1 hleft
    obtain ⟨hler, hltr⟩ := ihr hpp.2 hright
    rw [pushed, flatMap_append, weights_append, newParP, pushed, weights_append, arraysOfValues]
    refine ⟨by omega, fun hvalues => ?_⟩
    rcases Bool.and_eq_false_iff.mp hvalues with hvalues | hvalues
    · have := hltl hvalues
      omega
    · have := hltr hvalues
      omega
  | array array =>
    obtain ⟨values, hvalues, rfl⟩ := partyJoin_array.mp hjoin
    exact weights_array_le hpp hvalues

theorem partyJoin_flattens_iff (memory : Nat → Word δ) (pp : Word δ) (hpp : IsParPar pp) :
    Flattens memory pp ↔ arraysOfValues pp = true := by
  rw [flattens_iff hpp fun _ => isPar_of_partyJoin hpp]
  refine ⟨?_, pushed_partyJoin hpp⟩
  rintro ⟨joined, hjoin, hperm⟩
  by_contra hvalues
  have hlt := (weights_partyJoin_le hpp hjoin).2 (Bool.eq_false_iff.mpr hvalues)
  rw [weights_perm hperm] at hlt
  exact Nat.lt_irrefl _ hlt

theorem partyJoin_flattens_values :
    Flattens (fun _ => .data 0)
      (.par (.value (.array [.data 1, .data 2])) (.array [.value (.data 3), .value (.data 4)])) := by
  refine (partyJoin_flattens_iff _ _ ?_).mpr rfl
  simp [IsParPar, IsPar]

/-- The one collection in the array has two elements, and one pointer comes out. With an array in its place,
its first element is taken for a pointer. -/
theorem partyJoin_array_wrong :
    (partyJoin (.array [.par (.value (.data 1)) (.value (.data 2))]) =
        .ok (.array [.par (.data 2) (.data 1)]) ∧
      ¬ Flattens (fun _ => .data 0) (.array [.par (.value (.data 1)) (.value (.data 2))])) ∧
      partyJoin (.array [.array [.data 1, .data 2]]) = .error .badPointer := by
  have hpp : IsParPar (.array [.par (.value (.data 1)) (.value (.data 2))]) := by simp [IsParPar, IsPar]
  refine ⟨⟨rfl, ?_⟩, rfl⟩
  rw [flattens_iff hpp fun _ => isPar_of_partyJoin hpp]
  rintro ⟨joined, hjoin, hperm⟩
  cases hjoin
  exact absurd hperm.length_eq (by decide)

end Lfmr.PartyJoin
