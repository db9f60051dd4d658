import Mathlib.Data.List.Nodup
import Mathlib.Tactic.Common
import Lfmr.CCodeNames

/-!
# When the generated names are distinct

The name of a method without primes is that of the class, an underscore and that of the method, so that
underscores in the names themselves can make two of them the same, and so can a name that ends like the
suffix of a variant. With primes the name is there twice, and can be read back.
-/

namespace Lfmr.CCodeNames

open List

variable {name other : List Char} {method method' : Method} {variant variant' : Variant}

@[simp]
theorem withoutPrimes_nil : withoutPrimes [] = [] := rfl

@[simp]
theorem expanded_nil : expanded [] = [] := rfl

theorem withoutPrimes_cons (c : Char) (cs : List Char) :
    withoutPrimes (c :: cs) = (if c = prime then '_' else c) :: withoutPrimes cs := by
  simp only [withoutPrimes, replacePrimes, flatMap_cons]
  split <;> rfl

theorem expanded_cons (c : Char) (cs : List Char) : expanded (c :: cs) =
      (if c = prime then ['_', 'p', 'r', 'i', 'm', 'e'] else [c]) ++ expanded cs := by
  simp only [expanded, replacePrimes, flatMap_cons]

theorem length_withoutPrimes (name : List Char) : (withoutPrimes name).length = name.length := by
  induction name with
  | nil => rfl
  | cons c cs ih => rw [withoutPrimes_cons, length_cons, length_cons, ih]

theorem length_expanded (name : List Char) : (expanded name).length = name.length + 5 * name.count prime := by
  induction name with
  | nil => rfl
  | cons c cs ih =>
    rw [expanded_cons, length_append, ih, count_cons, length_cons]
    by_cases hc : c = prime
    · simp [hc]
      omega
    · simp [hc]
      omega

theorem count_h_withoutPrimes (name : List Char) : (withoutPrimes name).count 'h' = name.count 'h' := by
  induction name with
  | nil => rfl
  | cons c cs ih =>
    rw [withoutPrimes_cons, count_cons, count_cons, ih]
    by_cases hc : c = prime
    · subst hc
      rfl
    · rw [if_neg hc]

theorem count_h_expanded (name : List Char) : (expanded name).count 'h' = name.count 'h' := by
  induction name with
  | nil => rfl
  | cons c cs ih =>
    rw [expanded_cons, count_append, count_cons, ih]
    by_cases hc : c = prime
    · subst hc
      rw [if_pos rfl, show (['_', 'p', 'r', 'i', 'm', 'e'] : List Char).count 'h' = 0 from rfl,
        show (prime == 'h') = false from rfl]
      simp
    · rw [if_neg hc, count_singleton]
      omega

theorem withoutPrimes_append (name other : List Char) :
    withoutPrimes (name ++ other) = withoutPrimes name ++ withoutPrimes other :=
  flatMap_append

theorem expanded_append (name other : List Char) : expanded (name ++ other) = expanded name ++ expanded other :=
  flatMap_append

theorem eq_append_of_replacePrimes_eq {word letters rest : List Char} (hletters : '_' ∉ letters)
    (heq : replacePrimes ('_' :: word) name = letters ++ rest) :
    ∃ name', name = letters ++ name' ∧ replacePrimes ('_' :: word) name' = rest := by
  induction letters generalizing name with
  | nil => exact ⟨name, rfl, heq⟩
  | cons letter letters ih =>
    obtain ⟨hletter, hletters⟩ := not_or.mp (mt mem_cons.mpr hletters)
    cases name with
    | nil => simp [replacePrimes] at heq
    | cons c cs =>
      rw [replacePrimes, flatMap_cons] at heq
      by_cases hc : c = prime
      · simp only [if_pos hc, cons_append, cons.injEq] at heq
        exact absurd heq.1 hletter
      · simp only [if_neg hc, cons_append, nil_append, cons.injEq] at heq
        obtain ⟨name', rfl, hname'⟩ := ih hletters heq.2
        exact ⟨name', by rw [heq.1, cons_append], hname'⟩

/-- Where the names agree but for primes, what is written for a prime cannot come from letters: these would
have to follow each other without end. -/
theorem prime_append_expanded_ne (hsame : withoutPrimes name = withoutPrimes other) :
    ['p', 'r', 'i', 'm', 'e'] ++ expanded name ≠ expanded other := by
  intro heq
  induction hlen : other.length using Nat.strongRecOn generalizing name other with
  | ind length ih =>
    obtain ⟨other', rfl, hother'⟩ := eq_append_of_replacePrimes_eq (by decide) heq.symm
    rw [withoutPrimes_append] at hsame
    obtain ⟨name', rfl, hname'⟩ := eq_append_of_replacePrimes_eq (by decide) hsame
    rw [expanded_append] at hother'
    refine ih other'.length ?_ hname' hother'.symm rfl
    rw [← hlen, length_append]
    simp

theorem eq_of_fixed_eq (hwithout : withoutPrimes name = withoutPrimes other)
    (hexpanded : expanded name = expanded other) : name = other := by
  induction name generalizing other with
  | nil =>
    cases other with
    | nil => rfl
    | cons d ds => simp [withoutPrimes_cons] at hwithout
  | cons c cs ih =>
    cases other with
    | nil => simp [withoutPrimes_cons] at hwithout
    | cons d ds =>
      rw [withoutPrimes_cons, withoutPrimes_cons, cons.injEq] at hwithout
      rw [expanded_cons, expanded_cons] at hexpanded
      obtain ⟨hhead, htail⟩ := hwithout
      by_cases hc : c = prime
      · by_cases hd : d = prime
        · simp only [hc, hd, if_true, append_cancel_left_eq] at hexpanded
          rw [hc, hd, ih htail hexpanded]
        · simp only [hc, hd, if_true, if_false] at hhead hexpanded
          rw [← hhead] at hexpanded
          exact absurd (cons.inj hexpanded).2 (prime_append_expanded_ne htail)
      · by_cases hd : d = prime
        · simp only [hc, hd, if_true, if_false] at hhead hexpanded
          rw [hhead] at hexpanded
          exact absurd (cons.inj hexpanded).2.symm (prime_append_expanded_ne htail.symm)
        · simp only [hc, hd, if_false] at hhead hexpanded
          subst hhead
          rw [ih htail (cons.inj hexpanded).2]

/-! ### The two shapes of a name -/

def afterEnc (name : List Char) : List Char :=
  if prime ∈ name then withoutPrimes name ++ (['_', 'm', 'e', 't', 'h', 'o', 'd', '_'] ++ expanded name)
  else ['m', 'e', 't', 'h', 'o', 'd', '_'] ++ name

theorem cName_eq (hname : method.joined = name) : (Symbol.mk method variant).cName =
      ['_', 'e', 'n', 'c', '_', '_'] ++ (afterEnc name ++ variant.suffix) := by
  have hne : name ≠ [] := by
    rw [← hname]
    simp [Method.joined]
  have hprimes : prime ∈ name → withoutPrimes name ≠ [] ∧ expanded name ≠ [] := by
    intro _
    constructor
    · exact fun hnil => hne (length_eq_zero_iff.mp (by rw [← length_withoutPrimes, hnil]; rfl))
    · intro hnil
      have hlen := length_expanded name
      rw [hnil] at hlen
      exact hne (length_eq_zero_iff.mp (by simp at hlen; omega))
  have hkind : (['m', 'e', 't', 'h', 'o', 'd'].filter Char.isAlpha).all Char.isUpper = false := by decide
  simp only [Symbol.cName, methodImplNameStr, hname, encoreName, fixPrimes, hkind, Bool.and_false,
    Bool.false_eq_true, if_false, afterEnc]
  by_cases hmem : prime ∈ name
  · obtain ⟨hwithout, hexpanded⟩ := hprimes hmem
    simp [hmem, hwithout, hexpanded, intercalate, intersperse]
  · simp [hmem, hne, intercalate, intersperse]

theorem count_h_suffix : variant.suffix.count 'h' = 0 := by
  cases variant <;> rfl

theorem append_method_eq {first second rest rest' : List Char} (hcount : first.count 'h' = second.count 'h')
    (heq : first ++ (['_', 'm', 'e', 't', 'h', 'o', 'd', '_'] ++ rest) =
      second ++ (['_', 'm', 'e', 't', 'h', 'o', 'd', '_'] ++ rest')) : first = second ∧ rest = rest' := by
  have hshift : ∀ {gap rest rest' : List Char}, gap.count 'h' = 0 → ['_', 'm', 'e', 't', 'h', 'o', 'd', '_'] ++ rest =
        gap ++ (['_', 'm', 'e', 't', 'h', 'o', 'd', '_'] ++ rest') → gap = [] := by
    intro gap rest rest' hgap heq
    rcases gap with _ | ⟨a, _ | ⟨b, _ | ⟨c, _ | ⟨d, _ | ⟨e, gap⟩⟩⟩⟩⟩
    · rfl
    all_goals simp only [cons_append, nil_append, cons.injEq] at heq
    · exact absurd heq.2.1 (by decide)
    · exact absurd heq.2.2.1 (by decide)
    · exact absurd heq.2.2.2.1 (by decide)
    · exact absurd heq.2.2.2.2.1 (by decide)
    · obtain ⟨-, -, -, -, rfl, -⟩ := heq
      simp [count_cons] at hgap
  rcases append_eq_append_iff.mp heq with ⟨gap, rfl, hrest⟩ | ⟨gap, rfl, hrest⟩
  · obtain rfl : gap = [] := hshift (by rw [count_append] at hcount; omega) hrest
    simpa using hrest
  · obtain rfl : gap = [] := hshift (by rw [count_append] at hcount; omega) hrest
    simpa using hrest.symm

theorem eq_of_primed (hname : prime ∈ name) (hother : prime ∈ other)
    (heq : afterEnc name ++ variant.suffix = afterEnc other ++ variant'.suffix) :
    name = other ∧ variant = variant' := by
  simp only [afterEnc, if_pos hname, if_pos hother, append_assoc] at heq
  have hcount : (withoutPrimes name).count 'h' = (withoutPrimes other).count 'h' := by
    have htotal := congrArg (count 'h') heq
    simp only [count_append, count_h_expanded, count_h_suffix, count_h_withoutPrimes] at htotal
    rw [count_h_withoutPrimes, count_h_withoutPrimes]
    omega
  obtain ⟨hwithout, htail⟩ := append_method_eq hcount heq
  have hlength : name.length = other.length := by
    rw [← length_withoutPrimes name, hwithout, length_withoutPrimes]
  -- The lengths of the suffixes differ by what is no multiple of the five letters more for a prime.
  have hvariant : variant = variant' := by
    have htotal := congrArg length htail
    simp only [length_append, length_expanded] at htotal
    cases variant <;> cases variant' <;> simp only [Variant.suffix, length_cons, length_nil] at htotal
    all_goals first | rfl | omega
  subst hvariant
  exact ⟨eq_of_fixed_eq hwithout (append_cancel_right htail), rfl⟩

theorem joined_eq_iff : method.joined = method'.joined ↔ method = method' ∨
    (∃ part, method'.clazz = method.clazz ++ '_' :: part ∧ method.mname = part ++ '_' :: method'.mname) ∨
    ∃ part, method.clazz = method'.clazz ++ '_' :: part ∧ method'.mname = part ++ '_' :: method.mname := by
  obtain ⟨clazz, mname⟩ := method
  obtain ⟨clazz', mname'⟩ := method'
  simp only [Method.joined, append_eq_append_iff, Method.mk.injEq]
  constructor
  · rintro (⟨_ | ⟨c, part⟩, hclass, hname⟩ | ⟨_ | ⟨c, part⟩, hclass, hname⟩)
    · simp only [append_nil, nil_append, cons.injEq, true_and] at hclass hname
      exact .inl ⟨hclass.symm, hname⟩
    · simp only [cons_append, cons.injEq] at hname
      exact .inr (.inl ⟨part, by rw [hclass, ← hname.1], hname.2⟩)
    · simp only [append_nil, nil_append, cons.injEq, true_and] at hclass hname
      exact .inl ⟨hclass, hname.symm⟩
    · simp only [cons_append, cons.injEq] at hname
      exact .inr (.inr ⟨part, by rw [hclass, ← hname.1], hname.2⟩)
  · rintro (⟨rfl, rfl⟩ | ⟨part, rfl, rfl⟩ | ⟨part, rfl, rfl⟩)
    · exact .inl ⟨[], by simp, rfl⟩
    · exact .inl ⟨'_' :: part, rfl, rfl⟩
    · exact .inr ⟨'_' :: part, rfl, rfl⟩

/-- The names of two methods do not go together: a part of the name can belong to the class or to the
method, or it ends like the suffix of a variant, or what follows `method_` in a name with primes is the
name of the other method. -/
inductive Clash (method method' : Method) : Prop
  | shift (part : List Char) (hclass : method'.clazz = method.clazz ++ '_' :: part)
      (hname : method.mname = part ++ '_' :: method'.mname)
  | suffix (variant : Variant) (hvariant : variant ≠ .impl) (hprime : prime ∉ method'.joined)
      (hjoined : method.joined = method'.joined ++ variant.suffix)
  | primed (rest : List Char) (variant variant' : Variant) (hprime : prime ∉ method.joined)
      (hprime' : prime ∈ method'.joined)
      (hwithout : withoutPrimes method'.joined = ['m', 'e', 't', 'h', 'o', 'd', '_'] ++ rest)
      (hjoined : method.joined ++ variant.suffix =
        rest ++ (['_', 'm', 'e', 't', 'h', 'o', 'd', '_'] ++ (expanded method'.joined ++ variant'.suffix)))

theorem clash_of_joined_eq (hne : method ≠ method') (heq : method.joined = method'.joined) :
    Clash method method' ∨ Clash method' method := by
  rcases joined_eq_iff.mp heq with rfl | ⟨part, hclass, hname⟩ | ⟨part, hclass, hname⟩
  · exact absurd rfl hne
  · exact .inl (.shift part hclass hname)
  · exact .inr (.shift part hclass hname)

theorem count_underscore_withoutPrimes (name : List Char) :
    (withoutPrimes name).count '_' = name.count '_' + name.count prime := by
  induction name with
  | nil => rfl
  | cons c cs ih =>
    rw [withoutPrimes_cons, count_cons, count_cons, count_cons, ih]
    by_cases hc : c = prime
    · subst hc
      rw [if_pos rfl, show ('_' == '_') = true from rfl, show (prime == '_') = false from rfl,
        show (prime == prime) = true from rfl]
      simp
      omega
    · have hbeq : (c == prime) = false := by simpa using hc
      rw [if_neg hc, hbeq]
      simp
      omega

/-- A name with primes has two underscores before `_method_`, so it goes on with `method_` only if its
own first part is that. -/
theorem clash_of_primed (hprime : prime ∉ method.joined) (hprime' : prime ∈ method'.joined)
    (heq : afterEnc method.joined ++ variant.suffix = afterEnc method'.joined ++ variant'.suffix) :
    Clash method method' := by
  simp only [afterEnc, if_neg hprime, if_pos hprime', append_assoc] at heq
  rcases append_eq_append_iff.mp heq with ⟨rest, hwithout, hjoined⟩ | ⟨rest, hmethod, -⟩
  · exact .primed rest variant variant' hprime hprime' hwithout hjoined
  · exfalso
    have hunder : 1 ≤ method'.joined.count '_' := one_le_count_iff.mpr (by simp [Method.joined])
    have hprimes : 1 ≤ method'.joined.count prime := one_le_count_iff.mpr hprime'
    have hcount := congrArg (count '_') hmethod
    rw [count_append, count_underscore_withoutPrimes] at hcount
    have hone : (['m', 'e', 't', 'h', 'o', 'd', '_'] : List Char).count '_' = 1 := rfl
    omega

attribute [local simp] Variant.suffix

theorem clash_of_unprimed (hprime : prime ∉ method.joined) (hprime' : prime ∉ method'.joined)
    (hne : Symbol.mk method variant ≠ Symbol.mk method' variant')
    (heq : method.joined ++ variant.suffix = method'.joined ++ variant'.suffix) :
    Clash method method' ∨ Clash method' method := by
  by_cases hvariant : variant = variant'
  · subst hvariant
    refine clash_of_joined_eq (fun hmethod => hne (by rw [hmethod])) (append_cancel_right heq)
  · have hlast := congrArg getLast? heq
    cases variant with
    | impl =>
      refine .inl (.suffix variant' (Ne.symm hvariant) hprime' ?_)
      simpa using heq
    | future =>
      cases variant' with
      | impl =>
        refine .inr (.suffix .future (by simp) hprime ?_)
        simpa using heq.symm
      | future => exact absurd rfl hvariant
      | oneWay => simp at hlast
    | oneWay =>
      cases variant' with
      | impl =>
        refine .inr (.suffix .oneWay (by simp) hprime ?_)
        simpa using heq.symm
      | future => simp at hlast
      | oneWay => exact absurd rfl hvariant

theorem clash_of_cName_eq (hne : Symbol.mk method variant ≠ Symbol.mk method' variant')
    (heq : (Symbol.mk method variant).cName = (Symbol.mk method' variant').cName) :
    Clash method method' ∨ Clash method' method := by
  rw [cName_eq rfl, cName_eq rfl, append_cancel_left_eq] at heq
  by_cases hprime : prime ∈ method.joined
  · by_cases hprime' : prime ∈ method'.joined
    · obtain ⟨hjoined, rfl⟩ := eq_of_primed hprime hprime' heq
      exact clash_of_joined_eq (fun hmethod => hne (by rw [hmethod])) hjoined
    · exact .inr (clash_of_primed hprime' hprime heq.symm)
  · by_cases hprime' : prime ∈ method'.joined
    · exact .inl (clash_of_primed hprime hprime' heq)
    · simp only [afterEnc, if_neg hprime, if_neg hprime', append_assoc, append_cancel_left_eq] at heq
      exact clash_of_unprimed hprime hprime' hne heq

theorem Clash.exists_cName_eq (hclash : Clash method method') :
    ∃ variant variant', Symbol.mk method variant ≠ Symbol.mk method' variant' ∧
      (Symbol.mk method variant).cName = (Symbol.mk method' variant').cName := by
  cases hclash with
  | shift part hclass hname =>
    refine ⟨.impl, .impl, fun heq => ?_, ?_⟩
    · obtain ⟨rfl, -⟩ := Symbol.mk.inj heq
      have hlength := congrArg length hclass
      simp at hlength
    · rw [cName_eq rfl, cName_eq (joined_eq_iff.mpr (.inr (.inl ⟨part, hclass, hname⟩))).symm]
  | suffix variant hvariant hprime hjoined =>
    refine ⟨.impl, variant, fun heq => hvariant (Symbol.mk.inj heq).2.symm, ?_⟩
    have hprime' : prime ∉ method'.joined ++ variant.suffix := by
      rw [mem_append, not_or]
      exact ⟨hprime, by cases variant <;> decide⟩
    rw [cName_eq hjoined, cName_eq rfl]
    rw [afterEnc, afterEnc, if_neg hprime', if_neg hprime, show Variant.impl.suffix = [] from rfl]
    simp
  | primed rest variant variant' hprime hprime' hwithout hjoined =>
    refine ⟨variant, variant', fun heq => ?_, ?_⟩
    · obtain ⟨rfl, -⟩ := Symbol.mk.inj heq
      exact hprime hprime'
    · rw [cName_eq rfl, cName_eq rfl]
      simp only [afterEnc, if_neg hprime, if_pos hprime', append_assoc, hwithout, hjoined]

variable {program : Program}

theorem Program.DistinctNames.nodup_methods (hdistinct : program.DistinctNames) : program.methods.Nodup := by
  rw [Program.methods, nodup_flatMap]
  refine ⟨fun c hc => (hdistinct.methods c hc).map fun _ _ heq => (Method.mk.inj heq).2, ?_⟩
  have hclasses := hdistinct.classes
  rw [List.Nodup, pairwise_map] at hclasses
  refine hclasses.imp fun hne => ?_
  intro method hfirst hsecond
  obtain ⟨_, -, rfl⟩ := mem_map.mp hfirst
  obtain ⟨_, -, heq⟩ := mem_map.mp hsecond
  exact hne (Method.mk.inj heq).1.symm

theorem Program.DistinctNames.nodup_symbols (hdistinct : program.DistinctNames) : program.symbols.Nodup := by
  rw [Program.symbols, nodup_flatMap]
  refine ⟨fun method _ => by simp, hdistinct.nodup_methods.imp fun hne => ?_⟩
  intro symbol hfirst hsecond
  simp only [mem_cons, not_mem_nil, or_false] at hfirst hsecond
  rcases hfirst with rfl | rfl | rfl <;> simp_all

theorem Program.mem_symbols : Symbol.mk method variant ∈ program.symbols ↔ method ∈ program.methods := by
  simp only [Program.symbols, mem_flatMap, mem_cons, Symbol.mk.injEq, not_mem_nil, or_false]
  constructor
  · rintro ⟨found, hfound, ⟨rfl, -⟩ | ⟨rfl, -⟩ | ⟨rfl, -⟩⟩ <;> exact hfound
  · intro hmem
    exact ⟨method, hmem, by cases variant <;> simp⟩

theorem cNames_nodup_iff (hdistinct : program.DistinctNames) :
    (program.symbols.map Symbol.cName).Nodup ↔
      ∀ method ∈ program.methods, ∀ method' ∈ program.methods, ¬ Clash method method' := by
  rw [nodup_map_iff_inj_on hdistinct.nodup_symbols]
  constructor
  · intro hinj method hmethod method' hmethod' hclash
    obtain ⟨variant, variant', hne, heq⟩ := hclash.exists_cName_eq
    exact hne (hinj _ (Program.mem_symbols.mpr hmethod) _ (Program.mem_symbols.mpr hmethod') heq)
  · rintro hnone ⟨method, variant⟩ hsymbol ⟨method', variant'⟩ hsymbol' heq
    have hmethod := Program.mem_symbols.mp hsymbol
    have hmethod' := Program.mem_symbols.mp hsymbol'
    by_contra hne
    rcases clash_of_cName_eq hne heq with hclash | hclash
    · exact hnone method hmethod method' hmethod' hclash
    · exact hnone method' hmethod' method hmethod hclash

def twoClasses (clazz mname clazz' mname' : List Char) : Program := ⟨[⟨clazz, [mname]⟩, ⟨clazz', [mname']⟩]⟩

theorem distinctNames_twoClasses {clazz mname clazz' mname' : List Char} (hne : clazz ≠ clazz') :
    (twoClasses clazz mname clazz' mname').DistinctNames := by
  constructor
  · simpa [twoClasses] using hne
  · simp [twoClasses]

theorem cNames_nodup_iff_twoClasses :
    (twoClasses ['A'] ['b', prime] ['B'] ['b']).DistinctNames ∧
      (((twoClasses ['A'] ['b', prime] ['B'] ['b']).symbols.map Symbol.cName).Nodup ↔
        ∀ method ∈ (twoClasses ['A'] ['b', prime] ['B'] ['b']).methods,
          ∀ method' ∈ (twoClasses ['A'] ['b', prime] ['B'] ['b']).methods, ¬ Clash method method') :=
  ⟨distinctNames_twoClasses (by decide), cNames_nodup_iff (distinctNames_twoClasses (by decide))⟩

/-- `A` with a method `b_c` and `A_b` with a method `c`: both are `_enc__method_A_b_c`. -/
theorem cNames_not_nodup_underscores :
    (∀ name ∈ [['A'], ['b', '_', 'c'], ['A', '_', 'b'], ['c']], isIdentifier name = true) ∧
      (twoClasses ['A'] ['b', '_', 'c'] ['A', '_', 'b'] ['c']).DistinctNames ∧
      ¬ ((twoClasses ['A'] ['b', '_', 'c'] ['A', '_', 'b'] ['c']).symbols.map Symbol.cName).Nodup :=
  ⟨by decide, distinctNames_twoClasses (by decide), by decide⟩

end Lfmr.CCodeNames
