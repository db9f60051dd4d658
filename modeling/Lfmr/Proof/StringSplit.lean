import Lfmr.EncoreString

/-!
# Splitting and joining strings

Both loops go from one leftmost match to the next. What `split` makes of a piece is the piece itself, if its
length and one more are values of an `int` of C.
-/

namespace Lfmr.EncoreString

open List Lfmr.Collections.Matches

namespace Str

variable {this p : Str} {passed text piece rest : List UInt8}

@[simp]
theorem bytes_concatenate (this b : Str) : (this.concatenate b).bytes = this.bytes ++ b.bytes := rfl

def ofBytes (bytes : List UInt8) : Str := if h : 0 ∉ bytes then ⟨bytes, h⟩ else empty

theorem bytes_ofBytes {bytes : List UInt8} (hnul : 0 ∉ bytes) : (ofBytes bytes).bytes = bytes := by
  rw [ofBytes, dif_pos hnul]

theorem ofBytes_bytes (this : Str) : ofBytes this.bytes = this :=
  Str.ext (bytes_ofBytes this.nulFree)

theorem toInt32_natCast_le (n : Nat) : toInt32 n ≤ n := by
  unfold toInt32
  rcases Nat.lt_or_ge n 2147483648 with hlt | hge
  · exact Int.le_of_eq (Int.bmod_eq_of_le (by omega) (by omega))
  · have hle := Int.bmod_le (x := n) (m := 4294967296) (by decide)
    omega

theorem toInt32_eq_iff {n : Nat} : (0 ≤ toInt32 n ∧ toInt32 n < intMax ∧ toInt32 n = n) ↔ n < 2147483647 := by
  unfold toInt32 intMax
  constructor
  · omega
  · intro hlt
    rw [Int.bmod_eq_of_le (by omega) (by omega)]
    omega

section

variable (hp : p.bytes ≠ [])
include hp

theorem findFrom_eq (hthis : this.bytes = passed ++ text) : this.findFrom p passed.length =
      ((firstMatch p.bytes text).map fun i => ((passed.length + i : Nat) : Int)).getD (-1) := by
  unfold findFrom
  have hdrop : this.bytes.drop passed.length = text := by rw [hthis, drop_left]
  split
  · rename_i hout
    have hlength : (this.bytes.length : Int) ≤ passed.length := by
      rcases hout with hneg | hle
      · exact absurd hneg (by omega)
      · exact hle
    have hnil : text = [] := by
      rw [hthis, length_append] at hlength
      exact length_eq_zero_iff.mp (by omega)
    subst hnil
    rw [firstMatch, if_neg hp]
    rfl
  · rw [Int.toNat_natCast, hdrop]
    cases firstMatch p.bytes text with
    | none => rfl
    | some i => exact (Int.natCast_add ..).symm

theorem findFrom_of_some {before after : List UInt8} (hthis : this.bytes = passed ++ (before ++ p.bytes ++ after))
    (hfound : firstMatch p.bytes (before ++ p.bytes ++ after) = some before.length) :
    this.findFrom p passed.length = (passed ++ before).length := by
  rw [findFrom_eq hp hthis, hfound, length_append]
  rfl

theorem findFrom_of_none (hthis : this.bytes = passed ++ text)
    (hfound : firstMatch p.bytes text = none) : this.findFrom p passed.length = -1 := by
  rw [findFrom_eq hp hthis, hfound]
  rfl

theorem occurrencesLoop_eq (this : Str) (text : List UInt8) :
    ∀ passed counter turns, this.bytes = passed ++ text → (pieces p.bytes text).length ≤ turns →
      this.occurrencesLoop p turns counter (this.findFrom p passed.length) =
        some (counter + (pieces p.bytes text).length - 1) := by
  refine pieces_induction (fun text pieces => ∀ passed counter turns, this.bytes = passed ++ text →
    pieces.length ≤ turns → this.occurrencesLoop p turns counter (this.findFrom p passed.length) =
      some (counter + pieces.length - 1)) hp ?_ ?_ text
  · intro text hfound passed counter turns hthis hturns
    rw [findFrom_of_none hp hthis hfound]
    cases turns with
    | zero => exact absurd hturns (Nat.not_succ_le_zero _)
    | succ turns =>
      rw [occurrencesLoop, if_neg (by decide), length_singleton]
      congr 1
      omega
  · intro before after rest hfound _ ih passed counter turns hthis hturns
    rw [findFrom_of_some hp hthis hfound]
    cases turns with
    | zero => exact absurd hturns (Nat.not_succ_le_zero _)
    | succ turns =>
      have hstep := ih (passed ++ before ++ p.bytes) (counter + 1) turns (by simp [hthis])
        (Nat.le_of_succ_le_succ hturns)
      rw [occurrencesLoop, if_pos (by omega)]
      have hindex : ((passed ++ before).length : Int) + p.length = (passed ++ before ++ p.bytes).length := by
        simp only [length_append, length]
        omega
      rw [hindex, hstep, length_cons]
      congr 1
      omega

theorem occurrences_eq (this : Str) : this.occurrences p = some ((pieces p.bytes this.bytes).length - 1 : Int) := by
  have hlength : p.length ≠ 0 := fun h => hp (length_eq_zero_iff.mp (Int.ofNat_eq_zero.mp h))
  rw [occurrences, if_neg hlength, find]
  refine (occurrencesLoop_eq hp this this.bytes [] 0 _ rfl (length_pieces_le hp _)).trans ?_
  rw [Int.zero_add]

end

def clip (piece : List UInt8) : Option Str :=
  if 0 ≤ toInt32 piece.length ∧ toInt32 piece.length < intMax then
    some (ofBytes (piece.take (toInt32 piece.length).toNat))
  else none

theorem copyOf_eq {size : Nat} (hthis : this.bytes = passed ++ (piece ++ rest)) (hsize : size ≤ piece.length) :
    this.copyOf passed.length size = ofBytes (piece.take size) := by
  have hbytes : (this.copyOf passed.length size).bytes = piece.take size := by
    have hdrop : this.bytes.drop passed.length = piece ++ rest := by rw [hthis, drop_left]
    exact (congrArg (take size) hdrop).trans (take_append_of_le_length hsize)
  rw [← hbytes, ofBytes_bytes]

theorem substring_eq (hthis : this.bytes = passed ++ (piece ++ rest)) :
    this.substring passed.length (passed ++ piece).length = (clip piece).map some := by
  have hsize : ((passed ++ piece).length : Int) - passed.length = piece.length := by
    rw [length_append]
    omega
  have hthisLength : this.length = passed.length + piece.length + rest.length := by
    simp only [length, hthis, length_append]
    omega
  have hle := toInt32_natCast_le piece.length
  have hsiz : (if toInt32 piece.length < this.length then toInt32 piece.length else toInt32 this.length) =
      toInt32 piece.length := by
    split
    · rfl
    · rename_i hge
      have hall : this.length = (piece.length : Int) := by omega
      rw [hall]
  rw [substring, if_neg (by rw [length_append]; omega), if_pos (Int.natCast_nonneg _), hsize]
  dsimp only
  rw [hsiz, clip]
  by_cases hvalid : 0 ≤ toInt32 piece.length ∧ toInt32 piece.length < intMax
  · rw [if_pos ⟨by omega, hvalid⟩, if_pos hvalid, Option.map_some]
    rw [Int.toNat_natCast, copyOf_eq hthis (by omega)]
  · rw [if_neg fun h => hvalid h.2, if_neg hvalid]
    rfl

def splitRest (this p : Str) (turns : Nat) (start : Int) (result : List Str) : Option (List Str) := do
  let (start, result) ← this.splitLoop p turns start result
  let last ← (← this.substring start this.length)
  return result ++ [last]

theorem splitRest_eq (hp : p.bytes ≠ []) (this : Str) (text : List UInt8) :
    ∀ passed result, this.bytes = passed ++ text →
      this.splitRest p ((pieces p.bytes text).length - 1) passed.length result =
        ((pieces p.bytes text).mapM clip).map (result ++ ·) := by
  refine pieces_induction (fun text pieces => ∀ passed result, this.bytes = passed ++ text →
    this.splitRest p (pieces.length - 1) passed.length result = (pieces.mapM clip).map (result ++ ·)) hp ?_ ?_ text
  · intro text hfound passed result hthis
    have hlength : this.length = (passed ++ text).length := by rw [length, hthis]
    have hthis' : this.bytes = passed ++ (text ++ []) := by rw [append_nil, hthis]
    have hrest : this.splitRest p 0 passed.length result =
        (this.substring passed.length this.length).bind fun piece => piece.bind fun last => some (result ++ [last]) :=
      rfl
    refine hrest.trans ?_
    rw [hlength, substring_eq hthis', mapM_cons, mapM_nil]
    cases clip text <;> rfl
  · intro before after rest hfound hrest ih passed result hthis
    have hthis' : this.bytes = passed ++ (before ++ (p.bytes ++ after)) := by rw [hthis, append_assoc before]
    have hturns : (before :: rest).length - 1 = rest.length - 1 + 1 := by
      have hpos : 0 < rest.length := length_pos_iff.mpr (hrest ▸ pieces_ne_nil hp after)
      rw [length_cons]
      omega
    have hindex : ((passed ++ before).length : Int) + p.length = (passed ++ before ++ p.bytes).length := by
      simp only [length_append, length]
      omega
    have hstep : this.splitRest p (rest.length - 1 + 1) passed.length result =
        (this.substring passed.length (this.findFrom p passed.length)).bind fun piece => piece.bind fun piece =>
          this.splitRest p (rest.length - 1) (this.findFrom p passed.length + p.length) (result ++ [piece]) := by
      simp only [splitRest, splitLoop, bind, Option.bind_assoc]
    rw [hturns, hstep, findFrom_of_some hp hthis hfound, substring_eq hthis', hindex, mapM_cons]
    cases clip before with
    | none => rfl
    | some piece =>
      refine (ih (passed ++ before ++ p.bytes) (result ++ [piece]) (by simp [hthis])).trans ?_
      cases rest.mapM clip with
      | none => rfl
      | some strings => simp

theorem pieces_nulFree (hp : p.bytes ≠ []) (this : Str) : ∀ piece ∈ pieces p.bytes this.bytes, 0 ∉ piece :=
  fun piece hpiece hmem => this.nulFree (subset_of_mem_pieces hp this.bytes piece hpiece hmem)

theorem split_of_not_occurs (hp : p.bytes ≠ []) (hnot : ¬ p.bytes <:+: this.bytes) : this.split p = some [this] := by
  rw [split, occurrences_eq hp, pieces_of_none (firstMatch_eq_none_iff.mpr hnot)]
  rfl

theorem split_of_occurs (hp : p.bytes ≠ []) (hoccurs : p.bytes <:+: this.bytes) :
    this.split p = (pieces p.bytes this.bytes).mapM clip := by
  have hlength : p.length ≠ 0 := fun h => hp (length_eq_zero_iff.mp (Int.ofNat_eq_zero.mp h))
  have hmore := one_lt_length_pieces hp hoccurs
  have hturns : ((pieces p.bytes this.bytes).length - 1 : Int).toNat = (pieces p.bytes this.bytes).length - 1 := by
    omega
  have hsplit : this.split p = this.splitRest p ((pieces p.bytes this.bytes).length - 1) 0 [] := by
    rw [split, occurrences_eq hp, ← hturns]
    refine (if_neg ?_).trans (if_neg hlength)
    omega
  rw [hsplit]
  refine (splitRest_eq hp this this.bytes [] [] rfl).trans ?_
  cases (pieces p.bytes this.bytes).mapM clip <;> rfl

theorem bytes_join_cons (p first : Str) (rest : List Str) :
    (p.join (first :: rest)).bytes = first.bytes ++ rest.flatMap fun string => p.bytes ++ string.bytes := by
  rw [join]
  induction rest generalizing first with
  | nil => exact (append_nil _).symm
  | cons second rest ih =>
    rw [foldl_cons, ih, flatMap_cons]
    simp only [bytes_concatenate, append_assoc]

theorem length_join (p : Str) (strings : List Str) : (p.join strings).bytes.length =
      (strings.flatMap Str.bytes).length + (strings.length - 1) * p.bytes.length := by
  cases strings with
  | nil => simp [join, empty]
  | cons first rest =>
    rw [bytes_join_cons, length_append, flatMap_cons, length_append, length_cons, Nat.add_sub_cancel, Nat.add_assoc]
    congr 1
    induction rest with
    | nil => simp
    | cons second rest ih =>
      rw [flatMap_cons, length_append, length_append, ih, flatMap_cons, length_append, length_cons, Nat.succ_mul]
      omega

theorem join_pieces (hp : p.bytes ≠ []) (text : List UInt8) :
    0 ∉ text → (p.join ((pieces p.bytes text).map ofBytes)).bytes = text := by
  refine pieces_induction (fun text pieces => 0 ∉ text → (p.join (pieces.map ofBytes)).bytes = text) hp ?_ ?_ text
  · intro text _ hnul
    exact bytes_ofBytes hnul
  · intro before after rest _ hrest ih hnul
    have hbefore : 0 ∉ before := fun hmem =>
      hnul (mem_append_left _ (mem_append_left _ hmem))
    have hafter := ih fun hmem => hnul (mem_append_right _ hmem)
    cases rest with
    | nil => exact absurd hrest (pieces_ne_nil hp after)
    | cons second rest =>
      rw [map_cons, bytes_join_cons] at hafter
      rw [map_cons, map_cons, bytes_join_cons, flatMap_cons, bytes_ofBytes hbefore, append_assoc, append_assoc, hafter]

theorem clip_eq_ofBytes (hshort : piece.length < 2147483647) : clip piece = some (ofBytes piece) := by
  obtain ⟨hnonneg, hmax, heq⟩ := toInt32_eq_iff.mpr hshort
  rw [clip, if_pos ⟨hnonneg, hmax⟩, heq, Int.toNat_natCast, take_length]

theorem mapM_eq_some_map {f : α → Option β} {g : α → β} {l : List α} (hf : ∀ x ∈ l, f x = some (g x)) :
    l.mapM f = some (l.map g) := by
  induction l with
  | nil => rfl
  | cons x l ih =>
    rw [mapM_cons, hf x mem_cons_self, ih fun y hy => hf y (mem_cons_of_mem _ hy)]
    rfl

theorem length_of_clip {string : Str} (hnul : 0 ∉ piece) (hclip : clip piece = some string) :
    string.bytes.length ≤ piece.length ∧ (string.bytes.length = piece.length → piece.length < 2147483647) := by
  rw [clip] at hclip
  split at hclip
  · rename_i hvalid
    obtain rfl := Option.some.inj hclip
    have hle := toInt32_natCast_le piece.length
    rw [bytes_ofBytes fun hmem => hnul (mem_of_mem_take hmem), length_take]
    refine ⟨Nat.min_le_right .., fun heq => ?_⟩
    exact toInt32_eq_iff.mp ⟨hvalid.1, hvalid.2, by omega⟩
  · exact absurd hclip (by simp)

theorem length_of_mapM_clip {texts : List (List UInt8)} :
    ∀ {strings : List Str}, (∀ piece ∈ texts, 0 ∉ piece) → texts.mapM clip = some strings →
      strings.length = texts.length ∧
      (strings.flatMap Str.bytes).length ≤ texts.flatten.length ∧
      ((strings.flatMap Str.bytes).length = texts.flatten.length → ∀ piece ∈ texts, piece.length < 2147483647) := by
  induction texts with
  | nil =>
    intro strings _ hmap
    obtain rfl : [] = strings := Option.some.inj hmap
    simp
  | cons piece texts ih =>
    intro strings hnul hmap
    rw [mapM_cons] at hmap
    obtain ⟨first, hfirst, hmap⟩ := Option.bind_eq_some_iff.mp hmap
    obtain ⟨rest, hrest, hmap⟩ := Option.bind_eq_some_iff.mp hmap
    obtain rfl : first :: rest = strings := Option.some.inj hmap
    obtain ⟨hle, heq⟩ := length_of_clip (hnul piece mem_cons_self) hfirst
    obtain ⟨hlength, hle', heq'⟩ := ih (fun piece hpiece => hnul piece (mem_cons_of_mem _ hpiece)) hrest
    simp only [flatMap_cons, flatten_cons, length_append, length_cons, forall_mem_cons]
    exact ⟨by omega, by omega, fun hsum => ⟨heq (by omega), heq' (by omega)⟩⟩

/-- Joining what `split` gives makes the string only if every piece was copied whole. -/
theorem pieces_short_of_join {strings : List Str} (hp : p.bytes ≠ []) (hoccurs : p.bytes <:+: this.bytes)
    (hsplit : this.split p = some strings) (hjoin : p.join strings = this) :
    ∀ piece ∈ pieces p.bytes this.bytes, piece.length < 2147483647 := by
  rw [split_of_occurs hp hoccurs] at hsplit
  obtain ⟨hlength, -, hshort⟩ := length_of_mapM_clip (pieces_nulFree hp this) hsplit
  refine hshort ?_
  have hjoined := length_join p strings
  have hsum := length_flatten_pieces hp this.bytes
  rw [hjoin, hlength] at hjoined
  omega

theorem bytes_join_of_empty (hp : p.bytes = []) (strings : List Str) :
    (p.join strings).bytes = strings.flatMap Str.bytes := by
  cases strings with
  | nil => rfl
  | cons first rest => simp only [bytes_join_cons, hp, nil_append, flatMap_cons]

theorem flatMap_stringFromChar {bytes : List UInt8} (hnul : 0 ∉ bytes) :
    (bytes.map stringFromChar).flatMap Str.bytes = bytes := by
  induction bytes with
  | nil => rfl
  | cons c bytes ih =>
    have hne : c ≠ 0 := fun h => hnul (h ▸ mem_cons_self)
    rw [map_cons, flatMap_cons, ih fun hmem => hnul (mem_cons_of_mem _ hmem), stringFromChar, dif_neg hne]
    rfl

theorem split_empty (hp : p.bytes = []) (this : Str) :
    ∃ strings, this.split p = some strings ∧ p.join strings = this := by
  have hlength : p.length = 0 := congrArg (fun bytes : List UInt8 => (bytes.length : Int)) hp
  by_cases hthis : this.length = 0
  · refine ⟨[this], ?_, rfl⟩
    rw [split, occurrences, if_pos hlength]
    exact if_pos hthis
  · have hchars : ∀ i ∈ range this.bytes.length,
        (this.charAt i).map stringFromChar = some (stringFromChar (this.bytes.getD i 0)) := by
      intro i hi
      have hlt : i < this.bytes.length := mem_range.mp hi
      have hin : (0 : Int) ≤ i ∧ (i : Int) < this.length := ⟨Int.natCast_nonneg i, Int.ofNat_lt.mpr hlt⟩
      rw [charAt, if_pos hin, Int.toNat_natCast, getD_eq_getElem?_getD, getElem?_eq_getElem hlt]
      rfl
    have hall : ((range this.bytes.length).map fun i => stringFromChar (this.bytes.getD i 0)) =
        this.bytes.map stringFromChar := by
      apply ext_getElem
      · simp
      · intro i hi _
        have hlt : i < this.bytes.length := by simpa using hi
        simp [hlt]
    refine ⟨this.bytes.map stringFromChar, ?_, ?_⟩
    · rw [split, occurrences, if_pos hlength, ← hall]
      exact (if_neg hthis).trans ((if_pos hlength).trans (mapM_eq_some_map hchars))
    · apply Str.ext
      rw [bytes_join_of_empty hp, flatMap_stringFromChar this.nulFree]

theorem splitsInto_iff (this p : Str) :
    (∃ strings, this.SplitsInto p strings) ↔
      p.bytes = [] ∨ ¬ p.bytes <:+: this.bytes ∨ ∀ piece ∈ pieces p.bytes this.bytes, piece.length < 2147483647 := by
  constructor
  · rintro ⟨strings, hsplits⟩
    by_cases hp : p.bytes = []
    · exact Or.inl hp
    · by_cases hoccurs : p.bytes <:+: this.bytes
      · exact Or.inr (Or.inr (pieces_short_of_join hp hoccurs hsplits.split hsplits.join))
      · exact Or.inr (Or.inl hoccurs)
  · intro hwhen
    by_cases hp : p.bytes = []
    · obtain ⟨strings, hsplit, hjoin⟩ := split_empty hp this
      exact ⟨strings, hsplit, hjoin, fun hne => absurd hp hne, fun hne => absurd hp hne⟩
    by_cases hoccurs : p.bytes <:+: this.bytes
    · obtain hshort := (hwhen.resolve_left hp).resolve_left (not_not_intro hoccurs)
      refine ⟨(pieces p.bytes this.bytes).map ofBytes, ?_, ?_, fun _ => ?_, fun _ => ?_⟩
      · rw [split_of_occurs hp hoccurs, mapM_eq_some_map fun piece hpiece => clip_eq_ofBytes (hshort piece hpiece)]
      · exact Str.ext (join_pieces hp this.bytes this.nulFree)
      · intro string hstring
        obtain ⟨piece, hpiece, rfl⟩ := mem_map.mp hstring
        rw [bytes_ofBytes (pieces_nulFree hp this piece hpiece)]
        exact not_infix_of_mem_pieces hp this.bytes piece hpiece
      · rw [occurrences_eq hp, length_map]
    · refine ⟨[this], split_of_not_occurs hp hoccurs, rfl, fun _ string hstring => ?_, fun _ => ?_⟩
      · rw [mem_singleton.mp hstring]
        exact hoccurs
      · rw [occurrences_eq hp, pieces_of_none (firstMatch_eq_none_iff.mpr hoccurs)]
        rfl

/-- A piece of 2147483648 bytes and a comma: the length of the piece is negative as an `int`. -/
theorem splitsInto_longPiece :
    ∃ this p : Str, this.bytes = List.replicate 2147483648 97 ++ [44] ∧ p.bytes = [44] ∧
      this.split p = none ∧ ¬ ∃ strings, this.SplitsInto p strings := by
  have hnul : (0 : UInt8) ∉ replicate 2147483648 97 ++ [44] := by
    intro hmem
    rcases mem_append.mp hmem with hmem | hmem
    · exact absurd (eq_of_mem_replicate hmem) (by decide)
    · exact absurd (mem_singleton.mp hmem) (by decide)
  let this : Str := ⟨replicate 2147483648 97 ++ [44], hnul⟩
  let comma : Str := ⟨[44], by decide⟩
  have hcomma : comma.bytes ≠ [] := cons_ne_nil _ _
  have hfound : firstMatch comma.bytes this.bytes = some (replicate 2147483648 (97 : UInt8)).length := by
    rw [length_replicate]
    exact firstMatch_replicate_append 2147483648 (prefix_refl _) (by decide) hcomma
  have hpieces : pieces comma.bytes this.bytes = [replicate 2147483648 97, []] := by
    have htext : this.bytes = replicate 2147483648 97 ++ comma.bytes ++ [] := (append_nil _).symm
    rw [pieces_of_some hcomma htext hfound, pieces_of_none rfl]
  have hoccurs : comma.bytes <:+: this.bytes := ⟨replicate 2147483648 97, [], append_nil _⟩
  have hclip : clip (replicate 2147483648 97) = none := by
    rw [clip, length_replicate]
    exact if_neg (by decide)
  have hsplit : this.split comma = none := by
    rw [split_of_occurs hcomma hoccurs, hpieces, mapM_cons, hclip]
    rfl
  refine ⟨this, comma, rfl, rfl, hsplit, ?_⟩
  rintro ⟨strings, hsplits⟩
  exact absurd (hsplit.symm.trans hsplits.split) (by simp)

end Str

end Lfmr.EncoreString
