import Lfmr.EncoreStringDelete
import Lfmr.Proof.StringSplit

/-!
# What `delete` needs to be right

`copied` and `skipped` are the bytes before the match that are outside and inside matches, as values of an
`int`. What is written of the temporary buffer is therefore free of zeros, and the string in it is as long as
`copied` and the rest after the last match. The result has room for `copied` bytes only.
-/

namespace Lfmr.EncoreString

open Lfmr.Collections.Matches

theorem Except.bind_eq_ok {value : Except Fault α} {next : α → Except Fault β} {result : β}
    (hrun : value >>= next = .ok result) : ∃ x, value = .ok x ∧ next x = .ok result := by
  cases value with
  | error fault => exact absurd hrun (by simp [bind, Except.bind])
  | ok x => exact ⟨x, rfl, hrun⟩

namespace Buffer

theorem string_append {bytes : List UInt8} (hnul : 0 ∉ bytes) (rest : List UInt8) :
    string (bytes ++ rest) = bytes ++ string rest := by
  apply List.takeWhile_append_of_pos
  intro byte hbyte
  exact bne_iff_ne.mpr fun h => hnul (h ▸ hbyte)

theorem string_of_nulFree {bytes : List UInt8} (hnul : 0 ∉ bytes) : string bytes = bytes := by
  have hstring := string_append hnul []
  rw [List.append_nil] at hstring
  exact hstring.trans (List.append_nil _)

theorem string_append_zero {bytes : List UInt8} (hnul : 0 ∉ bytes) (rest : List UInt8) :
    string (bytes ++ [0] ++ rest) = bytes := by
  rw [List.append_assoc, string_append hnul]
  exact List.append_nil _

theorem store_append {done room bytes : List UInt8} (hroom : bytes.length ≤ room.length) :
    store (done ++ room) done.length bytes = .ok (done ++ bytes ++ room.drop bytes.length) := by
  have hin : (0 : Int) ≤ done.length ∧ (done.length + bytes.length : Int) ≤ (done ++ room).length := by
    rw [List.length_append]
    omega
  rw [store, if_pos hin, Int.toNat_natCast, List.take_left, List.drop_length_add_append]

theorem store_start {buffer bytes : List UInt8} (hroom : bytes.length ≤ buffer.length) :
    store buffer 0 bytes = .ok (bytes ++ buffer.drop bytes.length) :=
  @store_append [] buffer bytes hroom

theorem store_eq_ok {buffer bytes buffer' : List UInt8} {offset : Int} (hstore : store buffer offset bytes = .ok buffer') :
    ∃ done room, buffer = done ++ room ∧ offset = done.length ∧ bytes.length ≤ room.length ∧
      buffer' = done ++ bytes ++ room.drop bytes.length := by
  unfold store at hstore
  split at hstore
  · rename_i hin
    have hlength : (buffer.take offset.toNat).length = offset.toNat := by
      rw [List.length_take]
      omega
    refine ⟨buffer.take offset.toNat, buffer.drop offset.toNat, (List.take_append_drop ..).symm, ?_, ?_, ?_⟩
    · omega
    · rw [List.length_drop]
      omega
    · rw [List.drop_drop, ← Except.ok.inj hstore]
  · cases hstore

end Buffer

namespace Str

open Buffer

variable {this s : Str} {passed text : List UInt8}

theorem drop_memory (this : Str) {start : Nat} (hstart : start ≤ this.bytes.length) :
    this.memory.drop start = this.bytes.drop start ++ [0] :=
  List.drop_append_of_le_length hstart

theorem nulFree_drop (this : Str) (start : Nat) : 0 ∉ this.bytes.drop start :=
  fun hmem => this.nulFree (List.mem_of_mem_drop hmem)

theorem strncpy_memory {dest : Buffer} {offset : Int} {start n : Nat} (hn : n ≠ 0)
    (hend : start + n ≤ this.bytes.length) :
    dest.strncpy offset this.memory start n = dest.store offset ((this.bytes.drop start).take n) := by
  have hread : (this.memory.drop start).take n = (this.bytes.drop start).take n := by
    rw [drop_memory this (by omega), List.take_append_of_le_length]
    rw [List.length_drop]
    omega
  have hlength : ((this.bytes.drop start).take n).length = n := by
    rw [List.length_take, List.length_drop]
    omega
  have hstring : string ((this.bytes.drop start).take n) = (this.bytes.drop start).take n :=
    string_of_nulFree fun hmem => nulFree_drop this start (List.mem_of_mem_take hmem)
  rw [strncpy, if_neg (by omega)]
  dsimp only
  rw [Int.toNat_natCast, Int.toNat_natCast, hread, hstring, hlength, Nat.sub_self, List.replicate_zero, List.append_nil]
  exact if_pos ⟨by omega, by omega, Or.inr rfl⟩

theorem strcpy_memory {dest : Buffer} {offset : Int} {start : Nat} (hstart : start ≤ this.bytes.length) :
    dest.strcpy offset this.memory start = dest.store offset (this.bytes.drop start ++ [0]) := by
  have hstring : string (this.bytes.drop start ++ [0]) = this.bytes.drop start := by
    have h := string_append_zero (nulFree_drop this start) []
    rwa [List.append_nil] at h
  rw [strcpy, Int.toNat_natCast, drop_memory this hstart, hstring]
  exact if_pos ⟨by omega, List.mem_append_right _ List.mem_cons_self⟩

theorem strcpy_memory_eq_ok {dest dest' : Buffer} {offset start : Int}
    (hcopy : dest.strcpy offset this.memory start = .ok dest') :
    ∃ i : Nat, start = i ∧ i ≤ this.bytes.length ∧ dest.store offset (this.bytes.drop i ++ [0]) = .ok dest' := by
  have hstart : 0 ≤ start ∧ start.toNat ≤ this.bytes.length := by
    unfold strcpy at hcopy
    split at hcopy
    · rename_i hin
      refine ⟨hin.1, ?_⟩
      have hpos := List.length_pos_of_mem hin.2
      rw [List.length_drop, memory, List.length_append, List.length_singleton] at hpos
      omega
    · cases hcopy
  refine ⟨start.toNat, by omega, hstart.2, ?_⟩
  rw [← strcpy_memory hstart.2, Int.toNat_of_nonneg hstart.1]
  exact hcopy

theorem strstr_eq (hthis : this.bytes = passed ++ text) :
    this.strstr s passed.length = (firstMatch s.bytes text).map (passed.length + ·) := by
  rw [strstr, hthis, List.drop_left]

/-! ### Values of 32 bits -/

theorem toInt32_of_lt {n : Nat} (hlt : n < 2147483648) : toInt32 n = n :=
  Int.bmod_eq_of_le (by omega) (by omega)

theorem lt_of_toInt32_eq {n : Nat} (heq : toInt32 n = n) : n < 2147483648 := by
  have hlt : toInt32 n < (4294967296 + 1) / 2 := Int.bmod_lt (by decide)
  omega

theorem toInt32_toInt32 (value : Int) : toInt32 (toInt32 value) = toInt32 value := Int.bmod_bmod

theorem toInt32_add (value increment : Int) : toInt32 (toInt32 value + increment) = toInt32 (value + increment) :=
  Int.bmod_add_bmod

theorem toInt32_sub (value decrement : Int) : toInt32 (value - toInt32 decrement) = toInt32 (value - decrement) :=
  Int.sub_bmod_bmod

/-! ### A run without overflow -/

theorem strncpy_piece {done room before rest : List UInt8} (hthis : this.bytes = passed ++ (before ++ rest))
    (hroom : before.length ≤ room.length) :
    Buffer.strncpy (done ++ room) done.length this.memory passed.length before.length =
      .ok (done ++ before ++ room.drop before.length) := by
  by_cases hempty : before.length = 0
  · obtain rfl := List.length_eq_zero_iff.mp hempty
    rw [List.append_nil]
    exact if_pos rfl
  · have hend : passed.length + before.length ≤ this.bytes.length := by
      rw [hthis, List.length_append, List.length_append]
      omega
    rw [strncpy_memory hempty hend, hthis, List.drop_left, List.take_left, store_append hroom]

def copiedState (done room : List UInt8) (skipped : Nat) : DeleteState := ⟨done ++ room, done.length, skipped⟩

theorem deleteLoop_step {before after done room : List UInt8} {skipped turns : Nat}
    (hthis : this.bytes = passed ++ (before ++ s.bytes ++ after))
    (hfound : firstMatch s.bytes (before ++ s.bytes ++ after) = some before.length)
    (hpassed : passed.length = done.length + skipped) (hroom : before.length ≤ room.length)
    (hcopied : done.length + before.length < 2147483648) (hskipped : skipped + s.bytes.length < 2147483648) :
    this.deleteLoop s (turns + 1) (this.strstr s passed.length) (copiedState done room skipped) =
      this.deleteLoop s turns (this.strstr s (passed ++ before ++ s.bytes).length)
        (copiedState (done ++ before) (room.drop before.length) (skipped + s.bytes.length)) := by
  have hstart : (done.length + skipped : Int) = passed.length := by omega
  have hsize : ((passed.length + before.length : Nat) - done.length - skipped : Int) = before.length := by omega
  have hcopy : Buffer.strncpy (done ++ room) done.length this.memory (done.length + skipped)
      ((passed.length + before.length : Nat) - done.length - skipped) =
      .ok (done ++ before ++ room.drop before.length) := by
    rw [hstart, hsize]
    exact strncpy_piece (by rw [hthis, List.append_assoc before]) hroom
  have hnewCopied : toInt32 ((passed.length + before.length : Nat) - skipped) = (done ++ before).length := by
    have hvalue : ((passed.length + before.length : Nat) - skipped : Int) = (done ++ before).length := by
      rw [List.length_append]
      omega
    rw [hvalue, toInt32_of_lt (by rwa [List.length_append])]
  have hnewSkipped : toInt32 (skipped + s.length) = (skipped + s.bytes.length : Nat) := by
    rw [← toInt32_of_lt hskipped, Int.natCast_add]
    rfl
  have hnext : passed.length + before.length + s.bytes.length = (passed ++ before ++ s.bytes).length := by
    rw [List.length_append, List.length_append]
  rw [strstr_eq hthis, hfound, Option.map_some, deleteLoop, copiedState]
  dsimp only
  rw [hcopy, hnewCopied, hnewSkipped, hnext]
  rfl

/-- The loop copies `pieces`, those of `text`, one after the other, but the last one. -/
def CopiesPieces (this s : Str) (text : List UInt8) (pieces : List (List UInt8)) : Prop :=
  ∀ passed done room skipped turns, this.bytes = passed ++ text → passed.length = done.length + skipped →
    done.length + pieces.flatten.length < 2147483648 → skipped + (pieces.length - 1) * s.bytes.length < 2147483648 →
    pieces.flatten.length ≤ room.length → pieces.length ≤ turns →
    this.deleteLoop s turns (this.strstr s passed.length) (copiedState done room skipped) =
      .ok (copiedState (done ++ pieces.dropLast.flatten) (room.drop pieces.dropLast.flatten.length)
        (skipped + (pieces.length - 1) * s.bytes.length))

theorem deleteLoop_eq (hs : s.bytes ≠ []) (this : Str) (text : List UInt8) :
    CopiesPieces this s text (pieces s.bytes text) := by
  refine pieces_induction (CopiesPieces this s) hs ?_ ?_ text
  · intro text hfound passed done room skipped turns hthis _ _ _ _ hturns
    rw [strstr_eq hthis, hfound]
    cases turns with
    | zero => exact absurd hturns (Nat.not_succ_le_zero _)
    | succ turns => simp [deleteLoop]
  · intro before after rest hfound hrest ih passed done room skipped turns hthis hpassed hcopied hskipped hroom hturns
    cases turns with
    | zero => exact absurd hturns (Nat.not_succ_le_zero _)
    | succ turns =>
      cases rest with
      | nil => exact absurd hrest (pieces_ne_nil hs after)
      | cons second rest =>
        rw [List.flatten_cons, List.length_append] at hcopied hroom
        rw [List.length_cons, Nat.add_sub_cancel, List.length_cons, Nat.succ_mul] at hskipped
        rw [deleteLoop_step hthis hfound hpassed (by omega) (by omega) (by omega),
          ih (passed ++ before ++ s.bytes) (done ++ before) (room.drop before.length) (skipped + s.bytes.length) turns
            (by simp [hthis]) (by simp only [List.length_append]; omega) (by rw [List.length_append]; omega)
            (by rw [List.length_cons, Nat.add_sub_cancel]; omega) (by rw [List.length_drop]; omega)
            (Nat.le_of_succ_le_succ hturns)]
        rw [List.dropLast_cons_cons, List.flatten_cons, List.length_append, List.drop_drop, List.append_assoc]
        congr 2
        simp only [List.length_cons, Nat.add_sub_cancel, Nat.succ_mul]
        omega

theorem strcpy_start {dest src : Buffer} {bytes rest : List UInt8} (hnul : 0 ∉ bytes) (hsrc : src = bytes ++ [0] ++ rest) :
    dest.strcpy 0 src 0 = dest.store 0 (bytes ++ [0]) := by
  rw [strcpy, Int.toNat_zero, List.drop_zero, hsrc, string_append_zero hnul]
  exact if_pos ⟨Int.le_refl 0, List.mem_append_left _ (List.mem_append_right _ List.mem_cons_self)⟩

theorem ofMemory_eq {bytes rest : List UInt8} (hnul : 0 ∉ bytes) : (ofMemory (bytes ++ [0] ++ rest)).bytes = bytes :=
  string_append_zero hnul rest

theorem deleteRest_eq {done room : List UInt8} {skipped : Nat} (hdone : 0 ∉ done) (hroom : 1 ≤ room.length)
    (hend : done.length + skipped = this.bytes.length) (hcopied : done.length < 2147483647) :
    ∃ result, this.deleteRest (copiedState done room skipped) = .ok result ∧ result.bytes = done := by
  have htail : Buffer.strcpy (done ++ room) done.length this.memory (done.length + skipped) =
      .ok (done ++ [0] ++ room.drop 1) := by
    rw [← Int.natCast_add, hend, strcpy_memory (Nat.le_refl _), List.drop_length, List.nil_append]
    exact store_append hroom
  have hmax : (done.length : Int) ≠ intMax := by
    unfold intMax
    omega
  have halloc : encoreAlloc (done.length + 1) = .ok (List.replicate (done.length + 1) 0) := if_pos (by omega)
  have hresult : Buffer.strcpy (List.replicate (done.length + 1) 0) 0 (done ++ [0] ++ room.drop 1) 0 =
      .ok (done ++ [0] ++ (List.replicate (done.length + 1) 0).drop (done ++ [0]).length) := by
    rw [strcpy_start hdone rfl]
    apply store_start
    rw [List.length_append, List.length_replicate]
    exact Nat.le_refl _
  refine ⟨ofMemory (done ++ [0] ++ (List.replicate (done.length + 1) 0).drop (done ++ [0]).length), ?_,
    ofMemory_eq hdone⟩
  rw [deleteRest, copiedState]
  dsimp only
  rw [htail]
  refine (if_neg hmax).trans ?_
  rw [halloc]
  exact congrArg (Except.map ofMemory) hresult

theorem length_temporary (stack : Nat → UInt8) (toLen : Nat) : toLen ≤ (temporary stack toLen).length := by
  unfold temporary
  split
  · rw [List.length_replicate]
    exact Nat.le_succ _
  · rw [List.length_map, List.length_range]

theorem flatten_eq {texts : List (List UInt8)} {last : List UInt8} (hlast : texts.getLast? = some last) :
    texts.flatten = texts.dropLast.flatten ++ last := by
  obtain ⟨init, rfl⟩ := List.getLast?_eq_some_iff.mp hlast
  simp

theorem EndsInMatch.delete_eq (h : this.EndsInMatch s) (stack : Nat → UInt8) :
    ∃ turns result, this.delete stack turns s = .ok result ∧ result.bytes = (pieces s.bytes this.bytes).flatten := by
  have hnul : 0 ∉ (pieces s.bytes this.bytes).flatten := by
    intro hmem
    obtain ⟨piece, hpiece, hmem⟩ := List.mem_flatten.mp hmem
    exact pieces_nulFree h.pattern this piece hpiece hmem
  have hflatten := flatten_eq h.last
  rw [List.append_nil] at hflatten
  have htotal := length_flatten_pieces h.pattern this.bytes
  have hmore := one_lt_length_pieces h.pattern h.occurs
  have hpos : 0 < ((pieces s.bytes this.bytes).length - 1) * s.bytes.length :=
    Nat.mul_pos (by omega) (List.length_pos_iff.mpr h.pattern)
  have hcopied := h.copied
  have hroom := length_temporary stack this.bytes.length
  have hloop := deleteLoop_eq h.pattern this this.bytes [] [] (temporary stack this.bytes.length) 0
    (pieces s.bytes this.bytes).length rfl rfl (by rw [List.length_nil]; omega) (by have := h.skipped; omega) (by omega)
    (Nat.le_refl _)
  rw [← hflatten, List.nil_append, Nat.zero_add] at hloop
  have hroomRest : 1 ≤ ((temporary stack this.bytes.length).drop (pieces s.bytes this.bytes).flatten.length).length := by
    rw [List.length_drop]
    omega
  have hend : (pieces s.bytes this.bytes).flatten.length + ((pieces s.bytes this.bytes).length - 1) * s.bytes.length =
      this.bytes.length := by omega
  obtain ⟨result, hrest, hresult⟩ := deleteRest_eq hnul hroomRest hend (by omega)
  refine ⟨(pieces s.bytes this.bytes).length, result, ?_, hresult⟩
  refine Eq.trans ?_ hrest
  exact congrArg (· >>= this.deleteRest) hloop

/-! ### Any run that returns -/

/-- Nothing is padded, so a copy within the string leaves no zero behind. -/
theorem strncpy_nulFree {tmp tmp' : Buffer} {offset start n : Int}
    (hcopy : tmp.strncpy offset this.memory start n = .ok tmp') (hend : start + n ≤ this.bytes.length)
    (hoffset : toInt32 offset = offset) (hnul : 0 ∉ tmp.take offset.toNat) :
    0 ∉ tmp'.take (toInt32 (offset + n)).toNat := by
  by_cases hn : n = 0
  · rw [strncpy, if_pos hn] at hcopy
    rw [hn, Int.add_zero, hoffset, ← Except.ok.inj hcopy]
    exact hnul
  · have hin : 0 ≤ start ∧ 0 ≤ n := by
      rw [strncpy, if_neg hn] at hcopy
      dsimp only at hcopy
      split at hcopy
      · next hin => exact ⟨hin.1, hin.2.1⟩
      · cases hcopy
    obtain ⟨i, rfl⟩ := Int.eq_ofNat_of_zero_le hin.1
    obtain ⟨m, rfl⟩ := Int.eq_ofNat_of_zero_le hin.2
    rw [strncpy_memory (by omega) (by omega)] at hcopy
    obtain ⟨done, room, rfl, rfl, -, rfl⟩ := store_eq_ok hcopy
    rw [Int.toNat_natCast, List.take_left] at hnul
    have hlength : ((this.bytes.drop i).take m).length = m := by
      rw [List.length_take, List.length_drop]
      omega
    have hle := toInt32_natCast_le (done.length + m)
    rw [Int.natCast_add] at hle
    have hshort : (toInt32 (done.length + m)).toNat ≤ (done ++ (this.bytes.drop i).take m).length := by
      rw [List.length_append, hlength]
      omega
    intro hmem
    rw [List.take_append_of_le_length hshort] at hmem
    rcases List.mem_append.mp (List.mem_of_mem_take hmem) with hmem | hmem
    · exact hnul hmem
    · exact nulFree_drop this i (List.mem_of_mem_take hmem)

theorem start_add_size (next copied skipped : Int) : copied + skipped + (next - copied - skipped) = next := by omega

theorem copied_add_size (next copied skipped : Int) : copied + (next - copied - skipped) = next - skipped := by omega

/-- Where the loop returns, the counters are those of the pieces, as values of an `int`. -/
def CountsPieces (this s : Str) (text : List UInt8) (pieces : List (List UInt8)) : Prop :=
  ∀ (passed : List UInt8) (copied skipped : Nat) (tmp : Buffer) (turns : Nat) (final : DeleteState),
    this.bytes = passed ++ text → passed.length = copied + skipped → 0 ∉ tmp.take (toInt32 copied).toNat →
    this.deleteLoop s turns (this.strstr s passed.length) ⟨tmp, toInt32 copied, toInt32 skipped⟩ = .ok final →
    final.copied = toInt32 (copied + pieces.dropLast.flatten.length : Nat) ∧
    final.skipped = toInt32 (skipped + (pieces.length - 1) * s.bytes.length : Nat) ∧
    0 ∉ final.tmp.take final.copied.toNat

theorem deleteLoop_eq_ok (hs : s.bytes ≠ []) (this : Str) (text : List UInt8) :
    CountsPieces this s text (pieces s.bytes text) := by
  refine pieces_induction (CountsPieces this s) hs ?_ ?_ text
  · intro text hfound passed copied skipped tmp turns final hthis _ hnul hloop
    rw [strstr_eq hthis, hfound] at hloop
    cases turns with
    | zero => exact absurd hloop (by simp [deleteLoop])
    | succ turns =>
      cases hloop
      refine ⟨by simp, by simp, ?_⟩
      dsimp only
      exact hnul
  · intro before after rest hfound hrest ih passed copied skipped tmp turns final hthis hpassed hnul hloop
    rw [strstr_eq hthis, hfound] at hloop
    cases turns with
    | zero => exact absurd hloop (by simp [deleteLoop])
    | succ turns =>
      cases rest with
      | nil => exact absurd hrest (pieces_ne_nil hs after)
      | cons second rest =>
        obtain ⟨tmp', hcopy, hloop⟩ := Except.bind_eq_ok hloop
        dsimp only at hcopy hloop
        have hcopied : toInt32 ((passed.length + before.length : Nat) - toInt32 skipped) =
            toInt32 (copied + before.length : Nat) := by
          rw [toInt32_sub]
          exact congrArg toInt32 (by omega)
        have hskipped : toInt32 (toInt32 skipped + s.length) = toInt32 (skipped + s.bytes.length : Nat) := by
          exact toInt32_add _ _
        have hnul' : 0 ∉ tmp'.take (toInt32 (copied + before.length : Nat)).toNat := by
          have hend : passed.length + before.length ≤ this.bytes.length := by
            rw [hthis, List.length_append, List.length_append, List.length_append]
            omega
          have hfree := strncpy_nulFree hcopy
            (Int.le_trans (Int.le_of_eq (start_add_size ..)) (Int.ofNat_le.mpr hend)) (toInt32_toInt32 _) hnul
          rwa [copied_add_size, hcopied] at hfree
        have hnext : passed.length + before.length + s.bytes.length = (passed ++ before ++ s.bytes).length := by
          rw [List.length_append, List.length_append]
        rw [hcopied, hskipped, hnext] at hloop
        obtain ⟨hfinalCopied, hfinalSkipped, hfinalNul⟩ := ih (passed ++ before ++ s.bytes) (copied + before.length)
          (skipped + s.bytes.length) tmp' turns final (by simp [hthis]) (by simp only [List.length_append]; omega)
          hnul' hloop
        refine ⟨?_, ?_, hfinalNul⟩
        · rw [hfinalCopied, List.dropLast_cons_cons, List.flatten_cons, List.length_append, Nat.add_assoc]
        · rw [hfinalSkipped]
          have hturns : skipped + s.bytes.length + ((second :: rest).length - 1) * s.bytes.length =
              skipped + ((before :: second :: rest).length - 1) * s.bytes.length := by
            simp only [List.length_cons, Nat.add_sub_cancel, Nat.succ_mul]
            omega
          rw [hturns]

theorem deleteRest_eq_ok {state : DeleteState} {result : Str} (hnul : 0 ∉ state.tmp.take state.copied.toNat)
    (hrest : this.deleteRest state = .ok result) :
    state.copied + state.skipped = this.bytes.length ∧ state.copied ≠ intMax ∧ state.copied < state.tmp.length := by
  obtain ⟨tmp, htail, hrest⟩ := Except.bind_eq_ok hrest
  obtain ⟨i, hstart, hi, hstore⟩ := strcpy_memory_eq_ok htail
  obtain ⟨done, room, htmp, hcopied, hroom, rfl⟩ := store_eq_ok hstore
  rw [htmp, hcopied, Int.toNat_natCast, List.take_left] at hnul
  have hstring : 0 ∉ done ++ this.bytes.drop i := by
    intro hmem
    rcases List.mem_append.mp hmem with hmem | hmem
    · exact hnul hmem
    · exact nulFree_drop this i hmem
  split at hrest
  · cases hrest
  · rename_i hmax
    obtain ⟨buffer, halloc, hrest⟩ := Except.bind_eq_ok hrest
    obtain ⟨buffer', hcopy, -⟩ := Except.bind_eq_ok hrest
    have hbuffer : buffer.length = done.length + 1 := by
      have halloc' : encoreAlloc (state.copied + 1) = .ok (List.replicate (done.length + 1) 0) := by
        rw [hcopied]
        exact if_pos (by omega)
      rw [halloc'] at halloc
      rw [← Except.ok.inj halloc, List.length_replicate]
    rw [← List.append_assoc done, strcpy_start hstring rfl] at hcopy
    obtain ⟨start, room', rfl, -, hroom', -⟩ := store_eq_ok hcopy
    simp only [List.length_append, List.length_drop, List.length_singleton] at hroom hroom' hbuffer
    refine ⟨by omega, hmax, ?_⟩
    rw [htmp, List.length_append]
    omega

theorem endsInMatch_of_delete {stack : Nat → UInt8} {turns : Nat} {result : Str} (hs : s.bytes ≠ [])
    (hdelete : this.delete stack turns s = .ok result) : this.EndsInMatch s := by
  obtain ⟨final, hloop, hrest⟩ := Except.bind_eq_ok hdelete
  obtain ⟨hcopied, hskipped, hnul⟩ := deleteLoop_eq_ok hs this this.bytes [] 0 0 (temporary stack this.bytes.length)
    turns final rfl rfl (by simp [toInt32]) hloop
  obtain ⟨hend, hmax, hroom⟩ := deleteRest_eq_ok hnul hrest
  obtain ⟨last, hlast⟩ : ∃ last, (pieces s.bytes this.bytes).getLast? = some last :=
    ⟨_, List.getLast?_eq_some_getLast (pieces_ne_nil hs this.bytes)⟩
  have hsum := congrArg List.length (flatten_eq hlast)
  rw [List.length_append] at hsum
  have htotal := length_flatten_pieces hs this.bytes
  rw [Nat.zero_add] at hcopied hskipped
  have hcopiedLe := toInt32_natCast_le (pieces s.bytes this.bytes).dropLast.flatten.length
  have hskippedLe := toInt32_natCast_le (((pieces s.bytes this.bytes).length - 1) * s.bytes.length)
  rw [← hcopied] at hcopiedLe
  rw [← hskipped] at hskippedLe
  have hempty : last.length = 0 := by omega
  have hcopiedEq : final.copied = (pieces s.bytes this.bytes).dropLast.flatten.length := by omega
  have hskippedEq : final.skipped = (((pieces s.bytes this.bytes).length - 1) * s.bytes.length : Nat) := by omega
  refine ⟨hs, ?_, ?_, ?_, lt_of_toInt32_eq (hskipped.symm.trans hskippedEq)⟩
  · -- without a match the temporary buffer of an empty string has no room for the zero
    refine Classical.byContradiction fun hnot => ?_
    have hnone := firstMatch_eq_none_iff.mpr hnot
    rw [pieces_of_none hnone] at hlast
    obtain rfl : this.bytes = last := Option.some.inj hlast
    have hfinal : final.tmp = temporary stack this.bytes.length := by
      rw [strstr, List.drop_zero, hnone] at hloop
      cases turns with
      | zero => exact absurd hloop (by simp [deleteLoop])
      | succ turns => rw [← Except.ok.inj hloop]
    rw [hfinal, hempty] at hroom
    rw [hempty] at hend
    have hzero : (temporary stack 0).length = 0 := rfl
    omega
  · rw [hlast, List.length_eq_zero_iff.mp hempty]
  · have hlt := lt_of_toInt32_eq (hcopied.symm.trans hcopiedEq)
    unfold intMax at hmax
    omega

theorem deleteLoop_empty (hs : s.bytes = []) (this : Str) (tmp : Buffer) :
    ∀ turns, this.deleteLoop s turns (this.strstr s 0) ⟨tmp, 0, 0⟩ = .error .running := by
  have hlength : s.length = 0 := congrArg (fun bytes : List UInt8 => (bytes.length : Int)) hs
  have hfound : this.strstr s 0 = some 0 := by
    rw [strstr, firstMatch_of_start (hs ▸ List.nil_prefix)]
    rfl
  intro turns
  induction turns with
  | zero => rfl
  | succ turns ih =>
    rw [hfound] at ih ⊢
    have hnext : this.strstr s (0 + s.bytes.length) = some 0 := by rw [hs, List.length_nil, hfound]
    rw [deleteLoop, hnext]
    dsimp only
    rw [hlength]
    exact ih

theorem flatMap_ofBytes {texts : List (List UInt8)} (hnul : ∀ piece ∈ texts, 0 ∉ piece) :
    (texts.map ofBytes).flatMap Str.bytes = texts.flatten := by
  induction texts with
  | nil => rfl
  | cons piece texts ih =>
    rw [List.map_cons, List.flatMap_cons, List.flatten_cons, bytes_ofBytes (hnul piece List.mem_cons_self),
      ih fun piece hpiece => hnul piece (List.mem_cons_of_mem _ hpiece)]

theorem deletes_iff (stack : Nat → UInt8) (this s : Str) : this.Deletes stack s ↔ this.EndsInMatch s := by
  constructor
  · rintro ⟨turns, result, hdelete, -, -⟩
    by_cases hs : s.bytes = []
    · have hloop := deleteLoop_empty hs this (temporary stack this.bytes.length) turns
      rw [delete, hloop] at hdelete
      exact absurd hdelete (by simp [bind, Except.bind])
    · exact endsInMatch_of_delete hs hdelete
  · intro h
    obtain ⟨turns, result, hdelete, hresult⟩ := h.delete_eq stack
    refine ⟨turns, result, hdelete, fun _ => ?_, fun hs => absurd hs h.pattern⟩
    have hshort : ∀ piece ∈ pieces s.bytes this.bytes, piece.length < 2147483647 := by
      intro piece hpiece
      have hle := (List.sublist_flatten_of_mem hpiece).length_le
      exact Nat.lt_of_le_of_lt hle h.copied
    rw [replace, split_of_occurs h.pattern h.occurs,
      mapM_eq_some_map fun piece hpiece => clip_eq_ofBytes (hshort piece hpiece), Option.map_some]
    refine congrArg some (Str.ext ?_)
    rw [bytes_join_of_empty rfl, hresult, flatMap_ofBytes (pieces_nulFree h.pattern this)]

/-- Deleting "X" from "aXb": the result has room for "a" and a zero, and "ab" is copied to it. -/
theorem delete_middle_overruns :
    delete (fun _ => 0) 2 ⟨[97, 88, 98], by decide⟩ ⟨[88], by decide⟩ = .error .undefined ∧
      ¬ Deletes (fun _ => 0) ⟨[97, 88, 98], by decide⟩ ⟨[88], by decide⟩ := by
  refine ⟨rfl, ?_⟩
  rintro ⟨turns, result, hdelete, -, -⟩
  have hlast := (endsInMatch_of_delete (List.cons_ne_nil _ _) hdelete).last
  have hpieces : pieces ([88] : List UInt8) [97, 88, 98] = [[97], [98]] := by
    have hsplit : ([97, 88, 98] : List UInt8) = [97] ++ [88] ++ [98] := rfl
    rw [pieces_of_some (List.cons_ne_nil _ _) hsplit rfl, pieces_of_none rfl]
  dsimp only at hlast
  rw [hpieces] at hlast
  exact absurd hlast (by decide)

end Str

end Lfmr.EncoreString
