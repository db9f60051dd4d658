import Lfmr.EncoreStringTrim
import Lfmr.Proof.StringSplit

/-!
# What trimming a string does

The second loop sees the bytes up to the index at which it begins. If they are all white space, and above all
if there are none, it goes on to the byte before the first one.
-/

namespace Lfmr.EncoreString

open List Lfmr.Collections.Strip

namespace Str

variable {this : Str} {passed text rest : List UInt8}

theorem read_of_append {c : UInt8} (hthis : this.bytes = passed ++ c :: rest) : this.read passed.length = some c := by
  rw [read, if_pos (Int.natCast_nonneg _), Int.toNat_natCast, memory, hthis, append_assoc]
  simp

theorem read_end (this : Str) : this.read this.bytes.length = some 0 := by
  rw [read, if_pos (Int.natCast_nonneg _), Int.toNat_natCast, memory]
  simp

theorem read_neg {s : Int} (hneg : s < 0) : this.read s = none := by
  rw [read, if_neg (by omega)]

/-- The index of the first byte to keep, if the index can be counted. -/
theorem startIndexLoop_eq (text : List UInt8) :
    ∀ passed {turns}, this.bytes = passed ++ text → text.length < turns → (passed.length : Int) ≤ intMax →
      this.startIndexLoop turns passed.length = if ((passed ++ text.takeWhile isspace).length : Int) ≤ intMax
        then some ((passed ++ text.takeWhile isspace).length : Int) else none := by
  induction text with
  | nil =>
    intro passed turns hthis hturns hmax
    obtain ⟨turns, rfl⟩ := Nat.exists_eq_add_one_of_ne_zero (Nat.ne_of_gt hturns)
    have hend : this.bytes.length = passed.length := by rw [hthis, append_nil]
    rw [takeWhile_nil, append_nil, if_pos hmax, startIndexLoop, ← hend, read_end]
    rfl
  | cons c text ih =>
    intro passed turns hthis hturns hmax
    obtain ⟨turns, rfl⟩ := Nat.exists_eq_add_one_of_ne_zero (Nat.ne_zero_of_lt hturns)
    have hnul : c ≠ 0 := fun h => this.nulFree (by rw [hthis, h]; simp)
    rw [startIndexLoop, read_of_append hthis]
    cases hspace : isspace c with
    | false =>
      rw [takeWhile_cons_of_neg (by simp [hspace]), append_nil, if_pos hmax]
      exact if_neg fun h => absurd (hspace.symm.trans h.2) (by decide)
    | true =>
      have hnext := ih (passed ++ [c]) (by simp [hthis])
        (Nat.lt_of_succ_lt_succ hturns)
      rw [takeWhile_cons_of_pos hspace]
      refine (if_pos ⟨hnul, hspace⟩).trans ?_
      simp only [length_append, length_cons, length_nil, Int.natCast_add, Int.natCast_one, Nat.zero_add] at hnext ⊢
      split
      · next hlimit => rw [if_neg (by omega)]
      · rename_i hlimit
        rw [hnext (by omega)]
        have hcount : (passed.length : Int) + 1 + (text.takeWhile isspace).length =
            passed.length + ((text.takeWhile isspace).length + 1) := by omega
        rw [hcount]

theorem stopIndexLoop_eq (text : List UInt8) : ∀ {rest turns}, this.bytes = text ++ rest → text.length < turns →
      this.stopIndexLoop turns (text.length - 1 : Int) =
        if text.rdropWhile isspace = [] then none else some ((text.rdropWhile isspace).length - 1 : Int) := by
  induction text using reverseRecOn with
  | nil =>
    intro rest turns _ hturns
    obtain ⟨turns, rfl⟩ := Nat.exists_eq_add_one_of_ne_zero (Nat.ne_of_gt hturns)
    rw [stopIndexLoop, read_neg (by simp)]
    rfl
  | append_singleton text c ih =>
    intro rest turns hthis hturns
    obtain ⟨turns, rfl⟩ := Nat.exists_eq_add_one_of_ne_zero (Nat.ne_zero_of_lt hturns)
    have hthis' : this.bytes = text ++ c :: rest := by simp [hthis]
    have hnul : c ≠ 0 := fun h => this.nulFree (by rw [hthis, h]; simp)
    have hindex : ((text ++ [c]).length - 1 : Int) = text.length := by simp
    rw [hindex, stopIndexLoop, read_of_append hthis']
    cases hspace : isspace c with
    | false =>
      rw [rdropWhile_concat_neg _ _ _ (by simp [hspace]), if_neg (by simp), hindex]
      exact if_neg fun h => absurd (hspace.symm.trans h.2) (by decide)
    | true =>
      rw [rdropWhile_concat_pos _ _ _ hspace]
      rw [length_append, length_singleton] at hturns
      exact (if_pos ⟨hnul, hspace⟩).trans (ih hthis' (by omega))

theorem stopIndexLoop_neg {s : Int} {turns : Nat} (hneg : s < 0) : this.stopIndexLoop turns s = none := by
  cases turns with
  | zero => rfl
  | succ turns => rw [stopIndexLoop, read_neg hneg]; rfl

def kept (this : Str) : List UInt8 :=
  (this.bytes.take (toInt32 (this.length - 1) + 1).toNat).rdropWhile isspace

theorem toInt32_length_le (this : Str) : toInt32 (this.length - 1) + 1 ≤ this.bytes.length := by
  unfold length
  cases hlength : this.bytes.length with
  | zero => decide
  | succ n =>
    have hle := toInt32_natCast_le n
    have hcast : ((n + 1 : Nat) : Int) - 1 = n := by omega
    rw [hcast]
    omega

theorem toInt32_lt (value : Int) : toInt32 value ≤ intMax := by
  have hlt := Int.bmod_lt (x := value) (m := 4294967296) (by decide)
  unfold toInt32 intMax
  omega

theorem stopIndex_eq (this : Str) : this.stopIndexLoop (this.bytes.length + 1) (toInt32 (this.length - 1)) =
      if this.kept = [] then none else some (this.kept.length - 1 : Int) := by
  have hle := this.toInt32_length_le
  by_cases hneg : toInt32 (this.length - 1) < 0
  · have hnone : (toInt32 (this.length - 1) + 1).toNat = 0 := by omega
    rw [stopIndexLoop_neg hneg, if_pos (by rw [kept, hnone]; rfl)]
  · have htake : (this.bytes.take (toInt32 (this.length - 1) + 1).toNat).length =
        (toInt32 (this.length - 1) + 1).toNat := length_take_of_le (by omega)
    have hindex : toInt32 (this.length - 1) =
        ((this.bytes.take (toInt32 (this.length - 1) + 1).toNat).length - 1 : Int) := by omega
    rw [kept]
    conv_lhs => rw [hindex]
    exact stopIndexLoop_eq _ (take_append_drop _ _).symm (by omega)

theorem kept_isPrefix (this : Str) : this.kept <+: this.bytes :=
  ( rdropWhile_prefix _ _).trans ( take_prefix _ _)

theorem length_kept_le (this : Str) : this.kept.length ≤ (toInt32 (this.length - 1) + 1).toNat :=
  Nat.le_trans ( rdropWhile_prefix _ _).length_le (length_take_le _ _)

theorem visible_of_kept (hkept : this.kept ≠ []) : ∃ c ∈ this.kept, ¬ isspace c :=
  ⟨_, getLast_mem hkept, rdropWhile_last_not _ _ hkept⟩

theorem trim_eq (this : Str) : this.trim = if this.kept = [] then none else clip (this.kept.dropWhile isspace) := by
  rw [trim, stopIndex_eq]
  split
  · cases this.startIndexLoop (this.bytes.length + 1) 0 <;> rfl
  · rename_i hkept
    have hlead := takeWhile_eq_of_visible this.kept_isPrefix (visible_of_kept hkept)
    have hsplit : this.kept.takeWhile isspace ++ this.kept.dropWhile isspace = this.kept :=
      takeWhile_append_dropWhile
    have hle : (this.kept.takeWhile isspace).length < this.kept.length := by
      obtain ⟨c, hmem, hnot⟩ := visible_of_kept hkept
      refine Nat.lt_of_le_of_ne ( takeWhile_prefix _).length_le fun hlength => hnot ?_
      have heq := ( takeWhile_prefix (p := isspace)).eq_of_length hlength
      exact mem_takeWhile_imp (heq.symm ▸ hmem)
    have hstart : this.startIndexLoop (this.bytes.length + 1) 0 =
        some ((this.kept.takeWhile isspace).length : Int) := by
      have hmax := toInt32_lt (this.length - 1)
      have hlength := this.length_kept_le
      refine (startIndexLoop_eq this.bytes [] rfl (Nat.lt_succ_self _) (by decide)).trans ?_
      rw [nil_append, hlead, if_pos (by omega)]
    obtain ⟨rest, hrest⟩ := this.kept_isPrefix
    have hthis : this.bytes = this.kept.takeWhile isspace ++ (this.kept.dropWhile isspace ++ rest) := by
      rw [← append_assoc, hsplit, hrest]
    have hsubstring := substring_eq hthis
    rw [hsplit] at hsubstring
    have hstop : ((this.kept.length - 1 : Int)) + 1 = this.kept.length := by omega
    rw [hstart]
    refine Eq.trans (b := (this.substring (this.kept.takeWhile isspace).length
      ((this.kept.length - 1 : Int) + 1)).bind id) rfl ?_
    rw [hstop, hsubstring]
    cases clip (this.kept.dropWhile isspace) <;> rfl

theorem kept_eq (hlast : (this.bytes.rdropWhile isspace).length ≤ toInt32 (this.length - 1) + 1) :
    this.kept = this.bytes.rdropWhile isspace :=
  rdropWhile_take _ (by omega)

theorem strip_nulFree (this : Str) : 0 ∉ strip isspace this.bytes := by
  intro hmem
  rw [← dropWhile_rdropWhile] at hmem
  exact this.nulFree (( rdropWhile_prefix _ _).subset ((dropWhile_suffix _).subset hmem))

theorem trim_of_trimmable (htrimmable : Trimmable this) : this.trim = some (ofBytes (strip isspace this.bytes)) := by
  obtain ⟨c, hmem, hnot⟩ := htrimmable.visible
  have hkept := kept_eq htrimmable.last
  have hne : this.kept ≠ [] := by
    rw [hkept]
    exact fun hnil => hnot (rdropWhile_eq_nil_iff.mp hnil c hmem)
  rw [trim_eq, if_neg hne, hkept, dropWhile_rdropWhile, clip_eq_ofBytes htrimmable.short]

theorem trimmable_strip (htrimmable : Trimmable this) : Trimmable (ofBytes (strip isspace this.bytes)) := by
  have hbytes := bytes_ofBytes this.strip_nulFree
  have hshort := htrimmable.short
  have hne : strip isspace this.bytes ≠ [] := by
    obtain ⟨c, hmem, hnot⟩ := htrimmable.visible
    exact fun hnil => hnot (strip_eq_nil_iff.mp hnil c hmem)
  refine ⟨?_, ?_, ?_⟩
  · rw [hbytes]
    exact ⟨_, getLast_mem hne, rdropWhile_last_not _ _ hne⟩
  · have hpos := length_pos_iff.mpr hne
    have hle : (rdropWhile isspace (strip isspace this.bytes)).length ≤ (strip isspace this.bytes).length :=
      ( rdropWhile_prefix _ _).length_le
    rw [length, hbytes, toInt32, Int.bmod_eq_of_le (by omega) (by omega)]
    omega
  · rwa [hbytes, strip_strip]

theorem trimmable_of_trims {result : Str} (htrims : Trims this result) : Trimmable this := by
  have htrim := htrims.trim
  rw [trim_eq] at htrim
  split at htrim
  · cases htrim
  · rename_i hkept
    have hnul : 0 ∉ this.kept.dropWhile isspace := fun hmem =>
      this.nulFree (this.kept_isPrefix.subset ((dropWhile_suffix _).subset hmem))
    obtain ⟨hle, hshort⟩ := length_of_clip hnul htrim
    -- both ends are dropped from the bytes that were seen, and what is in front is the same
    have hlead := takeWhile_eq_of_visible this.kept_isPrefix (visible_of_kept hkept)
    have hfull : (this.bytes.rdropWhile isspace).length =
        (this.kept.takeWhile isspace).length + (strip isspace this.bytes).length := by
      have hlonger := length_rdropWhile_take_le isspace this.bytes (toInt32 (this.length - 1) + 1).toNat
      have hvisible : ∃ c ∈ this.bytes.rdropWhile isspace, ¬ isspace c := by
        have hne : this.bytes.rdropWhile isspace ≠ [] := fun hnil =>
          hkept (length_eq_zero_iff.mp (Nat.le_zero.mp (by rwa [hnil] at hlonger)))
        exact ⟨_, getLast_mem hne, rdropWhile_last_not _ _ hne⟩
      rw [← hlead, takeWhile_eq_of_visible ( rdropWhile_prefix isspace this.bytes) hvisible,
        ← dropWhile_rdropWhile, ← length_append, takeWhile_append_dropWhile]
    have hkeptLength : this.kept.length =
        (this.kept.takeWhile isspace).length + (this.kept.dropWhile isspace).length := by
      rw [← length_append, takeWhile_append_dropWhile]
    have hlonger : this.kept.length ≤ (this.bytes.rdropWhile isspace).length := length_rdropWhile_take_le _ _ _
    have hseen := this.length_kept_le
    have hpos := length_pos_iff.mpr hkept
    rw [htrims.bytes] at hle hshort
    obtain ⟨c, hmem, hnot⟩ := visible_of_kept hkept
    refine ⟨⟨c, this.kept_isPrefix.subset hmem, hnot⟩, by omega, ?_⟩
    have heq : (strip isspace this.bytes).length = (this.kept.dropWhile isspace).length := by omega
    rw [heq]
    exact hshort heq

/-- Trimming stays within the bytes of the string and does what it should exactly if something is to be kept
and the numbers of bytes fit an `int`. -/
theorem trims_iff (this : Str) : (∃ result, Trims this result) ↔ Trimmable this := by
  constructor
  · rintro ⟨result, htrims⟩
    exact trimmable_of_trims htrims
  · intro htrimmable
    have hbytes := bytes_ofBytes this.strip_nulFree
    have hagain := trim_of_trimmable (trimmable_strip htrimmable)
    rw [hbytes, strip_strip] at hagain
    exact ⟨_, trim_of_trimmable htrimmable, hbytes, hagain⟩

/-- The second loop reads the byte before the empty string, and before one that is all white space. -/
theorem trim_blank_underruns :
    Str.empty.read (-1) = none ∧ Str.empty.stopIndexLoop 1 (toInt32 (Str.empty.length - 1)) = none ∧
      Str.empty.trim = none ∧ (ofBytes [32, 9]).trim = none ∧
      (¬ ∃ result, Trims Str.empty result) ∧ ¬ ∃ result, Trims (ofBytes [32, 9]) result := by
  have hempty : Str.empty.trim = none := by decide
  have hblank : (ofBytes [32, 9]).trim = none := by decide
  refine ⟨by decide, by decide, hempty, hblank, ?_, ?_⟩
  · rintro ⟨result, htrims⟩
    exact absurd (hempty.symm.trans htrims.trim) (by simp)
  · rintro ⟨result, htrims⟩
    exact absurd (hblank.symm.trans htrims.trim) (by simp)

end Str

end Lfmr.EncoreString
