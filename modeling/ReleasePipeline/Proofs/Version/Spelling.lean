import ReleasePipeline.Proofs.Version.Tag

/-! How the text of a version differs from a text that it was read from: in the script of the digits
and in the blanks at the ends. -/
namespace ReleasePipeline

namespace Text

/-- A digit of any script in ASCII. Other characters stay. -/
def asciiDigit (c : Char) : Char := ((digitValue? c).map Nat.digitChar).getD c

variable {c : Char} {n k : ℕ} {ds : List Char}

theorem asciiDigit_of_value (h : digitValue? c = some k) : asciiDigit c = k.digitChar := by
  rw [asciiDigit, h]
  rfl

/-- The other scripts have their digits behind the ASCII ones. -/
theorem digitValue?_eq_none (hc : c.isDigit ≠ true) (h : c.toNat < 0x660) :
    digitValue? c = none := by
  have hzeros : ∀ z ∈ digitZeros, z = 0x30 ∨ 0x660 ≤ z := by decide
  rw [digitValue?, Option.map_eq_none_iff, List.find?_eq_none]
  intro z hz hrange
  simp only [Bool.and_eq_true, decide_eq_true_eq] at hrange
  rcases hzeros z hz with rfl | hz
  · have hle : c.toNat ≤ 57 := by omega
    exact hc (Char.isDigit_iff_toNat.mpr ⟨hrange.1, hle⟩)
  · omega

theorem asciiDigit_of_lt (h : c.toNat < 0x660) : asciiDigit c = c := by
  by_cases hc : c.isDigit = true
  · have hrange : 48 ≤ c.toNat ∧ c.toNat ≤ 57 := Char.isDigit_iff_toNat.mp hc
    rw [asciiDigit_of_value (Decimal.digitValue?_of_isDigit hc)]
    apply Char.toNat_inj.mp
    rw [Nat.toNat_digitChar_of_lt_ten (by omega)]
    omega
  · rw [asciiDigit, digitValue?_eq_none hc h]
    rfl

/-- The digits that are read behind a number are written behind it. -/
theorem toDigits_foldl (hn : 0 < n) (hds : ∀ d ∈ ds, isDigit d = true) :
    Nat.toDigits 10 (ds.foldl (fun n c => 10 * n + (digitValue? c).getD 0) n) =
      Nat.toDigits 10 n ++ ds.map asciiDigit := by
  induction ds generalizing n with
  | nil => simp
  | cons d ds ih =>
    obtain ⟨k, hk⟩ := Option.isSome_iff_exists.mp (hds d List.mem_cons_self)
    have hlt := Decimal.digitValue?_lt hk
    have happend := Nat.toDigits_append_toDigits (b := 10) (n := n) (d := k) (by decide) hn hlt
    rw [Nat.toDigits_of_lt_base hlt] at happend
    have hrest := ih (n := 10 * n + k) (by omega) fun e he => hds e (List.mem_cons_of_mem _ he)
    rw [List.foldl_cons, hk, Option.getD_some, hrest, ← happend, List.append_assoc,
      List.singleton_append, List.map_cons, asciiDigit_of_value hk]

end Text

namespace Version

open Text

variable {v : Version} {cs ds rest : List Char} {s : String}

/-- The number that is read is written in the same digits, in ASCII. -/
theorem Numeral.digits_eq (h : Numeral ds) : digits (digitsValue ds) = ds.map asciiDigit := by
  cases h with
  | zero => decide
  | @leading d ds hd hds =>
    have hrange : 49 ≤ d.toNat ∧ d.toNat ≤ 57 := by
      simpa [isLeadingDigit, Char.le_def, UInt32.le_iff_toNat_le] using hd
    have hvalue : digitValue? d = some (d.toNat - 48) := by
      have hle : 48 ≤ d.toNat := by omega
      exact Decimal.digitValue?_of_isDigit (Char.isDigit_iff_toNat.mpr ⟨hle, hrange.2⟩)
    rw [digits, digitsValue, List.foldl_cons, hvalue, Nat.mul_zero, Nat.zero_add, Option.getD_some,
      toDigits_foldl (by omega) hds, Nat.toDigits_of_lt_base (Decimal.digitValue?_lt hvalue), List.map_cons,
      asciiDigit_of_value hvalue, List.singleton_append]

theorem lt_of_isChannelChar {d : Char} (h : isChannelChar d = true ∨ d = '.') : d.toNat < 128 := by
  have hrange := toNat_of_isChannelChar h
  omega

theorem map_asciiDigit (h : ∀ c ∈ cs, c.toNat < 128) : cs.map asciiDigit = cs := by
  have hsame : ∀ c ∈ cs, asciiDigit c = id c := fun c hc =>
    asciiDigit_of_lt ((h c hc).trans (by decide))
  rw [List.map_congr_left hsame, List.map_id]

theorem Numeral.digits_of_readNatural {n : ℕ} (h : Numeral ds)
    (hread : Decimal.readNatural ds = .ok n) : digits n = ds.map asciiDigit := by
  rw [Decimal.readNatural] at hread
  split at hread
  · cases hread
  · cases hread
    exact h.digits_eq

/-- The parts are written as they were read, with digits in ASCII. -/
theorem text_of_ofParts {p : Parts} (hp : p.WellFormed) (h : ofParts p = .ok v) :
    v.text.toList = p.chars.map asciiDigit := by
  simp only [ofParts, bind_eq_ok, option_mapM_eq_ok] at h
  obtain ⟨suffix, hsuffix, a, ha, b, hb, c, hc, h⟩ := h
  cases h
  have hmajor := hp.major.digits_of_readNatural ha
  have hminor := hp.minor.digits_of_readNatural hb
  have hpatch := hp.patch.digits_of_readNatural hc
  have hpoint : asciiDigit '.' = '.' := asciiDigit_of_lt (by decide)
  have hhyphen : asciiDigit '-' = '-' := asciiDigit_of_lt (by decide)
  obtain ⟨hnone, rfl⟩ | ⟨⟨channel, counter⟩, _, hsome, rfl, k, hk, hpair⟩ := hsuffix
  · change (text ⟨a, b, c, none, none⟩).toList = _
    rw [text_stable, hmajor, hminor, hpatch, Parts.chars, hnone]
    simp [hpoint]
  · cases hpair
    obtain ⟨hname, hcounter⟩ := hp.suffix channel counter hsome
    have hchannel : channel.map asciiDigit = channel := by
      refine map_asciiDigit fun d hd => lt_of_isChannelChar (Or.inl (hname.2 d ?_))
      rwa [String.toList_ofList]
    change (text ⟨a, b, c, some (String.ofList channel), some k⟩).toList = _
    rw [text_prerelease, hmajor, hminor, hpatch, hcounter.digits_of_readNatural hk, Parts.chars, hsome]
    simp [hpoint, hhyphen, hchannel]

/-- A version is written as it was read, with digits in ASCII and without the blanks at the ends. -/
theorem text_of_read (h : read s = .ok (some v)) :
    v.text.toList = (stripChars s.toList).map asciiDigit := by
  obtain ⟨-, hv⟩ | ⟨p, v', hp, hv, h⟩ := option_mapM_eq_ok.mp h
  · cases hv
  · cases hv
    obtain ⟨hchars, hwell⟩ := of_parts? hp
    rw [hchars]
    exact text_of_ofParts hwell h

/-- The text is in ASCII, and without blanks. -/
def Plain (cs : List Char) : Prop := ∀ c ∈ cs, c.toNat < 128 ∧ isBlank c = false

instance (cs : List Char) : Decidable (Plain cs) :=
  decidable_of_iff (cs.all (fun c => c.toNat < 128 && !isBlank c) = true) (by simp [Plain])

theorem plain_text (h : v.Legible) : Plain v.text.toList := fun _ hc =>
  ⟨lt_of_isChannelChar (mem_text h hc), isBlank_of_isChannelChar (mem_text h hc)⟩

/-- A plain text is the one in which the version that it names is written. -/
theorem text_eq_iff_plain (h : read s = .ok (some v)) : v.text = s ↔ Plain s.toList := by
  constructor
  · rintro rfl
    exact plain_text (legible_of_read h)
  · intro hplain
    apply String.toList_injective
    rw [text_of_read h, stripChars_eq_self fun c hc => (hplain c hc).2]
    exact map_asciiDigit fun c hc => (hplain c hc).1

end Version

namespace Tag

variable {format name tag : String} {v : Version}

/-- The tag is the name with the digits of its version in ASCII and without the blanks around it. -/
def Respells (format name tag : String) : Prop :=
  ∃ before inner after : List Char, format.toList = before ++ versionMark.toList ++ after ∧
    name.toList = before ++ inner ++ after ∧
    tag.toList = before ++ (Text.stripChars inner).map Text.asciiDigit ++ after

/-- The part of the name that stands for its version is plain. -/
def PlainName (format name : String) : Prop :=
  ∃ inner, inner? format name = some inner ∧ Version.Plain inner.toList

/-- The tag of a version respells every name that is read as the version. -/
theorem respells_of_version? (hone : OneMark format) (hread : version? format name = .ok (some v))
    (h : ofVersion format v = .ok tag) : Respells format name tag := by
  obtain ⟨inner, hinner, hread⟩ := exists_inner?_of_version? hread
  obtain ⟨-, before, after, hcut, hformat, htag⟩ := toList_of_ofVersion hone h
  refine ⟨before, inner.toList, after, hformat, ?_, ?_⟩
  · rw [toList_of_inner? hcut hinner, List.append_assoc]
  · rw [htag, Version.text_of_read hread]

theorem eq_iff_plainName (hone : OneMark format) (hread : version? format name = .ok (some v))
    (h : ofVersion format v = .ok tag) : tag = name ↔ PlainName format name := by
  obtain ⟨inner, hinner, hread⟩ := exists_inner?_of_version? hread
  obtain ⟨-, before, after, hcut, -, htag⟩ := toList_of_ofVersion hone h
  have hname := toList_of_inner? hcut hinner
  have hsame : tag = name ↔ v.text = inner := by
    rw [← String.toList_inj, htag, hname, List.append_assoc, List.append_right_inj,
      List.append_left_inj, String.toList_inj]
  simp only [PlainName, hinner, Option.some.injEq, exists_eq_left']
  exact hsame.trans (Version.text_eq_iff_plain hread)

end Tag

end ReleasePipeline
