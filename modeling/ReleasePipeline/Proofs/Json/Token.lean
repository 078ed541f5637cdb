import Mathlib.Data.List.TakeWhile
import ReleasePipeline.Json.Reader
import ReleasePipeline.Json.Writer
import ReleasePipeline.Proofs.Decimal.Numeral
import ReleasePipeline.Proofs.Except

/-! Strings and numbers of JSON texts: the reader undoes the writer. -/
namespace ReleasePipeline.Json

section Strings

/-- The hexadecimal digits of a control character name it. -/
theorem hex4?_hexPadded {n : ℕ} (h : n < 0x20) : hex4? (Text.hexPadded 4 n) = some n := by
  have hall : ∀ n < 0x20, hex4? (Text.hexPadded 4 n) = some n := by decide
  exact hall n h

theorem length_hexPadded {n : ℕ} (h : n < 0x20) : (Text.hexPadded 4 n).length = 4 := by
  have hall : ∀ n < 0x20, (Text.hexPadded 4 n).length = 4 := by decide
  exact hall n h

theorem charOf_toNat (c : Char) (rest : List Char) : charOf c.toNat rest = .ok (c, rest) := by
  have hvalid : c.toNat.isValidChar := c.valid
  rw [charOf, if_pos hvalid, Char.ofNat_toNat]

theorem readUnicodeEscape_hexPadded {c : Char} {rest : List Char} (h : c.toNat < 0x20)
    (hrest : rest ≠ []) :
    readUnicodeEscape (Text.hexPadded 4 c.toNat ++ rest) = .ok (c, rest) := by
  have hlength := length_hexPadded h
  have hlong : ¬ (Text.hexPadded 4 c.toNat ++ rest).length ≤ 4 := by
    have hpos := List.length_pos_of_ne_nil hrest
    rw [List.length_append]
    omega
  have htake : (Text.hexPadded 4 c.toNat ++ rest).take 4 = Text.hexPadded 4 c.toNat := by
    exact List.take_left' hlength
  have hdrop : (Text.hexPadded 4 c.toNat ++ rest).drop 4 = rest := by
    exact List.drop_left' hlength
  have hlow : ¬ 0xd800 ≤ c.toNat := by omega
  rw [readUnicodeEscape, if_neg hlong, htake, hex4?_hexPadded h, hdrop]
  simp only [charOf_toNat]
  split
  · simp [hlow]
  · rfl

variable {start rest after xs : List Char} {fuel : ℕ} {c e : Char}

theorem readString_escape (h : simpleEscape? e = some c)
    (hrest : readString start fuel rest = .ok (xs, after)) :
    readString start (fuel + 1) ('\\' :: e :: rest) = .ok (c :: xs, after) := by
  have hu : e ≠ 'u' := by
    rintro rfl
    simp [simpleEscape?] at h
  rw [readString]
  · simp only [Char.reduceEq, if_false, if_true, h, hrest]
    rfl
  · exact hu

theorem readString_unicode {digits : List Char} (h : readUnicodeEscape digits = .ok (c, rest))
    (hrest : readString start fuel rest = .ok (xs, after)) :
    readString start (fuel + 1) ('\\' :: 'u' :: digits) = .ok (c :: xs, after) := by
  rw [readString, h]
  simp only [Char.reduceEq, if_false, if_true, bind_eq_ok]
  exact ⟨_, rfl, _, hrest, rfl⟩

theorem readString_plain (hquote : c ≠ '"') (hback : c ≠ '\\') (hcontrol : ¬ c.toNat < 0x20)
    (hrest : readString start fuel rest = .ok (xs, after)) :
    readString start (fuel + 1) (c :: rest) = .ok (c :: xs, after) := by
  rw [readString.eq_def]
  simp only [if_neg hquote, if_neg hback, if_neg hcontrol, hrest]
  rfl

/-- The text of a character is read as the character. -/
theorem readString_stringChar (hne : rest ≠ [])
    (hrest : readString start fuel rest = .ok (xs, after)) :
    readString start (fuel + 1) (stringChar c ++ rest) = .ok (c :: xs, after) := by
  have hescape {e : Char} (h : simpleEscape? e = some c) :
      readString start (fuel + 1) (['\\', e] ++ rest) = .ok (c :: xs, after) :=
    readString_escape h hrest
  rw [stringChar]
  split_ifs with hquote hback hb hf hn hr ht hcontrol
  · exact hescape (by rw [hquote]; rfl)
  · exact hescape (by rw [hback]; rfl)
  · exact hescape (by rw [hb]; rfl)
  · exact hescape (by rw [hf]; rfl)
  · exact hescape (by rw [hn]; rfl)
  · exact hescape (by rw [hr]; rfl)
  · exact hescape (by rw [ht]; rfl)
  · exact readString_unicode (readUnicodeEscape_hexPadded hcontrol hne) hrest
  · exact readString_plain hquote hback hcontrol hrest

theorem stringChar_ne_nil (c : Char) : stringChar c ≠ [] := by
  rw [stringChar]
  split_ifs <;> exact List.cons_ne_nil _ _

/-- The text of a string is read up to its closing quote. -/
theorem readString_flatMap (start cs rest : List Char)
    (hfuel : (cs.flatMap stringChar ++ '"' :: rest).length ≤ fuel) :
    readString start fuel (cs.flatMap stringChar ++ '"' :: rest) = .ok (cs, rest) := by
  induction cs generalizing fuel with
  | nil =>
    obtain ⟨fuel, rfl⟩ := Nat.exists_eq_succ_of_ne_zero (Nat.ne_zero_of_lt hfuel)
    rw [List.flatMap_nil, List.nil_append, readString.eq_def]
    rfl
  | cons c cs ih =>
    have hc := List.length_pos_of_ne_nil (stringChar_ne_nil c)
    rw [List.flatMap_cons, List.append_assoc] at hfuel ⊢
    rw [List.length_append] at hfuel
    obtain ⟨fuel, rfl⟩ := Nat.exists_eq_succ_of_ne_zero (by omega : fuel ≠ 0)
    have hne : cs.flatMap stringChar ++ '"' :: rest ≠ [] := by simp
    exact readString_stringChar hne (ih (by omega))

/-- The text of a string, with the reading of it. -/
theorem readString_stringChars (s : String) (rest : List Char) :
    ∃ more, stringChars s ++ rest = '"' :: more ∧
      readString ('"' :: more) (more.length + 1) more = .ok (s.toList, rest) := by
  refine ⟨s.toList.flatMap stringChar ++ '"' :: rest, by simp [stringChars], ?_⟩
  exact readString_flatMap _ _ _ (by omega)

theorem return_not_mem_stringChars (s : String) : '\r' ∉ stringChars s := by
  have hchar : ∀ c, '\r' ∉ stringChar c := by
    intro c
    rw [stringChar]
    split_ifs with hquote hback hb hf hn hr ht hcontrol
    all_goals first | decide | skip
    · have hall : ∀ n < 0x20, '\r' ∉ '\\' :: 'u' :: Text.hexPadded 4 n := by decide
      exact hall _ hcontrol
    · simpa using Ne.symm hr
  intro h
  simp only [stringChars, List.mem_cons, List.mem_append, List.mem_flatMap, List.not_mem_nil,
    or_false, Char.reduceEq, false_or] at h
  obtain ⟨c, -, hc⟩ := h
  exact hchar c hc

end Strings

section Numbers

variable {rest : List Char} {n : ℕ}

/-- What may stand behind a value: it does not go on with a number. -/
def Closes (rest : List Char) : Prop := ∀ c ∈ rest.head?, c = ',' ∨ c = '\n'

theorem takeFraction_of_closes (h : Closes rest) : takeFraction rest = ([], rest) := by
  cases rest with
  | nil => rfl
  | cons c rest =>
    have hc : c ≠ '.' := by
      rintro rfl
      exact absurd (h '.' rfl) (by decide)
    rw [takeFraction]
    intro rest' heq
    exact hc (List.cons.inj heq).1

theorem takeExponent_of_closes (h : Closes rest) : takeExponent rest = (none, rest) := by
  cases rest with
  | nil => rfl
  | cons c rest =>
    have hc : (c = 'e' || c = 'E') = false := by
      obtain rfl | rfl := h c rfl <;> rfl
    rw [takeExponent.eq_def]
    simp [hc]

/-- The digits in front of what closes them. -/
theorem span_digits {ds : List Char} (hds : ∀ d ∈ ds, d.isDigit = true) (h : Closes rest) :
    (ds ++ rest).takeWhile Char.isDigit = ds ∧ (ds ++ rest).dropWhile Char.isDigit = rest := by
  have hrest : rest.takeWhile Char.isDigit = [] ∧ rest.dropWhile Char.isDigit = rest := by
    cases rest with
    | nil => exact ⟨rfl, rfl⟩
    | cons c rest => obtain rfl | rfl := h c rfl <;> exact ⟨rfl, rfl⟩
  rw [List.takeWhile_append_of_pos hds, List.dropWhile_append_of_pos hds, hrest.1, hrest.2]
  exact ⟨List.append_nil ds, rfl⟩

theorem isDigit_of_mem_toDigits {d : Char} (h : d ∈ Nat.toDigits 10 n) : d.isDigit = true :=
  Nat.isDigit_of_mem_toDigits (by decide) (by decide) h

theorem takeWhole?_toDigits (h : Closes rest) :
    takeWhole? (Nat.toDigits 10 n ++ rest) = some (Nat.toDigits 10 n, rest) := by
  have hdigits : ∀ d ∈ Nat.toDigits 10 n, d.isDigit = true := fun d => isDigit_of_mem_toDigits
  rcases Nat.eq_zero_or_pos n with rfl | hpos
  · rfl
  · obtain ⟨d, ds, hd, hl⟩ := Decimal.toDigits_head hpos
    have hzero : d ≠ '0' := by
      rintro rfl
      cases hl
    rw [hd] at hdigits ⊢
    have hall := span_digits hdigits h
    have hrest := span_digits (fun e he => hdigits e (List.mem_cons_of_mem d he)) h
    rw [List.cons_append, takeWhole?]
    · have hleading : (decide ('1' ≤ d) && decide (d ≤ '9')) = true := hl
      rw [if_pos hleading, hrest.2]
      rw [List.cons_append] at hall
      rw [hall.1]
    · exact hzero

/-- The sign does not belong to the digits of a number. -/
theorem takeSign_toDigits : takeSign (Nat.toDigits 10 n ++ rest) =
    (false, Nat.toDigits 10 n ++ rest) := by
  cases hdigits : Nat.toDigits 10 n with
  | nil => exact absurd hdigits Nat.toDigits_ne_nil
  | cons d ds =>
    have hd : d.isDigit = true := isDigit_of_mem_toDigits (hdigits ▸ List.mem_cons_self)
    rw [List.cons_append, takeSign]
    intro more heq
    obtain ⟨rfl, -⟩ := List.cons.inj heq
    cases hd

theorem readNumber_of_digits {start : List Char} {negative : Bool}
    (hsign : takeSign start = (negative, Nat.toDigits 10 n ++ rest))
    (hn : Decimal.isWritable n = true) (h : Closes rest) :
    readNumber start = .ok (.int (if negative then -(n : ℤ) else n), rest) := by
  have hread := Decimal.readNatural_toDigits hn
  rw [readNumber, hsign]
  simp only [takeWhole?_toDigits h, takeFraction_of_closes h, takeExponent_of_closes h, hread]
  rfl

theorem toList_ofNat (n : ℕ) : (toString (Int.ofNat n)).toList = Nat.toDigits 10 n :=
  String.toList_ofList

theorem toList_negSucc (n : ℕ) :
    (toString (Int.negSucc n)).toList = '-' :: Nat.toDigits 10 (n + 1) := by
  have htext : toString (Int.negSucc n) = "-" ++ String.ofList (Nat.toDigits 10 (n + 1)) := rfl
  simp [htext]

/-- The text of a whole number begins with a digit, or with a minus and a digit. -/
theorem exists_digit_toString (z : ℤ) : ∃ d ds, d.isDigit = true ∧
    ((toString z).toList = d :: ds ∨ (toString z).toList = '-' :: d :: ds) := by
  have hfirst (n : ℕ) : ∃ d ds, d.isDigit = true ∧ Nat.toDigits 10 n = d :: ds := by
    obtain ⟨d, ds, hd⟩ := List.exists_cons_of_ne_nil (Nat.toDigits_ne_nil : Nat.toDigits 10 n ≠ [])
    exact ⟨d, ds, isDigit_of_mem_toDigits (hd ▸ List.mem_cons_self), hd⟩
  cases z with
  | ofNat n =>
    obtain ⟨d, ds, hdigit, hd⟩ := hfirst n
    exact ⟨d, ds, hdigit, .inl ((toList_ofNat n).trans hd)⟩
  | negSucc n =>
    obtain ⟨d, ds, hdigit, hd⟩ := hfirst (n + 1)
    exact ⟨d, ds, hdigit, .inr ((toList_negSucc n).trans (hd ▸ rfl))⟩

theorem return_not_mem_toString (z : ℤ) : '\r' ∉ (toString z).toList := by
  have hdigits (n : ℕ) : '\r' ∉ Nat.toDigits 10 n := fun h =>
    absurd (isDigit_of_mem_toDigits h) (by decide)
  cases z with
  | ofNat n =>
    rw [toList_ofNat]
    exact hdigits n
  | negSucc n =>
    rw [toList_negSucc]
    exact List.not_mem_cons_of_ne_of_not_mem (by decide) (hdigits (n + 1))

/-- The text of a whole number is read as the number. -/
theorem readNumber_toString {z : ℤ} (hz : Decimal.isWritable z = true) (h : Closes rest) :
    readNumber ((toString z).toList ++ rest) = .ok (.int z, rest) := by
  cases z with
  | ofNat n =>
    rw [toList_ofNat]
    exact readNumber_of_digits takeSign_toDigits hz h
  | negSucc n =>
    have hsign (cs : List Char) : takeSign ('-' :: cs) = (true, cs) := rfl
    rw [toList_negSucc, List.cons_append]
    exact readNumber_of_digits (hsign _) hz h

end Numbers

end ReleasePipeline.Json
