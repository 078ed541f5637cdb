import Mathlib.Data.List.TakeWhile
import ReleasePipeline.Proofs.Decimal.Numeral
import ReleasePipeline.Proofs.Except
import ReleasePipeline.Proofs.Text.Line
import ReleasePipeline.Version.Basic

/-! Versions are read back from their texts, and what is read has a text of its own. -/
namespace ReleasePipeline.Version

open Decimal

theorem written_eq_ok_iff {v : Version} {s : String} :
    v.written = .ok s ↔ v.isWritable = true ∧ s = v.text := by
  rw [written]
  cases v.isWritable <;> simp [eq_comm]

theorem written_eq_error_iff {v : Version} {e : NumeralError} :
    v.written = .error e ↔ v.isWritable = false ∧ e = .writing := by
  rw [written]
  cases v.isWritable <;> simp [eq_comm]

/-- A name for a channel that can stand in the text of a version. -/
def IsChannelName (name : String) : Prop :=
  name ≠ "" ∧ ∀ c ∈ name.toList, isChannelChar c = true

instance (name : String) : Decidable (IsChannelName name) :=
  decidable_of_iff (name ≠ "" ∧ name.toList.all isChannelChar = true)
    (and_congr_right' List.all_eq_true)

/-- The versions that texts name. -/
inductive Legible : Version → Prop
  | stable (major minor patch : ℕ) : Legible ⟨major, minor, patch, none, none⟩
  | prerelease (major minor patch : ℕ) (name : String) (counter : ℕ) (h : IsChannelName name) :
    Legible ⟨major, minor, patch, some name, some counter⟩

variable {v : Version} {a b c k n : ℕ} {name : String} {cs ds rest : List Char}

/-- The digits of a number. -/
abbrev digits (n : ℕ) : List Char := Nat.toDigits 10 n

theorem isDigit_of_mem_digits {d : Char} (h : d ∈ digits n) : d.isDigit = true :=
  Nat.isDigit_of_mem_toDigits (by decide) (by decide) h

theorem takeNumber?_digits (h : ∀ d ∈ rest.head?, Text.isDigit d = false) :
    takeNumber? (digits n ++ rest) = some (digits n, rest) := by
  rcases Nat.eq_zero_or_pos n with rfl | hn
  · rfl
  · obtain ⟨d, ds, hd, hl⟩ := toDigits_head hn
    have hds : ∀ e ∈ ds, Text.isDigit e = true := by
      intro e he
      apply isDigit_of_isDigit
      exact isDigit_of_mem_digits (n := n) (by rw [digits, hd]; exact List.mem_cons_of_mem _ he)
    have hzero : d ≠ '0' := by
      rintro rfl
      simp [Text.isLeadingDigit] at hl
    have htake : rest.takeWhile Text.isDigit = [] := by
      cases rest with
      | nil => rfl
      | cons e rest => simp [h e (by simp)]
    have hdrop : rest.dropWhile Text.isDigit = rest := by
      cases rest with
      | nil => rfl
      | cons e rest => simp [h e (by simp)]
    rw [digits, hd, List.cons_append, takeNumber?, if_neg hzero, if_pos hl,
      List.takeWhile_append_of_pos hds, List.dropWhile_append_of_pos hds, htake, hdrop,
      List.append_nil]

theorem text_stable : (text ⟨a, b, c, none, none⟩).toList =
    digits a ++ '.' :: (digits b ++ '.' :: digits c) := by
  have h : text ⟨a, b, c, none, none⟩ = a.repr ++ "." ++ b.repr ++ "." ++ c.repr := rfl
  simp [h]

theorem text_prerelease : (text ⟨a, b, c, some name, some k⟩).toList =
    digits a ++ '.' :: (digits b ++ '.' ::
      (digits c ++ '-' :: (name.toList ++ '.' :: digits k))) := by
  have h : text ⟨a, b, c, some name, some k⟩ =
      a.repr ++ "." ++ b.repr ++ "." ++ c.repr ++ "-" ++ name ++ "." ++ k.repr := rfl
  simp [h]

theorem point_mem_text (v : Version) : '.' ∈ v.text.toList := by
  have hpoint : '.' ∈ (toString ".").toList := by decide
  cases hchannel : v.channel with
  | none => simp [text, hchannel, hpoint]
  | some channel => simp [text, hchannel, hpoint]

/-- The characters of a version: those of channels, and points. -/
theorem mem_text (h : v.Legible) {d : Char} (hd : d ∈ v.text.toList) :
    isChannelChar d = true ∨ d = '.' := by
  have hdigits : ∀ n, d ∈ digits n → isChannelChar d = true := by
    intro n hn
    simp [isChannelChar, Char.isAlphanum, isDigit_of_mem_digits hn]
  cases h with
  | stable a b c =>
    rw [text_stable] at hd
    simp only [List.mem_append, List.mem_cons] at hd
    rcases hd with hd | hd | hd | hd | hd
    · exact Or.inl (hdigits _ hd)
    · exact Or.inr hd
    · exact Or.inl (hdigits _ hd)
    · exact Or.inr hd
    · exact Or.inl (hdigits _ hd)
  | prerelease a b c name k hname =>
    rw [text_prerelease] at hd
    simp only [List.mem_append, List.mem_cons] at hd
    rcases hd with hd | hd | hd | hd | hd | hd | hd | hd | hd
    · exact Or.inl (hdigits _ hd)
    · exact Or.inr hd
    · exact Or.inl (hdigits _ hd)
    · exact Or.inr hd
    · exact Or.inl (hdigits _ hd)
    · exact Or.inl (by rw [hd]; rfl)
    · exact Or.inl (hname.2 d hd)
    · exact Or.inr hd
    · exact Or.inl (hdigits _ hd)

/-- The characters of a version are hyphens, points, digits and letters of ASCII. -/
theorem toNat_of_isChannelChar {d : Char} (h : isChannelChar d = true ∨ d = '.') :
    (45 ≤ d.toNat ∧ d.toNat ≤ 46) ∨ (48 ≤ d.toNat ∧ d.toNat ≤ 57) ∨
      (65 ≤ d.toNat ∧ d.toNat ≤ 90) ∨ (97 ≤ d.toNat ∧ d.toNat ≤ 122) := by
  rcases h with h | rfl
  · delta isChannelChar Char.isAlphanum Char.isAlpha Char.isUpper Char.isLower Char.isDigit at h
    simp only [Bool.or_eq_true, Bool.and_eq_true, decide_eq_true_eq, ge_iff_le,
      UInt32.le_iff_toNat_le] at h
    rcases h with ((h | h) | h) | rfl
    · exact Or.inr (Or.inr (Or.inl h))
    · exact Or.inr (Or.inr (Or.inr h))
    · exact Or.inr (Or.inl h)
    · decide
  · decide

theorem isBlank_of_isChannelChar {d : Char} (h : isChannelChar d = true ∨ d = '.') :
    Text.isBlank d = false := by
  have hrange := toNat_of_isChannelChar h
  simp only [Text.isBlank, Bool.or_eq_false_iff, Bool.and_eq_false_iff,
    decide_eq_false_iff_not, beq_eq_false_iff_ne, ne_eq]
  omega

theorem stripChars_text (h : v.Legible) : Text.stripChars v.text.toList = v.text.toList :=
  Text.stripChars_eq_self fun _ hd => isBlank_of_isChannelChar (mem_text h hd)

theorem takeNumber?_dot : takeNumber? (digits n ++ '.' :: rest) = some (digits n, '.' :: rest) :=
  takeNumber?_digits (by simp; rfl)

theorem takeNumber?_hyphen : takeNumber? (digits n ++ '-' :: rest) = some (digits n, '-' :: rest) :=
  takeNumber?_digits (by simp; rfl)

theorem takeNumber?_end : takeNumber? (digits n) = some (digits n, []) := by
  have hnone : ∀ d ∈ ([] : List Char).head?, Text.isDigit d = false := fun _ hd => by cases hd
  have h := takeNumber?_digits (n := n) hnone
  rwa [List.append_nil] at h

theorem takeChar?_self {d : Char} : takeChar? d (d :: rest) = some rest := if_pos rfl

theorem parts?_stable : parts? (digits a ++ '.' :: (digits b ++ '.' :: digits c)) =
    some ⟨digits a, digits b, digits c, none⟩ := by
  simp only [parts?, takeNumber?_dot, takeNumber?_end, takeChar?_self, Option.bind_eq_bind,
    Option.bind_some]
  rfl

theorem parts?_prerelease (h : IsChannelName name) :
    parts? (digits a ++ '.' :: (digits b ++ '.' ::
      (digits c ++ '-' :: (name.toList ++ '.' :: digits k)))) =
    some ⟨digits a, digits b, digits c, some (name.toList, digits k)⟩ := by
  have hpoint : isChannelChar '.' = false := rfl
  have htake : (name.toList ++ '.' :: digits k).takeWhile isChannelChar = name.toList := by
    rw [List.takeWhile_append_of_pos h.2]
    simp [hpoint]
  have hdrop : (name.toList ++ '.' :: digits k).dropWhile isChannelChar = '.' :: digits k := by
    rw [List.dropWhile_append_of_pos h.2]
    simp [hpoint]
  have hne : name.toList.isEmpty = false := by simpa using h.1
  simp only [parts?, takeNumber?_dot, takeNumber?_hyphen, takeNumber?_end, takeChar?_self,
    Option.bind_eq_bind, Option.bind_some, htake, hdrop, hne]
  rfl

/-- What is written is read back. -/
theorem read_text (h : v.Legible) (hw : v.isWritable = true) : read v.text = .ok (some v) := by
  rw [read, stripChars_text h]
  cases h with
  | stable a b c =>
    simp only [isWritable, numbers, List.all_cons, List.append_nil, Option.toList, List.all_nil,
      Bool.and_true, Bool.and_eq_true] at hw
    obtain ⟨ha, hb, hc⟩ := hw
    rw [text_stable, parts?_stable]
    simp [ofParts, readNatural_toDigits, ha, hb, hc]
    rfl
  | prerelease a b c name k hname =>
    simp only [isWritable, numbers, Option.toList, List.cons_append, List.nil_append,
      List.all_cons, List.all_nil, Bool.and_true, Bool.and_eq_true] at hw
    obtain ⟨ha, hb, hc, hk⟩ := hw
    rw [text_prerelease, parts?_prerelease hname]
    simp [ofParts, readNatural_toDigits, ha, hb, hc, hk]
    rfl

/-- A row of digits without superfluous zeros. The first digit is an ASCII one. -/
inductive Numeral : List Char → Prop
  | zero : Numeral ['0']
  | leading {d : Char} {ds : List Char} (hd : Text.isLeadingDigit d = true)
    (hds : ∀ e ∈ ds, Text.isDigit e = true) : Numeral (d :: ds)

theorem of_takeNumber? (h : takeNumber? cs = some (ds, rest)) : Numeral ds ∧ cs = ds ++ rest := by
  cases cs with
  | nil => cases h
  | cons c cs =>
    rw [takeNumber?] at h
    split at h
    · rename_i hzero
      cases h
      exact ⟨hzero ▸ .zero, rfl⟩
    · split at h
      · rename_i hleading
        cases h
        refine ⟨.leading hleading fun e he => List.mem_takeWhile_imp he, ?_⟩
        rw [List.cons_append, List.takeWhile_append_dropWhile]
      · cases h

theorem of_takeChar? {wanted : Char} (h : takeChar? wanted cs = some rest) : cs = wanted :: rest := by
  cases cs with
  | nil => cases h
  | cons c cs =>
    rw [takeChar?] at h
    split at h
    · rename_i hc
      cases h
      rw [hc]
    · cases h

namespace Parts

/-- The text that has the parts. -/
def chars (p : Parts) : List Char :=
  p.major ++ '.' :: (p.minor ++ '.' :: (p.patch ++ match p.suffix with
    | none => []
    | some (channel, counter) => '-' :: (channel ++ '.' :: counter)))

/-- The numbers among the parts are numerals, and the channel has a name. -/
structure WellFormed (p : Parts) : Prop where
  major : Numeral p.major
  minor : Numeral p.minor
  patch : Numeral p.patch
  suffix : ∀ channel counter, p.suffix = some (channel, counter) →
    IsChannelName (String.ofList channel) ∧ Numeral counter

end Parts

/-- A text that is split has the parts that are found. -/
theorem of_parts? {p : Parts} (h : parts? cs = some p) : cs = p.chars ∧ p.WellFormed := by
  simp only [parts?, Option.bind_eq_bind, Option.bind_eq_some_iff] at h
  obtain ⟨⟨major, cs₁⟩, h₁, cs₂, hdot₁, ⟨minor, cs₃⟩, h₂, cs₄, hdot₂, ⟨patch, cs₅⟩, h₃, h⟩ := h
  obtain ⟨hmajor, rfl⟩ := of_takeNumber? h₁
  obtain rfl := of_takeChar? hdot₁
  obtain ⟨hminor, rfl⟩ := of_takeNumber? h₂
  obtain rfl := of_takeChar? hdot₂
  obtain ⟨hpatch, rfl⟩ := of_takeNumber? h₃
  split at h
  · rename_i hempty
    obtain rfl : cs₅ = [] := List.isEmpty_iff.mp hempty
    cases h
    exact ⟨rfl, hmajor, hminor, hpatch, fun _ _ hsuffix => nomatch hsuffix⟩
  · obtain ⟨cs₆, hhyphen, h⟩ := Option.bind_eq_some_iff.mp h
    obtain rfl := of_takeChar? hhyphen
    split at h
    · cases h
    · rename_i hne
      simp only [Option.bind_eq_some_iff] at h
      obtain ⟨cs₇, hdot₃, ⟨counter, cs₈⟩, h₄, h⟩ := h
      obtain ⟨hcounter, rfl⟩ := of_takeNumber? h₄
      have hchannel := List.takeWhile_append_dropWhile (p := isChannelChar) (l := cs₆)
      rw [of_takeChar? hdot₃] at hchannel
      split at h
      · rename_i hempty
        obtain rfl : cs₈ = [] := List.isEmpty_iff.mp hempty
        cases h
        rw [List.append_nil] at hchannel
        refine ⟨by simp only [Parts.chars, hchannel], hmajor, hminor, hpatch, ?_⟩
        rintro _ _ ⟨⟩
        refine ⟨⟨by simpa using hne, fun c hc => ?_⟩, hcounter⟩
        rw [String.toList_ofList] at hc
        exact List.mem_takeWhile_imp hc
      · cases h

theorem legible_of_ofParts {p : Parts} (h : ofParts p = .ok v) (hp : p.WellFormed) :
    v.Legible := by
  simp only [ofParts, bind_eq_ok, option_mapM_eq_ok] at h
  obtain ⟨suffix, hs, a, -, b, -, c, -, h⟩ := h
  obtain rfl := Except.ok.inj h
  obtain ⟨-, rfl⟩ | ⟨⟨channel, counter⟩, _, hps, rfl, k, -, hk⟩ := hs
  · exact .stable a b c
  · obtain rfl := Except.ok.inj hk
    exact .prerelease a b c _ k (hp.suffix channel counter hps).1

/-- Every version that a text names is legible. -/
theorem legible_of_read {s : String} (h : read s = .ok (some v)) : v.Legible := by
  obtain ⟨-, hv⟩ | ⟨p, v', hp, hv, h⟩ := option_mapM_eq_ok.mp h
  · cases hv
  · obtain rfl := Option.some.inj hv
    exact legible_of_ofParts h (of_parts? hp).2

theorem isWritable_of_ofParts {p : Parts} (h : ofParts p = .ok v) : v.isWritable = true := by
  simp only [ofParts, bind_eq_ok, option_mapM_eq_ok] at h
  obtain ⟨suffix, hs, a, ha, b, hb, c, hc, h⟩ := h
  obtain rfl := Except.ok.inj h
  have hmajor := isWritable_of_readNatural ha
  have hminor := isWritable_of_readNatural hb
  have hpatch := isWritable_of_readNatural hc
  obtain ⟨-, rfl⟩ | ⟨_, _, -, rfl, k, hread, hk⟩ := hs
  · simp [isWritable, numbers, hmajor, hminor, hpatch]
  · obtain rfl := Except.ok.inj hk
    simp [isWritable, numbers, hmajor, hminor, hpatch, isWritable_of_readNatural hread]

/-- Every version that a text names can be written. -/
theorem isWritable_of_read {s : String} (h : read s = .ok (some v)) : v.isWritable = true := by
  obtain ⟨-, hv⟩ | ⟨p, v', -, hv, h⟩ := option_mapM_eq_ok.mp h
  · cases hv
  · obtain rfl := Option.some.inj hv
    exact isWritable_of_ofParts h

/-- A version of natural numbers that has a counter where it has a channel can be told by a text unless
its channel has another kind of name. -/
theorem legible_iff_channel {v : Version} (hnumbers : ∀ n ∈ v.numbers, 0 ≤ n)
    (hcounter : v.channel.isSome = v.counter.isSome) :
    v.Legible ↔ ∀ name, v.channel = some name → IsChannelName name := by
  obtain ⟨major, minor, patch, channel, counter⟩ := v
  simp only [numbers, List.cons_append, List.nil_append, List.forall_mem_cons] at hnumbers
  obtain ⟨hmajor, hminor, hpatch, hrest⟩ := hnumbers
  lift major to ℕ using hmajor
  lift minor to ℕ using hminor
  lift patch to ℕ using hpatch
  cases channel with
  | none =>
    cases counter with
    | none => exact ⟨fun _ _ hname => (nomatch hname), fun _ => .stable major minor patch⟩
    | some k => cases hcounter
  | some name =>
    cases counter with
    | none => cases hcounter
    | some k =>
      lift k to ℕ using hrest k (by simp)
      constructor
      · rintro ⟨⟩ other hother
        cases hother
        assumption
      · exact fun h => .prerelease major minor patch name k (h name rfl)

end ReleasePipeline.Version
