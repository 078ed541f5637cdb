import ReleasePipeline.Proofs.Manifest.Version

/-! The lines of a manifest that head a table, and those that set a version. A header may be that of an
item of a list of tables, and a comment may follow it, but only plain headers are read. -/
namespace ReleasePipeline.Manifest

variable {line version : List Char} {name : List Char}

/-- The header of a table. -/
@[ext]
structure Header where
  name : List Char
  /-- The table is an item of a list of tables. -/
  isItem : Bool := false
  comment : List Char := []
deriving DecidableEq, Repr

namespace Header

/-- The brackets in front of the name. -/
def opening (h : Header) : List Char := if h.isItem then ['[', '['] else ['[']

/-- The brackets after the name. -/
def closing (h : Header) : List Char := if h.isItem then [']', ']'] else [']']

/-- The line is the header, with blanks around its brackets and around its name. -/
def Heads (h : Header) (line : List Char) : Prop :=
  ∃ indent inner gap, (∀ c ∈ indent ++ gap, Text.isBlank c = true) ∧ inner ≠ [] ∧
    (∀ c ∈ inner, c ≠ '[' ∧ c ≠ ']') ∧ Text.stripChars inner = h.name ∧
    (h.comment = [] ∨ h.comment.head? = some '#') ∧
    line = indent ++ h.opening ++ inner ++ h.closing ++ gap ++ h.comment

/-- The header of a single table without a comment. -/
def plain (name : List Char) : Header := { name }

end Header

/-- A character inside of the brackets of a header. -/
def isInner (c : Char) : Bool := c ≠ '[' && c ≠ ']'

theorem isInner_iff {c : Char} : isInner c = true ↔ c ≠ '[' ∧ c ≠ ']' := by
  simp [isInner]

theorem tableName?_eq_some_iff : tableName? line = some name ↔ (Header.plain name).Heads line := by
  constructor
  · intro h
    rw [tableName?] at h
    split at h
    · rename_i rest hrest
      obtain ⟨indent, hindent, rfl⟩ := exists_of_dropWhile hrest
      simp only at h
      split at h
      · rename_i after hafter
        split at h
        · rename_i hname
          cases h
          simp only [Bool.and_eq_true, Bool.not_eq_true', List.isEmpty_eq_false_iff,
            List.all_eq_true] at hname
          refine ⟨indent, rest.takeWhile isInner, after, ?_, hname.1, ?_, rfl, .inl rfl, ?_⟩
          · simpa only [List.mem_append, or_imp, forall_and] using ⟨hindent, hname.2⟩
          · exact fun c hc => isInner_iff.mp (List.mem_takeWhile_imp hc)
          · have hrest : rest.takeWhile isInner ++ ']' :: after = rest := by
              rw [← hafter]
              exact List.takeWhile_append_dropWhile
            simp [Header.opening, Header.closing, Header.plain, hrest]
        · cases h
      · cases h
    · cases h
  · rintro ⟨indent, inner, gap, hblank, hne, hinner, hname, -, rfl⟩
    simp only [List.mem_append, or_imp, forall_and] at hblank
    have hinner : ∀ c ∈ inner, isInner c = true := fun c hc => isInner_iff.mpr (hinner c hc)
    have hindent := (Text.span_append_cons hblank.1 (c := '[') rfl (inner ++ ']' :: gap)).2
    obtain ⟨htake, hdrop⟩ := Text.span_append_cons hinner (c := ']') rfl gap
    have hline : indent ++ (Header.plain name).opening ++ inner ++ (Header.plain name).closing ++ gap ++
        (Header.plain name).comment = indent ++ '[' :: (inner ++ ']' :: gap) := by
      simp [Header.opening, Header.closing, Header.plain]
    rw [tableName?, hline, hindent]
    simp only [show (fun c => c ≠ '[' && c ≠ ']') = isInner from rfl, htake, hdrop]
    have hgap : gap.all Text.isBlank = true := List.all_eq_true.mpr hblank.2
    simp [hne, hgap, hname, Header.plain]

/-! What a line is does not depend on its ending. -/

section Ending

variable {ending : List Char}

/-- A character that the ending does not hold stands in front of it. -/
theorem exists_of_append_eq {front back : List Char} {c : Char} (hc : c ∉ ending)
    (h : line ++ ending = front ++ c :: back) :
    ∃ rest, line = front ++ c :: rest ∧ back = rest ++ ending := by
  obtain ⟨extra, rfl, hending⟩ | ⟨extra, rfl, hback⟩ := List.append_eq_append_iff.mp h
  · rw [hending] at hc
    simp at hc
  · cases extra with
    | nil =>
      rw [List.nil_append] at hback
      rw [← hback] at hc
      simp at hc
    | cons d extra =>
      obtain ⟨rfl, rfl⟩ := List.cons.inj hback
      exact ⟨extra, rfl, rfl⟩

theorem tableName?_append (h : ∀ c ∈ ending, Text.isBlank c = true) :
    tableName? (line ++ ending) = tableName? line := by
  refine Option.ext fun name => ?_
  rw [tableName?_eq_some_iff, tableName?_eq_some_iff]
  constructor
  · rintro ⟨indent, inner, gap, hblank, hne, hinner, hname, hcomment, hline⟩
    have hbracket : ']' ∉ ending := fun hmem => absurd (h _ hmem) (by decide)
    have hsplit : line ++ ending = (indent ++ '[' :: inner) ++ ']' :: gap := by
      simpa [Header.opening, Header.closing, Header.plain] using hline
    obtain ⟨rest, rfl, rfl⟩ := exists_of_append_eq hbracket hsplit
    refine ⟨indent, inner, rest, fun c hc => hblank c ?_, hne, hinner, hname, hcomment, ?_⟩
    · rw [← List.append_assoc]
      exact List.mem_append_left _ hc
    · simp [Header.opening, Header.closing, Header.plain]
  · rintro ⟨indent, inner, gap, hblank, hne, hinner, hname, hcomment, rfl⟩
    refine ⟨indent, inner, gap ++ ending, fun c hc => ?_, hne, hinner, hname, hcomment, ?_⟩
    · rw [← List.append_assoc, List.mem_append] at hc
      exact hc.elim (hblank c) (h c)
    · simp [Header.opening, Header.closing, Header.plain]

theorem versionLine_append (h : '"' ∉ ending) : VersionLine.of? (line ++ ending) =
    (VersionLine.of? line).map fun l => { l with after := l.after ++ ending } := by
  refine Option.ext fun l => ?_
  rw [versionLine_eq_some_iff, Option.map_eq_some_iff]
  constructor
  · rintro ⟨hopens, hversion, hline⟩
    have hsplit : line ++ ending = (l.before ++ '"' :: l.version) ++ '"' :: l.after := by
      simpa [VersionLine.withVersion] using hline
    obtain ⟨rest, rfl, hafter⟩ := exists_of_append_eq h hsplit
    refine ⟨{ l with after := rest }, versionLine_eq_some_iff.mpr ⟨hopens, hversion, ?_⟩, ?_⟩
    · simp [VersionLine.withVersion]
    · rw [← hafter]
  · rintro ⟨l, hl, rfl⟩
    obtain ⟨hopens, hversion, rfl⟩ := versionLine_eq_some_iff.mp hl
    exact ⟨hopens, hversion, by simp [VersionLine.withVersion]⟩

end Ending

end ReleasePipeline.Manifest
