import Mathlib.Data.List.TakeWhile
import ReleasePipeline.Manifest.Version
import ReleasePipeline.Proofs.Text.Search

/-! Version lines of a manifest, and what it says that a version was set. -/
namespace ReleasePipeline.Manifest

variable {line : List Char}

/-- The beginning of a version entry: `version =` with nothing but blanks around the two. -/
def Opens (start : List Char) : Prop :=
  ∃ indent gap rest, (∀ c ∈ indent ++ gap ++ rest, Text.isBlank c = true) ∧
    start = indent ++ "version".toList ++ gap ++ '=' :: rest

/-- The text becomes another one by the version in place of the quoted text of a version entry. -/
def Sets (version text updated : List Char) : Prop :=
  ∃ before start old after, Opens start ∧ text = before ++ start ++ '"' :: old ++ '"' :: after ∧
    updated = before ++ start ++ '"' :: version ++ '"' :: after

/-- What a search drops stands in front of the rest. -/
theorem exists_of_dropWhile {p : Char → Bool} {cs rest : List Char} (h : cs.dropWhile p = rest) :
    ∃ front, (∀ c ∈ front, p c = true) ∧ cs = front ++ rest :=
  ⟨cs.takeWhile p, fun _ hc => List.mem_takeWhile_imp hc,
    by rw [← h, List.takeWhile_append_dropWhile]⟩

/-- A version line is its parts with quotes around the version, which holds none. -/
theorem eq_of_versionLine {l : VersionLine} (h : VersionLine.of? line = some l) :
    Opens l.before ∧ '"' ∉ l.version ∧ line = l.withVersion l.version := by
  obtain ⟨rest, hrest, h⟩ := Option.bind_eq_some_iff.mp h
  obtain ⟨indent, hindent, hline⟩ := exists_of_dropWhile (Text.dropStart?_eq_some_iff.mp hrest)
  split at h
  · rename_i value hvalue
    obtain ⟨gap, hgap, rfl⟩ := exists_of_dropWhile hvalue
    split at h
    · rename_i quoted hquoted
      obtain ⟨space, hspace, rfl⟩ := exists_of_dropWhile hquoted
      split at h
      · rename_i tail htail
        cases h
        have hquote : quoted.takeWhile (fun c => decide (c ≠ '"')) ++ '"' :: tail = quoted := by
          rw [← htail]
          exact List.takeWhile_append_dropWhile
        have hstart : line = (indent ++ "version".toList ++ gap ++ '=' :: space) ++ '"' :: quoted := by
          simp only [hline, List.append_assoc, List.cons_append]
        -- the line up to its quote is what is left without the rest and the quote
        have hbefore : line.take (line.length - quoted.length - 1) =
            indent ++ "version".toList ++ gap ++ '=' :: space := by
          rw [hstart]
          refine List.take_left' ?_
          simp only [List.length_append, List.length_cons]
          omega
        refine ⟨⟨indent, gap, space, ?_, hbefore⟩, fun hmem => ?_, ?_⟩
        · simp only [List.mem_append, or_imp, forall_and]
          exact ⟨⟨hindent, hgap⟩, hspace⟩
        · have hne := List.mem_takeWhile_imp hmem
          simp at hne
        · rw [VersionLine.withVersion]
          simp only [hbefore, List.append_assoc, List.cons_append, hquote] at hstart ⊢
          exact hstart
      · cases h
    · cases h
  · cases h

/-- A line is read as a version line in one way: by its first two quotes. -/
theorem versionLine_eq_some_iff {l : VersionLine} : VersionLine.of? line = some l ↔
    Opens l.before ∧ '"' ∉ l.version ∧ line = l.withVersion l.version := by
  refine ⟨eq_of_versionLine, ?_⟩
  rintro ⟨⟨indent, gap, space, hblank, hbefore⟩, hversion, rfl⟩
  simp only [List.mem_append, or_imp, forall_and] at hblank
  obtain ⟨⟨hindent, hgap⟩, hspace⟩ := hblank
  obtain ⟨before, old, after⟩ := l
  subst hbefore
  let quoted := old ++ '"' :: after
  let start := indent ++ "version".toList ++ gap ++ '=' :: space
  have hline : VersionLine.withVersion ⟨start, old, after⟩ old = start ++ '"' :: quoted := by
    simp [VersionLine.withVersion, start, quoted]
  have hword : (start ++ '"' :: quoted).dropWhile Text.isBlank =
      "version".toList ++ (gap ++ '=' :: (space ++ '"' :: quoted)) := by
    have hv := (Text.span_append_cons hindent (c := 'v') rfl
      ("ersion".toList ++ (gap ++ '=' :: (space ++ '"' :: quoted)))).2
    simpa [start] using hv
  have hdrop := Text.dropStart?_eq_some_iff.mpr hword
  have hequals := (Text.span_append_cons hgap (c := '=') rfl (space ++ '"' :: quoted)).2
  have hquote := (Text.span_append_cons hspace (c := '"') rfl quoted).2
  have hold : ∀ c ∈ old, decide (c ≠ '"') = true := fun c hc =>
    decide_eq_true fun h => hversion (h ▸ hc)
  obtain ⟨htake, hrest⟩ := Text.span_append_cons hold (c := '"') (decide_eq_false (by simp)) after
  have hbefore : (start ++ '"' :: quoted).take
      ((start ++ '"' :: quoted).length - quoted.length - 1) = start := by
    refine List.take_left' ?_
    simp only [List.length_append, List.length_cons]
    omega
  change VersionLine.of? (VersionLine.withVersion ⟨start, old, after⟩ old) = some ⟨start, old, after⟩
  rw [hline, VersionLine.of?, hdrop, Option.bind_eq_bind, Option.bind_some, hequals]
  simp only [hquote, htake, hrest, quoted]
  exact congrArg (fun before => some (VersionLine.mk before old after)) hbefore

end ReleasePipeline.Manifest
