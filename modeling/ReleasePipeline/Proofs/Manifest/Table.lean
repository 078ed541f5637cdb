import ReleasePipeline.Proofs.Manifest.Site

/-! The table to which the version belongs that is set. It follows a plain header of the package table.
Headers of items and headers with comments are passed over, so another table may begin in between. -/
namespace ReleasePipeline.Manifest

variable {line : List Char} {h h' : Header} {above front passed : List Text.Line} {opening : Text.Line}

namespace Header

/-- The line is a header of some kind. -/
def IsHeader (line : List Char) : Prop := ∃ h : Header, h.Heads line

/-- What follows the first bracket of a header. -/
theorem Heads.exists_dropWhile (hh : h.Heads line) : ∃ inner gap,
    inner ≠ [] ∧ (∀ c ∈ inner, isInner c = true) ∧ Text.stripChars inner = h.name ∧
    (gap ++ h.comment).dropWhile Text.isBlank = h.comment ∧
    line.dropWhile Text.isBlank =
      '[' :: ((if h.isItem then ['['] else []) ++ (inner ++ (h.closing ++ (gap ++ h.comment)))) := by
  obtain ⟨indent, inner, gap, hblank, hne, hinner, hname, hcomment, rfl⟩ := hh
  simp only [List.mem_append, or_imp, forall_and] at hblank
  refine ⟨inner, gap, hne, fun c hc => isInner_iff.mpr (hinner c hc), hname, ?_, ?_⟩
  · rw [List.dropWhile_append_of_pos hblank.2]
    obtain hnone | hhash := hcomment
    · rw [hnone]
      rfl
    · obtain ⟨rest, hrest⟩ := List.head?_eq_some_iff.mp hhash
      rw [hrest]
      rfl
  · have hopening : h.opening = '[' :: (if h.isItem then ['['] else []) := by
      rw [opening]
      split <;> rfl
    have hdrop := (Text.span_append_cons hblank.1 (c := '[') rfl ((if h.isItem then ['['] else []) ++
      (inner ++ (h.closing ++ (gap ++ h.comment))))).2
    simpa [hopening] using hdrop

/-- The name ends at the first bracket. -/
theorem inner_unique {inner inner' rest rest' : List Char} (hinner : ∀ c ∈ inner, isInner c = true)
    (hinner' : ∀ c ∈ inner', isInner c = true) (h : inner ++ ']' :: rest = inner' ++ ']' :: rest') :
    inner = inner' ∧ rest = rest' := by
  obtain ⟨htake, hdrop⟩ := Text.span_append_cons hinner (c := ']') rfl rest
  obtain ⟨htake', hdrop'⟩ := Text.span_append_cons hinner' (c := ']') rfl rest'
  rw [h] at htake hdrop
  exact ⟨htake.symm.trans htake', (List.cons.inj (hdrop.symm.trans hdrop')).2⟩

/-- A name begins with no bracket. -/
theorem inner_append_ne {inner rest rest' : List Char} (hne : inner ≠ [])
    (hinner : ∀ c ∈ inner, isInner c = true) : inner ++ rest ≠ '[' :: rest' := by
  intro heq
  obtain ⟨c, tail, rfl⟩ := List.exists_cons_of_ne_nil hne
  have hc := hinner c List.mem_cons_self
  rw [(List.cons.inj heq).1] at hc
  cases hc

/-- What follows the first bracket tells whether there is a second one, where the name ends and what
follows the brackets. -/
theorem brackets_unique {inner inner' tail tail' : List Char} (hne : inner ≠ []) (hne' : inner' ≠ [])
    (hinner : ∀ c ∈ inner, isInner c = true) (hinner' : ∀ c ∈ inner', isInner c = true)
    (heq : (if h.isItem then ['['] else []) ++ (inner ++ (h.closing ++ tail)) =
      (if h'.isItem then ['['] else []) ++ (inner' ++ (h'.closing ++ tail'))) :
    h.isItem = h'.isItem ∧ inner = inner' ∧ tail = tail' := by
  rw [closing, closing] at heq
  cases hitem : h.isItem with
  | false =>
    cases hitem' : h'.isItem with
    | false =>
      rw [hitem, hitem'] at heq
      obtain ⟨rfl, htail⟩ := inner_unique hinner hinner' heq
      exact ⟨rfl, rfl, htail⟩
    | true =>
      rw [hitem, hitem', if_neg Bool.false_ne_true, List.nil_append] at heq
      exact absurd heq (inner_append_ne hne hinner)
  | true =>
    cases hitem' : h'.isItem with
    | false =>
      rw [hitem, hitem', if_neg Bool.false_ne_true, List.nil_append] at heq
      exact absurd heq.symm (inner_append_ne hne' hinner')
    | true =>
      rw [hitem, hitem'] at heq
      obtain ⟨rfl, htail⟩ := inner_unique hinner hinner' (List.cons.inj heq).2
      exact ⟨rfl, rfl, (List.cons.inj htail).2⟩

/-- A line is the header of one table only. -/
theorem Heads.unique (hh : h.Heads line) (hh' : h'.Heads line) : h = h' := by
  obtain ⟨inner, gap, hne, hinner, hname, hcomment, hline⟩ := hh.exists_dropWhile
  obtain ⟨inner', gap', hne', hinner', hname', hcomment', hline'⟩ := hh'.exists_dropWhile
  rw [hline, List.cons.injEq] at hline'
  obtain ⟨hitem, rfl, hgap⟩ := brackets_unique hne hne' hinner hinner' hline'.2
  have hcomments : h.comment = h'.comment := by rw [← hcomment, ← hcomment', hgap]
  exact Header.ext (hname.symm.trans hname') hitem hcomments

/-- The nearest header in the lines above a line. -/
def Nearest (h : Header) (above : List Text.Line) : Prop :=
  ∃ front opening back, above = front ++ opening :: back ∧ h.Heads opening.content ∧
    ∀ l ∈ back, ¬ IsHeader l.content

/-- Of two marked lines in a text, one is the other, or stands above it. -/
theorem eq_or_above_or_below {l l' : Text.Line} {front front' back back' : List Text.Line}
    (h : front ++ l :: back = front' ++ l' :: back') :
    (l = l' ∧ back = back') ∨ (∃ between, back' = between ++ l :: back) ∨ l' ∈ back := by
  obtain ⟨between, -, hsplit⟩ | ⟨between, -, hsplit⟩ := List.append_eq_append_iff.mp h
  · cases between with
    | nil => exact .inl (List.cons.inj hsplit)
    | cons first between =>
      obtain ⟨-, rfl⟩ := List.cons.inj hsplit
      exact .inr (.inr (by simp))
  · cases between with
    | nil =>
      obtain ⟨rfl, rfl⟩ := List.cons.inj hsplit
      exact .inl ⟨rfl, rfl⟩
    | cons first between =>
      obtain ⟨-, rfl⟩ := List.cons.inj hsplit
      exact .inr (.inl ⟨between, rfl⟩)

/-- A header is the nearest one of lines if it is so of the last of them, or where these have none. -/
theorem nearest_append_cons_iff (hopening : h'.Heads opening.content) :
    h.Nearest (front ++ opening :: passed) ↔
      h.Nearest passed ∨ h = h' ∧ ∀ l ∈ passed, ¬ IsHeader l.content := by
  constructor
  · rintro ⟨front', opening', back, heq, hh, hback⟩
    obtain ⟨rfl, rfl⟩ | ⟨between, rfl⟩ | hmem := eq_or_above_or_below heq.symm
    · exact .inr ⟨hh.unique hopening, hback⟩
    · exact .inl ⟨between, opening', back, rfl, hh, hback⟩
    · exact absurd ⟨h', hopening⟩ (hback opening hmem)
  · rintro (⟨front', opening', back, rfl, hh, hback⟩ | ⟨rfl, hpassed⟩)
    · exact ⟨front ++ opening :: front', opening', back, by simp, hh, hback⟩
    · exact ⟨front, opening, passed, rfl, hopening, hpassed⟩

/-- Lines have one nearest header at the most. -/
theorem Nearest.unique (hh : h.Nearest above) (hh' : h'.Nearest above) : h = h' := by
  obtain ⟨front', opening', back', rfl, hopening', hback'⟩ := hh'
  obtain ⟨front, opening, back, habove, hopening, hback⟩ := hh
  obtain ⟨rfl, -⟩ | ⟨between, rfl⟩ | hmem := eq_or_above_or_below habove
  · exact hopening.unique hopening'
  · exact absurd ⟨h', hopening'⟩ (hback opening' (by simp))
  · exact absurd ⟨h, hopening⟩ (hback' opening hmem)

end Header

/-- The line below belongs to the table of the name: the nearest header above it, with a comment or
without one, is that of the table. -/
def BelongsTo (name : List Char) (above : List Text.Line) : Prop :=
  ∃ h : Header, h.Nearest above ∧ h.name = name ∧ h.isItem = false

/-- Below a header, a line belongs to its table, unless another header stands in between. -/
theorem belongsTo_append_cons_iff {name : List Char} (hopening : h.Heads opening.content) :
    BelongsTo name (front ++ opening :: passed) ↔ BelongsTo name passed ∨
      (h.name = name ∧ h.isItem = false) ∧ ∀ l ∈ passed, ¬ Header.IsHeader l.content := by
  constructor
  · rintro ⟨nearest, hnearest, hname⟩
    obtain hnearest | ⟨rfl, hnone⟩ := (Header.nearest_append_cons_iff hopening).mp hnearest
    · exact .inl ⟨nearest, hnearest, hname⟩
    · exact .inr ⟨hname, hnone⟩
  · rintro (⟨nearest, hnearest, hname⟩ | ⟨hname, hnone⟩)
    · exact ⟨nearest, (Header.nearest_append_cons_iff hopening).mpr (.inl hnearest), hname⟩
    · exact ⟨h, (Header.nearest_append_cons_iff hopening).mpr (.inr ⟨rfl, hnone⟩), hname⟩

/-- The table that is read of lines opens at a plain header, with none but other headers behind it. -/
theorem exists_of_tableAfter {name : List Char} {ls : List Text.Line}
    (h : tableAfter none ls = some name) : ∃ front opening passed, ls = front ++ opening :: passed ∧
      (Header.plain name).Heads opening.content ∧
      ∀ l ∈ passed, tableName? l.content = none := by
  induction ls using List.reverseRecOn with
  | nil => cases h
  | append_singleton ls l ih =>
    rw [tableAfter, List.foldl_append] at h
    cases hheader : tableName? l.content with
    | some other =>
      have hother : other = name := by simpa [hheader] using h
      exact ⟨ls, l, [], rfl, tableName?_eq_some_iff.mp (hother ▸ hheader),
        List.forall_mem_nil _⟩
    | none =>
      obtain ⟨front, opening, passed, rfl, hopening, hpassed⟩ := ih (by
        simpa [tableAfter, hheader] using h)
      refine ⟨front, opening, passed ++ [l], by simp, hopening, fun l' hl' => ?_⟩
      rcases List.mem_append.mp hl' with hl' | hl'
      · exact hpassed l' hl'
      · rwa [List.mem_singleton.mp hl']

/-- The lines above a version that is set: a plain header of the package table, and behind it headers
of items and headers with comments at the most. The version belongs to the package table just if none
of these is there, or the last of them is once more a header of that table. -/
structure Reached (above front : List Text.Line) (opening : Text.Line) (passed : List Text.Line) :
    Prop where
  lines : above = front ++ opening :: passed
  opens : (Header.plain packageName).Heads opening.content
  passes : ∀ l ∈ passed, ∀ h : Header, h.Heads l.content → h.isItem = true ∨ h.comment ≠ []
  belongs_iff : BelongsTo packageName above ↔
    (∀ l ∈ passed, ¬ Header.IsHeader l.content) ∨ BelongsTo packageName passed

theorem exists_reached {p : Site} {ls : List Text.Line} (h : p.In none ls) :
    ∃ front opening passed, Reached p.above front opening passed := by
  obtain ⟨front, opening, passed, habove, hopening, hpassed⟩ := exists_of_tableAfter h.inside
  refine ⟨front, opening, passed, habove, hopening, fun l hl h hh => ?_, ?_⟩
  · by_contra hplain
    rw [not_or, Bool.not_eq_true, not_not] at hplain
    obtain ⟨name, isItem, comment⟩ := h
    obtain ⟨rfl, rfl⟩ : isItem = false ∧ comment = [] := hplain
    have hname := tableName?_eq_some_iff.mpr hh
    rw [hpassed l hl] at hname
    cases hname
  · rw [habove, belongsTo_append_cons_iff hopening, or_comm]
    exact or_congr_left (and_iff_right ⟨rfl, rfl⟩)

/-- The version that is set follows a plain header of the package table. -/
theorem version_set_below_plain_header {text version updated : String}
    (h : setVersion text version = (updated, true)) :
    ∃ p : Site, p.In none (Text.lines text.toList) ∧ updated = p.textWith version ∧
      ∃ front opening passed, Reached p.above front opening passed := by
  by_cases hversion : HasVersion text
  · obtain ⟨p, hp⟩ := hversion
    rw [setVersion_of_in hp] at h
    exact ⟨p, hp, (congrArg Prod.fst h).symm, exists_reached hp⟩
  · rw [setVersion_of_not_hasVersion hversion] at h
    cases h

theorem version_of_crowdedManifest_below_header :
    setVersion crowdedManifest "1.3.0" =
      ("[lib]\nversion = \"9\"\r\n [ package ]\t\nversion.workspace = true\u2028" ++
        "  version=\"1.3.0\" # was \"0.8.0\"\r\n[x]\nversion = \"1\"", true) ∧
    ∃ p : Site, p.In none (Text.lines crowdedManifest.toList) ∧
      (setVersion crowdedManifest "1.3.0").1 = p.textWith "1.3.0" ∧
      ∃ front opening passed, Reached p.above front opening passed := by
  have hset : setVersion crowdedManifest "1.3.0" =
      ("[lib]\nversion = \"9\"\r\n [ package ]\t\nversion.workspace = true\u2028" ++
        "  version=\"1.3.0\" # was \"0.8.0\"\r\n[x]\nversion = \"1\"", true) := by
    decide +kernel
  obtain ⟨p, hp, hupdated, hreached⟩ := version_set_below_plain_header hset
  exact ⟨hset, p, hp, (congrArg Prod.fst hset).trans hupdated, hreached⟩

/-- A manifest whose only version is that of a dependency, in a table with a comment at its header. -/
def dependencyManifest : String :=
  "[package]\nname = \"demo\"\nversion.workspace = true\n\n" ++
    "[dependencies.serde] # pinned\nversion = \"1.0.0\"\n"

/-- The version of the dependency. -/
def dependencySite : Site where
  above := ["[package]", "name = \"demo\"", "version.workspace = true", "",
    "[dependencies.serde] # pinned"].map fun content => ⟨content.toList, ['\n']⟩
  entry := ⟨"version = ".toList, "1.0.0".toList, []⟩
  ending := ['\n']
  below := []

/-- The header above it. -/
def dependencyHeader : Header where
  name := "dependencies.serde".toList
  comment := "# pinned".toList

/-- The version of a dependency is set, since the comment hides the header above it. -/
theorem version_set_of_dependency :
    dependencySite.In none (Text.lines dependencyManifest.toList) ∧
    setVersion dependencyManifest "2.0.0" = (dependencySite.textWith "2.0.0", true) ∧
    dependencySite.textWith "2.0.0" =
      "[package]\nname = \"demo\"\nversion.workspace = true\n\n" ++
        "[dependencies.serde] # pinned\nversion = \"2.0.0\"\n" ∧
    dependencyHeader.Nearest dependencySite.above ∧ ¬ BelongsTo packageName dependencySite.above := by
  have hnone : ∀ l ∈ dependencySite.above, VersionLine.of? l.content = none := by decide +kernel
  have hin : dependencySite.In none (Text.lines dependencyManifest.toList) :=
    { lines := by decide +kernel
      opens := ⟨[], [' '], [' '], List.all_eq_true.mp rfl, rfl⟩
      quoted := by decide
      inside := by decide +kernel
      first := fun front l back habove _ => hnone l (habove ▸ List.mem_append_right _ List.mem_cons_self) }
  have hheader : dependencyHeader.Heads "[dependencies.serde] # pinned".toList :=
    ⟨[], dependencyHeader.name, [' '], List.all_eq_true.mp rfl, by decide,
      fun c hc => isInner_iff.mp (List.all_eq_true.mp rfl c hc), by decide, .inr rfl, rfl⟩
  have hnearest : dependencyHeader.Nearest dependencySite.above :=
    ⟨dependencySite.above.dropLast, ⟨_, ['\n']⟩, [], rfl, hheader, List.forall_mem_nil _⟩
  refine ⟨hin, setVersion_of_in hin "2.0.0", by decide +kernel, hnearest, ?_⟩
  rintro ⟨h, hpackage, hname, -⟩
  rw [hpackage.unique hnearest] at hname
  exact absurd hname (by decide)

end ReleasePipeline.Manifest
