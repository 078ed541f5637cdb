import ReleasePipeline.Proofs.Manifest.Header
import ReleasePipeline.Proofs.Text.Breaking

/-! Where the version of a manifest stands: in the first version line of its package table. The place
does not depend on the version, so a version that was set is replaced by the one that is set next. -/
namespace ReleasePipeline.Manifest

variable {version : List Char} {table : Option (List Char)} {l : Text.Line} {ls : List Text.Line}

/-- The name of the table whose version is set. -/
def packageName : List Char := "package".toList

/-- The table to which the line belongs that follows the lines. -/
def tableAfter (table : Option (List Char)) (ls : List Text.Line) : Option (List Char) :=
  ls.foldl (fun table l => (tableName? l.content).or table) table

/-- A version line with the lines around it. -/
@[ext]
structure Site where
  above : List Text.Line
  entry : VersionLine
  ending : List Char
  below : List Text.Line
deriving DecidableEq, Repr

namespace Site

/-- The lines with a version at the site. -/
def linesWith (p : Site) (version : List Char) : List Text.Line :=
  p.above ++ ⟨p.entry.withVersion version, p.ending⟩ :: p.below

/-- The text with a version at the site. -/
def textWith (p : Site) (version : String) : String :=
  String.ofList ((p.linesWith version.toList).flatMap Text.Line.chars)

/-- The site below one more line. -/
def push (l : Text.Line) (p : Site) : Site := { p with above := l :: p.above }

/-- The site after a version was set. -/
def updated (p : Site) (version : List Char) : Site := { p with entry := { p.entry with version } }

/-- The lines have their version at the site, where they follow a line of the table `table`: it is
the first version line in a package table, and the version stands between its first two quotes. -/
structure In (p : Site) (table : Option (List Char)) (ls : List Text.Line) : Prop where
  lines : ls = p.linesWith p.entry.version
  opens : Opens p.entry.before
  quoted : '"' ∉ p.entry.version
  inside : tableAfter table p.above = some packageName
  first : ∀ front l back, p.above = front ++ l :: back →
    tableAfter table front = some packageName → VersionLine.of? l.content = none

end Site

/-- A header is no version line. -/
theorem versionLine_of_tableName {line name : List Char} (h : tableName? line = some name) :
    VersionLine.of? line = none := by
  rw [tableName?] at h
  split at h
  · rename_i rest hrest
    rw [VersionLine.of?, hrest]
    rfl
  · cases h

/-- The feeds and returns are cut off the ending of a line and not off its content. -/
theorem splitEnding_eq {rest : List Char} (hl : l.EndsBefore rest) :
    ∃ front back, splitEnding l = (l.content ++ front, back) ∧ front ++ back = l.ending := by
  let isEnd := fun c : Char => decide (c = '\r') || decide (c = '\n')
  have hcontent : ∀ c ∈ l.content, isEnd c = false := by
    intro c hc
    by_contra hend
    have hbreak : Text.isLineBreak c = true := by
      rw [Bool.not_eq_false, Bool.or_eq_true, decide_eq_true_iff, decide_eq_true_iff] at hend
      rcases hend with rfl | rfl <;> rfl
    rw [hl.content c hc] at hbreak
    cases hbreak
  have hbody : Text.dropEndWhile isEnd l.chars = l.content ++ Text.dropEndWhile isEnd l.ending :=
    Text.dropEndWhile_append_left hcontent l.ending
  obtain ⟨back, hback⟩ := Text.dropEndWhile_isPrefix (p := isEnd) l.ending
  refine ⟨Text.dropEndWhile isEnd l.ending, back, ?_, hback⟩
  have hchars : l.chars = (l.content ++ Text.dropEndWhile isEnd l.ending) ++ back := by
    rw [Text.Line.chars, List.append_assoc, hback]
  refine Prod.ext hbody ?_
  change l.chars.drop (Text.dropEndWhile isEnd l.chars).length = back
  rw [hbody]
  nth_rewrite 1 [hchars]
  exact List.drop_left

/-- One line of a text is a header, or the version line whose version is set, or it stays. -/
theorem setInLines_cons {rest : List Char} (hl : l.EndsBefore rest) :
    setInLines version table (l :: ls) =
      match tableName? l.content with
      | some name => (setInLines version (some name) ls).map (l.chars :: ·) id
      | none =>
        match if table = some packageName then VersionLine.of? l.content else none with
        | some e => ((e.withVersion version ++ l.ending) :: ls.map Text.Line.chars, true)
        | none => (setInLines version table ls).map (l.chars :: ·) id := by
  have hblank : ∀ c ∈ l.ending, Text.isBlank c = true := fun c hc =>
    Text.isBlank_of_isLineBreak (hl.isLineBreak_of_mem hc)
  obtain ⟨front, back, hsplit, hending⟩ := splitEnding_eq hl
  have hquote : '"' ∉ front := fun hmem => by
    have hbreak := hblank '"' (hending ▸ List.mem_append_left _ hmem)
    cases hbreak
  have hheader : tableName? l.chars = tableName? l.content := tableName?_append hblank
  have hname : "package".toList = packageName := rfl
  rw [setInLines, hheader]
  cases tableName? l.content with
  | some name => rfl
  | none =>
    simp only [hsplit, versionLine_append hquote, hname]
    by_cases htable : table = some packageName
    · rw [if_pos htable, if_pos htable]
      cases VersionLine.of? l.content with
      | none => rfl
      | some e => simp [VersionLine.withVersion, ← hending]
    · rw [if_neg htable, if_neg htable]
      rfl

namespace Site

variable {p : Site}

theorem versionLine_entry (h : p.In table ls) :
    VersionLine.of? (p.entry.withVersion p.entry.version) = some p.entry :=
  versionLine_eq_some_iff.mpr ⟨h.opens, h.quoted, rfl⟩

/-- The site in the lines behind a line is the site in all of them, unless that line is a version line
of the package table itself. -/
theorem in_push_iff : (p.push l).In table (l :: ls) ↔
    p.In ((tableName? l.content).or table) ls ∧
      (table = some packageName → VersionLine.of? l.content = none) := by
  constructor
  · intro h
    refine ⟨⟨?_, h.opens, h.quoted, h.inside, fun front l' back habove hfront => ?_⟩, fun htable => ?_⟩
    · exact (List.cons.inj h.lines).2
    · exact h.first (l :: front) l' back (congrArg (l :: ·) habove) hfront
    · exact h.first [] l p.above rfl htable
  · rintro ⟨h, hfirst⟩
    refine ⟨congrArg (l :: ·) h.lines, h.opens, h.quoted, h.inside, fun front l' back habove hfront => ?_⟩
    have habove : l :: p.above = front ++ l' :: back := habove
    cases front with
    | nil =>
      obtain ⟨rfl, -⟩ := List.cons.inj habove
      exact hfirst hfront
    | cons first front =>
      obtain ⟨rfl, hrest⟩ := List.cons.inj habove
      exact h.first front l' back hrest hfront

/-- The site stays where it is when its version is set. -/
theorem In.updated (h : p.In table ls) (hversion : '"' ∉ version) :
    (p.updated version).In table (p.linesWith version) :=
  ⟨rfl, h.opens, hversion, h.inside, h.first⟩

end Site

variable {p : Site}

/-- The version is set at the site. -/
theorem setInLines_of_in (hls : ∀ l ∈ ls, ∃ rest, l.EndsBefore rest) (h : p.In table ls) :
    setInLines version table ls = ((p.linesWith version).map Text.Line.chars, true) := by
  induction ls generalizing table p with
  | nil => exact absurd h.lines.symm (List.append_ne_nil_of_right_ne_nil _ (List.cons_ne_nil _ _))
  | cons l ls ih =>
    obtain ⟨⟨rest, hl⟩, hls⟩ := List.forall_mem_cons.mp hls
    rw [setInLines_cons hl]
    obtain ⟨above, entry, ending, below⟩ := p
    cases above with
    | nil =>
      obtain ⟨rfl, rfl⟩ := List.cons.inj h.lines
      have hentry := Site.versionLine_entry h
      have hheader : tableName? (entry.withVersion entry.version) = none := by
        refine Option.eq_none_iff_forall_ne_some.mpr fun name hname => ?_
        rw [versionLine_of_tableName hname] at hentry
        cases hentry
      simp only [hheader, hentry, if_pos (show table = some packageName from h.inside)]
      rfl
    | cons first above =>
      obtain ⟨rfl, -⟩ := List.cons.inj h.lines
      obtain ⟨hrest, hfirst⟩ := Site.in_push_iff (p := ⟨above, entry, ending, below⟩).mp h
      cases hheader : tableName? l.content with
      | some name =>
        rw [hheader] at hrest
        have hset : setInLines version (some name) ls = _ := ih hls hrest
        simp only [hset]
        rfl
      | none =>
        rw [hheader] at hrest
        have hset : setInLines version table ls = _ := ih hls hrest
        have hentry : (if table = some packageName then VersionLine.of? l.content else none) = none := by
          split
          · rename_i htable
            exact hfirst htable
          · rfl
        simp only [hentry, hset]
        rfl

/-- Without a site no version is set. -/
theorem setInLines_of_not_in (hls : ∀ l ∈ ls, ∃ rest, l.EndsBefore rest)
    (h : ∀ p : Site, ¬ p.In table ls) :
    setInLines version table ls = (ls.map Text.Line.chars, false) := by
  induction ls generalizing table with
  | nil => rfl
  | cons l ls ih =>
    obtain ⟨⟨rest, hl⟩, hls⟩ := List.forall_mem_cons.mp hls
    rw [setInLines_cons hl]
    cases hheader : tableName? l.content with
    | some name =>
      have hrest (p : Site) : ¬ p.In (some name) ls := fun hp =>
        h (p.push l) (Site.in_push_iff.mpr ⟨by rwa [hheader], fun _ => versionLine_of_tableName hheader⟩)
      simp only [ih hls hrest]
      rfl
    | none =>
      cases hentry : if table = some packageName then VersionLine.of? l.content else none with
      | some e =>
        obtain ⟨htable, hentry⟩ := Option.ite_none_right_eq_some.mp hentry
        obtain ⟨hopens, hquoted, hcontent⟩ := versionLine_eq_some_iff.mp hentry
        refine absurd ⟨?_, hopens, hquoted, htable, ?_⟩ (h ⟨[], e, l.ending, ls⟩)
        · exact congrArg (· :: ls) (congrArg (Text.Line.mk · l.ending) hcontent)
        · exact fun front l' back habove => absurd habove.symm (by simp)
      | none =>
        have hrest (p : Site) : ¬ p.In table ls := by
          refine fun hp => h (p.push l) (Site.in_push_iff.mpr ⟨by rwa [hheader], fun htable => ?_⟩)
          rwa [if_pos htable] at hentry
        simp only [ih hls hrest]
        rfl

/-- The text has a version in its package table. -/
def HasVersion (text : String) : Prop := ∃ p : Site, p.In none (Text.lines text.toList)

theorem setVersion_of_in {text : String} (h : p.In none (Text.lines text.toList)) (version : String) :
    setVersion text version = (p.textWith version, true) := by
  rw [setVersion, setInLines_of_in (fun l hl => Text.exists_endsBefore_of_mem hl) h]
  rw [Site.textWith, List.flatMap_def]

theorem Site.textWith_eq {text : String} (h : p.In none (Text.lines text.toList)) (version : String) :
    p.textWith version = (setVersion text version).1 :=
  (congrArg Prod.fst (setVersion_of_in h version)).symm

theorem setVersion_of_not_hasVersion {text : String} (h : ¬ HasVersion text) (version : String) :
    setVersion text version = (text, false) := by
  have hnone : ∀ p : Site, ¬ p.In none (Text.lines text.toList) := fun p hp => h ⟨p, hp⟩
  rw [setVersion, setInLines_of_not_in (fun l hl => Text.exists_endsBefore_of_mem hl) hnone]
  simp only [← List.flatMap_def, Text.flatMap_lines, String.ofList_toList]

theorem setVersion_changed_iff {text version : String} :
    (setVersion text version).2 = true ↔ HasVersion text := by
  by_cases hversion : HasVersion text
  · have hsome := hversion
    obtain ⟨p, hp⟩ := hversion
    rw [setVersion_of_in hp]
    exact iff_of_true rfl hsome
  · rw [setVersion_of_not_hasVersion hversion]
    exact iff_of_false Bool.false_ne_true hversion

instance (text : String) : Decidable (HasVersion text) :=
  decidable_of_iff ((setVersion text "").2 = true) setVersion_changed_iff

/-- A manifest that has a version gets the given one in its place. -/
theorem sets_of_setVersion {text version updated : String}
    (h : setVersion text version = (updated, true)) :
    Sets version.toList text.toList updated.toList := by
  by_cases hversion : HasVersion text
  · obtain ⟨p, hp⟩ := hversion
    rw [setVersion_of_in hp] at h
    cases h
    refine ⟨p.above.flatMap Text.Line.chars, p.entry.before, p.entry.version,
      p.entry.after ++ p.ending ++ p.below.flatMap Text.Line.chars, hp.opens, ?_, ?_⟩
    · rw [← Text.flatMap_lines text.toList, hp.lines]
      simp [Site.linesWith, Text.Line.chars, VersionLine.withVersion]
    · simp [Site.textWith, Site.linesWith, Text.Line.chars, VersionLine.withVersion]
  · rw [setVersion_of_not_hasVersion hversion] at h
    cases h

/-- A version that fits between the quotes of a line. -/
def Quotable (version : String) : Prop :=
  ∀ c ∈ version.toList, c ≠ '"' ∧ Text.isLineBreak c = false

instance (version : String) : Decidable (Quotable version) :=
  List.decidableBAll (fun c => c ≠ '"' ∧ Text.isLineBreak c = false) version.toList

namespace Site

theorem eq_textWith {text : String} (h : p.In none (Text.lines text.toList)) :
    text = p.textWith (String.ofList p.entry.version) := by
  rw [textWith, String.toList_ofList, ← h.lines, Text.flatMap_lines, String.ofList_toList]

theorem lines_textWith {text version : String} (h : p.In none (Text.lines text.toList))
    (hversion : Quotable version) :
    Text.lines (p.textWith version).toList = p.linesWith version.toList := by
  have hmem : ⟨p.entry.withVersion p.entry.version, p.ending⟩ ∈ Text.lines text.toList := by
    rw [h.lines, linesWith]
    simp
  have hplain : ∀ c ∈ p.entry.withVersion version.toList, Text.isLineBreak c = false := by
    have hold : ∀ c ∈ p.entry.withVersion p.entry.version, Text.isLineBreak c = false :=
      fun c hc => Text.isLineBreak_of_mem_lines hmem hc
    simp only [VersionLine.withVersion, List.mem_append, List.mem_cons, or_imp, forall_and] at hold ⊢
    exact ⟨⟨hold.1.1, hold.1.2.1, fun c hc => (hversion c hc).2⟩, hold.2⟩
  have hne : p.entry.withVersion version.toList ≠ [] := by
    simp [VersionLine.withVersion]
  rw [textWith, String.toList_ofList]
  exact Text.lines_replace h.lines hplain hne

theorem in_textWith {text version : String} (h : p.In none (Text.lines text.toList))
    (hversion : Quotable version) :
    (p.updated version.toList).In none (Text.lines (p.textWith version).toList) := by
  rw [lines_textWith h hversion]
  exact h.updated fun hmem => (hversion _ hmem).1 rfl

end Site

/-- A manifest stays as it is, or its lines stay the same but for what stands between the first two
quotes of one of them. Whether and where that is does not depend on the version that is set, and the
version that is set last wins. -/
theorem setVersion_replaces_version (text : String) :
    ((∀ version, setVersion text version = (text, false)) ∨
      ∃ p : Site, p.In none (Text.lines text.toList) ∧
        text = p.textWith (String.ofList p.entry.version) ∧
        ∀ version, setVersion text version = (p.textWith version, true) ∧ (Quotable version →
          Text.lines (p.textWith version).toList = p.linesWith version.toList)) ∧
    (∀ version, (setVersion text version).2 = true ↔ HasVersion text) ∧
    ∀ version version', Quotable version →
      setVersion (setVersion text version).1 version' = setVersion text version' := by
  refine ⟨?_, fun _ => setVersion_changed_iff, fun version version' hquotable => ?_⟩
  · by_cases hversion : HasVersion text
    · obtain ⟨p, hp⟩ := hversion
      exact .inr ⟨p, hp, Site.eq_textWith hp, fun version => ⟨setVersion_of_in hp version,
        Site.lines_textWith hp⟩⟩
    · exact .inl (setVersion_of_not_hasVersion hversion)
  · by_cases hversion : HasVersion text
    · obtain ⟨p, hp⟩ := hversion
      rw [setVersion_of_in hp, setVersion_of_in hp,
        setVersion_of_in (Site.in_textWith hp hquotable)]
      rfl
    · rw [setVersion_of_not_hasVersion hversion version]

/-- A manifest with other versions around that of its package: in another table, without quotes, in a
comment and behind a line separator. -/
def crowdedManifest : String :=
  "[lib]\nversion = \"9\"\r\n [ package ]\t\nversion.workspace = true\u2028" ++
    "  version=\"0.9.0\" # was \"0.8.0\"\r\n[x]\nversion = \"1\""

theorem setVersion_of_crowdedManifest : Quotable "1.3.0" ∧
    (setVersion crowdedManifest "1.3.0").2 = true ∧
    setVersion (setVersion crowdedManifest "1.3.0").1 "2.0.0-a\"b" =
      ("[lib]\nversion = \"9\"\r\n [ package ]\t\nversion.workspace = true\u2028" ++
        "  version=\"2.0.0-a\"b\" # was \"0.8.0\"\r\n[x]\nversion = \"1\"", true) := by
  have hquotable : Quotable "1.3.0" := by decide
  refine ⟨hquotable, by decide +kernel, ?_⟩
  rw [(setVersion_replaces_version crowdedManifest).2.2 "1.3.0" "2.0.0-a\"b" hquotable]
  decide +kernel

end ReleasePipeline.Manifest
