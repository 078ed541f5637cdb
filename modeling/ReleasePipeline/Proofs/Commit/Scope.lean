import Mathlib.Data.List.Find
import ReleasePipeline.Commit.Notes
import ReleasePipeline.Proofs.Commit.Grammar
import ReleasePipeline.Proofs.Commit.Rule
import ReleasePipeline.Proofs.Text.Breaking
import ReleasePipeline.Proofs.Text.Trimmed

/-! Commits with parentheses in the header that hold nothing but blanks, and the same commits without
the parentheses: what the two have in common, and which rules tell them apart. -/
namespace ReleasePipeline

namespace Commit

open Text

variable {blanks front line rest : List Char} {message message' sha : String}

/-- The header of the first message has parentheses with nothing but blanks in them, and the second
message is the first one without these parentheses. -/
structure Unscoped (blanks : List Char) (message message' : String) : Prop where
  blank : ∀ c ∈ blanks, isBlank c = true ∧ isLineBreak c = false
  header : ∃ h, Header.Spells h (headline message).toList
  texts : ∃ front type rest, (∀ c ∈ front, isBlank c = true) ∧ type ≠ [] ∧
    (∀ c ∈ type, c.isAlpha = true) ∧
    message.toList = front ++ (type ++ '(' :: (blanks ++ [')']) ++ rest) ∧
    message'.toList = front ++ (type ++ rest)

theorem isBlank_of_isAlpha {c : Char} (h : c.isAlpha = true) : isBlank c = false := by
  change (decide (65 ≤ c.val ∧ c.val ≤ 90) ||
    (decide (97 ≤ c.val) && decide (c.val ≤ 122))) = true at h
  simp only [Bool.or_eq_true, Bool.and_eq_true, decide_eq_true_eq, UInt32.le_iff_toNat_le] at h
  change (65 ≤ c.toNat ∧ c.toNat ≤ 90) ∨ (97 ≤ c.toNat ∧ c.toNat ≤ 122) at h
  simp only [isBlank, Bool.or_eq_false_iff, Bool.and_eq_false_iff, decide_eq_false_iff_not,
    beq_eq_false_iff_ne, ne_eq]
  omega

theorem trimmed_of_letters {type : List Char} (hne : type ≠ [])
    (hletters : ∀ c ∈ type, c.isAlpha = true) : Trimmed type := by
  constructor
  · obtain ⟨c, rest, rfl⟩ := List.exists_cons_of_ne_nil hne
    exact ⟨c, rest, rfl, isBlank_of_isAlpha (hletters c List.mem_cons_self)⟩
  · obtain ⟨rest, c, hlast⟩ := (List.eq_nil_or_concat type).resolve_left hne
    rw [List.concat_eq_append] at hlast
    exact ⟨rest, c, hlast, isBlank_of_isAlpha (hletters c (by simp [hlast]))⟩

/-- What follows the beginning of a message decides on the rest of its first line and on the lines
after it. -/
theorem exists_rest_of_headline (rest : List Char) : ∃ tail later,
    ∀ {front line message}, (∀ c ∈ front, isBlank c = true) → Trimmed line →
      (∀ c ∈ line, isLineBreak c = false) → message.toList = front ++ (line ++ rest) →
      (headline message).toList = line ++ tail ∧ laterLines message = later := by
  have hstrip {front line message} (hfront : ∀ c ∈ front, isBlank c = true)
      (hline : Trimmed line) (hmessage : message.toList = front ++ (line ++ rest)) :
      messageLines message =
        (lines (line ++ dropEndWhile isBlank rest)).map fun l => String.ofList l.content := by
    rw [messageLines, lineTexts, strip, String.toList_ofList, hmessage,
      stripChars_blanks_append hfront, hline.stripChars_append_rest]
  cases hrest : lines (dropEndWhile isBlank rest) with
  | nil =>
    have hnil : dropEndWhile isBlank rest = [] := by
      by_contra hne
      exact lines_ne_nil hne hrest
    refine ⟨[], [], fun {front line message} hfront hline hplain hmessage => ?_⟩
    have hlines := hstrip hfront hline hmessage
    rw [hnil, List.append_nil, lines_plain hplain hline.ne_nil] at hlines
    have hself : stripChars line = line := by
      simpa using hline.stripChars_append (List.forall_mem_nil _)
    constructor
    · rw [headline, hlines]
      simp [strip, hself]
    · rw [laterLines, hlines]
      rfl
  | cons first later =>
    refine ⟨dropEndWhile isBlank first.content, later.map fun l => String.ofList l.content,
      fun {front line message} hfront hline hplain hmessage => ?_⟩
    have hlines := hstrip hfront hline hmessage
    rw [lines_content_append hplain hrest] at hlines
    constructor
    · rw [headline, hlines]
      simp [strip, hline.stripChars_append_rest]
    · rw [laterLines, hlines]
      rfl

/-- The two headers have the same parts but for the scope, and the same lines follow them. -/
theorem Unscoped.exists_header (h : Unscoped blanks message message') :
    ∃ parts, Header.read? (headline message).toList = some parts ∧ parts.scope = some blanks ∧
      Header.read? (headline message').toList = some { parts with scope := none } ∧
      laterLines message' = laterLines message := by
  obtain ⟨parts, hspells⟩ := h.header
  obtain ⟨front, type, rest, hfront, hne, hletters, hmessage, hmessage'⟩ := h.texts
  obtain ⟨tail, later, hrest⟩ := exists_rest_of_headline rest
  have htype := trimmed_of_letters hne hletters
  have hplain : ∀ c ∈ type, isLineBreak c = false :=
    fun c hc => isLineBreak_eq_false (isBlank_of_isAlpha (hletters c hc))
  have hparens : Trimmed (type ++ '(' :: (blanks ++ [')'])) := by
    obtain ⟨c, more, rfl, hc⟩ := htype.front
    exact ⟨⟨c, _, List.cons_append, hc⟩, c :: more ++ '(' :: blanks, ')', by simp, rfl⟩
  have hparensPlain : ∀ c ∈ type ++ '(' :: (blanks ++ [')']), isLineBreak c = false := by
    intro c hc
    simp only [List.mem_append, List.mem_cons, List.not_mem_nil, or_false] at hc
    rcases hc with hc | rfl | hc | rfl
    · exact hplain c hc
    · rfl
    · exact (h.blank c hc).2
    · rfl
  obtain ⟨hline, hlater⟩ := hrest hfront hparens hparensPlain hmessage
  obtain ⟨hline', hlater'⟩ := hrest hfront htype hplain hmessage'
  have hread := Header.read?_of_spells hspells fun c hc => isLineBreak_of_mem_headline hc
  have hscope : ∀ c ∈ blanks, Header.isScopeChar c = true := by
    intro c hc
    obtain ⟨hblank, hbreak⟩ := h.blank c hc
    have hne (d : Char) (hd : isBlank d = false ∨ isLineBreak d = true) : c ≠ d := by
      rintro rfl
      rcases hd with hd | hd <;> simp_all
    simp [Header.isScopeChar, hne '(' (.inl rfl), hne ')' (.inl rfl), hne '\r' (.inr rfl),
      hne '\n' (.inr rfl)]
  have htail : Header.readTail? type (some blanks) tail = some parts := by
    rw [← Header.read?_append_paren hne hletters hscope tail, ← hread, hline]
    simp
  obtain ⟨hpartsType, hpartsScope, hsubject, -, htailChars⟩ := Header.readTail?_eq_some_iff.mp htail
  have hspells' : Header.Spells { parts with scope := none } (headline message').toList :=
    ⟨hspells.type_ne, hspells.letters, by simp, hsubject, by
      rw [hline', htailChars, Header.chars, hpartsType]
      rfl⟩
  exact ⟨parts, hread, hpartsScope,
    Header.read?_of_spells hspells' fun c hc => isLineBreak_of_mem_headline hc,
    hlater'.trans hlater.symm⟩

theorem ofMessage_text (sha message : String) :
    (ofMessage sha message).sha = sha ∧ (ofMessage sha message).message = message := by
  delta ofMessage
  dsimp only
  split <;> exact ⟨rfl, rfl⟩

/-- The commit with another message and no scope. -/
def unscoped (c : Commit) (message' : String) : Commit := { c with message := message', scope := none }

/-- Without the parentheses a commit differs in its scope at most, which is none instead of an empty
text. -/
theorem Unscoped.ofMessage_eq (h : Unscoped blanks message message') (sha : String) :
    ofMessage sha message' = (ofMessage sha message).unscoped message' ∧
      (ofMessage sha message).scope = if blanks = [] then none else some "" := by
  obtain ⟨parts, hread, hscope, hread', hlater⟩ := h.exists_header
  obtain ⟨htype, hscope₁, hsubject, hbreaking⟩ := ofMessage_of_some sha hread
  obtain ⟨htype', hscope', hsubject', hbreaking'⟩ := ofMessage_of_some sha hread'
  have hnote := ofMessage_note sha message
  have hnote' := ofMessage_note sha message'
  obtain ⟨hsha, -⟩ := ofMessage_text sha message
  obtain ⟨hsha', hmessage'⟩ := ofMessage_text sha message'
  rw [hlater] at hbreaking' hnote'
  constructor
  · generalize ofMessage sha message = c at *
    generalize ofMessage sha message' = c' at *
    cases c
    cases c'
    simp_all [unscoped]
  · have hstrip : stripChars blanks = [] := stripChars_eq_nil_iff.mpr fun c hc => (h.blank c hc).1
    rw [hscope₁, hscope]
    by_cases hnil : blanks = []
    · simp [hnil]
    · simp [hnil, hstrip]

end Commit

namespace Rule

variable {t : Table} {c : Commit} {message' : String}

/-- The conditions of the table on type and breaking hold of the commit. -/
structure HoldsBesides (t : Table) (c : Commit) : Prop where
  type : ∀ v, t.get? "type" = some v → v.bare = textValue c.type
  breaking : ∀ v, t.get? "breaking" = some v → v.bare.numeric = .int c.breaking.toNat

/-- The condition of the table on the scope holds. -/
structure HoldsOfScope (t : Table) (scope : Option String) : Prop where
  any : t.get? "scope" = some (.string "*") → scope ≠ none
  same : ∀ v, t.get? "scope" = some v → v ≠ .string "*" → v.bare = textValue scope

/-- The table asks for any scope, for the empty text or for null as the scope. -/
def TellsScopes (t : Table) : Prop :=
  ∃ v, t.get? "scope" = some v ∧ (v = .string "*" ∨ v.bare = .string "" ∨ v.bare = .null)

theorem holds_iff_of_scope : Holds t c ↔ HoldsBesides t c ∧ HoldsOfScope t c.scope :=
  ⟨fun h => ⟨⟨h.type, h.breaking⟩, h.anyScope, h.scope⟩,
    fun h => ⟨h.1.type, h.2.any, h.2.same, h.1.breaking⟩⟩

/-- Other conditions hold of the empty scope and of none alike. -/
theorem holdsOfScope_iff : (HoldsOfScope t (some "") ↔ HoldsOfScope t none) ↔ ¬ TellsScopes t := by
  cases hscope : t.get? "scope" with
  | none =>
    have hall (scope : Option String) : HoldsOfScope t scope :=
      ⟨fun h => (nomatch hscope.symm.trans h), fun v h => (nomatch hscope.symm.trans h)⟩
    have hnot : ¬ TellsScopes t := fun ⟨v, h, _⟩ => nomatch hscope.symm.trans h
    exact iff_of_true (iff_of_true (hall _) (hall _)) hnot
  | some v =>
    have hof (scope : Option String) : HoldsOfScope t scope ↔
        (v = .string "*" → scope ≠ none) ∧ (v ≠ .string "*" → v.bare = textValue scope) := by
      constructor
      · rintro ⟨hany, hrest⟩
        exact ⟨fun h => hany (h ▸ hscope), hrest v hscope⟩
      · rintro ⟨hany, hrest⟩
        refine ⟨fun h => hany (Option.some.inj (hscope.symm.trans h)), fun w h => ?_⟩
        obtain rfl := Option.some.inj (hscope.symm.trans h)
        exact hrest
    have htells : TellsScopes t ↔ v = .string "*" ∨ v.bare = .string "" ∨ v.bare = .null := by
      simp [TellsScopes, hscope]
    by_cases hstar : v = .string "*"
    · simp [hof, htells, hstar]
    · have hplain (scope : Option String) : HoldsOfScope t scope ↔ v.bare = textValue scope := by
        simp [hof, hstar]
      rw [hplain, hplain, htells]
      cases hbare : v.bare <;> simp [textValue, hstar]

theorem holds_unscoped : Holds t (c.unscoped message') ↔
    HoldsBesides t c ∧ HoldsOfScope t none := by
  rw [holds_iff_of_scope]
  exact and_congr_left' ⟨fun h => ⟨h.type, h.breaking⟩, fun h => ⟨h.type, h.breaking⟩⟩

end Rule

namespace Notes

variable {c : Commit} {message' : String}

/-- In the notes an empty scope is no scope. -/
theorem entry_unscoped (hscope : c.scope = none ∨ c.scope = some "") :
    entry (c.unscoped message') = entry c := by
  funext subject
  rcases hscope with hscope | hscope <;> simp only [entry, Commit.unscoped, hscope] <;> rfl

theorem render_unscoped (hscope : c.scope = none ∨ c.scope = some "") (types : List NoteType)
    (before after : List Commit) (r : Release) :
    render types (before ++ c.unscoped message' :: after) r =
      render types (before ++ c :: after) r := by
  have hentry : entry (c.unscoped message') = entry c := entry_unscoped hscope
  have hbreaking : breakingEntry (c.unscoped message') = breakingEntry c := congrFun hentry _
  have hheading : headingOf? types (c.unscoped message') = headingOf? types c := rfl
  have hsubject : (c.unscoped message').subject = c.subject := rfl
  have hbreaks : (c.unscoped message').breaking = c.breaking := rfl
  have hunder (heading : String) : entriesUnder types (before ++ c.unscoped message' :: after) heading =
      entriesUnder types (before ++ c :: after) heading := by
    simp only [entriesUnder, List.filter_append, List.filter_cons, hheading, List.map_append]
    split <;> simp only [List.map_cons, hentry, hsubject]
  have hlines : lines types (before ++ c.unscoped message' :: after) r =
      lines types (before ++ c :: after) r := by
    simp only [lines, hunder, List.filter_append, List.filter_cons, hbreaks, List.map_append]
    split <;> simp only [List.map_cons, hbreaking]
  rw [render, render, hlines]

end Notes

namespace Commit

variable {blanks : List Char} {message message' : String} {ts : List Table} {c : Commit}

/-- The rule asks for one of the scopes that tell the commit from the same one without a scope, and
its other conditions hold of both. -/
def ToldApart (blanks : List Char) (t : Table) (c : Commit) : Prop :=
  blanks ≠ [] ∧ Rule.TellsScopes t ∧ Rule.HoldsBesides t c

theorem holds_iff_unscoped (hscope : c.scope = if blanks = [] then none else some "") (t : Table) :
    (Rule.Holds t c ↔ Rule.Holds t (c.unscoped message')) ↔ ¬ ToldApart blanks t c := by
  rw [Rule.holds_unscoped, Rule.holds_iff_of_scope, hscope, and_congr_right_iff, ToldApart]
  by_cases hnil : blanks = []
  · simp [hnil]
  · rw [if_neg hnil, Rule.holdsOfScope_iff]
    tauto

/-- Rules that hold of both commits or of none decide on the same release for them. -/
theorem bump_unscoped (h : ∀ t ∈ ts, Rule.Holds t c ↔ Rule.Holds t (c.unscoped message')) :
    bump (ts.map Rule.ofTable) (c.unscoped message') = bump (ts.map Rule.ofTable) c := by
  have hfind : ts.find? (fun t => (Rule.ofTable t).applies (c.unscoped message')) =
      ts.find? fun t => (Rule.ofTable t).applies c := by
    refine List.find?_congr fun t ht => ?_
    rw [Bool.eq_iff_iff, Rule.applies_ofTable_iff, Rule.applies_ofTable_iff]
    exact (h t ht).symm
  rw [bump, bump, find?_ofTable, find?_ofTable, hfind]
  rfl

/-- A commit with blanks in the parentheses of its header is the same commit as without them, but its
scope is an empty text instead of none. The notes show no difference. A release rule sees one exactly
if it asks for the scope `*`, the empty text or null and holds otherwise, and without such a rule both
commits get the same release. -/
theorem blank_scope_shown (h : Unscoped blanks message message') (sha : String) :
    let c := ofMessage sha message
    let c' := ofMessage sha message'
    c' = c.unscoped message' ∧ c.scope = (if blanks = [] then none else some "") ∧
    (∀ v ts, Rule.tables v = .ok ts →
      (∀ t ∈ ts, (Rule.Holds t c ↔ Rule.Holds t c') ↔ ¬ ToldApart blanks t c) ∧
      ((∀ t ∈ ts, ¬ ToldApart blanks t c) → kind ts c' = kind ts c ∧
        bump (ts.map Rule.ofTable) c' = bump (ts.map Rule.ofTable) c)) ∧
    ∀ v types, NoteType.listOf v = .ok types → ∀ before after r,
      Notes.render types (before ++ c' :: after) r = Notes.render types (before ++ c :: after) r := by
  obtain ⟨hc', hscope⟩ := h.ofMessage_eq sha
  generalize ofMessage sha message = c at hc' hscope
  rw [hc']
  have hholds (t : Table) : (Rule.Holds t c ↔ Rule.Holds t (c.unscoped message')) ↔
      ¬ ToldApart blanks t c := holds_iff_unscoped hscope t
  refine ⟨rfl, hscope, fun v ts hts => ⟨fun t _ => hholds t, fun hall => ?_⟩, ?_⟩
  · have hbump := bump_unscoped fun t ht => (hholds t).mpr (hall t ht)
    exact ⟨by rw [kind_of_tables hts, kind_of_tables hts, hbump], hbump⟩
  · intro v types _ before after r
    refine Notes.render_unscoped ?_ types before after r
    rw [hscope]
    split
    · exact .inl rfl
    · exact .inr rfl

/-- A breaking change with a tabulator in its parentheses, between blank lines. -/
theorem unscoped_of_tabulator :
    Unscoped ['\t', ' '] "\n feat(\t )!: drop it\n\nBREAKING CHANGE: gone\n"
      "\n feat!: drop it\n\nBREAKING CHANGE: gone\n" where
  blank := List.forall_mem_cons.mpr ⟨⟨rfl, rfl⟩, List.forall_mem_singleton.mpr ⟨rfl, rfl⟩⟩
  header := ⟨⟨"feat".toList, some ['\t', ' '], true, "drop it".toList⟩,
    Header.spells_of_read? (by decide +kernel)⟩
  texts := ⟨"\n ".toList, "feat".toList, "!: drop it\n\nBREAKING CHANGE: gone\n".toList,
    List.all_eq_true.mp rfl, by simp, List.all_eq_true.mp rfl, by decide, by decide⟩

theorem release_of_tabulator :
    let t := Table.ofNames [("type", .string "feat"), ("scope", .string "ui"), ("release", .bool false)]
    let c := ofMessage "1" "\n feat(\t )!: drop it\n\nBREAKING CHANGE: gone\n"
    let c' := ofMessage "1" "\n feat!: drop it\n\nBREAKING CHANGE: gone\n"
    Rule.tables (.list [.table t]) = .ok [t] ∧ c.scope = some "" ∧ kind [t] c' = kind [t] c := by
  intro t c c'
  have htables : Rule.tables (.list [.table t]) = .ok [t] := rfl
  obtain ⟨-, hscope, hrules, -⟩ := blank_scope_shown unscoped_of_tabulator "1"
  have hapart (u : Table) (hu : u ∈ [t]) : ¬ ToldApart ['\t', ' '] u c := by
    rintro ⟨-, ⟨v, hv, hasked⟩, -⟩
    obtain rfl := List.mem_singleton.mp hu
    obtain rfl : Value.string "ui" = v := Option.some.inj hv
    simp [Value.bare] at hasked
  exact ⟨htables, hscope, ((hrules _ _ htables).2 hapart).1⟩

/-- A rule for features of any scope takes the blank in parentheses for a scope. -/
theorem blank_taken_for_scope :
    let t := Table.ofNames [("type", .string "feat"), ("scope", .string "*"), ("release", .bool false)]
    let c := ofMessage "1" "feat( ): x"
    let c' := ofMessage "1" "feat: x"
    Unscoped [' '] "feat( ): x" "feat: x" ∧ Rule.tables (.list [.table t]) = .ok [t] ∧
      c.scope = some "" ∧ c'.scope = none ∧ (Rule.ofTable t).applies c = true ∧
      (Rule.ofTable t).applies c' = false ∧ bump [Rule.ofTable t] c = none ∧
      bump [Rule.ofTable t] c' = some .minor := by
  intro t c c'
  refine ⟨⟨List.forall_mem_singleton.mpr ⟨rfl, rfl⟩, ?_, ?_⟩, rfl, by decide +kernel, by decide +kernel,
    by decide +kernel, by decide +kernel, by decide +kernel, by decide +kernel⟩
  · exact ⟨⟨"feat".toList, some [' '], false, ['x']⟩, Header.spells_of_read? (by decide +kernel)⟩
  · exact ⟨[], "feat".toList, ": x".toList, List.all_eq_true.mp rfl, by simp, List.all_eq_true.mp rfl,
      by decide, by decide⟩

end Commit

end ReleasePipeline
