import ReleasePipeline.Commit.Basic
import ReleasePipeline.Proofs.Text.Breaking
import ReleasePipeline.Proofs.Text.Search
import ReleasePipeline.Proofs.Text.Trimmed

/-! A commit tells what the lines of its message spell: a header in its parts, and footers. -/
namespace ReleasePipeline.Commit

open Text

namespace Header

variable {type cs : List Char} {scope : Option (List Char)} {h : Header}

/-- The scope of a header in its parentheses. -/
def scopeChars : Option (List Char) → List Char
  | none => []
  | some s => '(' :: s ++ [')']

/-- The mark of a breaking change in a header. -/
def bangChars (bang : Bool) : List Char := if bang then ['!'] else []

/-- The line that is a header with these parts. -/
def chars (h : Header) : List Char :=
  h.type ++ (scopeChars h.scope ++ (bangChars h.bang ++ ':' :: ' ' :: h.subject))

/-- The line is a header, and these are its parts. -/
structure Spells (h : Header) (cs : List Char) : Prop where
  type_ne : h.type ≠ []
  letters : ∀ c ∈ h.type, c.isAlpha = true
  scope : ∀ s, h.scope = some s → '(' ∉ s ∧ ')' ∉ s
  subject_ne : h.subject ≠ []
  line : cs = h.chars

/-- Behind type and scope a line goes on with the other parts of a header, or is none. -/
theorem readTail?_eq_some_iff : readTail? type scope cs = some h ↔
    h.type = type ∧ h.scope = scope ∧ h.subject ≠ [] ∧ '\n' ∉ h.subject ∧
      cs = bangChars h.bang ++ ':' :: ' ' :: h.subject := by
  constructor
  · intro hread
    unfold readTail? at hread
    split at hread
    rename_i bang rest hbang
    have hcs : cs = bangChars bang ++ rest := by
      split at hbang <;> cases hbang <;> rfl
    split at hread
    · split at hread
      · cases hread
      · rename_i hsubject
        cases hread
        simp only [Bool.or_eq_true, List.isEmpty_iff, List.contains_iff_mem, not_or] at hsubject
        exact ⟨rfl, rfl, hsubject.1, hsubject.2, hcs⟩
    · cases hread
  · obtain ⟨type', scope', bang, subject⟩ := h
    rintro ⟨rfl, rfl, hne, hfeed, rfl⟩
    have hplain : ¬ (subject.isEmpty || subject.contains '\n') = true := by simp [hne, hfeed]
    cases bang with
    | false => exact if_neg hplain
    | true => exact if_neg hplain

/-- What is read as a header is one. -/
theorem spells_of_read? (hread : read? cs = some h) : h.Spells cs := by
  have hcs := (List.takeWhile_append_dropWhile (p := Char.isAlpha) (l := cs)).symm
  have hletters : ∀ c ∈ cs.takeWhile Char.isAlpha, c.isAlpha = true :=
    fun c hc => List.mem_takeWhile_imp hc
  unfold read? at hread
  simp only at hread
  split at hread
  · cases hread
  rename_i hne
  rw [List.isEmpty_iff] at hne
  split at hread
  · rename_i rest hrest
    split at hread
    · rename_i after hafter
      obtain ⟨htype, hscope, hsubject, -, htail⟩ := readTail?_eq_some_iff.mp hread
      have hparens := (List.takeWhile_append_dropWhile (p := isScopeChar) (l := rest)).symm
      refine ⟨htype ▸ hne, htype ▸ hletters, ?_, hsubject, ?_⟩
      · intro s hs
        obtain rfl : rest.takeWhile isScopeChar = s := by simpa [hscope] using hs
        have hplain : ∀ c ∈ rest.takeWhile isScopeChar, isScopeChar c = true :=
          fun c hc => List.mem_takeWhile_imp hc
        exact ⟨fun hopen => absurd (hplain _ hopen) (by decide),
          fun hclose => absurd (hplain _ hclose) (by decide)⟩
      · rw [hrest, hparens, hafter, htail] at hcs
        rw [hcs, chars, htype, hscope]
        simp [scopeChars]
    · cases hread
  · obtain ⟨htype, hscope, hsubject, -, htail⟩ := readTail?_eq_some_iff.mp hread
    refine ⟨htype ▸ hne, htype ▸ hletters, ?_, hsubject, ?_⟩
    · intro s hs
      rw [hscope] at hs
      cases hs
    · rw [htail] at hcs
      rw [hcs, chars, htype, hscope]
      rfl

theorem read?_append_of_ne {c : Char} (hne : type ≠ []) (hletters : ∀ d ∈ type, d.isAlpha = true)
    (hc : c.isAlpha = false) (hparen : c ≠ '(') (rest : List Char) :
    read? (type ++ c :: rest) = readTail? type none (c :: rest) := by
  obtain ⟨htake, hdrop⟩ := span_append_cons hletters hc rest
  have hsome : ¬ type.isEmpty = true := by simpa using hne
  unfold read?
  simp only [htake, hdrop]
  rw [if_neg hsome]
  split
  · rename_i heq
    exact absurd (List.cons.inj heq).1 hparen
  · rfl

theorem read?_append_paren {s : List Char} (hne : type ≠ [])
    (hletters : ∀ d ∈ type, d.isAlpha = true) (hs : ∀ d ∈ s, isScopeChar d = true)
    (rest : List Char) :
    read? (type ++ '(' :: (s ++ ')' :: rest)) = readTail? type (some s) rest := by
  obtain ⟨htake, hdrop⟩ := span_append_cons hletters (c := '(') rfl (s ++ ')' :: rest)
  obtain ⟨htakeScope, hdropScope⟩ := span_append_cons hs (c := ')') rfl rest
  have hsome : ¬ type.isEmpty = true := by simpa using hne
  unfold read?
  simp only [htake, hdrop, htakeScope, hdropScope]
  rw [if_neg hsome]

/-- A header on a line of its own is read part by part. -/
theorem read?_of_spells (hspells : h.Spells cs) (hbreak : ∀ c ∈ cs, isLineBreak c = false) :
    read? cs = some h := by
  obtain ⟨type, scope, bang, subject⟩ := h
  obtain ⟨htype, hletters, hscope, hsubject, rfl⟩ := hspells
  have hfeed : '\n' ∉ subject := by
    intro hmem
    have hplain := hbreak '\n' (by simp [chars, hmem])
    exact absurd hplain (by decide)
  have htail (scope : Option (List Char)) :
      readTail? type scope (bangChars bang ++ ':' :: ' ' :: subject) =
        some ⟨type, scope, bang, subject⟩ :=
    readTail?_eq_some_iff.mpr ⟨rfl, rfl, hsubject, hfeed, rfl⟩
  cases scope with
  | none =>
    cases bang with
    | false =>
      exact (read?_append_of_ne htype hletters (c := ':') rfl (by decide) _).trans (htail none)
    | true =>
      exact (read?_append_of_ne htype hletters (c := '!') rfl (by decide) _).trans (htail none)
  | some s =>
    have hline : chars ⟨type, some s, bang, subject⟩ =
        type ++ '(' :: (s ++ ')' :: (bangChars bang ++ ':' :: ' ' :: subject)) := by
      simp [chars, scopeChars]
    have hs : ∀ c ∈ s, isScopeChar c = true := by
      intro c hc
      obtain ⟨hopen, hclose⟩ := hscope s rfl
      have hplain := hbreak c (by simp [hline, hc])
      have hreturn : c ≠ '\r' := by
        rintro rfl
        exact absurd hplain (by decide)
      have hnewline : c ≠ '\n' := by
        rintro rfl
        exact absurd hplain (by decide)
      simp [isScopeChar, ne_of_mem_of_not_mem hc hopen, ne_of_mem_of_not_mem hc hclose, hreturn,
        hnewline]
    rw [hline, read?_append_paren htype hletters hs]
    exact htail (some s)

end Header

variable {line text sha message : String} {lines : List String}

/-- The lines of a message without the blanks around it. -/
def messageLines (message : String) : List String := lineTexts (strip message)

/-- The first line of a message, without the blanks around it. -/
def headline (message : String) : String := strip ((messageLines message).head?.getD "")

/-- The lines of a message behind the first one. -/
def laterLines (message : String) : List String := (messageLines message).drop 1

/-- Without the blanks around it the message consists of a first line, which stands between blanks, and
later ones. -/
def Consists (message first : String) (later : List String) : Prop :=
  ∃ text ls, Strips message text ∧ HasLines text.toList ls ∧
    Strips (String.ofList ((ls.head?.map Line.content).getD [])) first ∧
    later = ls.tail.map fun l => String.ofList l.content

theorem consists (message : String) : Consists message (headline message) (laterLines message) := by
  refine ⟨_, _, strips_iff.mpr rfl, hasLines_iff.mpr rfl, strips_iff.mpr ?_, ?_⟩
  · rw [headline, messageLines, lineTexts, List.head?_map]
    cases (lines (strip message).toList).head? <;> rfl
  · rw [laterLines, messageLines, lineTexts, List.drop_one, List.map_tail]

/-- The line begins with the mark of a breaking change, with this text behind it. -/
def Footer (line text : String) : Prop :=
  line = "BREAKING CHANGE:" ++ text ∨ line = "BREAKING-CHANGE:" ++ text

/-- The first footer among the lines has this text. -/
def FirstFooter (lines : List String) (text : String) : Prop :=
  ∃ before line after, lines = before ++ line :: after ∧ Footer line text ∧
    ∀ l ∈ before, ∀ t, ¬ Footer l t

theorem dropStart?_toList {start : String} :
    dropStart? start.toList line.toList = some text.toList ↔ line = start ++ text := by
  rw [dropStart?_eq_some_iff, ← String.toList_append, String.toList_inj]

theorem breakingText?_eq_some_iff {note : String} :
    breakingText? line = some note ↔ ∃ text, Footer line text ∧ strip text = note := by
  constructor
  · intro hsome
    obtain ⟨rest, hrest, hnote⟩ := Option.bind_eq_some_iff.mp hsome
    rw [← String.toList_ofList (l := rest)] at hrest
    refine ⟨String.ofList rest, ?_, Option.some.inj hnote⟩
    rcases Option.or_eq_some_iff.mp hrest with hblank | ⟨-, hhyphen⟩
    · exact .inl (dropStart?_toList.mp hblank)
    · exact .inr (dropStart?_toList.mp hhyphen)
  · rintro ⟨text, hfooter, rfl⟩
    refine Option.bind_eq_some_iff.mpr ⟨text.toList, ?_, by rw [String.ofList_toList]; rfl⟩
    rcases hfooter with rfl | rfl
    · exact Option.or_eq_some_iff.mpr (.inl (dropStart?_toList.mpr rfl))
    · refine Option.or_eq_some_iff.mpr (.inr ⟨?_, dropStart?_toList.mpr rfl⟩)
      rw [String.toList_append]
      rfl

theorem breakingText?_eq_none_iff : breakingText? line = none ↔ ∀ text, ¬ Footer line text := by
  rw [Option.eq_none_iff_forall_ne_some]
  constructor
  · intro hnone text hfooter
    exact hnone _ (breakingText?_eq_some_iff.mpr ⟨text, hfooter, rfl⟩)
  · intro hnone note hsome
    obtain ⟨text, hfooter, -⟩ := breakingText?_eq_some_iff.mp hsome
    exact hnone text hfooter

theorem findSome?_breakingText?_eq_some_iff {note : String} :
    lines.findSome? breakingText? = some note ↔
      ∃ text, FirstFooter lines text ∧ strip text = note := by
  rw [List.findSome?_eq_some_iff]
  constructor
  · rintro ⟨before, line, after, hlines, hline, hbefore⟩
    obtain ⟨text, hfooter, hnote⟩ := breakingText?_eq_some_iff.mp hline
    exact ⟨text, ⟨before, line, after, hlines, hfooter,
      fun l hl => breakingText?_eq_none_iff.mp (hbefore l hl)⟩, hnote⟩
  · rintro ⟨text, ⟨before, line, after, hlines, hfooter, hbefore⟩, hnote⟩
    exact ⟨before, line, after, hlines, breakingText?_eq_some_iff.mpr ⟨text, hfooter, hnote⟩,
      fun l hl => breakingText?_eq_none_iff.mpr (hbefore l hl)⟩

theorem isSome_findSome?_breakingText? (lines : List String) :
    (lines.findSome? breakingText?).isSome ↔ ∃ l ∈ lines, ∃ text, Footer l text := by
  constructor
  · intro hsome
    obtain ⟨note, hnote⟩ := Option.isSome_iff_exists.mp hsome
    obtain ⟨text, ⟨before, line, after, rfl, hfooter, -⟩, -⟩ :=
      findSome?_breakingText?_eq_some_iff.mp hnote
    exact ⟨line, by simp, text, hfooter⟩
  · rintro ⟨line, hline, text, hfooter⟩
    rw [List.isSome_findSome?, List.any_eq_true]
    exact ⟨line, hline, by rw [breakingText?_eq_some_iff.mpr ⟨text, hfooter, rfl⟩]; rfl⟩

theorem isLineBreak_of_mem_headline {c : Char} (hc : c ∈ (headline message).toList) :
    isLineBreak c = false := by
  rw [headline, strip, String.toList_ofList] at hc
  have hmem := mem_of_mem_stripChars hc
  cases hlines : lineTexts (strip message) with
  | nil => simp [messageLines, hlines] at hmem
  | cons first more =>
    rw [messageLines, hlines, List.head?_cons, Option.getD_some] at hmem
    have hfirst : first ∈ lineTexts (strip message) := hlines ▸ List.mem_cons_self
    obtain ⟨l, hl, rfl⟩ := List.mem_map.mp hfirst
    rw [String.toList_ofList] at hmem
    exact isLineBreak_of_mem_lines hl hmem

/-- The subject of a stripped line ends in what is no blank, so it is more than blanks. -/
theorem strip_subject_ne {h : Header} {s : String} (hspells : h.Spells (strip s).toList) :
    strip (String.ofList h.subject) ≠ "" := by
  obtain ⟨last, hlast⟩ := Option.isSome_iff_exists.mp (List.getLast?_isSome.mpr hspells.subject_ne)
  have hend : (strip s).toList.getLast? = some last := by
    rw [hspells.line, Header.chars]
    simp [List.getLast?_append, List.getLast?_cons, hlast]
  have hblank : isBlank last = false := by
    rw [strip, String.toList_ofList] at hend
    exact getLast?_dropEndWhile hend
  intro hempty
  rw [strip, String.toList_ofList, String.ofList_eq_empty_iff, stripChars_eq_nil_iff] at hempty
  rw [hempty last (List.mem_of_getLast? hlast)] at hblank
  cases hblank

theorem ofMessage_note (sha message : String) : (ofMessage sha message).note =
    ((laterLines message).findSome? breakingText?).bind nonEmpty? := by
  delta ofMessage laterLines messageLines
  dsimp only
  generalize ((lineTexts (strip message)).drop 1).findSome? breakingText? = footer
  split <;> rfl

theorem ofMessage_of_none (sha : String) (hread : Header.read? (headline message).toList = none) :
    let c := ofMessage sha message
    c.type = none ∧ c.scope = none ∧ c.subject = headline message ∧
      c.breaking = ((laterLines message).findSome? breakingText?).isSome := by
  delta headline messageLines at hread
  delta ofMessage headline laterLines messageLines
  dsimp only
  generalize ((lineTexts (strip message)).drop 1).findSome? breakingText? = footer
  simp only [hread]
  exact ⟨trivial, trivial, trivial, trivial⟩

theorem ofMessage_of_some (sha : String) {h : Header}
    (hread : Header.read? (headline message).toList = some h) :
    let c := ofMessage sha message
    c.type = some (lowerAscii (String.ofList h.type)) ∧
      c.scope = (h.scope.filter fun s => !s.isEmpty).map (fun s => String.ofList (stripChars s)) ∧
      c.subject = strip (String.ofList h.subject) ∧
      c.breaking = (h.bang || ((laterLines message).findSome? breakingText?).isSome) := by
  delta headline messageLines at hread
  delta ofMessage laterLines messageLines
  dsimp only
  generalize ((lineTexts (strip message)).drop 1).findSome? breakingText? = footer
  simp only [hread]
  exact ⟨trivial, trivial, trivial, trivial⟩

/-- A message is read by its grammar. The first line gives type, scope and subject exactly when it
is a header, which it is in one way at most, and is the subject itself otherwise. The exclamation
mark of the header or a footer on a later line makes the commit a breaking one, and the first
footer holds its note. -/
theorem ofMessage_reads_grammar (sha message : String) :
    let c := ofMessage sha message
    let line := (headline message).toList
    Consists message (headline message) (laterLines message) ∧
    (c.type.isSome ↔ ∃ h, Header.Spells h line) ∧
    (∀ h h', Header.Spells h line → Header.Spells h' line → h = h') ∧
    (∀ h, Header.Spells h line →
      c.type = some (String.ofList (h.type.map Char.toLower)) ∧
      c.subject = strip (String.ofList h.subject) ∧ c.subject ≠ "" ∧
      (∀ s, h.scope = some s → s ≠ [] → c.scope = some (strip (String.ofList s))) ∧
      (h.scope = none ∨ h.scope = some [] → c.scope = none)) ∧
    ((∀ h, ¬ Header.Spells h line) →
      c.type = none ∧ c.scope = none ∧ c.subject = headline message) ∧
    (c.breaking = true ↔ (∃ h, Header.Spells h line ∧ h.bang = true) ∨
      ∃ l ∈ laterLines message, ∃ text, Footer l text) ∧
    (∀ text, FirstFooter (laterLines message) text →
      c.note = if strip text = "" then none else some (strip text)) ∧
    ((∀ l ∈ laterLines message, ∀ text, ¬ Footer l text) → c.note = none) := by
  intro c line
  have hread {h : Header} : Header.read? line = some h ↔ h.Spells line :=
    ⟨Header.spells_of_read?, fun hspells =>
      Header.read?_of_spells hspells fun d hd => isLineBreak_of_mem_headline hd⟩
  have hunique (h h' : Header) (h₁ : h.Spells line) (h₂ : h'.Spells line) : h = h' :=
    Option.some.inj ((hread.mpr h₁).symm.trans (hread.mpr h₂))
  have hfooters := isSome_findSome?_breakingText? (laterLines message)
  have hnote := ofMessage_note sha message
  have hfirst (text : String) (htext : FirstFooter (laterLines message) text) :
      c.note = if strip text = "" then none else some (strip text) := by
    rw [hnote, findSome?_breakingText?_eq_some_iff.mpr ⟨text, htext, rfl⟩, Option.bind_some,
      nonEmpty?]
    simp only [String.isEmpty_iff]
  have hnoFooter (hno : ∀ l ∈ laterLines message, ∀ text, ¬ Footer l text) : c.note = none := by
    have hnone : (laterLines message).findSome? breakingText? = none := by
      rw [← Option.not_isSome_iff_eq_none, hfooters]
      rintro ⟨l, hl, text, htext⟩
      exact hno l hl text htext
    rw [hnote, hnone, Option.bind_none]
  cases hline : Header.read? line with
  | none =>
    obtain ⟨htype, hscope, hsubject, hbreaking⟩ := ofMessage_of_none sha hline
    have hno (h : Header) : ¬ h.Spells line := by
      rw [← hread, hline]
      exact nofun
    refine ⟨consists message, ?_, hunique, fun h hspells => absurd hspells (hno h),
      fun _ => ⟨htype, hscope, hsubject⟩, ?_, hfirst, hnoFooter⟩
    · simp [c, htype, hno]
    · rw [hbreaking, hfooters]
      simp [hno]
  | some h =>
    obtain ⟨htype, hscope, hsubject, hbreaking⟩ := ofMessage_of_some sha hline
    have hspells : h.Spells line := hread.mp hline
    refine ⟨consists message, ?_, hunique, ?_, fun hno => absurd hspells (hno h), ?_, hfirst, hnoFooter⟩
    · simp only [c, htype, Option.isSome_some, true_iff]
      exact ⟨h, hspells⟩
    · intro h' hspells'
      obtain rfl := hunique h h' hspells hspells'
      refine ⟨?_, hsubject, hsubject ▸ strip_subject_ne hspells, ?_, ?_⟩
      · rw [htype, lowerAscii, String.toList_ofList]
      · intro s hs hne
        rw [hscope, hs]
        simp [strip, hne]
      · rintro (hs | hs) <;> rw [hscope, hs] <;> rfl
    · rw [hbreaking, Bool.or_eq_true, hfooters]
      refine or_congr ⟨fun hbang => ⟨h, hspells, hbang⟩, ?_⟩ Iff.rfl
      rintro ⟨h', hspells', hbang⟩
      rwa [hunique h h' hspells hspells']

end ReleasePipeline.Commit
