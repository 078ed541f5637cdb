import ReleasePipeline.Proofs.Text.Line

/-! Where the first line of a text ends. From it, what becomes of the lines when one of them gets
another content, and when all line endings become line feeds. -/
namespace ReleasePipeline.Text

variable {cs content rest : List Char} {l : Line} {ls above below : List Line}

theorem isBlank_of_isLineBreak {c : Char} (h : isLineBreak c = true) : isBlank c = true := by
  by_contra hc
  rw [Bool.not_eq_true] at hc
  rw [isLineBreak_eq_false hc] at h
  cases h

namespace Line

/-- The line ends in front of the text: its content holds no line break, and its ending is one, or is
missing at the end of the text. -/
structure EndsBefore (l : Line) (rest : List Char) : Prop where
  content : ∀ c ∈ l.content, isLineBreak c = false
  ending : l.ending = [] ∧ l.content ≠ [] ∧ rest = [] ∨ l.ending = ['\r', '\n'] ∨
    ∃ c, isLineBreak c = true ∧ l.ending = [c] ∧ (c = '\r' → rest.head? ≠ some '\n')

theorem EndsBefore.isLineBreak_of_mem (h : l.EndsBefore rest) {c : Char} (hc : c ∈ l.ending) :
    isLineBreak c = true := by
  obtain ⟨hnone, -⟩ | hpair | ⟨d, hd, hone, -⟩ := h.ending
  · rw [hnone] at hc
    cases hc
  · rw [hpair] at hc
    simp only [List.mem_cons, List.not_mem_nil, or_false] at hc
    rcases hc with rfl | rfl <;> rfl
  · rw [hone] at hc
    rwa [List.mem_singleton.mp hc]

theorem EndsBefore.chars_ne_nil (h : l.EndsBefore rest) : l.chars ≠ [] := by
  rw [chars]
  obtain ⟨-, hcontent, -⟩ | hpair | ⟨d, -, hone, -⟩ := h.ending
  · simp [hcontent]
  · simp [hpair]
  · simp [hone]

theorem EndsBefore.cons {c : Char} (hc : isLineBreak c = false) (h : l.EndsBefore rest) :
    (l.cons c).EndsBefore rest where
  content := List.forall_mem_cons.mpr ⟨hc, h.content⟩
  ending := h.ending.imp (fun h => ⟨h.1, List.cons_ne_nil _ _, h.2.2⟩) id

/-- A line ends where it did, whatever it holds instead of its content. -/
theorem EndsBefore.replace (h : l.EndsBefore rest) (hcontent : ∀ c ∈ content, isLineBreak c = false)
    (hne : content ≠ []) : EndsBefore { l with content } rest where
  content := hcontent
  ending := h.ending.imp (fun h => ⟨h.1, hne, h.2.2⟩) id

/-- A line that is not the last one ends before every text that begins in the same way. -/
theorem EndsBefore.congr {rest' : List Char} (h : l.EndsBefore rest) (hne : rest ≠ [])
    (hhead : rest.head? ≠ some '\n' → rest'.head? ≠ some '\n') : l.EndsBefore rest' where
  content := h.content
  ending := by
    obtain ⟨-, -, hrest⟩ | hpair | ⟨c, hc, hone, hnext⟩ := h.ending
    · exact absurd hrest hne
    · exact .inr (.inl hpair)
    · exact .inr (.inr ⟨c, hc, hone, fun hreturn => hhead (hnext hreturn)⟩)

end Line

theorem lines_content_append (hcontent : ∀ c ∈ content, isLineBreak c = false)
    (h : lines rest = l :: ls) :
    lines (content ++ rest) = { l with content := content ++ l.content } :: ls := by
  induction content with
  | nil => exact h
  | cons c content ih =>
    obtain ⟨hc, hcontent⟩ := List.forall_mem_cons.mp hcontent
    rw [List.cons_append, lines_cons_plain hc (ih hcontent)]
    rfl

/-- A text without line breaks is one line. -/
theorem lines_plain (hcontent : ∀ c ∈ content, isLineBreak c = false) (hne : content ≠ []) :
    lines content = [⟨content, []⟩] := by
  induction content with
  | nil => exact absurd rfl hne
  | cons c content ih =>
    obtain ⟨hc, hcontent⟩ := List.forall_mem_cons.mp hcontent
    cases content with
    | nil => simp [lines, hc]
    | cons d content => exact lines_cons_plain hc (ih hcontent (List.cons_ne_nil d content))

/-- The first line of a text is what stands up to its ending. -/
theorem lines_eq_cons_iff : lines cs = l :: ls ↔
    ∃ rest, cs = l.chars ++ rest ∧ l.EndsBefore rest ∧ lines rest = ls := by
  constructor
  · intro h
    induction cs using lines.induct generalizing l ls with
    | case1 => cases h
    | case2 cs ih =>
      rw [lines] at h
      cases h
      exact ⟨cs, rfl, ⟨List.forall_mem_nil _, .inr (.inl rfl)⟩, rfl⟩
    | case3 c cs hc hb ih =>
      have hreturn : c = '\r' → ∀ rs, cs ≠ '\n' :: rs := fun h₁ rs h₂ => hc rs h₁ h₂
      rw [lines_cons_break hb hreturn] at h
      cases h
      refine ⟨cs, rfl, ⟨List.forall_mem_nil _, .inr (.inr ⟨c, hb, rfl, fun h₁ h₂ => ?_⟩)⟩, rfl⟩
      obtain ⟨rs, hrs⟩ := List.head?_eq_some_iff.mp h₂
      exact hreturn h₁ rs hrs
    | case4 c cs hc hb hnone ih =>
      have hempty : cs = [] := by
        by_contra hne
        exact lines_ne_nil hne hnone
      subst hempty
      have hplain : isLineBreak c = false := by simpa using hb
      have hcontent : ∀ d ∈ [c], isLineBreak d = false := by simpa using hplain
      rw [lines_plain hcontent (List.cons_ne_nil c [])] at h
      cases h
      exact ⟨[], rfl, ⟨hcontent, .inl ⟨rfl, List.cons_ne_nil c [], rfl⟩⟩, rfl⟩
    | case5 c cs hc hb first more hmore ih =>
      have hplain : isLineBreak c = false := by simpa using hb
      rw [lines_cons_plain hplain hmore] at h
      cases h
      obtain ⟨rest, rfl, hends, hrest⟩ := ih hmore
      exact ⟨rest, rfl, hends.cons hplain, hrest⟩
  · rintro ⟨rest, rfl, hends, rfl⟩
    rw [Line.chars, List.append_assoc]
    obtain ⟨hnone, hne, rfl⟩ | hpair | ⟨c, hc, hone, hnext⟩ := hends.ending
    · have hl : l = ⟨l.content, []⟩ := hnone ▸ rfl
      rw [hnone, List.append_nil, List.append_nil, lines_plain hends.content hne, ← hl]
      rfl
    · have hfirst : lines (l.ending ++ rest) = ⟨[], l.ending⟩ :: lines rest := by
        rw [hpair]
        exact lines.eq_2 rest
      rw [lines_content_append hends.content hfirst, List.append_nil]
    · have hfirst : lines (l.ending ++ rest) = ⟨[], l.ending⟩ :: lines rest := by
        rw [hone]
        exact lines_cons_break hc fun hreturn rs hrest => hnext hreturn (congrArg List.head? hrest)
      rw [lines_content_append hends.content hfirst, List.append_nil]

/-- The text consists of the lines, each of which ends before the next one. -/
inductive HasLines : List Char → List Line → Prop
  | nil : HasLines [] []
  | cons {l : Line} {ls : List Line} {rest : List Char} (hends : l.EndsBefore rest)
    (h : HasLines rest ls) : HasLines (l.chars ++ rest) (l :: ls)

theorem hasLines_iff : HasLines cs ls ↔ lines cs = ls := by
  constructor
  · intro h
    induction h with
    | nil => rfl
    | cons hends _ ih => exact lines_eq_cons_iff.mpr ⟨_, rfl, hends, ih⟩
  · intro h
    induction ls generalizing cs with
    | nil =>
      obtain rfl : cs = [] := by
        by_contra hne
        exact lines_ne_nil hne h
      exact .nil
    | cons l ls ih =>
      obtain ⟨rest, rfl, hends, hrest⟩ := lines_eq_cons_iff.mp h
      exact .cons hends (ih hrest)

/-- The lines of a text end before the text that follows them. -/
theorem exists_endsBefore_of_mem (h : l ∈ lines cs) : ∃ rest, l.EndsBefore rest := by
  generalize hls : lines cs = ls at h
  induction ls generalizing cs with
  | nil => cases h
  | cons first ls ih =>
    obtain ⟨rest, -, hends, hrest⟩ := lines_eq_cons_iff.mp hls
    rcases List.mem_cons.mp h with rfl | h
    · exact ⟨rest, hends⟩
    · exact ih hrest h

/-- A line with another content leaves the lines around it as they are. -/
theorem lines_replace (h : lines cs = above ++ l :: below)
    (hcontent : ∀ c ∈ content, isLineBreak c = false) (hne : content ≠ []) :
    lines ((above ++ { l with content } :: below).flatMap Line.chars) =
      above ++ { l with content } :: below := by
  induction above generalizing cs with
  | nil =>
    obtain ⟨rest, -, hends, rfl⟩ := lines_eq_cons_iff.mp h
    refine lines_eq_cons_iff.mpr ⟨rest, ?_, hends.replace hcontent hne, rfl⟩
    rw [List.nil_append, List.flatMap_cons, flatMap_lines]
  | cons first above ih =>
    obtain ⟨rest, -, hends, hrest⟩ := lines_eq_cons_iff.mp h
    refine lines_eq_cons_iff.mpr ⟨(above ++ { l with content } :: below).flatMap Line.chars,
      List.flatMap_cons, hends.congr ?_ ?_, ih hrest⟩
    · rintro rfl
      rw [lines] at hrest
      exact List.append_ne_nil_of_right_ne_nil above (List.cons_ne_nil l below) hrest.symm
    · -- the text after the first line begins with the next line, or with the new content
      intro hhead
      cases above with
      | nil =>
        obtain ⟨c, content, rfl⟩ := List.exists_cons_of_ne_nil hne
        have hc : isLineBreak c = false := hcontent c List.mem_cons_self
        rintro hfeed
        have hfeed : c = '\n' := Option.some.inj hfeed
        rw [hfeed] at hc
        cases hc
      | cons second above =>
        obtain ⟨rest', rfl, hsecond, -⟩ := lines_eq_cons_iff.mp hrest
        obtain ⟨c, chars, hchars⟩ := List.exists_cons_of_ne_nil hsecond.chars_ne_nil
        rw [hchars] at hhead
        rwa [List.cons_append, List.flatMap_cons, hchars]

/-- The line with a line feed in place of a carriage return at its end. -/
def Line.unified (l : Line) : Line := { l with ending := if '\r' ∈ l.ending then ['\n'] else l.ending }

theorem unifyNewlines_cons {c : Char} (hc : c ≠ '\r') (rest : List Char) :
    unifyNewlines (c :: rest) = c :: unifyNewlines rest := by
  rw [unifyNewlines]
  · rintro rs ⟨⟩
    exact absurd rfl hc
  · exact hc

theorem unifyNewlines_return (h : rest.head? ≠ some '\n') :
    unifyNewlines ('\r' :: rest) = '\n' :: unifyNewlines rest := by
  rw [unifyNewlines]
  rintro rs rfl
  exact h rfl

theorem return_not_mem_unifyNewlines (cs : List Char) : '\r' ∉ unifyNewlines cs := by
  induction cs using unifyNewlines.induct with
  | case1 => exact List.not_mem_nil
  | case2 cs ih =>
    rw [unifyNewlines]
    simpa using ih
  | case3 cs hfeed ih =>
    rw [unifyNewlines_return fun h => (List.head?_eq_some_iff.mp h).elim hfeed]
    simpa using ih
  | case4 c cs _ hc ih =>
    rw [unifyNewlines_cons hc]
    exact List.not_mem_cons_of_ne_of_not_mem (Ne.symm hc) ih

/-- No line ending goes over a character that is no line feed. -/
theorem unifyNewlines_append_cons {c : Char} (hc : c ≠ '\n') (cs rest : List Char) :
    unifyNewlines (cs ++ c :: rest) = unifyNewlines cs ++ unifyNewlines (c :: rest) := by
  induction cs using unifyNewlines.induct with
  | case1 => rfl
  | case2 cs ih => simp only [List.cons_append, unifyNewlines, ih]
  | case3 cs hfeed ih =>
    have hhead : cs.head? ≠ some '\n' := fun h => (List.head?_eq_some_iff.mp h).elim hfeed
    have hhead' : (cs ++ c :: rest).head? ≠ some '\n' := by
      cases cs with
      | nil => simpa using hc
      | cons d cs => simpa using hhead
    rw [List.cons_append, unifyNewlines_return hhead', unifyNewlines_return hhead, ih]
    rfl
  | case4 d cs _ hd ih =>
    rw [List.cons_append, unifyNewlines_cons hd, unifyNewlines_cons hd, ih]
    rfl

/-- A text is read up to a character of no line ending and behind it. -/
theorem unifyNewlines_append_mark {c : Char} (hc : c ≠ '\r' ∧ c ≠ '\n') (cs rest : List Char) :
    unifyNewlines (cs ++ c :: rest) = unifyNewlines cs ++ c :: unifyNewlines rest := by
  rw [unifyNewlines_append_cons hc.2, unifyNewlines_cons hc.1]

/-- Items that are read one by one in front of every text are read one by one in a row. -/
theorem unifyNewlines_flatMap {α : Type} {written : α → List Char} {unified : α → α}
    (h : ∀ a rest, unifyNewlines (written a ++ rest) = written (unified a) ++ unifyNewlines rest)
    (items : List α) :
    unifyNewlines (items.flatMap written) = (items.map unified).flatMap written := by
  induction items with
  | nil => rfl
  | cons a items ih => rw [List.flatMap_cons, h, ih, List.map_cons, List.flatMap_cons]

/-- A line feed is the only character that comes in. -/
theorem mem_of_mem_unifyNewlines {c : Char} (hc : c ≠ '\n') {cs : List Char}
    (h : c ∈ unifyNewlines cs) : c ∈ cs := by
  induction cs using unifyNewlines.induct with
  | case1 => exact h
  | case2 cs ih =>
    rw [unifyNewlines] at h
    exact List.mem_cons_of_mem _ (List.mem_cons_of_mem _ (ih (List.mem_of_ne_of_mem hc h)))
  | case3 cs hfeed ih =>
    rw [unifyNewlines_return fun h => (List.head?_eq_some_iff.mp h).elim hfeed] at h
    exact List.mem_cons_of_mem _ (ih (List.mem_of_ne_of_mem hc h))
  | case4 d cs _ hd ih =>
    rw [unifyNewlines_cons hd] at h
    exact List.mem_cons.mpr ((List.mem_cons.mp h).imp_right ih)

theorem unifyNewlines_ne_nil {cs : List Char} (h : cs ≠ []) : unifyNewlines cs ≠ [] := by
  cases cs using unifyNewlines.fun_cases with
  | case1 => exact h
  | case2 cs => simp [unifyNewlines]
  | case3 cs hfeed =>
    simp [unifyNewlines_return fun h => (List.head?_eq_some_iff.mp h).elim hfeed]
  | case4 d cs _ hd => simp [unifyNewlines_cons hd]

/-- Unified line endings change no content. -/
theorem lines_unifyNewlines (cs : List Char) :
    lines (unifyNewlines cs) = (lines cs).map Line.unified := by
  have hfeed (cs : List Char) : lines ('\n' :: cs) = ⟨[], ['\n']⟩ :: lines cs :=
    lines_cons_break rfl fun h => absurd h (by decide)
  induction cs using lines.induct with
  | case1 => rfl
  | case2 cs ih =>
    rw [unifyNewlines, hfeed, ih, lines]
    rfl
  | case3 c cs hc hb ih =>
    have hreturn : c = '\r' → ∀ rs, cs ≠ '\n' :: rs := fun h₁ rs h₂ => hc rs h₁ h₂
    rw [lines_cons_break hb hreturn, List.map_cons, ← ih]
    by_cases hcr : c = '\r'
    · subst hcr
      have hhead : cs.head? ≠ some '\n' := fun h =>
        (List.head?_eq_some_iff.mp h).elim (hreturn rfl)
      rw [unifyNewlines_return hhead, hfeed]
      rfl
    · rw [unifyNewlines_cons hcr, lines_cons_break hb fun h => absurd h hcr]
      simp [Line.unified, Ne.symm hcr]
  | case4 c cs hc hb hnone ih =>
    have hempty : cs = [] := by
      by_contra hne
      exact lines_ne_nil hne hnone
    subst hempty
    have hplain : isLineBreak c = false := by simpa using hb
    have hcr : c ≠ '\r' := by
      rintro rfl
      cases hplain
    rw [unifyNewlines_cons hcr]
    simp [unifyNewlines, lines, hplain, Line.unified]
  | case5 c cs hc hb first more hmore ih =>
    have hplain : isLineBreak c = false := by simpa using hb
    have hcr : c ≠ '\r' := by
      rintro rfl
      cases hplain
    rw [hmore, List.map_cons] at ih
    rw [unifyNewlines_cons hcr, lines_cons_plain hplain ih, lines_cons_plain hplain hmore]
    rfl

end ReleasePipeline.Text
