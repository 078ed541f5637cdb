import Mathlib.Data.List.TakeWhile
import ReleasePipeline.Text.Blank
import ReleasePipeline.Text.Line

/-! Stripping, and the lines of texts that stand one after the other. -/
namespace ReleasePipeline.Text

variable {cs rest : List Char} {p : Char → Bool}

theorem dropEndWhile_eq_self (h : ∀ c ∈ cs, p c = false) : dropEndWhile p cs = cs := by
  have hd : cs.reverse.dropWhile p = cs.reverse := by
    rw [List.dropWhile_eq_self_iff]
    intro hl
    rw [h _ (List.mem_reverse.mp (List.getElem_mem hl))]
    exact Bool.false_ne_true
  simp [dropEndWhile, hd]

/-- The cutting stops at a character that stays. -/
theorem dropEndWhile_append {c : Char} (hc : p c = false) (cs rest : List Char) :
    dropEndWhile p (cs ++ c :: rest) = cs ++ c :: dropEndWhile p rest := by
  have hdrop : ∀ xs ys : List Char, (xs ++ c :: ys).dropWhile p = xs.dropWhile p ++ c :: ys := by
    intro xs ys
    induction xs with
    | nil => simp [hc]
    | cons x xs ih =>
      by_cases hx : p x = true
      · simp [hx, ih]
      · simp [hx]
  rw [dropEndWhile, dropEndWhile, List.reverse_append, List.reverse_cons, List.append_assoc,
    List.singleton_append, hdrop]
  simp

/-- What holds no character to cut off stays in front of the rest. -/
theorem dropEndWhile_append_left (h : ∀ c ∈ cs, p c = false) (rest : List Char) :
    dropEndWhile p (cs ++ rest) = cs ++ dropEndWhile p rest := by
  obtain rfl | ⟨front, c, rfl⟩ := List.eq_nil_or_concat cs
  · rfl
  · rw [List.concat_eq_append, List.append_assoc, List.append_assoc]
    exact dropEndWhile_append (h c (by simp)) front rest

theorem dropEndWhile_isPrefix (cs : List Char) : dropEndWhile p cs <+: cs := by
  have hsuffix := List.dropWhile_suffix p (l := cs.reverse)
  simpa [dropEndWhile] using List.reverse_prefix.mpr hsuffix

/-- A text that begins with a character and ends with a text that stays is stripped of nothing. -/
theorem stripChars_append {c d : Char} (hc : isBlank c = false) (hd : isBlank d = false)
    (mid : List Char) (h : stripChars rest = rest) :
    stripChars (c :: mid ++ d :: rest) = c :: mid ++ d :: rest := by
  have hfront : rest.dropWhile isBlank = rest := by
    refine (List.dropWhile_suffix isBlank).eq_of_length_le ?_
    have hlength := (dropEndWhile_isPrefix (p := isBlank) (rest.dropWhile isBlank)).length_le
    rwa [← stripChars, h] at hlength
  have hend : dropEndWhile isBlank rest = rest := by
    rwa [stripChars, hfront] at h
  rw [stripChars, List.cons_append, List.dropWhile_cons_of_neg (by simp [hc]), ← List.cons_append,
    dropEndWhile_append hd, hend]

theorem stripChars_eq_self (h : ∀ c ∈ cs, isBlank c = false) : stripChars cs = cs := by
  have hd : cs.dropWhile isBlank = cs := by
    rw [List.dropWhile_eq_self_iff]
    intro hl
    simp [h _ (List.getElem_mem hl)]
  rw [stripChars, hd, dropEndWhile_eq_self h]

theorem mem_of_mem_stripChars {c : Char} (h : c ∈ stripChars cs) : c ∈ cs :=
  (List.dropWhile_suffix isBlank).subset ((dropEndWhile_isPrefix _).subset h)

theorem dropEndWhile_eq_nil_iff : dropEndWhile p cs = [] ↔ ∀ c ∈ cs, p c = true := by
  simp [dropEndWhile, List.dropWhile_eq_nil_iff]

theorem stripChars_eq_nil_iff : stripChars cs = [] ↔ ∀ c ∈ cs, isBlank c = true := by
  rw [stripChars, dropEndWhile_eq_nil_iff]
  constructor
  · intro h c hc
    rw [← List.takeWhile_append_dropWhile (p := isBlank) (l := cs), List.mem_append] at hc
    rcases hc with hc | hc
    · exact List.mem_takeWhile_imp hc
    · exact h c hc
  · intro h c hc
    exact h c ((List.dropWhile_suffix isBlank).subset hc)

/-- The last character that stays is not one of those that are cut off. -/
theorem getLast?_dropEndWhile {c : Char} (h : (dropEndWhile p cs).getLast? = some c) :
    p c = false := by
  have hhead := List.head?_dropWhile_not p cs.reverse
  rw [dropEndWhile, List.getLast?_reverse] at h
  rw [h] at hhead
  simpa using hhead

theorem isLineBreak_eq_false {c : Char} (h : isBlank c = false) : isLineBreak c = false := by
  simp only [isBlank, isLineBreak, Bool.or_eq_false_iff, Bool.and_eq_false_iff,
    decide_eq_false_iff_not, beq_eq_false_iff_ne, ne_eq] at h ⊢
  omega

theorem lines_cons_break {c : Char} (hc : isLineBreak c = true)
    (hr : c = '\r' → ∀ rs, rest ≠ '\n' :: rs) : lines (c :: rest) = ⟨[], [c]⟩ :: lines rest := by
  rw [lines]
  · rw [if_pos hc]
  · intro rs h₁ h₂
    exact hr h₁ rs h₂

theorem lines_cons_plain {c : Char} {l : Line} {ls : List Line} (hc : isLineBreak c = false)
    (h : lines rest = l :: ls) : lines (c :: rest) = l.cons c :: ls := by
  rw [lines]
  · simp [hc, h]
  · rintro rs rfl
    simp [isLineBreak] at hc

theorem lines_ne_nil (h : cs ≠ []) : lines cs ≠ [] := by
  rw [lines.eq_def]
  split
  · exact absurd rfl h
  · simp
  · split
    · simp
    · split <;> simp

/-- The lines are the text. -/
theorem flatMap_lines (cs : List Char) : (lines cs).flatMap Line.chars = cs := by
  induction cs using lines.induct with
  | case1 => rfl
  | case2 cs ih => simp [lines, ih, Line.chars]
  | case3 c cs hc hb ih =>
    have hreturn : c = '\r' → ∀ rs, cs ≠ '\n' :: rs := fun h₁ rs h₂ => hc rs h₁ h₂
    rw [lines_cons_break hb hreturn, List.flatMap_cons, ih]
    rfl
  | case4 c cs hc hb hnone ih =>
    have hempty : cs = [] := by
      by_contra hne
      exact lines_ne_nil hne hnone
    subst hempty
    simp [lines, Line.chars, hb]
  | case5 c cs hc hb l ls hl ih =>
    have hplain : isLineBreak c = false := by simpa using hb
    rw [lines_cons_plain hplain hl]
    rw [hl, List.flatMap_cons] at ih
    rw [List.flatMap_cons, ← ih]
    rfl

/-- No line holds a line break inside. -/
theorem isLineBreak_of_mem_lines {l : Line} {c : Char} (hl : l ∈ lines cs) (hc : c ∈ l.content) :
    isLineBreak c = false := by
  induction cs using lines.induct generalizing l with
  | case1 => cases hl
  | case2 cs ih =>
    rw [lines, List.mem_cons] at hl
    rcases hl with rfl | hl
    · cases hc
    · exact ih hl hc
  | case3 d cs hd hb ih =>
    have hreturn : d = '\r' → ∀ rs, cs ≠ '\n' :: rs := fun h₁ rs h₂ => hd rs h₁ h₂
    rw [lines_cons_break hb hreturn, List.mem_cons] at hl
    rcases hl with rfl | hl
    · cases hc
    · exact ih hl hc
  | case4 d cs hd hb hnone ih =>
    have hempty : cs = [] := by
      by_contra hne
      exact lines_ne_nil hne hnone
    subst hempty
    have hplain : isLineBreak d = false := by simpa using hb
    have hone : lines [d] = [⟨[d], []⟩] := by simp [lines, hplain]
    rw [hone, List.mem_singleton] at hl
    subst hl
    rwa [List.mem_singleton.mp hc]
  | case5 d cs hd hb first more hmore ih =>
    have hplain : isLineBreak d = false := by simpa using hb
    rw [lines_cons_plain hplain hmore, List.mem_cons] at hl
    rcases hl with rfl | hl
    · rcases List.mem_cons.mp hc with rfl | hc
      · exact hplain
      · exact ih (hmore ▸ List.mem_cons_self) hc
    · exact ih (hmore ▸ List.mem_cons_of_mem _ hl) hc

/-- A line feed closes a line, whatever stands in front of it. -/
theorem lines_append_feed (cs rest : List Char) :
    lines (cs ++ '\n' :: rest) = lines (cs ++ ['\n']) ++ lines rest := by
  induction cs using lines.induct with
  | case1 => simp [lines, show isLineBreak '\n' = true from rfl]
  | case2 cs ih => simp [lines, ih]
  | case3 c cs hc hb ih =>
    by_cases hr : c = '\r' ∧ cs = []
    · obtain ⟨rfl, rfl⟩ := hr
      simp [lines]
    · have hne : ∀ ts, c = '\r' → ∀ rs, cs ++ '\n' :: ts ≠ '\n' :: rs := by
        intro ts h₁ rs h₂
        cases cs with
        | nil => exact hr ⟨h₁, rfl⟩
        | cons d ds =>
          simp only [List.cons_append, List.cons.injEq] at h₂
          exact hc ds h₁ (by rw [h₂.1])
      rw [List.cons_append, lines_cons_break hb (hne rest), List.cons_append,
        lines_cons_break hb (hne []), ih, List.cons_append]
  | case4 c cs hc hb _ ih | case5 c cs hc hb _ _ _ ih =>
    have hb : isLineBreak c = false := by simpa using hb
    obtain ⟨l, ls, hl⟩ := List.exists_cons_of_ne_nil (lines_ne_nil (List.concat_ne_nil '\n' cs))
    rw [hl, List.cons_append] at ih
    rw [List.cons_append, lines_cons_plain hb ih, List.cons_append, lines_cons_plain hb hl,
      List.cons_append]

/-- A line feed closes a line that holds no other break. -/
theorem lines_feed (h : ∀ c ∈ cs, isLineBreak c = false) :
    lines (cs ++ ['\n']) = [⟨cs, ['\n']⟩] := by
  induction cs with
  | nil => simp [lines, isLineBreak]
  | cons c cs ih =>
    have hl := ih fun d hd => h d (List.mem_cons_of_mem _ hd)
    rw [List.cons_append, lines_cons_plain (h c List.mem_cons_self) hl]
    rfl

theorem unifyNewlines_eq_self {cs : List Char} (h : '\r' ∉ cs) : unifyNewlines cs = cs := by
  induction cs with
  | nil => rfl
  | cons c cs ih =>
    obtain ⟨hc, hrest⟩ := List.ne_and_not_mem_of_not_mem_cons h
    rw [unifyNewlines, ih hrest]
    · intro rest heq
      exact absurd heq hc.symm
    · exact hc.symm

end ReleasePipeline.Text
