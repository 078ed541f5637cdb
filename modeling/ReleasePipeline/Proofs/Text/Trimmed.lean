import ReleasePipeline.Proofs.Text.Line

/-! Texts without blanks at their ends, and what is stripped off texts that are put together of them. -/
namespace ReleasePipeline.Text

variable {cs cs' rest : List Char}

/-- The text begins with a character that is not blank and ends with one. -/
structure Trimmed (cs : List Char) : Prop where
  front : ∃ c rest, cs = c :: rest ∧ isBlank c = false
  back : ∃ rest c, cs = rest ++ [c] ∧ isBlank c = false

theorem Trimmed.ne_nil (h : Trimmed cs) : cs ≠ [] := by
  obtain ⟨c, rest, rfl, -⟩ := h.front
  exact List.cons_ne_nil c rest

theorem Trimmed.append (h : Trimmed cs) (h' : Trimmed cs') (mid : List Char) :
    Trimmed (cs ++ mid ++ cs') := by
  obtain ⟨c, rest, rfl, hc⟩ := h.front
  obtain ⟨rest', d, rfl, hd⟩ := h'.back
  exact ⟨⟨c, rest ++ mid ++ (rest' ++ [d]), by simp, hc⟩, c :: rest ++ mid ++ rest', d, by simp, hd⟩

/-- Of a text with a trimmed one in front only blanks at the end are stripped off. -/
theorem Trimmed.stripChars_append_rest (h : Trimmed cs) (rest : List Char) :
    stripChars (cs ++ rest) = cs ++ dropEndWhile isBlank rest := by
  obtain ⟨c, tail, hfront, hc⟩ := h.front
  obtain ⟨init, d, hback, hd⟩ := h.back
  have hdrop : (cs ++ rest).dropWhile isBlank = cs ++ rest := by
    rw [hfront, List.cons_append, List.dropWhile_cons_of_neg (by simp [hc])]
  rw [stripChars, hdrop, hback, List.append_assoc, List.singleton_append, dropEndWhile_append hd,
    List.append_assoc, List.singleton_append]

/-- Blanks in front of other characters before a trimmed text are stripped off, and those behind it. -/
theorem Trimmed.stripChars_between (h : Trimmed cs) (front : List Char)
    (hrest : ∀ c ∈ rest, isBlank c = true) :
    stripChars (front ++ cs ++ rest) = front.dropWhile isBlank ++ cs := by
  obtain ⟨c, tail, hfront, hc⟩ := h.front
  obtain ⟨init, d, hback, hd⟩ := h.back
  have hdrop (cs' : List Char) : (cs ++ cs').dropWhile isBlank = cs ++ cs' := by
    rw [hfront, List.cons_append, List.dropWhile_cons_of_neg (by simp [hc])]
  have hwhole : (front ++ cs ++ rest).dropWhile isBlank =
      (front.dropWhile isBlank ++ init) ++ d :: rest := by
    rw [List.append_assoc, List.dropWhile_append, hdrop, hback]
    by_cases hnil : front.dropWhile isBlank = []
    · simp [hnil]
    · simp [hnil]
  rw [stripChars, hwhole, dropEndWhile_append hd, dropEndWhile_eq_nil_iff.mpr hrest, hback,
    List.append_assoc]

/-- Blanks behind a trimmed text are stripped off. -/
theorem Trimmed.stripChars_append (h : Trimmed cs) (hrest : ∀ c ∈ rest, isBlank c = true) :
    stripChars (cs ++ rest) = cs :=
  h.stripChars_between [] hrest

/-- What is left of a text is trimmed. -/
theorem trimmed_stripChars (h : stripChars cs ≠ []) : Trimmed (stripChars cs) := by
  have hdrop : cs.dropWhile isBlank ≠ [] := by
    intro hnil
    rw [stripChars, hnil] at h
    exact h rfl
  obtain ⟨c, rest, hcons⟩ := List.exists_cons_of_ne_nil hdrop
  have hc : isBlank c = false := by
    have hhead := List.head?_dropWhile_not isBlank cs
    rw [hcons] at hhead
    simpa using hhead
  constructor
  · refine ⟨c, dropEndWhile isBlank rest, ?_, hc⟩
    rw [stripChars, hcons]
    exact dropEndWhile_append hc [] rest
  · obtain ⟨init, d, hback⟩ := (List.eq_nil_or_concat (stripChars cs)).resolve_left h
    rw [List.concat_eq_append] at hback
    have hlast : (dropEndWhile isBlank (cs.dropWhile isBlank)).getLast? = some d := by
      rw [← stripChars, hback, List.getLast?_concat]
    exact ⟨init, d, hback, getLast?_dropEndWhile hlast⟩

/-- Blanks behind a text make no difference to what is left of it. -/
theorem stripChars_append_blanks (h : ∀ c ∈ rest, isBlank c = true) :
    stripChars (cs ++ rest) = stripChars cs := by
  have hrest : rest.dropWhile isBlank = [] := List.dropWhile_eq_nil_iff.mpr h
  rw [stripChars, stripChars, List.dropWhile_append]
  by_cases hcs : cs.dropWhile isBlank = []
  · rw [hcs, hrest]
    rfl
  · have hreverse : ∀ c ∈ rest.reverse, isBlank c = true := by
      intro c hc
      exact h c (List.mem_reverse.mp hc)
    rw [if_neg (by simpa using hcs), dropEndWhile, dropEndWhile, List.reverse_append,
      List.dropWhile_append_of_pos hreverse]

/-- Blanks in front of a text make no difference either. -/
theorem stripChars_blanks_append {front : List Char} (h : ∀ c ∈ front, isBlank c = true) :
    stripChars (front ++ cs) = stripChars cs := by
  rw [stripChars, List.dropWhile_append_of_pos h, ← stripChars]

/-- What is dropped at the end of a text. -/
theorem exists_dropEndWhile_append (p : Char → Bool) (cs : List Char) :
    ∃ rest, cs = dropEndWhile p cs ++ rest ∧ ∀ c ∈ rest, p c = true := by
  refine ⟨(cs.reverse.takeWhile p).reverse, ?_, ?_⟩
  · rw [dropEndWhile, ← List.reverse_append, List.takeWhile_append_dropWhile, List.reverse_reverse]
  · intro c hc
    exact List.mem_takeWhile_imp (List.mem_reverse.mp hc)

/-- The second text is the first one without the blanks at its ends. -/
def Strips (s t : String) : Prop :=
  ∃ front back, s.toList = front ++ t.toList ++ back ∧ (∀ c ∈ front ++ back, isBlank c = true) ∧
    (t = "" ∨ Trimmed t.toList)

theorem strips_iff {s t : String} : Strips s t ↔ strip s = t := by
  constructor
  · rintro ⟨front, back, hs, hblanks, ht⟩
    obtain ⟨hfront, hback⟩ := List.forall_mem_append.mp hblanks
    have hkept : stripChars t.toList = t.toList := by
      obtain rfl | ht := ht
      · rfl
      · simpa using ht.stripChars_append (List.forall_mem_nil _)
    rw [strip, hs, stripChars_append_blanks hback, stripChars_blanks_append hfront, hkept,
      String.ofList_toList]
  · rintro rfl
    obtain ⟨back, hback, hblanks⟩ := exists_dropEndWhile_append isBlank (s.toList.dropWhile isBlank)
    refine ⟨s.toList.takeWhile isBlank, back, ?_, ?_, ?_⟩
    · rw [strip, String.toList_ofList, stripChars, List.append_assoc, ← hback,
        List.takeWhile_append_dropWhile]
    · exact List.forall_mem_append.mpr ⟨fun c hc => List.mem_takeWhile_imp hc, hblanks⟩
    · rw [strip, String.toList_ofList, String.ofList_eq_empty_iff]
      exact (em _).imp_right trimmed_stripChars

theorem stripChars_dropEndWhile {p : Char → Bool} (h : ∀ c, p c = true → isBlank c = true)
    (cs : List Char) : stripChars (dropEndWhile p cs) = stripChars cs := by
  obtain ⟨rest, hcs, hrest⟩ := exists_dropEndWhile_append p cs
  have happend : stripChars (dropEndWhile p cs ++ rest) = stripChars (dropEndWhile p cs) :=
    stripChars_append_blanks fun c hc => h c (hrest c hc)
  rwa [← hcs, eq_comm] at happend

theorem length_dropEndWhile_le {p : Char → Bool} (front cs : List Char) :
    (dropEndWhile p cs).length ≤ (dropEndWhile p (front ++ cs)).length := by
  rw [dropEndWhile, dropEndWhile, List.reverse_append, List.dropWhile_append]
  by_cases hnil : cs.reverse.dropWhile p = []
  · simp [hnil]
  · simp [hnil]

/-- A character in front that is not blank adds to what is left of a text. -/
theorem length_stripChars_lt (cs : List Char) {front : List Char} {c : Char} (hmem : c ∈ front)
    (hc : isBlank c = false) : (stripChars cs).length < (stripChars (front ++ cs)).length := by
  have hne : front.dropWhile isBlank ≠ [] := by
    intro hnil
    rw [List.dropWhile_eq_nil_iff.mp hnil c hmem] at hc
    cases hc
  obtain ⟨d, tail, hcons⟩ := List.exists_cons_of_ne_nil hne
  have hd : isBlank d = false := by
    have hhead := List.head?_dropWhile_not isBlank front
    rw [hcons] at hhead
    simpa using hhead
  have hdrop : (front ++ cs).dropWhile isBlank = d :: (tail ++ cs) := by
    rw [List.dropWhile_append, hcons]
    rfl
  have hshorter := length_dropEndWhile_le (p := isBlank) (cs.takeWhile isBlank) (cs.dropWhile isBlank)
  rw [List.takeWhile_append_dropWhile] at hshorter
  have hlonger := length_dropEndWhile_le (p := isBlank) tail cs
  have hfirst : dropEndWhile isBlank (d :: (tail ++ cs)) = d :: dropEndWhile isBlank (tail ++ cs) :=
    dropEndWhile_append hd [] (tail ++ cs)
  rw [stripChars, stripChars, hdrop, hfirst, List.length_cons]
  omega

end ReleasePipeline.Text
