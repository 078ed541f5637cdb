import ReleasePipeline.Template
import ReleasePipeline.Proofs.Text.Search
import ReleasePipeline.Proofs.Version.Reading

/-! The placeholders of a template are read where they are spelled. -/
namespace ReleasePipeline.Template

open Text

/-- A letter or an underscore, and letters, digits and underscores behind it. -/
def Identifier (cs : List Char) : Prop :=
  ∃ c rest, cs = c :: rest ∧ isNameStart c = true ∧ ∀ d ∈ rest, isNameChar d = true

/-- One identifier or several. -/
def IsPath (path : List (List Char)) : Prop := path ≠ [] ∧ ∀ part ∈ path, Identifier part

/-- The identifiers of a path with dots between them. -/
def dotted (path : List (List Char)) : List Char := ['.'].intercalate path

/-- The characters are a placeholder for the path: a dollar sign and the dotted name in braces, with
blanks around it if there are any. -/
def Spells (mark : List Char) (path : List (List Char)) : Prop :=
  IsPath path ∧ ∃ before after, (∀ c ∈ before, isBlank c = true) ∧ (∀ c ∈ after, isBlank c = true) ∧
    mark = '$' :: '\x7b' :: (before ++ (dotted path ++ (after ++ ['\x7d'])))

variable {c : Char} {cs rest name after mark : List Char} {path path' : List (List Char)}

theorem isNameChar_of_isNameStart (h : isNameStart c = true) : isNameChar c = true := by
  simp only [isNameStart, isNameChar, Char.isAlphanum, Bool.or_eq_true] at h ⊢
  exact h.imp_left .inl

theorem isBlank_of_isNameChar (h : isNameChar c = true) : isBlank c = false := by
  rw [isNameChar, Bool.or_eq_true, decide_eq_true_eq] at h
  rcases h with h | rfl
  · exact Version.isBlank_of_isChannelChar (.inl (by simp [Version.isChannelChar, h]))
  · decide

theorem Identifier.isNameChar (h : Identifier cs) : ∀ c ∈ cs, isNameChar c = true := by
  obtain ⟨c, rest, rfl, hstart, hrest⟩ := h
  intro d hd
  rcases List.mem_cons.mp hd with rfl | hd
  · exact isNameChar_of_isNameStart hstart
  · exact hrest d hd

theorem Identifier.dot_notMem (h : Identifier cs) : '.' ∉ cs :=
  fun hmem => absurd (h.isNameChar _ hmem) (by decide)

theorem dotted_cons (part : List Char) (h : path ≠ []) :
    dotted (part :: path) = part ++ '.' :: dotted path := by
  obtain ⟨part', path, rfl⟩ := List.exists_cons_of_ne_nil h
  rw [dotted, List.intercalate_cons_cons, List.append_assoc]
  rfl

theorem dotted_singleton (part : List Char) : dotted [part] = part := List.intercalate_singleton

theorem splitOn_dotted (h : IsPath path) :
    splitOn '.' (String.ofList (dotted path)) = path.map String.ofList := by
  rw [splitOn, String.toList_ofList, splitChars_eq_splitOn, dotted,
    List.splitOn_intercalate '.' (fun part hpart => (h.2 part hpart).dot_notMem) h.1]

theorem path_of_dotted (h : IsPath path) (h' : IsPath path') (heq : dotted path = dotted path') :
    path = path' := by
  have hparts := splitOn_dotted h
  rw [heq, splitOn_dotted h'] at hparts
  exact (List.map_injective_iff.mpr (fun _ _ => String.ofList_injective) hparts).symm

theorem isPath_singleton {part : List Char} (h : Identifier part) : IsPath [part] :=
  ⟨List.cons_ne_nil _ _, by simpa using h⟩

theorem isPath_cons {part : List Char} (hpart : Identifier part) (h : IsPath path) :
    IsPath (part :: path) :=
  ⟨List.cons_ne_nil _ _, List.forall_mem_cons.mpr ⟨hpart, h.2⟩⟩

/-- What is read is a path, and it stands in front of what remains. -/
theorem path_of_takeDotted? {fuel : Nat} (h : takeDotted? fuel cs = some (name, after)) :
    ∃ path, IsPath path ∧ name = dotted path ∧ cs = name ++ after := by
  induction fuel generalizing cs name after with
  | zero => cases h
  | succ fuel ih =>
    cases cs with
    | nil => cases h
    | cons c rest =>
      rw [takeDotted?] at h
      split at h
      · rename_i hstart
        have hrest := (List.takeWhile_append_dropWhile (p := isNameChar) (l := rest)).symm
        have hpart : Identifier (c :: rest.takeWhile isNameChar) :=
          ⟨c, _, rfl, hstart, fun d hd => List.mem_takeWhile_imp hd⟩
        simp only at h
        split at h
        · rename_i more hmore
          rw [hmore] at hrest
          split at h
          · rename_i names after' hnames
            cases h
            obtain ⟨path, hpath, rfl, rfl⟩ := ih hnames
            refine ⟨_ :: path, isPath_cons hpart hpath, (dotted_cons _ hpath.1).symm, ?_⟩
            simpa using hrest
          · cases h
            exact ⟨_, isPath_singleton hpart, (dotted_singleton _).symm, congrArg (c :: ·) hrest⟩
        · cases h
          exact ⟨_, isPath_singleton hpart, (dotted_singleton _).symm, congrArg (c :: ·) hrest⟩
      · cases h

/-- A path is read as a whole if neither a dot nor a character of names follows. -/
theorem takeDotted?_dotted {fuel : Nat} (hpath : IsPath path) (hfuel : path.length ≤ fuel)
    (hc : isNameChar c = false) (hdot : c ≠ '.') (rest : List Char) :
    takeDotted? fuel (dotted path ++ c :: rest) = some (dotted path, c :: rest) := by
  obtain ⟨hne, hparts⟩ := hpath
  induction path generalizing fuel with
  | nil => exact absurd rfl hne
  | cons part path ih =>
    obtain ⟨fuel, rfl⟩ := Nat.exists_eq_add_of_le' (Nat.one_le_of_lt hfuel)
    obtain ⟨⟨d, part, rfl, hstart, hpart⟩, hrest⟩ := List.forall_mem_cons.mp hparts
    cases path with
    | nil =>
      -- Behind the last identifier the name ends, since `c` is no dot.
      obtain ⟨htake, hdrop⟩ := span_append_cons hpart hc rest
      rw [dotted_singleton, List.cons_append, takeDotted?, if_pos hstart]
      simp only [htake, hdrop]
      split
      · rename_i heq
        exact absurd (List.cons.inj heq).1 hdot
      · rfl
    | cons part' path =>
      obtain ⟨htake, hdrop⟩ := span_append_cons hpart (c := '.') rfl
        (dotted (part' :: path) ++ c :: rest)
      have hle : (part' :: path).length ≤ fuel := by simpa using hfuel
      have hmore := ih hle (List.cons_ne_nil _ _) hrest
      rw [dotted_cons _ (List.cons_ne_nil _ _), List.cons_append, List.cons_append,
        List.append_assoc, List.cons_append, takeDotted?, if_pos hstart]
      simp only [htake, hdrop, hmore, List.cons_append]

theorem length_le_length_dotted (h : ∀ part ∈ path, Identifier part) :
    path.length ≤ (dotted path).length := by
  induction path with
  | nil => exact Nat.zero_le _
  | cons part path ih =>
    obtain ⟨hpart, hparts⟩ := List.forall_mem_cons.mp h
    obtain ⟨d, part, rfl, -, -⟩ := hpart
    have hle := ih hparts
    cases path with
    | nil => simp [dotted_singleton]
    | cons part' path =>
      rw [dotted_cons _ (List.cons_ne_nil _ _)]
      simp only [List.length_cons, List.length_append] at hle ⊢
      omega

/-- The name of a placeholder is read up to the blanks or the brace behind it. -/
theorem takeDotted?_append {fuel : Nat} (hpath : IsPath path) (hfuel : path.length ≤ fuel)
    (hafter : ∀ c ∈ after, isBlank c = true) (rest : List Char) :
    takeDotted? fuel (dotted path ++ (after ++ '\x7d' :: rest)) =
      some (dotted path, after ++ '\x7d' :: rest) := by
  cases after with
  | nil => exact takeDotted?_dotted hpath hfuel (by decide) (by decide) rest
  | cons c after =>
    have hblank : isBlank c = true := hafter c List.mem_cons_self
    have hname : isNameChar c = false := by
      by_contra hname
      rw [Bool.not_eq_false] at hname
      exact absurd (isBlank_of_isNameChar hname) (by simp [hblank])
    have hdot : c ≠ '.' := by
      rintro rfl
      exact absurd hblank (by decide)
    exact takeDotted?_dotted hpath hfuel hname hdot _

theorem exists_cons_of_dotted (hpath : IsPath path) :
    ∃ c rest, dotted path = c :: rest ∧ isBlank c = false := by
  obtain ⟨hne, hparts⟩ := hpath
  obtain ⟨part, path, rfl⟩ := List.exists_cons_of_ne_nil hne
  obtain ⟨c, part, rfl, hstart, -⟩ := hparts part List.mem_cons_self
  have hblank := isBlank_of_isNameChar (isNameChar_of_isNameStart hstart)
  cases path with
  | nil => exact ⟨c, part, dotted_singleton _, hblank⟩
  | cons part' path =>
    exact ⟨c, _, dotted_cons _ (List.cons_ne_nil _ _), hblank⟩

/-- A placeholder is read where one is spelled, and nowhere else. -/
theorem takePlaceholder?_eq_some_iff : takePlaceholder? cs = some (name, rest) ↔
    ∃ mark path, Spells mark path ∧ name = dotted path ∧ cs = mark ++ rest := by
  constructor
  · intro h
    unfold takePlaceholder? at h
    split at h
    · rename_i inner
      split at h
      · rename_i name' after hname
        split at h
        · rename_i after' hafter
          cases h
          obtain ⟨path, hpath, rfl, hinner⟩ := path_of_takeDotted? hname
          have hbefore := (List.takeWhile_append_dropWhile (p := isBlank) (l := inner)).symm
          have hbehind := (List.takeWhile_append_dropWhile (p := isBlank) (l := after)).symm
          refine ⟨_, path, ⟨hpath, inner.takeWhile isBlank, after.takeWhile isBlank,
            fun c hc => List.mem_takeWhile_imp hc, fun c hc => List.mem_takeWhile_imp hc, rfl⟩, rfl,
            ?_⟩
          rw [hafter] at hbehind
          rw [hinner] at hbefore
          simp only [List.cons_append, List.append_assoc, List.nil_append]
          rw [← hbehind, ← hbefore]
        · cases h
      · cases h
    · cases h
  · rintro ⟨mark, path, ⟨hpath, before, after, hbefore, hafter, rfl⟩, rfl, rfl⟩
    have hinner : before ++ (dotted path ++ (after ++ ['\x7d'])) ++ rest =
        before ++ (dotted path ++ (after ++ '}' :: rest)) := by simp
    obtain ⟨c, name, hname, hc⟩ := exists_cons_of_dotted hpath
    have hdrop : (before ++ (dotted path ++ (after ++ '\x7d' :: rest))).dropWhile isBlank =
        dotted path ++ (after ++ '\x7d' :: rest) := by
      rw [hname]
      exact (span_append_cons hbefore hc _).2
    -- Each identifier has a character, so the length of the text is fuel enough.
    have hfuel : path.length ≤ (before ++ (dotted path ++ (after ++ '\x7d' :: rest))).length := by
      have hle := length_le_length_dotted hpath.2
      simp only [List.length_append]
      omega
    have hclose := (span_append_cons hafter (c := '\x7d') rfl rest).2
    rw [List.cons_append, List.cons_append, hinner, takePlaceholder?, hdrop]
    simp only [takeDotted?_append hpath hfuel hafter rest, hclose]

theorem takePlaceholder?_eq_none_iff : takePlaceholder? cs = none ↔
    ∀ mark path rest, Spells mark path → cs ≠ mark ++ rest := by
  rw [Option.eq_none_iff_forall_ne_some]
  constructor
  · exact fun hnone mark path rest hspells heq => hnone (dotted path, rest)
      (takePlaceholder?_eq_some_iff.mpr ⟨mark, path, hspells, rfl, heq⟩)
  · rintro hnone ⟨name, rest⟩ hsome
    obtain ⟨mark, path, hspells, -, heq⟩ := takePlaceholder?_eq_some_iff.mp hsome
    exact hnone mark path rest hspells heq

theorem takePlaceholder?_of_spells (h : Spells mark path) (rest : List Char) :
    takePlaceholder? (mark ++ rest) = some (dotted path, rest) :=
  takePlaceholder?_eq_some_iff.mpr ⟨mark, path, h, rfl, rfl⟩

theorem Spells.unique {mark' rest' : List Char} {path' : List (List Char)} (h : Spells mark path)
    (h' : Spells mark' path') (heq : mark ++ rest = mark' ++ rest') :
    mark = mark' ∧ path = path' ∧ rest = rest' := by
  have hread := takePlaceholder?_of_spells h rest
  rw [heq, takePlaceholder?_of_spells h' rest', Option.some.injEq, Prod.mk.injEq] at hread
  obtain ⟨hname, rfl⟩ := hread
  exact ⟨List.append_cancel_right heq, path_of_dotted h.1 h'.1 hname.symm, rfl⟩

theorem Spells.ne_nil (h : Spells mark path) : mark ≠ [] := by
  obtain ⟨-, before, after, -, -, rfl⟩ := h
  exact List.cons_ne_nil _ _

end ReleasePipeline.Template
