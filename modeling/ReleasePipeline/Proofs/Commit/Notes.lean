import ReleasePipeline.Commit.Notes
import ReleasePipeline.Proofs.Text.Line

/-! The text of release notes: a heading and the sections that hold something. -/
namespace ReleasePipeline.Notes

variable {types : List NoteType} {commits : List Commit} {r : Release} {version tag : String}

/-- A section of a page: its heading, a blank line and its entries. -/
def block (s : String × List String) : String :=
  "\n\n### " ++ s.1 ++ "\n\n" ++ String.intercalate "\n" s.2

/-- A heading with sections below it and a line feed at the end. -/
def page (heading : String) (sections : List (String × List String)) : String :=
  heading ++ String.join (sections.map block) ++ "\n"

theorem intercalate_append {xs ys : List String} (hne : xs ≠ []) (sep : String):
    String.intercalate sep (xs ++ ys) = String.intercalate sep (String.intercalate sep xs :: ys) := by
  cases ys with
  | nil => simp
  | cons y ys =>
    rw [String.intercalate_append_of_ne_nil hne (by simp), String.intercalate_cons_cons]

theorem intercalate_sectionLines {sections : List (String × List String)} (heading : String)
    (hsections : ∀ s ∈ sections, s.2 ≠ []) :
    String.intercalate "\n" (heading :: "" :: sections.flatMap fun s => sectionLines s.1 s.2) =
      page heading sections := by
  induction sections generalizing heading with
  | nil => simp [page, String.intercalate_cons_cons]
  | cons s sections ih =>
    obtain ⟨hs, hrest⟩ := List.forall_mem_cons.mp hsections
    have hlines : sectionLines s.1 s.2 = ("### " ++ s.1) :: "" :: (s.2 ++ [""]) := by
      rw [sectionLines, if_neg (by simpa using hs)]
      rfl
    have hentries : String.intercalate "\n" (s.2 ++ "" :: sections.flatMap fun s =>
        sectionLines s.1 s.2) = page (String.intercalate "\n" s.2) sections := by
      rw [intercalate_append hs, ih _ hrest]
    have hne : s.2 ++ "" :: sections.flatMap (fun s => sectionLines s.1 s.2) ≠ [] := by simp
    rw [List.flatMap_cons, hlines, List.cons_append, List.cons_append, List.append_assoc,
      List.singleton_append, String.intercalate_cons_cons, String.intercalate_cons_cons,
      String.intercalate_cons_cons, String.intercalate_cons_of_ne_nil hne, hentries]
    simp [page, block, String.append_assoc, ← String.toList_inj]

/-- The text ends with a closing bracket. -/
def Bracketed (text : String) : Prop := ∃ front, text = front ++ ")"

theorem Bracketed.append {text : String} (front : String) (h : Bracketed text) :
    Bracketed (front ++ text) := by
  obtain ⟨rest, rfl⟩ := h
  exact ⟨front ++ rest, String.append_assoc.symm⟩

theorem bracketed_entry (c : Commit) (subject : String) : Bracketed (entry c subject) :=
  ⟨_, rfl⟩

theorem bracketed_intercalate {entries : List String} (hne : entries ≠ [])
    (hentries : ∀ e ∈ entries, Bracketed e) : Bracketed (String.intercalate "\n" entries) := by
  induction entries with
  | nil => exact absurd rfl hne
  | cons e es ih =>
    obtain ⟨he, hrest⟩ := List.forall_mem_cons.mp hentries
    by_cases hes : es = []
    · subst hes
      rwa [String.intercalate_singleton]
    · rw [String.intercalate_cons_of_ne_nil hes]
      exact (ih hes hrest).append _

theorem bracketed_join {sections : List (String × List String)} {heading : String}
    (hheading : Bracketed heading)
    (hsections : ∀ s ∈ sections, s.2 ≠ [] ∧ ∀ e ∈ s.2, Bracketed e) :
    Bracketed (heading ++ String.join (sections.map block)) := by
  induction sections generalizing heading with
  | nil => simpa using hheading
  | cons s sections ih =>
    obtain ⟨⟨hne, hs⟩, hrest⟩ := List.forall_mem_cons.mp hsections
    have hblock : Bracketed (heading ++ block s) :=
      ((bracketed_intercalate hne hs).append _).append heading
    rw [List.map_cons, String.join_cons, ← String.append_assoc]
    exact ih hblock hrest

/-- Of a page only the line feed at the end is cut off. -/
theorem stripEnd_page {sections : List (String × List String)} {heading : String}
    (hheading : Bracketed heading)
    (hsections : ∀ s ∈ sections, s.2 ≠ [] ∧ ∀ e ∈ s.2, Bracketed e) :
    Text.stripEnd (page heading sections) ++ "\n" = page heading sections := by
  obtain ⟨front, hfront⟩ := bracketed_join hheading hsections
  have hstrip : Text.stripEnd (front ++ ")" ++ "\n") = front ++ ")" := by
    have hcut := Text.dropEndWhile_append (p := Text.isBlank) (c := ')') rfl front.toList ['\n']
    have hfeed : Text.dropEndWhile Text.isBlank ['\n'] = [] := rfl
    rw [Text.stripEnd, ← String.toList_inj, String.toList_ofList]
    simpa [hfeed] using hcut
  rw [page, hfront, hstrip]

/-- What adds nothing may be left out. -/
theorem flatMap_filter_of_nil {α β : Type} {p : α → Bool} {f : α → List β} {xs : List α}
    (h : ∀ x ∈ xs, p x = false → f x = []) : (xs.filter p).flatMap f = xs.flatMap f := by
  induction xs with
  | nil => rfl
  | cons x xs ih =>
    obtain ⟨hx, hrest⟩ := List.forall_mem_cons.mp h
    cases hp : p x with
    | true => rw [List.filter_cons_of_pos hp, List.flatMap_cons, List.flatMap_cons, ih hrest]
    | false =>
      rw [List.filter_cons_of_neg (by simp [hp]), List.flatMap_cons, ih hrest, hx hp,
        List.nil_append]

/-- The sections of the notes that hold an entry. -/
def written (types : List NoteType) (commits : List Commit) : List (String × List String) :=
  ((breakingHeading, (commits.filter (·.breaking)).map breakingEntry) ::
    (headings types).map fun h => (h, entriesUnder types commits h)).filter fun s => s.2 ≠ []

theorem bracketed_of_mem_written {s : String × List String} (hs : s ∈ written types commits) :
    s.2 ≠ [] ∧ ∀ e ∈ s.2, Bracketed e := by
  obtain ⟨hmem, hne⟩ := List.mem_filter.mp hs
  refine ⟨of_decide_eq_true hne, fun e he => ?_⟩
  rcases List.mem_cons.mp hmem with rfl | hmem
  · obtain ⟨c, -, rfl⟩ := List.mem_map.mp he
    exact bracketed_entry c _
  · obtain ⟨h, -, rfl⟩ := List.mem_map.mp hmem
    obtain ⟨c, -, rfl⟩ := List.mem_map.mp he
    exact bracketed_entry c _

theorem lines_eq (types : List NoteType) (commits : List Commit) (r : Release) :
    lines types commits r = s!"## {title r} ({r.date.iso})" :: "" ::
      (written types commits).flatMap fun s => sectionLines s.1 s.2 := by
  rw [written, flatMap_filter_of_nil, List.flatMap_cons, List.flatMap_map]
  · rfl
  · intro s _ hs
    have hnil : s.2 = [] := by simpa using hs
    rw [hnil]
    rfl

/-- The notes are the page of their sections. -/
theorem render_eq_page (types : List NoteType) (commits : List Commit) (r : Release) :
    render types commits r = page s!"## {title r} ({r.date.iso})" (written types commits) := by
  have hwritten : ∀ s ∈ written types commits, s.2 ≠ [] ∧ ∀ e ∈ s.2, Bracketed e :=
    fun s hs => bracketed_of_mem_written hs
  rw [render, lines_eq, intercalate_sectionLines _ fun s hs => (hwritten s hs).1]
  exact stripEnd_page ⟨_, rfl⟩ hwritten

/-- A title of notes: the version, or a link of that text to the changes up to the tag. -/
def Titled (version tag title : String) : Prop :=
  title = version ∨ ∃ site previous : String, title = s!"[{version}]({site}/compare/{previous}...{tag})"

/-- The notes begin with a heading that names the version, and the tag where it is a link. -/
def Headed (version tag notes : String) : Prop :=
  ∃ title date rest : String, Titled version tag title ∧ notes = s!"## {title} ({date})\n" ++ rest

theorem titled_title (htag : r.tag = some tag) : Titled r.version tag (title r) := by
  rw [title]
  split
  · rename_i url previous tag' _ _ htag'
    have hsame : tag' = tag := by
      rw [htag, Option.bind_some, Commit.nonEmpty?] at htag'
      split at htag'
      · cases htag'
      · exact (Option.some.inj htag').symm
    subst hsame
    exact .inr ⟨_, _, rfl⟩
  · exact .inl rfl

theorem exists_page (heading : String) (sections : List (String × List String)) :
    ∃ rest, page heading sections = heading ++ "\n" ++ rest := by
  cases sections with
  | nil => exact ⟨"", by simp [page]⟩
  | cons s sections =>
    refine ⟨"\n### " ++ s.1 ++ "\n\n" ++ String.intercalate "\n" s.2 ++
      String.join (sections.map block) ++ "\n", ?_⟩
    simp [page, block, ← String.toList_inj]

/-- Whatever the commits, the notes of a release have the heading of its version. -/
theorem headed_render (htag : r.tag = some tag) : Headed r.version tag (render types commits r) := by
  obtain ⟨rest, hrest⟩ := exists_page s!"## {title r} ({r.date.iso})" (written types commits)
  have hfeed : s!"## {title r} ({r.date.iso})" ++ "\n" = s!"## {title r} ({r.date.iso})\n" :=
    String.append_assoc
  exact ⟨title r, r.date.iso, rest, titled_title htag, by rw [render_eq_page, hrest, hfeed]⟩

end ReleasePipeline.Notes
