import ReleasePipeline.Proofs.Commit.NoteType
import ReleasePipeline.Proofs.Commit.Notes

/-! Where the commits of a release stand in its notes. -/
namespace ReleasePipeline.Notes

open NoteType

variable {types : List NoteType} {cs : List Commit} {c : Commit} {heading heading' : String}

theorem headings_concat (types : List NoteType) (t : NoteType) :
    headings (types ++ [t]) =
      if (Fresh types t.type ∧ t.hidden = false) ∧ t.heading ∉ headings types
      then headings types ++ [t.heading] else headings types := by
  rw [headings, visible_concat]
  by_cases hshown : Fresh types t.type ∧ t.hidden = false
  · rw [if_pos hshown, List.foldl_append]
    by_cases hseen : t.heading ∈ headings types
    · rw [if_neg (fun h => h.2 hseen)]
      exact if_pos (List.contains_iff_mem.mpr hseen)
    · rw [if_pos ⟨hshown, hseen⟩]
      exact if_neg (fun h => hseen (List.contains_iff_mem.mp h))
  · rw [if_neg hshown, if_neg (fun h => hshown h.1)]
    rfl

theorem mem_headings_iff : heading ∈ headings types ↔ ∃ i, ShowsAt types i heading := by
  induction types using List.reverseRecOn with
  | nil => simp [headings, visible, firstEntries, ShowsAt, FirstAt]
  | append_singleton types t ih =>
    simp only [headings_concat, showsAt_concat, exists_or, ← ih, exists_eq_left]
    split
    · rename_i hnew
      simp [hnew, eq_comm]
    · rename_i hold
      constructor
      · exact .inl
      · rintro (h | ⟨hfresh, hshown, rfl⟩)
        · exact h
        · by_contra hne
          exact hold ⟨⟨hfresh, hshown⟩, hne⟩

theorem nodup_headings (types : List NoteType) : (headings types).Nodup := by
  induction types using List.reverseRecOn with
  | nil => exact List.nodup_nil
  | append_singleton types t ih =>
    rw [headings_concat]
    split
    · rename_i hnew
      exact List.nodup_append.mpr ⟨ih, by simp, fun a ha b hb hab =>
        hnew.2 (List.mem_singleton.mp hb ▸ hab ▸ ha)⟩
    · exact ih

/-- The headings stand in the order of the first places that show them. -/
theorem pairwise_headings (types : List NoteType) : (headings types).Pairwise fun a b =>
    ∃ i, ShowsAt types i a ∧ ∀ j, ShowsAt types j b → i < j := by
  induction types using List.reverseRecOn with
  | nil => exact .nil
  | append_singleton types t ih =>
    have hkeep {a b : String} (h : ∃ i, ShowsAt types i a ∧ ∀ j, ShowsAt types j b → i < j) :
        ∃ i, ShowsAt (types ++ [t]) i a ∧ ∀ j, ShowsAt (types ++ [t]) j b → i < j := by
      obtain ⟨i, hi, hlt⟩ := h
      refine ⟨i, showsAt_concat.mpr (.inl hi), fun j hj => ?_⟩
      rcases showsAt_concat.mp hj with hj | ⟨rfl, -⟩
      · exact hlt j hj
      · exact hi.lt_length
    rw [headings_concat]
    split
    · rename_i hnew
      refine List.pairwise_append.mpr ⟨ih.imp hkeep, List.pairwise_singleton _ _, ?_⟩
      intro a ha b hb
      rw [List.mem_singleton.mp hb]
      obtain ⟨i, hi⟩ := mem_headings_iff.mp ha
      exact hkeep ⟨i, hi, fun j hj => absurd (mem_headings_iff.mpr ⟨j, hj⟩) hnew.2⟩
    · exact ih.imp hkeep

/-- The first entry of the commit's type shows it, and under this heading. -/
def StandsUnder (types : List NoteType) (c : Commit) (heading : String) : Prop :=
  ∃ i t, FirstAt types i t ∧ t.hidden = false ∧ t.heading = heading ∧ c.type = some t.type

theorem headingOf?_eq_some_iff :
    headingOf? types c = some heading ↔ StandsUnder types c heading := by
  constructor
  · intro h
    obtain ⟨kind, hkind, h⟩ := Option.bind_eq_some_iff.mp h
    obtain ⟨t, ht, hheading⟩ := Option.bind_eq_some_iff.mp h
    obtain ⟨i, hfirst, hshown⟩ := mem_visible_iff.mp (List.mem_of_find?_eq_some ht)
    have htype : t.type = kind := by simpa using List.find?_some ht
    exact ⟨i, t, hfirst, hshown, Option.some.inj hheading, htype ▸ hkind⟩
  · rintro ⟨i, t, hfirst, hshown, rfl, hkind⟩
    have hfind : (visible types).find? (fun u => u.type = t.type) = some t := by
      have hmem : t ∈ visible types := mem_visible_iff.mpr ⟨i, hfirst, hshown⟩
      cases hu : (visible types).find? (fun u => u.type = t.type) with
      | none =>
        have hne := List.find?_eq_none.mp hu t hmem
        simp at hne
      | some u =>
        obtain ⟨j, hfirst', -⟩ := mem_visible_iff.mp (List.mem_of_find?_eq_some hu)
        have htype : u.type = t.type := by simpa using List.find?_some hu
        rw [(hfirst'.unique hfirst htype).2]
    refine Option.bind_eq_some_iff.mpr ⟨t.type, hkind, ?_⟩
    exact Option.bind_eq_some_iff.mpr ⟨t, hfind, rfl⟩

instance (c : Commit) : Decidable (StandsUnder types c heading) :=
  decidable_of_iff _ headingOf?_eq_some_iff

instance (c : Commit) : Decidable (∃ heading, StandsUnder types c heading) :=
  decidable_of_iff ((headingOf? types c).isSome = true) (by
    rw [Option.isSome_iff_exists]
    exact exists_congr fun _ => headingOf?_eq_some_iff)

theorem StandsUnder.unique (h : StandsUnder types c heading)
    (h' : StandsUnder types c heading') : heading = heading' :=
  Option.some.inj ((headingOf?_eq_some_iff.mpr h).symm.trans (headingOf?_eq_some_iff.mpr h'))

/-- The sections of notes are the headings that types show, in the order of their first places, and
under each heading that some commit stands under, the commits that do. -/
structure Arranged (types : List NoteType) (cs : List Commit)
    (sections : List (String × List Commit)) : Prop where
  nodup : (sections.map (·.1)).Nodup
  ordered : sections.Pairwise fun a b =>
    ∃ i, ShowsAt types i a.1 ∧ ∀ j, ShowsAt types j b.1 → i < j
  commits : ∀ s ∈ sections, s.2 ≠ [] ∧ s.2 = cs.filter fun c => StandsUnder types c s.1
  complete : ∀ c ∈ cs, ∀ heading, StandsUnder types c heading → heading ∈ sections.map (·.1)
  unlisted : ∀ c, (c.type = none ∨
    ∃ i t, FirstAt types i t ∧ c.type = some t.type ∧ t.hidden = true) → ∀ s ∈ sections, c ∉ s.2
  once : (sections.flatMap (·.2)).Perm (cs.filter fun c => ∃ heading, StandsUnder types c heading)

/-- The headings with the commits under them. -/
def sectionsOf (types : List NoteType) (cs : List Commit) : List (String × List Commit) :=
  ((headings types).map fun h => (h, cs.filter fun c => StandsUnder types c h)).filter
    fun s => s.2 ≠ []

theorem mem_headings_of_standsUnder (h : StandsUnder types c heading) :
    heading ∈ headings types := by
  obtain ⟨i, t, hfirst, hshown, hheading, -⟩ := h
  exact mem_headings_iff.mpr ⟨i, t, hfirst, hshown, hheading⟩

/-- Under different headings each commit stands once at most. -/
theorem perm_filter_headings {hs : List String} (hnodup : hs.Nodup) (cs : List Commit) :
    (hs.flatMap fun h => cs.filter fun c => StandsUnder types c h).Perm
      (cs.filter fun c => ∃ h ∈ hs, StandsUnder types c h) := by
  induction hs with
  | nil => simp
  | cons h hs ih =>
    obtain ⟨hnew, hrest⟩ := List.nodup_cons.mp hnodup
    have hthis : (cs.filter fun c => ∃ h' ∈ h :: hs, StandsUnder types c h').filter
        (fun c => StandsUnder types c h) = cs.filter fun c => StandsUnder types c h := by
      rw [List.filter_filter]
      refine List.filter_congr fun c _ => ?_
      rw [← Bool.decide_and, decide_eq_decide]
      exact ⟨And.left, fun hc => ⟨hc, h, List.mem_cons_self, hc⟩⟩
    have hothers : (cs.filter fun c => ∃ h' ∈ h :: hs, StandsUnder types c h').filter
        (fun c => !decide (StandsUnder types c h)) =
          cs.filter fun c => ∃ h' ∈ hs, StandsUnder types c h' := by
      rw [List.filter_filter]
      refine List.filter_congr fun c _ => ?_
      rw [← decide_not, ← Bool.decide_and, decide_eq_decide]
      constructor
      · rintro ⟨hne, h', hmem, hc⟩
        rcases List.mem_cons.mp hmem with rfl | hmem
        · exact absurd hc hne
        · exact ⟨h', hmem, hc⟩
      · rintro ⟨h', hmem, hc⟩
        exact ⟨fun hc' => hnew (hc'.unique hc ▸ hmem), h', List.mem_cons_of_mem h hmem, hc⟩
    have hsplit := List.filter_append_perm (fun c => decide (StandsUnder types c h))
      (cs.filter fun c => ∃ h' ∈ h :: hs, StandsUnder types c h')
    rw [hthis, hothers] at hsplit
    rw [List.flatMap_cons]
    exact ((ih hrest).append_left _).trans hsplit

theorem arranged_sectionsOf (types : List NoteType) (cs : List Commit) :
    Arranged types cs (sectionsOf types cs) where
  nodup := by
    have hsub : ((sectionsOf types cs).map (·.1)).Sublist (headings types) := by
      have hmap := (List.filter_sublist (p := fun s : String × List Commit => s.2 ≠ [])
        (l := (headings types).map fun h => (h, cs.filter fun c => StandsUnder types c h))).map (·.1)
      rwa [List.map_map, show ((·.1) ∘ fun h => (h, cs.filter fun c => StandsUnder types c h)) = id
        from rfl, List.map_id] at hmap
    exact (nodup_headings types).sublist hsub
  ordered := (List.pairwise_map.mpr (pairwise_headings types)).filter _
  commits := by
    intro s hs
    obtain ⟨hmem, hne⟩ := List.mem_filter.mp hs
    obtain ⟨h, -, rfl⟩ := List.mem_map.mp hmem
    exact ⟨of_decide_eq_true hne, rfl⟩
  complete := by
    intro c hc heading hstands
    have hmem : c ∈ cs.filter fun c => StandsUnder types c heading :=
      List.mem_filter.mpr ⟨hc, decide_eq_true hstands⟩
    refine List.mem_map.mpr ⟨(heading, cs.filter fun c => StandsUnder types c heading), ?_, rfl⟩
    refine List.mem_filter.mpr ⟨List.mem_map_of_mem (mem_headings_of_standsUnder hstands), ?_⟩
    exact decide_eq_true (List.ne_nil_of_mem hmem)
  unlisted := by
    intro c hleft s hs hc
    obtain ⟨hmem, -⟩ := List.mem_filter.mp hs
    obtain ⟨h, -, rfl⟩ := List.mem_map.mp hmem
    obtain ⟨i, t, hfirst, hshown, -, htype⟩ := of_decide_eq_true (List.mem_filter.mp hc).2
    rcases hleft with hnone | ⟨j, u, hfirst', htype', hhidden⟩
    · rw [htype] at hnone
      cases hnone
    · have hsame : t.type = u.type := Option.some.inj (htype.symm.trans htype')
      rw [(hfirst.unique hfirst' hsame).2, hhidden] at hshown
      cases hshown
  once := by
    have hflat : (sectionsOf types cs).flatMap (·.2) =
        (headings types).flatMap fun h => cs.filter fun c => StandsUnder types c h := by
      rw [sectionsOf, flatMap_filter_of_nil fun s _ hs => by simpa using hs, List.flatMap_map]
    have hshown : (cs.filter fun c => ∃ heading, StandsUnder types c heading) =
        cs.filter fun c => ∃ h ∈ headings types, StandsUnder types c h := by
      refine List.filter_congr fun c _ => decide_eq_decide.mpr ⟨?_, ?_⟩
      · rintro ⟨h, hc⟩
        exact ⟨h, mem_headings_of_standsUnder hc, hc⟩
      · rintro ⟨h, -, hc⟩
        exact ⟨h, hc⟩
    rw [hflat, hshown]
    exact perm_filter_headings (nodup_headings types) cs

/-- Behind the breaking changes the sections are those of the types. -/
theorem written_eq (types : List NoteType) (cs : List Commit) : written types cs =
    (if ∃ c ∈ cs, c.breaking = true
      then [(breakingHeading, (cs.filter (·.breaking)).map breakingEntry)] else []) ++
    (sectionsOf types cs).map fun s => (s.1, s.2.map fun c => entry c c.subject) := by
  have hentries (h : String) : entriesUnder types cs h =
      (cs.filter fun c => StandsUnder types c h).map fun c => entry c c.subject := by
    rw [entriesUnder]
    congr 1
    exact List.filter_congr fun c _ => decide_eq_decide.mpr headingOf?_eq_some_iff
  have hsections : ((headings types).map fun h => (h, entriesUnder types cs h)).filter
      (fun s => s.2 ≠ []) =
        (sectionsOf types cs).map fun s => (s.1, s.2.map fun c => entry c c.subject) := by
    rw [sectionsOf, List.filter_map, List.filter_map, List.map_map]
    simp only [hentries, Function.comp_def, ne_eq, List.map_eq_nil_iff]
  rw [written, List.filter_cons, hsections]
  by_cases hbreaking : ∃ c ∈ cs, c.breaking = true
  · obtain ⟨c, hc, hbreaks⟩ := hbreaking
    have hne : (cs.filter (·.breaking)).map breakingEntry ≠ [] :=
      List.ne_nil_of_mem (List.mem_map_of_mem (List.mem_filter.mpr ⟨hc, hbreaks⟩))
    rw [if_pos (decide_eq_true hne), if_pos ⟨c, hc, hbreaks⟩]
    rfl
  · have hnil : cs.filter (·.breaking) = [] :=
      List.filter_eq_nil_iff.mpr fun c hc hbreaks => hbreaking ⟨c, hc, hbreaks⟩
    rw [if_neg (by simp [hnil]), if_neg hbreaking, List.nil_append]

theorem render_congr {types' : List NoteType} (h : visible types = visible types')
    (cs : List Commit) (r : Release) : render types cs r = render types' cs r := by
  have hheading : headingOf? types = headingOf? types' := by
    funext c
    rw [headingOf?, h, headingOf?]
  have hheadings : headings types = headings types' := by rw [headings, h, headings]
  have hentries : entriesUnder types = entriesUnder types' := by
    funext cs heading
    rw [entriesUnder, hheading, entriesUnder]
  rw [render, lines, hheadings, hentries, render, lines]

theorem bind_nonEmpty?_eq_some {text? : Option String} {text : String} (h : text? = some text)
    (hne : text ≠ "") : text?.bind Commit.nonEmpty? = some text := by
  rw [h, Option.bind_some, Commit.nonEmpty?, if_neg (by simpa using hne)]

theorem bind_nonEmpty?_eq_none_iff {text? : Option String} :
    text?.bind Commit.nonEmpty? = none ↔ ∀ text, text? = some text → text = "" := by
  cases text? with
  | none => simp
  | some s => simp [Commit.nonEmpty?]

/-- The text is the entry of a commit with a subject: its scope stands in front if it has one, and the
beginning of its hash behind. -/
structure IsEntry (c : Commit) (subject text : String) : Prop where
  withScope : ∀ scope, c.scope = some scope → scope ≠ "" → text =
    "* **" ++ scope ++ ":** " ++ subject ++ " (" ++ String.ofList (c.sha.toList.take 7) ++ ")"
  withoutScope : (∀ scope, c.scope = some scope → scope = "") → text =
    "* " ++ subject ++ " (" ++ String.ofList (c.sha.toList.take 7) ++ ")"

theorem isEntry (c : Commit) (subject : String) : IsEntry c subject (entry c subject) where
  withScope scope hscope hne := by
    rw [entry, bind_nonEmpty?_eq_some hscope hne]
    simp only [Commit.shortSha, toString, String.append_assoc]
    exact String.append_assoc.symm
  withoutScope hnone := by
    rw [entry, bind_nonEmpty?_eq_none_iff.mpr hnone]
    simp [Commit.shortSha, toString]

/-- The text is the entry of a breaking change: its subject is its note if it has one. -/
structure IsBreakingEntry (c : Commit) (text : String) : Prop where
  withNote : ∀ note, c.note = some note → note ≠ "" → IsEntry c note text
  withoutNote : (∀ note, c.note = some note → note = "") → IsEntry c c.subject text

theorem isBreakingEntry (c : Commit) : IsBreakingEntry c (breakingEntry c) where
  withNote note hnote hne := by
    rw [breakingEntry, bind_nonEmpty?_eq_some hnote hne]
    exact isEntry c note
  withoutNote hnone := by
    rw [breakingEntry, bind_nonEmpty?_eq_none_iff.mpr hnone]
    exact isEntry c c.subject

/-- The text is the title of a release: its version, with a link to the changes since the previous tag
where the repository and both tags are known. Slashes at the end of the repository are left out. -/
structure IsTitle (r : Release) (text : String) : Prop where
  linked : ∀ url previous tag site slashes, r.repositoryUrl = some url →
    r.previousTag = some previous → r.tag = some tag → url ≠ "" → previous ≠ "" → tag ≠ "" →
    url = site ++ slashes → (∀ c ∈ slashes.toList, c = '/') → site.toList.getLast? ≠ some '/' →
    text = "[" ++ r.version ++ "](" ++ site ++ "/compare/" ++ previous ++ "..." ++ tag ++ ")"
  plain : (∀ url, r.repositoryUrl = some url → url = "") ∨
    (∀ previous, r.previousTag = some previous → previous = "") ∨
    (∀ tag, r.tag = some tag → tag = "") → text = r.version

theorem isTitle (r : Release) : IsTitle r (title r) where
  linked url previous tag site slashes hurl hprevious htag hne hne' hne'' hsplit hslashes hsite := by
    have hsite' : site.toList.reverse.dropWhile (· = '/') = site.toList.reverse := by
      rw [← List.head?_reverse] at hsite
      cases hchars : site.toList.reverse with
      | nil => rfl
      | cons c cs =>
        rw [hchars] at hsite
        exact List.dropWhile_cons_of_neg (by simpa using hsite)
    have hstripped : Text.stripEndOf (· = '/') url = site := by
      rw [hsplit, Text.stripEndOf, Text.dropEndWhile, String.toList_append, List.reverse_append,
        List.dropWhile_append_of_pos (by simpa using hslashes), hsite', List.reverse_reverse,
        String.ofList_toList]
    rw [title, bind_nonEmpty?_eq_some hurl hne,
      bind_nonEmpty?_eq_some hprevious hne', bind_nonEmpty?_eq_some htag hne'']
    simp [hstripped, toString]
  plain h := by
    simp only [← bind_nonEmpty?_eq_none_iff] at h
    rw [title]
    split
    · rename_i hurl hprevious htag
      simp [hurl, hprevious, htag] at h
    · rfl

/-- The notes of accepted types are a heading, the breaking changes if there are any and the sections
of the types, with one line feed at the end. Later entries for a type change nothing. -/
theorem render_arranges_commits {v : Value} {types : List NoteType}
    (h : NoteType.listOf v = .ok types) (cs : List Commit) (r : Release) :
    (∃ ts, NoteType.tables v = .ok ts ∧ List.Forall₂ NoteType.Reads ts types) ∧
    (∃ sections, Arranged types cs sections ∧
      render types cs r = page s!"## {title r} ({r.date.iso})"
        ((if ∃ c ∈ cs, c.breaking = true
          then [(breakingHeading, (cs.filter (·.breaking)).map breakingEntry)] else []) ++
        sections.map fun s => (s.1, s.2.map fun c => entry c c.subject))) ∧
    (∀ before t after, types = before ++ t :: after → (∃ u ∈ before, u.type = t.type) →
      render (before ++ after) cs r = render types cs r) ∧
    (∃ front c, (render types cs r).toList = front ++ [c, '\n'] ∧ c ≠ '\n') ∧
    IsTitle r (title r) ∧ (∀ c ∈ cs, IsEntry c c.subject (entry c c.subject)) ∧
    ∀ c ∈ cs, IsBreakingEntry c (breakingEntry c) := by
  obtain ⟨ts, hts, rfl⟩ := map_eq_ok.mp h
  refine ⟨⟨ts, hts, reads_of_tables hts⟩, ⟨_, arranged_sectionsOf _ cs, ?_⟩, ?_, ?_, isTitle r,
    fun c _ => isEntry c c.subject, fun c _ => isBreakingEntry c⟩
  · rw [render_eq_page, written_eq]
  · rintro before t after htypes ⟨u, hu, htype⟩
    refine render_congr ?_ cs r
    rw [visible, visible, htypes, firstEntries_of_mem hu htype]
  · have hheading : Bracketed s!"## {title r} ({r.date.iso})" := ⟨_, rfl⟩
    obtain ⟨front, hfront⟩ := bracketed_join hheading fun s hs =>
      bracketed_of_mem_written (hs : s ∈ written (ts.map NoteType.ofTable) cs)
    refine ⟨front.toList, ')', ?_, by decide⟩
    rw [render_eq_page, page, hfront]
    simp

/-- The features stand under the heading of their first entry, and the documentation is left out. -/
theorem sections_of_repeated_types :
    let types : List NoteType := [⟨"feat", "New", false⟩, ⟨"docs", "docs", true⟩,
      ⟨"feat", "feat", true⟩, ⟨"fix", "New", false⟩, ⟨"docs", "Texts", false⟩]
    let cs := [Commit.ofMessage "1" "fix: a", Commit.ofMessage "2" "docs!: b",
      Commit.ofMessage "3" "feat: c", Commit.ofMessage "4" "Merge d"]
    let r : Release := { version := "1.0.0", date := ⟨2024, 5, 1⟩ }
    NoteType.listOf (.list [
      .table (Table.ofNames [("type", .string "feat"), ("section", .string "New")]),
      .table (Table.ofNames [("type", .string "docs"), ("hidden", .bool true)]),
      .table (Table.ofNames [("type", .string "feat"), ("hidden", .bool true)]),
      .table (Table.ofNames [("type", .string "fix"), ("section", .string "New")]),
      .table (Table.ofNames [("type", .string "docs"), ("section", .string "Texts")])]) =
        .ok types ∧
    (∃ sections, Arranged types cs sections ∧
      render types cs r = page s!"## {title r} ({r.date.iso})"
        ((if ∃ c ∈ cs, c.breaking = true
          then [(breakingHeading, (cs.filter (·.breaking)).map breakingEntry)] else []) ++
        sections.map fun s => (s.1, s.2.map fun c => entry c c.subject))) := by
  intro types cs r
  refine ⟨?accepted, (render_arranges_commits ?accepted cs r).2.1⟩
  rfl

end ReleasePipeline.Notes
