import ReleasePipeline.Plugin.Options
import ReleasePipeline.Proofs.Except
import ReleasePipeline.Proofs.Text.Search
import ReleasePipeline.Proofs.Version.Reading

/-! Templates that name only what every release has are filled in by each release whose versions can be
written, and no others ever are. -/
namespace ReleasePipeline

theorem Table.get?_ofNames (entries : List (String × Value)) (name : String) :
    (Table.ofNames entries).get? name = entries.lookup name := by
  induction entries with
  | nil => rfl
  | cons entry entries ih =>
    obtain ⟨k, v⟩ := entry
    have hcons : Table.get? (Table.ofNames ((k, v) :: entries)) name =
        if k = name then some v else Table.get? (Table.ofNames entries) name := by
      by_cases h : k = name
      · simp [Table.get?, Table.ofNames, h]
      · simp [Table.get?, Table.ofNames, h]
    rw [hcons, ih, List.lookup_cons]
    by_cases h : k = name
    · simp [h]
    · simp [h, beq_false_of_ne (Ne.symm h)]

namespace Release

variable {r : Release} {e : Decimal.NumeralError}

/-- The last and the next version, where there are such, have numbers that are short enough to be
written. -/
structure IsWritable (r : Release) : Prop where
  last : ∀ v, r.lastRelease = some v → v.isWritable = true
  next : ∀ v, r.nextVersion = some v → v.isWritable = true

theorem mapM_written_eq_ok_iff {v? : Option Version} {text? : Option String} :
    v?.mapM Version.written = .ok text? ↔
      (∀ v, v? = some v → v.isWritable = true) ∧ text? = v?.map Version.text := by
  rw [option_mapM_eq_ok]
  cases v? with
  | none => simp
  | some v => simp [Version.written_eq_ok_iff, and_comm]

theorem mapM_written_eq_error_iff {v? : Option Version} :
    v?.mapM Version.written = .error e ↔
      (¬ ∀ v, v? = some v → v.isWritable = true) ∧ e = .writing := by
  cases v? with
  | none => simp [pure, Except.pure]
  | some v => simp [Functor.map, map_eq_error, Version.written_eq_error_iff]

theorem values_eq_ok_iff {values : Value} : r.values = .ok values ↔ r.IsWritable ∧
    values = r.valuesOf (r.lastRelease.map Version.text) (r.nextVersion.map Version.text) := by
  simp only [Release.values, bind_eq_ok, mapM_written_eq_ok_iff]
  constructor
  · rintro ⟨last, ⟨hlast, rfl⟩, next, ⟨hnext, rfl⟩, h⟩
    cases h
    exact ⟨⟨hlast, hnext⟩, rfl⟩
  · rintro ⟨⟨hlast, hnext⟩, rfl⟩
    exact ⟨_, ⟨hlast, rfl⟩, _, ⟨hnext, rfl⟩, rfl⟩

theorem values_eq_error_iff : r.values = .error e ↔ ¬ r.IsWritable ∧ e = .writing := by
  cases hvalues : r.values with
  | ok values => simp [(values_eq_ok_iff.mp hvalues).1]
  | error fault =>
    have hwritable : ¬ r.IsWritable := fun h => by
      rw [values_eq_ok_iff.mpr ⟨h, rfl⟩] at hvalues
      cases hvalues
    have hfault : fault = .writing := by
      simp only [Release.values, bind_eq_error, mapM_written_eq_error_iff] at hvalues
      obtain ⟨-, rfl⟩ | ⟨_, -, ⟨-, rfl⟩ | ⟨_, -, h⟩⟩ := hvalues
      · rfl
      · rfl
      · cases h
    simp [hwritable, hfault, eq_comm]

theorem nextText_eq_error_iff : r.nextText = .error e ↔
    (∃ v, r.nextVersion = some v ∧ v.isWritable = false) ∧ e = .writing := by
  rw [nextText]
  cases r.nextVersion with
  | none => simp
  | some v => simp [Version.written_eq_error_iff]

theorem not_isWritable_of_nextText (h : r.nextText = .error e) : ¬ r.IsWritable := by
  obtain ⟨⟨v, hv, hlong⟩, -⟩ := nextText_eq_error_iff.mp h
  intro hr
  rw [hr.next v hv] at hlong
  cases hlong

end Release

namespace Template

open Options

variable {r : Release} {last next : Option String} {values : Value} {e : Failure} {text p : String} {u v : Value} {names : List String}
  {entries : List (String × Value)}

/-- A template names only values that every release has. -/
def Known (text : String) : Prop := ∀ p ∈ placeholders text, p ∈ knownPlaceholders

theorem known_of_template {name : String} (h : template name v = .ok text) : Known text := by
  rw [template] at h
  split at h
  · cases h
  · split at h
    · rename_i hunknown
      cases h
      intro p hp
      simpa using List.filter_eq_nil_iff.mp hunknown p hp
    · cases h

theorem template_eq_ok_iff {name : String} (htext : text ≠ "") :
    template name (.string text) = .ok text ↔ Known text := by
  refine ⟨known_of_template, fun h => ?_⟩
  have hname : (Value.string text).asName? = some text := by simp [Value.asName?, htext]
  have hknown : ((placeholders text).filter fun p => !knownPlaceholders.contains p) = [] := by
    refine List.filter_eq_nil_iff.mpr fun p hp => ?_
    simpa using h p hp
  rw [template]
  simp only [hname, hknown]

section Paths

theorem lookup_of_descend? (h : descend? values (Text.splitOn '.' p) = some v)
    (hv : v.asTable? = none) : lookup values p = .ok v := by
  simp [lookup, h, hv]

@[simp] theorem asTable?_optional (s : Option String) : (Release.optional s).asTable? = none := by
  cases s <;> rfl

@[simp] theorem asTable?_string (s : String) : (Value.string s).asTable? = none := rfl

@[simp] theorem valueText_optional (s : Option String) :
    valueText (Release.optional s) = .ok (s.getD "") := by
  cases s <;> rfl

/-- A known name leads to an optional text. -/
theorem exists_lookup_values (r : Release) (last next : Option String)
    (hp : p ∈ knownPlaceholders) :
    ∃ s, lookup (r.valuesOf last next) p = .ok (Release.optional s) := by
  have hvalue (s : Option String) (h : descend? (r.valuesOf last next) (Text.splitOn '.' p) =
      some (Release.optional s)) : ∃ s, lookup (r.valuesOf last next) p = .ok (Release.optional s) :=
    ⟨s, lookup_of_descend? h (asTable?_optional s)⟩
  simp only [knownPlaceholders, List.mem_cons, List.not_mem_nil, or_false] at hp
  rcases hp with rfl | rfl | rfl | rfl | rfl | rfl | rfl
  · exact hvalue (some r.branch) rfl
  · exact hvalue last rfl
  · exact hvalue r.lastTag rfl
  · exact hvalue next rfl
  · exact hvalue r.gitTag rfl
  · exact hvalue r.channel rfl
  · exact hvalue (some r.notes) rfl

/-- Behind a value that is no table no path goes on. -/
theorem names_of_descend? (h : descend? u names = some v) (hu : u.asTable? = none) :
    names = [] := by
  cases names with
  | nil => rfl
  | cons name names =>
    rw [descend?, hu] at h
    cases h

/-- A path that ends behind a table begins with one of its names. -/
theorem exists_entry_of_descend? (h : descend? (.table (Table.ofNames entries)) names = some v)
    (hv : v.asTable? = none) :
    ∃ name rest u, names = name :: rest ∧ (name, u) ∈ entries ∧ descend? u rest = some v := by
  cases names with
  | nil =>
    cases h
    cases hv
  | cons name rest =>
    have hget : (Table.get? (Table.ofNames entries) name).bind (descend? · rest) = some v := h
    rw [Table.get?_ofNames] at hget
    obtain ⟨u, hu, hrest⟩ := Option.bind_eq_some_iff.mp hget
    obtain ⟨before, after, rfl, -⟩ := List.lookup_eq_some_iff.mp hu
    exact ⟨name, rest, u, rfl, by simp, hrest⟩

/-- In a table without tables a path is one name. -/
theorem mem_of_descend? (hentries : ∀ e ∈ entries, e.2.asTable? = none)
    (h : descend? (.table (Table.ofNames entries)) names = some v) (hv : v.asTable? = none) :
    names ∈ entries.map fun e => [e.1] := by
  obtain ⟨name, rest, u, rfl, hmem, hrest⟩ := exists_entry_of_descend? h hv
  obtain rfl := names_of_descend? hrest (hentries _ hmem)
  exact List.mem_map.mpr ⟨_, hmem, rfl⟩

/-- The paths to the values of a release are the known ones. -/
theorem mem_of_descend?_values (h : descend? (r.valuesOf last next) names = some v)
    (hv : v.asTable? = none) :
    String.intercalate "." names ∈ knownPlaceholders := by
  obtain ⟨name, rest, u, rfl, hmem, hrest⟩ := exists_entry_of_descend? h hv
  simp only [List.mem_cons, Prod.mk.injEq, List.not_mem_nil, or_false] at hmem
  rcases hmem with ⟨rfl, rfl⟩ | ⟨rfl, rfl⟩ | ⟨rfl, rfl⟩
  all_goals
    have hnames := mem_of_descend? (by simp) hrest hv
    simp only [List.map_cons, List.map_nil, List.mem_cons, List.not_mem_nil, or_false] at hnames
  · subst hnames
    decide
  · obtain rfl | rfl := hnames <;> decide
  · obtain rfl | rfl | rfl | rfl := hnames <;> decide

theorem mem_of_lookup_values (h : lookup (r.valuesOf last next) p = .ok v) : p ∈ knownPlaceholders := by
  rw [lookup] at h
  split at h
  · cases h
  · rename_i hdescend
    split at h
    · cases h
    · rename_i hv
      cases h
      rw [← Text.intercalate_splitOn '.' p]
      exact mem_of_descend?_values hdescend (by simpa using hv)

end Paths

theorem exists_render (h : Known text) (r : Release) (last next : Option String) :
    ∃ s, render text (r.valuesOf last next) = .ok s := by
  have hfill : ∀ piece ∈ pieces text, ∃ cs, fill (r.valuesOf last next) piece = .ok cs := by
    intro piece hpiece
    cases piece with
    | literal c => exact ⟨[c], rfl⟩
    | placeholder name =>
      have hname : String.ofList name ∈ placeholders text :=
        List.mem_filterMap.mpr ⟨_, hpiece, rfl⟩
      obtain ⟨s, hs⟩ := exists_lookup_values r last next (h _ hname)
      refine ⟨(s.getD "").toList, ?_⟩
      rw [fill, hs]
      simp only [bind, Except.bind, valueText_optional]
      rfl
  obtain ⟨parts, hparts⟩ := exists_mapM_eq_ok hfill
  exact ⟨_, bind_eq_ok.mpr ⟨parts, hparts, rfl⟩⟩

/-- A template that some release fills in is known. -/
theorem known_of_render {out : String} (h : render text (r.valuesOf last next) = .ok out) :
    Known text := by
  obtain ⟨parts, hparts, -⟩ := bind_eq_ok.mp h
  intro p hp
  obtain ⟨piece, hpiece, hp⟩ := List.mem_filterMap.mp hp
  cases piece with
  | literal c => cases hp
  | placeholder name =>
    cases hp
    obtain ⟨cs, -, hfill⟩ := exists_of_mem_mapM hparts hpiece
    obtain ⟨v, hv, -⟩ := bind_eq_ok.mp hfill
    exact mem_of_lookup_values hv

theorem exists_render_of_values (h : Known text) (hvalues : r.values = .ok values) :
    ∃ s, render text values = .ok s := by
  obtain ⟨-, rfl⟩ := Release.values_eq_ok_iff.mp hvalues
  exact exists_render h r _ _

theorem filled_eq_ok_iff {out : String} :
    filled text r = .ok out ↔ ∃ values, r.values = .ok values ∧ render text values = .ok out := by
  rw [filled, bind_eq_ok]
  exact exists_congr fun values => and_congr mapError_eq_ok mapError_eq_ok

/-- A known template is filled in by each release whose versions can be written. -/
theorem exists_filled (h : Known text) (hr : r.IsWritable) : ∃ out, filled text r = .ok out := by
  have hvalues := Release.values_eq_ok_iff.mpr ⟨hr, rfl⟩
  obtain ⟨out, hout⟩ := exists_render_of_values h hvalues
  exact ⟨out, filled_eq_ok_iff.mpr ⟨_, hvalues, hout⟩⟩

theorem known_of_filled {out : String} (h : filled text r = .ok out) : Known text := by
  obtain ⟨values, hvalues, hout⟩ := filled_eq_ok_iff.mp h
  obtain ⟨-, rfl⟩ := Release.values_eq_ok_iff.mp hvalues
  exact known_of_render hout

/-- Of the releases with other versions no template is filled in, whatever it names. -/
theorem filled_of_not_isWritable (hr : ¬ r.IsWritable) (text : String) :
    filled text r = .error (.numeral .writing) := by
  rw [filled, Release.values_eq_error_iff.mpr ⟨hr, rfl⟩]
  rfl

theorem filled_eq_error (h : ¬ Known text) (r : Release) : ∃ e, filled text r = .error e := by
  cases hfilled : filled text r with
  | error e => exact ⟨e, rfl⟩
  | ok out => exact absurd (known_of_filled hfilled) h

/-- A known template is not filled in for one reason only. -/
theorem of_filled_eq_error (h : Known text) (herror : filled text r = .error e) :
    ¬ r.IsWritable ∧ e = .numeral .writing := by
  have hr : ¬ r.IsWritable := fun hr => by
    obtain ⟨out, hout⟩ := exists_filled h hr
    rw [hout] at herror
    cases herror
  rw [filled_of_not_isWritable hr text] at herror
  exact ⟨hr, (Except.error.inj herror).symm⟩

/-- What stands for a piece of a template in a release of the version with the tag. -/
structure Stands (version tag : String) (piece : Piece) (cs : List Char) : Prop where
  literal : ∀ c, piece = .literal c → cs = [c]
  version : piece = .placeholder "nextRelease.version".toList → cs = version.toList
  tag : piece = .placeholder "nextRelease.gitTag".toList → cs = tag.toList

/-- The text is the template with the version and the tag wherever it names those of the next
release. -/
def Filled (version tag text out : String) : Prop :=
  ∃ parts, List.Forall₂ (Stands version tag) (pieces text) parts ∧ out = String.ofList parts.flatten

theorem filled_of_render {v : Version} {tag out : String} (hversion : r.nextVersion = some v)
    (htag : r.gitTag = some tag) (hvalues : r.values = .ok values)
    (h : render text values = .ok out) : Filled v.text tag text out := by
  obtain ⟨-, rfl⟩ := Release.values_eq_ok_iff.mp hvalues
  rw [hversion] at h
  have hvalue {name : String} {s : Option String} {cs : List Char}
      (hdescend : descend? (r.valuesOf (r.lastRelease.map Version.text) (some v.text))
        (Text.splitOn '.' name) = some (Release.optional s))
      (hfill : fill (r.valuesOf (r.lastRelease.map Version.text) (some v.text))
        (.placeholder name.toList) = .ok cs) : cs = (s.getD "").toList := by
    rw [fill, String.ofList_toList, lookup_of_descend? hdescend (asTable?_optional s)] at hfill
    simp only [bind, Except.bind, valueText_optional] at hfill
    cases hfill
    rfl
  obtain ⟨parts, hparts, hout⟩ := bind_eq_ok.mp h
  cases hout
  refine ⟨parts, (mapM_eq_ok.mp hparts).imp fun piece cs hfill => ⟨?_, ?_, ?_⟩, rfl⟩
  · rintro c rfl
    cases hfill
    rfl
  · rintro rfl
    exact hvalue (s := some v.text) rfl hfill
  · rintro rfl
    rw [hvalue (s := r.gitTag) rfl hfill, htag]
    rfl

end Template

end ReleasePipeline
