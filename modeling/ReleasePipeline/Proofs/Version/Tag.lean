import ReleasePipeline.Proofs.Text.Search
import ReleasePipeline.Proofs.Version.Reading
import ReleasePipeline.Version.Tag

/-! The tag of a version is read back as that version. -/
namespace ReleasePipeline.Tag

variable {format tag : String} {v : Version}

/-- The format mentions the version once. -/
def OneMark (format : String) : Prop :=
  Text.occurrences versionMark.toList format.toList = 1

instance : Decidable (OneMark format) := inferInstanceAs (Decidable (_ = 1))

theorem mark_ne_nil : versionMark.toList ≠ [] := by decide

theorem isWritable_of_ofVersion (h : ofVersion format v = .ok tag) : v.isWritable = true ∧
    Text.contains versionMark format = true ∧ tag = Text.replaceAll versionMark v.text format := by
  rw [ofVersion] at h
  split at h
  · cases h
  · rename_i hmark
    obtain ⟨text, htext, rfl⟩ := map_eq_ok.mp h
    obtain ⟨hwritable, rfl⟩ := Version.written_eq_ok_iff.mp (mapError_eq_ok.mp htext)
    exact ⟨hwritable, by simpa using hmark, rfl⟩

/-- Whatever the format, a tag shows its version. -/
theorem text_infix_of_ofVersion (h : ofVersion format v = .ok tag) :
    v.text.toList <:+: tag.toList := by
  obtain ⟨-, hmark, rfl⟩ := isWritable_of_ofVersion h
  obtain ⟨⟨before, after⟩, hcut⟩ := Option.isSome_iff_exists.mp hmark
  rw [Text.replaceAll, String.toList_ofList, Text.replaceChars_of_cutAt? mark_ne_nil hcut]
  exact List.infix_append _ _ _

theorem ne_of_ofVersion {t : String} (h : ofVersion format v = .ok tag)
    (hpoint : '.' ∉ t.toList) : tag ≠ t := by
  rintro rfl
  exact hpoint ((text_infix_of_ofVersion h).subset (Version.point_mem_text v))

/-- The tag of a version is the format with the version between what stands around the mark. -/
theorem toList_of_ofVersion (hone : OneMark format) (h : ofVersion format v = .ok tag) :
    v.isWritable = true ∧ ∃ before after,
      Text.cutAt? versionMark.toList format.toList = some (before, after) ∧
      format.toList = before ++ versionMark.toList ++ after ∧
      tag.toList = before ++ v.text.toList ++ after := by
  obtain ⟨hwritable, -, rfl⟩ := isWritable_of_ofVersion h
  obtain ⟨before, after, hcut, hformat, hnone⟩ := Text.cutAt?_of_occurrences_eq_one mark_ne_nil hone
  refine ⟨hwritable, before, after, hcut, hformat, ?_⟩
  rw [Text.replaceAll, String.toList_ofList, Text.replaceChars_of_cutAt? mark_ne_nil hcut,
    Text.replaceChars_of_cutAt?_none hnone]

theorem inner?_of_ofVersion (hone : OneMark format) (h : ofVersion format v = .ok tag) :
    inner? format tag = some v.text := by
  obtain ⟨-, before, after, hcut, -, htag⟩ := toList_of_ofVersion hone h
  have hstart : Text.dropStart? before tag.toList = some (v.text.toList ++ after) :=
    Text.dropStart?_eq_some_iff.mpr (by rw [htag, List.append_assoc])
  have hend : Text.dropEnd? after (v.text.toList ++ after) = some v.text.toList :=
    Text.dropEnd?_eq_some_iff.mpr rfl
  simp [inner?, hcut, hstart, hend]

/-- What is tagged is read back. -/
theorem version?_of_ofVersion (hone : OneMark format) (hv : v.Legible)
    (h : ofVersion format v = .ok tag) : version? format tag = .ok (some v) := by
  obtain ⟨hw, hcontains, -⟩ := isWritable_of_ofVersion h
  rw [version?, hcontains, inner?_of_ofVersion hone h]
  simp [Version.read_text hv hw, Except.mapError]

theorem exists_inner?_of_version? (h : version? format tag = .ok (some v)) :
    ∃ inner, inner? format tag = some inner ∧ Version.read inner = .ok (some v) := by
  rw [version?] at h
  split at h
  · cases h
  · split at h
    · cases h
    · rename_i inner hinner
      exact ⟨inner, hinner, mapError_eq_ok.mp h⟩

theorem legible_of_version? (h : version? format tag = .ok (some v)) : v.Legible := by
  obtain ⟨inner, -, hread⟩ := exists_inner?_of_version? h
  exact Version.legible_of_read hread

theorem isWritable_of_version? (h : version? format tag = .ok (some v)) : v.isWritable = true := by
  obtain ⟨inner, -, hread⟩ := exists_inner?_of_version? h
  exact Version.isWritable_of_read hread

theorem versionMark_eq : versionMark.toList = '$' :: "\x7bversion\x7d".toList := by decide

theorem dollar_not_mem_text (hv : v.Legible) : '$' ∉ v.text.toList := by
  intro h
  rcases Version.mem_text hv h with h | h <;> revert h <;> decide

theorem toList_of_inner? {before after : List Char} {inner : String}
    (hcut : Text.cutAt? versionMark.toList format.toList = some (before, after))
    (h : inner? format tag = some inner) : tag.toList = before ++ (inner.toList ++ after) := by
  simp only [inner?, hcut, Option.bind_eq_bind, Option.bind_some, Option.bind_eq_some_iff] at h
  obtain ⟨rest, hrest, cs, hcs, h⟩ := h
  cases h
  rw [Text.dropStart?_eq_some_iff.mp hrest, Text.dropEnd?_eq_some_iff.mp hcs, String.toList_ofList]

/-- Only a format that mentions the version once has tags that are read back: behind a first mark,
the tag lacks the dollar signs of the others. -/
theorem oneMark_of_version? (h : ofVersion format v = .ok tag)
    (hread : version? format tag = .ok (some v)) : OneMark format := by
  have htext := dollar_not_mem_text (legible_of_version? hread)
  obtain ⟨-, hmark, rfl⟩ := isWritable_of_ofVersion h
  obtain ⟨⟨before, after⟩, hcut⟩ := Option.isSome_iff_exists.mp hmark
  obtain ⟨inner, hinner, -⟩ := exists_inner?_of_version? hread
  have htag := toList_of_inner? hcut hinner
  rw [Text.replaceAll, String.toList_ofList, Text.replaceChars_of_cutAt? mark_ne_nil hcut,
    List.append_assoc] at htag
  have hcount := congrArg (List.count '$') (List.append_cancel_left htag)
  rw [List.count_append, List.count_append, List.count_eq_zero_of_not_mem htext] at hcount
  rw [versionMark_eq] at hcut hcount
  rw [OneMark, versionMark_eq, Text.occurrences_of_cutAt? (by decide) hcut, Nat.add_eq_right]
  by_contra hsecond
  have hinfix := Text.infix_of_occurrences_pos (Nat.pos_of_ne_zero hsecond)
  have hfewer := Text.count_replaceChars_lt htext hinfix
  omega

/-- A tag is read back exactly where the format mentions the version once and the version is one that
texts name. -/
theorem version?_eq_iff (h : ofVersion format v = .ok tag) :
    version? format tag = .ok (some v) ↔ OneMark format ∧ v.Legible :=
  ⟨fun hread => ⟨oneMark_of_version? h hread, legible_of_version? hread⟩,
    fun hone => version?_of_ofVersion hone.1 hone.2 h⟩

/-- Of the versions of natural numbers, with a counter where there is a channel, formats that mention
the version once give back those without a channel and those whose channel a text can name. No other
format gives any version back. -/
theorem read_back_iff (hmark : Text.contains versionMark format = true)
    (hnumbers : ∀ n ∈ v.numbers, 0 ≤ n) (hcounter : v.channel.isSome = v.counter.isSome)
    (hwritable : v.isWritable = true) :
    (ofVersion format v >>= version? format) = .ok (some v) ↔
      OneMark format ∧ ∀ name, v.channel = some name → Version.IsChannelName name := by
  have htag : ofVersion format v = .ok (Text.replaceAll versionMark v.text format) := by
    rw [ofVersion, hmark, Version.written_eq_ok_iff.mpr ⟨hwritable, rfl⟩]
    rfl
  rw [htag]
  exact (version?_eq_iff htag).trans (and_congr_right' (Version.legible_iff_channel hnumbers hcounter))

theorem next_read_back : 
    (ofVersion "flowrunner-${version}" ⟨1, 0, 0, some "next", some 2⟩ >>=
      version? "flowrunner-${version}") = .ok (some ⟨1, 0, 0, some "next", some 2⟩) := 
  (read_back_iff (by decide) (by decide) (by decide) (by decide +kernel)).mpr ⟨by decide, fun _ hname => by
    cases hname
    decide⟩

/-- A format without blanks gives tags without blanks. -/
theorem isBlank_of_mem_tag (hone : OneMark format)
    (hplain : ∀ c ∈ format.toList, Text.isBlank c = false) (hv : v.Legible)
    (h : ofVersion format v = .ok tag) : ∀ c ∈ tag.toList, Text.isBlank c = false := by
  obtain ⟨-, before, after, -, hformat, htag⟩ := toList_of_ofVersion hone h
  intro c hc
  rw [htag] at hc
  simp only [List.mem_append] at hc
  rcases hc with (hc | hc) | hc
  · exact hplain c (by simp [hformat, hc])
  · exact Version.isBlank_of_isChannelChar (Version.mem_text hv hc)
  · exact hplain c (by simp [hformat, hc])

theorem tag_ne_empty (hone : OneMark format) (hv : v.Legible) (h : ofVersion format v = .ok tag) :
    tag ≠ "" := by
  rintro rfl
  obtain ⟨-, before, after, -, -, htag⟩ := toList_of_ofVersion hone h
  have hnil : v.text.toList = [] := by
    simp only [String.toList_empty, List.nil_eq, List.append_eq_nil_iff] at htag
    exact htag.1.2
  cases hv with
  | stable a b c => simp [Version.text_stable] at hnil
  | prerelease a b c name k => simp [Version.text_prerelease] at hnil

end ReleasePipeline.Tag
