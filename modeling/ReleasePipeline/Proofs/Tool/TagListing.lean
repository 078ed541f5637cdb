import ReleasePipeline.Proofs.Text.Line
import ReleasePipeline.Tool.Git

/-! A listing of tags, one a line, shows each of them. -/
namespace ReleasePipeline.Git

variable {tags : List String} {tag : String}

/-- A listing of tags, one a line. -/
def listing (tags : List String) : String := String.join (tags.map fun t => t ++ "\n")

theorem toList_listing (tag : String) (tags : List String) :
    (listing (tag :: tags)).toList = tag.toList ++ '\n' :: (listing tags).toList := by
  simp [listing]

theorem lineTexts_listing (tag : String) (tags : List String) :
    Text.lineTexts (listing (tag :: tags)) =
      Text.lineTexts (tag ++ "\n") ++ Text.lineTexts (listing tags) := by
  rw [Text.lineTexts, toList_listing, Text.lines_append_feed, List.map_append]
  simp [Text.lineTexts]

theorem lineTexts_feed (h : ∀ c ∈ tag.toList, Text.isBlank c = false) :
    Text.lineTexts (tag ++ "\n") = [tag] := by
  have hl := Text.lines_feed fun c hc => Text.isLineBreak_eq_false (h c hc)
  simp [Text.lineTexts, hl]

theorem strip_eq_self (h : ∀ c ∈ tag.toList, Text.isBlank c = false) : Text.strip tag = tag := by
  rw [Text.strip, Text.stripChars_eq_self h, String.ofList_toList]

/-- In a listing of tags that hold no blanks only those tags are found. -/
theorem mem_of_mem_tagsOf_listing
    (hplain : ∀ t ∈ tags, ∀ c ∈ t.toList, Text.isBlank c = false)
    (h : tag ∈ tagsOf (listing tags)) : tag ∈ tags := by
  have hlines : Text.lineTexts (listing tags) = tags := by
    clear h
    induction tags with
    | nil => rfl
    | cons t tags ih =>
      rw [lineTexts_listing, lineTexts_feed (hplain t List.mem_cons_self),
        ih fun t' ht' => hplain t' (List.mem_cons_of_mem _ ht')]
      rfl
  rw [tagsOf, hlines] at h
  obtain ⟨t, ht, rfl⟩ := List.mem_map.mp (List.mem_filter.mp h).1
  rwa [strip_eq_self (hplain t ht)]

/-- Each tag that holds no blank is found in the listing. -/
theorem mem_tagsOf_listing (hmem : tag ∈ tags) (hne : tag ≠ "")
    (hplain : ∀ c ∈ tag.toList, Text.isBlank c = false) : tag ∈ tagsOf (listing tags) := by
  have hlines : ∀ tags, tag ∈ tags → tag ∈ Text.lineTexts (listing tags) := by
    intro tags
    induction tags with
    | nil => simp
    | cons t tags ih =>
      intro ht
      rw [lineTexts_listing, List.mem_append]
      rcases List.mem_cons.mp ht with rfl | ht
      · exact Or.inl (by simp [lineTexts_feed hplain])
      · exact Or.inr (ih ht)
  rw [tagsOf, List.mem_filter, List.mem_map]
  exact ⟨⟨tag, hlines tags hmem, strip_eq_self hplain⟩, by simpa using hne⟩

end ReleasePipeline.Git
