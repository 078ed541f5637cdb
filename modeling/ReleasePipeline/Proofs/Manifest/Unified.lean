import ReleasePipeline.Proofs.Files.Content
import ReleasePipeline.Proofs.Manifest.Site

/-! The version of a manifest whose line endings became line feeds. It is found at the same site, but
the text around it is the same only if it held no carriage return. -/
namespace ReleasePipeline.Manifest

variable {table : Option (List Char)} {l : Text.Line} {ls : List Text.Line} {version : List Char}

theorem tableAfter_unified (table : Option (List Char)) (ls : List Text.Line) :
    tableAfter table (ls.map Text.Line.unified) = tableAfter table ls :=
  List.foldl_map

namespace Site

variable {p : Site} {text version : String}

/-- The site with a line feed at the end of each line. -/
def unified (p : Site) : Site :=
  { p with
    above := p.above.map Text.Line.unified
    ending := if '\r' ∈ p.ending then ['\n'] else p.ending
    below := p.below.map Text.Line.unified }

theorem linesWith_unified (p : Site) (version : List Char) :
    p.unified.linesWith version = (p.linesWith version).map Text.Line.unified := by
  rw [linesWith, linesWith, List.map_append, List.map_cons]
  rfl

theorem In.unified {ls : List Text.Line} {table : Option (List Char)} (h : p.In table ls) :
    p.unified.In table (ls.map Text.Line.unified) where
  lines := by
    rw [h.lines, ← linesWith_unified]
    rfl
  opens := h.opens
  quoted := h.quoted
  inside := (tableAfter_unified table p.above).trans h.inside
  first := by
    intro front l back habove hfront
    obtain ⟨front', rest, hsplit, rfl, hrest⟩ := List.map_eq_append_iff.mp habove
    obtain ⟨l', back', rfl, rfl, rfl⟩ := List.map_eq_cons_iff.mp hrest
    exact h.first front' l' back' hsplit (tableAfter_unified table front' ▸ hfront)

theorem in_unified (h : p.In none (Text.lines text.toList)) :
    p.unified.In none (Text.lines (Text.unified text).toList) := by
  rw [Text.unified, String.toList_ofList, Text.lines_unifyNewlines]
  exact h.unified

/-- A return stands in the version that is set or in the old text. -/
theorem count_textWith (h : p.In none (Text.lines text.toList)) (version : String) :
    (p.textWith version).toList.count '\r' = version.toList.count '\r' + text.toList.count '\r' := by
  have hmem : ⟨p.entry.withVersion p.entry.version, p.ending⟩ ∈ Text.lines text.toList := by
    rw [h.lines, linesWith]
    simp
  have hold : '\r' ∉ p.entry.version := by
    intro hreturn
    have hbreak := Text.isLineBreak_of_mem_lines hmem (c := '\r') (by simp [VersionLine.withVersion, hreturn])
    cases hbreak
  have hsplit (version : List Char) : ((p.linesWith version).flatMap Text.Line.chars).count '\r' =
      version.count '\r' + ((p.linesWith []).flatMap Text.Line.chars).count '\r' := by
    simp only [linesWith, VersionLine.withVersion, Text.Line.chars, List.flatMap_append,
      List.flatMap_cons, List.count_append, List.count_cons, List.count_nil]
    omega
  have htext : text.toList = (p.linesWith p.entry.version).flatMap Text.Line.chars := by
    rw [← h.lines, Text.flatMap_lines]
  rw [textWith, String.toList_ofList, htext, hsplit, hsplit p.entry.version,
    List.count_eq_zero_of_not_mem hold, Nat.zero_add]

theorem unified_eq_self (h : p.In none (Text.lines text.toList)) (hreturn : '\r' ∉ text.toList) :
    p.unified = p := by
  have hlines := h.unified.lines
  rw [← Text.lines_unifyNewlines, Text.unifyNewlines_eq_self hreturn, h.lines] at hlines
  obtain ⟨habove, hrest⟩ := List.append_inj hlines (List.length_map _).symm
  obtain ⟨hentry, hbelow⟩ := List.cons.inj hrest
  exact Site.ext habove.symm rfl (congrArg Text.Line.ending hentry).symm hbelow.symm

theorem count_textWith_unified (h : p.In none (Text.lines text.toList)) (version : String) :
    (p.unified.textWith version).toList.count '\r' = version.toList.count '\r' := by
  rw [count_textWith (in_unified h), List.count_eq_zero_of_not_mem (Text.return_not_mem_unified text),
    Nat.add_zero]

/-- Unified line endings change what stands around the version if the text holds a return. -/
theorem textWith_unified_iff (h : p.In none (Text.lines text.toList)) :
    p.unified.textWith version = p.textWith version ↔ '\r' ∉ text.toList := by
  constructor
  · intro heq
    have hcount := count_textWith_unified h version
    rw [heq, count_textWith h] at hcount
    exact List.count_eq_zero.mp (Nat.add_left_cancel hcount)
  · intro hreturn
    rw [unified_eq_self h hreturn]

/-- The text with a version that was set has its line endings unified. -/
theorem unified_textWith (h : p.In none (Text.lines text.toList)) (hversion : Quotable version) :
    Text.unified (p.unified.textWith version) = p.unified.textWith version := by
  refine Text.unified_eq_self ?_
  rw [← List.count_eq_zero, count_textWith_unified h, List.count_eq_zero]
  intro hmem
  have hbreak := (hversion _ hmem).2
  cases hbreak

end Site

end ReleasePipeline.Manifest
