import ReleasePipeline.Proofs.Plugin.Changelog
import ReleasePipeline.Proofs.Text.Breaking
import ReleasePipeline.Proofs.Text.Search
import ReleasePipeline.Proofs.Value.Basic

/-! The changelog below a title: what becomes of the title that is there already, and of lines that
only begin like it. -/
namespace ReleasePipeline.Changelog

open ReleasePipeline.Action

variable {title text whole : String} {parts rest : List String} {w : World} {s : Settings}
  {file : String}

/-- What stands in a text behind the title, where the text begins with it; else the whole text. -/
def below (title text : String) : String :=
  match Text.dropStart? title.toList (Text.strip text).toList with
  | some rest => String.ofList rest
  | none => text

/-- What is kept of a title that is not recognized when the changelog is read again: where it begins
with blanks, the rest of it. -/
def again (title : String) : List String :=
  let name := title.toList.dropWhile Text.isBlank
  if name = [] ∨ name = title.toList then [] else [String.ofList name]

/-- Under a title the notes are put in front of what stands behind it. -/
theorem updated_some (title notes current : String) : updated (some title) notes current =
    title ++ "\n\n" ++ joined (Text.strip notes :: parted (below title current)) := by
  rw [← updated_none, updated, updated, below]
  cases h : Text.dropStart? title.toList (Text.strip current).toList with
  | none => simp [h, toString, String.append_assoc]
  | some rest => simp [h, toString, String.append_assoc]

/-- The text of a changelog below a title. -/
def titled (title whole : String) : String := title ++ "\n\n" ++ whole ++ "\n"

theorem toList_titled (title whole : String) : (titled title whole).toList =
    title.toList ++ ['\n', '\n'] ++ whole.toList ++ ['\n'] := by
  simp [titled]

theorem strip_titled (title : String) (hwhole : Part whole) :
    Text.stripChars (titled title whole).toList =
      (title.toList ++ ['\n', '\n']).dropWhile Text.isBlank ++ whole.toList := by
  rw [toList_titled]
  exact hwhole.trimmed.stripChars_between _ (List.all_eq_true.mp rfl)

/-- No text begins with a title that has blanks in front, once it is stripped. -/
theorem below_eq_self (hname : title.toList.dropWhile Text.isBlank ≠ title.toList) (text : String) :
    below title text = text := by
  rw [below]
  cases hrest : Text.dropStart? title.toList (Text.strip text).toList with
  | none => rfl
  | some rest =>
    have hstrip : Text.stripChars text.toList = title.toList ++ rest := by
      rw [← Text.dropStart?_eq_some_iff.mp hrest, Text.strip, String.toList_ofList]
    obtain ⟨c, cs, hcons⟩ := List.exists_cons_of_ne_nil (l := title.toList) fun hnil => by
      rw [hnil] at hname
      exact hname rfl
    have hblank : Text.isBlank c = true := by
      by_contra hc
      rw [hcons, List.dropWhile_cons_of_neg hc] at hname
      exact hname rfl
    rw [hcons] at hstrip
    have hne : Text.stripChars text.toList ≠ [] := by
      rw [hstrip]
      exact List.cons_ne_nil c _
    obtain ⟨d, _, hfront, hd⟩ := (Text.trimmed_stripChars hne).front
    rw [hstrip] at hfront
    obtain ⟨rfl, -⟩ := List.cons.inj hfront
    rw [hblank] at hd
    cases hd

theorem below_of_append {rest : List Char} (h : (Text.strip text).toList = title.toList ++ rest) :
    below title text = String.ofList rest := by
  rw [below, Text.dropStart?_eq_some_iff.mpr h]

theorem parted_of_stripChars {cs : List Char} (h : Text.stripChars text.toList = cs) (hne : cs ≠ []) :
    parted text = [String.ofList cs] := by
  have hstrip : Text.strip text = String.ofList cs := congrArg String.ofList h
  rw [parted, hstrip, if_neg]
  intro hnil
  have hcs := congrArg String.toList hnil
  rw [String.toList_ofList] at hcs
  exact hne hcs

/-- Read again, a changelog below a title holds what was put there, and the title if it is not
recognized. -/
theorem parted_below_titled (htitle : title ≠ "") (hwhole : Part whole) :
    parted (below title (titled title whole)) =
      [String.intercalate "\n\n" (again title ++ [whole])] := by
  have hstrip := strip_titled title hwhole
  have hne := hwhole.trimmed.ne_nil
  have hfeeds : ['\n', '\n'].dropWhile Text.isBlank = [] := rfl
  rw [List.dropWhile_append, hfeeds] at hstrip
  by_cases hself : title.toList.dropWhile Text.isBlank = title.toList
  · have hcons : title.toList ≠ [] := by simpa using htitle
    rw [hself, if_neg (by simpa using htitle), List.append_assoc] at hstrip
    have hbelow : below title (titled title whole) = String.ofList (['\n', '\n'] ++ whole.toList) :=
      below_of_append (by rw [Text.strip, String.toList_ofList, hstrip])
    have hwhole' : Text.stripChars (['\n', '\n'] ++ whole.toList ++ []) =
        ['\n', '\n'].dropWhile Text.isBlank ++ whole.toList :=
      hwhole.trimmed.stripChars_between _ (List.forall_mem_nil _)
    rw [List.append_nil, hfeeds] at hwhole'
    rw [hbelow, parted_of_stripChars (by rw [String.toList_ofList]; exact hwhole') hne]
    simp [again, hself]
  · rw [below_eq_self hself, parted_of_stripChars hstrip (List.append_ne_nil_of_right_ne_nil _ hne)]
    by_cases hnil : title.toList.dropWhile Text.isBlank = []
    · simp [again, hnil]
    · have hagain : again title = [String.ofList (title.toList.dropWhile Text.isBlank)] := by
        simp [again, hnil, hself]
      rw [hagain, List.singleton_append, String.intercalate_cons_cons, String.intercalate_singleton,
        List.singleton_inj, ← String.toList_inj]
      simp [hnil]

/-- The changelog of the parts in a list is that of its parts put together. -/
theorem joined_concat_intercalate (xs : List String) (hparts : parts ≠ []) :
    joined (xs ++ [String.intercalate "\n\n" parts]) = joined (xs ++ parts) := by
  cases xs with
  | nil => rw [List.nil_append, List.nil_append, joined, joined, String.intercalate_singleton]
  | cons x xs =>
    rw [joined, joined, String.intercalate_append_of_ne_nil (List.cons_ne_nil x xs) hparts,
      String.intercalate_append_of_ne_nil (List.cons_ne_nil x xs) (List.cons_ne_nil _ []),
      String.intercalate_singleton]

/-- What is read again is read once more as it is, with notes in front of it. -/
theorem part_intercalate_again {notes : String} (hreturn : '\r' ∉ title.toList) (hnotes : Part notes)
    (hwhole : Part whole) :
    Part (String.intercalate "\n\n" (notes :: (again title ++ [whole]))) := by
  rw [again]
  split
  · refine part_intercalate hnotes ?_
    intro p hp
    rwa [List.mem_singleton.mp hp]
  · rw [List.singleton_append, String.intercalate_cons_cons, String.intercalate_cons_cons,
      String.intercalate_singleton]
    refine ⟨?_, ?_⟩
    · have htrimmed := hnotes.trimmed.append hwhole.trimmed
        ("\n\n".toList ++ title.toList.dropWhile Text.isBlank ++ "\n\n".toList)
      simpa using htrimmed
    · have hname : '\r' ∉ title.toList.dropWhile Text.isBlank := fun hmem =>
        hreturn ((List.dropWhile_suffix Text.isBlank).subset hmem)
      simp [hnotes.noReturn, hname, hwhole.noReturn]

theorem unified_titled (hreturn : '\r' ∉ title.toList) (hwhole : Part whole) :
    Text.unified (titled title whole) = titled title whole := by
  apply Text.unified_eq_self
  rw [toList_titled]
  simp [hreturn, hwhole.noReturn]

/-- Each further release puts its notes in front of the changelog, and of the title that is not
recognized. -/
theorem kept_titled {notes : List String} (htitle : title ≠ "") (hreturn : '\r' ∉ title.toList)
    (hnotes : ∀ n ∈ notes, Text.strip n ≠ "" ∧ '\r' ∉ n.toList) (hwhole : Part whole) :
    kept (some title) (titled title whole) notes = title ++ "\n\n" ++
      joined ((notes.reverse.flatMap fun n => Text.strip n :: again title) ++ [whole]) := by
  induction notes generalizing whole with
  | nil => simp [kept, titled, joined, String.append_assoc]
  | cons n notes ih =>
    obtain ⟨⟨hblank, hfree⟩, hnotes⟩ := List.forall_mem_cons.mp hnotes
    have hmore := part_intercalate_again hreturn (part_strip hblank hfree) hwhole
    have hparts : again title ++ [whole] ≠ [] := by simp
    have hupdated : updated (some title) n (Text.unified (titled title whole)) =
        titled title (String.intercalate "\n\n" (Text.strip n :: (again title ++ [whole]))) := by
      rw [unified_titled hreturn hwhole, updated_some, parted_below_titled htitle hwhole]
      change title ++ "\n\n" ++ joined ([Text.strip n] ++ _) = _
      rw [joined_concat_intercalate _ hparts]
      simp [joined, titled, String.append_assoc]
    rw [kept_cons, hupdated, ih hnotes hmore, joined_concat_intercalate _ (List.cons_ne_nil _ _)]
    simp

theorem return_notMem_below (h : '\r' ∉ text.toList) : '\r' ∉ (below title text).toList := by
  rw [below]
  split
  · rename_i rest hrest
    have hstrip := Text.dropStart?_eq_some_iff.mp hrest
    rw [String.toList_ofList]
    intro hmem
    have hmem' : '\r' ∈ (Text.strip text).toList := hstrip ▸ List.mem_append_right _ hmem
    rw [Text.strip, String.toList_ofList] at hmem'
    exact h (Text.mem_of_mem_stripChars hmem')
  · exact h

/-- The notes of several releases, those of the last one first, with what is kept of the title between
them. -/
def layers (title : String) (all : List String) : List String :=
  (again title).intercalate (all.reverse.map fun notes => [Text.strip notes])

theorem layers_cons (title n : String) (notes : List String) : layers title (n :: notes) =
    (notes.reverse.flatMap fun n => Text.strip n :: again title) ++ [Text.strip n] := by
  rw [layers, List.reverse_cons, List.map_append]
  induction notes.reverse with
  | nil => rfl
  | cons last rest ih =>
    have hne : rest.map (fun notes => [Text.strip notes]) ++ [n].map (fun notes => [Text.strip notes]) ≠
        [] := by simp
    rw [List.map_cons, List.cons_append, List.intercalate_cons_of_ne_nil hne, ih]
    simp

/-- The changelog after several releases: the title, their notes, and what stood below the title. -/
theorem kept_some_eq_joined {all : List String} (htitle : title ≠ "") (hreturn : '\r' ∉ title.toList)
    (hne : all ≠ []) (hnotes : ∀ n ∈ all, Text.strip n ≠ "" ∧ '\r' ∉ n.toList) :
    kept (some title) text all = title ++ "\n\n" ++
      joined (layers title all ++ parted (below title (Text.unified text))) := by
  obtain ⟨n, notes, rfl⟩ := List.exists_cons_of_ne_nil hne
  obtain ⟨⟨hblank, hfree⟩, hnotes⟩ := List.forall_mem_cons.mp hnotes
  let old := parted (below title (Text.unified text))
  have hold : ∀ p ∈ old, Part p := fun p =>
    part_of_mem_parted (return_notMem_below (Text.return_not_mem_unified text))
  have hwhole : Part (String.intercalate "\n\n" (Text.strip n :: old)) :=
    part_intercalate (part_strip hblank hfree) hold
  have hupdated : updated (some title) n (Text.unified text) =
      titled title (String.intercalate "\n\n" (Text.strip n :: old)) := by
    rw [updated_some]
    simp [joined, titled, old, String.append_assoc]
  rw [kept_cons, hupdated, kept_titled htitle hreturn hnotes hwhole,
    joined_concat_intercalate _ (List.cons_ne_nil _ _), layers_cons]
  simp [old]

/-- The lines of a text from the first one on that is not blank. -/
def linesFrom (text : String) : List Text.Line :=
  (Text.lines text.toList).dropWhile fun l => l.content.all Text.isBlank

/-- The first line of a text that is not blank. -/
def heading (text : String) : Option String :=
  (linesFrom text).head?.map fun l => String.ofList l.content

/-- The text without its heading, where that is the title. -/
def untitled (title text : String) : String :=
  if heading text = some title then
    String.ofList ((linesFrom text).tail.flatMap Text.Line.chars)
  else text

theorem isBlank_of_mem_ending {cs : List Char} {l : Text.Line} {c : Char} (hl : l ∈ Text.lines cs)
    (hc : c ∈ l.ending) : Text.isBlank c = true := by
  obtain ⟨rest, hends⟩ := Text.exists_endsBefore_of_mem hl
  exact Text.isBlank_of_isLineBreak (hends.isLineBreak_of_mem hc)

/-- A text with the title for its heading: blanks, the title as a line, and the lines behind it. -/
theorem exists_split_of_heading (h : heading text = some title) : ∃ above ending,
    text.toList = above ++ (title.toList ++ (ending ++ (untitled title text).toList)) ∧
    (∀ c ∈ above, Text.isBlank c = true) ∧ (∀ c ∈ ending, Text.isBlank c = true) ∧
    ∃ c ∈ title.toList, Text.isBlank c = false := by
  let blank (l : Text.Line) : Bool := l.content.all Text.isBlank
  obtain ⟨l, hhead, hl⟩ := Option.map_eq_some_iff.mp h
  obtain ⟨rest, hrest⟩ := List.head?_eq_some_iff.mp hhead
  have hsplit : (Text.lines text.toList).takeWhile blank ++ l :: rest = Text.lines text.toList := by
    rw [← hrest]
    exact List.takeWhile_append_dropWhile
  have hmem (l' : Text.Line) (h' : l' ∈ (Text.lines text.toList).takeWhile blank ++ l :: rest) :
      l' ∈ Text.lines text.toList := hsplit ▸ h'
  have htitle : l.content = title.toList := by rw [← hl, String.toList_ofList]
  have hplain : ∃ c ∈ l.content, Text.isBlank c = false := by
    have hfirst : blank l = false := by
      have hfalse := List.head?_dropWhile_not blank (Text.lines text.toList)
      rw [show (Text.lines text.toList).dropWhile blank = l :: rest from hrest] at hfalse
      simpa using hfalse
    simpa [blank] using hfirst
  refine ⟨((Text.lines text.toList).takeWhile blank).flatMap Text.Line.chars, l.ending, ?_, ?_, ?_,
    htitle ▸ hplain⟩
  · rw [untitled, if_pos h, hrest, List.tail_cons, String.toList_ofList, ← htitle]
    conv_lhs => rw [← Text.flatMap_lines text.toList, ← hsplit]
    simp [Text.Line.chars]
  · intro c hc
    obtain ⟨l', hl', hc⟩ := List.mem_flatMap.mp hc
    rcases List.mem_append.mp hc with hcontent | hending
    · have hblank : blank l' = true := List.mem_takeWhile_imp hl'
      exact List.all_eq_true.mp hblank c hcontent
    · exact isBlank_of_mem_ending (hmem l' (List.mem_append_left _ hl')) hending
  · intro c hc
    exact isBlank_of_mem_ending (hmem l (List.mem_append_right _ List.mem_cons_self)) hc

theorem toList_strip (text : String) : (Text.strip text).toList = Text.stripChars text.toList :=
  String.toList_ofList

theorem below_of_not_prefix (h : ¬ title.toList <+: (Text.strip text).toList) :
    below title text = text := by
  rw [below]
  cases hrest : Text.dropStart? title.toList (Text.strip text).toList with
  | none => rfl
  | some rest => exact absurd ⟨rest, (Text.dropStart?_eq_some_iff.mp hrest).symm⟩ h

/-- The text becomes shorter where it begins with the title. -/
theorem length_below_lt (htitle : title ≠ "") (h : title.toList <+: (Text.strip text).toList) :
    (Text.strip (below title text)).length < (Text.strip text).length := by
  obtain ⟨rest, hrest⟩ := h
  have hlength : (Text.strip text).length = title.length + rest.length := by
    rw [← String.length_toList, ← hrest, List.length_append, String.length_toList]
  have hle : (Text.stripChars rest).length ≤ rest.length :=
    (Text.dropEndWhile_isPrefix _).length_le.trans (List.dropWhile_suffix _).length_le
  have hpos : 0 < title.length := by
    rw [← String.length_toList]
    exact List.length_pos_iff.mpr (by simpa using htitle)
  rw [below_of_append hrest.symm, ← String.length_toList, toList_strip, String.toList_ofList]
  omega

/-- The text becomes shorter without its heading. -/
theorem length_untitled_lt (h : heading text = some title) :
    (Text.strip (untitled title text)).length < (Text.strip text).length := by
  obtain ⟨above, ending, hsplit, -, -, c, hc, hplain⟩ := exists_split_of_heading h
  have hmem : c ∈ above ++ title.toList ++ ending := by simp [hc]
  have hlt := Text.length_stripChars_lt (untitled title text).toList hmem hplain
  rw [List.append_assoc, List.append_assoc, ← hsplit] at hlt
  rwa [← toList_strip, ← toList_strip, String.length_toList, String.length_toList] at hlt

/-- Where the text begins with the title and has it for its heading, the same is left without it. -/
theorem strip_below_of_heading (h : heading text = some title)
    (hstarts : title.toList <+: (Text.strip text).toList) :
    Text.strip (below title text) = Text.strip (untitled title text) := by
  obtain ⟨above, ending, hsplit, habove, hending, c, hc, -⟩ := exists_split_of_heading h
  obtain ⟨rest, hrest⟩ := hstarts
  rw [toList_strip] at hrest
  have hne : Text.stripChars text.toList ≠ [] := by
    rw [← hrest]
    exact List.append_ne_nil_of_left_ne_nil (List.ne_nil_of_mem hc) rest
  have hfront : ∀ more : List Char, (title.toList ++ more).dropWhile Text.isBlank =
      title.toList ++ more := by
    intro more
    obtain ⟨d, tail, hcons⟩ := List.exists_cons_of_ne_nil (List.ne_nil_of_mem hc)
    obtain ⟨_, _, hfirst, hd⟩ := (Text.trimmed_stripChars hne).front
    rw [← hrest, hcons] at hfirst
    obtain ⟨rfl, -⟩ := List.cons.inj hfirst
    rw [hcons, List.cons_append, List.dropWhile_cons_of_neg (by simp [hd])]
  have hdrop : text.toList.dropWhile Text.isBlank =
      title.toList ++ (ending ++ (untitled title text).toList) := by
    rw [hsplit, List.dropWhile_append_of_pos habove, hfront]
  obtain ⟨blanks, hback, hblanks⟩ := Text.exists_dropEndWhile_append Text.isBlank
    (text.toList.dropWhile Text.isBlank)
  rw [← Text.stripChars, ← hrest, hdrop, List.append_assoc] at hback
  have hsame : ending ++ (untitled title text).toList = rest ++ blanks := List.append_cancel_left hback
  have hbelow : below title text = String.ofList rest :=
    below_of_append (by rw [toList_strip, hrest])
  rw [hbelow, Text.strip, Text.strip, String.toList_ofList, ← Text.stripChars_append_blanks hblanks,
    ← hsame, Text.stripChars_blanks_append hending]

/-- The same is left of the text if and only if it begins with the title where that is its heading,
and nowhere else. -/
theorem strip_below_eq_iff (htitle : title ≠ "") :
    Text.strip (below title text) = Text.strip (untitled title text) ↔
      (title.toList <+: (Text.strip text).toList ↔ heading text = some title) := by
  by_cases hstarts : title.toList <+: (Text.strip text).toList
  · by_cases hheading : heading text = some title
    · simp only [hstarts, hheading, strip_below_of_heading hheading hstarts]
    · have hlt := length_below_lt htitle hstarts
      have huntitled : untitled title text = text := if_neg hheading
      refine ⟨fun hsame => ?_, fun hiff => absurd (hiff.mp hstarts) hheading⟩
      rw [hsame, huntitled] at hlt
      omega
  · have hbelow := below_of_not_prefix hstarts
    by_cases hheading : heading text = some title
    · have hlt := length_untitled_lt hheading
      refine ⟨fun hsame => ?_, fun hiff => absurd (hiff.mpr hheading) hstarts⟩
      rw [← hsame, hbelow] at hlt
      omega
    · have huntitled : untitled title text = text := if_neg hheading
      simp only [hstarts, hheading, hbelow, huntitled]

/-- The characters of the parts with the line feeds between them. -/
def size : List String → ℕ
  | [] => 0
  | part :: rest => part.length + 2 + size rest

theorem size_append (xs ys : List String) : size (xs ++ ys) = size xs + size ys := by
  induction xs with
  | nil => simp [size]
  | cons x xs ih =>
    rw [List.cons_append, size, size, ih]
    omega

theorem size_cons (x : String) (xs : List String) : size (x :: xs) = x.length + 2 + size xs := rfl

theorem length_joined (hparts : parts ≠ []) : (joined parts).length + 1 = size parts := by
  have hfeed : "\n".length = 1 := rfl
  have hgap : "\n\n".length = 2 := rfl
  induction parts with
  | nil => exact absurd rfl hparts
  | cons part rest ih =>
    cases rest with
    | nil => simp [joined, size, hfeed]
    | cons next rest =>
      have hrest := ih (List.cons_ne_nil next rest)
      have hlength : (joined (part :: next :: rest)).length =
          part.length + 2 + (joined (next :: rest)).length := by
        simp [joined, String.intercalate_cons_cons]
        omega
      rw [hlength, size_cons, ← hrest]
      omega

theorem size_parted_le {old new : String} (h : (Text.strip old).length ≤ (Text.strip new).length) :
    size (parted old) ≤ size (parted new) := by
  rw [parted, parted]
  by_cases hold : Text.strip old = ""
  · rw [if_pos hold]
    exact Nat.zero_le _
  · have hnew : Text.strip new ≠ "" := by
      intro hnil
      rw [hnil] at h
      exact hold (String.length_eq_zero_iff.mp (Nat.le_zero.mp h))
    rw [if_neg hold, if_neg hnew, size_cons, size_cons]
    omega

theorem size_layers (title n : String) (notes : List String) : size (layers title (n :: notes)) =
    size ((n :: notes).reverse.map Text.strip) + notes.length * size (again title) := by
  rw [layers_cons, List.reverse_cons, List.map_append, size_append, size_append]
  have hflat : ∀ xs : List String, size (xs.flatMap fun n => Text.strip n :: again title) =
      size (xs.map Text.strip) + xs.length * size (again title) := by
    intro xs
    induction xs with
    | nil => simp [size]
    | cons x xs ih =>
      rw [List.flatMap_cons, List.cons_append, size_cons, size_append, ih, List.map_cons, size_cons,
        List.length_cons, Nat.succ_mul]
      omega
  rw [hflat, List.length_reverse]
  simp only [List.map_cons, List.map_nil]
  omega

theorem joined_parted_inj {xs : List String} (hxs : xs ≠ []) {old new : String} :
    joined (xs ++ parted old) = joined (xs ++ parted new) ↔ Text.strip old = Text.strip new := by
  constructor
  · intro heq
    have hlength := congrArg (fun text => text.length + 1) heq
    simp only [length_joined (List.append_ne_nil_of_left_ne_nil hxs _), size_append] at hlength
    by_cases hold : Text.strip old = "" <;> by_cases hnew : Text.strip new = ""
    · rw [hold, hnew]
    · simp [parted, hold, hnew, size] at hlength
    · simp [parted, hold, hnew, size] at hlength
    · rw [parted, parted, if_neg hold, if_neg hnew, joined, joined,
        String.intercalate_append_of_ne_nil hxs (List.cons_ne_nil _ []),
        String.intercalate_append_of_ne_nil hxs (List.cons_ne_nil _ []), String.intercalate_singleton,
        String.intercalate_singleton, String.append_left_inj, String.append_right_inj] at heq
      exact heq
  · intro heq
    rw [parted, parted, heq]

/-- The changelog consists of the notes and the text without its title if and only if the text does not
begin like the title elsewhere than in a heading of that name, and nothing is kept of the title between
the notes. -/
theorem joined_layers_eq_iff {all : List String} (htitle : title ≠ "") (hne : all ≠ []) :
    joined (layers title all ++ parted (below title text)) =
        joined (all.reverse.map Text.strip ++ parted (untitled title text)) ↔
      (title.toList <+: (Text.strip text).toList ↔ heading text = some title) ∧
        (again title = [] ∨ all.length = 1) := by
  obtain ⟨n, notes, rfl⟩ := List.exists_cons_of_ne_nil hne
  by_cases hflat : again title = [] ∨ (n :: notes).length = 1
  · have hlayers : layers title (n :: notes) = (n :: notes).reverse.map Text.strip := by
      rw [layers_cons]
      rcases hflat with hnothing | hone
      · rw [hnothing, ← List.map_eq_flatMap, List.reverse_cons, List.map_append]
        rfl
      · have hnotes : notes = [] := by simpa using hone
        simp [hnotes]
    rw [hlayers, joined_parted_inj (by simp), strip_below_eq_iff htitle, and_iff_left hflat]
  · refine ⟨fun heq => ?_, fun h => absurd h.2 hflat⟩
    obtain ⟨hagain, hmore⟩ := not_or.mp hflat
    have hname : title.toList.dropWhile Text.isBlank ≠ title.toList := by
      intro hself
      exact hagain (if_pos (Or.inr hself))
    have hle : (Text.strip (untitled title text)).length ≤ (Text.strip (below title text)).length := by
      rw [below_eq_self hname]
      by_cases hheading : heading text = some title
      · exact (length_untitled_lt hheading).le
      · rw [untitled, if_neg hheading]
    have hparted := size_parted_le hle
    have hpos : 0 < notes.length * size (again title) := by
      obtain ⟨name, names, hcons⟩ := List.exists_cons_of_ne_nil hagain
      rw [hcons, size_cons]
      have hnotes : notes.length ≠ 0 := by simpa using hmore
      apply Nat.mul_pos <;> omega
    have hlength := congrArg (fun text => text.length + 1) heq
    have hlayers : layers title (n :: notes) ≠ [] := by simp [layers_cons]
    have hplain : (n :: notes).reverse.map Text.strip ≠ [] := by simp
    simp only [length_joined (List.append_ne_nil_of_left_ne_nil hlayers _), size_append, size_layers,
      length_joined (List.append_ne_nil_of_left_ne_nil hplain _)] at hlength
    omega

theorem ne_empty_of_optionalText {options : Table}
    (h : Options.optionalText options "changelogTitle" = .ok (some title)) : title ≠ "" := by
  rw [Options.optionalText] at h
  split at h
  · cases h
  · split at h
    · rename_i hname
      cases h
      exact (asName?_eq_some_iff.mp hname).2
    · cases h

/-- After several releases the changelog begins with the title and a blank line and holds all of their
notes, those of the last one first, and then what stood below the title. Nothing but a heading of that
name is lost of the text, and the title stands nowhere else, if and only if the text begins with the
title just where that is its heading, and the title is recognized when it is read again. -/
theorem titled_changelog_keeps_all_notes {options : Table} {all : List String}
    (htitle : Options.optionalText options "changelogTitle" = .ok (some title))
    (hline : ∀ c ∈ title.toList, Text.isLineBreak c = false) (hreal : s.dryRun = false) (hne : all ≠ [])
    (hnotes : ∀ notes ∈ all, Text.strip notes ≠ "" ∧ '\r' ∉ notes.toList)
    (hstart : w.files.entry? ((path s file).start w.here) = some .directory)
    (htext : w.files.TextAt w.here (path s file) text) :
    let old := Text.unified text
    let parts := layers title all ++ parted (below title old)
    (∃ files release, all.forM (keep s file (some title)) w = .ok () { w with files, release } ∧
      files.look w.here (path s file) =
        .ok (.file (title ++ "\n\n" ++ joined parts).toUTF8)) ∧
    (joined parts = joined (all.reverse.map Text.strip ++ parted (untitled title old)) ↔
      (title.toList <+: (Text.strip old).toList ↔ heading old = some title) ∧
        (again title = [] ∨ all.length = 1)) := by
  intro old parts
  have hname := ne_empty_of_optionalText htitle
  have hreturn : '\r' ∉ title.toList := by
    intro hmem
    cases hline '\r' hmem
  obtain ⟨files, release, hkeep, hlook⟩ := forM_keep_apply (some title) hreal hne hstart htext
  rw [kept_some_eq_joined hname hreturn hne hnotes] at hlook
  exact ⟨⟨files, release, hkeep, hlook⟩, joined_layers_eq_iff hname hne⟩

theorem titled_changelog_of_two_releases :
    let s : Settings := { root := .ofText "/repo" }
    let all := ["## 1.0.0\n\n* first\n", "## 1.1.0"]
    let old := changelogWorld
      [(["repo", "CHANGELOG.md"], .file "# Changelog\r\n\r\n## 0.9.0\r\n".toUTF8)]
    (∃ files release, all.forM (keep s "CHANGELOG.md" (some "# Changelog")) old =
        .ok () { old with files, release } ∧
      files.look ["repo"] (path s "CHANGELOG.md") =
        .ok (.file "# Changelog\n\n## 1.1.0\n\n## 1.0.0\n\n* first\n\n## 0.9.0\n".toUTF8)) ∧
    joined (layers "# Changelog" all ++ ["## 0.9.0"]) =
      joined (all.reverse.map Text.strip ++ ["## 0.9.0"]) := by
  intro s all old
  have hnotes : ∀ notes ∈ all, Text.strip notes ≠ "" ∧ '\r' ∉ notes.toList := by decide +kernel
  have hplain : ("# Changelog".toList.all fun c => !Text.isLineBreak c) = true := by decide +kernel
  have hline : ∀ c ∈ "# Changelog".toList, Text.isLineBreak c = false := by
    intro c hc
    simpa using List.all_eq_true.mp hplain c hc
  have hold : old.files.TextAt old.here (path s "CHANGELOG.md") "# Changelog\r\n\r\n## 0.9.0\r\n" :=
    .file rfl
  have htitle : Options.optionalText (Table.ofNames [("changelogTitle", .string "# Changelog")])
      "changelogTitle" = .ok (some "# Changelog") := rfl
  obtain ⟨⟨files, release, hkeep, hlook⟩, hiff⟩ := titled_changelog_keeps_all_notes (s := s)
    (w := old) htitle hline rfl (List.cons_ne_nil _ _) hnotes rfl hold
  have hbelow : parted (below "# Changelog" (Text.unified "# Changelog\r\n\r\n## 0.9.0\r\n")) =
      ["## 0.9.0"] := by decide +kernel
  have huntitled : parted (untitled "# Changelog" (Text.unified "# Changelog\r\n\r\n## 0.9.0\r\n")) =
      ["## 0.9.0"] := by decide +kernel
  have hheading : heading (Text.unified "# Changelog\r\n\r\n## 0.9.0\r\n") = some "# Changelog" := by
    decide +kernel
  have hstarts : "# Changelog".toList <+:
      (Text.strip (Text.unified "# Changelog\r\n\r\n## 0.9.0\r\n")).toList := by decide +kernel
  rw [hbelow] at hlook
  rw [hbelow, huntitled] at hiff
  refine ⟨⟨files, release, hkeep, hlook.trans ?_⟩, hiff.mpr ⟨iff_of_true hstarts hheading, ?_⟩⟩
  · refine congrArg (fun text : String => Except.ok (Entry.file text.toUTF8)) ?_
    decide +kernel
  · left
    decide +kernel

/-- A first line that only begins with the title is cut. -/
theorem heading_cut_by_title :
    let s : Settings := { root := .ofText "/repo" }
    let text := "# Changelog of the demo crate\n\nOld\n"
    let old := changelogWorld [(["repo", "CHANGELOG.md"], .file text.toUTF8)]
    (∃ files release, ["## 1.0.0"].forM (keep s "CHANGELOG.md" (some "# Changelog")) old =
        .ok () { old with files, release } ∧
      files.look ["repo"] (path s "CHANGELOG.md") =
        .ok (.file "# Changelog\n\n## 1.0.0\n\nof the demo crate\n\nOld\n".toUTF8)) ∧
    joined (["## 1.0.0"] ++ parted (untitled "# Changelog" text)) =
      "## 1.0.0\n\n# Changelog of the demo crate\n\nOld\n" := by
  intro s text old
  have hold : old.files.TextAt old.here (path s "CHANGELOG.md") text := .file rfl
  obtain ⟨files, release, hkeep, hlook⟩ := forM_keep_apply (s := s) (w := old) (some "# Changelog") rfl
    (List.cons_ne_nil "## 1.0.0" []) rfl hold
  refine ⟨⟨files, release, hkeep, hlook.trans ?_⟩, by decide +kernel⟩
  refine congrArg (fun text : String => Except.ok (Entry.file text.toUTF8)) ?_
  decide +kernel

end ReleasePipeline.Changelog
