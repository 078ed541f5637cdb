import Mathlib.Data.List.Induction
import ReleasePipeline.Proofs.Files.Content

/-! Directories that are made on the way to a file. They can be made where no file is in the way, and
nothing else is made. -/
namespace ReleasePipeline

namespace Path

/-- The place at which a path begins. -/
def start (here : Place) (p : Path) : Place := if p.isAbsolute then [] else here

/-- A path that the system takes: without null characters and not too long. -/
structure Admissible (p : Path) : Prop where
  null : ∀ n ∈ p.names, '\x00' ∉ n.toList
  size : p.text.utf8ByteSize ≤ FileTree.maxPathSize

theorem exists_intercalate_append (names : List String) (n : String) :
    ∃ rest, String.intercalate "/" (names ++ [n]) = String.intercalate "/" names ++ rest := by
  induction names with
  | nil => exact ⟨n, by simp⟩
  | cons m names ih =>
    cases names with
    | nil => exact ⟨"/" ++ n, by simp [String.append_assoc]⟩
    | cons m' names =>
      obtain ⟨rest, hrest⟩ := ih
      refine ⟨rest, ?_⟩
      rw [List.cons_append, List.cons_append, String.intercalate_cons_cons,
        String.intercalate_cons_cons, ← List.cons_append, hrest, ← String.append_assoc]

theorem size_text_pos (p : Path) : 0 < p.text.utf8ByteSize := by
  rw [text]
  split
  · decide
  · rename_i hnonempty
    rw [String.isEmpty_iff] at hnonempty
    exact Nat.pos_of_ne_zero (mt String.utf8ByteSize_eq_zero_iff.mp hnonempty)

/-- The directory of a path has no longer text than the path. -/
theorem size_text_parent (p : Path) : p.parent.text.utf8ByteSize ≤ p.text.utf8ByteSize := by
  obtain hnames | ⟨names, n, hnames⟩ := List.eq_nil_or_concat p.names
  · have hsame : p.parent = p := by rw [parent, hnames, List.dropLast_nil, ← hnames]
    rw [hsame]
  · rw [List.concat_eq_append] at hnames
    obtain ⟨rest, hrest⟩ := exists_intercalate_append names n
    have hpos := size_text_pos p
    have hfront : p.root ++ String.intercalate "/" p.names =
        p.root ++ String.intercalate "/" p.parent.names ++ rest := by
      rw [parent, hnames, List.dropLast_concat, hrest, String.append_assoc]
    rw [text]
    split
    · exact hpos
    · rename_i hnonempty
      have hwhole : p.text = p.root ++ String.intercalate "/" p.parent.names ++ rest := by
        rw [text, hfront]
        refine if_neg fun hempty => hnonempty ?_
        rw [String.isEmpty_iff] at hempty ⊢
        exact (String.append_eq_empty_iff.mp hempty).1
      rw [hwhole, String.utf8ByteSize_append (t := rest)]
      exact Nat.le_add_right _ _

theorem Admissible.parent {p : Path} (h : p.Admissible) : p.parent.Admissible where
  null n hn := h.null n (List.dropLast_subset p.names hn)
  size := (size_text_parent p).trans h.size

end Path

namespace FileTree

variable {t t' t₁ : FileTree} {here start place : Place} {names front back : List String} {n : String}
  {p : Path} {e : Entry} {content : ByteArray} {made : Place → Prop}

/-- The place to which a name leads. -/
def enter (place : Place) (n : String) : Place := if n = ".." then place.dropLast else place ++ [n]

/-- The place to which names lead where no file is in the way. -/
def walk (start : Place) (names : List String) : Place := names.foldl enter start

theorem walk_append_singleton (start : Place) (names : List String) (n : String) :
    walk start (names ++ [n]) = enter (walk start names) n := List.foldl_append

theorem follow_append : t.follow start (front ++ back) =
    t.follow start front >>= fun place => t.follow place back := by
  induction front generalizing start with
  | nil => rfl
  | cons n front ih =>
    rw [List.cons_append, follow, follow]
    cases t.entry? start with
    | none => rfl
    | some e =>
      cases e with
      | file _ => rfl
      | directory =>
        simp only
        split
        · rfl
        · exact ih

/-- A last name leads on from a directory. -/
theorem follow_append_singleton : t.follow start (names ++ [n]) = .ok place ↔
    ∃ parent, t.follow start names = .ok parent ∧ t.entry? parent = some .directory ∧
      n.utf8ByteSize ≤ maxNameSize ∧ place = enter parent n := by
  rw [follow_append, bind_eq_ok]
  refine exists_congr fun parent => and_congr_right fun _ => ?_
  rw [follow]
  cases t.entry? parent with
  | none => simp
  | some e =>
    cases e with
    | file _ => simp
    | directory =>
      by_cases hlong : maxNameSize < n.utf8ByteSize
      · simp [hlong, Nat.not_le.mpr hlong]
      · simp [hlong, follow, enter, Nat.not_lt.mp hlong, eq_comm]

theorem follow_eq_walk (h : t.follow start names = .ok place) : place = walk start names := by
  induction names using List.reverseRecOn generalizing place with
  | nil =>
    cases h
    rfl
  | append_singleton names n ih =>
    obtain ⟨parent, hparent, -, -, rfl⟩ := follow_append_singleton.mp h
    rw [walk_append_singleton, ← ih hparent]

/-- No file is in the way of a path, and it can be the path of a file. -/
structure Clear (t : FileTree) (here : Place) (p : Path) : Prop where
  admissible : p.Admissible
  names : ∀ n ∈ p.names, n.utf8ByteSize ≤ maxNameSize
  files : ∀ front, front <+: p.names → ∀ content,
    t.entry? (walk (p.start here) front) ≠ some (.file content)

/-- Whatever stands in the tree stands in a directory. -/
def Sound (t : FileTree) : Prop :=
  ∀ place e, t.entry? place = some e → t.entry? place.dropLast = some .directory

theorem sound_of_entries (h : ∀ entry ∈ t.entries, t.entry? entry.1.dropLast = some .directory) :
    t.Sound := by
  intro place e hentry
  unfold entry? at hentry
  split at hentry
  · rename_i hroot
    rw [List.isEmpty_iff.mp hroot]
    rfl
  · obtain ⟨front, back, hentries, -⟩ := List.lookup_eq_some_iff.mp hentry
    exact h (place, e) (hentries ▸ List.mem_append_right front List.mem_cons_self)

/-- The tree `t'` is the tree `t` with more directories at places of a kind. -/
def Grown (made : Place → Prop) (t t' : FileTree) : Prop :=
  ∀ place, t'.entry? place = t.entry? place ∨
    t.entry? place = none ∧ t'.entry? place = some .directory ∧ made place

theorem Grown.refl (made : Place → Prop) (t : FileTree) : Grown made t t := fun _ => .inl rfl

theorem Grown.trans (h : Grown made t t₁) (h' : Grown made t₁ t') : Grown made t t' := by
  intro place
  obtain hsame | ⟨hnone, hmade⟩ := h' place
  · rw [hsame]
    exact h place
  · obtain hsame' | ⟨-, hdirectory, -⟩ := h place
    · exact .inr ⟨hsame' ▸ hnone, hmade⟩
    · rw [hdirectory] at hnone
      cases hnone

theorem Grown.mono {made' : Place → Prop} (h : Grown made t t')
    (hmade : ∀ place, made place → made' place) : Grown made' t t' :=
  fun place => (h place).imp id fun h => ⟨h.1, h.2.1, hmade place h.2.2⟩

theorem Grown.directory (h : Grown made t t') (hplace : t.entry? place = some .directory) :
    t'.entry? place = some .directory := by
  obtain hsame | ⟨hnone, -⟩ := h place
  · rw [hsame, hplace]
  · rw [hplace] at hnone
    cases hnone

theorem Grown.file (h : Grown made t t') (hplace : t'.entry? place = some (.file content)) :
    t.entry? place = some (.file content) := by
  obtain hsame | ⟨-, hdirectory, -⟩ := h place
  · rw [← hsame, hplace]
  · rw [hplace] at hdirectory
    cases hdirectory

theorem Clear.grown (hclear : t.Clear here p) (h : Grown made t t') : t'.Clear here p where
  admissible := hclear.admissible
  names := hclear.names
  files front hfront content hfile := hclear.files front hfront content (h.file hfile)

theorem Clear.parent (hclear : t.Clear here p) : t.Clear here p.parent where
  admissible := hclear.admissible.parent
  names n hn := hclear.names n ((List.dropLast_subset p.names) hn)
  files front hfront := hclear.files front (hfront.trans (List.dropLast_prefix p.names))

/-- What the system takes a path for. -/
theorem place_cases (t : FileTree) (here : Place) (p : Path) :
    (∃ n ∈ p.names, '\x00' ∈ n.toList) ∧ t.place here p = .error .nullCharacter ∨
      (∀ n ∈ p.names, '\x00' ∉ n.toList) ∧ maxPathSize < p.text.utf8ByteSize ∧
        t.place here p = .error .nameTooLong ∨
      p.Admissible ∧ t.place here p = t.follow (p.start here) p.names := by
  rw [FileTree.place]
  split
  · rename_i hnull
    obtain ⟨n, hn, hmem⟩ := List.any_eq_true.mp hnull
    exact .inl ⟨⟨n, hn, List.contains_iff_mem.mp hmem⟩, rfl⟩
  · rename_i hnull
    have hplain : ∀ n ∈ p.names, '\x00' ∉ n.toList := fun n hn hmem =>
      hnull (List.any_eq_true.mpr ⟨n, hn, List.contains_iff_mem.mpr hmem⟩)
    split
    · rename_i hlong
      exact .inr (.inl ⟨hplain, hlong, rfl⟩)
    · rename_i hshort
      exact .inr (.inr ⟨⟨hplain, Nat.not_lt.mp hshort⟩, rfl⟩)

theorem place_of_admissible (h : p.Admissible) :
    t.place here p = t.follow (p.start here) p.names := by
  obtain ⟨⟨n, hn, hnull⟩, -⟩ | ⟨-, hlong, -⟩ | ⟨-, hplace⟩ := t.place_cases here p
  · exact absurd hnull (h.null n hn)
  · exact absurd h.size (Nat.not_le.mpr hlong)
  · exact hplace

theorem place_eq_ok_iff_follow : t.place here p = .ok place ↔
    p.Admissible ∧ t.follow (p.start here) p.names = .ok place := by
  obtain ⟨⟨n, hn, hnull⟩, hplace⟩ | ⟨-, hlong, hplace⟩ | ⟨hadmissible, hplace⟩ :=
    t.place_cases here p
  · rw [hplace]
    exact iff_of_false (by rintro ⟨⟩) fun h => h.1.null n hn hnull
  · rw [hplace]
    exact iff_of_false (by rintro ⟨⟩) fun h => absurd h.1.size (Nat.not_le.mpr hlong)
  · rw [hplace, and_iff_right hadmissible]

theorem place_eq_follow (hclear : t.Clear here p) : t.place here p = t.follow (p.start here) p.names :=
  place_of_admissible hclear.admissible

theorem place_eq_walk (hclear : t.Clear here p) (hplace : t.place here p = .ok place) :
    place = walk (p.start here) p.names :=
  follow_eq_walk (place_eq_follow hclear ▸ hplace)

/-- A clear path leads to a place if the path to its last name leads to a directory. -/
theorem place_eq_ok_iff (hclear : t.Clear here p) (hnames : p.names = names ++ [n]) :
    t.place here p = .ok place ↔ ∃ parent, t.place here p.parent = .ok parent ∧
      t.entry? parent = some .directory ∧ place = enter parent n := by
  have hparent : p.parent.names = names := by rw [Path.parent, hnames, List.dropLast_concat]
  have hshort := hclear.names n (hnames ▸ List.mem_append_right names List.mem_cons_self)
  rw [place_eq_follow hclear, place_eq_follow hclear.parent, hnames, hparent, follow_append_singleton]
  exact exists_congr fun parent => and_congr_right fun _ => and_congr_right fun _ => and_iff_right hshort

/-- A clear path leads nowhere only where a directory is missing. -/
theorem place_eq_error (hclear : t.Clear here p) {e : FileFault} (h : t.place here p = .error e) :
    e = .notFound := by
  rw [place_eq_follow hclear] at h
  have hshort := hclear.names
  have hfiles := hclear.files
  generalize p.names = names at h hshort hfiles
  induction names using List.reverseRecOn with
  | nil => cases h
  | append_singleton names n ih =>
    rw [follow_append, bind_eq_error] at h
    obtain h | ⟨parent, hparent, h⟩ := h
    · exact ih h (fun n hn => hshort n (List.mem_append_left _ hn))
        fun front hfront => hfiles front (hfront.trans (List.prefix_append _ _))
    · rw [follow] at h
      cases hentry : t.entry? parent with
      | none =>
        rw [hentry] at h
        cases h
        rfl
      | some entry =>
        rw [hentry] at h
        cases entry with
        | file content =>
          rw [follow_eq_walk hparent] at hentry
          exact absurd hentry (hfiles names (List.prefix_append _ _) content)
        | directory =>
          simp only at h
          rw [if_neg (Nat.not_lt.mpr (hshort n (by simp)))] at h
          cases h

theorem grown_insert (hplace : place ≠ []) (hnone : t.entry? place = none) :
    Grown (· = place) t (t.insert place .directory) := by
  intro other
  by_cases hother : other = place
  · subst hother
    exact .inr ⟨hnone, entry?_insert_self hplace, rfl⟩
  · exact .inl (entry?_insert_of_ne hother)

theorem sound_insert (hsound : t.Sound) (hplace : place ≠ []) (hnone : t.entry? place = none)
    (hparent : t.entry? place.dropLast = some .directory) : (t.insert place .directory).Sound := by
  have hgrown := grown_insert hplace hnone
  intro other e hother
  by_cases hsame : other = place
  · rw [hsame]
    exact hgrown.directory hparent
  · rw [entry?_insert_of_ne hsame] at hother
    exact hgrown.directory (hsound other e hother)

theorem makeDirectory_of_place (hplace : t.place here p = .ok place) : t.makeDirectory here p =
    if p.name = ".." ∨ (t.entry? place).isSome then .error .alreadyExists
    else .ok (t.insert place .directory) := by
  simp only [makeDirectory, hplace, bind, Except.bind, Bool.or_eq_true, decide_eq_true_eq]
  split <;> rfl

/-- A directory is not made once more. -/
theorem ensureDirectory_of_look (h : t.look here p = .ok .directory) :
    t.ensureDirectory here p = .ok t := by
  obtain ⟨place, hplace, hentry⟩ := look_eq_ok_iff.mp h
  have hmake : t.makeDirectory here p = .error .alreadyExists := by
    rw [makeDirectory_of_place hplace, hentry]
    exact if_pos (.inr rfl)
  rw [ensureDirectory, hmake, isDirectory, look?, h]
  rfl

theorem makeDirectories_of_look (h : t.look here p = .ok .directory) (fuel : Nat) :
    t.makeDirectories here fuel p = (t, .ok ()) := by
  rw [makeDirectories.eq_def, ensureDirectory_of_look h]

/-- A directory is not made where those above it are missing. -/
theorem ensureDirectory_of_error (hclear : t.Clear here p) {e : FileFault}
    (h : t.place here p = .error e) : t.ensureDirectory here p = .error .notFound := by
  obtain rfl := place_eq_error hclear h
  have hlook : t.look here p = .error .notFound := by
    rw [look, h]
    rfl
  have hmake : t.makeDirectory here p = .error .notFound := by
    rw [makeDirectory, h]
    rfl
  rw [ensureDirectory, hmake, isDirectory, look?, hlook]
  rfl

section Making

variable (hstart : t.entry? (p.start here) = some .directory) (hsound : t.Sound)
  (hclear : t.Clear here p)

include hstart hsound hclear

/-- A directory is made where those above it are there. -/
theorem exists_ensureDirectory (hplace : t.place here p = .ok place) :
    ∃ t', t.ensureDirectory here p = .ok t' ∧ Grown (· = place) t t' ∧ t'.Sound ∧
      t'.look here p = .ok .directory := by
  cases hentry : t.entry? place with
  | some e =>
    cases e with
    | file content =>
      rw [place_eq_walk hclear hplace] at hentry
      exact absurd hentry (hclear.files p.names List.prefix_rfl content)
    | directory =>
      have hlook := look_eq_ok_iff.mpr ⟨place, hplace, hentry⟩
      exact ⟨t, ensureDirectory_of_look hlook, .refl _ t, hsound, hlook⟩
  | none =>
    obtain hnames | ⟨names, n, hnames⟩ := List.eq_nil_or_concat p.names
    · rw [place_eq_walk hclear hplace, hnames] at hentry
      rw [show walk (p.start here) [] = p.start here from rfl, hstart] at hentry
      cases hentry
    · rw [List.concat_eq_append] at hnames
      obtain ⟨parent, -, hparent, hchild⟩ := (place_eq_ok_iff hclear hnames).mp hplace
      have hup : n ≠ ".." := by
        rintro rfl
        rw [hchild, enter, if_pos rfl, hsound parent _ hparent] at hentry
        cases hentry
      have hname : p.name = n := by rw [Path.name, hnames, List.getLast?_concat, Option.getD_some]
      rw [enter, if_neg hup] at hchild
      have hne : place ≠ [] := by simp [hchild]
      have hmake : t.ensureDirectory here p = .ok (t.insert place .directory) := by
        rw [ensureDirectory, makeDirectory_of_place hplace, hentry, hname, if_neg (by simpa using hup)]
      have hplace' : (t.insert place .directory).place here p = .ok place :=
        place_insert (by simp [hentry]) hplace
      refine ⟨_, hmake, grown_insert hne hentry, sound_insert hsound hne hentry ?_,
        look_eq_ok_iff.mpr ⟨place, hplace', entry?_insert_self hne⟩⟩
      rwa [hchild, List.dropLast_concat]

/-- The directories that are missing on a clear path are made, and nothing else is. -/
theorem exists_makeDirectories {fuel : Nat} (hfuel : p.names.length ≤ fuel) :
    ∃ t', t.makeDirectories here fuel p = (t', .ok ()) ∧
      Grown (fun place => ∃ front, front <+: p.names ∧ place = walk (p.start here) front) t t' ∧
      t'.Sound ∧ t'.look here p = .ok .directory := by
  generalize hnames : p.names = names at hfuel ⊢
  -- a directory that is missing is made after those above it
  induction names using List.reverseRecOn generalizing p fuel with
  | nil =>
    have hplace : t.place here p = .ok (p.start here) := by
      rw [place_eq_follow hclear, hnames]
      rfl
    have hlook := look_eq_ok_iff.mpr ⟨_, hplace, hstart⟩
    exact ⟨t, makeDirectories_of_look hlook fuel, .refl _ t, hsound, hlook⟩
  | append_singleton names n ih =>
    cases hplace : t.place here p with
    | ok place =>
      obtain ⟨t', hmake, hgrown, hsound', hlook⟩ :=
        exists_ensureDirectory hstart hsound hclear hplace
      refine ⟨t', by rw [makeDirectories.eq_def, hmake], hgrown.mono ?_, hsound', hlook⟩
      rintro _ rfl
      exact ⟨names ++ [n], List.prefix_rfl, hnames ▸ place_eq_walk hclear hplace⟩
    | error e =>
      obtain ⟨fuel, rfl⟩ : ∃ k, fuel = k + 1 :=
        Nat.exists_eq_add_one.mpr (Nat.lt_of_lt_of_le (by simp) hfuel)
      have hparent : p.parent.names = names := by rw [Path.parent, hnames, List.dropLast_concat]
      have hne : p.parent ≠ p := by
        intro h
        have hlength := congrArg (fun p => p.names.length) h
        simp [hparent, hnames] at hlength
      obtain ⟨t₁, habove, hgrown, hsound₁, hlook⟩ :=
        @ih p.parent hstart hclear.parent fuel hparent (by simpa using hfuel)
      obtain ⟨place, hplace₁, hentry⟩ := look_eq_ok_iff.mp hlook
      have hclear₁ := hclear.grown hgrown
      have hthere := (place_eq_ok_iff hclear₁ hnames).mpr ⟨place, hplace₁, hentry, rfl⟩
      obtain ⟨t', hmake, hgrown', hsound', hlook'⟩ :=
        exists_ensureDirectory (hgrown.directory hstart) hsound₁ hclear₁ hthere
      refine ⟨t', ?_, (hgrown.mono ?_).trans (hgrown'.mono ?_), hsound', hlook'⟩
      · rw [makeDirectories, ensureDirectory_of_error hclear hplace]
        simp only [if_neg hne, habove, hmake]
      · rintro _ ⟨front, hfront, rfl⟩
        exact ⟨front, hfront.trans (List.prefix_append names [n]), rfl⟩
      · rintro _ rfl
        exact ⟨names ++ [n], List.prefix_rfl, hnames ▸ place_eq_walk hclear₁ hthere⟩

end Making

/-- A file stands in a directory. -/
theorem look_parent_of_look (hstart : t.entry? (p.start here) = some .directory)
    (h : t.look here p = .ok (.file content)) : t.look here p.parent = .ok .directory := by
  obtain ⟨place, hplace, hentry⟩ := look_eq_ok_iff.mp h
  obtain ⟨hadmissible, hfollow⟩ := place_eq_ok_iff_follow.mp hplace
  obtain hnames | ⟨names, n, hnames⟩ := List.eq_nil_or_concat p.names
  · rw [hnames] at hfollow
    rw [← Except.ok.inj (show Except.ok (p.start here) = _ from hfollow), hstart] at hentry
    cases hentry
  · rw [List.concat_eq_append] at hnames
    have hparent : p.parent.names = names := by rw [Path.parent, hnames, List.dropLast_concat]
    rw [hnames, follow_append_singleton] at hfollow
    obtain ⟨parent, hfollow, hdirectory, -⟩ := hfollow
    have hplace' : t.place here p.parent = .ok parent :=
      place_eq_ok_iff_follow.mpr ⟨hadmissible.parent, hparent.symm ▸ hfollow⟩
    exact look_eq_ok_iff.mpr ⟨parent, hplace', hdirectory⟩

/-- A place for a file, with room for the directories above it: its path is clear and does not pass
through it. -/
structure Vacant (t : FileTree) (here : Place) (p : Path) : Prop extends t.Clear here p where
  sound : t.Sound
  vacant : t.entry? (walk (p.start here) p.names) = none
  fresh : ∀ front, front <+: p.names → front ≠ p.names →
    walk (p.start here) front ≠ walk (p.start here) p.names

/-- The text of a file, which is empty if there is none but room for it. -/
inductive TextAt (t : FileTree) (here : Place) (p : Path) : String → Prop
  | file {text : String} (h : t.look here p = .ok (.file text.toUTF8)) : TextAt t here p text
  | vacant (h : t.Vacant here p) : TextAt t here p ""

theorem Vacant.exists? (h : t.Vacant here p) : t.exists? here p = .ok false := by
  have hlook : t.look here p = .error .notFound := by
    rw [look]
    cases hplace : t.place here p with
    | error e =>
      rw [place_eq_error h.toClear hplace]
      rfl
    | ok place =>
      obtain rfl := place_eq_walk h.toClear hplace
      simp only [bind, Except.bind, h.vacant]
      rfl
  rw [FileTree.exists?, look?, hlook]
  rfl

/-- The directories above a vacant place can be made, and leave it vacant. -/
theorem Vacant.exists_place (h : t.Vacant here p) (hstart : t.entry? (p.start here) = some .directory) :
    ∃ t₁ place, t.makeDirectories here p.parent.names.length p.parent = (t₁, .ok ()) ∧
      t₁.place here p = .ok place ∧ t₁.entry? place = none ∧
      t₁.entry? (p.start here) = some .directory := by
  obtain hnames | ⟨names, n, hnames⟩ := List.eq_nil_or_concat p.names
  · have hnone := h.vacant
    rw [hnames, show walk (p.start here) [] = p.start here from rfl, hstart] at hnone
    cases hnone
  · rw [List.concat_eq_append] at hnames
    obtain ⟨t₁, hmake, hgrown, -, hlook⟩ :=
      exists_makeDirectories (p := p.parent) hstart h.sound h.toClear.parent le_rfl
    obtain ⟨parent, hparent, hdirectory⟩ := look_eq_ok_iff.mp hlook
    have hclear := h.toClear.grown hgrown
    have hplace := (place_eq_ok_iff hclear hnames).mpr ⟨parent, hparent, hdirectory, rfl⟩
    refine ⟨t₁, _, hmake, hplace, ?_, hgrown.directory hstart⟩
    rw [place_eq_walk hclear hplace]
    obtain hsame | ⟨-, -, front, hfront, hmade⟩ := hgrown (walk (p.start here) p.names)
    · rw [hsame, h.vacant]
    · have hlength : front.length < p.names.length := by
        have hle := hfront.length_le
        rw [Path.parent, hnames, List.dropLast_concat] at hle
        rw [hnames, List.length_append]
        exact Nat.lt_succ_of_le hle
      refine absurd hmade.symm (h.fresh front (hfront.trans (List.dropLast_prefix p.names)) ?_)
      rintro rfl
      exact Nat.lt_irrefl _ hlength

/-- The directories above a text can be made, and a file be written at its place. -/
theorem TextAt.exists_place {text : String} (h : t.TextAt here p text)
    (hstart : t.entry? (p.start here) = some .directory) :
    ∃ t₁ place, t.makeDirectories here p.parent.names.length p.parent = (t₁, .ok ()) ∧
      t₁.place here p = .ok place ∧ t₁.entry? place ≠ some .directory ∧
      t₁.entry? (p.start here) = some .directory := by
  cases h with
  | file hlook =>
    obtain ⟨place, hplace, hentry⟩ := look_eq_ok_iff.mp hlook
    have hparent := look_parent_of_look hstart hlook
    exact ⟨t, place, makeDirectories_of_look hparent _, hplace, by simp [hentry], hstart⟩
  | vacant h =>
    obtain ⟨t₁, place, hmake, hplace, hnone, hstart₁⟩ := h.exists_place hstart
    exact ⟨t₁, place, hmake, hplace, by simp [hnone], hstart₁⟩

end FileTree

end ReleasePipeline
