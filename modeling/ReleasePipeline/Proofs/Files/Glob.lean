import ReleasePipeline.Files.Glob
import ReleasePipeline.Proofs.Files.Regular

/-! What a pattern for paths stands for: the paths to which its parts lead, each of them once. The search
for them fails where it comes to a path that is too long. -/
namespace ReleasePipeline

namespace FileTree

variable {t : FileTree} {here place place' : Place} {p : Path} {n : String} {e : Entry}

theorem place_child (h : t.place here p = .ok place) (h' : t.place here (p.child n) = .ok place') :
    place' = enter place n := by
  obtain ⟨-, hfollow⟩ := place_eq_ok_iff_follow.mp h
  obtain ⟨-, hfollow'⟩ := place_eq_ok_iff_follow.mp h'
  rw [follow_eq_walk hfollow, follow_eq_walk hfollow', Path.child, walk_append_singleton]
  rfl

/-- The number of entries below a place. -/
def entriesBelow (t : FileTree) (place : Place) : ℕ :=
  (t.entries.filter fun entry => place <+: entry.1 ∧ entry.1 ≠ place).length

theorem entriesBelow_le (t : FileTree) (place : Place) : t.entriesBelow place ≤ t.entries.length :=
  List.length_filter_le _ _

/-- Fewer entries are below an entry than below the directory that holds it. -/
theorem entriesBelow_lt (h : t.entry? (place ++ [n]) = some e) :
    t.entriesBelow (place ++ [n]) < t.entriesBelow place := by
  have hnested : (t.entries.filter fun entry => place ++ [n] <+: entry.1 ∧ entry.1 ≠ place ++ [n]) =
      (t.entries.filter fun entry => place <+: entry.1 ∧ entry.1 ≠ place).filter
        fun entry => place ++ [n] <+: entry.1 ∧ entry.1 ≠ place ++ [n] := by
    rw [List.filter_filter]
    refine List.filter_congr fun entry _ => ?_
    rw [← Bool.decide_and, decide_eq_decide, iff_self_and]
    rintro ⟨hbelow, -⟩
    refine ⟨(List.prefix_append place [n]).trans hbelow, ?_⟩
    intro hsame
    have hlength := hbelow.length_le
    rw [hsame, List.length_append] at hlength
    exact absurd hlength (by simp)
  rw [entriesBelow, entriesBelow, hnested, List.length_filter_lt_length_iff_exists]
  refine ⟨(place ++ [n], e), List.mem_filter.mpr ⟨mem_entries_of_eq_some h, ?_⟩, by simp⟩
  simp

/-- An entry of a directory stands at its path, unless that is too long. -/
theorem overlong_or_place_child (hplace : t.place here p = .ok place)
    (hdirectory : t.entry? place = some .directory) (hn : IsName n) :
    t.Overlong here (p.child n) ∨ t.place here (p.child n) = .ok (place ++ [n]) := by
  obtain ⟨hadmissible, hfollow⟩ := place_eq_ok_iff_follow.mp hplace
  obtain ⟨⟨m, hm, hnull⟩, -⟩ | ⟨-, -, hlong⟩ | ⟨-, hchild⟩ := t.place_cases here (p.child n)
  · obtain hm | hm := List.mem_append.mp hm
    · exact absurd hnull (hadmissible.null m hm)
    · rw [List.mem_singleton.mp hm] at hnull
      exact absurd hnull hn.null
  · exact .inl (place_eq_nameTooLong_iff.mp hlong)
  · by_cases hsize : n.utf8ByteSize ≤ maxNameSize
    · refine .inr (hchild.trans (follow_append_singleton.mpr ⟨place, hfollow, hdirectory, hsize, ?_⟩))
      rw [enter, if_neg hn.ne_up]
    · refine .inl (place_eq_nameTooLong_iff.mp (hchild.trans (follow_eq_nameTooLong_iff.mpr ?_)))
      exact ⟨p.names, n, [], place, rfl, hfollow, hdirectory, Nat.not_le.mp hsize⟩

theorem isFile_of_overlong (h : t.Overlong here p) : t.isFile here p = .error .nameTooLong := by
  rw [isFile, look?_of_overlong h]
  rfl

theorem exists?_of_overlong (h : t.Overlong here p) : t.exists? here p = .error .nameTooLong := by
  rw [exists?, look?_of_overlong h]
  rfl

end FileTree

namespace PathPattern

open FileTree

variable {t : FileTree} {here place : Place} {p q : Path} {n w : String} {part : PatternPart}
  {parts : List PatternPart} {only more : Bool} {fuel : ℕ} {pattern : PathPattern} {text : String}

/-- The directory `q` is `p` or stands below it. -/
inductive Below (t : FileTree) (here : Place) : Path → Path → Prop
  | refl (p : Path) : Below t here p p
  | child {p q : Path} {place : Place} {n : String} (hplace : t.place here p = .ok place)
    (hentry : t.entry? (place ++ [n]) = some .directory) (h : Below t here (p.child n) q) :
    Below t here p q

/-- A part of a pattern leads from `p` to `q`, which is a directory if the pattern goes on. -/
inductive Step (t : FileTree) (here : Place) (more : Bool) (p : Path) : PatternPart → Path → Prop
  | name {n : String} {e : Entry} (hlook : t.look here (p.child n) = .ok e)
    (hmore : more → e = .directory) : Step t here more p (.name n) (p.child n)
  | wildcard {place : Place} {n w : String} {e : Entry} (hplace : t.place here p = .ok place)
    (hentry : t.entry? (place ++ [n]) = some e) (hmatches : Text.globMatches w n)
    (hmore : more → e = .directory) : Step t here more p (.wildcard w) (p.child n)
  | directories {q : Path} (hbelow : Below t here p q) : Step t here more p .directories q

/-- The parts of a pattern lead from `p` to `q`. -/
inductive Leads (t : FileTree) (here : Place) (only : Bool) : Path → List PatternPart → Path → Prop
  | nil (p : Path) : Leads t here only p [] p
  | cons {p q r : Path} {part : PatternPart} {parts : List PatternPart}
    (hstep : Step t here (only || !parts.isEmpty) p part r) (h : Leads t here only r parts q) :
    Leads t here only p (part :: parts) q

/-- What is looked up to find out where a part leads from `p`: the name of the pattern, or the directories
whose entries it may be. -/
inductive Visits (t : FileTree) (here : Place) (p : Path) : PatternPart → Path → Prop
  | name (n : String) : Visits t here p (.name n) (p.child n)
  | wildcard (w : String) : Visits t here p (.wildcard w) p
  | directories {q : Path} (hbelow : Below t here p q) : Visits t here p .directories q

/-- What is looked up to find out where the parts of a pattern lead from `p`. -/
inductive Searches (t : FileTree) (here : Place) (only : Bool) : Path → List PatternPart → Path → Prop
  | here {p q : Path} {part : PatternPart} {parts : List PatternPart} (h : Visits t here p part q) :
    Searches t here only p (part :: parts) q
  | behind {p q r : Path} {part : PatternPart} {parts : List PatternPart}
    (hstep : Step t here (only || !parts.isEmpty) p part r) (h : Searches t here only r parts q) :
    Searches t here only p (part :: parts) q

/-- The search finds the paths of a kind, unless it fails at a path that is too long. -/
def Finds (found : Except FileFault (List Path)) (leads : Path → Prop) (fails : Prop) : Prop :=
  match found with
  | .ok paths => ¬ fails ∧ ∀ q, q ∈ paths ↔ leads q
  | .error e => fails ∧ e = .nameTooLong

section Finding

variable {found : Except FileFault (List Path)} {leads leads' : Path → Prop} {fails fails' : Prop}

theorem Finds.eq_error_iff (h : Finds found leads fails) {e : FileFault} :
    found = .error e ↔ fails ∧ e = .nameTooLong := by
  cases found with
  | ok paths => exact iff_of_false (by rintro ⟨⟩) fun hfails => h.1 hfails.1
  | error fault =>
    obtain ⟨hfails, rfl⟩ := h
    rw [Except.error.injEq, and_iff_right hfails, eq_comm]

theorem Finds.congr (h : Finds found leads fails) (hleads : ∀ q, leads q ↔ leads' q)
    (hfails : fails ↔ fails') : Finds found leads' fails' := by
  cases found with
  | error e => exact ⟨hfails.mp h.1, h.2⟩
  | ok paths => exact ⟨mt hfails.mpr h.1, fun q => (h.2 q).trans (hleads q)⟩

theorem Finds.map {f : List Path → List Path} (leads' : Path → Prop) (h : Finds found leads fails)
    (hf : ∀ paths q, (∀ q, q ∈ paths ↔ leads q) → (q ∈ f paths ↔ leads' q)) :
    Finds (found.map f) leads' fails := by
  cases found with
  | error e => exact h
  | ok paths => exact ⟨h.1, fun q => hf paths q h.2⟩

theorem bind_flatten {α : Type} (found : Except FileFault (List (List α))) (f : List α → List α) :
    (found >>= fun founds => .ok (f founds.flatten)) = (found.map List.flatten).map f := by
  cases found <;> rfl

/-- What is found from one of several places on is found from all of them. -/
theorem finds_mapM {α : Type} {f : α → Except FileFault (List Path)} {xs : List α}
    {leads : α → Path → Prop} {fails : α → Prop} (h : ∀ x ∈ xs, Finds (f x) (leads x) (fails x)) :
    Finds ((xs.mapM f).map List.flatten) (fun q => ∃ x ∈ xs, leads x q) (∃ x ∈ xs, fails x) := by
  cases hall : xs.mapM f with
  | error e =>
    obtain ⟨x, hx, herror⟩ := exists_of_mapM_eq_error hall
    have hfound := h x hx
    rw [herror] at hfound
    exact ⟨⟨x, hx, hfound.1⟩, hfound.2⟩
  | ok founds =>
    refine ⟨?_, fun q => ?_⟩
    · rintro ⟨x, hx, hfails⟩
      obtain ⟨paths, -, hpaths⟩ := exists_of_mem_mapM hall hx
      have hfound := h x hx
      rw [hpaths] at hfound
      exact hfound.1 hfails
    · rw [List.mem_flatten]
      constructor
      · rintro ⟨paths, hmem, hq⟩
        obtain ⟨x, hx, hpaths⟩ := exists_of_mapM_mem hall hmem
        have hfound := h x hx
        rw [hpaths] at hfound
        exact ⟨x, hx, (hfound.2 q).mp hq⟩
      · rintro ⟨x, hx, hq⟩
        obtain ⟨paths, hmem, hpaths⟩ := exists_of_mem_mapM hall hx
        have hfound := h x hx
        rw [hpaths] at hfound
        exact ⟨paths, hmem, (hfound.2 q).mpr hq⟩

/-- A second search that starts from what the first one found. -/
theorem Finds.bind {f : List Path → Except FileFault (List Path)} (fails' : Prop)
    (h : Finds found leads fails)
    (hf : ∀ paths, (∀ q, q ∈ paths ↔ leads q) → Finds (f paths) leads' fails') :
    Finds (found >>= f) leads' (fails ∨ fails') := by
  cases found with
  | error e => exact ⟨.inl h.1, h.2⟩
  | ok paths =>
    refine (hf paths h.2).congr (fun q => Iff.rfl) ?_
    rw [or_iff_right h.1]

end Finding

/-- The entries of a directory are listed, unless its path is too long. -/
def Listed (t : FileTree) (here : Place) (p : Path) : Prop :=
  t.look here p = .ok .directory ∨ t.Overlong here p

theorem listed_child (hregular : t.Regular) (hplace : t.place here p = .ok place)
    (hdirectory : t.entry? place = some .directory)
    (hentry : t.entry? (place ++ [n]) = some .directory) : Listed t here (p.child n) := by
  obtain hlong | hchild := overlong_or_place_child hplace hdirectory (hregular.isName hentry)
  · exact .inr hlong
  · exact .inl (look_eq_ok_iff.mpr ⟨_, hchild, hentry⟩)

/-- Where a path leads somewhere, the entries of a directory there are listed. -/
theorem Listed.exists_place (h : Listed t here p) (hplace : t.place here p = .ok place) :
    t.entry? place = some .directory := by
  obtain hlook | hlong := h
  · obtain ⟨place', hplace', hentry⟩ := look_eq_ok_iff.mp hlook
    cases hplace.symm.trans hplace'
    exact hentry
  · cases hplace.symm.trans (place_eq_nameTooLong_iff.mpr hlong)

theorem Listed.below (hregular : t.Regular) (h : Listed t here p) (hbelow : Below t here p q) :
    Listed t here q := by
  induction hbelow with
  | refl => exact h
  | child hplace hentry _ ih => exact ih (listed_child hregular hplace (h.exists_place hplace) hentry)

/-- Parts lead to directories as long as the pattern goes on. -/
theorem Listed.step (hregular : t.Regular) (h : Listed t here p)
    (hstep : Step t here true p part q) : Listed t here q := by
  cases hstep with
  | name hlook hmore =>
    obtain rfl := hmore rfl
    exact .inl hlook
  | wildcard hplace hentry _ hmore =>
    obtain rfl := hmore rfl
    exact listed_child hregular hplace (h.exists_place hplace) hentry
  | directories hbelow => exact h.below hregular hbelow

/-- A part with parts behind it leads to directories. -/
theorem Listed.behind (hregular : t.Regular) (h : Listed t here p) (hmore : parts ≠ [])
    (hstep : Step t here (only || !parts.isEmpty) p part q) : Listed t here q := by
  rw [List.isEmpty_eq_false_iff.mpr hmore, Bool.not_false, Bool.or_true] at hstep
  exact h.step hregular hstep

theorem below_iff (hplace : t.place here p = .ok place) : Below t here p q ↔
    q = p ∨ ∃ n, t.entry? (place ++ [n]) = some .directory ∧ Below t here (p.child n) q := by
  constructor
  · intro h
    cases h with
    | refl => exact .inl rfl
    | @child _ _ place' n hplace' hentry h =>
      cases hplace.symm.trans hplace'
      exact .inr ⟨n, hentry, h⟩
  · rintro (rfl | ⟨n, hentry, h⟩)
    · exact .refl q
    · exact .child hplace hentry h

/-- The fuel suffices for all directories, since each of them has fewer entries below it. -/
theorem finds_directoriesBelow (hregular : t.Regular) (hlisted : Listed t here p) (hpos : 0 < fuel)
    (hfuel : ∀ place, t.place here p = .ok place → t.entriesBelow place < fuel) :
    Finds (directoriesBelow t here fuel p) (Below t here p)
      (∃ q, Below t here p q ∧ t.Overlong here q) := by
  induction fuel generalizing p with
  | zero => exact absurd hpos (Nat.lt_irrefl 0)
  | succ fuel ih =>
    by_cases hlong : t.Overlong here p
    · rw [directoriesBelow, place_eq_nameTooLong_iff.mpr hlong]
      exact ⟨⟨p, .refl p, hlong⟩, rfl⟩
    · obtain ⟨place, hplace, hdirectory⟩ := look_eq_ok_iff.mp (hlisted.resolve_right hlong)
      let names := (t.namesIn place).filter fun n => t.entry? (place ++ [n]) = some .directory
      have hnames (n : String) : n ∈ names ↔ t.entry? (place ++ [n]) = some .directory := by
        rw [List.mem_filter, decide_eq_true_eq, mem_namesIn]
        exact and_iff_right_of_imp fun hentry => hentry ▸ rfl
      have hbelow : ∀ n ∈ names, Finds (directoriesBelow t here fuel (p.child n))
          (Below t here (p.child n)) (∃ q, Below t here (p.child n) q ∧ t.Overlong here q) := by
        intro n hn
        have hentry := (hnames n).mp hn
        have hfewer := entriesBelow_lt hentry
        have hroom := hfuel place hplace
        refine ih (listed_child hregular hplace hdirectory hentry) (by omega) fun place' hplace' => ?_
        have hchild := place_child hplace hplace'
        rw [enter, if_neg (hregular.isName hentry).ne_up] at hchild
        rw [hchild]
        omega
      have hsplit (q : Path) : Below t here p q ↔ q = p ∨ ∃ n ∈ names, Below t here (p.child n) q := by
        rw [below_iff hplace]
        exact or_congr_right (exists_congr fun n => and_congr_left' (hnames n).symm)
      have hrun : directoriesBelow t here (fuel + 1) p =
          ((names.mapM fun n => directoriesBelow t here fuel (p.child n)).map List.flatten).map
            (p :: ·) := by
        rw [directoriesBelow, hplace]
        exact bind_flatten _ (p :: ·)
      rw [hrun]
      refine ((finds_mapM hbelow).map (Below t here p) fun paths q hpaths => ?_).congr
        (fun q => Iff.rfl) ?_
      · rw [List.mem_cons, hpaths, hsplit]
      · constructor
        · rintro ⟨n, hn, q, hq, hqlong⟩
          exact ⟨q, (hsplit q).mpr (.inr ⟨n, hn, hq⟩), hqlong⟩
        · rintro ⟨q, hq, hqlong⟩
          obtain rfl | ⟨n, hn, hq⟩ := (hsplit q).mp hq
          · exact absurd hqlong hlong
          · exact ⟨n, hn, q, hq, hqlong⟩

theorem finds_step_name (more : Bool) : Finds (step t here more p (.name n))
    (Step t here more p (.name n)) (∃ q, Visits t here p (.name n) q ∧ t.Overlong here q) := by
  by_cases hlong : t.Overlong here (p.child n)
  · have hfails : step t here more p (.name n) = .error .nameTooLong := by
      rw [step, isDirectory_of_overlong hlong, exists?_of_overlong hlong, ite_self]
      rfl
    rw [hfails]
    exact ⟨⟨_, .name n, hlong⟩, rfl⟩
  have hrun : step t here more p (.name n) =
      .ok (if (t.look here (p.child n)).toOption.any fun e => !more || e = .directory then
        [p.child n] else []) := by
    rw [step, isDirectory_of_not_overlong hlong, exists?_of_not_overlong hlong]
    cases more <;> cases t.look here (p.child n) with
      | error fault => rfl
      | ok e => cases e <;> rfl
  rw [hrun]
  refine ⟨?_, fun q => ?_⟩
  · rintro ⟨_, ⟨⟩, hqlong⟩
    exact hlong hqlong
  constructor
  · intro hq
    split at hq
    · rename_i hfound
      obtain rfl := List.mem_singleton.mp hq
      obtain ⟨e, hlook, hmore⟩ := (Option.any_eq_true _ _).mp hfound
      obtain ⟨place, hplace, hentry⟩ := toOption_look_eq_some_iff.mp hlook
      refine .name (look_eq_ok_iff.mpr ⟨place, hplace, hentry⟩) fun hgoes => ?_
      simpa [hgoes] using hmore
    · cases hq
  · intro h
    cases h with
    | name hlook hmore =>
      rw [hlook, if_pos]
      · exact List.mem_singleton_self _
      · cases more with
        | false => rfl
        | true => simpa [Except.toOption] using hmore rfl

theorem finds_step_wildcard (hlisted : Listed t here p) (more : Bool) :
    Finds (step t here more p (.wildcard w)) (Step t here more p (.wildcard w))
      (∃ q, Visits t here p (.wildcard w) q ∧ t.Overlong here q) := by
  by_cases hlong : t.Overlong here p
  · rw [step, place_eq_nameTooLong_iff.mpr hlong]
    exact ⟨⟨p, .wildcard w, hlong⟩, rfl⟩
  obtain ⟨place, hplace, -⟩ := look_eq_ok_iff.mp (hlisted.resolve_right hlong)
  rw [step, hplace]
  refine ⟨?_, fun q => ?_⟩
  · rintro ⟨_, ⟨⟩, hqlong⟩
    exact hlong hqlong
  simp only [List.mem_map, List.mem_filter, mem_namesIn, Bool.and_eq_true]
  constructor
  · rintro ⟨n, ⟨hentry, hmatches, hmore⟩, rfl⟩
    obtain ⟨e, hentry⟩ := Option.isSome_iff_exists.mp hentry
    refine .wildcard hplace hentry hmatches fun hm => ?_
    simpa [hm, hentry] using hmore
  · intro h
    cases h with
    | @wildcard _ n _ e hplace' hentry hmatches hmore =>
      cases hplace.symm.trans hplace'
      refine ⟨n, ⟨hentry ▸ rfl, hmatches, ?_⟩, rfl⟩
      cases more with
      | false => rfl
      | true => simpa [hentry] using hmore rfl

/-- Where a single part leads. -/
theorem finds_step (hregular : t.Regular) (hlisted : Listed t here p) (more : Bool)
    (part : PatternPart) : Finds (step t here more p part) (Step t here more p part)
      (∃ q, Visits t here p part q ∧ t.Overlong here q) := by
  cases part with
  | name n => exact finds_step_name more
  | wildcard w => exact finds_step_wildcard hlisted more
  | directories =>
    refine (finds_directoriesBelow hregular hlisted (Nat.succ_pos _) fun place _ =>
      Nat.lt_succ_of_le (t.entriesBelow_le place)).congr (fun q => ?_) (exists_congr fun q => ?_)
    · exact ⟨.directories, by rintro ⟨⟩; assumption⟩
    · exact and_congr_left' ⟨.directories, by rintro ⟨⟩; assumption⟩

/-- The paths of a pattern are those to which its parts lead. -/
theorem finds_select (hregular : t.Regular) (hlisted : parts ≠ [] → Listed t here p) :
    Finds (select t here only p parts) (Leads t here only p parts)
      (∃ q, Searches t here only p parts q ∧ t.Overlong here q) := by
  induction parts generalizing p with
  | nil =>
    refine ⟨?_, fun q => ?_⟩
    · rintro ⟨_, ⟨⟩, -⟩
    · rw [List.mem_singleton]
      exact ⟨by rintro rfl; exact .nil q, by rintro ⟨⟩; rfl⟩
  | cons part parts ih =>
    have hlisted := hlisted (List.cons_ne_nil _ _)
    have hrest (starts : List Path)
        (hstarts : ∀ r, r ∈ starts ↔ Step t here (only || !parts.isEmpty) p part r) :
        Finds ((starts.mapM fun r => select t here only r parts) >>= fun found =>
            .ok (if part = .directories then found.flatten.eraseDups else found.flatten))
          (Leads t here only p (part :: parts))
          (∃ r, Step t here (only || !parts.isEmpty) p part r ∧
            ∃ q, Searches t here only r parts q ∧ t.Overlong here q) := by
      have hselect : ∀ r ∈ starts, Finds (select t here only r parts) (Leads t here only r parts)
          (∃ q, Searches t here only r parts q ∧ t.Overlong here q) := by
        intro r hr
        exact ih fun hmore => hlisted.behind hregular hmore ((hstarts r).mp hr)
      rw [bind_flatten _ fun paths => if part = .directories then paths.eraseDups else paths]
      refine ((finds_mapM hselect).map (Leads t here only p (part :: parts))
        fun paths q hpaths => ?_).congr (fun q => Iff.rfl) ?_
      · have hmem : q ∈ (if part = .directories then paths.eraseDups else paths) ↔ q ∈ paths := by
          split
          · exact List.mem_eraseDups
          · exact Iff.rfl
        rw [hmem, hpaths]
        constructor
        · rintro ⟨r, hr, hq⟩
          exact .cons ((hstarts r).mp hr) hq
        · intro h
          cases h with
          | cons hstep hq => exact ⟨_, (hstarts _).mpr hstep, hq⟩
      · exact exists_congr fun r => and_congr_left' (hstarts r)
    refine ((finds_step hregular hlisted _ part).bind _ hrest).congr (fun q => Iff.rfl) ?_
    constructor
    · rintro (⟨q, hq, hlong⟩ | ⟨r, hstep, q, hq, hlong⟩)
      · exact ⟨q, .here hq, hlong⟩
      · exact ⟨q, .behind hstep hq, hlong⟩
    · rintro ⟨q, hq, hlong⟩
      cases hq with
      | here h => exact .inl ⟨q, h, hlong⟩
      | behind hstep h => exact .inr ⟨_, hstep, q, h, hlong⟩

theorem child_append (p : Path) (n : String) (names : List String) :
    (⟨(p.child n).root, (p.child n).names ++ names⟩ : Path) = ⟨p.root, p.names ++ n :: names⟩ := by
  rw [Path.child, List.append_assoc]
  rfl

theorem Below.exists_names (hregular : t.Regular) (h : Below t here p q) :
    ∃ names, q = ⟨p.root, p.names ++ names⟩ ∧ ∀ n ∈ names, IsName n := by
  induction h with
  | refl p => exact ⟨[], by rw [List.append_nil], fun _ h => absurd h List.not_mem_nil⟩
  | @child p q place n hplace hentry h ih =>
    obtain ⟨names, hq, hnames⟩ := ih
    exact ⟨n :: names, hq.trans (child_append p n names),
      List.forall_mem_cons.mpr ⟨hregular.isName hentry, hnames⟩⟩

theorem Step.exists_names (hregular : t.Regular) (h : Step t here more p part q) :
    ∃ names, q = ⟨p.root, p.names ++ names⟩ ∧ ∀ n ∈ names, IsName n ∨ .name n = part := by
  cases h with
  | @name n e hlook hmore => exact ⟨[n], rfl, by simp⟩
  | @wildcard place n w e hplace hentry hmatches hmore =>
    exact ⟨[n], rfl, by simp [hregular.isName hentry]⟩
  | directories hbelow =>
    obtain ⟨names, hq, hnames⟩ := hbelow.exists_names hregular
    exact ⟨names, hq, fun n hn => .inl (hnames n hn)⟩

/-- Parts lead downwards, by names of entries and names that are parts themselves. -/
theorem Leads.exists_names (hregular : t.Regular) (h : Leads t here only p parts q) :
    ∃ names, q = ⟨p.root, p.names ++ names⟩ ∧ ∀ n ∈ names, IsName n ∨ .name n ∈ parts := by
  induction h with
  | nil p => exact ⟨[], by rw [List.append_nil], fun _ h => absurd h List.not_mem_nil⟩
  | @cons p q r part parts hstep h ih =>
    obtain ⟨first, rfl, hfirst⟩ := hstep.exists_names hregular
    obtain ⟨names, hq, hnames⟩ := ih
    refine ⟨first ++ names, by rw [hq, List.append_assoc], fun n hn => ?_⟩
    obtain hn | hn := List.mem_append.mp hn
    · exact (hfirst n hn).imp_right fun hpart => List.mem_cons.mpr (.inl hpart)
    · exact (hnames n hn).imp_right (List.mem_cons_of_mem _)

/-- A single part that does not stand for directories of any depth leads one name down. -/
theorem exists_children (hregular : t.Regular) {starts : List Path}
    (h : step t here more p part = .ok starts) (hpart : part ≠ .directories) :
    ∃ names : List String, starts = names.map p.child ∧ names.Nodup := by
  cases part with
  | name n =>
    rw [step, map_eq_ok] at h
    obtain ⟨found, -, rfl⟩ := h
    cases found
    · exact ⟨[], rfl, List.nodup_nil⟩
    · exact ⟨[n], rfl, List.nodup_singleton n⟩
  | wildcard w =>
    rw [step, bind_eq_ok] at h
    obtain ⟨place, -, h⟩ := h
    cases h
    exact ⟨_, rfl, (nodup_namesIn hregular.distinct place).filter _⟩
  | directories => exact absurd rfl hpart

/-- What is found behind a child begins with its name. -/
theorem begins_of_select (hregular : t.Regular) {found : List Path}
    (hlisted : parts ≠ [] → Listed t here (p.child n))
    (hfound : select t here only (p.child n) parts = .ok found) (hq : q ∈ found) :
    ∃ more, q.names = p.names ++ n :: more := by
  have hfinds : Finds (select t here only (p.child n) parts) _ _ := finds_select hregular hlisted
  rw [hfound] at hfinds
  obtain ⟨more, rfl, -⟩ := ((hfinds.2 q).mp hq).exists_names hregular
  exact ⟨more, congrArg Path.names (child_append p n more)⟩

/-- A path is selected once. -/
theorem nodup_select (hregular : t.Regular) {found : List Path}
    (hlisted : parts ≠ [] → Listed t here p) (h : select t here only p parts = .ok found) :
    found.Nodup := by
  induction parts generalizing p found with
  | nil =>
    cases h
    exact List.nodup_singleton p
  | cons part parts ih =>
    have hlisted := hlisted (List.cons_ne_nil _ _)
    obtain ⟨starts, hstarts, h⟩ := bind_eq_ok.mp h
    obtain ⟨founds, hfounds, h⟩ := bind_eq_ok.mp h
    cases h
    split
    · exact nodup_eraseDups _
    · rename_i hpart
      have hsteps := finds_step hregular hlisted (only || !parts.isEmpty) part
      rw [hstarts] at hsteps
      have hbehind : ∀ r ∈ starts, parts ≠ [] → Listed t here r := fun r hr hmore =>
        hlisted.behind hregular hmore ((hsteps.2 r).mp hr)
      obtain ⟨names, rfl, hnodup⟩ := exists_children hregular hstarts hpart
      let behind (r : Path) : List Path := (select t here only r parts).toOption.getD []
      have hmem {n : String} (hn : n ∈ names) : ∃ found, select t here only (p.child n) parts = .ok found ∧
          behind (p.child n) = found := by
        obtain ⟨found, -, hfound⟩ := exists_of_mem_mapM hfounds (List.mem_map_of_mem hn)
        exact ⟨found, hfound, by simp only [behind, hfound]; rfl⟩
      have hflatten : founds.flatten = names.flatMap fun n => behind (p.child n) := by
        rw [eq_map_of_mapM hfounds [], List.map_map]
        exact List.flatMap_def.symm
      rw [hflatten, List.nodup_flatMap]
      refine ⟨fun n hn => ?_, hnodup.imp_of_mem fun {m n} hm hn hne => ?_⟩
      · obtain ⟨found, hfound, hsame⟩ := hmem hn
        rw [hsame]
        exact ih (hbehind _ (List.mem_map_of_mem hn)) hfound
      · have hbegins {n : String} (hn : n ∈ names) {q : Path} (hq : q ∈ behind (p.child n)) :
            ∃ more, q.names = p.names ++ n :: more := by
          obtain ⟨found, hfound, hsame⟩ := hmem hn
          rw [hsame] at hq
          exact begins_of_select hregular (hbehind _ (List.mem_map_of_mem hn)) hfound hq
        intro q hq hq'
        obtain ⟨more, hmore⟩ := hbegins hm hq
        obtain ⟨more', hmore'⟩ := hbegins hn hq'
        rw [hmore, List.append_cancel_left_eq] at hmore'
        exact hne (List.cons.inj hmore').1

theorem precedes_trans (p q r : Path) (h : precedes p q) (h' : precedes q r) : precedes p r := by
  simp only [precedes, Bool.not_eq_true', decide_eq_false_iff_not] at h h' ⊢
  exact List.le_trans h h'

theorem precedes_total (p q : Path) : precedes p q || precedes q p := by
  simp only [precedes, Bool.or_eq_true, Bool.not_eq_true', decide_eq_false_iff_not]
  exact List.le_total p.names q.names

/-- The search for the files of a pattern comes to a path that is too long: the directory below which it
searches, a name of the pattern, a directory on the way, or a path to which the parts lead. -/
def Fails (pattern : PathPattern) (t : FileTree) (here : Place) (p : Path) : Prop :=
  t.Overlong here p ∨ t.look here p = .ok .directory ∧ ∃ q, t.Overlong here q ∧
    (Searches t here pattern.onlyDirectories p pattern.parts q ∨
      Leads t here pattern.onlyDirectories p pattern.parts q)

theorem isDirectory_eq_ok_true_iff : t.isDirectory here p = .ok true ↔ t.look here p = .ok .directory := by
  by_cases hlong : t.Overlong here p
  · rw [isDirectory_of_overlong hlong, look_eq_nameTooLong_iff.mpr hlong]
    exact iff_of_false (by simp) (by simp)
  · rw [isDirectory_of_not_overlong hlong]
    cases t.look here p with
    | error fault => exact iff_of_false (by simp [Except.toOption]) (by simp)
    | ok e => simp [Except.toOption]

theorem finds_isFile (t : FileTree) (here : Place) (q : Path) :
    Finds ((t.isFile here q).map fun isFile => if isFile then [q] else [])
      (fun r => r = q ∧ t.isFile here q = .ok true) (t.Overlong here q) := by
  by_cases hlong : t.Overlong here q
  · rw [isFile_of_overlong hlong]
    exact ⟨hlong, rfl⟩
  · rw [isFile, look?_of_not_overlong hlong]
    refine ⟨hlong, fun r => ?_⟩
    simp only [Except.map, Except.ok.injEq]
    split <;> simp_all

theorem finds_filesAmong (t : FileTree) (here : Place) (paths : List Path) :
    Finds (filesAmong t here paths) (fun q => q ∈ paths ∧ t.isFile here q = .ok true)
      (∃ q ∈ paths, t.Overlong here q) := by
  have hrun : filesAmong t here paths = ((paths.mapM fun q =>
      (t.isFile here q).map fun isFile => if isFile then [q] else []).map List.flatten).map
        fun found => found.mergeSort precedes := bind_flatten _ fun found => found.mergeSort precedes
  rw [hrun]
  refine (finds_mapM fun q _ => finds_isFile t here q).map _ fun found q hfound => ?_
  rw [List.mem_mergeSort, hfound]
  constructor
  · rintro ⟨r, hr, rfl, hfile⟩
    exact ⟨hr, hfile⟩
  · rintro ⟨hq, hfile⟩
    exact ⟨q, hq, rfl, hfile⟩

/-- The files that a pattern stands for are those to which its parts lead. -/
theorem finds_files (hregular : t.Regular) (pattern : PathPattern) (here : Place) (p : Path) :
    Finds (pattern.files t here p) (fun q => t.look here p = .ok .directory ∧
      Leads t here pattern.onlyDirectories p pattern.parts q ∧ t.isFile here q = .ok true)
      (pattern.Fails t here p) := by
  by_cases hlong : t.Overlong here p
  · rw [files, isDirectory_of_overlong hlong]
    exact ⟨.inl hlong, rfl⟩
  rw [Fails, or_iff_right hlong]
  by_cases hdirectory : t.look here p = .ok .directory
  · rw [files, isDirectory_eq_ok_true_iff.mpr hdirectory]
    have hselect : Finds (select t here pattern.onlyDirectories p pattern.parts) _ _ :=
      finds_select hregular fun _ => .inl hdirectory
    refine (hselect.bind (∃ q, Leads t here pattern.onlyDirectories p pattern.parts q ∧
      t.Overlong here q) fun found hfound => ?_).congr (fun q => Iff.rfl) ?_
    · refine (finds_filesAmong t here found).congr (fun q => ?_) (exists_congr fun q => ?_)
      · rw [hfound, and_iff_right hdirectory]
      · rw [hfound]
    · rw [and_iff_right hdirectory, ← exists_or]
      refine exists_congr fun q => ?_
      rw [← or_and_right, and_comm]
  · have hnone : t.isDirectory here p = .ok false := by
      rw [isDirectory_of_not_overlong hlong]
      refine congrArg Except.ok (decide_eq_false fun h => hdirectory ?_)
      exact look_eq_ok_iff.mpr (toOption_look_eq_some_iff.mp h)
    rw [files, hnone]
    refine ⟨fun h => hdirectory h.1, fun q => ?_⟩
    exact iff_of_false List.not_mem_nil fun h => hdirectory h.1

/-- The files are among the paths, in ascending order. -/
theorem exists_sublist_of_filesAmong {paths found : List Path}
    (h : filesAmong t here paths = .ok found) :
    ∃ files : List Path, files.Sublist paths ∧ found = files.mergeSort precedes := by
  obtain ⟨founds, hfounds, hsorted⟩ := bind_eq_ok.mp h
  cases hsorted
  refine ⟨founds.flatten, ?_, rfl⟩
  have hall := mapM_eq_ok.mp hfounds
  clear h hfounds
  induction hall with
  | nil => exact .slnil
  | @cons q found paths founds hfound _ ih =>
    obtain ⟨isFile, -, rfl⟩ := map_eq_ok.mp hfound
    cases isFile
    · exact ih.cons q
    · exact ih.cons_cons q

/-- The files of a pattern are among the selected paths, if there is a directory to search. -/
theorem exists_select_of_files {found : List Path} (h : pattern.files t here p = .ok found) :
    found = [] ∨ t.look here p = .ok .directory ∧
      ∃ paths, select t here pattern.onlyDirectories p pattern.parts = .ok paths ∧
        ∃ files : List Path, files.Sublist paths ∧ found = files.mergeSort precedes := by
  obtain ⟨isDirectory, hdirectory, h⟩ := bind_eq_ok.mp h
  cases isDirectory with
  | false =>
    cases h
    exact .inl rfl
  | true =>
    obtain ⟨paths, hpaths, h⟩ := bind_eq_ok.mp h
    exact .inr ⟨isDirectory_eq_ok_true_iff.mp hdirectory, paths, hpaths,
      exists_sublist_of_filesAmong h⟩

theorem nodup_files (hregular : t.Regular) {found : List Path}
    (h : pattern.files t here p = .ok found) : found.Nodup := by
  obtain rfl | ⟨hdirectory, paths, hpaths, files, hfiles, rfl⟩ := exists_select_of_files h
  · exact List.nodup_nil
  · rw [(List.mergeSort_perm _ _).nodup_iff]
    exact hfiles.nodup (nodup_select hregular (fun _ => .inl hdirectory) hpaths)

theorem pairwise_files {found : List Path} (h : pattern.files t here p = .ok found) :
    found.Pairwise fun q r => precedes q r := by
  obtain rfl | ⟨-, -, -, files, -, rfl⟩ := exists_select_of_files h
  · exact List.Pairwise.nil
  · exact List.pairwise_mergeSort precedes_trans precedes_total files

end PathPattern

end ReleasePipeline
