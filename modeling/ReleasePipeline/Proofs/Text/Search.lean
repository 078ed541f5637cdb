import Mathlib.Data.List.Infix
import Mathlib.Data.List.Count
import ReleasePipeline.Text.Search

/-! Cutting and replacing, stated by means of `++` and of infixes. -/
namespace ReleasePipeline.Text

variable {mid start ending cs rest before after new : List Char}

theorem dropStart?_eq_some_iff : dropStart? start cs = some rest ↔ cs = start ++ rest := by
  induction start generalizing cs with
  | nil => simp [dropStart?]
  | cons a start ih =>
    cases cs with
    | nil => simp [dropStart?]
    | cons c cs =>
      by_cases h : a = c
      · subst h
        simp [dropStart?, ih]
      · simp [dropStart?, h, Ne.symm h]

theorem dropEnd?_eq_some_iff : dropEnd? ending cs = some rest ↔ cs = rest ++ ending := by
  constructor
  · intro h
    obtain ⟨r, hr, rfl⟩ := Option.map_eq_some_iff.mp h
    have := congrArg List.reverse (dropStart?_eq_some_iff.mp hr)
    simpa using this
  · rintro rfl
    refine Option.map_eq_some_iff.mpr ⟨rest.reverse, ?_, by simp⟩
    simp [dropStart?_eq_some_iff]

theorem cutAt?_eq_some (h : cutAt? mid cs = some (before, after)) :
    cs = before ++ mid ++ after := by
  induction cs generalizing before with
  | nil =>
    simp only [cutAt?] at h
    split at h
    · simp_all
    · simp at h
  | cons c cs ih =>
    simp only [cutAt?] at h
    split at h
    · next rest hr =>
      simp only [Option.some.injEq, Prod.mk.injEq] at h
      obtain ⟨rfl, rfl⟩ := h
      simpa using dropStart?_eq_some_iff.mp hr
    · obtain ⟨⟨b, a⟩, hb, heq⟩ := Option.map_eq_some_iff.mp h
      simp only [Prod.mk.injEq] at heq
      obtain ⟨rfl, rfl⟩ := heq
      simp [ih hb]

theorem isSome_cutAt? (h : mid <:+: cs) : (cutAt? mid cs).isSome := by
  obtain ⟨b, a, rfl⟩ := h
  induction b with
  | nil =>
    cases mid with
    | nil => cases a <;> simp [cutAt?, dropStart?]
    | cons m ms =>
      have hd : dropStart? (m :: ms) (m :: (ms ++ a)) = some a :=
        dropStart?_eq_some_iff.mpr rfl
      simp [cutAt?, hd]
  | cons c b ih =>
    simp only [List.cons_append, cutAt?]
    split
    · rfl
    · simpa using ih

/-- A run of characters ends at the first one that is not of its kind. -/
theorem span_append_cons {p : Char → Bool} {c : Char} (hrun : ∀ d ∈ cs, p d = true)
    (hc : p c = false) (rest : List Char) :
    (cs ++ c :: rest).takeWhile p = cs ∧ (cs ++ c :: rest).dropWhile p = c :: rest := by
  rw [List.takeWhile_append_of_pos hrun, List.dropWhile_append_of_pos hrun]
  simp [hc]

/-- The number of places at which `mid` stands in a text. -/
def occurrences (mid cs : List Char) : Nat := cs.tails.countP fun t => mid.isPrefixOf t

theorem occurrences_le_append (mid before after : List Char) :
    occurrences mid after ≤ occurrences mid (before ++ after) := by
  induction before with
  | nil => exact le_rfl
  | cons c before ih =>
    simp only [occurrences, List.cons_append, List.tails_cons, List.countP_cons] at ih ⊢
    omega

/-- A place in front of `after` counts beside those inside of it. -/
theorem occurrences_lt_append (before after : List Char) (hmid : mid ≠ []) :
    occurrences mid after < occurrences mid (before ++ mid ++ after) := by
  obtain ⟨m, ms, rfl⟩ := List.exists_cons_of_ne_nil hmid
  rw [List.append_assoc]
  refine lt_of_lt_of_le ?_ (occurrences_le_append _ _ _)
  have hp : List.isPrefixOf (m :: ms) (m :: (ms ++ after)) = true := by simp
  have hle := occurrences_le_append (m :: ms) ms after
  simp only [occurrences, List.cons_append, List.tails_cons, List.countP_cons, hp] at hle ⊢
  simp only [if_true]
  omega

theorem occurrences_pos (hmid : mid ≠ []) (h : mid <:+: cs) :
    0 < occurrences mid cs := by
  obtain ⟨b, a, rfl⟩ := h
  exact Nat.zero_lt_of_lt (occurrences_lt_append b a hmid)

theorem infix_of_occurrences_pos (h : 0 < occurrences mid cs) : mid <:+: cs := by
  obtain ⟨t, ht, hp⟩ := List.countP_pos_iff.mp h
  exact (List.isPrefixOf_iff_prefix.mp hp).isInfix.trans ((List.mem_tails _ _).mp ht).isInfix

/-- A text with one place for `mid` is cut there, and nothing is left to cut behind it. -/
theorem cutAt?_of_occurrences_eq_one (hmid : mid ≠ []) (h : occurrences mid cs = 1) :
    ∃ before after, cutAt? mid cs = some (before, after) ∧ cs = before ++ mid ++ after ∧
      cutAt? mid after = none := by
  have hin := infix_of_occurrences_pos (h ▸ Nat.one_pos)
  obtain ⟨⟨b, a⟩, hc⟩ := Option.isSome_iff_exists.mp (isSome_cutAt? hin)
  have heq := cutAt?_eq_some hc
  refine ⟨b, a, hc, heq, ?_⟩
  by_contra hne
  obtain ⟨⟨b', a'⟩, hc'⟩ := Option.ne_none_iff_exists'.mp hne
  have hpos := occurrences_pos hmid ⟨b', a', (cutAt?_eq_some hc').symm⟩
  have hlt := occurrences_lt_append b a hmid
  rw [← heq, h] at hlt
  omega

theorem replaceChars_of_cutAt?_none (h : cutAt? mid cs = none) :
    replaceChars mid new cs = cs := by
  unfold replaceChars
  split
  · rfl
  · split
    · rfl
    · next hs => simp [h] at hs

theorem replaceChars_of_cutAt? (hmid : mid ≠ []) (h : cutAt? mid cs = some (before, after)) :
    replaceChars mid new cs = before ++ new ++ replaceChars mid new after := by
  rw [replaceChars, dif_neg hmid]
  split
  · next hs => simp [h] at hs
  · next hs =>
    simp only [h, Option.some.injEq, Prod.mk.injEq] at hs
    obtain ⟨rfl, rfl⟩ := hs
    rfl

theorem splitChars_eq_splitOn (sep : Char) (cs : List Char) :
    splitChars sep cs = cs.splitOn sep := by
  induction cs with
  | nil => rfl
  | cons c cs ih =>
    rw [splitChars, List.splitOn_cons_eq_if_modifyHead, ih]
    by_cases h : c = sep
    · simp [h]
    · simp only [h, if_false, beq_iff_eq]
      cases hparts : cs.splitOn sep with
      | nil => exact absurd hparts (List.splitOn_ne_nil sep cs)
      | cons part parts => rfl

theorem splitChars_eq_singleton {sep : Char} (h : sep ∉ cs) : splitChars sep cs = [cs] := by
  rw [splitChars_eq_splitOn, List.splitOn_eq_singleton h]

/-- The first part of a text ends at the first character that separates. -/
theorem splitChars_append_cons {sep : Char} (h : sep ∉ cs) (rest : List Char) :
    splitChars sep (cs ++ sep :: rest) = cs :: splitChars sep rest := by
  rw [splitChars_eq_splitOn, List.splitOn_append_cons_self, List.splitOn_eq_singleton h,
    ← splitChars_eq_splitOn]
  rfl

/-- A text is its parts with the character between them. -/
theorem intercalate_splitOn (sep : Char) (s : String) :
    String.intercalate (String.singleton sep) (splitOn sep s) = s := by
  have hparts : (splitOn sep s).map String.toList = s.toList.splitOn sep := by
    rw [splitOn, List.map_map, splitChars_eq_splitOn]
    simp [Function.comp_def]
  rw [← String.toList_inj, String.toList_intercalate, hparts]
  simp [List.intercalate_splitOn]

section Marks

/-! Marks whose first character stands nowhere else in them, so that no two places overlap. -/

variable {c : Char} {mark : List Char}

theorem occurrences_cons (mid : List Char) (d : Char) (cs : List Char) : occurrences mid (d :: cs) =
    occurrences mid cs + if mid.isPrefixOf (d :: cs) then 1 else 0 := by
  rw [occurrences, List.tails_cons, List.countP_cons]
  rfl

theorem occurrences_append (hbefore : c ∉ before) (cs : List Char) :
    occurrences (c :: mark) (before ++ cs) = occurrences (c :: mark) cs := by
  induction before with
  | nil => rfl
  | cons d before ih =>
    obtain ⟨hd, hrest⟩ := List.ne_and_not_mem_of_not_mem_cons hbefore
    rw [List.cons_append, occurrences_cons, ih hrest]
    simp [hd]

/-- Behind the first place there is one place less. -/
theorem occurrences_of_cutAt? (hmark : c ∉ mark) (h : cutAt? (c :: mark) cs = some (before, after)) :
    occurrences (c :: mark) cs = occurrences (c :: mark) after + 1 := by
  induction cs generalizing before with
  | nil => cases h
  | cons d cs ih =>
    rw [cutAt?] at h
    split at h
    · rename_i rest hrest
      cases h
      have hcs := dropStart?_eq_some_iff.mp hrest
      have hfirst : (c :: mark).isPrefixOf (d :: cs) = true :=
        List.isPrefixOf_iff_prefix.mpr ⟨after, hcs.symm⟩
      obtain ⟨-, rfl⟩ := List.cons.inj hcs
      rw [occurrences_cons, if_pos hfirst]
      exact congrArg (· + 1) (occurrences_append hmark after)
    · rename_i hnone
      obtain ⟨⟨b, a⟩, hcut, hpair⟩ := Option.map_eq_some_iff.mp h
      cases hpair
      have hfirst : ¬ (c :: mark).isPrefixOf (d :: cs) = true := by
        intro hprefix
        obtain ⟨rest, hrest⟩ := List.isPrefixOf_iff_prefix.mp hprefix
        rw [dropStart?_eq_some_iff.mpr hrest.symm] at hnone
        cases hnone
      rw [occurrences_cons, if_neg hfirst, ih hcut]

theorem count_replaceChars_le (hnew : c ∉ new) (cs : List Char) :
    (replaceChars (c :: mark) new cs).count c ≤ cs.count c := by
  induction h : cs.length using Nat.strong_induction_on generalizing cs with
  | _ n ih =>
    cases hcut : cutAt? (c :: mark) cs with
    | none => rw [replaceChars_of_cutAt?_none hcut]
    | some parts =>
      obtain ⟨before, after⟩ := parts
      have hlength := cutAt?_length hcut
      rw [List.length_cons] at hlength
      have hafter := ih after.length (by omega) after rfl
      rw [replaceChars_of_cutAt? (List.cons_ne_nil c mark) hcut, cutAt?_eq_some hcut]
      simp only [List.count_append, List.count_cons_self, List.count_eq_zero_of_not_mem hnew]
      omega

/-- Whatever is replaced, fewer marks are left. -/
theorem count_replaceChars_lt (hnew : c ∉ new) (h : (c :: mark) <:+: cs) :
    (replaceChars (c :: mark) new cs).count c < cs.count c := by
  obtain ⟨⟨before, after⟩, hcut⟩ := Option.isSome_iff_exists.mp (isSome_cutAt? h)
  have hafter : (replaceChars (c :: mark) new after).count c ≤ after.count c :=
    count_replaceChars_le hnew after
  rw [replaceChars_of_cutAt? (List.cons_ne_nil c mark) hcut, cutAt?_eq_some hcut]
  simp only [List.count_append, List.count_cons_self, List.count_eq_zero_of_not_mem hnew]
  omega

end Marks

end ReleasePipeline.Text
