import ReleasePipeline.Proofs.Decimal.Numeral
import ReleasePipeline.Proofs.Except
import ReleasePipeline.Proofs.Template.Placeholder

/-! A text is split in one way into literal pieces and placeholders, and rendering it replaces the
placeholders by the values that their names lead to. -/
namespace ReleasePipeline.Template

/-- A literal piece, the placeholder behind it and the path that the placeholder names. -/
structure Span where
  literal : List Char
  mark : List Char
  path : List (List Char)

/-- The dotted name of the placeholder. -/
def Span.name (s : Span) : String := String.ofList (dotted s.path)

/-- No placeholder begins inside of the literal piece in front of `rest`. -/
def Bare (literal rest : List Char) : Prop :=
  ∀ before after mark path more, literal = before ++ after → after ≠ [] → Spells mark path →
    after ++ rest ≠ mark ++ more

/-- The text consists of the spans and a last literal piece. The placeholder of a span is the
leftmost one behind the spans before it. -/
inductive Splits : List Char → List Span → List Char → Prop
  | last {literal : List Char} (bare : Bare literal []) : Splits literal [] literal
  | span {s : Span} {rest last : List Char} {spans : List Span}
      (bare : Bare s.literal (s.mark ++ rest)) (spells : Spells s.mark s.path)
      (behind : Splits rest spans last) : Splits (s.literal ++ (s.mark ++ rest)) (s :: spans) last

section Splitting

variable {c : Char} {cs rest literal mark last last' : List Char} {path : List (List Char)}
  {spans spans' : List Span}

theorem bare_nil (rest : List Char) : Bare [] rest := by
  intro before after mark path more heq hafter
  exact absurd (List.append_eq_nil_iff.mp heq.symm).2 hafter

theorem bare_cons_iff :
    Bare (c :: literal) rest ↔ takePlaceholder? (c :: (literal ++ rest)) = none ∧
      Bare literal rest := by
  rw [takePlaceholder?_eq_none_iff]
  constructor
  · intro h
    refine ⟨fun mark path more => h [] (c :: literal) mark path more rfl (List.cons_ne_nil _ _), ?_⟩
    rintro before after mark path more rfl
    exact h (c :: before) after mark path more rfl
  · rintro ⟨hfirst, hbare⟩ before after mark path more heq hafter hspells
    rcases List.cons_eq_append_iff.mp heq with ⟨-, rfl⟩ | ⟨before, -, rfl⟩
    · exact hfirst mark path more hspells
    · exact hbare before after mark path more rfl hafter hspells

theorem exists_splits (cs : List Char) : ∃ spans last, Splits cs spans last := by
  induction h : cs.length using Nat.strong_induction_on generalizing cs with
  | _ n ih =>
    cases hread : takePlaceholder? cs with
    | some read =>
      obtain ⟨name, rest⟩ := read
      obtain ⟨mark, path, hspells, -, rfl⟩ := takePlaceholder?_eq_some_iff.mp hread
      have hlength := List.length_pos_iff.mpr hspells.ne_nil
      rw [List.length_append] at h
      obtain ⟨spans, last, hrest⟩ := ih rest.length (by omega) rest rfl
      exact ⟨⟨[], mark, path⟩ :: spans, last,
        .span (s := ⟨[], mark, path⟩) (bare_nil _) hspells hrest⟩
    | none =>
      cases cs with
      | nil => exact ⟨[], [], .last (bare_nil [])⟩
      | cons c rest =>
        rw [List.length_cons] at h
        obtain ⟨spans, last, hrest⟩ := ih rest.length (by omega) rest rfl
        -- The character joins the first literal piece.
        cases hrest with
        | last hbare =>
          refine ⟨[], c :: rest, .last (bare_cons_iff.mpr ⟨?_, hbare⟩)⟩
          rwa [List.append_nil]
        | @span s rest last spans hbare hspells hbehind =>
          exact ⟨⟨c :: s.literal, s.mark, s.path⟩ :: spans, last,
            .span (s := ⟨c :: s.literal, s.mark, s.path⟩) (bare_cons_iff.mpr ⟨hread, hbare⟩) hspells
              hbehind⟩

/-- A bare piece does not go on behind the place where a placeholder begins. -/
theorem Bare.eq_nil {more : List Char} (h : Bare (literal ++ more) rest) (hspells : Spells mark path)
    {behind : List Char} (heq : mark ++ behind = more ++ rest) : more = [] := by
  by_contra hne
  exact h literal more mark path behind rfl hne hspells heq.symm

/-- There is one way at most to split a text. -/
theorem Splits.unique (h : Splits cs spans last) (h' : Splits cs spans' last') :
    spans = spans' ∧ last = last' := by
  induction h generalizing spans' last' with
  | @last literal hbare =>
    cases h' with
    | last => exact ⟨rfl, rfl⟩
    | span hbare' hspells' hbehind' =>
      have hnil := hbare.eq_nil hspells' (List.append_nil _).symm
      exact absurd (List.append_eq_nil_iff.mp hnil).1 hspells'.ne_nil
  | @span s rest last spans hbare hspells hbehind ih =>
    generalize hcs : s.literal ++ (s.mark ++ rest) = cs at h'
    cases h' with
    | last hbare' =>
      rw [← hcs] at hbare'
      have hnil := hbare'.eq_nil hspells (List.append_nil _).symm
      exact absurd (List.append_eq_nil_iff.mp hnil).1 hspells.ne_nil
    | @span s' rest' last' spans' hbare' hspells' hbehind' =>
      obtain ⟨literal, mark, path⟩ := s
      obtain ⟨literal', mark', path'⟩ := s'
      simp only at hbare hspells hbare' hspells' hcs
      -- If one literal piece were longer, the placeholder of the other would begin inside of it.
      have hliteral : literal = literal' := by
        rcases List.append_eq_append_iff.mp hcs with ⟨more, rfl, hmore⟩ | ⟨more, rfl, hmore⟩
        · rw [hbare'.eq_nil hspells hmore, List.append_nil]
        · rw [hbare.eq_nil hspells' hmore, List.append_nil]
      subst hliteral
      obtain ⟨rfl, rfl, rfl⟩ := hspells.unique hspells' (List.append_cancel_left hcs)
      obtain ⟨rfl, rfl⟩ := ih hbehind'
      exact ⟨rfl, rfl⟩

theorem Splits.spells (h : Splits cs spans last) : ∀ s ∈ spans, Spells s.mark s.path := by
  induction h with
  | last => exact nofun
  | span _ hspells _ ih => exact List.forall_mem_cons.mpr ⟨hspells, ih⟩

/-- The pieces of a span. -/
def Span.pieces (s : Span) : List Piece :=
  s.literal.map Piece.literal ++ [.placeholder (dotted s.path)]

theorem piecesOf_append (h : Bare literal rest) (fuel : Nat) :
    piecesOf (literal.length + fuel) (literal ++ rest) =
      literal.map Piece.literal ++ piecesOf fuel rest := by
  induction literal with
  | nil => rw [List.length_nil, Nat.zero_add, List.nil_append, List.map_nil, List.nil_append]
  | cons c literal ih =>
    obtain ⟨hread, hbare⟩ := bare_cons_iff.mp h
    rw [List.length_cons, Nat.add_right_comm, List.cons_append, piecesOf, hread]
    exact congrArg (Piece.literal c :: ·) (ih hbare)

theorem piecesOf_mark (h : Spells mark path) (fuel : Nat) (rest : List Char) :
    piecesOf (fuel + 1) (mark ++ rest) = .placeholder (dotted path) :: piecesOf fuel rest := by
  have hread := takePlaceholder?_of_spells h rest
  obtain ⟨c, mark, rfl⟩ := List.exists_cons_of_ne_nil h.ne_nil
  rw [List.cons_append] at hread ⊢
  rw [piecesOf, hread]

theorem piecesOf_of_splits (h : Splits cs spans last) {fuel : Nat} (hfuel : cs.length ≤ fuel) :
    piecesOf fuel cs = spans.flatMap Span.pieces ++ last.map Piece.literal := by
  induction h generalizing fuel with
  | @last literal hbare =>
    obtain ⟨more, rfl⟩ := Nat.exists_eq_add_of_le hfuel
    have hpieces := piecesOf_append hbare more
    have hnil : piecesOf more [] = [] := by cases more <;> rfl
    rwa [List.append_nil, hnil, List.append_nil] at hpieces
  | @span s rest last spans hbare hspells hbehind ih =>
    have hlength := List.length_pos_iff.mpr hspells.ne_nil
    rw [List.length_append, List.length_append] at hfuel
    obtain ⟨more, rfl⟩ : ∃ more, fuel = s.literal.length + (more + 1) :=
      ⟨fuel - s.literal.length - 1, by omega⟩
    rw [piecesOf_append hbare, piecesOf_mark hspells, ih (by omega), List.flatMap_cons, Span.pieces]
    simp only [List.append_assoc, List.cons_append, List.nil_append]

theorem pieces_of_splits {text : String} (h : Splits text.toList spans last) :
    pieces text = spans.flatMap Span.pieces ++ last.map Piece.literal :=
  piecesOf_of_splits h (Nat.le_refl _)

theorem filterMap_pieces {f : Piece → Option String} (hliteral : ∀ c, f (.literal c) = none)
    (hplaceholder : ∀ name, f (.placeholder name) = some (String.ofList name))
    (spans : List Span) (last : List Char) :
    (spans.flatMap Span.pieces ++ last.map Piece.literal).filterMap f = spans.map Span.name := by
  have hliterals (cs : List Char) : (cs.map Piece.literal).filterMap f = [] := by
    simp [List.filterMap_map, hliteral]
  have hspan (s : Span) : s.pieces.filterMap f = [s.name] := by
    rw [Span.pieces, List.filterMap_append, hliterals]
    simp [hplaceholder, Span.name]
  rw [List.filterMap_append, List.filterMap_flatMap, hliterals, List.append_nil, funext hspan]
  exact List.map_eq_flatMap.symm

/-- The names in a text are those of its spans, in order. -/
theorem placeholders_of_splits {text : String} (h : Splits text.toList spans last) :
    placeholders text = spans.map Span.name := by
  rw [placeholders, pieces_of_splits h]
  exact filterMap_pieces (fun _ => rfl) (fun _ => rfl) spans last

end Splitting

section Rendering

variable {values u v : Value} {names : List String} {s : Span} {spans : List Span}
  {last : List Char} {text : String} {e : TemplateError}

/-- The names lead from one value to another, table by table. -/
inductive Leads : Value → List String → Value → Prop
  | here {v : Value} : Leads v [] v
  | entry {u w v : Value} {t : Table} {name : String} {names : List String}
      (table : u.asTable? = some t) (get : t.get? name = some w) (behind : Leads w names v) :
      Leads u (name :: names) v

/-- The placeholder leads to the value, which is no table. -/
def Yields (values : Value) (s : Span) (v : Value) : Prop :=
  Leads values (s.path.map String.ofList) v ∧ v.asTable? = none

/-- The text of a value in a template: nothing for null, a string itself, and any other value as
messages show it, if its numbers have at most 4300 digits. -/
def Shows (v : Value) (text : String) : Prop :=
  match v with
  | .null => text = ""
  | .string s => text = s
  | .bool b => text = if b then "True" else "False"
  | .int n => n.natAbs < Nat.pow 10 Decimal.maxDigits ∧ text = toString n
  | v => v.isWritable ∧ text = v.inText

/-- The placeholder stands for the text. -/
def Inserts (values : Value) (s : Span) (text : String) : Prop :=
  ∃ v, Yields values s v ∧ Shows v text

/-- The placeholder leads nowhere, to a table or to a value that is too long to be written, and the
error says so. -/
inductive Refuses (values : Value) (s : Span) : TemplateError → Prop
  | unknown (h : ∀ v, ¬ Leads values (s.path.map String.ofList) v) : Refuses values s (.unknown s.name)
  | table {v : Value} {t : Table} (h : Leads values (s.path.map String.ofList) v)
    (htable : v.asTable? = some t) : Refuses values s (.notAValue s.name)
  | long {v : Value} (h : Yields values s v) (hlong : ∀ text, ¬ Shows v text) :
    Refuses values s (.numeral .writing)

/-- The literal pieces with the inserted texts between them. -/
def assemble (spans : List Span) (texts : List String) (last : List Char) : List Char :=
  (List.zipWith (fun s text => s.literal ++ text.toList) spans texts).flatten ++ last

theorem assemble_cons (s : Span) (spans : List Span) (inserted : String) (texts : List String)
    (last : List Char) : assemble (s :: spans) (inserted :: texts) last =
      s.literal ++ (inserted.toList ++ assemble spans texts last) := by
  simp [assemble]

theorem shows_iff {inserted : String} : Shows v inserted ↔ valueText v = .ok inserted := by
  have hwritten {w : Value} (hnull : w.isNull = false) :
      valueText w = .ok inserted ↔ w.isWritable ∧ inserted = w.inText := by
    rw [valueText, hnull]
    cases w.isWritable <;> simp [eq_comm]
  cases v with
  | null => exact ⟨by rintro rfl; rfl, by rintro ⟨⟩; rfl⟩
  | string t => exact ⟨by rintro rfl; rfl, by rintro ⟨⟩; rfl⟩
  | bool b => cases b <;> exact ⟨by rintro rfl; rfl, by rintro ⟨⟩; rfl⟩
  | int n =>
    rw [hwritten (w := .int n) rfl]
    exact and_congr_left' Decimal.isWritable_iff.symm
  | _ => exact (hwritten rfl).symm

theorem valueText_eq_error_iff {fault : Decimal.NumeralError} :
    valueText v = .error fault ↔ (∀ inserted, ¬ Shows v inserted) ∧ fault = .writing := by
  simp only [shows_iff]
  rw [valueText]
  cases v.isNull <;> cases v.isWritable <;> simp [eq_comm]

theorem leads_iff : Leads u names v ↔ descend? u names = some v := by
  constructor
  · intro h
    induction h with
    | here => rfl
    | entry htable hget _ ih => simp [descend?, htable, hget, ih]
  · intro h
    induction names generalizing u with
    | nil =>
      cases h
      exact .here
    | cons name names ih =>
      obtain ⟨t, htable, h⟩ := Option.bind_eq_some_iff.mp h
      obtain ⟨w, hget, h⟩ := Option.bind_eq_some_iff.mp h
      exact .entry htable hget (ih h)

theorem splitOn_name (hpath : IsPath s.path) :
    Text.splitOn '.' s.name = s.path.map String.ofList :=
  splitOn_dotted hpath

theorem lookup_eq_ok_iff (hpath : IsPath s.path) :
    lookup values s.name = .ok v ↔ Yields values s v := by
  rw [lookup, splitOn_name hpath, Yields, leads_iff]
  cases descend? values (s.path.map String.ofList) with
  | none => simp
  | some w =>
    cases htable : w.asTable? with
    | none =>
      simp only [htable, Option.isSome_none, Bool.false_eq_true, if_false, Except.ok.injEq,
        Option.some.injEq]
      constructor
      · rintro rfl
        exact ⟨rfl, htable⟩
      · exact And.left
    | some t =>
      simp only [htable, Option.isSome_some, if_true, Option.some.injEq, reduceCtorEq, false_iff]
      rintro ⟨rfl, hnone⟩
      simp [htable] at hnone

theorem lookup_eq_error_iff (hpath : IsPath s.path) :
    lookup values s.name = .error e ↔
      (∀ v, ¬ Leads values (s.path.map String.ofList) v) ∧ e = .unknown s.name ∨
        ∃ v t, Leads values (s.path.map String.ofList) v ∧ v.asTable? = some t ∧
          e = .notAValue s.name := by
  rw [lookup, splitOn_name hpath]
  simp only [leads_iff]
  cases descend? values (s.path.map String.ofList) with
  | none => simp [eq_comm]
  | some w =>
    cases htable : w.asTable? with
    | none => simp [htable]
    | some t => simp [htable, eq_comm]

/-- The text that is inserted for a span. -/
def insertion (values : Value) (s : Span) : Except TemplateError String := do
  let v ← lookup values s.name
  (valueText v).mapError .numeral

theorem insertion_eq_ok_iff {inserted : String} (hpath : IsPath s.path) :
    insertion values s = .ok inserted ↔ Inserts values s inserted := by
  rw [insertion, bind_eq_ok]
  exact exists_congr fun v => and_congr (lookup_eq_ok_iff hpath) (mapError_eq_ok.trans shows_iff.symm)

theorem insertion_eq_error_iff (hpath : IsPath s.path) :
    insertion values s = .error e ↔ Refuses values s e := by
  rw [insertion, bind_eq_error, lookup_eq_error_iff hpath]
  simp only [lookup_eq_ok_iff hpath, mapError_eq_error, valueText_eq_error_iff]
  constructor
  · rintro ((⟨hno, rfl⟩ | ⟨v, t, hleads, htable, rfl⟩) | ⟨v, hv, fault, ⟨hlong, rfl⟩, rfl⟩)
    · exact .unknown hno
    · exact .table hleads htable
    · exact .long hv hlong
  · intro h
    cases h with
    | unknown hno => exact .inl (.inl ⟨hno, rfl⟩)
    | table hleads htable => exact .inl (.inr ⟨_, _, hleads, htable, rfl⟩)
    | long hv hlong => exact .inr ⟨_, hv, _, ⟨hlong, rfl⟩, rfl⟩

theorem mapM_fill_literals (values : Value) (cs : List Char) :
    (cs.map Piece.literal).mapM (fill values) = .ok (cs.map fun c => [c]) := by
  refine mapM_eq_ok.mpr ?_
  rw [List.forall₂_map_left_iff, List.forall₂_map_right_iff, List.forall₂_same]
  exact fun c _ => rfl

/-- The pieces of the spans are filled in if and only if there is a text to insert for each of them. -/
theorem mapM_fill_pieces (values : Value) (spans : List Span) (last : List Char) :
    ((spans.flatMap Span.pieces ++ last.map Piece.literal).mapM (fill values)).map List.flatten =
      (spans.mapM (insertion values)).map fun texts => assemble spans texts last := by
  induction spans with
  | nil =>
    rw [List.flatMap_nil, List.nil_append, mapM_fill_literals]
    exact congrArg Except.ok (List.flatMap_def.symm.trans (List.flatMap_singleton' last))
  | cons s spans ih =>
    have hfill : fill values (.placeholder (dotted s.path)) = (insertion values s).map String.toList := by
      rw [fill, insertion, Span.name]
      cases lookup values (String.ofList (dotted s.path)) with
      | error e => rfl
      | ok v => cases valueText v <;> rfl
    rw [List.flatMap_cons, Span.pieces, List.append_assoc, List.append_assoc, List.mapM_append,
      mapM_fill_literals, List.singleton_append, List.mapM_cons, List.mapM_cons, hfill]
    cases insertion values s with
    | error e => rfl
    | ok inserted =>
      -- The rest is filled in as before, behind the literal piece and the inserted text.
      have hliteral : (s.literal.map fun c => [c]).flatten = s.literal :=
        List.flatMap_def.symm.trans (List.flatMap_singleton' _)
      calc
        _ = (((spans.flatMap Span.pieces ++ last.map Piece.literal).mapM (fill values)).map
              List.flatten).map fun cs => s.literal ++ (inserted.toList ++ cs) := by
          cases (spans.flatMap Span.pieces ++ last.map Piece.literal).mapM (fill values) with
          | error e => rfl
          | ok parts =>
            refine congrArg Except.ok ?_
            rw [List.flatten_append, hliteral, List.flatten_cons]
        _ = (spans.mapM (insertion values)).map fun texts =>
              assemble (s :: spans) (inserted :: texts) last := by
          simp only [ih, map_map, assemble_cons]
        _ = _ := by
          cases spans.mapM (insertion values) <;> rfl

theorem render_of_splits (values : Value) (h : Splits text.toList spans last) :
    render text values = (spans.mapM (insertion values)).map fun texts =>
      String.ofList (assemble spans texts last) := by
  have hrender : render text values = ((pieces text).mapM (fill values)).map fun parts =>
      String.ofList parts.flatten := by
    rw [render]
    cases (pieces text).mapM (fill values) <;> rfl
  rw [hrender, ← map_map, pieces_of_splits h, mapM_fill_pieces, map_map]

theorem forall₂_insertion_iff {texts : List String} (hpath : ∀ s ∈ spans, IsPath s.path) :
    List.Forall₂ (fun s inserted => insertion values s = .ok inserted) spans texts ↔
      List.Forall₂ (Inserts values) spans texts := by
  induction spans generalizing texts with
  | nil => simp only [List.forall₂_nil_left_iff]
  | cons s spans ih =>
    obtain ⟨hs, hspans⟩ := List.forall_mem_cons.mp hpath
    simp only [List.forall₂_cons_left_iff, insertion_eq_ok_iff hs, ih hspans]

theorem render_eq_ok_iff (h : Splits text.toList spans last) {out : String} :
    render text values = .ok out ↔ ∃ texts, List.Forall₂ (Inserts values) spans texts ∧
      out = String.ofList (assemble spans texts last) := by
  rw [render_of_splits values h, map_eq_ok]
  refine exists_congr fun texts => and_congr ?_ eq_comm
  rw [mapM_eq_ok, forall₂_insertion_iff fun s hs => (h.spells s hs).1]

theorem render_eq_error_iff (h : Splits text.toList spans last) {e : TemplateError} :
    render text values = .error e ↔ ∃ before s after, spans = before ++ s :: after ∧
      (∀ u ∈ before, ∃ inserted, Inserts values u inserted) ∧ Refuses values s e := by
  rw [render_of_splits values h, map_eq_error, mapM_eq_error]
  refine exists_congr fun before => exists_congr fun s => exists_congr fun after => ?_
  refine and_congr_right fun hspans => ?_
  subst hspans
  refine and_congr (forall₂_congr fun u hu => exists_congr fun inserted => ?_) ?_
  · exact insertion_eq_ok_iff (h.spells u (by simp [hu])).1
  · exact insertion_eq_error_iff (h.spells s (by simp)).1

/-- A text has one splitting, and its names are those of the spans. It is rendered as its literal
pieces with the texts of the values between them, or with the error of the first name that does not
lead to a value that can be written. -/
theorem render_splits (text : String) (values : Value) :
    ∃ spans last, Splits text.toList spans last ∧
      (∀ spans' last', Splits text.toList spans' last' → spans' = spans ∧ last' = last) ∧
      placeholders text = spans.map Span.name ∧
      (∀ out, render text values = .ok out ↔ ∃ texts, List.Forall₂ (Inserts values) spans texts ∧
        out = String.ofList (assemble spans texts last)) ∧
      (∀ e, render text values = .error e ↔ ∃ before s after, spans = before ++ s :: after ∧
        (∀ u ∈ before, ∃ inserted, Inserts values u inserted) ∧ Refuses values s e) ∧
      ((∃ e, render text values = .error e) ↔ ∃ s ∈ spans, ∀ v, Yields values s v →
        ∀ inserted, ¬ Shows v inserted) := by
  obtain ⟨spans, last, h⟩ := exists_splits text.toList
  refine ⟨spans, last, h, fun spans' last' h' => h'.unique h, placeholders_of_splits h,
    fun _ => render_eq_ok_iff h, fun _ => render_eq_error_iff h, ?_, ?_⟩
  · rintro ⟨e, he⟩
    obtain ⟨before, s, after, rfl, -, hrefuses⟩ := (render_eq_error_iff h).mp he
    have hs : s ∈ before ++ s :: after := by simp
    have hpath := (h.spells s hs).1
    refine ⟨s, hs, fun v hv inserted hshows => ?_⟩
    have htext := (insertion_eq_ok_iff hpath).mpr ⟨v, hv, hshows⟩
    rw [(insertion_eq_error_iff hpath).mpr hrefuses] at htext
    cases htext
  · rintro ⟨s, hs, hno⟩
    cases hresult : render text values with
    | error e => exact ⟨e, rfl⟩
    | ok out =>
      obtain ⟨texts, htexts, -⟩ := (render_eq_ok_iff h).mp hresult
      have hpath : ∀ s ∈ spans, IsPath s.path := fun s hs => (h.spells s hs).1
      have hinsertions := mapM_eq_ok.mpr ((forall₂_insertion_iff hpath).mpr htexts)
      obtain ⟨inserted, -, hinserted⟩ := exists_of_mem_mapM hinsertions hs
      obtain ⟨v, hv, hshows⟩ := (insertion_eq_ok_iff (hpath s hs)).mp hinserted
      exact absurd hshows (hno v hv inserted)

theorem render_unwritable {n : ℤ} (h : Decimal.isWritable n = false) :
    render "$\x7bx\x7d" (.table [(.string "x", .int n)]) = .error (.numeral .writing) := by
  have hpieces : pieces "$\x7bx\x7d" = [.placeholder ['x']] := by decide
  have hlookup : lookup (.table [(.string "x", .int n)]) (String.ofList ['x']) = .ok (.int n) := rfl
  have htext : valueText (.int n) = .error .writing := by
    rw [valueText, Value.isWritable, h]
    rfl
  rw [render, hpieces, List.mapM_cons, fill, hlookup]
  simp only [bind, Except.bind, htext]
  rfl

/-- A number with more digits than are written is a value, but no text stands for it. -/
theorem long_number_refused :
    let n : ℤ := Nat.pow 10 Decimal.maxDigits
    let values : Value := .table [(.string "x", .int n)]
    placeholders "$\x7bx\x7d" = ["x"] ∧ Leads values ["x"] (.int n) ∧
      (Value.int n).asTable? = none ∧ render "$\x7bx\x7d" values = .error (.numeral .writing) := by
  have hlong := Decimal.isWritable_of_le (Int.natAbs_natCast (Nat.pow 10 Decimal.maxDigits)).ge
  exact ⟨by decide, .entry rfl rfl .here, rfl, render_unwritable hlong⟩

/-- What looks like a placeholder inside of a value stays. -/
example : render "$\x7bx\x7d$" (.table [(.string "x", .string "$\x7bx\x7d")]) =
    .ok "$\x7bx\x7d$" := by
  rfl

end Rendering

end ReleasePipeline.Template
