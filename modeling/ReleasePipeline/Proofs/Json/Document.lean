import ReleasePipeline.Proofs.Json.Token

/-! JSON texts of values: the reader undoes the writer, whatever the indentation. -/
namespace ReleasePipeline

namespace Value

mutual

/-- The value without the labels of what it shares, which say nothing of what it holds. -/
def unlabelled : Value → Value
  | shared _ v => unlabelled v
  | list items => list (unlabelledItems items)
  | table entries => table (unlabelledEntries entries)
  | set items => set (unlabelledItems items)
  | pair k v => pair (unlabelled k) (unlabelled v)
  | v => v

/-- The items of a list without labels. -/
def unlabelledItems : List Value → List Value
  | [] => []
  | v :: vs => unlabelled v :: unlabelledItems vs

/-- The entries of a table without labels. -/
def unlabelledEntries : List (Value × Value) → List (Value × Value)
  | [] => []
  | (k, v) :: rest => (unlabelled k, unlabelled v) :: unlabelledEntries rest

end

theorem unlabelledItems_eq_map (vs : List Value) : unlabelledItems vs = vs.map unlabelled := by
  induction vs with
  | nil => rfl
  | cons v vs ih =>
    rw [unlabelledItems, ih]
    rfl

/-- The values that JSON has a form for: nulls, booleans, whole numbers that are written, strings,
lists, and tables with a string for each key. -/
inductive Jsonable : Value → Prop
  | null : Jsonable .null
  | bool (b : Bool) : Jsonable (.bool b)
  | int (n : ℤ) (h : Decimal.isWritable n = true) : Jsonable (.int n)
  | string (s : String) : Jsonable (.string s)
  | list (items : List Value) (h : ∀ v ∈ items, Jsonable v) : Jsonable (.list items)
  | table (entries : List (String × Value)) (names : (entries.map Prod.fst).Nodup)
    (h : ∀ e ∈ entries, Jsonable e.2) : Jsonable (.table (Table.ofNames entries))
  | shared (label : ℕ) (v : Value) (h : Jsonable v) : Jsonable (.shared label v)

end Value

namespace Table

theorem insert_string {entries : List (String × Value)} {name : String} {v : Value}
    (h : name ∉ entries.map Prod.fst) :
    insert (.string name) v (ofNames entries) = ofNames (entries ++ [(name, v)]) := by
  induction entries with
  | nil => rfl
  | cons entry entries ih =>
    obtain ⟨k, u⟩ := entry
    obtain ⟨hk, hrest⟩ := List.ne_and_not_mem_of_not_mem_cons h
    have hkey : Value.sameKey (.string k) (.string name) = false := by
      simp [Value.sameKey, Value.bare, Value.numeric, Ne.symm hk]
    have hcons : ofNames ((k, u) :: entries) = (.string k, u) :: ofNames entries := rfl
    rw [hcons, insert, hkey, ih hrest]
    rfl

/-- Entries with different names are a table as they are. -/
theorem ofEntries_ofNames {entries : List (String × Value)} (h : (entries.map Prod.fst).Nodup) :
    ofEntries (ofNames entries) = ofNames entries := by
  have hfold : ∀ before after : List (String × Value), ((before ++ after).map Prod.fst).Nodup →
      (ofNames after).foldl (fun t e => insert e.1 e.2 t) (ofNames before) =
        ofNames (before ++ after) := by
    intro before after
    induction after generalizing before with
    | nil => simp [ofNames]
    | cons entry after ih =>
      obtain ⟨k, v⟩ := entry
      intro hnames
      have hk : k ∉ before.map Prod.fst := by
        rw [List.map_append, List.nodup_append] at hnames
        intro hmem
        exact hnames.2.2 k hmem k List.mem_cons_self rfl
      have hcons : ofNames ((k, v) :: after) = (.string k, v) :: ofNames after := rfl
      have hmiddle := ih (before ++ [(k, v)]) (by simpa using hnames)
      have hinsert : insert (.string k) v (ofNames before) = ofNames (before ++ [(k, v)]) :=
        insert_string hk
      rw [hcons, List.foldl_cons]
      simp only [hinsert, hmiddle]
      simp
  exact hfold [] entries h

theorem unlabelledEntries_ofNames (entries : List (String × Value)) :
    Value.unlabelledEntries (ofNames entries) =
      ofNames (entries.map fun e => (e.1, e.2.unlabelled)) := by
  induction entries with
  | nil => rfl
  | cons entry entries ih =>
    have hcons : ofNames (entry :: entries) = (.string entry.1, entry.2) :: ofNames entries := rfl
    rw [hcons, Value.unlabelledEntries, ih]
    rfl

end Table

namespace Json

variable {cs rest more : List Char} {v : Value} {vs : List Value} {parts : List (List Char)}
  {fuel level : ℕ}

/-- The text does not begin with white space. -/
def Begins (cs : List Char) : Prop := ∃ c more, cs = c :: more ∧ isSpace c = false

/-- The text is read as the value, and nothing behind it with it. -/
structure Reads (cs : List Char) (v : Value) : Prop where
  begins : Begins cs
  noBracket : cs.head? ≠ some ']'
  noReturn : '\r' ∉ cs
  read : ∀ rest fuel, Closes rest → cs.length ≤ fuel → readValue fuel (cs ++ rest) = .ok (v, rest)

section Space

theorem skipSpace_lineBreak (level : ℕ) (rest : List Char) :
    skipSpace (lineBreak level ++ rest) = skipSpace rest := by
  have hspaces : ∀ c ∈ lineBreak level, isSpace c = true := by
    intro c hc
    rcases List.mem_cons.mp hc with rfl | hc
    · rfl
    · rw [List.eq_of_mem_replicate hc]
      rfl
  exact List.dropWhile_append_of_pos hspaces

theorem skipSpace_of_begins (h : Begins cs) (rest : List Char) :
    skipSpace (cs ++ rest) = cs ++ rest := by
  obtain ⟨c, more, rfl, hc⟩ := h
  simp [skipSpace, hc]

theorem skipSpace_line (h : Begins cs) (level : ℕ) (rest : List Char) :
    skipSpace (lineBreak level ++ (cs ++ rest)) = cs ++ rest := by
  rw [skipSpace_lineBreak, skipSpace_of_begins h]

theorem closes_lineBreak (level : ℕ) (rest : List Char) : Closes (lineBreak level ++ rest) := by
  intro c hc
  cases hc
  exact .inr rfl

theorem closes_comma (rest : List Char) : Closes (',' :: rest) := by
  intro c hc
  cases hc
  exact .inl rfl

/-- Parts with commas between them, each on a line of its own. -/
abbrev rows (level : ℕ) (parts : List (List Char)) : List Char :=
  List.intercalate (',' :: lineBreak level) parts

theorem rows_append (level : ℕ) (first second : List Char) (parts : List (List Char))
    (rest : List Char) : rows level (first :: second :: parts) ++ rest =
      first ++ ',' :: (lineBreak level ++ (rows level (second :: parts) ++ rest)) := by
  simp [rows, List.intercalate_cons_cons]

theorem length_rows (level : ℕ) (first second : List Char) (parts : List (List Char)) :
    first.length + (rows level (second :: parts)).length <
      (rows level (first :: second :: parts)).length := by
  simp only [rows, List.intercalate_cons_cons, List.length_append, List.length_cons]
  omega

theorem begins_rows (h : Begins cs) (level : ℕ) (parts : List (List Char)) :
    Begins (rows level (cs :: parts)) := by
  obtain ⟨c, more, rfl, hc⟩ := h
  cases parts with
  | nil => exact ⟨c, more, List.intercalate_singleton, hc⟩
  | cons part parts => exact ⟨c, _, List.intercalate_cons_cons, hc⟩

theorem head?_rows (h : Begins cs) (level : ℕ) (parts : List (List Char)) :
    (rows level (cs :: parts)).head? = cs.head? := by
  obtain ⟨c, more, rfl, -⟩ := h
  cases parts with
  | nil => rw [rows, List.intercalate_singleton]
  | cons part parts =>
    rw [rows, List.intercalate_cons_cons]
    rfl

end Space

section Lists

theorem readItems_last (hv : readValue fuel cs = .ok (v, rest)) (hrest : skipSpace rest = ']' :: more) :
    readItems (fuel + 1) cs = .ok ([v], more) := by
  rw [readItems, bind_eq_ok]
  refine ⟨_, hv, ?_⟩
  simp only [hrest]
  rfl

theorem readItems_more {next : List Char} (hv : readValue fuel cs = .ok (v, ',' :: rest))
    (hrest : skipSpace rest = next) (hnext : readItems fuel next = .ok (vs, more)) :
    readItems (fuel + 1) cs = .ok (v :: vs, more) := by
  have hcomma : skipSpace (',' :: rest) = ',' :: rest := rfl
  rw [readItems, bind_eq_ok]
  refine ⟨_, hv, ?_⟩
  simp only [hcomma, hrest, hnext]
  rfl

/-- Texts of values with commas between them are read as the values. -/
theorem readItems_rows (hparts : List.Forall₂ Reads parts vs) (hne : parts ≠ [])
    (inner outer : ℕ) (rest : List Char)
    (hfuel : (rows inner parts).length < fuel) :
    readItems fuel (rows inner parts ++ (lineBreak outer ++ ']' :: rest)) = .ok (vs, rest) := by
  induction hparts generalizing fuel with
  | nil => exact absurd rfl hne
  | @cons cs v parts vs hcs hparts ih =>
    obtain ⟨fuel, rfl⟩ := Nat.exists_eq_succ_of_ne_zero (Nat.ne_zero_of_lt hfuel)
    cases hparts with
    | nil =>
      rw [rows, List.intercalate_singleton] at hfuel ⊢
      have hv := hcs.read _ fuel (closes_lineBreak outer (']' :: rest)) (by omega)
      refine readItems_last hv ?_
      rw [skipSpace_lineBreak]
      rfl
    | @cons cs' v' parts vs hcs' hparts =>
      have hlength := length_rows inner cs cs' parts
      have hmore := ih (List.cons_ne_nil _ _) (by omega : _ < fuel)
      rw [rows_append]
      exact readItems_more (hcs.read _ fuel (closes_comma _) (by omega))
        (skipSpace_line (begins_rows hcs'.begins _ _) _ _) hmore

/-- A text between the brackets of a list is read as the list. -/
theorem readValue_list (hbegins : Begins cs) (hbracket : cs.head? ≠ some ']') (level : ℕ)
    (hread : readItems fuel (cs ++ rest) = .ok (vs, more)) :
    readValue (fuel + 1) ('[' :: (lineBreak level ++ (cs ++ rest))) = .ok (.list vs, more) := by
  rw [readValue, skipSpace_line hbegins]
  split
  · rename_i hcs
    obtain ⟨c, tail, rfl, -⟩ := hbegins
    obtain ⟨rfl, -⟩ := List.cons.inj hcs
    exact absurd rfl hbracket
  · rw [hread]
    rfl

end Lists

section Tables

variable {part : List Char} {name : String} {entries : List (String × Value)}

/-- The text is read as a name and a value. -/
def ReadsMember (part : List Char) (e : String × Value) : Prop :=
  ∃ cs, part = stringChars e.1 ++ ':' :: ' ' :: cs ∧ Reads cs e.2

theorem begins_member {e : String × Value} (h : ReadsMember part e) : Begins part := by
  obtain ⟨cs, rfl, -⟩ := h
  exact ⟨'"', _, rfl, rfl⟩

/-- A member is read up to what closes it. -/
theorem readMembers_member (h : ReadsMember part (name, v)) (hfuel : part.length ≤ fuel)
    (hrest : Closes rest) : readMembers (fuel + 1) (part ++ rest) =
      match skipSpace rest with
      | '\x7d' :: rest => .ok ([(.string name, v)], rest)
      | ',' :: rest => do
        let (members, rest) ← readMembers fuel (skipSpace rest)
        return ((.string name, v) :: members, rest)
      | rest => .error (.fault .comma rest) := by
  obtain ⟨cs, rfl, hcs⟩ := h
  obtain ⟨text, htext, hname⟩ := readString_stringChars name (':' :: ' ' :: (cs ++ rest))
  have hpart : stringChars name ++ ':' :: ' ' :: cs ++ rest = '"' :: text := by
    rw [← htext]
    simp
  have hlength : cs.length ≤ fuel := by
    simp only [List.length_append, List.length_cons] at hfuel
    omega
  have hcolon : skipSpace (':' :: ' ' :: (cs ++ rest)) = ':' :: ' ' :: (cs ++ rest) := rfl
  have hvalue : skipSpace (' ' :: (cs ++ rest)) = cs ++ rest :=
    skipSpace_of_begins hcs.begins rest
  rw [hpart, readMembers, hname]
  simp only [hcolon, hvalue, hcs.read rest fuel hrest hlength, bind, Except.bind,
    String.ofList_toList]
  rfl

theorem readMembers_rows (hparts : List.Forall₂ ReadsMember parts entries) (hne : parts ≠ [])
    (inner outer : ℕ) (rest : List Char) (hfuel : (rows inner parts).length < fuel) :
    readMembers fuel (rows inner parts ++ (lineBreak outer ++ '\x7d' :: rest)) =
      .ok (Table.ofNames entries, rest) := by
  induction hparts generalizing fuel with
  | nil => exact absurd rfl hne
  | @cons part e parts entries hpart hparts ih =>
    obtain ⟨name, v⟩ := e
    obtain ⟨fuel, rfl⟩ := Nat.exists_eq_succ_of_ne_zero (Nat.ne_zero_of_lt hfuel)
    cases hparts with
    | nil =>
      have hbrace : skipSpace (lineBreak outer ++ '\x7d' :: rest) = '\x7d' :: rest := by
        rw [skipSpace_lineBreak]
        rfl
      rw [rows, List.intercalate_singleton] at hfuel ⊢
      rw [readMembers_member hpart (by omega) (closes_lineBreak outer _), hbrace]
      rfl
    | @cons part' e' parts entries hpart' hparts =>
      have hlength := length_rows inner part part' parts
      have hmore := ih (List.cons_ne_nil _ _) (by omega : _ < fuel)
      have hskip := skipSpace_line (begins_rows (begins_member hpart') inner parts) inner
        (lineBreak outer ++ '\x7d' :: rest)
      rw [rows_append, readMembers_member hpart (by omega) (closes_comma _)]
      have hcomma (next : List Char) : skipSpace (',' :: next) = ',' :: next := rfl
      simp only [hcomma, hskip, hmore]
      rfl

/-- A text between the braces of a table is read as the table. -/
theorem readValue_table (hbegins : Begins cs) (hbrace : cs.head? ≠ some '\x7d') (level : ℕ)
    {members : List (Value × Value)} (hread : readMembers fuel (cs ++ rest) = .ok (members, more)) :
    readValue (fuel + 1) ('\x7b' :: (lineBreak level ++ (cs ++ rest))) =
      .ok (.table (Table.ofEntries members), more) := by
  rw [readValue, skipSpace_line hbegins]
  split
  · rename_i hcs
    obtain ⟨c, tail, rfl, -⟩ := hbegins
    obtain ⟨rfl, -⟩ := List.cons.inj hcs
    exact absurd rfl hbrace
  · rw [hread]
    rfl

end Tables

section Values

theorem reads_of_head {c : Char} {tail : List Char} (hcs : cs = c :: tail) (hspace : isSpace c = false)
    (hbracket : c ≠ ']') (hreturn : '\r' ∉ cs)
    (hread : ∀ rest fuel, Closes rest → cs.length ≤ fuel + 1 →
      readValue (fuel + 1) (cs ++ rest) = .ok (v, rest)) : Reads cs v where
  begins := ⟨c, tail, hcs, hspace⟩
  noBracket := by simpa [hcs] using hbracket
  noReturn := hreturn
  read rest fuel hrest hfuel := by
    have hpos : fuel ≠ 0 := by
      rw [hcs] at hfuel
      exact Nat.ne_zero_of_lt hfuel
    obtain ⟨fuel, rfl⟩ := Nat.exists_eq_succ_of_ne_zero hpos
    exact hread rest fuel hrest hfuel

theorem reads_null : Reads "null".toList .null :=
  reads_of_head rfl rfl (by decide) (by decide) fun _ _ _ _ => rfl

theorem reads_true : Reads "true".toList (.bool true) :=
  reads_of_head rfl rfl (by decide) (by decide) fun _ _ _ _ => rfl

theorem reads_false : Reads "false".toList (.bool false) :=
  reads_of_head rfl rfl (by decide) (by decide) fun _ _ _ _ => rfl

theorem reads_string (s : String) : Reads (stringChars s) (.string s) := by
  refine reads_of_head rfl rfl (by decide) (return_not_mem_stringChars s) fun rest fuel _ _ => ?_
  obtain ⟨more, hmore, hread⟩ := readString_stringChars s rest
  rw [hmore, readValue, hread]
  simp [bind, Except.bind, pure, Except.pure]

/-- Digits begin no word, also behind a minus. -/
theorem takeWord?_digit {c : Char} (h : c.isDigit = true) (cs : List Char) :
    takeWord? (c :: cs) = none ∧ takeWord? ('-' :: c :: cs) = none := by
  have hne : ∀ d : Char, d.isDigit = false → d ≠ c := by
    rintro d hd rfl
    rw [h] at hd
    cases hd
  have hn := hne 'n' rfl
  have ht := hne 't' rfl
  have hf := hne 'f' rfl
  have hN := hne 'N' rfl
  have hI := hne 'I' rfl
  have hminus := hne '-' rfl
  simp [takeWord?, words, Text.dropStart?, hn, ht, hf, hN, hI, hminus]

theorem readValue_number {c : Char} {tail : List Char} (hcs : cs = c :: tail)
    (hc : c.isDigit = true ∨ c = '-') (hword : takeWord? cs = none) :
    readValue (fuel + 1) cs = readNumber cs := by
  have hne : ∀ d : Char, d.isDigit = false → d ≠ '-' → c ≠ d := by
    rintro d hd hminus rfl
    rcases hc with hc | hc
    · rw [hc] at hd
      cases hd
    · exact hminus hc
  have hquote := hne '"' rfl (by decide)
  have hbracket := hne '[' rfl (by decide)
  have hbrace := hne '\x7b' rfl (by decide)
  rw [readValue, hword]
  · rfl
  · rintro rest rfl
    exact hquote (List.cons.inj hcs).1.symm
  · rintro rest rfl
    exact hbracket (List.cons.inj hcs).1.symm
  · rintro rest rfl
    exact hbrace (List.cons.inj hcs).1.symm

theorem isSpace_of_isDigit {c : Char} (h : c.isDigit = true) : isSpace c = false := by
  simp only [isSpace, Bool.or_eq_false_iff, decide_eq_false_iff_not]
  refine ⟨⟨⟨?_, ?_⟩, ?_⟩, ?_⟩ <;> rintro rfl <;> cases h

theorem reads_int {z : ℤ} (hz : Decimal.isWritable z = true) : Reads (toString z).toList (.int z) := by
  have hreturn := return_not_mem_toString z
  have hnumber (rest : List Char) (h : Closes rest) := readNumber_toString hz h
  obtain ⟨d, ds, hd, htext | htext⟩ := exists_digit_toString z
  · have hbracket : d ≠ ']' := by
      rintro rfl
      cases hd
    refine reads_of_head htext (isSpace_of_isDigit hd) hbracket hreturn fun rest fuel hrest _ => ?_
    rw [← hnumber rest hrest, htext, List.cons_append]
    exact readValue_number rfl (.inl hd) (takeWord?_digit hd _).1
  · refine reads_of_head htext rfl (by decide) hreturn fun rest fuel hrest _ => ?_
    rw [← hnumber rest hrest, htext, List.cons_append, List.cons_append]
    exact readValue_number rfl (.inr rfl) (takeWord?_digit hd _).2

theorem block_cons (opening closing : Char) (level : ℕ) (part : List Char) (parts : List (List Char))
    (rest : List Char) : block opening closing level (part :: parts) ++ rest =
      opening :: (lineBreak (level + 1) ++
        (rows (level + 1) (part :: parts) ++ (lineBreak level ++ closing :: rest))) := by
  simp [block, rows]

theorem length_block (opening closing : Char) (level : ℕ) (part : List Char)
    (parts : List (List Char)) : (rows (level + 1) (part :: parts)).length + 1 <
      (block opening closing level (part :: parts)).length := by
  simp only [block, rows, List.isEmpty_cons, Bool.false_eq_true, if_false, List.length_append,
    List.length_cons]
  omega

theorem return_not_mem_lineBreak (level : ℕ) : '\r' ∉ lineBreak level := by
  intro h
  rcases List.mem_cons.mp h with h | h
  · exact absurd h (by decide)
  · exact absurd (List.eq_of_mem_replicate h) (by decide)

theorem return_not_mem_rows (level : ℕ) (h : ∀ part ∈ parts, '\r' ∉ part) :
    '\r' ∉ rows level parts := by
  induction parts with
  | nil => exact List.not_mem_nil
  | cons part parts ih =>
    have hpart := h part List.mem_cons_self
    have hrest := ih fun part' hpart' => h part' (List.mem_cons_of_mem part hpart')
    cases parts with
    | nil => rwa [rows, List.intercalate_singleton]
    | cons part' parts =>
      have hbreak := return_not_mem_lineBreak level
      rw [rows, List.intercalate_cons_cons]
      simp only [List.mem_append, List.mem_cons, not_or]
      exact ⟨⟨hpart, by decide, hbreak⟩, hrest⟩

theorem return_not_mem_block (opening closing : Char) (hopening : opening ≠ '\r')
    (hclosing : closing ≠ '\r') (level : ℕ) (h : ∀ part ∈ parts, '\r' ∉ part) :
    '\r' ∉ block opening closing level parts := by
  rw [block]
  split
  · simp [Ne.symm hopening, Ne.symm hclosing]
  · have hinner := return_not_mem_lineBreak (level + 1)
    have houter := return_not_mem_lineBreak level
    have hrows := return_not_mem_rows (level + 1) h
    simp only [List.mem_append, List.mem_cons, List.not_mem_nil, or_false, not_or]
    exact ⟨⟨⟨⟨Ne.symm hopening, hinner⟩, hrows⟩, houter⟩, Ne.symm hclosing⟩

/-- Texts of values between brackets are read as the list. -/
theorem reads_list (hparts : List.Forall₂ Reads parts vs) (level : ℕ) :
    Reads (block '[' ']' level parts) (.list vs) := by
  have hnone : ∀ part ∈ parts, '\r' ∉ part :=
    ((List.forall₂_and_left _ _).mp (hparts.imp fun _ _ h => ⟨h.noReturn, h⟩)).1
  have hreturn := return_not_mem_block '[' ']' (by decide) (by decide) level hnone
  cases hparts with
  | nil => exact reads_of_head rfl rfl (by decide) hreturn fun _ _ _ _ => rfl
  | @cons cs v parts vs hcs hparts =>
    have hlength := length_block '[' ']' level cs parts
    have hbracket : (rows (level + 1) (cs :: parts)).head? ≠ some ']' :=
      head?_rows hcs.begins _ parts ▸ hcs.noBracket
    refine reads_of_head rfl rfl (by decide) hreturn fun rest fuel _ hfuel => ?_
    have hitems := readItems_rows (.cons hcs hparts) (List.cons_ne_nil _ _) (level + 1) level rest
      (by omega : _ < fuel)
    rw [block_cons]
    exact readValue_list (begins_rows hcs.begins _ _) hbracket _ hitems

theorem return_not_mem_member {part : List Char} {e : String × Value} (h : ReadsMember part e) :
    '\r' ∉ part := by
  obtain ⟨cs, rfl, hcs⟩ := h
  have hname := return_not_mem_stringChars e.1
  simp only [List.mem_append, List.mem_cons, not_or]
  exact ⟨hname, by decide, by decide, hcs.noReturn⟩

/-- Texts of members between braces are read as the table. -/
theorem reads_table {entries : List (String × Value)}
    (hparts : List.Forall₂ ReadsMember parts entries) (hnames : (entries.map Prod.fst).Nodup)
    (level : ℕ) : Reads (block '\x7b' '\x7d' level parts) (.table (Table.ofNames entries)) := by
  have hnone : ∀ part ∈ parts, '\r' ∉ part :=
    ((List.forall₂_and_left _ _).mp (hparts.imp fun _ _ h => ⟨return_not_mem_member h, h⟩)).1
  have hreturn := return_not_mem_block '\x7b' '\x7d' (by decide) (by decide) level hnone
  cases hparts with
  | nil => exact reads_of_head rfl rfl (by decide) hreturn fun _ _ _ _ => rfl
  | @cons part e parts entries hpart hparts =>
    have hlength := length_block '\x7b' '\x7d' level part parts
    have hbegins := begins_member hpart
    have hbrace : (rows (level + 1) (part :: parts)).head? ≠ some '\x7d' := by
      rw [head?_rows hbegins]
      obtain ⟨cs, rfl, -⟩ := hpart
      have hquote : (stringChars e.1 ++ ':' :: ' ' :: cs).head? = some '"' := rfl
      rw [hquote]
      decide
    refine reads_of_head rfl rfl (by decide) hreturn fun rest fuel _ hfuel => ?_
    have hmembers := readMembers_rows (.cons hpart hparts) (List.cons_ne_nil _ _) (level + 1) level
      rest (by omega : _ < fuel)
    rw [block_cons, readValue_table (begins_rows hbegins _ _) hbrace _ hmembers,
      Table.ofEntries_ofNames hnames]

/-- Texts for the items of a list, each of which has one. -/
theorem exists_itemChars {items : List Value}
    (h : ∀ v ∈ items, ∃ cs, chars level v = .ok cs ∧ Reads cs v.unlabelled) :
    ∃ parts, itemChars level items = .ok parts ∧
      List.Forall₂ Reads parts (Value.unlabelledItems items) := by
  induction items with
  | nil => exact ⟨[], rfl, .nil⟩
  | cons v items ih =>
    obtain ⟨cs, hcs, hv⟩ := h v List.mem_cons_self
    obtain ⟨parts, hparts, hitems⟩ := ih fun v' hv' => h v' (List.mem_cons_of_mem v hv')
    refine ⟨cs :: parts, ?_, .cons hv hitems⟩
    rw [itemChars, hcs, hparts]
    rfl

/-- Texts for the entries of a table, each of which has one. -/
theorem exists_entryChars {entries : List (String × Value)}
    (h : ∀ e ∈ entries, ∃ cs, chars level e.2 = .ok cs ∧ Reads cs e.2.unlabelled) :
    ∃ parts, entryChars level (Table.ofNames entries) = .ok parts ∧
      List.Forall₂ ReadsMember parts (entries.map fun e => (e.1, e.2.unlabelled)) := by
  induction entries with
  | nil => exact ⟨[], rfl, .nil⟩
  | cons e entries ih =>
    obtain ⟨cs, hcs, hv⟩ := h e List.mem_cons_self
    obtain ⟨parts, hparts, hentries⟩ := ih fun e' he' => h e' (List.mem_cons_of_mem e he')
    have hcons : Table.ofNames (e :: entries) = (.string e.1, e.2) :: Table.ofNames entries := rfl
    refine ⟨_, ?_, .cons ⟨cs, rfl, hv⟩ hentries⟩
    rw [hcons, entryChars, hcs, hparts]
    rfl

/-- Every value that JSON has a form for has a text that is read as the value. -/
theorem exists_chars (h : v.Jsonable) (level : ℕ) :
    ∃ cs, chars level v = .ok cs ∧ Reads cs v.unlabelled := by
  induction h generalizing level with
  | null => exact ⟨_, rfl, reads_null⟩
  | bool b =>
    cases b with
    | true => exact ⟨_, rfl, reads_true⟩
    | false => exact ⟨_, rfl, reads_false⟩
  | int n hn =>
    refine ⟨(toString n).toList, ?_, reads_int hn⟩
    rw [chars, atom, if_pos hn]
    · rfl
    all_goals exact nofun
  | string s => exact ⟨_, rfl, reads_string s⟩
  | list items _ ih =>
    obtain ⟨parts, hparts, hitems⟩ := exists_itemChars fun v hv => ih v hv (level + 1)
    refine ⟨_, ?_, reads_list hitems level⟩
    rw [chars, hparts]
    rfl
  | table entries hnames _ ih =>
    obtain ⟨parts, hparts, hentries⟩ := exists_entryChars fun e he => ih e he (level + 1)
    have hnames' : ((entries.map fun e => (e.1, e.2.unlabelled)).map Prod.fst).Nodup := by
      simpa [Function.comp_def] using hnames
    refine ⟨block '\x7b' '\x7d' level parts, ?_, ?_⟩
    · rw [chars, hparts]
      rfl
    · rw [Value.unlabelled, Table.unlabelledEntries_ofNames]
      exact reads_table hentries hnames' level
  | shared label v _ ih =>
    obtain ⟨cs, hcs, hv⟩ := ih level
    exact ⟨cs, hcs, hv⟩

end Values

/-- What is read of a text with a line feed behind it. -/
theorem readDocument_of_reads (h : Reads cs v) (hmark : cs.head? ≠ some '\ufeff') :
    readDocument (cs ++ ['\n']) = .ok v := by
  obtain ⟨c, more, rfl, -⟩ := h.begins
  have hskip := skipSpace_of_begins h.begins ['\n']
  have hread := h.read ['\n'] (2 * (c :: more ++ ['\n']).length + 2) (closes_lineBreak 0 [])
    (by rw [List.length_append]; omega)
  rw [List.cons_append, readDocument]
  · rw [← List.cons_append, hskip, hread]
    rfl
  · intro tail htail
    obtain ⟨rfl, -⟩ := List.cons.inj htail
    exact hmark rfl

theorem read_of_reads (h : Reads cs v) (hmark : cs.head? ≠ some '\ufeff') :
    read (String.ofList cs ++ "\n") = .ok v := by
  have htext : (String.ofList cs ++ "\n").toList = cs ++ ['\n'] := by simp
  rw [read, htext, readDocument_of_reads h hmark]
  rfl

end Json

end ReleasePipeline
