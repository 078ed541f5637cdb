/-! Glob patterns over a single text: `*`, `?` and bracketed character sets. -/
namespace ReleasePipeline.Text

/-- A piece of a glob pattern. -/
inductive GlobPiece where
  /-- Any text, the empty one included. -/
  | anyText
  /-- Any one character. -/
  | anyChar
  /-- This character. -/
  | char (c : Char)
  /-- One character inside one of the ranges, or outside all of them when `negated`. -/
  | oneOf (negated : Bool) (ranges : List (Char × Char))
deriving DecidableEq, Repr

namespace GlobPiece

/-- The inside of a bracketed set, read after `[`, and what follows its `]`. A `]` that comes
first, or first after `!`, belongs to the set. -/
def bracket? (cs : List Char) : Option (List Char × List Char) :=
  let (bang, cs) := match cs with | '!' :: cs => (['!'], cs) | cs => ([], cs)
  let (first, cs) := match cs with | ']' :: cs => ([']'], cs) | cs => ([], cs)
  match cs.dropWhile (· ≠ ']') with
  | [] => none
  | _ :: rest => some (bang ++ first ++ cs.takeWhile (· ≠ ']'), rest)

theorem length_lt_of_dropWhile {p : Char → Bool} {cs rest : List Char} {c : Char}
    (h : cs.dropWhile p = c :: rest) : rest.length < cs.length := by
  have := (List.dropWhile_suffix (l := cs) p).length_le
  rw [h, List.length_cons] at this
  omega

/-- The parts of a set between the hyphens that join two ends of a range. The first part has at
least one character and a later one at least two, unless it is the last. -/
def rangeParts (least : Nat) (cs : List Char) : List (List Char) :=
  match h : (cs.drop least).dropWhile (· ≠ '-') with
  | [] => [cs]
  | _ :: rest =>
    have : rest.length < cs.length := by
      have := length_lt_of_dropWhile h
      simp only [List.length_drop] at this
      omega
    (cs.take least ++ (cs.drop least).takeWhile (· ≠ '-')) :: rangeParts 2 rest
termination_by cs.length

/-- A hyphen at the end of a set joins nothing and stands for itself. -/
def keepLastHyphen : List (List Char) → List (List Char)
  | [part, []] => [part ++ ['-']]
  | part :: parts => part :: keepLastHyphen parts
  | [] => []

/-- Takes out the two ends of a range whose first end is the greater one. -/
def dropEmptyRange (part : List Char) : List (List Char) → List (List Char)
  | next :: parts =>
    match part.getLast?, next.head? with
    | some a, some b =>
      if b < a then (part.dropLast ++ next.drop 1) :: parts else part :: next :: parts
    | _, _ => part :: next :: parts
  | [] => [part]

/-- The ranges that the parts of a set describe; a lone character is a range of its own. -/
def ranges : List (List Char) → List (Char × Char)
  | [] => []
  | [part] => part.map fun c => (c, c)
  | part :: next :: parts =>
    match part.getLast?, next with
    | some a, b :: next =>
      part.dropLast.map (fun c => (c, c)) ++ (a, b) :: ranges (next :: parts)
    | _, _ => part.map (fun c => (c, c)) ++ ranges (next :: parts)
termination_by parts => parts.length

/-- The parts of the inside of a bracketed set. A `!` in front begins no range. -/
def parts (inside : List Char) : List (List Char) :=
  let least := if inside.head? = some '!' then 2 else 1
  (keepLastHyphen (rangeParts least inside)).foldr dropEmptyRange []

/-- The piece of the parts of a set. A `!` in front negates it, also where it has come there because
an empty range was taken out; a hyphen right after it then stands for itself. -/
def ofParts : List (List Char) → GlobPiece
  | ['!'] :: next :: parts => .oneOf true (ranges (('-' :: next) :: parts))
  | ('!' :: first) :: parts => .oneOf true (ranges (first :: parts))
  | parts => .oneOf false (ranges parts)

/-- The piece that the inside of a bracketed set describes. -/
def ofBracket (inside : List Char) : GlobPiece := ofParts (parts inside)

/-- The character stands for the piece. -/
def admits : GlobPiece → Char → Bool
  | anyText, _ => false
  | anyChar, _ => true
  | char c, x => c = x
  | oneOf negated ranges, x => (ranges.any fun (a, b) => a ≤ x && x ≤ b) != negated

theorem bracket?_length {cs inside rest : List Char} (h : bracket? cs = some (inside, rest)) :
    rest.length < cs.length := by
  simp only [bracket?] at h
  split at h
  · simp at h
  · next x r hr =>
    have hlt := length_lt_of_dropWhile hr
    simp only [Option.some.injEq, Prod.mk.injEq] at h
    obtain ⟨_, rfl⟩ := h
    refine Nat.lt_of_lt_of_le hlt ?_
    clear hlt hr
    have drop_close : ∀ ds : List Char,
        (match ds with | ']' :: ds => ([']'], ds) | ds => ([], ds)).2.length ≤ ds.length := by
      intro ds; split <;> simp
    refine Nat.le_trans (drop_close _) ?_
    split <;> simp

/-- The pieces of a pattern. A `[` without its `]` stands for itself. -/
def ofPattern (pattern : List Char) : List GlobPiece :=
  match pattern with
  | [] => []
  | '*' :: rest => anyText :: ofPattern rest
  | '?' :: rest => anyChar :: ofPattern rest
  | '[' :: rest =>
    match h : bracket? rest with
    | some (inside, after) =>
      have := bracket?_length h
      ofBracket inside :: ofPattern after
    | none => char '[' :: ofPattern rest
  | c :: rest => char c :: ofPattern rest
termination_by pattern.length
decreasing_by all_goals simp_wf; all_goals omega

/-- The pieces stand for the whole text. -/
def covers : List GlobPiece → List Char → Bool
  | [], cs => cs.isEmpty
  | anyText :: pieces, cs =>
    (List.range (cs.length + 1)).any fun n => covers pieces (cs.drop n)
  | piece :: pieces, c :: cs => piece.admits c && covers pieces cs
  | _ :: _, [] => false

end GlobPiece

/-- The glob pattern stands for the whole text. -/
def globMatches (pattern text : String) : Bool :=
  GlobPiece.covers (GlobPiece.ofPattern pattern.toList) text.toList

/-- The text holds one of the characters that open a wildcard. -/
def hasWildcard (s : String) : Bool := s.toList.any fun c => c = '*' || c = '?' || c = '['

end ReleasePipeline.Text
