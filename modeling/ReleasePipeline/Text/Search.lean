/-! Finding, splitting and replacing inside a text. -/
namespace ReleasePipeline.Text

/-- What follows `start` in `cs`, when `cs` begins with `start`. -/
def dropStart? : (start cs : List Char) → Option (List Char)
  | [], cs => some cs
  | _ :: _, [] => none
  | a :: start, c :: cs => if a = c then dropStart? start cs else none

/-- What stands before `ending` in `cs`, when `cs` ends with `ending`. -/
def dropEnd? (ending cs : List Char) : Option (List Char) :=
  (dropStart? ending.reverse cs.reverse).map List.reverse

/-- The parts before and after the first place where `mid` stands. -/
def cutAt? (mid : List Char) : (cs : List Char) → Option (List Char × List Char)
  | [] => if mid.isEmpty then some ([], []) else none
  | c :: cs =>
    match dropStart? mid (c :: cs) with
    | some rest => some ([], rest)
    | none => (cutAt? mid cs).map fun (before, after) => (c :: before, after)

theorem dropStart?_length {start cs rest : List Char} (h : dropStart? start cs = some rest) :
    rest.length + start.length = cs.length := by
  induction start generalizing cs with
  | nil => simp_all [dropStart?]
  | cons a start ih =>
    cases cs with
    | nil => simp [dropStart?] at h
    | cons c cs =>
      simp only [dropStart?] at h
      split at h
      · have := ih h
        simp only [List.length_cons]
        omega
      · simp at h

theorem cutAt?_length {mid cs before after : List Char} (h : cutAt? mid cs = some (before, after)) :
    before.length + mid.length + after.length = cs.length := by
  induction cs generalizing before with
  | nil =>
    simp only [cutAt?] at h
    split at h
    · simp_all
    · simp at h
  | cons c cs ih =>
    simp only [cutAt?] at h
    split at h
    · next rest hr =>
      have := dropStart?_length hr
      simp only [Option.some.injEq, Prod.mk.injEq] at h
      obtain ⟨rfl, rfl⟩ := h
      simp only [List.length_cons, List.length_nil] at this ⊢
      omega
    · obtain ⟨⟨b, a⟩, hb, heq⟩ := Option.map_eq_some_iff.1 h
      simp only [Prod.mk.injEq] at heq
      obtain ⟨rfl, rfl⟩ := heq
      have := ih hb
      simp only [List.length_cons]
      omega

/-- Every occurrence of `old`, taken from the left without overlap, becomes `new`. An empty `old`
leaves the text as it is. -/
def replaceChars (old new cs : List Char) : List Char :=
  if hold : old = [] then cs
  else
    match h : cutAt? old cs with
    | none => cs
    | some (before, after) =>
      have : after.length < cs.length := by
        have := cutAt?_length h
        have : old.length ≠ 0 := by simp [hold]
        omega
      before ++ new ++ replaceChars old new after
termination_by cs.length

/-- The text with every `old` replaced by `new`. -/
def replaceAll (old new s : String) : String :=
  String.ofList (replaceChars old.toList new.toList s.toList)

/-- The parts of a text between the characters `sep`; a text without `sep` is one part. -/
def splitChars (sep : Char) : List Char → List (List Char)
  | [] => [[]]
  | c :: cs =>
    if c = sep then [] :: splitChars sep cs
    else match splitChars sep cs with
      | [] => [[c]]
      | part :: parts => (c :: part) :: parts

/-- The parts of a text between the characters `sep`. -/
def splitOn (sep : Char) (s : String) : List String :=
  (splitChars sep s.toList).map String.ofList

/-- The text begins with `start`. -/
def startsWith (start s : String) : Bool := (dropStart? start.toList s.toList).isSome

/-- The text ends with `ending`. -/
def endsWith (ending s : String) : Bool := (dropEnd? ending.toList s.toList).isSome

/-- The part `mid` stands somewhere in the text. -/
def contains (mid s : String) : Bool := (cutAt? mid.toList s.toList).isSome

/-- The letters A to Z become a to z; every other character stays. -/
def lowerAscii (s : String) : String := String.ofList (s.toList.map Char.toLower)

end ReleasePipeline.Text
