import ReleasePipeline.Files.Tree
import ReleasePipeline.Text.Blank

/-! Environment variables, and the paths that texts name by means of them. -/
namespace ReleasePipeline

/-- Variables by their names. -/
structure Environment where
  bindings : List (String × String) := []
deriving Repr, Inhabited

namespace Environment

/-- The value of a variable. -/
def get? (env : Environment) (name : String) : Option String := env.bindings.lookup name

/-- The home directory of a user; the empty name stands for the user of the environment. -/
def homeOf? (env : Environment) (user : String) : Option String :=
  if user = "" then env.get? "HOME" else if user = "root" then some "/root" else none

/-- The text with the home directory in place of a tilde and a user name at its beginning. -/
def expandHome (env : Environment) (text : String) : String :=
  match text.toList with
  | '~' :: rest =>
    match env.homeOf? (String.ofList (rest.takeWhile (· ≠ '/'))) with
    | none => text
    | some home =>
      let s := Text.stripEndOf (· = '/') home ++ String.ofList (rest.dropWhile (· ≠ '/'))
      if s.isEmpty then "/" else s
  | _ => text

/-- A character of the name of a variable. -/
def isNameChar (c : Char) : Bool := c.isAlphanum || c = '_'

/-- The name of a variable after a dollar sign, with or without braces, and the text after it. -/
def takeName? (cs : List Char) : Option (List Char × List Char) :=
  match cs with
  | '\x7b' :: rest =>
    match rest.dropWhile (· ≠ '\x7d') with
    | _ :: after => some (rest.takeWhile (· ≠ '\x7d'), after)
    | [] => none
  | cs =>
    let name := cs.takeWhile isNameChar
    if name.isEmpty then none else some (name, cs.dropWhile isNameChar)

/-- Puts the values of variables in place of their names. -/
def expandChars (env : Environment) (fuel : Nat) (cs : List Char) : List Char :=
  match fuel, cs with
  | fuel + 1, '$' :: rest =>
    match takeName? rest with
    | some (name, after) =>
      let unknown := '$' :: rest.take (rest.length - after.length)
      ((env.get? (String.ofList name)).map String.toList).getD unknown ++
        env.expandChars fuel after
    | none => '$' :: env.expandChars fuel rest
  | fuel + 1, c :: rest => c :: env.expandChars fuel rest
  | _, cs => cs

/-- The text with the values of variables in place of `$NAME` and `$\x7bNAME\x7d`. Unknown names stay. -/
def expandVariables (env : Environment) (text : String) : String :=
  String.ofList (env.expandChars text.toList.length text.toList)

/-- The path that a text names with a tilde and variables. -/
def path (env : Environment) (text : String) : Path :=
  .ofText (env.expandVariables (env.expandHome text))

/-- The path with the home directory in place of a tilde, none where no home is known. -/
def inHome? (env : Environment) (p : Path) : Option Path :=
  match p.names with
  | first :: rest =>
    if !p.isAbsolute && Text.startsWith "~" first then
      let home := env.expandHome first
      if Text.startsWith "~" home then none else some ((Path.ofText home).join ⟨"", rest⟩)
    else some p
  | [] => some p

/-- The variable that names the directory of a user's configurations. -/
def configHomeVariable : String := "XDG_CONFIG_HOME"

/-- The directory of the user's configurations. The home directory has to be known. -/
def configHome? (env : Environment) : Option Path := do
  let home ← env.inHome? (.ofText "~")
  return ((env.get? configHomeVariable).map Path.ofText).getD (home.child ".config")

end Environment

namespace Path

/-- The paths of a list that is separated by colons. -/
def ofList (text : String) : List Path :=
  (((Text.splitOn ':' text).map Text.strip).filter (· ≠ "")).map ofText

/-- The path from the root, without `..`. -/
def resolved (here : Place) (p : Path) : Path :=
  ⟨"/", followed (if p.isAbsolute then p.names else here ++ p.names)⟩

end Path

end ReleasePipeline
