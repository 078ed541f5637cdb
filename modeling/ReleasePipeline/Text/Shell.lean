import ReleasePipeline.Text.Search

/-! Shell words: one text of a list of arguments that a POSIX shell splits into the same list. -/
namespace ReleasePipeline.Text

/-- The characters that mean themselves in every shell word: ASCII letters, digits and some
marks. -/
def isShellSafe (c : Char) : Bool :=
  c.isAlphanum || ['@', '%', '+', '=', ':', ',', '.', '/', '-', '_'].contains c

/-- An argument as one shell word. It goes between single quotes unless all of its characters are
safe; a single quote inside is written between double quotes. -/
def shellWord (cs : List Char) : List Char :=
  if cs.isEmpty then ['\'', '\'']
  else if cs.all isShellSafe then cs
  else '\'' :: cs.flatMap (fun c => if c = '\'' then "'\"'\"'".toList else [c]) ++ ['\'']

/-- The arguments as shell words, separated by spaces. -/
def shellLine (args : List String) : String :=
  String.ofList (List.intercalate [' '] (args.map fun a => shellWord a.toList))

end ReleasePipeline.Text
