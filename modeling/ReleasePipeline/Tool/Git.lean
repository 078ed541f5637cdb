import ReleasePipeline.Run.Action

/-! The commands by which a release reads and changes a repository. -/
namespace ReleasePipeline.Git

/-- The character between the hash and the message of a commit. -/
def fieldMark : Char := '\x1f'

/-- The character after a commit. -/
def recordMark : Char := '\x1e'

/-- A command of the repository at the root of the run. -/
def command (s : Settings) (args : List String) : Command :=
  { argv := "git" :: args, cwd := some s.root }

/-- The output of a command that changes nothing. -/
def read (s : Settings) (args : List String) : Action String := do
  return (← Action.run s .reading true (command s args)).output

/-- Runs a command that changes something. -/
def change (s : Settings) (args : List String) : Action Unit := do
  let _ ← Action.run s .changing true (command s args)

/-- The tags of a listing, one a line. -/
def tagsOf (output : String) : List String :=
  ((Text.lineTexts output).map Text.strip).filter (· ≠ "")

/-- Lists the tags that lead to the present commit. -/
def tagListing : List String := ["tag", "--list", "--merged", "HEAD"]

/-- The format in which commits are listed. -/
def logFormat : String := s!"--format=%H{fieldMark}%B{recordMark}"

/-- The characters without the line feeds at both ends. -/
def stripFeeds (cs : List Char) : List Char :=
  Text.dropEndWhile (· = '\n') (cs.dropWhile (· = '\n'))

/-- The hash and the message of a record. -/
def commitOf (record : List Char) : String × String :=
  let message := (record.dropWhile (· ≠ fieldMark)).drop 1
  (Text.strip (String.ofList (record.takeWhile (· ≠ fieldMark))),
    Text.strip (String.ofList message))

/-- The hashes and messages of a listing. -/
def commitsOf (output : String) : List (String × String) :=
  (((Text.splitChars recordMark output.toList).map stripFeeds).filter (!·.isEmpty)).map commitOf

/-- Lists the commits since a tag, or all commits. -/
def commitListing (since : Option String) : List String :=
  let range := match since.bind Commit.nonEmpty? with
    | some tag => s!"{tag}..HEAD"
    | none => "HEAD"
  ["log", logFormat, range]

/-- The commits since a tag, or all commits. -/
def log (s : Settings) (since : Option String) : Action (List (String × String)) := do
  return commitsOf (← read s (commitListing since))

/-- The paths of a status listing: a code of two characters, a blank and a path. After an entry of a
file that was renamed or copied stands its former path. -/
def pathsOf : List (List Char) → List String
  | [] => []
  | entry :: rest =>
    if entry.length < 4 then pathsOf rest
    else
      let path := String.ofList (entry.drop 3)
      let code := entry.take 2
      match code.contains 'R' || code.contains 'C', rest with
      | true, _ :: rest => path :: pathsOf rest
      | _, rest => path :: pathsOf rest

/-- Lists the files that match the paths and have changed. -/
def statusListing (paths : List String) : List String :=
  ["status", "--porcelain", "-z", "--untracked-files=all", "--"] ++ paths

/-- The files that match the paths and have changed. -/
def changedFiles (s : Settings) (paths : List String) : Action (List String) := do
  return pathsOf (Text.splitChars '\x00' (← read s (statusListing paths)).toList)

/-- Adds files to the next commit. -/
def add (s : Settings) (paths : List String) : Action Unit :=
  change s (["add", "--force", "--ignore-errors", "--"] ++ paths)

/-- Makes a commit. -/
def commit (s : Settings) (message : String) : Action Unit := change s ["commit", "-m", message]

/-- Pushes the present commit to a branch. -/
def push (s : Settings) (remote branch : String) : Action Unit :=
  change s ["push", remote, s!"HEAD:refs/heads/{branch}"]

/-- Makes a tag of the name. -/
def tagging (name : String) : List String := ["tag", name]

/-- Pushes the tag of the name. -/
def tagPush (remote name : String) : List String := ["push", remote, s!"refs/tags/{name}"]

end ReleasePipeline.Git
