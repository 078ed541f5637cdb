import ReleasePipeline.Files.Path
import ReleasePipeline.Text.Line
import ReleasePipeline.Text.Utf8

/-! A tree of files and directories. -/
namespace ReleasePipeline

/-- What stands at a place of the tree. -/
inductive Entry where
  | file (content : ByteArray)
  | directory
deriving Inhabited

/-- Entries are the same where their bytes are. -/
instance : DecidableEq Entry := fun a b =>
  match a, b with
  | .file a, .file b =>
    if h : a.data = b.data then isTrue (congrArg Entry.file (ByteArray.ext h))
    else isFalse fun e => h (congrArg ByteArray.data (Entry.file.inj e))
  | .directory, .directory => isTrue rfl
  | .file _, .directory => isFalse nofun
  | .directory, .file _ => isFalse nofun

/-- Why a file or a directory is not reached or made. -/
inductive FileFault where
  | notFound
  | notADirectory
  | isADirectory
  | alreadyExists
  /-- A name or a whole path is too long. -/
  | nameTooLong
  /-- A path with a null character, which no system takes. -/
  | nullCharacter
deriving DecidableEq, Repr

namespace FileFault

def message : FileFault → String
  | notFound => "No such file or directory"
  | notADirectory => "Not a directory"
  | isADirectory => "Is a directory"
  | alreadyExists => "File exists"
  | nameTooLong => "File name too long"
  | nullCharacter => "embedded null byte"

end FileFault

/-- A place in the tree: the names that lead to it from the root. -/
abbrev Place := List String

/-- Files and directories by their places. The root is a directory and has no entry. -/
structure FileTree where
  entries : List (Place × Entry) := []
deriving Inhabited

namespace FileTree

/-- What stands at a place. -/
def entry? (t : FileTree) (place : Place) : Option Entry :=
  if place.isEmpty then some .directory else t.entries.lookup place

/-- The tree with an entry at a place. -/
def insert (place : Place) (e : Entry) (t : FileTree) : FileTree :=
  ⟨if (t.entries.lookup place).isSome then
      t.entries.map fun (q, old) => if q = place then (q, e) else (q, old)
    else t.entries ++ [(place, e)]⟩

/-- The names of the entries of a directory. -/
def namesIn (t : FileTree) (place : Place) : List String :=
  t.entries.filterMap fun (q, _) =>
    if q.dropLast = place then q.getLast? else none

/-- The greatest number of bytes of a name. -/
def maxNameSize : Nat := 255

/-- The greatest number of bytes of a path. -/
def maxPathSize : Nat := 4095

/-- Follows names from a place. All but the last one have to lead to directories. -/
def follow (t : FileTree) : Place → List String → Except FileFault Place
  | place, [] => .ok place
  | place, n :: names =>
    match t.entry? place with
    | none => .error .notFound
    | some (.file _) => .error .notADirectory
    | some .directory =>
      if maxNameSize < n.utf8ByteSize then .error .nameTooLong
      else t.follow (if n = ".." then place.dropLast else place ++ [n]) names

/-- The place of a path as seen from a directory. -/
def place (t : FileTree) (here : Place) (p : Path) : Except FileFault Place :=
  if p.names.any fun n => n.toList.contains '\x00' then .error .nullCharacter
  else if maxPathSize < p.text.utf8ByteSize then .error .nameTooLong
  else t.follow (if p.isAbsolute then [] else here) p.names

/-- What a path leads to. -/
def look (t : FileTree) (here : Place) (p : Path) : Except FileFault Entry := do
  match t.entry? (← t.place here p) with
  | some e => return e
  | none => throw .notFound

/-- What a path leads to, if anything. The only fault is that it is too long. -/
def look? (t : FileTree) (here : Place) (p : Path) : Except FileFault (Option Entry) :=
  match t.look here p with
  | .ok e => .ok (some e)
  | .error .nameTooLong => .error .nameTooLong
  | .error _ => .ok none

/-- The path leads to something. -/
def exists? (t : FileTree) (here : Place) (p : Path) : Except FileFault Bool :=
  (t.look? here p).map Option.isSome

/-- The path leads to a directory. -/
def isDirectory (t : FileTree) (here : Place) (p : Path) : Except FileFault Bool :=
  (t.look? here p).map (· = some .directory)

/-- The path leads to a file. -/
def isFile (t : FileTree) (here : Place) (p : Path) : Except FileFault Bool :=
  (t.look? here p).map fun e => match e with
    | some (.file _) => true
    | _ => false

/-- The bytes of a file. -/
def read (t : FileTree) (here : Place) (p : Path) : Except FileFault ByteArray := do
  match ← t.look here p with
  | .file content => return content
  | .directory => throw .isADirectory

/-- The tree after writing a file into a directory that exists. -/
def write (t : FileTree) (here : Place) (p : Path) (content : ByteArray) :
    Except FileFault FileTree := do
  let place ← t.place here p
  match t.entry? place with
  | some .directory => throw .isADirectory
  | _ => return t.insert place (.file content)

/-- The tree after making one directory. -/
def makeDirectory (t : FileTree) (here : Place) (p : Path) : Except FileFault FileTree := do
  let place ← t.place here p
  if p.name = ".." || (t.entry? place).isSome then throw .alreadyExists
  return t.insert place .directory

/-- Makes a directory unless there is one. -/
def ensureDirectory (t : FileTree) (here : Place) (p : Path) : Except FileFault FileTree :=
  match t.makeDirectory here p with
  | .ok t => .ok t
  | .error e =>
    match t.isDirectory here p with
    | .ok true => .ok t
    | _ => .error e

/-- Makes the directories that are missing on a path of at most `fuel` names. A fault leaves those
that were made before it. -/
def makeDirectories (t : FileTree) (here : Place) (fuel : Nat) (p : Path) :
    FileTree × Except FileFault Unit :=
  match t.ensureDirectory here p with
  | .ok t => (t, .ok ())
  | .error .notFound =>
    match fuel with
    | 0 => (t, .error .notFound)
    | fuel + 1 =>
      if p.parent = p then (t, .error .notFound)
      else
        match makeDirectories t here fuel p.parent with
        | (t, .error e) => (t, .error e)
        | (t, .ok ()) =>
          match t.ensureDirectory here p with
          | .ok t => (t, .ok ())
          | .error e => (t, .error e)
  | .error e => (t, .error e)

/-- The tree with files and directories at paths. Directories that are missing are made, and what
cannot stand at its path is left out. -/
def install (t : FileTree) (here : Place) (entries : List (Path × Entry)) : FileTree :=
  entries.foldl
    (fun t (p, e) => match e with
      | .directory => (t.makeDirectories here p.names.length p).1
      | .file content =>
        let t := (t.makeDirectories here p.names.length p.parent).1
        ((t.write here p content).toOption).getD t)
    t

end FileTree

/-- The text of a file: its bytes in UTF-8, with every line ending as a line feed. -/
def textOfBytes (bytes : ByteArray) : Except Text.Utf8Error String := do
  return String.ofList (Text.unifyNewlines (← Text.decodeUtf8 bytes).toList)

end ReleasePipeline
