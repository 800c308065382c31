import Parlance.FileSystem
import Parlance.Text.Words

/-
  A file system in memory, on which file commands can be run without a disk. Files and directories
  are entries at places; a path is resolved from the working directory or from the root, name by
  name, and every name on the way has to be that of a directory. Reading takes a file as UTF-8 text,
  and writing creates a file or replaces its bytes.
-/

namespace Parlance

/-- The directory that the names of a place start from. -/
inductive Base where
  /-- The working directory, or the directory so many levels above it. -/
  | above (levels : Nat)
  | root
  deriving DecidableEq, Repr

/-- A place in the file system. -/
structure Place where
  base : Base
  names : List String
  deriving DecidableEq, Repr

/-- What stands at a place. -/
inductive Entry where
  | file (bytes : ByteArray)
  | directory

/-- Why a file cannot be read or written. -/
inductive FileFault where
  | noEntry
  | isDirectory
  | notDirectory
  | nameTooLong
  | notText
  | nulInName
  deriving DecidableEq, Repr

/-- The text of a fault. -/
def FileFault.message : FileFault → String
  | noEntry => "No such file or directory (os error 2)"
  | isDirectory => "Is a directory (os error 21)"
  | notDirectory => "Not a directory (os error 20)"
  | nameTooLong => "File name too long (os error 36)"
  | notText => "stream did not contain valid UTF-8"
  | nulInName => "file name contained an unexpected NUL byte"

/-- The place one level up; the root is its own parent. -/
def Place.parent (p : Place) : Place :=
  match p.names, p.base with
  | [], .above levels => ⟨.above (levels + 1), []⟩
  | [], .root => ⟨.root, []⟩
  | names, base => ⟨base, names.dropLast⟩

/-- The place as a path. -/
def Place.text (p : Place) : String :=
  let names := Text.joinWith "/" p.names
  match p.base with
  | .above levels => String.join (List.replicate levels "../") ++ names
  | .root => "/" ++ names

/-- A path, cut at its slashes. -/
structure Path where
  start : Place
  /-- The names on the way, without the last one. -/
  way : List String
  last : Option String
  /-- A slash stands behind the last name. -/
  slash : Bool
  deriving DecidableEq, Repr

namespace Path

/-- The longest name, in bytes. -/
def maxName : Nat := 255

/-- The longest path, in bytes. -/
def maxPath : Nat := 4095

/-- Cuts a path at its slashes. -/
def read (path : String) : Except FileFault Path :=
  if path.toList.contains '\x00' then .error .nulInName
  else if path.isEmpty then .error .noEntry
  else if path.utf8ByteSize > maxPath then .error .nameTooLong
  else
    let names := ((Text.pieces '/' path.toList).filter fun p => !p.isEmpty).map String.ofList
    .ok
      { start := ⟨if path.toList.head? = some '/' then .root else .above 0, []⟩
        way := names.dropLast
        last := names.getLast?
        slash := path.toList.getLast? = some '/' }

end Path

/-- The entries of a file system. A place has at most one entry, the one that stands first. -/
structure FileStore where
  entries : List (Place × Entry)

namespace FileStore

/-- The file system without entries. -/
def empty : FileStore := ⟨[]⟩

/-- What stands at a place. The directories that paths start from are always there. -/
def entry? (fs : FileStore) (p : Place) : Option Entry :=
  if p.names.isEmpty then some .directory else fs.entries.lookup p

/-- The place that a name leads to from a directory. -/
def step (p : Place) (name : String) : Except FileFault Place :=
  if name = "." then .ok p
  else if name = ".." then .ok p.parent
  else if name.utf8ByteSize > Path.maxName then .error .nameTooLong
  else .ok { p with names := p.names ++ [name] }

/-- The places that names lead to, one after the other. -/
def trail (p : Place) : List String → List Place
  | [] => []
  | name :: rest =>
    match step p name with
    | .error _ => []
    | .ok next => next :: trail next rest

/-- Follows names, each of which has to lead to a directory. -/
def walk (fs : FileStore) (p : Place) : List String → Except FileFault Place
  | [] => .ok p
  | name :: rest =>
    match step p name with
    | .error fault => .error fault
    | .ok next =>
      match fs.entry? next with
      | none => .error .noEntry
      | some (.file _) => .error .notDirectory
      | some .directory => walk fs next rest

/-- The bytes of the file that a path leads to. -/
def bytes (fs : FileStore) (path : Path) : Except FileFault ByteArray :=
  match fs.walk path.start path.way, path.last with
  | .error fault, _ => .error fault
  | .ok _, none => .error .isDirectory
  | .ok p, some name =>
    match step p name with
    | .error fault => .error fault
    | .ok target =>
      match fs.entry? target with
      | none => .error .noEntry
      | some .directory => .error .isDirectory
      | some (.file bytes) => if path.slash then .error .notDirectory else .ok bytes

/-- The place of the file that writing to a path creates or replaces. -/
def target (fs : FileStore) (path : Path) : Except FileFault Place :=
  match fs.walk path.start path.way, path.last with
  | .error fault, _ => .error fault
  | .ok _, none => .error .isDirectory
  | .ok p, some name =>
    if path.slash ∨ name = "." ∨ name = ".." then .error .isDirectory
    else
      match step p name with
      | .error fault => .error fault
      | .ok place =>
        match fs.entry? place with
        | some .directory => .error .isDirectory
        | _ => .ok place

/-- Puts an entry at a place. -/
def put (fs : FileStore) (p : Place) (e : Entry) : FileStore :=
  ⟨(p, e) :: fs.entries.filter fun (q, _) => q ≠ p⟩

/-- Reads a file as text. -/
def readText (fs : FileStore) (path : String) : Except FileFault String :=
  match Path.read path with
  | .error fault => .error fault
  | .ok path =>
    match fs.bytes path with
    | .error fault => .error fault
    | .ok bytes =>
      match String.fromUTF8? bytes with
      | some text => .ok text
      | none => .error .notText

/-- Creates a file with the text, or replaces its contents. -/
def writeText (fs : FileStore) (path text : String) : Except FileFault FileStore :=
  match Path.read path with
  | .error fault => .error fault
  | .ok path =>
    match fs.target path with
    | .error fault => .error fault
    | .ok place => .ok (fs.put place (.file text.toUTF8))

/-- The store as a file system. A fault leaves it as it was. -/
def files : FileSystem FileStore where
  readText path fs := ((fs.readText path).mapError FileFault.message, fs)
  writeText path text fs :=
    match fs.writeText path text with
    | .ok after => (.ok (), after)
    | .error fault => (.error fault.message, fs)

/-! ## Setting up and listing a directory -/

/-- Puts an entry below the working directory, with the directories that lead to it. -/
def plant (fs : FileStore) (names : List String) (e : Entry) : FileStore :=
  let parents := (List.range names.length).map fun n => names.take n
  let fs := parents.foldl
    (fun fs p =>
      if (fs.entry? ⟨.above 0, p⟩).isSome then fs else fs.put ⟨.above 0, p⟩ .directory) fs
  fs.put ⟨.above 0, names⟩ e

/-- The entries below the working directory with their names. -/
def listing (fs : FileStore) : List (List String × Entry) :=
  fs.entries.filterMap fun (p, e) => if p.base = .above 0 then some (p.names, e) else none

end FileStore

end Parlance
