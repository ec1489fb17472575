import Risc16.Command.Path

/-! # Trees of files

The files that a command can reach are a value here: a tree with one current folder, from which
relative paths start.  Reading and writing follow a path name by name, and every name but the last
must be a folder.  A write replaces a whole file or changes nothing.
-/
namespace Risc16

inductive FileFault where
  | missing
  | notFolder
  | isFolder
  | notText
  deriving DecidableEq

def FileFault.message : FileFault → String
  | missing => "No such file or directory (os error 2)"
  | notFolder => "Not a directory (os error 20)"
  | isFolder => "Is a directory (os error 21)"
  | notText => "stream did not contain valid UTF-8"

inductive Entry where
  | file (content : ByteArray)
  | folder

/-- The names from the root of the tree down to an entry. -/
abbrev Location := List String

structure FileTree where
  entries : List (Location × Entry)
  current : Location

namespace FileTree

/-- The entry at a location; the root is a folder. -/
def get? (t : FileTree) (location : Location) : Option Entry :=
  if location.isEmpty then some .folder
  else (t.entries.find? (·.1 == location)).map Prod.snd

def put (t : FileTree) (location : Location) (entry : Entry) : FileTree :=
  { t with entries := (location, entry) :: t.entries.filter (·.1 != location) }

/-- Goes on from a folder to the folder called `name`.  Above the root is the root. -/
def enter (t : FileTree) (folder : Location) (name : String) : Except FileFault Location :=
  if name = "." then .ok folder
  else if name = ".." then .ok folder.dropLast
  else match t.get? (folder ++ [name]) with
    | some .folder => .ok (folder ++ [name])
    | some (.file _) => .error .notFolder
    | none => .error .missing

/-- Follows names from a folder.  A last name other than `.` and `..` need not exist. -/
def follow (t : FileTree) (folder : Location) (names : List String) : Except FileFault Location :=
  match names.getLast? with
  | none => .ok folder
  | some last =>
    if Path.isDots last then names.foldlM t.enter folder
    else (names.dropLast.foldlM t.enter folder).map (· ++ [last])

def locate (t : FileTree) (path : String) : Except FileFault Location :=
  t.follow (if Path.isAbsolute path then [] else t.current) (Path.names path)

/-- The bytes of a file.  A slash after the name of a file asks for a folder. -/
def read (t : FileTree) (path : String) : Except FileFault ByteArray := do
  match t.get? (← t.locate path) with
  | none => .error .missing
  | some .folder => .error .isFolder
  | some (.file content) => if Path.endsInSlash path then .error .notFolder else .ok content

def readText (t : FileTree) (path : String) : Except FileFault String := do
  match String.fromUTF8? (← t.read path) with
  | some text => .ok text
  | none => .error .notText

/-- The tree after a file was written.  A slash after a name cannot make a file. -/
def write (t : FileTree) (path : String) (content : ByteArray) : Except FileFault FileTree := do
  let location ← t.locate path
  match t.get? location with
  | some .folder => .error .isFolder
  | some (.file _) | none =>
    if Path.endsInSlash path then .error .isFolder else .ok (t.put location (.file content))

theorem get?_put_self (t : FileTree) {location : Location} (h : location ≠ []) (entry : Entry) :
    (t.put location entry).get? location = some entry := by
  simp [put, get?, h]

theorem get?_put_of_ne (t : FileTree) {location other : Location} (h : other ≠ location)
    (entry : Entry) : (t.put location entry).get? other = t.get? other := by
  have hf : (t.entries.filter (·.1 != location)).find? (·.1 == other) =
      t.entries.find? (·.1 == other) := by
    rw [List.find?_filter]
    congr 1
    funext e
    by_cases he : e.1 = other <;> simp [he, h]
  simp [put, get?, Ne.symm h, hf]

end FileTree

end Risc16
