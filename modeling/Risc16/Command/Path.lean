/-! # File paths

Paths are texts with slashes between names.  Slashes at the end and `.` names after the first are
ignored when the last name of a path is asked for; `.` and `..` are not names of files.
-/
namespace Risc16.Path

def names (path : String) : List String :=
  ((path.toList.splitOn '/').filter (!·.isEmpty)).map String.ofList

def isAbsolute (path : String) : Bool := path.toList.head? == some '/'

def endsInSlash (path : String) : Bool := path.toList.getLast? == some '/'

/-- The names that stand for the folder they are in and for the one above. -/
def isDots (name : String) : Bool := name == "." || name == ".."

/-- Drops what is ignored at the end of a path; the path is read backwards. -/
def dropIgnored : List Char → List Char
  | '/' :: rest => dropIgnored rest
  | '.' :: '/' :: rest => dropIgnored rest
  | cs => cs

/-- The name without its extension; both are read backwards.  A dot at the start of a name does
not begin an extension. -/
def stem (name : List Char) : List Char :=
  match (name.dropWhile (· != '.')).tail with
  | [] => name
  | c :: before => c :: before

/-- Drops the extension at the end of a path and keeps the dot before it; the path is read
backwards.  A path that ends in something ignored does not end in an extension. -/
def dropExtension (path : List Char) : List Char :=
  match (path.takeWhile (· != '/')).dropWhile (· != '.') with
  | '.' :: _ :: _ => path.dropWhile (· != '.')
  | _ => path

/-- The path with an extension on its last name; a path without one is kept.  The path, what
comes before the name, and the name are read backwards. -/
def extend (path parent name : List Char) (extension : String) : String :=
  match name with
  | [] | ['.'] | ['.', '.'] => String.ofList path.reverse
  | name => String.ofList (stem name ++ parent).reverse ++ "." ++ extension

/-- Sets the extension of the last name of a path, which is read backwards. -/
def setExtension (path : List Char) (extension : String) : String :=
  let kept := dropIgnored path
  extend path (kept.dropWhile (· != '/')) (kept.takeWhile (· != '/')) extension

/-- Replaces the extension of the last name, or adds one.  The old extension goes first, so that
a path left with `..` at its end is complete. -/
def withExtension (path : String) (extension : String) : String :=
  setExtension (dropExtension path.toList.reverse) extension

end Risc16.Path
