import Risc16.Asm.Program

/-! # Listings

A listing shows every source line once, beside the words that it emits.  A line that emits several
words is shown with the first of them; the other words stand on rows of their own below it.
-/
namespace Risc16.Listing

inductive Row where
  | silent (line : Line)
  | first (word : Placed) (line : Line)
  | next (word : Placed)

namespace Row

def word? : Row → Option Placed
  | silent _ => none
  | first word _ | next word => some word

def line? : Row → Option Line
  | silent line | first _ line => some line
  | next _ => none

end Row

def rowsOf (line : Line) : List Placed → List Row
  | [] => [.silent line]
  | word :: rest => .first word line :: rest.map .next

def rows (p : Program) : List Row :=
  p.lines.flatMap fun line => rowsOf line (p.code.filter (·.line == line.number))

def wordColumns (p : Placed) : String :=
  "[" ++ Text.paint [.coloured .green (Text.hex 4 p.address)] ++ "] " ++
    Text.hex 4 p.instr.encode.toNat ++ " " ++ WordFile.renderWord p.instr.encode ++ " | " ++
    Text.padRight 32 p.instr.painted

def sourceColumns (line : Line) : String :=
  Text.padLeft 4 (Text.decimal line.number) ++ ": " ++ line.painted

/-- The width of the columns left of a silent line. -/
def margin : Nat := 29

def Row.text : Row → String
  | silent line => String.ofList (List.replicate margin ' ') ++ "| " ++ sourceColumns line
  | first word line => wordColumns word ++ " " ++ sourceColumns line
  | next word => wordColumns word ++ " "

def dashes (n : Nat) : String := String.ofList (List.replicate n '-')

def rule : String := dashes margin ++ "+" ++ dashes 53

/-- The rule above the listing names the source.  It is filled up to the length of the rule below;
the name counts by its bytes. -/
def header (path : String) : String :=
  let title := dashes margin ++ "+------[" ++ path ++ "]"
  title ++ dashes (rule.utf8ByteSize - title.utf8ByteSize)

def render (path : String) (p : Program) : String :=
  String.join (([header path] ++ (rows p).map Row.text ++ [rule]).map (· ++ "\n"))

@[simp] theorem filterMap_word?_rowsOf (line : Line) (words : List Placed) :
    (rowsOf line words).filterMap Row.word? = words := by
  cases words with
  | nil => rfl
  | cons _ rest =>
    simp [rowsOf, Row.word?, List.filterMap_map, Function.comp_def]

@[simp] theorem filterMap_line?_rowsOf (line : Line) (words : List Placed) :
    (rowsOf line words).filterMap Row.line? = [line] := by
  cases words with
  | nil => rfl
  | cons _ rest =>
    simp [rowsOf, Row.line?, List.filterMap_map, Function.comp_def]

end Risc16.Listing
