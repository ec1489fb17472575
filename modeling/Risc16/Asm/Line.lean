import Risc16.Fault
import Risc16.Isa.Register
import Risc16.Text.Cut
import Risc16.Text.Lines
import Risc16.Text.Paint

/-! # Source lines

A line is an optional label, a statement and an optional comment.  The comment starts at the first
`#`, the label ends at the one colon before it, and the statement is what is left, cut into tokens
at blanks and commas.  Whether tokens make sense together is not decided here.
-/
namespace Risc16

namespace Token

def isSeparator (c : Char) : Bool := Text.isBlank c || c == ','

def scan (cs : List Char) : List String := (Text.words isSeparator cs).map String.ofList

end Token

/-- What a line says: nothing, a directive to the assembler, or an instruction. -/
inductive Statement where
  | blank
  | directive (name : String) (operands : List String)
  | instruction (mnemonic : String) (operands : List String)
  deriving DecidableEq

namespace Statement

/-- A first token that starts with a dot makes a directive. -/
def ofTokens : List String → Statement
  | [] => blank
  | head :: operands =>
    if head.toList.head? = some '.' then directive head operands else instruction head operands

def tokens : Statement → List String
  | blank => []
  | directive name operands => name :: operands
  | instruction mnemonic operands => mnemonic :: operands

def operands (s : Statement) : List String := s.tokens.tail

def isInstruction : Statement → Bool
  | instruction .. => true
  | blank | directive .. => false

@[simp] theorem tokens_ofTokens (tokens : List String) : (ofTokens tokens).tokens = tokens := by
  cases tokens with
  | nil => rfl
  | cons head operands =>
    simp only [ofTokens]
    split <;> rfl

/-- Tokens of a statement in colour; operands of an instruction are separated by commas. -/
def columns : Statement → List Text.Span
  | blank => []
  | directive name operands => [.coloured .cyan (" ".intercalate (name :: operands))]
  | instruction mnemonic operands =>
    [.coloured .red (Text.padRight 5 mnemonic), .coloured .blue (", ".intercalate operands)]

end Statement

/-- Checks a label name; the first rule that it breaks is the fault. -/
def checkLabel (name : String) : Except Fault Unit :=
  if name.toList.isEmpty then .error .emptyLabel
  else if name.toList.any Token.isSeparator then .error .delimiterInLabel
  else if name.toList.head?.any (fun c => c == '-' || c.isDigit) then .error (.labelStart name)
  else if Reg.isReserved name then .error (.reservedLabel name)
  else .ok ()

structure Line where
  number : Nat
  raw : String
  label : Option String
  statement : Statement
  comment : Option String
  deriving DecidableEq

namespace Line

/-- Reads the label and the statement from the text before the comment. -/
def parseCode (code : List Char) : Except Fault (Option String × Statement) :=
  match Text.cut ':' code with
  | (body, none) => .ok (none, .ofTokens (Token.scan body))
  | (before, some body) =>
    if ':' ∈ body then .error .secondColon
    else
      let label := String.ofList (Text.trim before)
      match checkLabel label with
      | .error fault => .error fault
      | .ok () => .ok (some label, .ofTokens (Token.scan body))

/-- Reads one line of a source; `number` counts from one. -/
def parse (number : Nat) (raw : String) : Except Error Line :=
  let (code, comment) := Text.cut '#' raw.toList
  match parseCode code with
  | .error fault => .error (fault.onLine number)
  | .ok (label, statement) =>
    .ok { number, raw, label, statement
          comment := comment.map fun cs => String.ofList (Text.trimEnd cs) }

def painted (line : Line) : String :=
  Text.paint <|
    line.label.elim [] (fun label => [.coloured .green (label ++ ":"), .plain " "]) ++
      line.statement.columns ++ line.comment.elim [] (fun comment => [.plain (" #" ++ comment)])

/-- Reads lines that are numbered from `number` on, up to the first that fails. -/
def parseFrom (number : Nat) : List String → Except Error (List Line)
  | [] => .ok []
  | raw :: rest => do
    let line ← parse number raw
    let lines ← parseFrom (number + 1) rest
    return line :: lines

def parseSource (source : String) : Except Error (List Line) := parseFrom 1 (Text.lines source)

end Line

end Risc16
