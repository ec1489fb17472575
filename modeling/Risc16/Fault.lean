import Risc16.Isa.Immediate

/-! # Faults and errors

A fault is the cause of a failure; its kind and its wording are functions of the cause.  An error
is a fault together with the source line it was found on, once that is known.
-/
namespace Risc16

/-- The part of the job that a fault concerns. -/
inductive FaultKind where
  | opcode
  | register
  | immediate
  | preprocessor
  | input
  | internal
  deriving DecidableEq

def FaultKind.text : FaultKind → String
  | opcode => "Opcode decode error"
  | register => "Register decode error"
  | immediate => "Immediate decode error"
  | preprocessor => "Pre processor error"
  | input => "Input error"
  | internal => "Internal error"

def FaultKind.advice? : FaultKind → Option String
  | register => some "registers are r0 to r7"
  | immediate => some "signed immediates take -64 to 63, lui takes 0 to 1023"
  | internal => some "this is a bug in the assembler"
  | opcode | preprocessor | input => none

inductive Fault where
  | unknownOpcode (name : String)
  | unknownDirective (name : String)
  | registerNotInteger (text : String)
  | registerOutOfRange (text : String)
  | missingRegister
  | notLiteral (text : String)
  | missingImmediate
  | signedOutOfRange (value : Int)
  | longOutOfRange (value : Int)
  | wordOutOfRange (value : Int)
  | secondColon
  | emptyLabel
  | delimiterInLabel
  | labelStart (name : String)
  | reservedLabel (name : String)
  | redefinedLabel (name : String) (line : Nat)
  | fillWithoutValue
  | unexpectedOperand (text : String)
  | malformedWord (text : String)
  | lowBitsTooWide
  | highBitsTooWide
  | wordCount (name : String) (emitted reserved : Nat)
  | other (kind : FaultKind) (message : String)
  deriving DecidableEq

namespace Fault

def kind : Fault → FaultKind
  | unknownOpcode _ | unknownDirective _ => .opcode
  | registerNotInteger _ | registerOutOfRange _ | missingRegister => .register
  | notLiteral _ | missingImmediate | signedOutOfRange _ | longOutOfRange _ | wordOutOfRange _ =>
    .immediate
  | secondColon | emptyLabel | delimiterInLabel | labelStart _ | reservedLabel _
  | redefinedLabel .. | fillWithoutValue | unexpectedOperand _ => .preprocessor
  | malformedWord _ => .input
  | lowBitsTooWide | highBitsTooWide | wordCount .. => .internal
  | other kind _ => kind

def message : Fault → String
  | unknownOpcode name => "Unknown opcode \"" ++ name ++ "\""
  | unknownDirective name => "Unknown directive \"" ++ name ++ "\""
  | registerNotInteger text => "Register id not an integer : " ++ text
  | registerOutOfRange text => "Register id must be < 8 : " ++ text
  | missingRegister => "Missing register operand"
  | notLiteral text => "Cannot parse `" ++ text ++ "` as an immediate (undefined label?)"
  | missingImmediate => "Missing immediate operand"
  | signedOutOfRange value =>
    "Value " ++ Text.decimal value ++ " is outside signed immediate field limit (" ++
      Text.decimal SignedImm.least ++ " to " ++ Text.decimal SignedImm.greatest ++ ")"
  | longOutOfRange value =>
    "Value " ++ Text.decimal value ++ " is outside large immediate field limit (0 to 0x" ++
      Text.hex 0 LongImm.greatest ++ ")"
  | wordOutOfRange value =>
    "Value " ++ Text.decimal value ++ " does not fit in 16 bits (" ++
      Text.decimal Word.least ++ " to " ++ Text.decimal Word.greatest ++ ")"
  | secondColon => "Multiple ':' detected!"
  | emptyLabel => "Label must not be empty"
  | delimiterInLabel => "Label must not contain delimiters"
  | labelStart name => "Illegal label name `" ++ name ++ "` (starts with - or digit)"
  | reservedLabel name => "Label name `" ++ name ++ "` is a reserved keyword"
  | redefinedLabel name line =>
    "Re-defined label `" ++ name ++ "` (already defined at line " ++ Text.decimal line ++ ")"
  | fillWithoutValue => ".fill requires a value or label"
  | unexpectedOperand text => "Unexpected operand `" ++ text ++ "`"
  | malformedWord text => "Expected 16 binary digits, found `" ++ text ++ "`"
  | lowBitsTooWide => "low 6 bits do not fit the signed field"
  | highBitsTooWide => "upper 10 bits do not fit the long field"
  | wordCount name emitted reserved =>
    "`" ++ name ++ "` emitted " ++ Text.decimal emitted ++ " words but " ++
      Text.decimal reserved ++ " were reserved"
  | other _ message => message

end Fault

/-- A fault and the line it was found on; lines count from one. -/
structure Error where
  fault : Fault
  line : Option Nat := none
  deriving DecidableEq

namespace Error

def kind (e : Error) : FaultKind := e.fault.kind

def message (e : Error) : String := e.fault.message

def text (e : Error) : String := e.kind.text ++ ": " ++ e.message

/-- Attaches a line unless one is known already. -/
def onLine (e : Error) (line : Nat) : Error := { e with line := e.line.or (some line) }

@[simp] theorem onLine_onLine (e : Error) (m n : Nat) : (e.onLine m).onLine n = e.onLine m := by
  cases e with
  | mk fault line => cases line <;> rfl

end Error

def Fault.onLine (fault : Fault) (line : Nat) : Error := { fault, line := some line }

def located {α : Type} (line : Nat) (result : Except Fault α) : Except Error α :=
  result.mapError (·.onLine line)

@[simp] theorem located_ok {α : Type} (line : Nat) (a : α) : located line (.ok a) = .ok a := rfl

@[simp] theorem located_error {α : Type} (line : Nat) (fault : Fault) :
    (located line (.error fault) : Except Error α) = .error (fault.onLine line) := rfl

end Risc16
