import Risc16.Asm.Line
import Risc16.Asm.Mnemonic
import Risc16.Asm.Symbol

/-! # The survey of a source

The survey walks the lines once, assigns addresses and binds labels.  An instruction takes as many
words as its mnemonic says, and one if the mnemonic is unknown: that fault is left to the emission.
Directives are checked here, whether labelled or not.
-/
namespace Risc16

def Line.width (line : Line) : Nat :=
  match line.statement with
  | .instruction name _ => match Mnemonic.parse name with
    | .ok mnemonic => mnemonic.width
    | .error _ => 1
  | .blank | .directive .. => 0

/-- The symbol that a directive gives to its label.  A `.fill` of a label that is already bound
takes over its symbol, any other `.fill` stands for its operand as written, `.space` for zero. -/
def directiveSymbol (table : SymbolTable) (name : String) (operands : List String) :
    Except Fault Symbol :=
  if name.toLower = ".fill" then
    match operands with
    | [] => .error .fillWithoutValue
    | value :: _ => .ok ((table.get? value).getD (.literal value))
  else if name.toLower = ".space" then .ok (.literal "0")
  else .error (.unknownDirective name)

/-- The bindings so far and the address of the next word. -/
structure Survey where
  table : SymbolTable
  size : Nat
  deriving DecidableEq

namespace Survey

def start : Survey := ⟨.empty, 0⟩

def symbol (s : Survey) (line : Line) : Except Fault Symbol :=
  match line.statement with
  | .directive name operands => directiveSymbol s.table name operands
  | .blank | .instruction .. => .ok (.address s.size)

def bindLabel (s : Survey) (line : Line) (symbol : Symbol) : Except Error SymbolTable :=
  match line.label with
  | some name => s.table.insert { name, line := line.number, symbol }
  | none => .ok s.table

def step (s : Survey) (line : Line) : Except Error Survey := do
  let symbol ← located line.number (s.symbol line)
  let table ← s.bindLabel line symbol
  return { table, size := s.size + line.width }

/-- Takes in lines until one fails, and keeps what was reached. -/
def advance (s : Survey) : List Line → Survey × Option Error
  | [] => (s, none)
  | line :: rest => match s.step line with
    | .ok next => next.advance rest
    | .error e => (s, some e)

def ofLines (lines : List Line) : Except Error Survey :=
  match start.advance lines with
  | (s, none) => .ok s
  | (_, some e) => .error e

end Survey

end Risc16
