import Risc16.Asm.Survey

/-! # The emission of code

With all labels bound, lines are taken in order once more: operands that are labels are replaced,
the instruction is expanded and its words are placed.  Emission stops at the first line that
fails and keeps what was emitted and warned about up to there.
-/
namespace Risc16

structure Placed where
  address : Nat
  line : Nat
  instr : Instr
  deriving DecidableEq

/-- An address used as a number. -/
structure Warning where
  line : Nat
  raw : String
  label : String
  address : Nat
  deriving DecidableEq

def Warning.message (w : Warning) : String :=
  "using label address as immediate value in non-branch instruction (`" ++ w.label ++ "` = " ++
    Text.decimal w.address ++ ")"

/-- What an operand reads as for an instruction at address `pc`.  A branch counts from the next
instruction.  The replacement is not looked up again. -/
def SymbolTable.resolve (table : SymbolTable) (mnemonic : Mnemonic) (pc : Nat) (operand : String) :
    String :=
  match table.get? operand with
  | some (.address addr) =>
    if mnemonic.isBranch then Text.decimal ((addr : Int) - pc - 1) else Text.decimal addr
  | some (.literal text) => text
  | none => operand

def SymbolTable.address? (table : SymbolTable) (operand : String) : Option Nat :=
  match table.get? operand with
  | some (.address addr) => some addr
  | some (.literal _) | none => none

namespace Line

/-- Replaces the labels among the operands of an instruction; the mnemonic stays. -/
def resolve (table : SymbolTable) (pc : Nat) (line : Line) : Line :=
  match line.statement with
  | .instruction name operands => match Mnemonic.parse name with
    | .ok mnemonic =>
      { line with statement := .instruction name (operands.map (table.resolve mnemonic pc)) }
    | .error _ => line
  | .blank | .directive .. => line

/-- One warning for each operand of a known instruction other than a branch that stands for an
address. -/
def warnings (table : SymbolTable) (line : Line) : List Warning :=
  match line.statement with
  | .instruction name operands => match Mnemonic.parse name with
    | .ok mnemonic =>
      if mnemonic.isBranch then []
      else operands.filterMap fun operand =>
        (table.address? operand).map fun address =>
          { line := line.number, raw := line.raw, label := operand, address }
    | .error _ => []
  | .blank | .directive .. => []

def expand (line : Line) : Except Fault (List Instr) :=
  match line.statement with
  | .instruction name operands => do
    let mnemonic ← Mnemonic.parse name
    let instrs ← mnemonic.expand operands
    if instrs.length = mnemonic.width then return instrs
    else throw (.wordCount name instrs.length mnemonic.width)
  | .blank | .directive .. => .ok []

end Line

def place (line : Nat) (address : Nat) : List Instr → List Placed
  | [] => []
  | instr :: rest => { address, line, instr } :: place line (address + 1) rest

@[simp] theorem length_place (line address : Nat) (instrs : List Instr) :
    (place line address instrs).length = instrs.length := by
  induction instrs generalizing address with
  | nil => rfl
  | cons _ _ ih => simp [place, ih]

/-- The resolved lines, their code and the warnings, up to a failure if there is one. -/
structure Emission where
  lines : List Line := []
  code : List Placed := []
  warnings : List Warning := []
  failure : Option Error := none

def Emission.ofLines (table : SymbolTable) (pc : Nat) : List Line → Emission
  | [] => {}
  | line :: rest =>
    let resolved := line.resolve table pc
    match resolved.expand with
    | .error fault =>
      { warnings := line.warnings table, failure := some (fault.onLine line.number) }
    | .ok instrs =>
      let later := ofLines table (pc + instrs.length) rest
      { lines := resolved :: later.lines
        code := place line.number pc instrs ++ later.code
        warnings := line.warnings table ++ later.warnings
        failure := later.failure }

end Risc16
