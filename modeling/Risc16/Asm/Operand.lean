import Risc16.Asm.Literal
import Risc16.Isa.Register

/-! # Operands

Operands are read by position.  Too many of them is one fault, whatever they are; a missing one is
the fault of the field that needs it.
-/
namespace Risc16.Operand

/-- Reads a register: an optional `r` or `R` and a decimal numeral below eight. -/
def parseRegister (text : String) : Except Fault Reg :=
  let digits := match text.toList with
    | 'r' :: rest | 'R' :: rest => rest
    | cs => cs
  match Text.numeral? 10 digits with
  | none => .error (.registerNotInteger text)
  | some n => match Reg.ofIndex? n with
    | some reg => .ok reg
    | none => .error (.registerOutOfRange text)

def atMost (count : Nat) (operands : List String) : Except Fault Unit :=
  match operands[count]? with
  | some extra => .error (.unexpectedOperand extra)
  | none => .ok ()

def register (operands : List String) (index : Nat) : Except Fault Reg :=
  match operands[index]? with
  | some text => parseRegister text
  | none => .error .missingRegister

def number (operands : List String) (index : Nat) : Except Fault Int :=
  match operands[index]? with
  | some text => Literal.parse text
  | none => .error .missingImmediate

def signedImm (operands : List String) (index : Nat) : Except Fault SignedImm := do
  let value ← number operands index
  match SignedImm.ofInt? value with
  | some imm => .ok imm
  | none => .error (.signedOutOfRange value)

def longImm (operands : List String) (index : Nat) : Except Fault LongImm := do
  let value ← number operands index
  match LongImm.ofInt? value with
  | some imm => .ok imm
  | none => .error (.longOutOfRange value)

/-- The sixteen-bit pattern at a position, of a number read with or without sign. -/
def word (operands : List String) (index : Nat) : Except Fault Word := do
  let value ← number operands index
  if Word.least ≤ value ∧ value ≤ Word.greatest then .ok (BitVec.ofInt 16 value)
  else .error (.wordOutOfRange value)

theorem atMost_eq_ok_iff (count : Nat) (operands : List String) :
    atMost count operands = .ok () ↔ operands.length ≤ count := by
  unfold atMost
  split
  next extra h => simpa using (List.getElem?_eq_some_iff.mp h).1
  next h => simpa using h

end Risc16.Operand
