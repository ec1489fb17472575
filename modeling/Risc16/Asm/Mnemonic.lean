import Risc16.Asm.Operand
import Risc16.Isa.Instr

/-! # Mnemonics and their expansion

A mnemonic names an operation of the machine or a shorthand that stands for other instructions.
Its width is known from the name alone, so that addresses can be assigned before operands are read.
-/
namespace Risc16

/-- Names that stand for machine instructions: `nop` and `halt` for a fixed one, `lli` for an
addition of the low six bits, `movi` for a load of the high ten and then the low six bits. -/
inductive Shorthand where
  | nop
  | halt
  | lli
  | movi
  deriving DecidableEq

namespace Shorthand

def all : List Shorthand := [nop, halt, lli, movi]

def name : Shorthand → String
  | nop => "nop"
  | halt => "halt"
  | lli => "lli"
  | movi => "movi"

def ofName? (name : String) : Option Shorthand := all.find? (·.name == name.toLower)

end Shorthand

inductive Mnemonic where
  | machine (op : Opcode)
  | shorthand (s : Shorthand)
  deriving DecidableEq

namespace Mnemonic

def parse (name : String) : Except Fault Mnemonic :=
  match Opcode.ofMnemonic? name with
  | some op => .ok (machine op)
  | none => match Shorthand.ofName? name with
    | some s => .ok (shorthand s)
    | none => .error (.unknownOpcode name)

def name : Mnemonic → String
  | machine op => op.mnemonic
  | shorthand s => s.name

def width : Mnemonic → Nat
  | shorthand .movi => 2
  | _ => 1

/-- Branches take a label as a distance, everything else takes it as an address. -/
def isBranch (m : Mnemonic) : Bool := m == machine .beq

end Mnemonic

/-- The most operands that an operation takes.  A third operand of `jalr` is read over. -/
def Format.arity : Format → Nat
  | rrr | rri => 3
  | rl => 2

open Operand in
def Instr.ofOperands (op : Opcode) (operands : List String) : Except Fault Instr := do
  atMost op.format.arity operands
  match op with
  | .add =>
    return add (← register operands 0) (← register operands 1) (← register operands 2)
  | .addi =>
    return addi (← register operands 0) (← register operands 1) (← signedImm operands 2)
  | .nand =>
    return nand (← register operands 0) (← register operands 1) (← register operands 2)
  | .lui => return lui (← register operands 0) (← longImm operands 1)
  | .sw =>
    return sw (← register operands 0) (← register operands 1) (← signedImm operands 2)
  | .lw =>
    return lw (← register operands 0) (← register operands 1) (← signedImm operands 2)
  | .beq =>
    return beq (← register operands 0) (← register operands 1) (← signedImm operands 2)
  | .jalr => return jalr (← register operands 0) (← register operands 1)

namespace Shorthand
open Operand

/-- Adds the low six bits of a word to a register. -/
def addLow (reg : Reg) (w : Word) : Except Fault Instr :=
  match SignedImm.ofInt? (w.extractLsb' 0 6).toNat with
  | some imm => .ok (.addi reg reg imm)
  | none => .error .lowBitsTooWide

/-- Loads the high ten bits of a word into a register. -/
def loadHigh (reg : Reg) (w : Word) : Except Fault Instr :=
  match LongImm.ofInt? (w.extractLsb' 6 10).toNat with
  | some imm => .ok (.lui reg imm)
  | none => .error .highBitsTooWide

/-- The instructions that a shorthand stands for; `halt` reads over its operands. -/
def expand (s : Shorthand) (operands : List String) : Except Fault (List Instr) :=
  match s with
  | nop => do
    atMost 0 operands
    return [.add .zero .zero .zero]
  | halt => return [.jalr .zero .zero]
  | lli => do
    atMost 2 operands
    let reg ← register operands 0
    let w ← word operands 1
    return [← addLow reg w]
  | movi => do
    atMost 2 operands
    let reg ← register operands 0
    let w ← word operands 1
    return [← loadHigh reg w, ← addLow reg w]

end Shorthand

def Mnemonic.expand (m : Mnemonic) (operands : List String) : Except Fault (List Instr) :=
  match m with
  | machine op => return [← Instr.ofOperands op operands]
  | shorthand s => s.expand operands

end Risc16
