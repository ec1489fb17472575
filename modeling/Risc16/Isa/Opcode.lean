/-! # Operation codes

Eight operations, each with a three-bit code, a mnemonic and the format of its operands.
Mnemonics are looked up without regard to case.
-/
namespace Risc16

inductive Opcode where
  | add
  | addi
  | nand
  | lui
  | sw
  | lw
  | beq
  | jalr
  deriving DecidableEq

/-- The kinds of operands of an operation: three registers, two registers and a short
immediate, or one register and a long immediate. -/
inductive Format where
  | rrr
  | rri
  | rl
  deriving DecidableEq

namespace Opcode

def all : List Opcode := [add, addi, nand, lui, sw, lw, beq, jalr]

def bits : Opcode → BitVec 3
  | add => 0
  | addi => 1
  | nand => 2
  | lui => 3
  | sw => 4
  | lw => 5
  | beq => 6
  | jalr => 7

def code (op : Opcode) : Nat := op.bits.toNat

def ofBits (b : BitVec 3) : Opcode :=
  match b.toFin with
  | 0 => add
  | 1 => addi
  | 2 => nand
  | 3 => lui
  | 4 => sw
  | 5 => lw
  | 6 => beq
  | 7 => jalr

def ofCode? (n : Nat) : Option Opcode := all.find? (·.code == n)

def mnemonic : Opcode → String
  | add => "add"
  | addi => "addi"
  | nand => "nand"
  | lui => "lui"
  | sw => "sw"
  | lw => "lw"
  | beq => "beq"
  | jalr => "jalr"

def ofMnemonic? (name : String) : Option Opcode := all.find? (·.mnemonic == name.toLower)

def format : Opcode → Format
  | add | nand => .rrr
  | addi | sw | lw | beq | jalr => .rri
  | lui => .rl

@[simp] theorem ofBits_bits (op : Opcode) : ofBits op.bits = op := by cases op <;> rfl

@[simp] theorem bits_ofBits (b : BitVec 3) : (ofBits b).bits = b := by
  revert b
  decide

@[simp] theorem ofCode?_code (op : Opcode) : ofCode? op.code = some op := by cases op <;> rfl

end Opcode

end Risc16
