import Risc16.Isa.Immediate
import Risc16.Isa.Opcode
import Risc16.Isa.Register
import Risc16.Text.Paint

/-! # Instructions and their words

A word has the operation in its three high bits and the first register in the next three.  Below
them stand a second register and seven low bits, or one long immediate.  Encoding lays the fields
side by side; decoding cuts them out again, and is defined on every word because it ignores the
bits that an operation does not use.
-/
namespace Risc16

inductive Instr where
  | add (ra rb rc : Reg)
  | addi (ra rb : Reg) (imm : SignedImm)
  | nand (ra rb rc : Reg)
  | lui (ra : Reg) (imm : LongImm)
  | sw (ra rb : Reg) (imm : SignedImm)
  | lw (ra rb : Reg) (imm : SignedImm)
  | beq (ra rb : Reg) (imm : SignedImm)
  | jalr (ra rb : Reg)
  deriving DecidableEq

namespace Instr

def opcode : Instr → Opcode
  | add .. => .add
  | addi .. => .addi
  | nand .. => .nand
  | lui .. => .lui
  | sw .. => .sw
  | lw .. => .lw
  | beq .. => .beq
  | jalr .. => .jalr

/-- The word with a second register and seven low bits. -/
def shortWord (op : Opcode) (ra rb : Reg) (low : BitVec 7) : Word :=
  op.bits ++ ra.bits ++ rb.bits ++ low

def longWord (op : Opcode) (ra : Reg) (low : BitVec 10) : Word := op.bits ++ ra.bits ++ low

/-- The word of an instruction; bits without a use are zero. -/
def encode : Instr → Word
  | add ra rb rc => shortWord .add ra rb (0#4 ++ rc.bits)
  | addi ra rb imm => shortWord .addi ra rb imm.bits
  | nand ra rb rc => shortWord .nand ra rb (0#4 ++ rc.bits)
  | lui ra imm => longWord .lui ra imm.bits
  | sw ra rb imm => shortWord .sw ra rb imm.bits
  | lw ra rb imm => shortWord .lw ra rb imm.bits
  | beq ra rb imm => shortWord .beq ra rb imm.bits
  | jalr ra rb => shortWord .jalr ra rb 0

/-- The register in the three bits of a word from bit `start` on. -/
def regAt (w : Word) (start : Nat) : Reg := ⟨w.extractLsb' start 3⟩

/-- The instruction of a word; bits without a use are ignored. -/
def decode (w : Word) : Instr :=
  let ra := regAt w 10
  let rb := regAt w 7
  match Opcode.ofBits (w.extractLsb' 13 3) with
  | .add => add ra rb (regAt w 0)
  | .addi => addi ra rb (.ofWord w)
  | .nand => nand ra rb (regAt w 0)
  | .lui => lui ra (.ofWord w)
  | .sw => sw ra rb (.ofWord w)
  | .lw => lw ra rb (.ofWord w)
  | .beq => beq ra rb (.ofWord w)
  | .jalr => jalr ra rb

/-- Here and below: each field that was laid into a word is cut out of it unchanged. -/
theorem op_shortWord (op : Opcode) (ra rb : Reg) (low : BitVec 7) :
    (shortWord op ra rb low).extractLsb' 13 3 = op.bits := by
  refine (BitVec.extractLsb'_append_eq_of_le (by omega)).trans ?_
  refine (BitVec.extractLsb'_append_eq_of_le (by omega)).trans ?_
  refine (BitVec.extractLsb'_append_eq_of_le (by omega)).trans ?_
  exact BitVec.extractLsb'_eq_self

theorem ra_shortWord (op : Opcode) (ra rb : Reg) (low : BitVec 7) :
    regAt (shortWord op ra rb low) 10 = ra := by
  refine congrArg Reg.mk ?_
  refine (BitVec.extractLsb'_append_eq_of_le (by omega)).trans ?_
  refine (BitVec.extractLsb'_append_eq_of_le (by omega)).trans ?_
  refine (BitVec.extractLsb'_append_eq_of_add_le (by omega)).trans ?_
  exact BitVec.extractLsb'_eq_self

theorem rb_shortWord (op : Opcode) (ra rb : Reg) (low : BitVec 7) :
    regAt (shortWord op ra rb low) 7 = rb := by
  refine congrArg Reg.mk ?_
  refine (BitVec.extractLsb'_append_eq_of_le (by omega)).trans ?_
  refine (BitVec.extractLsb'_append_eq_of_add_le (by omega)).trans ?_
  exact BitVec.extractLsb'_eq_self

theorem rc_shortWord (op : Opcode) (ra rb rc : Reg) :
    regAt (shortWord op ra rb (0#4 ++ rc.bits)) 0 = rc := by
  refine congrArg Reg.mk ?_
  refine (BitVec.extractLsb'_append_eq_of_add_le (by omega)).trans ?_
  refine (BitVec.extractLsb'_append_eq_of_add_le (by omega)).trans ?_
  exact BitVec.extractLsb'_eq_self

theorem imm_shortWord (op : Opcode) (ra rb : Reg) (imm : SignedImm) :
    SignedImm.ofWord (shortWord op ra rb imm.bits) = imm := by
  refine congrArg SignedImm.mk ?_
  refine (BitVec.extractLsb'_append_eq_of_add_le (by omega)).trans ?_
  exact BitVec.extractLsb'_eq_self

theorem op_longWord (op : Opcode) (ra : Reg) (low : BitVec 10) :
    (longWord op ra low).extractLsb' 13 3 = op.bits := by
  refine (BitVec.extractLsb'_append_eq_of_le (by omega)).trans ?_
  refine (BitVec.extractLsb'_append_eq_of_le (by omega)).trans ?_
  exact BitVec.extractLsb'_eq_self

theorem ra_longWord (op : Opcode) (ra : Reg) (low : BitVec 10) :
    regAt (longWord op ra low) 10 = ra := by
  refine congrArg Reg.mk ?_
  refine (BitVec.extractLsb'_append_eq_of_le (by omega)).trans ?_
  refine (BitVec.extractLsb'_append_eq_of_add_le (by omega)).trans ?_
  exact BitVec.extractLsb'_eq_self

theorem imm_longWord (op : Opcode) (ra : Reg) (imm : LongImm) :
    LongImm.ofWord (longWord op ra imm.bits) = imm := by
  refine congrArg LongImm.mk ?_
  refine (BitVec.extractLsb'_append_eq_of_add_le (by omega)).trans ?_
  exact BitVec.extractLsb'_eq_self

@[simp] theorem decode_encode (i : Instr) : decode i.encode = i := by
  cases i <;> simp only [encode, decode, op_shortWord, ra_shortWord, rb_shortWord, rc_shortWord,
    imm_shortWord, op_longWord, ra_longWord, imm_longWord, Opcode.ofBits_bits]

def operands : Instr → List String
  | add ra rb rc | nand ra rb rc => [ra.text, rb.text, rc.text]
  | addi ra rb imm | sw ra rb imm | lw ra rb imm | beq ra rb imm => [ra.text, rb.text, imm.text]
  | lui ra imm => [ra.text, imm.text]
  | jalr ra rb => [ra.text, rb.text]

def text (i : Instr) : String := i.opcode.mnemonic ++ " " ++ ", ".intercalate i.operands

def registerColumns (op : Opcode) (ra rb rc : String) : List Text.Span :=
  [.coloured .red (Text.padRight 5 op.mnemonic),
    .coloured .blue (Text.padRight 3 ra ++ " " ++ Text.padRight 3 rb ++ " " ++ Text.padRight 3 rc)]

def immediateColumns (op : Opcode) (ra rb imm : String) : List Text.Span :=
  [.coloured .red (Text.padRight 5 op.mnemonic),
    .coloured .blue (Text.padRight 3 ra ++ " " ++ Text.padRight 3 rb ++ " "),
    .coloured .yellow (Text.padRight 5 imm)]

def columns : Instr → List Text.Span
  | add ra rb rc => registerColumns .add ra.text rb.text rc.text
  | addi ra rb imm => immediateColumns .addi ra.text rb.text imm.text
  | nand ra rb rc => registerColumns .nand ra.text rb.text rc.text
  | lui ra imm => immediateColumns .lui ra.text "" imm.text
  | sw ra rb imm => immediateColumns .sw ra.text rb.text imm.text
  | lw ra rb imm => immediateColumns .lw ra.text rb.text imm.text
  | beq ra rb imm => immediateColumns .beq ra.text rb.text imm.text
  | jalr ra rb => registerColumns .jalr ra.text rb.text ""

def painted (i : Instr) : String := Text.paint i.columns

end Instr

end Risc16
