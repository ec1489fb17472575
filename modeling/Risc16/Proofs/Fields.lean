import Risc16.Proofs.Location

/-! # Operands and the fields they fill

An operation fills certain fields of its word, and its operands are read into them one by one from
the left.  Operands that are too many are a fault before any of them is read.  Otherwise the first
field that has no operand, or one that it does not take, is at fault.  The fields lie side by side
in the word, so that the word is a sum with one term for each of them.
-/
namespace Risc16

/-- The fields of a word below its operation: three registers, or an immediate in the place of the
last one or the last two. -/
inductive Field where
  | first
  | second
  | third
  | short
  | long
  deriving DecidableEq

def Opcode.fields : Opcode → List Field
  | add | nand => [.first, .second, .third]
  | addi | sw | lw | beq => [.first, .second, .short]
  | lui => [.first, .long]
  | jalr => [.first, .second]

def Instr.values : Instr → List Int
  | add ra rb rc | nand ra rb rc => [ra.index, rb.index, rc.index]
  | addi ra rb imm | sw ra rb imm | lw ra rb imm | beq ra rb imm =>
    [ra.index, rb.index, imm.value]
  | lui ra imm => [ra.index, imm.value]
  | jalr ra rb => [ra.index, rb.index]

namespace Operand

def numberIn (low high : Int) (outside : Int → Fault) (operands : List String) (index : Nat) :
    Except Fault Int := do
  let v ← number operands index
  if low ≤ v ∧ v ≤ high then .ok v else .error (outside v)

variable {operands : List String} {index : Nat}

/-- An immediate that exists for the numbers of a range decides whether a number is in it. -/
theorem elim_eq_ite {α : Type} {imm? : Option α} {value : α → Int} {low high v : Int}
    (hsome : ∀ imm, imm? = some imm → value imm = v) (hnone : imm? = none ↔ v < low ∨ high < v)
    (fault : Fault) :
    imm?.elim (Except.error fault) (fun imm => .ok (value imm)) =
      if low ≤ v ∧ v ≤ high then Except.ok v else .error fault := by
  cases himm : imm? with
  | some imm =>
    have hr : ¬ (v < low ∨ high < v) := by simp [← hnone, himm]
    rw [if_pos (by omega), Option.elim_some, hsome imm himm]
  | none =>
    have hr := hnone.mp himm
    rw [if_neg (by omega), Option.elim_none]

theorem value_signedImm : SignedImm.value <$> signedImm operands index =
    numberIn (-64) 63 .signedOutOfRange operands index := by
  rw [signedImm, numberIn, map_bind]
  refine bind_congr fun v => Eq.trans ?_
    (elim_eq_ite (fun _ => SignedImm.value_of_ofInt?) (SignedImm.ofInt?_eq_none_iff v) _)
  cases SignedImm.ofInt? v <;> rfl

theorem value_longImm : (fun imm : LongImm => (imm.value : Int)) <$> longImm operands index =
    numberIn 0 1023 .longOutOfRange operands index := by
  rw [longImm, numberIn, map_bind]
  refine bind_congr fun v => Eq.trans ?_
    (elim_eq_ite (fun _ => LongImm.value_of_ofInt?) (LongImm.ofInt?_eq_none_iff v) _)
  cases LongImm.ofInt? v <;> rfl

variable {low high v : Int} {outside : Int → Fault} {fault : Fault}

theorem number_eq_ok_iff : number operands index = .ok v ↔
    ∃ text ∈ operands[index]?, Literal.parse text = .ok v := by
  unfold number
  cases operands[index]? <;> simp

theorem number_eq_error_iff : number operands index = .error fault ↔
    (operands[index]? = none ∧ fault = .missingImmediate) ∨
      ∃ text ∈ operands[index]?, Literal.parse text = .error fault := by
  unfold number
  cases operands[index]? <;> simp [eq_comm]

theorem numberIn_eq_ok_iff : numberIn low high outside operands index = .ok v ↔
    ∃ text ∈ operands[index]?, Literal.parse text = .ok v ∧ low ≤ v ∧ v ≤ high := by
  rw [numberIn, bind_eq_ok_iff]
  constructor
  · rintro ⟨w, hw, hv⟩
    split at hv
    next hr =>
      cases hv
      obtain ⟨text, ht, hl⟩ := number_eq_ok_iff.mp hw
      exact ⟨text, ht, hl, hr⟩
    · cases hv
  · rintro ⟨text, ht, hl, hr⟩
    exact ⟨v, number_eq_ok_iff.mpr ⟨text, ht, hl⟩, if_pos hr⟩

theorem numberIn_eq_error_iff : numberIn low high outside operands index = .error fault ↔
    (operands[index]? = none ∧ fault = .missingImmediate) ∨ ∃ text ∈ operands[index]?,
      Literal.parse text = .error fault ∨
        ∃ v, Literal.parse text = .ok v ∧ ¬ (low ≤ v ∧ v ≤ high) ∧ fault = outside v := by
  rw [numberIn, bind_eq_error_iff, number_eq_error_iff]
  constructor
  · rintro ((hn | ⟨text, ht, hl⟩) | ⟨w, hw, hf⟩)
    · exact .inl hn
    · exact .inr ⟨text, ht, .inl hl⟩
    · obtain ⟨text, ht, hl⟩ := number_eq_ok_iff.mp hw
      split at hf
      · cases hf
      next hr =>
        cases hf
        exact .inr ⟨text, ht, .inr ⟨w, hl, hr, rfl⟩⟩
  · rintro (hn | ⟨text, ht, hl | ⟨w, hl, hr, rfl⟩⟩)
    · exact .inl (.inl hn)
    · exact .inl (.inr ⟨text, ht, hl⟩)
    · exact .inr ⟨w, number_eq_ok_iff.mpr ⟨text, ht, hl⟩, if_neg hr⟩

theorem register_eq_ok_iff {reg : Reg} : register operands index = .ok reg ↔
    ∃ text ∈ operands[index]?, parseRegister text = .ok reg := by
  unfold register
  cases operands[index]? <;> simp

theorem register_eq_error_iff : register operands index = .error fault ↔
    (operands[index]? = none ∧ fault = .missingRegister) ∨
      ∃ text ∈ operands[index]?, parseRegister text = .error fault := by
  unfold register
  cases operands[index]? <;> simp [eq_comm]

end Operand

namespace Field

/-- The field takes what stands at its position among the operands, and has this value then. -/
def Takes (field : Field) (operand : Option String) (v : Int) : Prop :=
  match field with
  | first | second | third =>
    ∃ text ∈ operand, ∃ reg, Operand.parseRegister text = .ok reg ∧ v = reg.index
  | short => ∃ text ∈ operand, Literal.parse text = .ok v ∧ -64 ≤ v ∧ v ≤ 63
  | long => ∃ text ∈ operand, Literal.parse text = .ok v ∧ 0 ≤ v ∧ v ≤ 1023

/-- The operand of the field is missing, or the field does not take it, and this is the fault. -/
def Refuses (field : Field) (operand : Option String) (fault : Fault) : Prop :=
  match field with
  | first | second | third => (operand = none ∧ fault = .missingRegister) ∨
      ∃ text ∈ operand, Operand.parseRegister text = .error fault
  | short => (operand = none ∧ fault = .missingImmediate) ∨
      ∃ text ∈ operand, Literal.parse text = .error fault ∨
        ∃ v, Literal.parse text = .ok v ∧ ¬ (-64 ≤ v ∧ v ≤ 63) ∧ fault = .signedOutOfRange v
  | long => (operand = none ∧ fault = .missingImmediate) ∨
      ∃ text ∈ operand, Literal.parse text = .error fault ∨
        ∃ v, Literal.parse text = .ok v ∧ ¬ (0 ≤ v ∧ v ≤ 1023) ∧ fault = .longOutOfRange v

def kind : Field → FaultKind
  | first | second | third => .register
  | short | long => .immediate

def read (operands : List String) (index : Nat) : Field → Except Fault Int
  | first | second | third => (fun reg => (reg.index : Int)) <$> Operand.register operands index
  | short => SignedImm.value <$> Operand.signedImm operands index
  | long => (fun imm => (imm.value : Int)) <$> Operand.longImm operands index

/-- Fields are filled in order, so those before a field give it its position. -/
def readAfter (operands : List String) (before : List Field) (field : Field) : Except Fault Int :=
  field.read operands before.length

variable {operands : List String} {index : Nat} {field : Field} {v : Int} {fault : Fault}

theorem read_eq_ok_iff : field.read operands index = .ok v ↔ field.Takes operands[index]? v := by
  cases field with
  | first | second | third =>
    rw [read, map_eq_ok_iff]
    constructor
    · rintro ⟨reg, hr, rfl⟩
      obtain ⟨text, ht, hp⟩ := Operand.register_eq_ok_iff.mp hr
      exact ⟨text, ht, reg, hp, rfl⟩
    · rintro ⟨text, ht, reg, hp, rfl⟩
      exact ⟨reg, Operand.register_eq_ok_iff.mpr ⟨text, ht, hp⟩, rfl⟩
  | short =>
    rw [read, Operand.value_signedImm]
    exact Operand.numberIn_eq_ok_iff
  | long =>
    rw [read, Operand.value_longImm]
    exact Operand.numberIn_eq_ok_iff

theorem read_eq_error_iff :
    field.read operands index = .error fault ↔ field.Refuses operands[index]? fault := by
  cases field with
  | first | second | third =>
    rw [read, map_eq_error_iff]
    exact Operand.register_eq_error_iff
  | short =>
    rw [read, Operand.value_signedImm]
    exact Operand.numberIn_eq_error_iff
  | long =>
    rw [read, Operand.value_longImm]
    exact Operand.numberIn_eq_error_iff

theorem kind_of_read (h : field.read operands index = .error fault) : fault.kind = field.kind := by
  cases field with
  | first | second | third =>
    exact List.mem_singleton.mp (Operand.failsOnlyAs_register _ _ fault (map_eq_error_iff.mp h))
  | short =>
    exact List.mem_singleton.mp (Operand.failsOnlyAs_signedImm _ _ fault (map_eq_error_iff.mp h))
  | long =>
    exact List.mem_singleton.mp (Operand.failsOnlyAs_longImm _ _ fault (map_eq_error_iff.mp h))

theorem readAfter_take {fields : List Field} {k : Nat} (h : fields[k]? = some field) :
    readAfter operands (fields.take k) field = field.read operands k := by
  have hlt : k < fields.length := (List.getElem?_eq_some_iff.mp h).1
  rw [readAfter, List.length_take, Nat.min_eq_left (Nat.le_of_lt hlt)]

theorem Takes.ne_none {operand : Option String} (h : field.Takes operand v) : operand ≠ none := by
  rintro rfl
  cases field <;> simp [Takes] at h

theorem takes_of_yields {fields : List Field} {vs : List Int} {k : Nat}
    (h : Yields (readAfter operands) fields vs) (hf : fields[k]? = some field)
    (hv : vs[k]? = some v) : field.Takes operands[k]? v := by
  have hr := h.result k field v hf hv
  rw [readAfter_take hf] at hr
  exact read_eq_ok_iff.mp hr

theorem failsFirst_iff {fields : List Field} {k : Nat} :
    FailsFirst (readAfter operands) fields k fault ↔
      ∃ field : Field, fields[k]? = some field ∧
        (∀ j < k, ∀ other : Field, fields[j]? = some other → ∃ v, other.Takes operands[j]? v) ∧
        field.Refuses operands[k]? fault ∧ fault.kind = field.kind := by
  constructor
  · rintro ⟨⟨field, hf, he⟩, hp⟩
    rw [readAfter_take hf] at he
    refine ⟨field, hf, ?_, read_eq_error_iff.mp he, kind_of_read he⟩
    intro j hj other ho
    obtain ⟨v, hv⟩ := hp j hj other ho
    rw [readAfter_take ho] at hv
    exact ⟨v, read_eq_ok_iff.mp hv⟩
  · rintro ⟨field, hf, hp, hr, -⟩
    refine ⟨⟨field, hf, (readAfter_take hf).trans (read_eq_error_iff.mpr hr)⟩, ?_⟩
    intro j hj other ho
    obtain ⟨v, hv⟩ := hp j hj other ho
    exact ⟨v, (readAfter_take ho).trans (read_eq_ok_iff.mpr hv)⟩

end Field

namespace Opcode

theorem arity_format (op : Opcode) : op.format.arity = if op = .lui then 2 else 3 := by
  cases op <;> rfl

/-- There are three operands, except that `lui` takes two and `jalr` can do with two. -/
theorem count_iff (op : Opcode) (n : Nat) :
    op.fields.length ≤ n ∧ n ≤ op.format.arity ↔
      (n = 3 ∧ op ≠ .lui) ∨ (n = 2 ∧ (op = .lui ∨ op = .jalr)) := by
  cases op <;> simp [fields, format, Format.arity] <;> omega

end Opcode

namespace Instr

open Operand

variable {op : Opcode} {operands : List String} {instr : Instr} {fault : Fault}

theorem values_ofOperands (op : Opcode) (operands : List String) :
    values <$> ofOperands op operands =
      atMost op.format.arity operands >>= fun _ =>
        checkAll (Field.readAfter operands) op.fields := by
  cases op <;>
    simp only [ofOperands, Opcode.fields, checkAll, Field.readAfter, Field.read, map_bind,
      bind_map_left, map_pure, pure_bind, List.length_cons, List.length_nil, values, bind_assoc] <;>
    rfl

theorem opcode_of_ofOperands (h : ofOperands op operands = .ok instr) : instr.opcode = op := by
  cases op <;> simp only [ofOperands, bind_eq_ok_iff] at h
  case add | nand | addi | sw | lw | beq =>
    obtain ⟨_, -, _, -, _, -, _, -, ⟨⟩⟩ := h
    rfl
  case lui | jalr =>
    obtain ⟨_, -, _, -, _, -, ⟨⟩⟩ := h
    rfl

theorem yields_values (h : ofOperands op operands = .ok instr) :
    operands.length ≤ op.format.arity ∧
      Yields (Field.readAfter operands) op.fields instr.values := by
  have hv : values <$> ofOperands op operands = .ok instr.values :=
    map_eq_ok_iff.mpr ⟨instr, h, rfl⟩
  rw [values_ofOperands] at hv
  obtain ⟨_, hm, hc⟩ := bind_eq_ok_iff.mp hv
  exact ⟨(atMost_eq_ok_iff _ _).mp hm, checkAll_eq_ok_iff.mp hc⟩

/-- The first operand too many is reported, whatever the others are. -/
theorem ofOperands_of_surplus {extra : String} (h : operands[op.format.arity]? = some extra) :
    ofOperands op operands = .error (.unexpectedOperand extra) := by
  have hm : atMost op.format.arity operands = .error (.unexpectedOperand extra) := by
    simp only [atMost, h]
  rw [← map_eq_error_iff (f := values), values_ofOperands, hm]
  rfl

theorem ofOperands_eq_error_iff (h : operands.length ≤ op.format.arity) :
    ofOperands op operands = .error fault ↔
      ∃ k, FailsFirst (Field.readAfter operands) op.fields k fault := by
  have hm := (atMost_eq_ok_iff _ _).mpr h
  rw [← checkAll_eq_error_iff, ← map_eq_error_iff (f := values), values_ofOperands, hm]
  rfl

theorem exists_ofOperands_iff : (∃ instr, ofOperands op operands = .ok instr) ↔
    ((operands.length = 3 ∧ op ≠ .lui) ∨ (operands.length = 2 ∧ (op = .lui ∨ op = .jalr))) ∧
      ∀ (k : Nat) (field : Field), op.fields[k]? = some field →
        ∃ v, field.Takes operands[k]? v := by
  rw [← Opcode.count_iff]
  constructor
  · rintro ⟨instr, h⟩
    obtain ⟨hmost, hv⟩ := yields_values h
    have htakes (k : Nat) (field : Field) (hf : op.fields[k]? = some field) :
        ∃ v, field.Takes operands[k]? v := by
      have hlt : k < instr.values.length := hv.length_eq ▸ (List.getElem?_eq_some_iff.mp hf).1
      exact ⟨_, Field.takes_of_yields hv hf (List.getElem?_eq_getElem hlt)⟩
    -- With too few operands, the field behind the last of them would have nothing to take.
    refine ⟨⟨Nat.le_of_not_lt fun hlt => ?_, hmost⟩, htakes⟩
    obtain ⟨v, hv⟩ := htakes _ _ (List.getElem?_eq_getElem hlt)
    rw [List.getElem?_eq_none (Nat.le_refl _)] at hv
    exact hv.ne_none rfl
  · rintro ⟨⟨-, hmost⟩, htakes⟩
    cases h : ofOperands op operands with
    | ok instr => exact ⟨instr, rfl⟩
    | error fault =>
      obtain ⟨k, hk⟩ := (ofOperands_eq_error_iff hmost).mp h
      obtain ⟨field, hf, -, hr, -⟩ := Field.failsFirst_iff.mp hk
      obtain ⟨v, hv⟩ := htakes k field hf
      have he := Field.read_eq_error_iff.mpr hr
      rw [Field.read_eq_ok_iff.mpr hv] at he
      cases he

/-- Operands behind those that fill fields are read over. -/
theorem ofOperands_take (h : operands.length ≤ op.format.arity) :
    ofOperands op (operands.take op.fields.length) = ofOperands op operands := by
  cases op with
  | add | nand | addi | sw | lw | beq | lui => exact congrArg _ (List.take_of_length_le h)
  | jalr =>
    have hle : (operands.take 2).length ≤ 3 :=
      Nat.le_trans (List.length_take_le 2 operands) (by decide)
    have hfull : atMost 3 operands = .ok () := (atMost_eq_ok_iff _ _).mpr h
    have hfront : atMost 3 (operands.take 2) = .ok () := (atMost_eq_ok_iff _ _).mpr hle
    have hregister {k : Nat} (hk : k < 2) :
        register (operands.take 2) k = register operands k := by
      rw [register, register, List.getElem?_take_of_lt hk]
    have hfirst := hregister (k := 0) (by decide)
    have hsecond := hregister (k := 1) (by decide)
    change ofOperands .jalr (operands.take 2) = ofOperands .jalr operands
    simp only [ofOperands, Opcode.format, Format.arity, hfull, hfront, hfirst, hsecond]

end Instr

namespace Field

/-- The lowest bit of a field. -/
def start : Field → Nat
  | first => 10
  | second => 7
  | third | short | long => 0

def width : Field → Nat
  | first | second | third => 3
  | short => 7
  | long => 10

/-- What a value adds to the word in this field, in two's complement if it is negative. -/
def part (field : Field) (v : Int) : Nat :=
  (v % (2 ^ field.width : Nat)).toNat * 2 ^ field.start

theorem part_lt (field : Field) (v : Int) : field.part v < 2 ^ (field.start + field.width) := by
  have hpos : (0 : Int) < (2 ^ field.width : Nat) := Int.natCast_pos.mpr (Nat.two_pow_pos _)
  have hlt : (v % (2 ^ field.width : Nat)).toNat < 2 ^ field.width := by
    rw [Int.toNat_lt (Int.emod_nonneg v (Int.ne_of_gt hpos))]
    exact Int.emod_lt_of_pos v hpos
  rw [part, Nat.pow_add, Nat.mul_comm]
  exact Nat.mul_lt_mul_of_pos_left hlt (Nat.two_pow_pos _)

theorem part_natCast (field : Field) {n : Nat} (h : n < 2 ^ field.width) :
    field.part n = n * 2 ^ field.start := by
  have hm : (n : Int) % (2 ^ field.width : Nat) = n :=
    Int.emod_eq_of_lt (Int.natCast_nonneg n) (Int.ofNat_lt.mpr h)
  rw [part, hm, Int.toNat_natCast]

theorem part_short (imm : SignedImm) : short.part imm.value = imm.bits.toNat := by
  have hm : imm.value % (2 ^ 7 : Nat) = imm.bits.toNat := by
    have hlt := imm.bits.isLt
    rw [SignedImm.value, BitVec.toInt_eq_toNat_bmod]
    refine (Int.bmod_emod (m := 2 ^ 7)).trans ?_
    omega
  change (imm.value % (2 ^ 7 : Nat)).toNat * 1 = _
  rw [hm, Int.toNat_natCast, Nat.mul_one]

end Field

/-- A number has no bit in common with a multiple of a higher power of two. -/
theorem mul_two_pow_and {a b s : Nat} (h : b < 2 ^ s) : a * 2 ^ s &&& b = 0 := by
  apply Nat.eq_of_testBit_eq
  intro j
  rw [Nat.testBit_and, Nat.testBit_mul_two_pow, Nat.zero_testBit]
  by_cases hj : s ≤ j
  · have hb : b < 2 ^ j := Nat.lt_of_lt_of_le h (Nat.pow_le_pow_right (by decide) hj)
    rw [Nat.testBit_lt_two_pow hb, Bool.and_false]
  · simp [hj]

theorem toNat_append_eq_add {m n : Nat} (x : BitVec m) (y : BitVec n) :
    (x ++ y).toNat = x.toNat * 2 ^ n + y.toNat := by
  rw [BitVec.toNat_append, ← Nat.shiftLeft_add_eq_or_of_lt y.isLt, Nat.shiftLeft_eq]

namespace Instr

/-- What the operation and the fields of an instruction add to its word. -/
def parts (instr : Instr) : List Nat :=
  instr.opcode.code * 2 ^ 13 ::
    (instr.opcode.fields.zip instr.values).map fun entry => entry.1.part entry.2

theorem toNat_shortWord (op : Opcode) (ra rb : Reg) (low : BitVec 7) :
    (shortWord op ra rb low).toNat =
      op.code * 2 ^ 13 + (ra.index * 2 ^ 10 + (rb.index * 2 ^ 7 + low.toNat)) := by
  rw [shortWord, toNat_append_eq_add, toNat_append_eq_add, toNat_append_eq_add]
  simp only [Opcode.code, Reg.index]
  omega

theorem toNat_longWord (op : Opcode) (ra : Reg) (low : BitVec 10) :
    (longWord op ra low).toNat = op.code * 2 ^ 13 + (ra.index * 2 ^ 10 + low.toNat) := by
  rw [longWord, toNat_append_eq_add, toNat_append_eq_add]
  simp only [Opcode.code, Reg.index]
  omega

theorem toNat_encode (instr : Instr) : instr.encode.toNat = instr.parts.sum := by
  have hfirst (reg : Reg) : Field.first.part reg.index = reg.index * 2 ^ 10 :=
    Field.first.part_natCast reg.index_lt
  have hsecond (reg : Reg) : Field.second.part reg.index = reg.index * 2 ^ 7 :=
    Field.second.part_natCast reg.index_lt
  have hthird (reg : Reg) : Field.third.part reg.index = (0#4 ++ reg.bits).toNat := by
    rw [Field.third.part_natCast reg.index_lt, toNat_append_eq_add]
    simp [Field.start, Reg.index]
  have hlong (imm : LongImm) : Field.long.part imm.value = imm.bits.toNat :=
    (Field.long.part_natCast imm.bits.isLt).trans (Nat.mul_one _)
  cases instr <;>
    simp [encode, toNat_shortWord, toNat_longWord, parts, opcode, Opcode.fields, values, hfirst,
      hsecond, hthird, Field.part_short, hlong]

theorem pairwise_parts (instr : Instr) : instr.parts.Pairwise fun a b => a &&& b = 0 := by
  have hlen : instr.opcode.fields.length ≤ instr.values.length := by
    cases instr <;> exact Nat.le_refl _
  have hbelow : ((instr.opcode.fields.zip instr.values).map Prod.fst).Pairwise
      fun high low => low.start + low.width ≤ high.start := by
    rw [List.map_fst_zip hlen]
    cases instr.opcode <;> decide
  refine List.pairwise_cons.mpr ⟨?_, ?_⟩
  · intro b hb
    obtain ⟨⟨field, v⟩, -, rfl⟩ := List.mem_map.mp hb
    have htop : field.start + field.width ≤ 13 := by cases field <;> decide
    exact mul_two_pow_and (Nat.lt_of_lt_of_le (field.part_lt v)
      (Nat.pow_le_pow_right (by decide) htop))
  · rw [List.pairwise_map] at hbelow ⊢
    refine hbelow.imp fun {high low} h => ?_
    exact mul_two_pow_and (Nat.lt_of_lt_of_le (low.1.part_lt low.2)
      (Nat.pow_le_pow_right (by decide) h))

end Instr

/-- Operands make an instruction exactly if there are three of them, two for `lui`, two or three for
`jalr`, and every field takes the operand at its position.  The instruction then has these values,
and its word is a sum of parts that have no bits in common.  An operand too many is reported before
anything else.  If there is none, operands behind those of the fields change nothing, and the report
is about the first field that refuses its operand or has none. -/
theorem ofOperands_fills_fields (op : Opcode) (operands : List String) :
    ((∃ instr, Instr.ofOperands op operands = .ok instr) ↔
      ((operands.length = 3 ∧ op ≠ .lui) ∨ (operands.length = 2 ∧ (op = .lui ∨ op = .jalr))) ∧
        ∀ (k : Nat) (field : Field), op.fields[k]? = some field →
          ∃ v, field.Takes operands[k]? v) ∧
    (∀ instr, Instr.ofOperands op operands = .ok instr →
      instr.opcode = op ∧ instr.values.length = op.fields.length ∧
      (∀ (k : Nat) (field : Field) (v : Int), op.fields[k]? = some field →
        instr.values[k]? = some v → field.Takes operands[k]? v) ∧
      instr.encode.toNat = instr.parts.sum ∧ instr.parts.Pairwise fun a b => a &&& b = 0) ∧
    (∀ extra, operands[if op = .lui then 2 else 3]? = some extra →
      ∃ fault, Instr.ofOperands op operands = .error fault ∧ fault.kind = .preprocessor ∧
        fault.message = "Unexpected operand `" ++ extra ++ "`") ∧
    (operands.length ≤ (if op = .lui then 2 else 3) →
      Instr.ofOperands op (operands.take op.fields.length) = Instr.ofOperands op operands ∧
      ∀ fault, Instr.ofOperands op operands = .error fault ↔
        ∃ (k : Nat) (field : Field), op.fields[k]? = some field ∧
          (∀ j < k, ∀ other : Field, op.fields[j]? = some other →
            ∃ v, other.Takes operands[j]? v) ∧
          field.Refuses operands[k]? fault ∧ fault.kind = field.kind) := by
  rw [← Opcode.arity_format]
  refine ⟨Instr.exists_ofOperands_iff, ?_, ?_, ?_⟩
  · intro instr h
    have hv := (Instr.yields_values h).2
    exact ⟨Instr.opcode_of_ofOperands h, hv.length_eq,
      fun k field v hf hk => Field.takes_of_yields hv hf hk, instr.toNat_encode,
      instr.pairwise_parts⟩
  · intro extra h
    exact ⟨_, Instr.ofOperands_of_surplus h, rfl, rfl⟩
  · intro h
    refine ⟨Instr.ofOperands_take h, fun fault => ?_⟩
    rw [Instr.ofOperands_eq_error_iff h]
    exact exists_congr fun k => Field.failsFirst_iff

/-- The immediate minus one has all seven bits set. -/
example : (Instr.addi ⟨1⟩ ⟨2⟩ ⟨127⟩).values = [1, 2, -1] ∧
    (Instr.addi ⟨1⟩ ⟨2⟩ ⟨127⟩).parts = [1 * 2 ^ 13, 1 * 2 ^ 10, 2 * 2 ^ 7, 127] := by
  decide

end Risc16
