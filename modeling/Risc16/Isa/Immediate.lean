import Risc16.Text.Numeral

/-! # Immediate fields

The short field holds seven bits in two's complement, the long field ten bits without sign.  A
value is a field of its kind exactly when it is in range; nothing is cut off silently.
-/
namespace Risc16

abbrev Word := BitVec 16

/-- The least number with a sixteen-bit pattern, read with sign. -/
def Word.least : Int := -32768

/-- The greatest number with a sixteen-bit pattern, read without sign. -/
def Word.greatest : Int := 65535

/-- A seven-bit immediate in two's complement. -/
structure SignedImm where
  bits : BitVec 7
  deriving DecidableEq

namespace SignedImm

def least : Int := -64
def greatest : Int := 63

def zero : SignedImm := ⟨0⟩

def value (imm : SignedImm) : Int := imm.bits.toInt

def ofInt? (v : Int) : Option SignedImm :=
  if least ≤ v ∧ v ≤ greatest then some ⟨BitVec.ofInt 7 v⟩ else none

def ofWord (w : Word) : SignedImm := ⟨w.extractLsb' 0 7⟩

def text (imm : SignedImm) : String := Text.decimal imm.value

theorem least_le_value (imm : SignedImm) : least ≤ imm.value :=
  BitVec.le_toInt imm.bits

theorem value_le_greatest (imm : SignedImm) : imm.value ≤ greatest :=
  Int.le_of_lt_add_one (BitVec.toInt_lt (x := imm.bits))

@[simp] theorem ofInt?_value (imm : SignedImm) : ofInt? imm.value = some imm := by
  rw [ofInt?, if_pos ⟨imm.least_le_value, imm.value_le_greatest⟩]
  simp [value]

theorem value_of_ofInt? {v : Int} {imm : SignedImm} (h : ofInt? v = some imm) : imm.value = v := by
  unfold ofInt? at h
  split at h
  next hr =>
    cases h
    simp only [least, greatest] at hr
    simp only [value, BitVec.toInt_ofInt]
    exact Int.bmod_eq_of_le (by omega) (by omega)
  · simp at h

theorem ofInt?_eq_none_iff (v : Int) : ofInt? v = none ↔ v < least ∨ greatest < v := by
  simp only [ofInt?, ite_eq_right_iff, reduceCtorEq, imp_false]
  omega

end SignedImm

/-- A ten-bit immediate without sign. -/
structure LongImm where
  bits : BitVec 10
  deriving DecidableEq

namespace LongImm

def greatest : Nat := 1023

def zero : LongImm := ⟨0⟩

def value (imm : LongImm) : Nat := imm.bits.toNat

def ofInt? (v : Int) : Option LongImm :=
  if 0 ≤ v ∧ v ≤ greatest then some ⟨BitVec.ofInt 10 v⟩ else none

def ofWord (w : Word) : LongImm := ⟨w.extractLsb' 0 10⟩

def text (imm : LongImm) : String := Text.decimal imm.value

theorem value_le_greatest (imm : LongImm) : imm.value ≤ greatest :=
  Nat.le_of_lt_succ imm.bits.isLt

@[simp] theorem ofInt?_value (imm : LongImm) : ofInt? imm.value = some imm := by
  rw [ofInt?, if_pos ⟨Int.natCast_nonneg _, Int.ofNat_le.mpr imm.value_le_greatest⟩]
  simp [value]

theorem value_of_ofInt? {v : Int} {imm : LongImm} (h : ofInt? v = some imm) :
    (imm.value : Int) = v := by
  unfold ofInt? at h
  split at h
  next hr =>
    cases h
    simp only [greatest] at hr
    simp only [value, BitVec.toNat_ofInt]
    omega
  · simp at h

theorem ofInt?_eq_none_iff (v : Int) : ofInt? v = none ↔ v < 0 ∨ (greatest : Int) < v := by
  simp only [ofInt?, ite_eq_right_iff, reduceCtorEq, imp_false]
  omega

end LongImm

end Risc16
