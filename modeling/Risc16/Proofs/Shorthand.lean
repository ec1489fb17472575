import Risc16.Proofs.Fields

/-! # What shorthands stand for

`movi` and `lli` take a register and a number that has a sixteen-bit pattern.  The pattern is cut
into its high ten and its low six bits.  Each part fits the field that it is put into, and the low
part is never taken for a negative number, so that the two parts together are the pattern again.
`nop` and `halt` stand for one fixed instruction each.
-/
namespace Risc16

namespace Operand

/-- A word is the pattern of a number in the range of the patterns. -/
theorem word_eq_map_numberIn (operands : List String) (index : Nat) :
    word operands index =
      BitVec.ofInt 16 <$> numberIn (-32768) 65535 .wordOutOfRange operands index := by
  rw [word, numberIn, map_bind]
  refine bind_congr fun v => ?_
  exact (apply_ite (BitVec.ofInt 16 <$> ·) (-32768 ≤ v ∧ v ≤ 65535) (Except.ok v)
    (Except.error (Fault.wordOutOfRange v))).symm

theorem atMost_eq_error_iff {count : Nat} {operands : List String} {fault : Fault} :
    atMost count operands = .error fault ↔
      ∃ extra ∈ operands[count]?, fault = .unexpectedOperand extra := by
  unfold atMost
  cases operands[count]? <;> simp [eq_comm]

end Operand

namespace Shorthand

open Operand

theorem lowPart_nonneg (w : Word) : 0 ≤ (lowPart w).value := by
  rw [value_lowPart]
  exact Int.natCast_nonneg _

theorem highPart_mul_add_lowPart (w : Word) :
    ((highPart w).value : Int) * 64 + (lowPart w).value = w.toNat := by
  have hlt : w.toNat < 65536 := w.isLt
  have hhigh : (highPart w).value = w.toNat / 64 % 1024 := by
    rw [LongImm.value, highPart, BitVec.extractLsb'_toNat, Nat.shiftRight_eq_div_pow]
  have hlow : (lowPart w).value = (w.toNat % 64 : Nat) := by
    rw [value_lowPart, BitVec.extractLsb'_toNat, Nat.shiftRight_zero]
  rw [hhigh, hlow]
  omega

/-- The pattern of a number is the number up to a multiple of the number of patterns. -/
theorem toNat_pattern (v : Int) : ((BitVec.ofInt 16 v).toNat : Int) = v % 65536 := by
  rw [BitVec.toNat_ofInt]
  exact Int.toNat_of_nonneg (Int.emod_nonneg v (by decide))

/-- The operands are a register and a number that has a sixteen-bit pattern. -/
def Loads (operands : List String) (reg : Reg) (v : Int) : Prop :=
  ∃ first second, operands = [first, second] ∧ parseRegister first = .ok reg ∧
    Literal.parse second = .ok v ∧ -32768 ≤ v ∧ v ≤ 65535

/-- What is reported of other operands, with the kind of the report.  An operand too many comes
before a bad register, and a bad register before a bad number. -/
inductive Refused (operands : List String) : FaultKind → Fault → Prop where
  | surplus {extra : String} (h : operands[2]? = some extra) :
      Refused operands .preprocessor (.unexpectedOperand extra)
  | register {fault : Fault} (hmost : operands.length ≤ 2)
      (h : (operands[0]? = none ∧ fault = .missingRegister) ∨
        ∃ text ∈ operands[0]?, parseRegister text = .error fault) :
      Refused operands .register fault
  | number {fault : Fault} {reg : Reg} (hmost : operands.length ≤ 2)
      (hreg : ∃ text ∈ operands[0]?, parseRegister text = .ok reg)
      (h : (operands[1]? = none ∧ fault = .missingImmediate) ∨ ∃ text ∈ operands[1]?,
        Literal.parse text = .error fault ∨ ∃ v, Literal.parse text = .ok v ∧
          ¬ (-32768 ≤ v ∧ v ≤ 65535) ∧ fault = .wordOutOfRange v) :
      Refused operands .immediate fault

def readLoad (operands : List String) : Except Fault (Reg × Int) := do
  atMost 2 operands
  let reg ← Operand.register operands 0
  let v ← numberIn (-32768) 65535 .wordOutOfRange operands 1
  return (reg, v)

variable {operands : List String} {reg : Reg} {v : Int} {kind : FaultKind} {fault : Fault}

theorem expand_movi (operands : List String) : movi.expand operands =
    (fun load => [.lui load.1 (highPart (.ofInt 16 load.2)),
      .addi load.1 load.1 (lowPart (.ofInt 16 load.2))]) <$> readLoad operands := by
  simp only [expand, readLoad, word_eq_map_numberIn, bind_map_left, map_bind, map_pure, loadHigh_eq,
    addLow_eq]
  rfl

/-- `lli` is `movi` without its first instruction, also where it fails. -/
theorem expand_lli (operands : List String) :
    lli.expand operands = List.tail <$> movi.expand operands := by
  rw [expand_movi]
  simp only [expand, readLoad, word_eq_map_numberIn, bind_map_left, map_bind, map_pure,
    addLow_eq, List.tail_cons]
  rfl

theorem readLoad_eq_ok_iff : readLoad operands = .ok (reg, v) ↔ Loads operands reg v := by
  simp only [readLoad, bind_eq_ok_iff, register_eq_ok_iff, numberIn_eq_ok_iff]
  constructor
  · rintro ⟨_, hm, _, ⟨first, hf, hreg⟩, _, ⟨second, hs, hv, hr⟩, ⟨⟩⟩
    have hmost : operands.length ≤ 2 := (atMost_eq_ok_iff _ _).mp hm
    refine ⟨first, second, ?_, hreg, hv, hr⟩
    match operands, hmost, hf, hs with
    | [_, _], _, rfl, rfl => rfl
  · rintro ⟨first, second, rfl, hreg, hv, hr⟩
    exact ⟨(), rfl, reg, ⟨first, rfl, hreg⟩, v, ⟨second, rfl, hv, hr⟩, rfl⟩

theorem Refused.kind_eq (h : Refused operands kind fault) : fault.kind = kind := by
  cases h with
  | surplus h => rfl
  | register hmost h =>
    have he := register_eq_error_iff.mpr h
    exact List.mem_singleton.mp (failsOnlyAs_register _ _ fault he)
  | number hmost hreg h =>
    have he := word_eq_map_numberIn operands 1
    have hf := numberIn_eq_error_iff.mpr h
    rw [← map_eq_error_iff (f := BitVec.ofInt 16), ← he] at hf
    exact List.mem_singleton.mp (failsOnlyAs_word _ _ fault hf)

theorem readLoad_eq_error_iff :
    readLoad operands = .error fault ↔ Refused operands fault.kind fault := by
  have hread : readLoad operands = .error fault ↔ ∃ kind, Refused operands kind fault := by
    have hmost : atMost 2 operands = .ok () ↔ operands.length ≤ 2 := atMost_eq_ok_iff 2 operands
    simp only [readLoad, bind_eq_error_iff, atMost_eq_error_iff, register_eq_ok_iff,
      register_eq_error_iff, numberIn_eq_error_iff]
    constructor
    · rintro (⟨extra, he, rfl⟩ | ⟨_, hm, hreg | ⟨reg, hreg, hnum | ⟨_, -, hpure⟩⟩⟩)
      · exact ⟨_, .surplus he⟩
      · exact ⟨_, .register (hmost.mp hm) hreg⟩
      · exact ⟨_, .number (hmost.mp hm) hreg hnum⟩
      · cases hpure
    · rintro ⟨kind, h⟩
      cases h with
      | surplus h => exact .inl ⟨_, h, rfl⟩
      | register hm h => exact .inr ⟨(), hmost.mpr hm, .inl h⟩
      | number hm hreg h => exact .inr ⟨(), hmost.mpr hm, .inr ⟨_, hreg, .inl h⟩⟩
  rw [hread]
  constructor
  · rintro ⟨kind, h⟩
    exact h.kind_eq ▸ h
  · exact fun h => ⟨_, h⟩

/-- `movi` and `lli` fail exactly where their operands cannot be read. -/
theorem expand_eq_error_iff {s : Shorthand} (hs : s ∈ [movi, lli]) :
    s.expand operands = .error fault ↔ Refused operands fault.kind fault := by
  have hmovi : movi.expand operands = .error fault ↔ Refused operands fault.kind fault := by
    rw [expand_movi, map_eq_error_iff, readLoad_eq_error_iff]
  simp only [List.mem_cons, List.not_mem_nil, or_false] at hs
  rcases hs with rfl | rfl
  · exact hmovi
  · rw [expand_lli, map_eq_error_iff, hmovi]

theorem expand_of_loads (h : Loads operands reg v) :
    movi.expand operands =
        .ok [.lui reg (highPart (.ofInt 16 v)), .addi reg reg (lowPart (.ofInt 16 v))] ∧
      lli.expand operands = .ok [.addi reg reg (lowPart (.ofInt 16 v))] := by
  have hm : movi.expand operands =
      .ok [.lui reg (highPart (.ofInt 16 v)), .addi reg reg (lowPart (.ofInt 16 v))] := by
    rw [expand_movi, readLoad_eq_ok_iff.mpr h]
    rfl
  refine ⟨hm, ?_⟩
  rw [expand_lli, hm]
  rfl

theorem exists_expand_iff {s : Shorthand} (hs : s ∈ [movi, lli]) :
    (∃ instrs, s.expand operands = .ok instrs) ↔ ∃ reg v, Loads operands reg v := by
  constructor
  · rintro ⟨instrs, h⟩
    cases hr : readLoad operands with
    | ok load => exact ⟨load.1, load.2, readLoad_eq_ok_iff.mp hr⟩
    | error fault =>
      rw [(expand_eq_error_iff hs).mpr (readLoad_eq_error_iff.mp hr)] at h
      cases h
  · rintro ⟨reg, v, h⟩
    obtain ⟨hm, hl⟩ := expand_of_loads h
    simp only [List.mem_cons, List.not_mem_nil, or_false] at hs
    rcases hs with rfl | rfl
    · exact ⟨_, hm⟩
    · exact ⟨_, hl⟩

end Shorthand

/-- `movi` and `lli` succeed exactly on a register and a number that has a sixteen-bit pattern; what
they are made of is that pattern in two parts, and `lli` is the second instruction of `movi`.  On
other operands they report the fault that comes first: an operand too many, a bad register, a bad
number.  `nop` takes no operands and `halt` takes any.  Whatever a mnemonic is expanded to has the
number of words that the mnemonic promises. -/
theorem shorthands_stand_for_instrs (operands : List String) :
    (∀ s ∈ [Shorthand.movi, .lli],
      ((∃ instrs, s.expand operands = .ok instrs) ↔ ∃ reg v, Shorthand.Loads operands reg v) ∧
      ∀ fault, s.expand operands = .error fault ↔
        Shorthand.Refused operands fault.kind fault) ∧
    (∀ reg v, Shorthand.Loads operands reg v → ∃ (high : LongImm) (low : SignedImm),
      Shorthand.movi.expand operands = .ok [.lui reg high, .addi reg reg low] ∧
      Shorthand.lli.expand operands = .ok [.addi reg reg low] ∧
      high.value ≤ 1023 ∧ 0 ≤ low.value ∧ low.value ≤ 63 ∧
      (high.value : Int) * 64 + low.value = v % 65536) ∧
    ((∃ instrs, Shorthand.nop.expand operands = .ok instrs) ↔ operands = []) ∧
    (∀ instrs, Shorthand.nop.expand operands = .ok instrs →
      (Mnemonic.machine .add).expand ["r0", "r0", "r0"] = .ok instrs) ∧
    (∃ instrs, Shorthand.halt.expand operands = .ok instrs ∧
      (Mnemonic.machine .jalr).expand ["r0", "r0"] = .ok instrs) ∧
    ∀ (mnemonic : Mnemonic) (instrs : List Instr), mnemonic.expand operands = .ok instrs →
      instrs.length = mnemonic.width := by
  refine ⟨?_, ?_, ?_, ?_, ?_, ?_⟩
  · intro s hs
    exact ⟨Shorthand.exists_expand_iff hs, fun fault => Shorthand.expand_eq_error_iff hs⟩
  · intro reg v h
    obtain ⟨hm, hl⟩ := Shorthand.expand_of_loads h
    have hsum := Shorthand.highPart_mul_add_lowPart (.ofInt 16 v)
    rw [Shorthand.toNat_pattern] at hsum
    exact ⟨_, _, hm, hl, LongImm.value_le_greatest _, Shorthand.lowPart_nonneg _,
      SignedImm.value_le_greatest _, hsum⟩
  · constructor
    · rintro ⟨instrs, h⟩
      obtain ⟨_, hm, -⟩ := bind_eq_ok_iff.mp h
      exact List.length_eq_zero_iff.mp (Nat.le_zero.mp ((Operand.atMost_eq_ok_iff _ _).mp hm))
    · rintro rfl
      exact ⟨_, rfl⟩
  · intro instrs h
    obtain ⟨-, -, hi⟩ := bind_eq_ok_iff.mp h
    cases hi
    rfl
  · exact ⟨_, rfl, rfl⟩
  · exact fun mnemonic instrs h => mnemonic.length_expand h

/-- The least number has only the sign bit of its pattern set. -/
example : Shorthand.movi.expand ["r1", "-32768"] = .ok [.lui ⟨1⟩ ⟨512⟩, .addi ⟨1⟩ ⟨1⟩ ⟨0⟩] := by
  cbv

end Risc16
