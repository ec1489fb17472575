import Risc16.Proofs.Emission
import Risc16.Proofs.Numeral

/-! # Branches to labels

A branch names its target; the word holds the distance from the next instruction.  The distance is
written as a decimal numeral in place of the label and read again as an operand.  It arrives in the
word unchanged when it fits the field, and the line is refused when it does not: no branch is ever
emitted that leads elsewhere.
-/
namespace Risc16

theorem Mnemonic.parse_beq {name : String} (h : name.toLower = "beq") :
    Mnemonic.parse name = .ok (.machine .beq) := by
  have ho : Opcode.ofMnemonic? name = some .beq := by
    rw [Opcode.ofMnemonic?, h]
    decide
  rw [Mnemonic.parse, ho]

theorem Instr.ofOperands_beq {first second third : String} {ra rb : Reg}
    (ha : Operand.parseRegister first = .ok ra) (hb : Operand.parseRegister second = .ok rb) :
    Instr.ofOperands .beq [first, second, third] =
      (Operand.signedImm [first, second, third] 2).map (Instr.beq ra rb) := by
  have h₀ : Operand.register [first, second, third] 0 = .ok ra := ha
  have h₁ : Operand.register [first, second, third] 1 = .ok rb := hb
  simp only [Instr.ofOperands, h₀, h₁]
  cases Operand.signedImm [first, second, third] 2 <;> rfl

theorem SignedImm.exists_value_eq {v : Int} (hl : -64 ≤ v) (hg : v ≤ 63) :
    ∃ imm : SignedImm, imm.value = v := by
  cases hi : SignedImm.ofInt? v with
  | some imm => exact ⟨imm, SignedImm.value_of_ofInt? hi⟩
  | none =>
    rw [SignedImm.ofInt?_eq_none_iff] at hi
    simp only [SignedImm.least, SignedImm.greatest] at hi
    omega

namespace Line

variable {line : Line} {name first second target : String} {table : SymbolTable}
  {ra rb : Reg} {a : Nat} (hs : line.statement = .instruction name [first, second, target])
  (hn : name.toLower = "beq") (ha : Operand.parseRegister first = .ok ra)
  (hb : Operand.parseRegister second = .ok rb) (h₀ : table.get? first = none)
  (h₁ : table.get? second = none) (h₂ : table.get? target = some (.address a))

include hs hn ha hb h₀ h₁ h₂

theorem expandAt_branch (pc : Nat) :
    line.expandAt table pc =
      (Operand.signedImm [first, second, Text.decimal ((a : Int) - pc - 1)] 2).map
        fun imm => [Instr.beq ra rb imm] := by
  have hr : [first, second, target].map (table.resolve (.machine .beq) pc) =
      [first, second, Text.decimal ((a : Int) - pc - 1)] := by
    simp [SymbolTable.resolve, h₀, h₁, h₂, Mnemonic.isBranch]
  rw [expandAt_of_instruction hs (Mnemonic.parse_beq hn), hr, Mnemonic.expand,
    Instr.ofOperands_beq ha hb]
  cases Operand.signedImm [first, second, Text.decimal ((a : Int) - pc - 1)] 2 <;> rfl

theorem expandAt_branch_near {pc : Nat} {imm : SignedImm} (hi : imm.value = (a : Int) - pc - 1) :
    line.expandAt table pc = .ok [.beq ra rb imm] := by
  rw [expandAt_branch hs hn ha hb h₀ h₁ h₂, ← hi, Operand.signedImm_decimal rfl]
  rfl

theorem expandAt_branch_far {pc : Nat} (hi : SignedImm.ofInt? ((a : Int) - pc - 1) = none) :
    ∃ fault, line.expandAt table pc = .error fault ∧ fault.kind = .immediate := by
  have ho : [first, second, Text.decimal ((a : Int) - pc - 1)][2]? =
      some (Text.decimal ((a : Int) - pc - 1)) := rfl
  obtain ⟨fault, hf, hk⟩ := Operand.signedImm_decimal_of_none ho hi
  refine ⟨fault, ?_, hk⟩
  rw [expandAt_branch hs hn ha hb h₀ h₁ h₂, hf]
  rfl

end Line

/-- A branch to a label leads to the address of that label, or is refused on its line.  It does not
matter where the label is bound, nor whether it is bound to its own line or to another label. -/
theorem branch_reaches_label {source : String} {before after : List Line} {line : Line}
    {survey : Survey} (hp : Line.parseSource source = .ok (before ++ line :: after))
    (hv : Survey.ofLines (before ++ line :: after) = .ok survey)
    {name first second target : String}
    (hs : line.statement = .instruction name [first, second, target])
    (hn : name.toLower = "beq") {ra rb : Reg} (ha : Operand.parseRegister first = .ok ra)
    (hb : Operand.parseRegister second = .ok rb) (h₀ : survey.table.get? first = none)
    (h₁ : survey.table.get? second = none) {a : Nat}
    (h₂ : survey.table.get? target = some (.address a)) {pc : Nat} (hpc : pc = totalWidth before) :
    (-64 ≤ (a : Int) - pc - 1 → (a : Int) - pc - 1 ≤ 63 →
      ∃ imm : SignedImm, imm.value = (a : Int) - pc - 1 ∧
        line.expandAt survey.table pc = .ok [.beq ra rb imm]) ∧
    (∀ p, assemble source = .ok p → ∃ imm : SignedImm, (pc : Int) + 1 + imm.value = a ∧
      p.code[pc]? = some ⟨pc, line.number, .beq ra rb imm⟩) ∧
    ((a : Int) - pc - 1 < -64 ∨ 63 < (a : Int) - pc - 1 →
      (Emission.ofLines survey.table 0 before).failure = none →
        ∃ e, assemble source = .error e ∧ e.kind = .immediate ∧ e.line = some line.number) := by
  subst hpc
  refine ⟨?_, ?_, ?_⟩
  · intro hlow hhigh
    obtain ⟨imm, hi⟩ := SignedImm.exists_value_eq hlow hhigh
    exact ⟨imm, hi, Line.expandAt_branch_near hs hn ha hb h₀ h₁ h₂ hi⟩
  · intro p h
    obtain ⟨lines, survey', hp', hv', he, rfl⟩ := assemble_eq_ok_iff.mp h
    obtain rfl : before ++ line :: after = lines := Except.ok.inj (hp.symm.trans hp')
    obtain rfl : survey = survey' := Except.ok.inj (hv.symm.trans hv')
    cases hi : SignedImm.ofInt? ((a : Int) - totalWidth before - 1) with
    | none =>
      obtain ⟨fault, hf, -⟩ := Line.expandAt_branch_far hs hn ha hb h₀ h₁ h₂ hi
      obtain ⟨instrs, hok⟩ := Emission.expandAt_of_failure_eq_none he
      rw [Nat.zero_add, hf] at hok
      cases hok
    | some imm =>
      have hd : imm.value = (a : Int) - totalWidth before - 1 := SignedImm.value_of_ofInt? hi
      refine ⟨imm, by omega, ?_⟩
      exact Emission.getElem?_code he (Line.expandAt_branch_near hs hn ha hb h₀ h₁ h₂ hd)
  · intro hr hf
    have hi : SignedImm.ofInt? ((a : Int) - totalWidth before - 1) = none := by
      rw [SignedImm.ofInt?_eq_none_iff]
      exact hr
    obtain ⟨fault, hx, hk⟩ := Line.expandAt_branch_far hs hn ha hb h₀ h₁ h₂ hi
    have he := Emission.failure_of_error hf (by rw [Nat.zero_add]; exact hx) after
    exact ⟨_, assemble_of_failure hp hv he, hk, rfl⟩

/-- A branch in mixed case goes back over a line of two words, to a label that stands for
another. -/
theorem branch_reaches_label_alias :
    ∃ before line after survey,
      Line.parseSource "top: movi r1, 7\nk: .fill top\nBeq r1, 2, k" =
        .ok (before ++ line :: after) ∧
      Survey.ofLines (before ++ line :: after) = .ok survey ∧
      survey.table.get? "k" = some (.address 0) ∧ totalWidth before = 2 ∧
      ∃ imm : SignedImm, imm.value = -3 ∧
        line.expandAt survey.table 2 = .ok [.beq ⟨1⟩ ⟨2⟩ imm] := by
  have hp : Line.parseSource "top: movi r1, 7\nk: .fill top\nBeq r1, 2, k" = .ok
      ([⟨1, "top: movi r1, 7", some "top", .instruction "movi" ["r1", "7"], none⟩,
        ⟨2, "k: .fill top", some "k", .directive ".fill" ["top"], none⟩] ++
        ⟨3, "Beq r1, 2, k", none, .instruction "Beq" ["r1", "2", "k"], none⟩ :: []) :=
    eq_ok_of_toOption (by decide +kernel)
  have hv : Survey.ofLines
      ([⟨1, "top: movi r1, 7", some "top", .instruction "movi" ["r1", "7"], none⟩,
        ⟨2, "k: .fill top", some "k", .directive ".fill" ["top"], none⟩] ++
        ⟨3, "Beq r1, 2, k", none, .instruction "Beq" ["r1", "2", "k"], none⟩ :: []) =
      .ok ⟨⟨[⟨"top", 1, .address 0⟩, ⟨"k", 2, .address 0⟩]⟩, 3⟩ :=
    eq_ok_of_toOption (by decide +kernel)
  have hw : 2 = totalWidth
      [⟨1, "top: movi r1, 7", some "top", .instruction "movi" ["r1", "7"], none⟩,
        ⟨2, "k: .fill top", some "k", .directive ".fill" ["top"], none⟩] := by
    decide +kernel
  have hk : SymbolTable.get? ⟨[⟨"top", 1, .address 0⟩, ⟨"k", 2, .address 0⟩]⟩ "k" =
      some (.address 0) := by
    decide +kernel
  have hr₁ : Operand.parseRegister "r1" = .ok ⟨1⟩ := eq_ok_of_toOption (by decide +kernel)
  have hr₂ : Operand.parseRegister "2" = .ok ⟨2⟩ := eq_ok_of_toOption (by decide +kernel)
  obtain ⟨hnear, -, -⟩ := branch_reaches_label hp hv rfl (by decide +kernel) hr₁ hr₂
    (by decide +kernel) (by decide +kernel) hk hw
  exact ⟨_, _, _, _, hp, hv, hk, hw.symm, hnear (by decide) (by decide)⟩

end Risc16
