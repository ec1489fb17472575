import Risc16.Proofs.Diagnosis
import Risc16.Proofs.Token
import Risc16.Proofs.WordFile

/-! # Instructions that were written and assembled again

An instruction in assembly notation is a line without label and comment, and its operands are read
as the fields they were made from.  A source with one such line for each instruction therefore
assembles to these instructions, in order and without gaps.
-/
namespace Risc16

namespace Instr

theorem solid_mnemonic (op : Opcode) : Token.Solid op.mnemonic := by
  cases op <;> exact ⟨by decide, by decide⟩

theorem solid_decimal (v : Int) : Token.Solid (Text.decimal v) := by
  constructor
  · cases v with
    | ofNat n =>
      rw [Text.decimal, Nat.toList_repr]
      exact Nat.toDigits_ne_nil
    | negSucc n => simp [Text.decimal]
  · rw [List.all_eq_true]
    intro c hc
    rcases Text.isDigit_of_mem_decimal hc with rfl | hd
    · decide
    · exact Token.isPlain_of_isDigit hd

theorem solid_register (reg : Reg) : Token.Solid reg.text := by
  constructor
  · simp [Reg.text]
  · rw [Reg.text, String.toList_append, List.all_append, (solid_decimal reg.index).plain]
    decide

theorem solid_operands (instr : Instr) : ∀ text ∈ instr.operands, Token.Solid text := by
  cases instr <;>
    simp [operands, solid_register, SignedImm.text, LongImm.text, solid_decimal]

/-- Apart from its tokens, an instruction in assembly notation has spaces and commas only. -/
theorem mem_text {instr : Instr} {c : Char} (h : c ∈ instr.text.toList) :
    c = ' ' ∨ c = ',' ∨ Token.isPlain c = true := by
  rw [text, String.toList_append, String.toList_append, List.mem_append, List.mem_append] at h
  rcases h with (hm | hs) | ho
  · exact .inr (.inr ((solid_mnemonic instr.opcode).isPlain_of_mem hm))
  · exact .inl (by simpa using hs)
  · rcases Token.mem_intercalate instr.solid_operands ho with hg | hp
    · obtain rfl | rfl : c = ',' ∨ c = ' ' := by simpa using hg
      · exact .inr (.inl rfl)
      · exact .inl rfl
    · exact .inr (.inr hp)

theorem not_mem_text {c : Char} (hc : Token.isPlain c = false) (h₀ : c ≠ ' ') (h₁ : c ≠ ',')
    (instr : Instr) : c ∉ instr.text.toList := by
  intro h
  rcases mem_text h with rfl | rfl | hp
  · exact h₀ rfl
  · exact h₁ rfl
  · rw [hc] at hp
    exact absurd hp (by decide)

theorem text_ne_empty (instr : Instr) : instr.text ≠ "" := by
  simp [text]

theorem scan_text (instr : Instr) :
    Token.scan instr.text.toList = instr.opcode.mnemonic :: instr.operands := by
  have hm := solid_mnemonic instr.opcode
  have ho : Token.scan (", ".intercalate instr.operands).toList = instr.operands :=
    Token.scan_intercalate (by decide) (by decide) instr.solid_operands
  rw [text, String.toList_append, String.toList_append, List.append_assoc, Token.scan,
    Text.words_append_separators _ (by decide) (by decide),
    Text.words_eq_singleton hm.ne_nil fun c hc => hm.isSeparator_of_mem hc, List.map_append]
  change String.ofList instr.opcode.mnemonic.toList :: Token.scan _ = _
  rw [ho, String.ofList_toList]

def line (instr : Instr) (number : Nat) : Line :=
  ⟨number, instr.text, none, .instruction instr.opcode.mnemonic instr.operands, none⟩

theorem parse_text (instr : Instr) (number : Nat) :
    Line.parse number instr.text = .ok (instr.line number) := by
  have hd : instr.opcode.mnemonic.toList.head? ≠ some '.' := by
    cases instr.opcode <;> decide
  rw [Line.parse_of_unmarked (instr.not_mem_text (by decide) (by decide) (by decide))
    (instr.not_mem_text (by decide) (by decide) (by decide)), scan_text, Statement.ofTokens,
    if_neg hd, line]

/-- The operands of an instruction are read as the fields they were made from. -/
theorem ofOperands_operands (instr : Instr) :
    ofOperands instr.opcode instr.operands = .ok instr := by
  cases instr with
  | add ra rb rc | nand ra rb rc =>
    have h₀ : Operand.register [ra.text, rb.text, rc.text] 0 = .ok ra := Operand.register_text rfl
    have h₁ : Operand.register [ra.text, rb.text, rc.text] 1 = .ok rb := Operand.register_text rfl
    have h₂ : Operand.register [ra.text, rb.text, rc.text] 2 = .ok rc := Operand.register_text rfl
    simp only [ofOperands, opcode, operands, h₀, h₁, h₂]
    rfl
  | addi ra rb imm | sw ra rb imm | lw ra rb imm | beq ra rb imm =>
    have h₀ : Operand.register [ra.text, rb.text, imm.text] 0 = .ok ra := Operand.register_text rfl
    have h₁ : Operand.register [ra.text, rb.text, imm.text] 1 = .ok rb := Operand.register_text rfl
    have h₂ : Operand.signedImm [ra.text, rb.text, imm.text] 2 = .ok imm :=
      Operand.signedImm_decimal rfl
    simp only [ofOperands, opcode, operands, h₀, h₁, h₂]
    rfl
  | lui ra imm =>
    have h₀ : Operand.register [ra.text, imm.text] 0 = .ok ra := Operand.register_text rfl
    have h₁ : Operand.longImm [ra.text, imm.text] 1 = .ok imm := Operand.longImm_decimal rfl
    simp only [ofOperands, opcode, operands, h₀, h₁]
    rfl
  | jalr ra rb =>
    have h₀ : Operand.register [ra.text, rb.text] 0 = .ok ra := Operand.register_text rfl
    have h₁ : Operand.register [ra.text, rb.text] 1 = .ok rb := Operand.register_text rfl
    simp only [ofOperands, opcode, operands, h₀, h₁]
    rfl

theorem parse_mnemonic (op : Opcode) : Mnemonic.parse op.mnemonic = .ok (.machine op) := by
  have ho : Opcode.ofMnemonic? op.mnemonic = some op := by
    cases op <;> decide +kernel
  rw [Mnemonic.parse, ho]

theorem width_line (instr : Instr) (number : Nat) : (instr.line number).width = 1 :=
  Line.width_of_instruction rfl (parse_mnemonic instr.opcode)

end Instr

theorem SymbolTable.resolve_empty (mnemonic : Mnemonic) (pc : Nat) :
    SymbolTable.empty.resolve mnemonic pc = id := by
  funext operand
  simp [SymbolTable.resolve]

theorem Line.resolve_empty (line : Line) (pc : Nat) : line.resolve .empty pc = line := by
  rcases line with ⟨number, raw, label, statement, comment⟩
  cases statement with
  | blank => rfl
  | directive name operands => rfl
  | instruction name operands =>
    cases hm : Mnemonic.parse name with
    | error fault => simp only [Line.resolve, hm]
    | ok mnemonic => simp only [Line.resolve, hm, SymbolTable.resolve_empty, List.map_id]

theorem Line.warnings_empty (line : Line) : line.warnings .empty = [] := by
  unfold Line.warnings
  split
  · split
    · simp [SymbolTable.address?]
    · rfl
  · rfl
  · rfl

theorem Instr.expandAt_line (instr : Instr) (number pc : Nat) :
    (instr.line number).expandAt .empty pc = .ok [instr] := by
  rw [Line.expandAt_of_instruction rfl (parse_mnemonic instr.opcode), SymbolTable.resolve_empty,
    List.map_id, Mnemonic.expand, ofOperands_operands]
  rfl

namespace Instr

def lines (number : Nat) : List Instr → List Line
  | [] => []
  | instr :: rest => instr.line number :: lines (number + 1) rest

theorem parseFrom_map_text (number : Nat) (instrs : List Instr) :
    Line.parseFrom number (instrs.map text) = .ok (lines number instrs) := by
  induction instrs generalizing number with
  | nil => rfl
  | cons instr rest ih =>
    rw [List.map_cons, Line.parseFrom_cons_eq_ok_iff]
    exact ⟨_, _, instr.parse_text number, ih (number + 1), rfl⟩

theorem parseSource_text (instrs : List Instr) :
    Line.parseSource ("\n".intercalate (instrs.map text)) = .ok (lines 1 instrs) := by
  have hr : ∀ row ∈ instrs.map text,
      row ≠ "" ∧ '\n' ∉ row.toList ∧ '\r' ∉ row.toList := by
    intro row hrow
    obtain ⟨instr, -, rfl⟩ := List.mem_map.mp hrow
    exact ⟨instr.text_ne_empty, instr.not_mem_text (by decide) (by decide) (by decide),
      instr.not_mem_text (by decide) (by decide) (by decide)⟩
  rw [Line.parseSource, Text.lines_intercalate_of_ne_empty hr, parseFrom_map_text]

theorem unlabelled_of_mem_lines {number : Nat} {instrs : List Instr} {line : Line}
    (h : line ∈ lines number instrs) : line.label = none ∧ line.directiveFault? = none := by
  induction instrs generalizing number with
  | nil => cases h
  | cons instr rest ih =>
    rcases List.mem_cons.mp h with rfl | hr
    · exact ⟨rfl, rfl⟩
    · exact ih hr

theorem totalWidth_lines (number : Nat) (instrs : List Instr) :
    totalWidth (lines number instrs) = instrs.length := by
  induction instrs generalizing number with
  | nil => rfl
  | cons instr rest ih =>
    rw [lines, totalWidth_cons, width_line, ih, List.length_cons, Nat.add_comm]

theorem ofLines_lines (pc number : Nat) (instrs : List Instr) :
    Emission.ofLines .empty pc (lines number instrs) =
      { lines := lines number instrs
        code := instrs.mapIdx fun i instr => ⟨pc + i, number + i, instr⟩ } := by
  induction instrs generalizing pc number with
  | nil => rfl
  | cons instr rest ih =>
    rw [lines, Emission.ofLines_cons, Emission.ofLine_of_ok (instr.expandAt_line number pc),
      width_line, ih, Emission.followedBy_of_none rfl, Line.resolve_empty, Line.warnings_empty]
    have hc : (fun i instr => (⟨pc + 1 + i, number + 1 + i, instr⟩ : Placed)) =
        fun i instr => ⟨pc + (i + 1), number + (i + 1), instr⟩ := by
      funext i instr
      rw [Nat.add_assoc, Nat.add_assoc, Nat.add_comm 1]
    rw [hc, List.mapIdx_cons]
    rfl

/-- The program of instructions that stand on lines of their own. -/
def program (instrs : List Instr) : Program :=
  { lines := lines 1 instrs
    table := .empty
    code := instrs.mapIdx fun i instr => ⟨i, i + 1, instr⟩ }

theorem instrs_program (instrs : List Instr) : (program instrs).instrs = instrs := by
  apply List.ext_getElem?
  intro i
  simp [program, Program.instrs, Function.comp_def]

theorem ofLines_survey (instrs : List Instr) :
    Survey.ofLines (lines 1 instrs) = .ok ⟨.empty, instrs.length⟩ := by
  rw [Survey.ofLines_eq_ok_iff, Survey.advance_of_unlabelled _ fun _ => unlabelled_of_mem_lines,
    totalWidth_lines, Survey.start, Nat.zero_add]

theorem ofLines_emission (instrs : List Instr) :
    Emission.ofLines .empty 0 (lines 1 instrs) =
      { lines := (program instrs).lines, code := (program instrs).code } := by
  rw [ofLines_lines]
  simp only [program, Nat.zero_add, Nat.add_comm 1]

theorem assemble_text (instrs : List Instr) :
    assemble ("\n".intercalate (instrs.map text)) = .ok (program instrs) := by
  have he := ofLines_emission instrs
  rw [assemble_of_none (parseSource_text instrs) (ofLines_survey instrs) (by rw [he]), he]
  rfl

theorem warnings_text (instrs : List Instr) :
    (Run.ofSource ("\n".intercalate (instrs.map text))).warnings = [] := by
  rw [Run.warnings_ofSource (parseSource_text instrs) (ofLines_survey instrs),
    ofLines_emission]

end Instr

/-- A source with one instruction on each line assembles to these instructions, without labels and
without warnings.  So a program is not changed by writing its words, reading them, writing the
instructions and assembling them. -/
theorem assemble_written_instrs :
    (∀ instrs : List Instr, ∃ p,
      assemble ("\n".intercalate (instrs.map Instr.text)) = .ok p ∧ p.table = .empty ∧
      (Run.ofSource ("\n".intercalate (instrs.map Instr.text))).warnings = [] ∧
      p.code = instrs.mapIdx fun i instr => ⟨i, i + 1, instr⟩) ∧
    ∀ source p, assemble source = .ok p → ∃ instrs again,
      WordFile.disassemble p.text = .ok instrs ∧
      assemble ("\n".intercalate (instrs.map Instr.text)) = .ok again ∧ again.words = p.words := by
  constructor
  · intro instrs
    exact ⟨Instr.program instrs, Instr.assemble_text instrs, rfl, Instr.warnings_text instrs, rfl⟩
  · intro source p _
    refine ⟨p.instrs, Instr.program p.instrs, p.disassemble_text, Instr.assemble_text p.instrs, ?_⟩
    rw [Program.words, Instr.instrs_program, Program.words]

/-- A pseudo instruction and a label come back as the instructions they stand for. -/
theorem assemble_written_instrs_movi :
    ∃ p instrs again, assemble "top: movi r1, 1000\nbeq r0, r0, top" = .ok p ∧
      p.words = [0x640f, 0x24a8, 0xc07d] ∧ WordFile.disassemble p.text = .ok instrs ∧
      assemble ("\n".intercalate (instrs.map Instr.text)) = .ok again ∧
      again.words = p.words := by
  have h : (assemble "top: movi r1, 1000\nbeq r0, r0, top").toOption.map Program.words =
      some [0x640f, 0x24a8, 0xc07d] := by
    decide +kernel
  obtain ⟨p, hp, hw⟩ := Option.map_eq_some_iff.mp h
  obtain ⟨instrs, again, hd, ha, hagain⟩ :=
    assemble_written_instrs.2 _ p (eq_ok_of_toOption hp)
  exact ⟨p, instrs, again, eq_ok_of_toOption hp, hw, hd, ha, hagain⟩

end Risc16
