import Risc16.Proofs.LabelName
import Risc16.Proofs.Relocation

/-! # Which operands an instruction goes by

An instruction reads some of its operands and reads over the others.  What it reads is a register or
a literal, or else it cannot be expanded.  So an operand that is neither can be replaced by anything
in an instruction that can be expanded.
-/
namespace Risc16

namespace Operand

def Readable (text : String) : Prop :=
  (∃ reg, parseRegister text = .ok reg) ∨ ∃ value, Literal.parse text = .ok value

theorem not_readable_of_label {name : String} (h : LabelName name)
    (hr : ∀ reg, parseRegister name ≠ .ok reg) : ¬ Readable name := by
  rintro (⟨reg, hreg⟩ | ⟨value, hv⟩)
  · exact hr reg hreg
  · rw [h.not_literal] at hv
    cases hv

section Map

variable {f g : String → String} {operands : List String} {index : Nat}

theorem atMost_map {count : Nat} {u : Unit} (h : atMost count (operands.map f) = .ok u) :
    atMost count (operands.map g) = .ok u := by
  rw [atMost_eq_ok_iff, List.length_map] at h ⊢
  exact h

variable (h : ∀ operand ∈ operands, Readable (f operand) → g operand = f operand)
include h

theorem register_map {reg : Reg} (hr : register (operands.map f) index = .ok reg) :
    register (operands.map g) index = .ok reg := by
  unfold register at hr ⊢
  rw [List.getElem?_map] at hr ⊢
  cases ho : operands[index]? with
  | none => simp [ho] at hr
  | some operand =>
    simp only [ho, Option.map_some] at hr ⊢
    rw [h operand (List.mem_of_getElem? ho) (.inl ⟨reg, hr⟩), hr]

theorem number_map {value : Int} (hv : number (operands.map f) index = .ok value) :
    number (operands.map g) index = .ok value := by
  unfold number at hv ⊢
  rw [List.getElem?_map] at hv ⊢
  cases ho : operands[index]? with
  | none => simp [ho] at hv
  | some operand =>
    simp only [ho, Option.map_some] at hv ⊢
    rw [h operand (List.mem_of_getElem? ho) (.inr ⟨value, hv⟩), hv]

theorem signedImm_map {imm : SignedImm} (hi : signedImm (operands.map f) index = .ok imm) :
    signedImm (operands.map g) index = .ok imm := by
  obtain ⟨value, hv, hi⟩ := bind_eq_ok_iff.mp hi
  exact bind_eq_ok_iff.mpr ⟨value, number_map h hv, hi⟩

theorem longImm_map {imm : LongImm} (hi : longImm (operands.map f) index = .ok imm) :
    longImm (operands.map g) index = .ok imm := by
  obtain ⟨value, hv, hi⟩ := bind_eq_ok_iff.mp hi
  exact bind_eq_ok_iff.mpr ⟨value, number_map h hv, hi⟩

theorem word_map {w : Word} (hw : word (operands.map f) index = .ok w) :
    word (operands.map g) index = .ok w := by
  obtain ⟨value, hv, hw⟩ := bind_eq_ok_iff.mp hw
  exact bind_eq_ok_iff.mpr ⟨value, number_map h hv, hw⟩

end Map

end Operand

section Expand

open Operand

variable {f g : String → String} {operands : List String}
  (h : ∀ operand ∈ operands, Readable (f operand) → g operand = f operand)
include h

theorem Instr.ofOperands_map {op : Opcode} {instr : Instr}
    (hi : ofOperands op (operands.map f) = .ok instr) :
    ofOperands op (operands.map g) = .ok instr := by
  cases op with
  | add | nand =>
    simp only [ofOperands, bind_eq_ok_iff] at hi ⊢
    obtain ⟨u, hm, ra, ha, rb, hb, rc, hc, hi⟩ := hi
    exact ⟨u, atMost_map hm, ra, register_map h ha, rb, register_map h hb, rc, register_map h hc,
      hi⟩
  | addi | sw | lw | beq =>
    simp only [ofOperands, bind_eq_ok_iff] at hi ⊢
    obtain ⟨u, hm, ra, ha, rb, hb, imm, hc, hi⟩ := hi
    exact ⟨u, atMost_map hm, ra, register_map h ha, rb, register_map h hb, imm,
      signedImm_map h hc, hi⟩
  | lui =>
    simp only [ofOperands, bind_eq_ok_iff] at hi ⊢
    obtain ⟨u, hm, ra, ha, imm, hb, hi⟩ := hi
    exact ⟨u, atMost_map hm, ra, register_map h ha, imm, longImm_map h hb, hi⟩
  | jalr =>
    simp only [ofOperands, bind_eq_ok_iff] at hi ⊢
    obtain ⟨u, hm, ra, ha, rb, hb, hi⟩ := hi
    exact ⟨u, atMost_map hm, ra, register_map h ha, rb, register_map h hb, hi⟩

theorem Shorthand.expand_map {s : Shorthand} {instrs : List Instr}
    (hi : s.expand (operands.map f) = .ok instrs) : s.expand (operands.map g) = .ok instrs := by
  cases s with
  | nop =>
    simp only [expand, bind_eq_ok_iff] at hi ⊢
    obtain ⟨u, hm, hi⟩ := hi
    exact ⟨u, atMost_map hm, hi⟩
  | halt => exact hi
  | lli | movi =>
    simp only [expand, bind_eq_ok_iff] at hi ⊢
    obtain ⟨u, hm, reg, hr, w, hw, hi⟩ := hi
    exact ⟨u, atMost_map hm, reg, register_map h hr, w, word_map h hw, hi⟩

/-- An expansion goes by the readable ones among its operands. -/
theorem Mnemonic.expand_map {mnemonic : Mnemonic} {instrs : List Instr}
    (hi : mnemonic.expand (operands.map f) = .ok instrs) :
    mnemonic.expand (operands.map g) = .ok instrs := by
  cases mnemonic with
  | machine op =>
    obtain ⟨instr, ho, hi⟩ := bind_eq_ok_iff.mp hi
    exact bind_eq_ok_iff.mpr ⟨instr, Instr.ofOperands_map h ho, hi⟩
  | shorthand s => exact Shorthand.expand_map h hi

end Expand

namespace Statement

def Uses (s : Statement) (mnemonic : Mnemonic) (operand : String) : Prop :=
  ∃ name operands, s = .instruction name operands ∧ Mnemonic.parse name = .ok mnemonic ∧
    operand ∈ operands

theorem Uses.mem_operands {s : Statement} {mnemonic : Mnemonic} {operand : String}
    (h : s.Uses mnemonic operand) : s.isInstruction = true ∧ operand ∈ s.operands := by
  obtain ⟨name, operands, rfl, -, ho⟩ := h
  exact ⟨rfl, ho⟩

theorem forall_operands_blank {P : String → Prop} : ∀ operand ∈ blank.operands, P operand :=
  List.forall_mem_nil P

theorem not_uses_blank {mnemonic : Mnemonic} {operand : String} :
    ¬ blank.Uses mnemonic operand := by
  rintro ⟨name, operands, hs, -⟩
  cases hs

/-- Without a warning, only branches use a label that stands for an address. -/
theorem Uses.address?_of_warnings {line : Line} {mnemonic : Mnemonic} {operand : String}
    (h : line.statement.Uses mnemonic operand) {table : SymbolTable} (hw : line.warnings table = [])
    (hb : mnemonic.isBranch = false) : table.address? operand = none := by
  obtain ⟨name, operands, hs, hm, ho⟩ := h
  simp only [Line.warnings, hs, hm, hb] at hw
  have hf := List.filterMap_eq_nil_iff.mp hw operand ho
  simpa using hf

end Statement

namespace Relocation

variable {r : Relocation} {line : Line} {table other : SymbolTable} {pc : Nat}

theorem expandAt_of_known {name : String} {operands : List String} {mnemonic : Mnemonic}
    (hs : line.statement = .instruction name operands) (hm : Mnemonic.parse name = .ok mnemonic) :
    (r.line line).expandAt other (r.offset + pc) =
      mnemonic.expand (operands.map (other.resolve mnemonic (r.offset + pc) ∘ r.name)) := by
  have hr : (r.line line).statement = .instruction name (operands.map r.name) := by
    simp only [Relocation.line, statement, hs]
  rw [Line.expandAt_of_instruction hr hm, List.map_map]

/-- A relocated line expands as the line does where its readable operands stay the same. -/
theorem expandAt_of_readable
    (h : ∀ mnemonic operand, line.statement.Uses mnemonic operand →
      Operand.Readable (table.resolve mnemonic pc operand) →
        other.resolve mnemonic (r.offset + pc) (r.name operand) =
          table.resolve mnemonic pc operand) {instrs : List Instr}
    (hx : line.expandAt table pc = .ok instrs) :
    (r.line line).expandAt other (r.offset + pc) = .ok instrs := by
  cases hs : line.statement with
  | blank | directive =>
    have hl : line.statement.isInstruction = false := by rw [hs]; rfl
    have hr : (r.line line).statement.isInstruction = false := by
      simp only [Relocation.line, statement, hs]
      rfl
    rw [Line.expandAt_of_silent hl] at hx
    rw [Line.expandAt_of_silent hr, hx]
  | instruction name operands =>
    obtain ⟨mnemonic, hm, he⟩ := Line.known_of_expandAt hs hx
    rw [expandAt_of_known hs hm]
    refine Mnemonic.expand_map ?_ he
    intro operand ho
    exact h mnemonic operand ⟨name, operands, hs, hm, ho⟩

/-- A relocated line expands as the line does or fails as it does where all operands stay the
same. -/
theorem expandAt_of_eq
    (h : ∀ mnemonic operand, line.statement.Uses mnemonic operand →
      other.resolve mnemonic (r.offset + pc) (r.name operand) = table.resolve mnemonic pc operand) :
    (r.line line).expandAt other (r.offset + pc) = line.expandAt table pc := by
  cases hx : line.expandAt table pc with
  | ok instrs => exact expandAt_of_readable (fun m operand hu _ => h m operand hu) hx
  | error fault =>
    cases hs : line.statement with
    | blank | directive =>
      have hl : line.statement.isInstruction = false := by rw [hs]; rfl
      rw [Line.expandAt_of_silent hl] at hx
      cases hx
    | instruction name operands =>
      cases hm : Mnemonic.parse name with
      | error unknown =>
        have hr : (r.line line).statement = .instruction name (operands.map r.name) := by
          simp only [Relocation.line, statement, hs]
        rw [Line.expandAt_of_unknown hs hm] at hx
        rw [Line.expandAt_of_unknown hr hm, hx]
      | ok mnemonic =>
        rw [Line.expandAt_of_instruction hs hm] at hx
        rw [expandAt_of_known hs hm, ← hx]
        congr 1
        apply List.map_congr_left
        intro operand ho
        exact h mnemonic operand ⟨name, operands, hs, hm, ho⟩

theorem Keeps.resolve {base : SymbolTable} {name : String} (h : r.Keeps base table name)
    (mnemonic : Mnemonic) (pc : Nat) :
    (r.table base table).resolve mnemonic (r.offset + pc) (r.name name) =
      match table.get? name with
      | some (.address addr) =>
        if mnemonic.isBranch then Text.decimal ((addr : Int) - pc - 1)
        else Text.decimal ((r.offset + addr : Nat) : Int)
      | some (.literal text) => r.name text
      | none => r.name name := by
  unfold SymbolTable.resolve
  rw [h.get?]
  cases table.get? name with
  | none => rfl
  | some y =>
    cases y with
    | literal text => rfl
    | address addr =>
      have hd : ((r.offset + addr : Nat) : Int) - ((r.offset + pc : Nat) : Int) - 1 =
          (addr : Int) - pc - 1 := by
        omega
      simp only [Option.map_some, symbol, hd]

/-- A line expands the same at any place and with any other names before its own, if only branches
use its addresses or no address moves. -/
theorem expandAt_of_name {base : SymbolTable} (hn : r.name = id)
    (hk : ∀ operand ∈ line.statement.operands, base.find? operand = none)
    (ha : ∀ mnemonic operand, line.statement.Uses mnemonic operand → mnemonic.isBranch = false →
      r.offset = 0 ∨ table.address? operand = none) (pc : Nat) :
    (r.line line).expandAt (r.table base table) (r.offset + pc) = line.expandAt table pc := by
  apply expandAt_of_eq
  intro mnemonic operand hu
  have hkeeps : r.Keeps base table operand := by
    constructor
    · rw [hn]
      exact hk operand hu.mem_operands.2
    · intro b _ he
      rwa [hn] at he
  rw [hkeeps.resolve]
  unfold SymbolTable.resolve
  cases hg : table.get? operand with
  | none => simp only [hn, id_eq]
  | some y =>
    cases y with
    | literal text => simp only [hn, id_eq]
    | address addr =>
      cases hb : mnemonic.isBranch with
      | true => rfl
      | false =>
        rcases ha mnemonic operand hu hb with h₀ | hnone
        · simp only [h₀, Nat.zero_add]
        · simp [SymbolTable.address?, hg] at hnone

end Relocation

end Risc16
