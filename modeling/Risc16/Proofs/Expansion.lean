import Mathlib.Algebra.GroupWithZero.Nat
import Risc16.Asm.Emission

/-! # Expansion of one line

A line takes the same number of words in the survey and in the emission, whatever its operands
are, so the check of that number when a line is emitted never fails.
-/
namespace Risc16

theorem bind_eq_ok_iff {ε α β : Type} {x : Except ε α} {f : α → Except ε β} {b : β} :
    (x >>= f) = .ok b ↔ ∃ a, x = .ok a ∧ f a = .ok b := by
  cases x <;> simp [bind, Except.bind]

theorem bind_eq_error_iff {ε α β : Type} {x : Except ε α} {f : α → Except ε β} {e : ε} :
    (x >>= f) = .error e ↔ x = .error e ∨ ∃ a, x = .ok a ∧ f a = .error e := by
  cases x <;> simp [bind, Except.bind]

theorem map_eq_ok_iff {ε α β : Type} {x : Except ε α} {f : α → β} {b : β} :
    f <$> x = .ok b ↔ ∃ a, x = .ok a ∧ f a = b := by
  cases x <;> simp [Functor.map, Except.map]

theorem map_eq_error_iff {ε α β : Type} {x : Except ε α} {f : α → β} {e : ε} :
    f <$> x = .error e ↔ x = .error e := by
  cases x <;> simp [Functor.map, Except.map]

theorem eq_ok_of_toOption {ε α : Type} {x : Except ε α} {a : α} (h : x.toOption = some a) :
    x = .ok a := by
  cases x with
  | error e => simp [Except.toOption] at h
  | ok b => simpa [Except.toOption] using h

def failure? {ε α : Type} : Except ε α → Option ε
  | .error e => some e
  | .ok _ => none

theorem eq_error_of_failure? {ε α : Type} {x : Except ε α} {e : ε} (h : failure? x = some e) :
    x = .error e := by
  cases x with
  | error e' => rw [Option.some.inj h]
  | ok a => simp [failure?] at h

theorem eq_take_append_of_getElem? {α : Type} {xs : List α} {i : Nat} {x : α}
    (h : xs[i]? = some x) : xs = xs.take i ++ x :: xs.drop (i + 1) := by
  obtain ⟨hi, rfl⟩ := List.getElem?_eq_some_iff.mp h
  rw [← List.drop_eq_getElem_cons hi, List.take_append_drop]

theorem Mnemonic.length_expand {mnemonic : Mnemonic} {operands : List String}
    {instrs : List Instr} (h : mnemonic.expand operands = .ok instrs) :
    instrs.length = mnemonic.width := by
  cases mnemonic with
  | machine op =>
    obtain ⟨instr, -, hi⟩ := bind_eq_ok_iff.mp h
    cases hi
    rfl
  | shorthand s =>
    cases s with
    | nop =>
      obtain ⟨-, -, hi⟩ := bind_eq_ok_iff.mp h
      cases hi
      rfl
    | halt =>
      cases h
      rfl
    | lli =>
      simp only [expand, Shorthand.expand, bind_eq_ok_iff] at h
      obtain ⟨-, -, reg, -, w, -, low, -, hi⟩ := h
      cases hi
      rfl
    | movi =>
      simp only [expand, Shorthand.expand, bind_eq_ok_iff] at h
      obtain ⟨-, -, reg, -, w, -, high, -, low, -, hi⟩ := h
      cases hi
      rfl

namespace Line

/-- The instructions of a line at an address, with its labels replaced. -/
def expandAt (line : Line) (table : SymbolTable) (pc : Nat) : Except Fault (List Instr) :=
  (line.resolve table pc).expand

variable {line : Line} {name : String} {operands : List String} {mnemonic : Mnemonic}

theorem width_of_instruction (hs : line.statement = .instruction name operands)
    (hm : Mnemonic.parse name = .ok mnemonic) : line.width = mnemonic.width := by
  simp only [width, hs, hm]

theorem width_eq_zero (hs : line.statement.isInstruction = false) : line.width = 0 := by
  unfold width
  cases hl : line.statement with
  | blank => rfl
  | directive name operands => rfl
  | instruction name operands => simp [hl, Statement.isInstruction] at hs

/-- The count of words is never in the way of an expansion. -/
theorem expandAt_of_instruction (hs : line.statement = .instruction name operands)
    (hm : Mnemonic.parse name = .ok mnemonic) (table : SymbolTable) (pc : Nat) :
    line.expandAt table pc = mnemonic.expand (operands.map (table.resolve mnemonic pc)) := by
  simp only [expandAt, resolve, hs, hm, expand]
  change (do
    let instrs ← mnemonic.expand (operands.map (table.resolve mnemonic pc))
    if instrs.length = mnemonic.width then pure instrs
    else throw (Fault.wordCount name instrs.length mnemonic.width)) = _
  cases he : mnemonic.expand (operands.map (table.resolve mnemonic pc)) with
  | error fault => rfl
  | ok instrs =>
    change (if instrs.length = mnemonic.width then _ else _) = _
    rw [if_pos (Mnemonic.length_expand he)]
    rfl

theorem expandAt_of_unknown (hs : line.statement = .instruction name operands) {fault : Fault}
    (hm : Mnemonic.parse name = .error fault) (table : SymbolTable) (pc : Nat) :
    line.expandAt table pc = .error fault := by
  simp only [expandAt, resolve, hs, hm, expand]
  rfl

theorem expandAt_of_silent (hs : line.statement.isInstruction = false) (table : SymbolTable)
    (pc : Nat) : line.expandAt table pc = .ok [] := by
  unfold expandAt resolve
  cases hl : line.statement with
  | blank => simp [expand, hl]
  | directive name operands => simp [expand, hl]
  | instruction name operands => simp [hl, Statement.isInstruction] at hs

theorem known_of_expandAt (hs : line.statement = .instruction name operands)
    {table : SymbolTable} {pc : Nat} {instrs : List Instr}
    (h : line.expandAt table pc = .ok instrs) :
    ∃ mnemonic, Mnemonic.parse name = .ok mnemonic ∧
      mnemonic.expand (operands.map (table.resolve mnemonic pc)) = .ok instrs := by
  cases hm : Mnemonic.parse name with
  | error fault => simp [expandAt_of_unknown hs hm] at h
  | ok mnemonic => exact ⟨mnemonic, rfl, by rw [← expandAt_of_instruction hs hm, h]⟩

/-- Both passes count a line alike. -/
theorem length_of_expandAt {table : SymbolTable} {pc : Nat} {instrs : List Instr}
    (h : line.expandAt table pc = .ok instrs) : instrs.length = line.width := by
  cases hs : line.statement with
  | instruction name operands =>
    obtain ⟨mnemonic, hm, he⟩ := known_of_expandAt hs h
    rw [width_of_instruction hs hm, Mnemonic.length_expand he]
  | blank | directive =>
    have hl : line.statement.isInstruction = false := by rw [hs]; rfl
    rw [expandAt_of_silent hl] at h
    cases h
    rw [width_eq_zero hl, List.length_nil]

end Line

def totalWidth (lines : List Line) : Nat := (lines.map Line.width).sum

@[simp] theorem totalWidth_nil : totalWidth [] = 0 := rfl

@[simp] theorem totalWidth_cons (line : Line) (lines : List Line) :
    totalWidth (line :: lines) = line.width + totalWidth lines := by
  simp [totalWidth]

@[simp] theorem totalWidth_append (before after : List Line) :
    totalWidth (before ++ after) = totalWidth before + totalWidth after := by
  simp [totalWidth]

end Risc16
