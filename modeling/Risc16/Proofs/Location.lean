import Risc16.Command.Outcome
import Risc16.Proofs.Diagnosis

/-! # Where and how assembly can fail

The faults of a step are of few kinds, and which kinds these are follows the way steps are put
together.  The checks that guard against a mistake of the assembler itself never fail.  So every
error is about something in the source, and it names the line that it was found on.
-/
namespace Risc16

/-- Whenever a step fails, its fault is of one of these kinds. -/
def FailsOnlyAs {α : Type} (kinds : List FaultKind) (x : Except Fault α) : Prop :=
  ∀ fault, x = .error fault → fault.kind ∈ kinds

namespace FailsOnlyAs

variable {α β : Type} {kinds more : List FaultKind}

theorem ok (a : α) : FailsOnlyAs kinds (.ok a) := by
  intro fault h
  cases h

theorem single (fault : Fault) : FailsOnlyAs [fault.kind] (.error fault : Except Fault α) := by
  intro other h
  cases h
  exact List.mem_singleton.mpr rfl

theorem bind {x : Except Fault α} {f : α → Except Fault β} (hx : FailsOnlyAs kinds x)
    (hf : ∀ a, FailsOnlyAs kinds (f a)) : FailsOnlyAs kinds (x >>= f) := by
  intro fault h
  rcases bind_eq_error_iff.mp h with he | ⟨a, -, he⟩
  · exact hx fault he
  · exact hf a fault he

theorem mono {x : Except Fault α} (hx : FailsOnlyAs kinds x) (h : kinds ⊆ more) :
    FailsOnlyAs more x :=
  fun fault he => h (hx fault he)

end FailsOnlyAs

theorem failsOnlyAs_checkLabel (name : String) : FailsOnlyAs [.preprocessor] (checkLabel name) := by
  unfold checkLabel
  split
  · exact .single _
  split
  · exact .single _
  split
  · exact .single _
  split
  · exact .single _
  · exact .ok ()

theorem Line.failsOnlyAs_parseCode (code : List Char) :
    FailsOnlyAs [.preprocessor] (parseCode code) := by
  unfold parseCode
  split
  · exact .ok _
  split
  · exact .single _
  dsimp only
  split
  next fault hc =>
    intro other h
    cases h
    exact failsOnlyAs_checkLabel _ fault hc
  · exact .ok _

theorem Line.parse_eq_error_iff {number : Nat} {raw : String} {e : Error} :
    parse number raw = .error e ↔ ∃ fault,
      parseCode (Text.cut '#' raw.toList).1 = .error fault ∧ e = fault.onLine number := by
  unfold parse
  cases hc : parseCode (Text.cut '#' raw.toList).1 with
  | error fault => simp [hc, eq_comm]
  | ok parts => simp [hc]

namespace Operand

variable (operands : List String) (index : Nat)

theorem failsOnlyAs_atMost (count : Nat) :
    FailsOnlyAs [.preprocessor] (atMost count operands) := by
  unfold atMost
  split
  · exact .single _
  · exact .ok ()

theorem failsOnlyAs_parseRegister (text : String) :
    FailsOnlyAs [.register] (parseRegister text) := by
  unfold parseRegister
  dsimp only
  split
  · exact .single _
  split
  · exact .ok _
  · exact .single _

theorem failsOnlyAs_register : FailsOnlyAs [.register] (register operands index) := by
  unfold register
  split
  · exact failsOnlyAs_parseRegister _
  · exact .single _

theorem failsOnlyAs_number : FailsOnlyAs [.immediate] (number operands index) := by
  unfold number Literal.parse
  split
  · split
    · exact .ok _
    · exact .single _
  · exact .single _

theorem failsOnlyAs_signedImm : FailsOnlyAs [.immediate] (signedImm operands index) := by
  refine (failsOnlyAs_number operands index).bind fun value => ?_
  split
  · exact .ok _
  · exact .single _

theorem failsOnlyAs_longImm : FailsOnlyAs [.immediate] (longImm operands index) := by
  refine (failsOnlyAs_number operands index).bind fun value => ?_
  split
  · exact .ok _
  · exact .single _

theorem failsOnlyAs_word : FailsOnlyAs [.immediate] (word operands index) := by
  refine (failsOnlyAs_number operands index).bind fun value => ?_
  split
  · exact .ok _
  · exact .single _

end Operand

theorem Mnemonic.failsOnlyAs_parse (name : String) : FailsOnlyAs [.opcode] (Mnemonic.parse name) := by
  unfold Mnemonic.parse
  split
  · exact .ok _
  split
  · exact .ok _
  · exact .single _

/-- The kinds of faults that operands can have: one that is not what its place asks, or too many. -/
def operandKinds : List FaultKind := [.register, .immediate, .preprocessor]

open Operand in
theorem Instr.failsOnlyAs_ofOperands (op : Opcode) (operands : List String) :
    FailsOnlyAs operandKinds (ofOperands op operands) := by
  have hreg (i : Nat) : FailsOnlyAs operandKinds (register operands i) :=
    (failsOnlyAs_register operands i).mono (by simp [operandKinds])
  have himm : FailsOnlyAs operandKinds (signedImm operands 2) :=
    (failsOnlyAs_signedImm operands 2).mono (by simp [operandKinds])
  have hlong : FailsOnlyAs operandKinds (longImm operands 1) :=
    (failsOnlyAs_longImm operands 1).mono (by simp [operandKinds])
  refine ((failsOnlyAs_atMost operands _).mono (by simp [operandKinds])).bind fun _ => ?_
  cases op with
  | add | nand => exact (hreg 0).bind fun _ => (hreg 1).bind fun _ => (hreg 2).bind fun _ => .ok _
  | addi | sw | lw | beq =>
    exact (hreg 0).bind fun _ => (hreg 1).bind fun _ => himm.bind fun _ => .ok _
  | lui => exact (hreg 0).bind fun _ => hlong.bind fun _ => .ok _
  | jalr => exact (hreg 0).bind fun _ => (hreg 1).bind fun _ => .ok _

namespace Shorthand

def highPart (w : Word) : LongImm := ⟨w.extractLsb' 6 10⟩

/-- The low six bits of a word, below a sign bit that is not set. -/
def lowPart (w : Word) : SignedImm := ⟨0#1 ++ w.extractLsb' 0 6⟩

theorem value_lowPart (w : Word) : (lowPart w).value = (w.extractLsb' 0 6).toNat := by
  rw [SignedImm.value, lowPart, BitVec.toInt_zero_append]
  rfl

theorem addLow_eq (reg : Reg) (w : Word) : addLow reg w = .ok (.addi reg reg (lowPart w)) := by
  have h := SignedImm.ofInt?_value (lowPart w)
  rw [value_lowPart] at h
  simp only [addLow, h]

theorem loadHigh_eq (reg : Reg) (w : Word) : loadHigh reg w = .ok (.lui reg (highPart w)) := by
  have h : LongImm.ofInt? (w.extractLsb' 6 10).toNat = some (highPart w) :=
    LongImm.ofInt?_value (highPart w)
  simp only [loadHigh, h]

open Operand in
theorem failsOnlyAs_expand (s : Shorthand) (operands : List String) :
    FailsOnlyAs operandKinds (s.expand operands) := by
  have hmost (count : Nat) : FailsOnlyAs operandKinds (atMost count operands) :=
    (failsOnlyAs_atMost operands count).mono (by simp [operandKinds])
  have hreg : FailsOnlyAs operandKinds (register operands 0) :=
    (failsOnlyAs_register operands 0).mono (by simp [operandKinds])
  have hword : FailsOnlyAs operandKinds (word operands 1) :=
    (failsOnlyAs_word operands 1).mono (by simp [operandKinds])
  -- These two have a fault of their own kind for a field that is too small, but always fit.
  have hlow (reg : Reg) (w : Word) : FailsOnlyAs operandKinds (addLow reg w) := by
    rw [addLow_eq]
    exact .ok _
  have hhigh (reg : Reg) (w : Word) : FailsOnlyAs operandKinds (loadHigh reg w) := by
    rw [loadHigh_eq]
    exact .ok _
  cases s with
  | nop => exact (hmost 0).bind fun _ => .ok _
  | halt => exact .ok _
  | lli =>
    exact (hmost 2).bind fun _ => hreg.bind fun reg => hword.bind fun w =>
      (hlow reg w).bind fun _ => .ok _
  | movi =>
    exact (hmost 2).bind fun _ => hreg.bind fun reg => hword.bind fun w =>
      (hhigh reg w).bind fun _ => (hlow reg w).bind fun _ => .ok _

end Shorthand

theorem Mnemonic.failsOnlyAs_expand (mnemonic : Mnemonic) (operands : List String) :
    FailsOnlyAs operandKinds (mnemonic.expand operands) := by
  cases mnemonic with
  | machine op => exact (Instr.failsOnlyAs_ofOperands op operands).bind fun _ => .ok _
  | shorthand s => exact s.failsOnlyAs_expand operands

theorem Line.failsOnlyAs_expansion (line : Line) (table : SymbolTable) (pc : Nat) :
    FailsOnlyAs (.opcode :: operandKinds) (line.expansion table pc) := by
  unfold expansion
  split
  next name operands hs =>
    exact ((Mnemonic.failsOnlyAs_parse name).mono (by simp)).bind fun mnemonic =>
      (mnemonic.failsOnlyAs_expand _).mono (List.subset_cons_self _ _)
  · exact .ok _
  · exact .ok _

/-- An error about something in the source, found on this line. -/
structure Error.Concerns (e : Error) (number : Nat) : Prop where
  line_eq : e.line = some number
  kind_mem : e.kind ∈ FaultKind.opcode :: operandKinds

namespace Line

variable {line : Line} {before : List Line} {fault : Fault} {e : Error}

theorem concerns_of_readAfter {before : List String} {raw : String}
    (h : readAfter before raw = .error e) : e.Concerns (before.length + 1) := by
  obtain ⟨fault, hc, rfl⟩ := parse_eq_error_iff.mp h
  have hk : fault.kind = .preprocessor :=
    List.mem_singleton.mp (failsOnlyAs_parseCode _ fault hc)
  exact ⟨rfl, by simp [Error.kind, Fault.onLine, hk, operandKinds]⟩

theorem kind_of_directiveFault? (h : line.directiveFault? = some fault) :
    fault.kind = .opcode ∨ fault.kind = .preprocessor := by
  unfold directiveFault? at h
  split at h
  · split at h
    · cases h
    split at h
    · split at h
      · cases h
        exact .inr rfl
      · cases h
    · cases h
      exact .inl rfl
  · cases h
  · cases h

theorem kind_of_redefinition? (h : line.redefinition? before = some fault) :
    fault.kind = .preprocessor := by
  obtain ⟨name, -, hf⟩ := Option.bind_eq_some_iff.mp h
  obtain ⟨first, -, rfl⟩ := Option.map_eq_some_iff.mp hf
  rfl

theorem concerns_of_surveyAfter (h : line.surveyAfter before = .error e) :
    e.Concerns line.number := by
  unfold surveyAfter at h
  split at h
  next fault ho =>
    cases h
    have hk : fault.kind = .opcode ∨ fault.kind = .preprocessor := by
      rcases Option.or_eq_some_iff.mp ho with hd | ⟨-, hr⟩
      · exact kind_of_directiveFault? hd
      · exact .inr (kind_of_redefinition? hr)
    refine ⟨rfl, ?_⟩
    rcases hk with hk | hk <;> simp [Error.kind, Fault.onLine, hk, operandKinds]
  · cases h

theorem concerns_of_emitAfter {table : SymbolTable} {pc : Nat}
    (h : line.emitAfter table pc before = .error e) : e.Concerns line.number := by
  unfold emitAfter at h
  cases hx : line.expansion table (pc + totalWidth before) with
  | error fault =>
    rw [hx] at h
    cases h
    exact ⟨rfl, line.failsOnlyAs_expansion table _ fault hx⟩
  | ok instrs =>
    rw [hx] at h
    cases h

/-- Every line that was read comes from a line of the text and has its number. -/
theorem number_of_yields {raws : List String} {lines : List Line}
    (h : Yields readAfter raws lines) {k : Nat} (hk : lines[k]? = some line) :
    k < raws.length ∧ line.number = k + 1 := by
  have hlt : k < raws.length := h.length_eq ▸ (List.getElem?_eq_some_iff.mp hk).1
  have hp := h.result k _ line (List.getElem?_eq_getElem hlt) hk
  refine ⟨hlt, ?_⟩
  rw [number_of_parse hp, List.length_take, Nat.min_eq_left (Nat.le_of_lt hlt)]

end Line

theorem FailsOn.concerns {source : String} {k : Nat} {e : Error} (h : FailsOn source k e) :
    k < (Text.lines source).length ∧ e.Concerns (k + 1) := by
  cases h with
  | reading h =>
    obtain ⟨raw, hk, he⟩ := h.fails
    have hlt : k < (Text.lines source).length := (List.getElem?_eq_some_iff.mp hk).1
    have hc := Line.concerns_of_readAfter he
    rw [List.length_take, Nat.min_eq_left (Nat.le_of_lt hlt)] at hc
    exact ⟨hlt, hc⟩
  | surveying hr h =>
    obtain ⟨line, hk, he⟩ := h.fails
    obtain ⟨hlt, hn⟩ := Line.number_of_yields hr hk
    exact ⟨hlt, hn ▸ Line.concerns_of_surveyAfter he⟩
  | emitting hr hs h =>
    obtain ⟨line, hk, he⟩ := h.fails
    obtain ⟨hlt, hn⟩ := Line.number_of_yields hr hk
    exact ⟨hlt, hn ▸ Line.concerns_of_emitAfter he⟩

/-- Every error of assembly is about something in the source: its kind is one of four, it names the
line that failed, and the report of the command quotes that line. -/
theorem assemble_error_names_line {source : String} {e : Error} (h : assemble source = .error e) :
    (e.kind = .opcode ∨ e.kind = .register ∨ e.kind = .immediate ∨ e.kind = .preprocessor) ∧
    ∃ n raw, e.line = some n ∧ 1 ≤ n ∧ n ≤ (Text.lines source).length ∧
      FailsOn source (n - 1) e ∧ (Text.lines source)[n - 1]? = some raw ∧
      ∀ name, Command.errorReport name source e = e.report name raw := by
  obtain ⟨k, hf⟩ := exists_failsOn h
  obtain ⟨hlt, hline, hkind⟩ := hf.concerns
  have hraw : (Text.lines source)[k]? = some (Text.lines source)[k] := List.getElem?_eq_getElem hlt
  constructor
  · simpa [operandKinds] using hkind
  · refine ⟨k + 1, (Text.lines source)[k], hline, Nat.succ_pos k, hlt, hf, hraw, ?_⟩
    intro name
    simp [Command.errorReport, hline, hraw]

/-- A bad register behind a label that is used before it is defined. -/
theorem assemble_error_names_line_register :
    ∃ e, assemble "beq r0, r0, end\nend: add r9, r1, r1" = .error e ∧ e.kind = .register ∧
      e.line = some 2 ∧ FailsOn "beq r0, r0, end\nend: add r9, r1, r1" 1 e ∧
      Command.errorReport "a.s" "beq r0, r0, end\nend: add r9, r1, r1" e =
        e.report "a.s" "end: add r9, r1, r1" := by
  have h : assemble "beq r0, r0, end\nend: add r9, r1, r1" =
      .error ((Fault.registerOutOfRange "r9").onLine 2) :=
    eq_error_of_failure? (by decide +kernel)
  obtain ⟨-, n, raw, hn, -, -, hf, hr, hreport⟩ := assemble_error_names_line h
  cases hn
  have hraw : (Text.lines "beq r0, r0, end\nend: add r9, r1, r1")[1]? =
      some "end: add r9, r1, r1" := by
    decide +kernel
  obtain rfl := Option.some.inj (hraw.symm.trans hr)
  exact ⟨_, h, rfl, rfl, hf, hreport "a.s"⟩

end Risc16
