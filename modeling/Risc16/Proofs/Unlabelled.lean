import Risc16.Proofs.Diagnosis
import Risc16.Proofs.Rendering

/-! # Programs without labels

A program keeps its lines with all labels replaced.  What stands in place of a label is again a
token, so these lines can be written as a source of their own, with nothing but their tokens.  That
source has no labels and no warnings, and its code is the same, word by word and line by line.
-/
namespace Risc16

/-- Every text that the table puts in place of a label is a token. -/
def SymbolTable.Solid (table : SymbolTable) : Prop :=
  ∀ binding ∈ table.bindings, ∀ text, binding.symbol = .literal text → Token.Solid text

namespace SymbolTable

theorem solid_empty : empty.Solid := by
  intro binding hb
  cases hb

theorem Solid.get? {table : SymbolTable} (h : table.Solid) {name text : String}
    (hg : table.get? name = some (.literal text)) : Token.Solid text := by
  obtain ⟨binding, hb, hs⟩ := Option.map_eq_some_iff.mp hg
  exact h binding (List.mem_of_find?_eq_some hb) text hs

theorem Solid.insert {table later : SymbolTable} {binding : Binding} (h : table.Solid)
    (hb : ∀ text, binding.symbol = .literal text → Token.Solid text)
    (hi : table.insert binding = .ok later) : later.Solid := by
  intro other ho
  rw [bindings_of_insert hi, List.mem_append, List.mem_singleton] at ho
  rcases ho with ho | rfl
  · exact h other ho
  · exact hb

theorem Solid.resolve {table : SymbolTable} (h : table.Solid) {operand : String}
    (ho : Token.Solid operand) (mnemonic : Mnemonic) (pc : Nat) :
    Token.Solid (table.resolve mnemonic pc operand) := by
  unfold SymbolTable.resolve
  split
  · split
    · exact Instr.solid_decimal _
    · exact Instr.solid_decimal _
  next text hg => exact h.get? hg
  · exact ho

end SymbolTable

namespace Survey

theorem solid_of_directiveSymbol {table : SymbolTable} (h : table.Solid) {name : String}
    {operands : List String} (ho : ∀ operand ∈ operands, Token.Solid operand) {text : String}
    (hs : directiveSymbol table name operands = .ok (.literal text)) : Token.Solid text := by
  unfold directiveSymbol at hs
  split at hs
  · split at hs
    · cases hs
    next value _ =>
      cases hg : table.get? value with
      | none =>
        rw [hg] at hs
        cases hs
        exact ho _ List.mem_cons_self
      | some symbol =>
        rw [hg] at hs
        cases hs
        exact h.get? hg
  split at hs
  · cases hs
    exact ⟨by decide, by decide⟩
  · cases hs

theorem solid_of_step {s next : Survey} {line : Line} (h : s.table.Solid) (hl : line.Tokenised)
    (hs : s.step line = .ok next) : next.table.Solid := by
  obtain ⟨symbol, table, hy, ht, rfl⟩ := step_eq_ok_iff.mp hs
  have hsymbol : ∀ text, symbol = .literal text → Token.Solid text := by
    rintro text rfl
    unfold Survey.symbol at hy
    split at hy
    next name operands hd =>
      refine solid_of_directiveSymbol h (fun operand ho => hl.solid operand ?_) hy
      rw [hd]
      exact List.mem_cons_of_mem name ho
    · cases hy
    · cases hy
  unfold bindLabel at ht
  split at ht
  · exact h.insert hsymbol ht
  · cases ht
    exact h

theorem solid_of_advance {s reached : Survey} {lines : List Line} (h : s.table.Solid)
    (hl : ∀ line ∈ lines, line.Tokenised) (ha : s.advance lines = (reached, none)) :
    reached.table.Solid := by
  induction lines generalizing s with
  | nil =>
    cases ha
    exact h
  | cons line rest ih =>
    cases hs : s.step line with
    | error e => simp [advance_cons_of_error hs] at ha
    | ok next =>
      rw [advance_cons_of_ok hs] at ha
      have hn := solid_of_step h (hl line List.mem_cons_self) hs
      exact ih hn (fun other ho => hl other (List.mem_cons_of_mem line ho)) ha

end Survey

namespace Line

def bareText (line : Line) : String := " ".intercalate line.statement.tokens

def bare (line : Line) : Line := ⟨line.number, line.bareText, none, line.statement, none⟩

variable {line : Line} {table : SymbolTable} {pc : Nat}

theorem resolve_eq (line : Line) (table : SymbolTable) (pc : Nat) :
    line.resolve table pc = { line with statement := (line.resolve table pc).statement } := by
  unfold resolve
  split
  · split <;> rfl
  · rfl
  · rfl

@[simp] theorem number_resolve (line : Line) (table : SymbolTable) (pc : Nat) :
    (line.resolve table pc).number = line.number := by
  rw [resolve_eq]

theorem resolve_of_silent (hs : line.statement.isInstruction = false) (table : SymbolTable)
    (pc : Nat) : line.resolve table pc = line := by
  unfold resolve
  cases hl : line.statement with
  | blank | directive => rfl
  | instruction name operands => simp [hl, Statement.isInstruction] at hs

theorem statement_resolve {name : String} {operands : List String} {mnemonic : Mnemonic}
    (hs : line.statement = .instruction name operands) (hm : Mnemonic.parse name = .ok mnemonic)
    (table : SymbolTable) (pc : Nat) :
    (line.resolve table pc).statement =
      .instruction name (operands.map (table.resolve mnemonic pc)) := by
  simp only [resolve, hs, hm]

theorem Tokenised.resolve (h : line.Tokenised) (htable : table.Solid) (pc : Nat) :
    (line.resolve table pc).Tokenised := by
  unfold Line.resolve
  split
  next name operands hs =>
    split
    next mnemonic hm =>
      obtain ⟨hsolid, hstable⟩ := h
      rw [hs] at hsolid hstable
      constructor
      · intro text ht
        rcases List.mem_cons.mp ht with rfl | ht
        · exact hsolid _ List.mem_cons_self
        · obtain ⟨operand, ho, rfl⟩ := List.mem_map.mp ht
          exact htable.resolve (hsolid operand (List.mem_cons_of_mem name ho)) mnemonic pc
      · -- Whether tokens make an instruction depends on the first alone, and that one stays.
        have hdot : name.toList.head? ≠ some '.' := by
          intro hdot
          simp [Statement.tokens, Statement.ofTokens, hdot] at hstable
        simp [Statement.tokens, Statement.ofTokens, hdot]
    · exact h
  · exact h
  · exact h

theorem directiveFault?_resolve (line : Line) (table : SymbolTable) (pc : Nat) :
    (line.resolve table pc).directiveFault? = line.directiveFault? := by
  unfold Line.resolve
  split
  next name operands hs =>
    split
    · simp only [directiveFault?, hs]
    · rfl
  · rfl
  · rfl

theorem not_mem_bareText (h : line.Tokenised) {c : Char} (hc : Token.isPlain c = false)
    (hs : c ≠ ' ') : c ∉ line.bareText.toList := by
  intro hm
  rcases Token.mem_intercalate h.solid hm with hg | hp
  · exact hs (by simpa using hg)
  · rw [hp] at hc
    cases hc

theorem scan_bareText (h : line.Tokenised) :
    Token.scan line.bareText.toList = line.statement.tokens :=
  Token.scan_intercalate (by decide) (by decide) h.solid

theorem parse_bareText (h : line.Tokenised) : parse line.number line.bareText = .ok line.bare := by
  rw [parse_of_unmarked (not_mem_bareText h (by decide) (by decide))
    (not_mem_bareText h (by decide) (by decide)), scan_bareText h, h.stable, bare]

theorem statement_of_bareText (h : line.Tokenised) (ht : line.bareText = "") :
    line.statement = .blank := by
  rw [← h.stable, ← scan_bareText h, ht]
  rfl

theorem parseFrom_map_bareText {number : Nat} {lines : List Line}
    (hn : lines.map Line.number = List.range' number lines.length)
    (h : ∀ line ∈ lines, line.Tokenised) :
    parseFrom number (lines.map bareText) = .ok (lines.map bare) := by
  induction lines generalizing number with
  | nil => rfl
  | cons line rest ih =>
    rw [List.map_cons, List.length_cons, List.range'_succ, List.cons.injEq] at hn
    rw [List.map_cons, parseFrom_cons_eq_ok_iff]
    refine ⟨line.bare, rest.map bare, ?_, ?_, rfl⟩
    · rw [← hn.1]
      exact parse_bareText (h line List.mem_cons_self)
    · exact ih hn.2 fun other ho => h other (List.mem_cons_of_mem line ho)

/-- A line with its labels replaced expands as before when there are no labels any more. -/
theorem expandAt_bare (line : Line) (table : SymbolTable) (pc : Nat) :
    (line.resolve table pc).bare.expandAt .empty pc = line.expandAt table pc := by
  rw [expandAt, resolve_empty]
  rfl

end Line

namespace Survey

/-- A survey that gets through has found no fault with any directive. -/
theorem directiveFault?_of_advance {s reached : Survey} {lines : List Line}
    (h : s.advance lines = (reached, none)) : ∀ line ∈ lines, line.directiveFault? = none := by
  intro line hm
  obtain ⟨before, after, rfl⟩ := List.append_of_mem hm
  obtain ⟨middle, -, hr⟩ := advance_append_eq_ok h
  cases hs : middle.step line with
  | error e => simp [advance_cons_of_error hs] at hr
  | ok next =>
    obtain ⟨symbol, -, hy, -⟩ := step_eq_ok_iff.mp hs
    cases hd : line.directiveFault? with
    | none => rfl
    | some fault =>
      rw [symbol_eq_error_iff.mpr hd] at hy
      cases hy

end Survey

namespace Emission

variable {table : SymbolTable} {pc : Nat} {lines : List Line}

theorem mem_lines {line : Line} (h : line ∈ (ofLines table pc lines).lines) :
    ∃ other ∈ lines, ∃ at', line = other.resolve table at' := by
  induction lines generalizing pc with
  | nil => simp [ofLines] at h
  | cons first rest ih =>
    rw [ofLines_cons] at h
    cases hx : first.expandAt table pc with
    | error fault =>
      rw [ofLine_of_error hx, followedBy_of_failure rfl] at h
      cases h
    | ok instrs =>
      rw [ofLine_of_ok hx, followedBy_of_none rfl] at h
      rcases List.mem_cons.mp h with rfl | hr
      · exact ⟨first, List.mem_cons_self, pc, rfl⟩
      · obtain ⟨other, ho, hat⟩ := ih hr
        exact ⟨other, List.mem_cons_of_mem first ho, hat⟩

/-- What labels have no part in is the same for the lines of an emission. -/
theorem map_lines {α : Type} {f : Line → α} (hf : ∀ line pc, f (line.resolve table pc) = f line)
    (h : (ofLines table pc lines).failure = none) :
    (ofLines table pc lines).lines.map f = lines.map f := by
  induction lines generalizing pc with
  | nil => rfl
  | cons line rest ih =>
    rw [ofLines_cons, failure_followedBy_eq_none_iff] at h
    obtain ⟨instrs, hx⟩ := failure_ofLine_eq_none_iff.mp h.1
    rw [ofLines_cons, ofLine_of_ok hx, followedBy_of_none rfl]
    simp [hf, ih h.2]

theorem map_number_lines (h : (ofLines table pc lines).failure = none) :
    (ofLines table pc lines).lines.map Line.number = lines.map Line.number :=
  map_lines (fun line pc => line.number_resolve table pc) h

/-- Bare lines give the code of the lines that they were made from, and no warnings. -/
theorem ofLines_bare (h : (ofLines table pc lines).failure = none) :
    ofLines .empty pc ((ofLines table pc lines).lines.map Line.bare) =
      { lines := (ofLines table pc lines).lines.map Line.bare
        code := (ofLines table pc lines).code } := by
  induction lines generalizing pc with
  | nil => rfl
  | cons line rest ih =>
    rw [ofLines_cons, failure_followedBy_eq_none_iff] at h
    obtain ⟨instrs, hx⟩ := failure_ofLine_eq_none_iff.mp h.1
    have hb : (line.resolve table pc).bare.expandAt .empty pc = .ok instrs := by
      rw [Line.expandAt_bare, hx]
    have hw : (line.resolve table pc).bare.width = line.width := by
      rw [← Line.length_of_expandAt hb, ← Line.length_of_expandAt hx]
    have hn : (line.resolve table pc).bare.number = line.number := line.number_resolve table pc
    rw [ofLines_cons, ofLine_of_ok hx, followedBy_of_none rfl]
    change ofLines .empty pc ((line.resolve table pc).bare ::
      (ofLines table (pc + line.width) rest).lines.map Line.bare) = _
    rw [ofLines_cons, ofLine_of_ok hb, hw, ih h.2, followedBy_of_none rfl, Line.resolve_empty,
      Line.warnings_empty, hn]
    rfl

end Emission

/-- The lines of a program can be read again from their tokens, and then give the same code. -/
structure Program.Resolved (p : Program) : Prop where
  tokenised : ∀ line ∈ p.lines, line.Tokenised
  directive : ∀ line ∈ p.lines, line.directiveFault? = none
  number : p.lines.map Line.number = List.range' 1 p.lines.length
  emission : Emission.ofLines .empty 0 (p.lines.map Line.bare) =
    { lines := p.lines.map Line.bare, code := p.code }

theorem resolved_of_assemble {source : String} {p : Program} (h : assemble source = .ok p) :
    p.Resolved := by
  obtain ⟨lines, survey, hp, hs, he, rfl⟩ := assemble_eq_ok_iff.mp h
  have hv := Survey.ofLines_eq_ok_iff.mp hs
  have hl : ∀ line ∈ lines, line.Tokenised := by
    intro line hm
    obtain ⟨number, raw, hr⟩ := Line.exists_parse_of_mem hp hm
    exact Line.tokenised_of_parse hr
  have ht : survey.table.Solid := Survey.solid_of_advance SymbolTable.solid_empty hl hv
  have hn : (Emission.ofLines survey.table 0 lines).lines.map Line.number =
      List.range' 1 (Text.lines source).length :=
    (Emission.map_number_lines he).trans (Line.map_number_of_parseSource hp)
  constructor
  case tokenised =>
    intro line hm
    obtain ⟨other, ho, pc, rfl⟩ := Emission.mem_lines hm
    exact (hl other ho).resolve ht pc
  case directive =>
    intro line hm
    obtain ⟨other, ho, pc, rfl⟩ := Emission.mem_lines hm
    rw [Line.directiveFault?_resolve]
    exact Survey.directiveFault?_of_advance hv other ho
  case number =>
    have hlength := congrArg List.length hn
    rw [List.length_map, List.length_range'] at hlength
    exact hn.trans (by rw [← hlength]; rfl)
  case emission => exact Emission.ofLines_bare he

theorem totalWidth_of_blank {lines : List Line} (h : ∀ line ∈ lines, line.statement = .blank) :
    totalWidth (lines.map Line.bare) = 0 := by
  induction lines with
  | nil => rfl
  | cons line rest ih =>
    have hw : line.bare.width = 0 := by
      apply Line.width_eq_zero
      change line.statement.isInstruction = false
      rw [h line List.mem_cons_self]
      rfl
    rw [List.map_cons, totalWidth_cons, hw,
      ih fun other ho => h other (List.mem_cons_of_mem line ho)]

namespace Program.Resolved

variable {p : Program} (h : p.Resolved) {front back : List Line} (hl : p.lines = front ++ back)
include h hl

theorem number_front : front.map Line.number = List.range' 1 front.length := by
  have hn := h.number
  rw [hl, List.map_append, List.length_append, ← List.range'_append_1] at hn
  exact List.append_inj_left hn (by simp)

/-- Blank lines at the end can be left out. -/
theorem emission_front (hb : ∀ line ∈ back, line.statement = .blank) :
    (Emission.ofLines .empty 0 (front.map Line.bare)).failure = none ∧
      (Emission.ofLines .empty 0 (front.map Line.bare)).warnings = [] ∧
      (Emission.ofLines .empty 0 (front.map Line.bare)).code = p.code := by
  have he := h.emission
  rw [hl, List.map_append, Emission.ofLines_append] at he
  have hf := congrArg Emission.failure he
  rw [Emission.failure_followedBy_eq_none_iff] at hf
  rw [Emission.followedBy_of_none hf.1, Emission.mk.injEq] at he
  obtain ⟨-, hc, hw, -⟩ := he
  -- The code of the lines at the back is as long as their width, which is zero.
  have hcode := Emission.length_code hf.2
  rw [totalWidth_of_blank hb, List.length_eq_zero_iff] at hcode
  rw [hcode, List.append_nil] at hc
  exact ⟨hf.1, (List.append_eq_nil_iff.mp hw).1, hc⟩

/-- A text with the tokens of the lines of a program assembles to its code. -/
theorem assemble_bare (hb : ∀ line ∈ back, line.statement = .blank) {text : String}
    (ht : Text.lines text = front.map Line.bareText) :
    ∃ q, assemble text = .ok q ∧ q.table = .empty ∧ (Run.ofSource text).warnings = [] ∧
      q.code = p.code := by
  have hfront : ∀ line ∈ front, line ∈ p.lines := fun line hm => hl ▸ List.mem_append_left _ hm
  have hp : Line.parseSource text = .ok (front.map Line.bare) := by
    rw [Line.parseSource, ht]
    exact Line.parseFrom_map_bareText (h.number_front hl) fun line hm =>
      h.tokenised line (hfront line hm)
  have hs : Survey.ofLines (front.map Line.bare) =
      .ok ⟨.empty, 0 + totalWidth (front.map Line.bare)⟩ := by
    rw [Survey.ofLines_eq_ok_iff]
    apply Survey.advance_of_unlabelled
    intro line hm
    obtain ⟨other, ho, rfl⟩ := List.mem_map.mp hm
    exact ⟨rfl, h.directive other (hfront other ho)⟩
  obtain ⟨hf, hw, hc⟩ := h.emission_front hl hb
  exact ⟨_, assemble_of_none hp hs hf, rfl, by rw [Run.warnings_ofSource hp hs, hw], hc⟩

end Program.Resolved

/-- The lines of a program, written with their tokens alone, are a source with the same code.  It
does not matter whether the last line is ended by a newline. -/
theorem assemble_without_labels {source : String} {p : Program} (h : assemble source = .ok p) :
    Text.lines (String.join ((p.lines.map Line.bareText).map (· ++ "\n"))) =
      p.lines.map Line.bareText ∧
    ∀ text, (Text.lines text = p.lines.map Line.bareText ∨
        text = "\n".intercalate (p.lines.map Line.bareText)) →
      ∃ q, assemble text = .ok q ∧ q.table = .empty ∧ (Run.ofSource text).warnings = [] ∧
        q.code = p.code := by
  have hp := resolved_of_assemble h
  have hrows : ∀ row ∈ p.lines.map Line.bareText, '\n' ∉ row.toList ∧ '\r' ∉ row.toList := by
    intro row hrow
    obtain ⟨line, hm, rfl⟩ := List.mem_map.mp hrow
    have ht := hp.tokenised line hm
    exact ⟨Line.not_mem_bareText ht (by decide) (by decide),
      Line.not_mem_bareText ht (by decide) (by decide)⟩
  refine ⟨Text.lines_join hrows, ?_⟩
  intro text ht
  -- The text has all rows as its lines, except perhaps an empty one at the end.
  obtain ⟨rest, he, hlines⟩ : ∃ rest, (∀ row ∈ rest, row = "") ∧
      p.lines.map Line.bareText = Text.lines text ++ rest := by
    rcases ht with ht | rfl
    · exact ⟨[], by simp, by simp [ht]⟩
    · exact Text.lines_intercalate hrows
  obtain ⟨front, back, hl, hfront, hback⟩ := List.map_eq_append_iff.mp hlines
  refine hp.assemble_bare hl ?_ hfront.symm
  intro line hm
  apply Line.statement_of_bareText
  · exact hp.tokenised line (hl ▸ List.mem_append_right _ hm)
  · exact he _ (hback ▸ List.mem_map_of_mem hm)

/-- A source with two labels, a comment and a line that has only a label. -/
theorem assemble_without_labels_fill :
    ∃ p q, assemble "top: movi r1, k # load\nbeq r0, r0, top\nk: .fill 70\nend:" = .ok p ∧
      p.lines.map Line.bareText = ["movi r1 70", "beq r0 r0 -3", ".fill 70", ""] ∧
      assemble "movi r1 70\nbeq r0 r0 -3\n.fill 70\n" = .ok q ∧ q.table = .empty ∧
      q.code = p.code := by
  have h : (assemble "top: movi r1, k # load\nbeq r0, r0, top\nk: .fill 70\nend:").toOption.map
      (fun p => p.lines.map Line.bareText) =
        some ["movi r1 70", "beq r0 r0 -3", ".fill 70", ""] := by
    decide +kernel
  obtain ⟨p, hp, hrows⟩ := Option.map_eq_some_iff.mp h
  have ht : "movi r1 70\nbeq r0 r0 -3\n.fill 70\n" =
      "\n".intercalate (p.lines.map Line.bareText) := by
    rw [hrows]
    decide +kernel
  obtain ⟨q, hq, htable, -, hcode⟩ :=
    (assemble_without_labels (eq_ok_of_toOption hp)).2 _ (.inr ht)
  exact ⟨p, q, eq_ok_of_toOption hp, hrows, hq, htable, hcode⟩

end Risc16
