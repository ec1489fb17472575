import Risc16.Asm.Program
import Risc16.Proofs.Survey

/-! # The emission line by line

The emission of a list is the emission of its first line followed by that of the rest, at the
address behind the first line.  A failure ends it, so that whatever would follow has no effect.
-/
namespace Risc16

namespace Emission

def ofLine (table : SymbolTable) (pc : Nat) (line : Line) : Emission :=
  match line.expandAt table pc with
  | .error fault =>
    { warnings := line.warnings table, failure := some (fault.onLine line.number) }
  | .ok instrs =>
    { lines := [line.resolve table pc]
      code := place line.number pc instrs
      warnings := line.warnings table }

/-- An emission and what comes behind it, unless it has failed. -/
def followedBy (first later : Emission) : Emission :=
  match first.failure with
  | some _ => first
  | none =>
    { lines := first.lines ++ later.lines
      code := first.code ++ later.code
      warnings := first.warnings ++ later.warnings
      failure := later.failure }

theorem followedBy_of_failure {first : Emission} {e : Error} (h : first.failure = some e)
    (later : Emission) : first.followedBy later = first := by
  simp only [followedBy, h]

theorem followedBy_of_none {first : Emission} (h : first.failure = none) (later : Emission) :
    first.followedBy later =
      { lines := first.lines ++ later.lines
        code := first.code ++ later.code
        warnings := first.warnings ++ later.warnings
        failure := later.failure } := by
  simp only [followedBy, h]

theorem followedBy_assoc (a b c : Emission) :
    (a.followedBy b).followedBy c = a.followedBy (b.followedBy c) := by
  cases ha : a.failure with
  | some e => rw [followedBy_of_failure ha, followedBy_of_failure ha, followedBy_of_failure ha]
  | none =>
    rw [followedBy_of_none ha, followedBy_of_none ha]
    cases hb : b.failure with
    | some e => simp [followedBy, hb]
    | none => simp [followedBy, hb, List.append_assoc]

theorem failure_followedBy_eq_none_iff {a b : Emission} :
    (a.followedBy b).failure = none ↔ a.failure = none ∧ b.failure = none := by
  cases ha : a.failure with
  | some e => simp [followedBy_of_failure ha, ha]
  | none => simp [followedBy_of_none ha]

variable {table : SymbolTable} {pc : Nat} {line : Line}

theorem ofLine_of_ok {instrs : List Instr} (h : line.expandAt table pc = .ok instrs) :
    ofLine table pc line =
      { lines := [line.resolve table pc]
        code := place line.number pc instrs
        warnings := line.warnings table } := by
  simp only [ofLine, h]

theorem ofLine_of_error {fault : Fault} (h : line.expandAt table pc = .error fault) :
    ofLine table pc line =
      { warnings := line.warnings table, failure := some (fault.onLine line.number) } := by
  simp only [ofLine, h]

theorem failure_ofLine_eq_none_iff :
    (ofLine table pc line).failure = none ↔ ∃ instrs, line.expandAt table pc = .ok instrs := by
  cases h : line.expandAt table pc with
  | error fault => simp [ofLine_of_error h]
  | ok instrs => simp [ofLine_of_ok h]

theorem ofLines_cons (table : SymbolTable) (pc : Nat) (line : Line) (rest : List Line) :
    ofLines table pc (line :: rest) =
      (ofLine table pc line).followedBy (ofLines table (pc + line.width) rest) := by
  cases h : line.expandAt table pc with
  | error fault =>
    have hx : (line.resolve table pc).expand = .error fault := h
    simp [ofLines, hx, ofLine_of_error h, followedBy]
  | ok instrs =>
    have hx : (line.resolve table pc).expand = .ok instrs := h
    simp [ofLines, hx, ofLine_of_ok h, followedBy, Line.length_of_expandAt h]

/-- Lines behind others are emitted from the address that those leave. -/
theorem ofLines_append (table : SymbolTable) (pc : Nat) (before after : List Line) :
    ofLines table pc (before ++ after) =
      (ofLines table pc before).followedBy (ofLines table (pc + totalWidth before) after) := by
  induction before generalizing pc with
  | nil => rfl
  | cons line rest ih =>
    rw [List.cons_append, ofLines_cons, ofLines_cons, ih, followedBy_assoc, totalWidth_cons,
      Nat.add_assoc]

theorem failure_of_error {before : List Line} (hb : (ofLines table pc before).failure = none)
    {fault : Fault} (hx : line.expandAt table (pc + totalWidth before) = .error fault)
    (after : List Line) :
    (ofLines table pc (before ++ line :: after)).failure = some (fault.onLine line.number) := by
  rw [ofLines_append, followedBy_of_none hb, ofLines_cons, ofLine_of_error hx,
    followedBy_of_failure rfl]

theorem expandAt_of_failure_eq_none {before after : List Line}
    (h : (ofLines table pc (before ++ line :: after)).failure = none) :
    ∃ instrs, line.expandAt table (pc + totalWidth before) = .ok instrs := by
  rw [ofLines_append, ofLines_cons, failure_followedBy_eq_none_iff,
    failure_followedBy_eq_none_iff] at h
  exact failure_ofLine_eq_none_iff.mp h.2.1

theorem place_eq_range (number pc : Nat) (instrs : List Instr) :
    (place number pc instrs).map Placed.address = List.range' pc instrs.length := by
  induction instrs generalizing pc with
  | nil => rfl
  | cons instr rest ih => simp [place, ih, List.range'_succ]

theorem line_of_mem_place {number pc : Nat} {instrs : List Instr} {word : Placed}
    (h : word ∈ place number pc instrs) : word.line = number := by
  induction instrs generalizing pc with
  | nil => simp [place] at h
  | cons instr rest ih =>
    rcases List.mem_cons.mp h with rfl | hr
    · rfl
    · exact ih hr

/-- A line that is emitted takes the words that were set aside for it. -/
theorem length_code_ofLine (h : (ofLine table pc line).failure = none) :
    (ofLine table pc line).code.length = line.width := by
  cases hx : line.expandAt table pc with
  | error fault => simp [ofLine_of_error hx] at h
  | ok instrs => rw [ofLine_of_ok hx, length_place, Line.length_of_expandAt hx]

theorem length_code {lines : List Line} (h : (ofLines table pc lines).failure = none) :
    (ofLines table pc lines).code.length = totalWidth lines := by
  induction lines generalizing pc with
  | nil => rfl
  | cons line rest ih =>
    rw [ofLines_cons, failure_followedBy_eq_none_iff] at h
    rw [ofLines_cons, followedBy_of_none h.1, List.length_append, length_code_ofLine h.1, ih h.2,
      totalWidth_cons]

theorem address_code_ofLine (table : SymbolTable) (pc : Nat) (line : Line) :
    (ofLine table pc line).code.map Placed.address =
      List.range' pc (ofLine table pc line).code.length := by
  cases hx : line.expandAt table pc with
  | error fault => rw [ofLine_of_error hx]; rfl
  | ok instrs => rw [ofLine_of_ok hx, place_eq_range, length_place]

/-- Addresses count the words, also up to a failure. -/
theorem address_code (table : SymbolTable) (pc : Nat) (lines : List Line) :
    (ofLines table pc lines).code.map Placed.address =
      List.range' pc (ofLines table pc lines).code.length := by
  induction lines generalizing pc with
  | nil => rfl
  | cons line rest ih =>
    rw [ofLines_cons]
    cases hf : (ofLine table pc line).failure with
    | some e => rw [followedBy_of_failure hf, address_code_ofLine]
    | none =>
      rw [followedBy_of_none hf, List.map_append, List.length_append, address_code_ofLine, ih,
        length_code_ofLine hf, List.range'_append_1]

theorem address_getElem_code (table : SymbolTable) (lines : List Line) (i : Nat)
    (h : i < (ofLines table 0 lines).code.length) : (ofLines table 0 lines).code[i].address = i := by
  have hi := congrArg (·[i]?) (address_code table 0 lines)
  simpa [h] using hi

/-- The first word of a line stands at the address that the lines before it leave. -/
theorem getElem?_code {before after : List Line} {instr : Instr} {rest : List Instr}
    (h : (ofLines table 0 (before ++ line :: after)).failure = none)
    (hx : line.expandAt table (totalWidth before) = .ok (instr :: rest)) :
    (ofLines table 0 (before ++ line :: after)).code[totalWidth before]? =
      some ⟨totalWidth before, line.number, instr⟩ := by
  rw [ofLines_append, failure_followedBy_eq_none_iff] at h
  have hl := length_code h.1
  rw [ofLines_append, followedBy_of_none h.1, List.getElem?_append_right (Nat.le_of_eq hl), hl,
    Nat.sub_self, ofLines_cons, Nat.zero_add, ofLine_of_ok hx, followedBy_of_none rfl]
  rfl

theorem line_of_mem_ofLine {word : Placed} (h : word ∈ (ofLine table pc line).code) :
    word.line = line.number := by
  cases hx : line.expandAt table pc with
  | error fault => simp [ofLine_of_error hx] at h
  | ok instrs =>
    rw [ofLine_of_ok hx] at h
    exact line_of_mem_place h

theorem exists_line_of_mem {lines : List Line} {word : Placed}
    (h : word ∈ (ofLines table pc lines).code) : ∃ line ∈ lines, word.line = line.number := by
  induction lines generalizing pc with
  | nil => simp [ofLines] at h
  | cons line rest ih =>
    have hc : word ∈ (ofLine table pc line).code ∨
        word ∈ (ofLines table (pc + line.width) rest).code := by
      rw [ofLines_cons] at h
      cases hf : (ofLine table pc line).failure with
      | some e => exact .inl (by rwa [followedBy_of_failure hf] at h)
      | none => rwa [followedBy_of_none hf, List.mem_append] at h
    rcases hc with hl | hr
    · exact ⟨line, List.mem_cons_self, line_of_mem_ofLine hl⟩
    · obtain ⟨other, ho, hn⟩ := ih hr
      exact ⟨other, List.mem_cons_of_mem _ ho, hn⟩

end Emission

namespace Run

variable {source : String} {lines : List Line} {survey : Survey}

theorem outcome_ofSource (hp : Line.parseSource source = .ok lines)
    (hs : Survey.ofLines lines = .ok survey) :
    (ofSource source).outcome = (emit lines survey).outcome := by
  simp [ofSource, hp, Run.survey, Survey.ofLines_eq_ok_iff.mp hs]

theorem warnings_ofSource (hp : Line.parseSource source = .ok lines)
    (hs : Survey.ofLines lines = .ok survey) :
    (ofSource source).warnings = (Emission.ofLines survey.table 0 lines).warnings := by
  simp [ofSource, hp, Run.survey, Survey.ofLines_eq_ok_iff.mp hs, emit]

end Run

def Program.ofEmission (table : SymbolTable) (emission : Emission) : Program :=
  { lines := emission.lines, table, code := emission.code }

section

variable {source : String} {lines : List Line} {survey : Survey}

theorem assemble_of_unread {e : Error} (hp : Line.parseSource source = .error e) :
    assemble source = .error e := by
  simp [assemble, Run.ofSource, hp]

theorem assemble_of_unsurveyed (hp : Line.parseSource source = .ok lines) {e : Error}
    (hs : Survey.ofLines lines = .error e) : assemble source = .error e := by
  rw [Survey.ofLines_eq_error_iff] at hs
  simp [assemble, Run.ofSource, hp, Run.survey, hs]

theorem assemble_of_failure (hp : Line.parseSource source = .ok lines)
    (hs : Survey.ofLines lines = .ok survey) {e : Error}
    (he : (Emission.ofLines survey.table 0 lines).failure = some e) :
    assemble source = .error e := by
  rw [assemble, Run.outcome_ofSource hp hs]
  simp [Run.emit, he]

theorem assemble_of_none (hp : Line.parseSource source = .ok lines)
    (hs : Survey.ofLines lines = .ok survey)
    (he : (Emission.ofLines survey.table 0 lines).failure = none) :
    assemble source =
      .ok (.ofEmission survey.table (Emission.ofLines survey.table 0 lines)) := by
  rw [assemble, Run.outcome_ofSource hp hs]
  simp [Run.emit, he, Program.ofEmission]

/-- A source is assembled exactly when it gets through all three passes. -/
theorem assemble_eq_ok_iff {p : Program} :
    assemble source = .ok p ↔ ∃ lines survey, Line.parseSource source = .ok lines ∧
      Survey.ofLines lines = .ok survey ∧
      (Emission.ofLines survey.table 0 lines).failure = none ∧
      p = .ofEmission survey.table (Emission.ofLines survey.table 0 lines) := by
  constructor
  · intro h
    cases hp : Line.parseSource source with
    | error e => simp [assemble_of_unread hp] at h
    | ok lines =>
      cases hs : Survey.ofLines lines with
      | error e => simp [assemble_of_unsurveyed hp hs] at h
      | ok survey =>
        cases he : (Emission.ofLines survey.table 0 lines).failure with
        | some e => simp [assemble_of_failure hp hs he] at h
        | none =>
          rw [assemble_of_none hp hs he] at h
          cases h
          exact ⟨lines, survey, rfl, hs, he, rfl⟩
  · rintro ⟨lines, survey, hp, hs, he, rfl⟩
    exact assemble_of_none hp hs he

end

end Risc16
