import Risc16.Proofs.Branch
import Risc16.Proofs.Diagnosis

/-! # Warnings

A warning is due where an instruction other than a branch has a label for an address among its
operands.  A run gives exactly these warnings, in the order of the source, up to the line that it
stops at; a run that stops before the emission gives none.  An assembler that is used again shows
the warnings of its last run only.
-/
namespace Risc16

/-- One warning for each operand of a line that stands for an address, from left to right.  Branches
take addresses without a warning. -/
def Line.addressUses (table : SymbolTable) (line : Line) : List Warning :=
  match line.statement with
  | .instruction name operands =>
    if name.toLower = "beq" then []
    else operands.filterMap fun operand => match table.get? operand with
      | some (.address addr) => some ⟨line.number, line.raw, operand, addr⟩
      | some (.literal _) | none => none
  | .blank | .directive .. => []

theorem Mnemonic.isBranch_of_parse {name : String} {mnemonic : Mnemonic}
    (h : parse name = .ok mnemonic) : mnemonic.isBranch = true ↔ name.toLower = "beq" := by
  constructor
  · intro hb
    have hm : mnemonic = .machine .beq := by simpa [isBranch] using hb
    rw [hm] at h
    unfold parse at h
    split at h
    next op ho =>
      cases h
      unfold Opcode.ofMnemonic? at ho
      have hf := List.find?_some ho
      exact (beq_iff_eq.mp hf).symm
    · split at h <;> cases h
  · intro hn
    rw [parse_beq hn] at h
    cases h
    rfl

namespace Line

variable {line : Line} {table : SymbolTable} {name : String} {operands : List String}

theorem warnings_of_known (hs : line.statement = .instruction name operands) {mnemonic : Mnemonic}
    (hm : Mnemonic.parse name = .ok mnemonic) : line.warnings table = line.addressUses table := by
  unfold warnings addressUses
  simp only [hs, hm]
  by_cases hn : name.toLower = "beq"
  · rw [if_pos hn, if_pos ((Mnemonic.isBranch_of_parse hm).mpr hn)]
  · rw [if_neg hn, if_neg fun hb => hn ((Mnemonic.isBranch_of_parse hm).mp hb)]
    congr 1
    funext operand
    unfold SymbolTable.address?
    rcases table.get? operand with _ | _ | _ <;> rfl

theorem warnings_of_unknown (hs : line.statement = .instruction name operands) {fault : Fault}
    (hm : Mnemonic.parse name = .error fault) : line.warnings table = [] := by
  simp only [warnings, hs, hm]

theorem warnings_of_expandAt {pc : Nat} {instrs : List Instr}
    (h : line.expandAt table pc = .ok instrs) : line.warnings table = line.addressUses table := by
  cases hs : line.statement with
  | blank | directive => simp only [warnings, addressUses, hs]
  | instruction name operands =>
    obtain ⟨mnemonic, hm, -⟩ := known_of_expandAt hs h
    exact warnings_of_known hs hm

end Line

namespace Emission

variable {table : SymbolTable} {pc : Nat} {lines : List Line}

theorem warnings_of_none (h : (ofLines table pc lines).failure = none) :
    (ofLines table pc lines).warnings = lines.flatMap (·.addressUses table) := by
  induction lines generalizing pc with
  | nil => rfl
  | cons line rest ih =>
    rw [ofLines_cons, failure_followedBy_eq_none_iff] at h
    obtain ⟨instrs, hx⟩ := failure_ofLine_eq_none_iff.mp h.1
    rw [ofLines_cons, followedBy_of_none h.1, ofLine_of_ok hx, List.flatMap_cons, ih h.2,
      Line.warnings_of_expandAt hx]

/-- An emission that fails gives the warnings that are due before the line that it fails on, and
those of that line. -/
theorem warnings_of_failsFirst {k : Nat} {e : Error}
    (h : FailsFirst (Line.emitAfter table pc) lines k e) :
    ∃ line fault, lines[k]? = some line ∧
      line.expandAt table (pc + totalWidth (lines.take k)) = .error fault ∧
      (ofLines table pc lines).warnings =
        (lines.take k).flatMap (·.addressUses table) ++ line.warnings table := by
  induction lines generalizing pc k with
  | nil => exact absurd h not_failsFirst_nil
  | cons line rest ih =>
    cases hx : line.expandAt table pc with
    | error fault =>
      cases k with
      | zero =>
        refine ⟨line, fault, rfl, hx, ?_⟩
        rw [ofLines_cons, ofLine_of_error hx, followedBy_of_failure rfl]
        rfl
      | succ k =>
        obtain ⟨⟨block, hb⟩, -⟩ := failsFirst_succ_iff.mp h
        rw [emitAfter_of_error hx] at hb
        cases hb
    | ok instrs =>
      cases k with
      | zero =>
        have hb := failsFirst_zero_iff.mp h
        rw [emitAfter_of_ok hx] at hb
        cases hb
      | succ k =>
        have hr := (failsFirst_succ_iff.mp h).2
        rw [emitAfter_cons] at hr
        obtain ⟨last, fault, hl, hf, hw⟩ := ih hr
        refine ⟨last, fault, hl, ?_, ?_⟩
        · rwa [List.take_succ_cons, totalWidth_cons, ← Nat.add_assoc]
        · rw [ofLines_cons, ofLine_of_ok hx, followedBy_of_none rfl, hw, List.take_succ_cons,
            List.flatMap_cons, List.append_assoc, Line.warnings_of_expandAt hx]

end Emission

/-- The warnings that are due on a source.  There are none before the emission starts.  After that
they are those of all lines or, if the emission fails on line `k`, those of the lines before it and
of line `k` itself if its mnemonic is known. -/
inductive WarningsDue (source : String) : List Warning → Prop where
  | unread {e : Error} (hp : Line.parseSource source = .error e) : WarningsDue source []
  | unsurveyed {lines : List Line} {e : Error} (hp : Line.parseSource source = .ok lines)
      (hs : Survey.ofLines lines = .error e) : WarningsDue source []
  | assembled {lines : List Line} {survey : Survey} {p : Program}
      (hp : Line.parseSource source = .ok lines) (hs : Survey.ofLines lines = .ok survey)
      (ha : assemble source = .ok p) :
      WarningsDue source (lines.flatMap (·.addressUses survey.table))
  | failed {lines : List Line} {survey : Survey} {k : Nat} {e : Error} {line : Line}
      {name : String} {operands : List String} {mnemonic : Mnemonic}
      (hp : Line.parseSource source = .ok lines) (hs : Survey.ofLines lines = .ok survey)
      (hf : FailsFirst (Line.emitAfter survey.table 0) lines k e) (hl : lines[k]? = some line)
      (hst : line.statement = .instruction name operands)
      (hm : Mnemonic.parse name = .ok mnemonic) :
      WarningsDue source ((lines.take k).flatMap (·.addressUses survey.table) ++
        line.addressUses survey.table)
  | unknown {lines : List Line} {survey : Survey} {k : Nat} {e : Error} {line : Line}
      {name : String} {operands : List String} {fault : Fault}
      (hp : Line.parseSource source = .ok lines) (hs : Survey.ofLines lines = .ok survey)
      (hf : FailsFirst (Line.emitAfter survey.table 0) lines k e) (hl : lines[k]? = some line)
      (hst : line.statement = .instruction name operands)
      (hm : Mnemonic.parse name = .error fault) :
      WarningsDue source ((lines.take k).flatMap (·.addressUses survey.table))

namespace WarningsDue

variable {source : String}

theorem warnings_eq {due : List Warning} (h : WarningsDue source due) :
    (Run.ofSource source).warnings = due := by
  cases h with
  | unread hp => simp [Run.ofSource, hp]
  | unsurveyed hp hs =>
    rw [Survey.ofLines_eq_error_iff] at hs
    simp [Run.ofSource, hp, Run.survey, hs]
  | assembled hp hs ha =>
    obtain ⟨lines, survey, hp', hs', hf, -⟩ := assemble_eq_ok_iff.mp ha
    obtain rfl := Except.ok.inj (hp.symm.trans hp')
    obtain rfl := Except.ok.inj (hs.symm.trans hs')
    rw [Run.warnings_ofSource hp hs, Emission.warnings_of_none hf]
  | failed hp hs hf hl hst hm =>
    obtain ⟨_, fault, hl', -, hw⟩ := Emission.warnings_of_failsFirst hf
    obtain rfl := Option.some.inj (hl.symm.trans hl')
    rw [Run.warnings_ofSource hp hs, hw, Line.warnings_of_known hst hm]
  | unknown hp hs hf hl hst hm =>
    obtain ⟨_, fault, hl', -, hw⟩ := Emission.warnings_of_failsFirst hf
    obtain rfl := Option.some.inj (hl.symm.trans hl')
    rw [Run.warnings_ofSource hp hs, hw, Line.warnings_of_unknown hst hm, List.append_nil]

/-- An emission fails on an instruction only. -/
theorem of_failsFirst {lines : List Line} {survey : Survey} {k : Nat} {e : Error}
    (hp : Line.parseSource source = .ok lines) (hs : Survey.ofLines lines = .ok survey)
    (hf : FailsFirst (Line.emitAfter survey.table 0) lines k e) :
    ∃ due, WarningsDue source due := by
  obtain ⟨line, fault, hl, hx, -⟩ := Emission.warnings_of_failsFirst hf
  cases hst : line.statement with
  | blank | directive =>
    rw [Line.expandAt_of_silent (by rw [hst]; rfl)] at hx
    cases hx
  | instruction name operands =>
    cases hm : Mnemonic.parse name with
    | ok mnemonic => exact ⟨_, .failed hp hs hf hl hst hm⟩
    | error fault => exact ⟨_, .unknown hp hs hf hl hst hm⟩

theorem exists_due (source : String) : ∃ due, WarningsDue source due := by
  cases hp : Line.parseSource source with
  | error e => exact ⟨[], .unread hp⟩
  | ok lines =>
    cases hs : Survey.ofLines lines with
    | error e => exact ⟨[], .unsurveyed hp hs⟩
    | ok survey =>
      cases hf : (Emission.ofLines survey.table 0 lines).failure with
      | none => exact ⟨_, .assembled hp hs (assemble_of_none hp hs hf)⟩
      | some e =>
        rw [Emission.failure_eq_some_iff, checkAll_eq_error_iff] at hf
        obtain ⟨k, hk⟩ := hf
        exact of_failsFirst hp hs hk

end WarningsDue

namespace Assembler

theorem assembleAll_eq_map (a : Assembler) (sources : List String) :
    a.assembleAll sources = sources.map fun source =>
      ((({} : Assembler).assemble source).1, (({} : Assembler).assemble source).2.warnings) := by
  induction sources generalizing a with
  | nil => rfl
  | cons source rest ih =>
    change (_, _) :: (a.assemble source).2.assembleAll rest = _
    rw [ih, List.map_cons]
    rfl

theorem warnings_assemble (a : Assembler) (source : String) :
    (a.assemble source).2.warnings = (Run.ofSource source).warnings := rfl

end Assembler

/-- Each run of an assembler gives what a fresh one would give, and the warnings after a run are
exactly those that are due on its source. -/
theorem assembler_gives_warnings_due (a : Assembler) (sources : List String) :
    (a.assembleAll sources = sources.map fun source =>
      ((({} : Assembler).assemble source).1, (({} : Assembler).assemble source).2.warnings)) ∧
    ∀ source due, (a.assemble source).2.warnings = due ↔ WarningsDue source due := by
  refine ⟨a.assembleAll_eq_map sources, ?_⟩
  intro source due
  rw [Assembler.warnings_assemble]
  constructor
  · intro h
    obtain ⟨other, ho⟩ := WarningsDue.exists_due source
    rwa [← h, ho.warnings_eq]
  · exact WarningsDue.warnings_eq

/-- A line that fails still gives its warnings, and the next run drops all of them. -/
example : (({} : Assembler).assembleAll ["a: lui r1, a\nlw a, 9, a", "nop"]).map Prod.snd =
    [[⟨1, "a: lui r1, a", "a", 0⟩, ⟨2, "lw a, 9, a", "a", 0⟩, ⟨2, "lw a, 9, a", "a", 0⟩], []] := by
  decide +kernel

end Risc16
