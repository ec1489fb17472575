import Risc16.Proofs.Emission
import Risc16.Proofs.Source

/-! # Which failure is reported

Each pass takes the lines in order and stops at the first that fails, and a pass starts only when
the one before it has got through.  What a pass asks of a line is stated here for that line in view
of the lines before it, so that an outcome is the verdict on one line: the first that fails in the
first pass that fails.
-/
namespace Risc16

section Check

variable {α β ε : Type}

/-- Checks elements in order, each in view of those before it, up to the first that fails. -/
def checkAll (check : List α → α → Except ε β) : List α → Except ε (List β)
  | [] => .ok []
  | x :: xs => do
    let y ← check [] x
    let ys ← checkAll (fun before => check (x :: before)) xs
    return y :: ys

/-- Element `k` fails with `e`, and all elements before it pass. -/
structure FailsFirst (check : List α → α → Except ε β) (xs : List α) (k : Nat) (e : ε) : Prop where
  fails : ∃ x, xs[k]? = some x ∧ check (xs.take k) x = .error e
  passed : ∀ j < k, ∀ x, xs[j]? = some x → ∃ y, check (xs.take j) x = .ok y

/-- All elements pass, each with its result. -/
structure Yields (check : List α → α → Except ε β) (xs : List α) (ys : List β) : Prop where
  length_eq : ys.length = xs.length
  result : ∀ k x y, xs[k]? = some x → ys[k]? = some y → check (xs.take k) x = .ok y

variable {check : List α → α → Except ε β} {x : α} {xs : List α} {y : β} {ys : List β} {k : Nat}
  {e : ε}

theorem not_failsFirst_nil : ¬ FailsFirst check [] k e := by
  rintro ⟨⟨z, hz, -⟩, -⟩
  simp at hz

theorem failsFirst_zero_iff : FailsFirst check (x :: xs) 0 e ↔ check [] x = .error e := by
  constructor
  · rintro ⟨⟨z, hz, he⟩, -⟩
    cases hz
    exact he
  · intro he
    exact ⟨⟨x, rfl, he⟩, fun j hj => absurd hj (Nat.not_lt_zero j)⟩

theorem failsFirst_succ_iff : FailsFirst check (x :: xs) (k + 1) e ↔
    (∃ y, check [] x = .ok y) ∧ FailsFirst (fun before => check (x :: before)) xs k e := by
  constructor
  · rintro ⟨hf, hp⟩
    refine ⟨hp 0 (Nat.succ_pos k) x rfl, hf, ?_⟩
    intro j hj z hz
    exact hp (j + 1) (Nat.succ_lt_succ hj) z hz
  · rintro ⟨hx, hf, hp⟩
    refine ⟨hf, ?_⟩
    intro j hj z hz
    cases j with
    | zero =>
      cases hz
      exact hx
    | succ j => exact hp j (Nat.lt_of_succ_lt_succ hj) z hz

theorem yields_nil : Yields check [] [] := ⟨rfl, fun k x y hx => by simp at hx⟩

theorem yields_cons_iff : Yields check (x :: xs) (y :: ys) ↔
    check [] x = .ok y ∧ Yields (fun before => check (x :: before)) xs ys := by
  constructor
  · rintro ⟨hl, hr⟩
    refine ⟨hr 0 x y rfl rfl, Nat.succ.inj hl, ?_⟩
    intro k z w hz hw
    exact hr (k + 1) z w hz hw
  · rintro ⟨hx, hl, hr⟩
    refine ⟨congrArg Nat.succ hl, ?_⟩
    intro k z w hz hw
    cases k with
    | zero =>
      cases hz
      cases hw
      exact hx
    | succ k => exact hr k z w hz hw

theorem checkAll_cons_of_error (h : check [] x = .error e) : checkAll check (x :: xs) = .error e := by
  rw [checkAll, bind_eq_error_iff]
  exact .inl h

theorem checkAll_cons_eq_error_iff (h : check [] x = .ok y) :
    checkAll check (x :: xs) = .error e ↔
      checkAll (fun before => check (x :: before)) xs = .error e := by
  cases hr : checkAll (fun before => check (x :: before)) xs <;>
    simp [checkAll, h, hr, bind, Except.bind, pure, Except.pure]

theorem checkAll_eq_error_iff : checkAll check xs = .error e ↔ ∃ k, FailsFirst check xs k e := by
  induction xs generalizing check with
  | nil => simp [checkAll, not_failsFirst_nil]
  | cons x xs ih =>
    constructor
    · intro h
      cases hx : check [] x with
      | error e' =>
        obtain rfl : e' = e := Except.error.inj ((checkAll_cons_of_error hx).symm.trans h)
        exact ⟨0, failsFirst_zero_iff.mpr hx⟩
      | ok y =>
        obtain ⟨k, hk⟩ := ih.mp ((checkAll_cons_eq_error_iff hx).mp h)
        exact ⟨k + 1, failsFirst_succ_iff.mpr ⟨⟨y, hx⟩, hk⟩⟩
    · rintro ⟨k, hk⟩
      cases k with
      | zero => exact checkAll_cons_of_error (failsFirst_zero_iff.mp hk)
      | succ k =>
        obtain ⟨⟨y, hx⟩, hr⟩ := failsFirst_succ_iff.mp hk
        exact (checkAll_cons_eq_error_iff hx).mpr (ih.mpr ⟨k, hr⟩)

theorem checkAll_eq_ok_iff : checkAll check xs = .ok ys ↔ Yields check xs ys := by
  induction xs generalizing check ys with
  | nil =>
    constructor
    · rintro ⟨⟩
      exact yields_nil
    · intro h
      rw [List.length_eq_zero_iff.mp h.length_eq, checkAll]
  | cons x xs ih =>
    simp only [checkAll, bind_eq_ok_iff, ih]
    constructor
    · rintro ⟨y, hx, zs, hy, ⟨⟩⟩
      exact yields_cons_iff.mpr ⟨hx, hy⟩
    · intro h
      cases ys with
      | nil => exact absurd h.length_eq (by simp)
      | cons y ys =>
        obtain ⟨hx, hy⟩ := yields_cons_iff.mp h
        exact ⟨y, hx, ys, hy, rfl⟩

theorem exists_yields (h : ∀ k e, ¬ FailsFirst check xs k e) : ∃ ys, Yields check xs ys := by
  cases hc : checkAll check xs with
  | error e =>
    obtain ⟨k, hk⟩ := checkAll_eq_error_iff.mp hc
    exact absurd hk (h k e)
  | ok ys => exact ⟨ys, checkAll_eq_ok_iff.mp hc⟩

namespace Yields

theorem unique (h : Yields check xs ys) {zs : List β} (hz : Yields check xs zs) : ys = zs :=
  Except.ok.inj ((checkAll_eq_ok_iff.mpr h).symm.trans (checkAll_eq_ok_iff.mpr hz))

theorem not_failsFirst (h : Yields check xs ys) : ¬ FailsFirst check xs k e := by
  intro hf
  have he := checkAll_eq_error_iff.mpr ⟨k, hf⟩
  rw [checkAll_eq_ok_iff.mpr h] at he
  cases he

theorem of_toOption (h : (checkAll check xs).toOption = some ys) : Yields check xs ys :=
  checkAll_eq_ok_iff.mp (eq_ok_of_toOption h)

end Yields

end Check

namespace Line

/-- A line is read by itself; the lines before it give it its number. -/
def readAfter (before : List String) (raw : String) : Except Error Line :=
  parse (before.length + 1) raw

/-- The fault of a directive that is neither a `.space` nor a `.fill` with an operand. -/
def directiveFault? (line : Line) : Option Fault :=
  match line.statement with
  | .directive name operands =>
    if name.toLower = ".space" then none
    else if name.toLower = ".fill" then if operands = [] then some .fillWithoutValue else none
    else some (.unknownDirective name)
  | .blank | .instruction .. => none

/-- The fault of a label that is defined before; it names the first definition. -/
def redefinition? (before : List Line) (line : Line) : Option Fault :=
  line.label.bind fun name =>
    (before.find? (·.label == some name)).map fun first => .redefinedLabel name first.number

/-- The survey asks for a known directive first and then for a new label. -/
def surveyAfter (before : List Line) (line : Line) : Except Error Unit :=
  match line.directiveFault?.or (line.redefinition? before) with
  | some fault => .error (fault.onLine line.number)
  | none => .ok ()

/-- The instructions of a line at an address: those of its mnemonic, with each label among the
operands replaced. -/
def expansion (line : Line) (table : SymbolTable) (pc : Nat) : Except Fault (List Instr) :=
  match line.statement with
  | .instruction name operands => do
    let mnemonic ← Mnemonic.parse name
    mnemonic.expand (operands.map (table.resolve mnemonic pc))
  | .blank | .directive .. => .ok []

/-- The emission places the expansion of a line behind the words of the lines before it. -/
def emitAfter (table : SymbolTable) (pc : Nat) (before : List Line) (line : Line) :
    Except Error (List Placed) :=
  located line.number <|
    (line.expansion table (pc + totalWidth before)).map
      (place line.number (pc + totalWidth before))

theorem expandAt_eq_expansion (line : Line) (table : SymbolTable) (pc : Nat) :
    line.expandAt table pc = line.expansion table pc := by
  unfold expansion
  split
  next name operands hs =>
    cases hm : Mnemonic.parse name with
    | error fault => exact expandAt_of_unknown hs hm table pc
    | ok mnemonic => exact expandAt_of_instruction hs hm table pc
  next hs => exact expandAt_of_silent (by rw [hs]; rfl) table pc
  next hs => exact expandAt_of_silent (by rw [hs]; rfl) table pc

theorem parseFrom_eq_checkAll (number : Nat) (raws : List String) :
    parseFrom number raws = checkAll (fun before raw => parse (before.length + number) raw) raws := by
  induction raws generalizing number with
  | nil => rfl
  | cons raw rest ih =>
    simp only [parseFrom, checkAll, ih, List.length_cons, List.length_nil, Nat.zero_add,
      Nat.add_assoc, Nat.add_comm 1]

theorem parseSource_eq_checkAll (source : String) :
    parseSource source = checkAll readAfter (Text.lines source) :=
  parseFrom_eq_checkAll 1 (Text.lines source)

end Line

namespace Survey

variable {s : Survey} {before : List Line} {line : Line} {fault : Fault}

theorem symbol_eq_error_iff : s.symbol line = .error fault ↔ line.directiveFault? = some fault := by
  unfold symbol Line.directiveFault?
  cases hs : line.statement with
  | blank => simp
  | instruction name operands => simp
  | directive name operands =>
    -- What a `.fill` stands for can depend on the table, but not whether it is refused.
    by_cases hf : name.toLower = ".fill"
    · cases operands <;> simp [directiveSymbol, hf]
    · by_cases hs : name.toLower = ".space" <;> simp [directiveSymbol, hf, hs]

theorem exists_symbol (h : line.directiveFault? = none) : ∃ symbol, s.symbol line = .ok symbol := by
  cases hy : s.symbol line with
  | error fault => simp [symbol_eq_error_iff.mp hy] at h
  | ok symbol => exact ⟨symbol, rfl⟩

/-- Lines without labels leave the table of symbols as it is. -/
theorem advance_of_unlabelled (s : Survey) {lines : List Line}
    (h : ∀ line ∈ lines, line.label = none ∧ line.directiveFault? = none) :
    s.advance lines = (⟨s.table, s.size + totalWidth lines⟩, none) := by
  induction lines generalizing s with
  | nil => rfl
  | cons line rest ih =>
    obtain ⟨hl, hd⟩ := h line List.mem_cons_self
    obtain ⟨symbol, hy⟩ := exists_symbol (s := s) hd
    have ht : s.bindLabel line symbol = .ok s.table := by simp only [bindLabel, hl]
    rw [advance_cons_of_ok (step_eq_ok_iff.mpr ⟨symbol, s.table, hy, ht, rfl⟩),
      ih _ fun other ho => h other (List.mem_cons_of_mem line ho), totalWidth_cons, Nat.add_assoc]

/-- A label that is defined before is refused with the line of its first definition. -/
theorem bindLabel_of_redefinition (hd : s.Defines before)
    (hr : line.redefinition? before = some fault) (symbol : Symbol) :
    s.bindLabel line symbol = .error (fault.onLine line.number) := by
  obtain ⟨name, hl, hf⟩ := Option.bind_eq_some_iff.mp hr
  obtain ⟨first, hx, rfl⟩ := Option.map_eq_some_iff.mp hf
  have ht := hd.line_find? name
  rw [hx, Option.map_some] at ht
  obtain ⟨earlier, he, hn⟩ := Option.map_eq_some_iff.mp ht
  simp only [bindLabel, hl, SymbolTable.insert, he, hn]

theorem exists_bindLabel (hd : s.Defines before) (hr : line.redefinition? before = none)
    (symbol : Symbol) : ∃ table, s.bindLabel line symbol = .ok table := by
  unfold bindLabel
  split
  next name hl =>
    have ht := hd.line_find? name
    have hx : before.find? (·.label == some name) = none := by
      simpa [Line.redefinition?, hl] using hr
    rw [hx, Option.map_none, Option.map_eq_none_iff] at ht
    simp [SymbolTable.insert, ht]
  · exact ⟨s.table, rfl⟩

theorem step_of_surveyAfter_error (hd : s.Defines before) {e : Error}
    (h : line.surveyAfter before = .error e) : s.step line = .error e := by
  rw [step, bind_eq_error_iff]
  unfold Line.surveyAfter at h
  split at h
  next fault ho =>
    cases h
    rcases Option.or_eq_some_iff.mp ho with hf | ⟨hf, hr⟩
    · left
      rw [symbol_eq_error_iff.mpr hf, located_error]
    · right
      obtain ⟨symbol, hy⟩ := exists_symbol (s := s) hf
      refine ⟨symbol, located_eq_ok_iff.mpr hy, ?_⟩
      rw [bindLabel_of_redefinition hd hr]
      rfl
  · cases h

theorem exists_step_of_surveyAfter (hd : s.Defines before)
    (h : line.surveyAfter before = .ok ()) : ∃ next, s.step line = .ok next := by
  unfold Line.surveyAfter at h
  split at h
  · cases h
  next ho =>
    rw [Option.or_eq_none_iff] at ho
    obtain ⟨symbol, hy⟩ := exists_symbol (s := s) ho.1
    obtain ⟨table, ht⟩ := exists_bindLabel hd ho.2 symbol
    exact ⟨_, step_eq_ok_iff.mpr ⟨symbol, table, hy, ht, rfl⟩⟩

/-- Behind lines that it has taken in, a survey checks each line in view of all lines before it. -/
theorem advance_eq_error_iff (hd : s.Defines before) {lines : List Line} {e : Error} :
    (s.advance lines).2 = some e ↔
      checkAll (fun more => Line.surveyAfter (before ++ more)) lines = .error e := by
  -- `Defines` carries the induction: the labels in the table are those of the lines before.
  induction lines generalizing s before with
  | nil => simp [advance, checkAll]
  | cons line rest ih =>
    cases hc : line.surveyAfter before with
    | error e' =>
      rw [advance_cons_of_error (step_of_surveyAfter_error hd hc),
        checkAll_cons_of_error (by rw [List.append_nil, hc])]
      simp
    | ok u =>
      obtain ⟨next, hs⟩ := exists_step_of_surveyAfter hd hc
      rw [advance_cons_of_ok hs, ih (hd.step hs),
        checkAll_cons_eq_error_iff (by rw [List.append_nil, hc])]
      simp only [List.append_assoc, List.singleton_append]

theorem ofLines_eq_error_iff_failsFirst {lines : List Line} {e : Error} :
    ofLines lines = .error e ↔ ∃ k, FailsFirst Line.surveyAfter lines k e := by
  rw [ofLines_eq_error_iff, advance_eq_error_iff defines_start, ← checkAll_eq_error_iff]
  rfl

end Survey

namespace Emission

variable {table : SymbolTable} {pc : Nat} {lines : List Line}

theorem emitAfter_of_ok {line : Line} {instrs : List Instr}
    (h : line.expandAt table pc = .ok instrs) :
    line.emitAfter table pc [] = .ok (place line.number pc instrs) := by
  rw [Line.expandAt_eq_expansion] at h
  simp [Line.emitAfter, h, Except.map]

theorem emitAfter_of_error {line : Line} {fault : Fault}
    (h : line.expandAt table pc = .error fault) :
    line.emitAfter table pc [] = .error (fault.onLine line.number) := by
  rw [Line.expandAt_eq_expansion] at h
  simp [Line.emitAfter, h, Except.map]

/-- A line moves the lines behind it by its width. -/
theorem emitAfter_cons (table : SymbolTable) (pc : Nat) (line : Line) :
    (fun before => Line.emitAfter table pc (line :: before)) =
      Line.emitAfter table (pc + line.width) := by
  funext before other
  simp only [Line.emitAfter, totalWidth_cons, Nat.add_assoc]

theorem failure_eq_some_iff {e : Error} :
    (ofLines table pc lines).failure = some e ↔
      checkAll (Line.emitAfter table pc) lines = .error e := by
  induction lines generalizing pc with
  | nil => simp [ofLines, checkAll]
  | cons line rest ih =>
    rw [ofLines_cons]
    cases hx : line.expandAt table pc with
    | error fault =>
      rw [ofLine_of_error hx, followedBy_of_failure rfl,
        checkAll_cons_of_error (emitAfter_of_error hx)]
      simp
    | ok instrs =>
      rw [ofLine_of_ok hx, followedBy_of_none rfl,
        checkAll_cons_eq_error_iff (emitAfter_of_ok hx), emitAfter_cons]
      exact ih

/-- Where all lines can be expanded, the code is their expansions one behind the other. -/
theorem code_of_yields {blocks : List (List Placed)}
    (h : Yields (Line.emitAfter table pc) lines blocks) :
    (ofLines table pc lines).failure = none ∧ (ofLines table pc lines).code = blocks.flatten := by
  induction lines generalizing pc blocks with
  | nil =>
    rw [List.length_eq_zero_iff.mp h.length_eq]
    exact ⟨rfl, rfl⟩
  | cons line rest ih =>
    cases blocks with
    | nil => exact absurd h.length_eq (by simp)
    | cons block blocks =>
      rw [yields_cons_iff, emitAfter_cons] at h
      obtain ⟨hl, hr⟩ := h
      obtain ⟨hf, hc⟩ := ih hr
      cases hx : line.expandAt table pc with
      | error fault => simp [emitAfter_of_error hx] at hl
      | ok instrs =>
        rw [emitAfter_of_ok hx] at hl
        cases hl
        rw [ofLines_cons, ofLine_of_ok hx, followedBy_of_none rfl, hf, hc]
        exact ⟨rfl, rfl⟩

end Emission

/-- Line `k` of a source, counted from zero, is the first to fail with `e` in a pass, and every
pass before that one gets through. -/
inductive FailsOn (source : String) (k : Nat) (e : Error) : Prop where
  | reading (h : FailsFirst Line.readAfter (Text.lines source) k e)
  | surveying {lines : List Line} (hr : Yields Line.readAfter (Text.lines source) lines)
      (h : FailsFirst Line.surveyAfter lines k e)
  | emitting {lines : List Line} {survey : Survey}
      (hr : Yields Line.readAfter (Text.lines source) lines)
      (hs : Survey.ofLines lines = .ok survey)
      (h : FailsFirst (Line.emitAfter survey.table 0) lines k e)

theorem parseSource_eq_ok_iff {source : String} {lines : List Line} :
    Line.parseSource source = .ok lines ↔ Yields Line.readAfter (Text.lines source) lines := by
  rw [Line.parseSource_eq_checkAll, checkAll_eq_ok_iff]

theorem assemble_of_failsOn {source : String} {k : Nat} {e : Error} (h : FailsOn source k e) :
    assemble source = .error e := by
  cases h with
  | reading h =>
    apply assemble_of_unread
    rw [Line.parseSource_eq_checkAll, checkAll_eq_error_iff]
    exact ⟨k, h⟩
  | surveying hr h =>
    apply assemble_of_unsurveyed (parseSource_eq_ok_iff.mpr hr)
    rw [Survey.ofLines_eq_error_iff_failsFirst]
    exact ⟨k, h⟩
  | emitting hr hs h =>
    apply assemble_of_failure (parseSource_eq_ok_iff.mpr hr) hs
    rw [Emission.failure_eq_some_iff, checkAll_eq_error_iff]
    exact ⟨k, h⟩

/-- Every error is the verdict on a line. -/
theorem exists_failsOn {source : String} {e : Error} (h : assemble source = .error e) :
    ∃ k, FailsOn source k e := by
  cases hp : Line.parseSource source with
  | error e' =>
    obtain rfl : e' = e := Except.error.inj ((assemble_of_unread hp).symm.trans h)
    rw [Line.parseSource_eq_checkAll, checkAll_eq_error_iff] at hp
    obtain ⟨k, hk⟩ := hp
    exact ⟨k, .reading hk⟩
  | ok lines =>
    have hr := parseSource_eq_ok_iff.mp hp
    cases hs : Survey.ofLines lines with
    | error e' =>
      obtain rfl : e' = e := Except.error.inj ((assemble_of_unsurveyed hp hs).symm.trans h)
      obtain ⟨k, hk⟩ := Survey.ofLines_eq_error_iff_failsFirst.mp hs
      exact ⟨k, .surveying hr hk⟩
    | ok survey =>
      cases hf : (Emission.ofLines survey.table 0 lines).failure with
      | none => simp [assemble_of_none hp hs hf] at h
      | some e' =>
        obtain rfl : e' = e := Except.error.inj ((assemble_of_failure hp hs hf).symm.trans h)
        rw [Emission.failure_eq_some_iff, checkAll_eq_error_iff] at hf
        obtain ⟨k, hk⟩ := hf
        exact ⟨k, .emitting hr hs hk⟩

/-- Assembly reports the first line that cannot be read; if all can be read, the first that the
survey refuses; if it refuses none, the first that cannot be expanded with all labels known.  If
there is none of these either, the code is the expansions of the lines, one behind the other. -/
theorem assemble_reports_first_failure (source : String) :
    (∀ k e, FailsFirst Line.readAfter (Text.lines source) k e → assemble source = .error e) ∧
    ((∀ k e, ¬ FailsFirst Line.readAfter (Text.lines source) k e) →
      ∃ lines, Yields Line.readAfter (Text.lines source) lines ∧
        (∀ k e, FailsFirst Line.surveyAfter lines k e → assemble source = .error e) ∧
        ((∀ k e, ¬ FailsFirst Line.surveyAfter lines k e) →
          ∃ survey, Survey.ofLines lines = .ok survey ∧
            (∀ k e, FailsFirst (Line.emitAfter survey.table 0) lines k e →
              assemble source = .error e) ∧
            ((∀ k e, ¬ FailsFirst (Line.emitAfter survey.table 0) lines k e) →
              ∃ blocks p, Yields (Line.emitAfter survey.table 0) lines blocks ∧
                assemble source = .ok p ∧ p.table = survey.table ∧ p.code = blocks.flatten))) := by
  refine ⟨fun k e h => assemble_of_failsOn (.reading h), fun hread => ?_⟩
  obtain ⟨lines, hr⟩ := exists_yields hread
  refine ⟨lines, hr, fun k e h => assemble_of_failsOn (.surveying hr h), fun hsurvey => ?_⟩
  cases hs : Survey.ofLines lines with
  | error e =>
    obtain ⟨k, hk⟩ := Survey.ofLines_eq_error_iff_failsFirst.mp hs
    exact absurd hk (hsurvey k e)
  | ok survey =>
    refine ⟨survey, rfl, fun k e h => assemble_of_failsOn (.emitting hr hs h), fun hemit => ?_⟩
    obtain ⟨blocks, hb⟩ := exists_yields hemit
    obtain ⟨hf, hc⟩ := Emission.code_of_yields hb
    exact ⟨blocks, _, hb, assemble_of_none (parseSource_eq_ok_iff.mpr hr) hs hf, rfl, hc⟩

/-- A name that is defined twice is reported before a bad register on an earlier line, and a source
without faults gives the words of its lines in order. -/
theorem assemble_reports_first_failure_twice :
    assemble "add r9, r1, r1\nx: nop\nx: nop" = .error ((Fault.redefinedLabel "x" 2).onLine 3) ∧
    ∃ p, assemble "x: lli r1, 70\nbeq r0, r0, x" = .ok p ∧
      p.code = [⟨0, 1, .addi ⟨1⟩ ⟨1⟩ ⟨6⟩⟩, ⟨1, 2, .beq ⟨0⟩ ⟨0⟩ ⟨126⟩⟩] := by
  constructor
  · have hr : Yields Line.readAfter (Text.lines "add r9, r1, r1\nx: nop\nx: nop")
        [⟨1, "add r9, r1, r1", none, .instruction "add" ["r9", "r1", "r1"], none⟩,
          ⟨2, "x: nop", some "x", .instruction "nop" [], none⟩,
          ⟨3, "x: nop", some "x", .instruction "nop" [], none⟩] :=
      .of_toOption (by decide +kernel)
    obtain ⟨lines, hy, hfail, -⟩ :=
      (assemble_reports_first_failure _).2 fun k e => hr.not_failsFirst
    obtain rfl := hr.unique hy
    apply hfail 2
    rw [failsFirst_succ_iff, failsFirst_succ_iff, failsFirst_zero_iff]
    exact ⟨⟨(), rfl⟩, ⟨(), rfl⟩, rfl⟩
  · have hr : Yields Line.readAfter (Text.lines "x: lli r1, 70\nbeq r0, r0, x")
        [⟨1, "x: lli r1, 70", some "x", .instruction "lli" ["r1", "70"], none⟩,
          ⟨2, "beq r0, r0, x", none, .instruction "beq" ["r0", "r0", "x"], none⟩] :=
      .of_toOption (by decide +kernel)
    obtain ⟨lines, hy, -, hpass⟩ :=
      (assemble_reports_first_failure _).2 fun k e => hr.not_failsFirst
    obtain rfl := hr.unique hy
    have hu : Yields Line.surveyAfter
        [⟨1, "x: lli r1, 70", some "x", .instruction "lli" ["r1", "70"], none⟩,
          ⟨2, "beq r0, r0, x", none, .instruction "beq" ["r0", "r0", "x"], none⟩] [(), ()] :=
      .of_toOption (by decide +kernel)
    obtain ⟨survey, hs, -, hemit⟩ := hpass fun k e => hu.not_failsFirst
    have hv : Survey.ofLines
        [⟨1, "x: lli r1, 70", some "x", .instruction "lli" ["r1", "70"], none⟩,
          ⟨2, "beq r0, r0, x", none, .instruction "beq" ["r0", "r0", "x"], none⟩] =
        .ok ⟨⟨[⟨"x", 1, .address 0⟩]⟩, 2⟩ :=
      eq_ok_of_toOption (by decide +kernel)
    obtain rfl := Except.ok.inj (hv.symm.trans hs)
    have hb : Yields (Line.emitAfter ⟨[⟨"x", 1, .address 0⟩]⟩ 0)
        [⟨1, "x: lli r1, 70", some "x", .instruction "lli" ["r1", "70"], none⟩,
          ⟨2, "beq r0, r0, x", none, .instruction "beq" ["r0", "r0", "x"], none⟩]
        [[⟨0, 1, .addi ⟨1⟩ ⟨1⟩ ⟨6⟩⟩], [⟨1, 2, .beq ⟨0⟩ ⟨0⟩ ⟨126⟩⟩]] :=
      .of_toOption (by decide +kernel)
    obtain ⟨blocks, p, hy', hp, -, hc⟩ := hemit fun k e => hb.not_failsFirst
    obtain rfl := hb.unique hy'
    exact ⟨p, hp, hc⟩

end Risc16
