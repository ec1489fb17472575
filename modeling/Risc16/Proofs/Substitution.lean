import Risc16.Proofs.Layout
import Risc16.Proofs.Unlabelled
import Risc16.Proofs.Warning

/-! # What a label is replaced by

The emission rewrites lines while it counts addresses.  In the end each line of a program is its
line of the source, with other texts for some operands of an instruction and with nothing else
changed.  The new text of an operand depends on the old one, the table of all labels and the address
of the line, and on no other operand and no other line.
-/
namespace Risc16

/-- The text that stands for an operand of an instruction at address `pc`.  A label for an address
is a distance from the next instruction in a branch and a number anywhere else, a label for a text
is that text, even if there is a label of this name, and all else stands for itself. -/
inductive SymbolTable.Replaces (table : SymbolTable) (mnemonic : String) (pc : Nat)
    (operand : String) : String → Prop where
  | distance {addr : Nat} (hb : mnemonic.toLower = "beq")
      (h : table.get? operand = some (.address addr)) :
      Replaces table mnemonic pc operand (Text.decimal ((addr : Int) - pc - 1))
  | address {addr : Nat} (hb : mnemonic.toLower ≠ "beq")
      (h : table.get? operand = some (.address addr)) :
      Replaces table mnemonic pc operand (Text.decimal addr)
  | literal {text : String} (h : table.get? operand = some (.literal text)) :
      Replaces table mnemonic pc operand text
  | unbound (h : table.get? operand = none) : Replaces table mnemonic pc operand operand

theorem SymbolTable.replaces_iff {table : SymbolTable} {name : String} {mnemonic : Mnemonic}
    (hm : Mnemonic.parse name = .ok mnemonic) {pc : Nat} {operand text : String} :
    table.Replaces name pc operand text ↔ table.resolve mnemonic pc operand = text := by
  have hbranch := Mnemonic.isBranch_of_parse hm
  unfold resolve
  constructor
  · intro h
    cases h with
    | distance hb h => simp only [h, if_pos (hbranch.mpr hb)]
    | address hb h => simp only [h, if_neg (mt hbranch.mp hb)]
    | literal h => simp only [h]
    | unbound h => simp only [h]
  · rintro rfl
    split
    next addr h =>
      by_cases hb : mnemonic.isBranch = true
      · rw [if_pos hb]
        exact .distance (hbranch.mp hb) h
      · rw [if_neg hb]
        exact .address (mt hbranch.mpr hb) h
    next h => exact .literal h
    next h => exact .unbound h

/-- Statements of one kind: both say nothing, both are directives or both are instructions. -/
inductive Statement.SameKind : Statement → Statement → Prop where
  | blank : SameKind .blank .blank
  | directive {name other : String} {operands others : List String} :
      SameKind (.directive name operands) (.directive other others)
  | instruction {name other : String} {operands others : List String} :
      SameKind (.instruction name operands) (.instruction other others)

/-- Lines that agree in everything except the texts of their operands. -/
structure Line.SameFrame (line other : Line) : Prop where
  number : line.number = other.number
  raw : line.raw = other.raw
  label : line.label = other.label
  comment : line.comment = other.comment
  kind : line.statement.SameKind other.statement
  head : line.statement.tokens.head? = other.statement.tokens.head?
  length : line.statement.tokens.length = other.statement.tokens.length

namespace Line

variable {line : Line} {table : SymbolTable} {pc : Nat} {name : String} {operands : List String}

theorem sameFrame_resolve {instrs : List Instr} (h : line.expandAt table pc = .ok instrs) :
    line.SameFrame (line.resolve table pc) := by
  have hr := line.resolve_eq table pc
  cases hs : line.statement with
  | blank | directive =>
    rw [resolve_of_silent (by rw [hs]; rfl)]
    exact ⟨rfl, rfl, rfl, rfl, by rw [hs]; constructor, rfl, rfl⟩
  | instruction name operands =>
    obtain ⟨mnemonic, hm, -⟩ := known_of_expandAt hs h
    have hst := statement_resolve hs hm table pc
    constructor
    case number => rw [hr]
    case raw => rw [hr]
    case label => rw [hr]
    case comment => rw [hr]
    case kind =>
      rw [hs, hst]
      exact .instruction
    case head =>
      rw [hs, hst]
      rfl
    case length =>
      rw [hs, hst]
      simp [Statement.tokens]

/-- Each operand of a line that is emitted is replaced by itself. -/
theorem getElem?_operands_resolve {instrs : List Instr} (h : line.expandAt table pc = .ok instrs)
    (hs : line.statement = .instruction name operands) {j : Nat} {operand : String}
    (hj : operands[j]? = some operand) (text : String) :
    (line.resolve table pc).statement.operands[j]? = some text ↔
      table.Replaces name pc operand text := by
  obtain ⟨mnemonic, hm, -⟩ := known_of_expandAt hs h
  have ho : (line.resolve table pc).statement.operands =
      operands.map (table.resolve mnemonic pc) := by
    rw [statement_resolve hs hm]
    rfl
  rw [ho, List.getElem?_map, hj, Option.map_some, Option.some.injEq, SymbolTable.replaces_iff hm]

end Line

namespace Emission

variable {table : SymbolTable} {pc : Nat} {line : Line} {before after lines : List Line}

theorem length_lines (h : (ofLines table pc lines).failure = none) :
    (ofLines table pc lines).lines.length = lines.length := by
  have hn := congrArg List.length (map_number_lines h)
  rwa [List.length_map, List.length_map] at hn

/-- A line is resolved at the address that the lines before it leave. -/
theorem getElem?_lines (h : (ofLines table pc (before ++ line :: after)).failure = none) :
    (ofLines table pc (before ++ line :: after)).lines[before.length]? =
      some (line.resolve table (pc + totalWidth before)) := by
  obtain ⟨instrs, hx⟩ := expandAt_of_failure_eq_none h
  rw [ofLines_append, failure_followedBy_eq_none_iff] at h
  rw [ofLines_append, followedBy_of_none h.1,
    List.getElem?_append_right (Nat.le_of_eq (length_lines h.1)), length_lines h.1, Nat.sub_self,
    ofLines_cons, ofLine_of_ok hx, followedBy_of_none rfl]
  rfl

/-- The first word that comes from an instruction line is at the address where it is resolved. -/
theorem find?_code (hn : Line.Ascending (before ++ line :: after))
    (h : (ofLines table pc (before ++ line :: after)).failure = none) {name : String}
    {operands : List String} (hs : line.statement = .instruction name operands) :
    ∃ word, (ofLines table pc (before ++ line :: after)).code.find? (·.line == line.number) =
      some word ∧ word.address = pc + totalWidth before := by
  obtain ⟨instrs, hx⟩ := expandAt_of_failure_eq_none h
  obtain ⟨mnemonic, hm, he⟩ := Line.known_of_expandAt hs hx
  rw [ofLines_append, failure_followedBy_eq_none_iff] at h
  have hbefore : (ofLines table pc before).code.find? (·.line == line.number) = none := by
    rw [List.find?_eq_none]
    intro word hw hb
    exact Nat.ne_of_lt (line_lt_of_mem_before hn hw) (beq_iff_eq.mp hb)
  have hlength := Mnemonic.length_expand he
  cases instrs with
  | nil =>
    have hpos : 0 < mnemonic.width := by
      unfold Mnemonic.width
      split <;> decide
    exact absurd hlength (Nat.ne_of_lt hpos)
  | cons instr rest =>
    refine ⟨⟨pc + totalWidth before, line.number, instr⟩, ?_, rfl⟩
    rw [ofLines_append, followedBy_of_none h.1, List.find?_append, hbefore, Option.none_or,
      ofLines_cons, ofLine_of_ok hx, followedBy_of_none rfl]
    exact List.find?_cons_of_pos (beq_self_eq_true line.number)

end Emission

/-- Every line of a program is its line of the source with its labels replaced.  Nothing but the
operands of instructions changes, and each of these is replaced by itself, in view of all labels of
the source and of the address that the first word of its line has got. -/
theorem labels_replaced_pointwise {source : String} {p : Program} (h : assemble source = .ok p) :
    ∃ lines, Line.parseSource source = .ok lines ∧ p.lines.length = lines.length ∧
      ∀ (k : Nat) (line after : Line), lines[k]? = some line → p.lines[k]? = some after →
        line.SameFrame after ∧
        (line.statement.isInstruction = false → after.statement.tokens = line.statement.tokens) ∧
        ∀ name operands, line.statement = .instruction name operands →
          ∃ first, p.code.find? (·.line == line.number) = some first ∧
            ∀ (j : Nat) (operand : String), operands[j]? = some operand → ∀ text,
              after.statement.operands[j]? = some text ↔
                p.table.Replaces name first.address operand text := by
  obtain ⟨lines, survey, hp, hs, he, rfl⟩ := assemble_eq_ok_iff.mp h
  have hn : Line.Ascending lines := Line.ascending_of_parseSource hp
  refine ⟨lines, hp, Emission.length_lines he, ?_⟩
  intro k line after hk ha
  have hcut := eq_take_append_of_getElem? hk
  have hlength : (lines.take k).length = k := by
    rw [List.length_take, Nat.min_eq_left (Nat.le_of_lt (List.getElem?_eq_some_iff.mp hk).1)]
  rw [hcut] at he hn
  obtain ⟨instrs, hx⟩ := Emission.expandAt_of_failure_eq_none he
  have hafter : after = line.resolve survey.table (0 + totalWidth (lines.take k)) := by
    have hl := Emission.getElem?_lines he
    rw [← hcut, hlength] at hl
    exact Option.some.inj (ha.symm.trans hl)
  subst hafter
  refine ⟨Line.sameFrame_resolve hx, ?_, ?_⟩
  · intro hi
    rw [Line.resolve_of_silent hi]
  · intro name operands hst
    obtain ⟨first, hf, haddress⟩ := Emission.find?_code hn he hst
    rw [← hcut] at hf
    refine ⟨first, hf, ?_⟩
    intro j operand hj text
    rw [haddress]
    exact Line.getElem?_operands_resolve hx hst hj text

/-- A label for a text that is a label itself is replaced once, a label for an address is a distance
in one line and a number in another, and a name that no line defines stays. -/
theorem labels_replaced_pointwise_once :
    ∃ p first, assemble "x: .fill y\ny: beq r0, r0, y\nhalt x, y, z" = .ok p ∧
      p.lines.map (·.statement) = [.directive ".fill" ["y"], .instruction "beq" ["r0", "r0", "-1"],
        .instruction "halt" ["y", "0", "z"]] ∧
      p.table.get? "y" = some (.address 0) ∧
      p.code.find? (·.line == 3) = some first ∧ p.table.Replaces "halt" first.address "x" "y" ∧
      p.table.Replaces "halt" first.address "y" "0" ∧
      p.table.Replaces "halt" first.address "z" "z" := by
  have h : (assemble "x: .fill y\ny: beq r0, r0, y\nhalt x, y, z").toOption.map (fun p =>
      (p.lines.map (·.statement), p.table.get? "y")) =
        some ([.directive ".fill" ["y"], .instruction "beq" ["r0", "r0", "-1"],
          .instruction "halt" ["y", "0", "z"]], some (.address 0)) := by
    decide +kernel
  obtain ⟨p, hp, hshown⟩ := Option.map_eq_some_iff.mp h
  obtain ⟨hstatements, hy⟩ := Prod.mk.inj hshown
  have hread : Line.parseSource "x: .fill y\ny: beq r0, r0, y\nhalt x, y, z" = .ok
      [⟨1, "x: .fill y", some "x", .directive ".fill" ["y"], none⟩,
        ⟨2, "y: beq r0, r0, y", some "y", .instruction "beq" ["r0", "r0", "y"], none⟩,
        ⟨3, "halt x, y, z", none, .instruction "halt" ["x", "y", "z"], none⟩] :=
    eq_ok_of_toOption (by decide +kernel)
  obtain ⟨lines, hl, -, hall⟩ := labels_replaced_pointwise (eq_ok_of_toOption hp)
  obtain rfl := Except.ok.inj (hread.symm.trans hl)
  have hthird := congrArg (·[2]?) hstatements
  rw [List.getElem?_map] at hthird
  obtain ⟨after, ha, hst⟩ := Option.map_eq_some_iff.mp hthird
  obtain ⟨-, -, hoperands⟩ := hall 2 _ after rfl ha
  obtain ⟨first, hf, hreplaced⟩ := hoperands "halt" ["x", "y", "z"] rfl
  rw [hst] at hreplaced
  exact ⟨p, first, eq_ok_of_toOption hp, hstatements, hy, hf, (hreplaced 0 "x" rfl "y").mp rfl,
    (hreplaced 1 "y" rfl "0").mp rfl, (hreplaced 2 "z" rfl "z").mp rfl⟩

end Risc16
