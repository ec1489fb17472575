import Risc16.Proofs.Emission
import Risc16.Proofs.Source

/-! # The layout of a program

The survey assigns addresses before any word exists.  In a program that was assembled, the words
lie where the survey expected them: addresses count the words, each instruction line has its words
side by side in the order of the source, and a label stands for the first word that comes from its
own line or a later one.
-/
namespace Risc16

/-- A line has its words side by side, behind those of earlier lines and before those of later
ones. -/
def Line.Occupies (line : Line) (code : List Placed) (count : Nat) : Prop :=
  ∃ before block after, code = before ++ block ++ after ∧ block.length = count ∧
    (∀ word ∈ before, word.line < line.number) ∧ (∀ word ∈ block, word.line = line.number) ∧
    ∀ word ∈ after, line.number < word.line

theorem Line.Occupies.line_ne {line : Line} {code : List Placed} (h : line.Occupies code 0)
    {word : Placed} (hw : word ∈ code) : word.line ≠ line.number := by
  obtain ⟨before, block, after, rfl, hb, h₁, -, h₃⟩ := h
  rw [List.length_eq_zero_iff.mp hb, List.append_nil, List.mem_append] at hw
  rcases hw with hw | hw
  · exact Nat.ne_of_lt (h₁ word hw)
  · exact Nat.ne_of_gt (h₃ word hw)

namespace Emission

variable {table : SymbolTable} {pc : Nat} {line : Line} {before after : List Line}

theorem line_lt_of_mem_before (hn : Line.Ascending (before ++ line :: after)) {word : Placed}
    (h : word ∈ (ofLines table pc before).code) : word.line < line.number := by
  obtain ⟨other, ho, he⟩ := exists_line_of_mem h
  rw [he]
  exact hn.lt_of_mem_before ho

theorem line_lt_of_mem_after (hn : Line.Ascending (line :: after)) {word : Placed}
    (h : word ∈ (ofLines table pc after).code) : line.number < word.line := by
  obtain ⟨other, ho, he⟩ := exists_line_of_mem h
  rw [he]
  exact hn.lt_of_mem_after ho

theorem line_le_of_mem (hn : Line.Ascending (line :: after)) {word : Placed}
    (h : word ∈ (ofLines table pc (line :: after)).code) : line.number ≤ word.line := by
  obtain ⟨other, ho, he⟩ := exists_line_of_mem h
  rw [he]
  rcases List.mem_cons.mp ho with rfl | ho
  · exact Nat.le_refl _
  · exact Nat.le_of_lt (hn.lt_of_mem_after ho)

theorem pairwise_line_code {lines : List Line} (hn : Line.Ascending lines)
    (h : (ofLines table pc lines).failure = none) :
    ((ofLines table pc lines).code.map Placed.line).Pairwise (· ≤ ·) := by
  induction lines generalizing pc with
  | nil => exact List.Pairwise.nil
  | cons line rest ih =>
    rw [ofLines_cons, failure_followedBy_eq_none_iff] at h
    rw [ofLines_cons, followedBy_of_none h.1, List.map_append, List.pairwise_append]
    refine ⟨?_, ih hn.of_cons h.2, ?_⟩
    · rw [List.pairwise_map]
      apply List.pairwise_of_forall_mem_list
      intro a ha b hb
      exact Nat.le_of_eq ((line_of_mem_ofLine ha).trans (line_of_mem_ofLine hb).symm)
    · intro m hm n hn'
      obtain ⟨a, ha, rfl⟩ := List.mem_map.mp hm
      obtain ⟨b, hb, rfl⟩ := List.mem_map.mp hn'
      rw [line_of_mem_ofLine ha]
      exact Nat.le_of_lt (line_lt_of_mem_after hn hb)

theorem occupies_code (hn : Line.Ascending (before ++ line :: after))
    (h : (ofLines table pc (before ++ line :: after)).failure = none) :
    line.Occupies (ofLines table pc (before ++ line :: after)).code line.width := by
  rw [ofLines_append, ofLines_cons, failure_followedBy_eq_none_iff,
    failure_followedBy_eq_none_iff] at h
  obtain ⟨hb, hl, -⟩ := h
  rw [ofLines_append, ofLines_cons, followedBy_of_none hb, followedBy_of_none hl]
  refine ⟨_, _, _, (List.append_assoc _ _ _).symm, length_code_ofLine hl, ?_, ?_, ?_⟩
  · exact fun word hw => line_lt_of_mem_before hn hw
  · exact fun word hw => line_of_mem_ofLine hw
  · exact fun word hw => line_lt_of_mem_after hn.of_append hw

/-- At each line the code falls into the words of earlier lines and the others. -/
theorem code_cut (hn : Line.Ascending (before ++ line :: after))
    (h : (ofLines table pc (before ++ line :: after)).failure = none) :
    ∃ front back, (ofLines table pc (before ++ line :: after)).code = front ++ back ∧
      front.length = totalWidth before ∧
      back.map Placed.address = List.range' (pc + totalWidth before) back.length ∧
      (∀ word ∈ front, word.line < line.number) ∧ ∀ word ∈ back, line.number ≤ word.line := by
  rw [ofLines_append, failure_followedBy_eq_none_iff] at h
  rw [ofLines_append, followedBy_of_none h.1]
  refine ⟨_, _, rfl, length_code h.1, address_code _ _ _, ?_, ?_⟩
  · exact fun word hw => line_lt_of_mem_before hn hw
  · exact fun word hw => line_le_of_mem hn.of_append hw

theorem countP_code (hn : Line.Ascending (before ++ line :: after))
    (h : (ofLines table pc (before ++ line :: after)).failure = none) :
    (ofLines table pc (before ++ line :: after)).code.countP (·.line < line.number) =
      totalWidth before := by
  obtain ⟨front, back, hc, hl, -, hf, hb⟩ := code_cut hn h
  have hcf : front.countP (·.line < line.number) = front.length := by
    rw [List.countP_eq_length]
    intro word hw
    exact decide_eq_true (hf word hw)
  have hcb : back.countP (·.line < line.number) = 0 := by
    rw [List.countP_eq_zero]
    intro word hw
    have := hb word hw
    simp only [decide_eq_true_eq]
    omega
  rw [hc, List.countP_append, hcf, hcb, hl, Nat.add_zero]

theorem address_find?_code (hn : Line.Ascending (before ++ line :: after))
    (h : (ofLines table 0 (before ++ line :: after)).failure = none) :
    (((ofLines table 0 (before ++ line :: after)).code.find? (line.number ≤ ·.line)).map
      Placed.address).getD (ofLines table 0 (before ++ line :: after)).code.length =
        totalWidth before := by
  obtain ⟨front, back, hc, hl, ha, hf, hb⟩ := code_cut hn h
  have hff : front.find? (line.number ≤ ·.line) = none := by
    rw [List.find?_eq_none]
    intro word hw
    have := hf word hw
    simp only [decide_eq_true_eq]
    omega
  rw [hc, List.find?_append, hff, Option.none_or]
  cases back with
  | nil => simp [hl]
  | cons word rest =>
    have hw : line.number ≤ word.line := hb word List.mem_cons_self
    rw [List.map_cons, List.length_cons, List.range'_succ, List.cons.injEq] at ha
    rw [List.find?_cons_of_pos (by simpa using hw), Option.map_some, Option.getD_some, ha.1,
      Nat.zero_add]

end Emission

/-- How the code of a program lies beside the lines of its source and their survey. -/
structure Program.Layout (p : Program) (lines : List Line) (survey : Survey) : Prop where
  /-- Addresses count the words from zero on. -/
  address_eq : ∀ (i : Nat) (h : i < p.code.length), p.code[i].address = i
  /-- Words stand in the order of their lines. -/
  ordered : (p.code.map Placed.line).Pairwise (· ≤ ·)
  /-- Every word comes from a line of the source. -/
  origin : ∀ word ∈ p.code, ∃ line ∈ lines, word.line = line.number
  /-- An instruction line has exactly the words of its mnemonic, side by side. -/
  instruction : ∀ line ∈ lines, ∀ name operands,
    line.statement = .instruction name operands →
      ∃ mnemonic, Mnemonic.parse name = .ok mnemonic ∧ line.Occupies p.code mnemonic.width
  /-- Any other line has no words. -/
  silent : ∀ line ∈ lines, line.statement.isInstruction = false →
    ∀ word ∈ p.code, word.line ≠ line.number
  /-- A label of a line without a directive stands for the number of words from earlier lines,
  which is the address of the first word from this line on. -/
  label : ∀ line ∈ lines, ∀ name, line.label = some name →
    (∀ directive operands, line.statement ≠ .directive directive operands) →
      p.table.get? name = some (.address (p.code.countP (·.line < line.number))) ∧
      p.code.countP (·.line < line.number) =
        ((p.code.find? (line.number ≤ ·.line)).map Placed.address).getD p.code.length
  /-- The survey has counted the words. -/
  size_eq : survey.size = p.code.length

/-- In every program that was assembled, the survey and the code agree on all addresses. -/
theorem layout_of_assemble {source : String} {p : Program} (h : assemble source = .ok p) :
    ∃ lines survey, Line.parseSource source = .ok lines ∧
      lines.map Line.number = List.range' 1 (Text.lines source).length ∧
      Survey.ofLines lines = .ok survey ∧ survey.table = p.table ∧ p.Layout lines survey := by
  obtain ⟨lines, survey, hp, hs, he, rfl⟩ := assemble_eq_ok_iff.mp h
  have hn : Line.Ascending lines := Line.ascending_of_parseSource hp
  have hv : Survey.start.advance lines = (survey, none) := Survey.ofLines_eq_ok_iff.mp hs
  refine ⟨lines, survey, hp, Line.map_number_of_parseSource hp, hs, rfl, ?_⟩
  constructor
  case address_eq => exact fun i hi => Emission.address_getElem_code survey.table lines i hi
  case ordered => exact Emission.pairwise_line_code hn he
  case origin => exact fun word hw => Emission.exists_line_of_mem hw
  case instruction =>
    intro line hl name operands hst
    obtain ⟨before, after, rfl⟩ := List.append_of_mem hl
    obtain ⟨instrs, hx⟩ := Emission.expandAt_of_failure_eq_none he
    obtain ⟨mnemonic, hm, -⟩ := Line.known_of_expandAt hst hx
    refine ⟨mnemonic, hm, ?_⟩
    rw [← Line.width_of_instruction hst hm]
    exact Emission.occupies_code hn he
  case silent =>
    intro line hl hst word hw
    obtain ⟨before, after, rfl⟩ := List.append_of_mem hl
    have ho := Emission.occupies_code hn he
    rw [Line.width_eq_zero hst] at ho
    exact Line.Occupies.line_ne ho hw
  case label =>
    intro line hl name hname hst
    obtain ⟨before, after, rfl⟩ := List.append_of_mem hl
    have hg := Survey.get?_of_advance hv hname hst
    have hc := Emission.countP_code hn he
    constructor
    · exact hg.trans (by rw [← hc, Survey.start, Nat.zero_add]; rfl)
    · exact hc.trans (Emission.address_find?_code hn he).symm
  case size_eq =>
    have hz : survey.size = 0 + totalWidth lines := Survey.size_of_advance hv
    rw [hz, Nat.zero_add]
    exact (Emission.length_code he).symm

/-- A label behind a line of two words and a line of none. -/
theorem layout_of_assemble_movi :
    ∃ p lines survey, assemble "movi r1, 1000\n\nend: halt" = .ok p ∧
      p.code = [⟨0, 1, .lui ⟨1⟩ ⟨15⟩⟩, ⟨1, 1, .addi ⟨1⟩ ⟨1⟩ ⟨40⟩⟩, ⟨2, 3, .jalr ⟨0⟩ ⟨0⟩⟩] ∧
      p.table.get? "end" = some (.address 2) ∧
      Line.parseSource "movi r1, 1000\n\nend: halt" = .ok lines ∧
      Survey.ofLines lines = .ok survey ∧ p.Layout lines survey := by
  have h : (assemble "movi r1, 1000\n\nend: halt").toOption.map
      (fun p => (p.code, p.table.get? "end")) =
        some ([⟨0, 1, .lui ⟨1⟩ ⟨15⟩⟩, ⟨1, 1, .addi ⟨1⟩ ⟨1⟩ ⟨40⟩⟩, ⟨2, 3, .jalr ⟨0⟩ ⟨0⟩⟩],
          some (.address 2)) := by
    decide +kernel
  obtain ⟨p, hp, hc⟩ := Option.map_eq_some_iff.mp h
  rw [Prod.mk.injEq] at hc
  obtain ⟨lines, survey, hl, -, hs, -, hlayout⟩ := layout_of_assemble (eq_ok_of_toOption hp)
  exact ⟨p, lines, survey, eq_ok_of_toOption hp, hc.1, hc.2, hl, hs, hlayout⟩

end Risc16
