import Mathlib.Data.List.DropRight
import Mathlib.Data.List.Forall2
import Risc16.Proofs.LabelName
import Risc16.Proofs.Layout
import Risc16.Proofs.Unbroken
import Risc16.Proofs.Unlabelled
import Risc16.Report.Listing

/-! # Listings of programs

A listing looks for the words of a line all over the code, by the number of the line.  Since numbers
ascend and words keep the order of their lines, it finds for each line just the words that the line
has emitted: the rows of a program are those of its first line followed by the rows of the rest.
-/
namespace Risc16

namespace Line

variable {line : Line}

theorem unbroken_label_of_parse {number : Nat} {raw name : String}
    (h : parse number raw = .ok line) (hl : line.label = some name) : Text.Unbroken name := by
  intro hm
  exact absurd ((labelName_of_parse h hl).solid '\n' hm).1 (by decide)

theorem unbroken_comment_of_parse {number : Nat} {raw text : String} (hr : Text.Unbroken raw)
    (h : parse number raw = .ok line) (hc : line.comment = some text) : Text.Unbroken text := by
  obtain ⟨label, statement, -, rfl⟩ := parse_eq_ok_iff.mp h
  obtain ⟨cs, hcut, rfl⟩ := Option.map_eq_some_iff.mp hc
  intro hm
  rw [String.toList_ofList] at hm
  apply hr
  rw [Text.eq_append_of_cut (Prod.ext rfl hcut)]
  exact List.mem_append_right _ (List.mem_cons_of_mem _ ((List.rdropWhile_prefix _ _).subset hm))

theorem unbroken_columns (h : line.Tokenised) :
    ∀ span ∈ line.statement.columns, Text.Unbroken span.text := by
  have hsolid := h.solid
  cases hs : line.statement with
  | blank => simp [Statement.columns]
  | directive name operands =>
    rw [hs] at hsolid
    have hall : Text.Unbroken (" ".intercalate (name :: operands)) :=
      Token.unbroken_intercalate (by decide) hsolid
    simpa [Statement.columns, Text.Span.coloured] using hall
  | instruction name operands =>
    rw [hs] at hsolid
    obtain ⟨hname, hoperands⟩ := List.forall_mem_cons.mp hsolid
    have hjoined : Text.Unbroken (", ".intercalate operands) :=
      Token.unbroken_intercalate (by decide) hoperands
    simpa [Statement.columns, Text.Span.coloured] using ⟨hname.unbroken, hjoined⟩

theorem unbroken_painted (h : line.Tokenised)
    (hl : ∀ name, line.label = some name → Text.Unbroken name)
    (hc : ∀ text, line.comment = some text → Text.Unbroken text) :
    Text.Unbroken line.painted := by
  apply Text.unbroken_paint
  rw [List.forall_mem_append, List.forall_mem_append]
  refine ⟨⟨?_, unbroken_columns h⟩, ?_⟩
  · cases hlabel : line.label with
    | none => simp
    | some name =>
      have hcolon : Text.Unbroken ":" ∧ Text.Unbroken " " := by decide
      simp [Text.Span.coloured, Text.Span.plain, hl name hlabel, hcolon]
  · cases hcomment : line.comment with
    | none => simp
    | some text =>
      have hmark : Text.Unbroken " #" := by decide
      simp [Text.Span.plain, hc text hcomment, hmark]

end Line

theorem Program.unbroken_painted {source : String} {p : Program} (h : assemble source = .ok p)
    {line : Line} (hm : line ∈ p.lines) : Text.Unbroken line.painted := by
  have htokens := (resolved_of_assemble h).tokenised line hm
  obtain ⟨lines, survey, hp, hs, he, rfl⟩ := assemble_eq_ok_iff.mp h
  obtain ⟨other, ho, pc, rfl⟩ := Emission.mem_lines hm
  obtain ⟨number, raw, hparse⟩ := Line.exists_parse_of_mem hp ho
  have hraw : raw ∈ Text.lines source := by
    rw [← Line.map_raw_of_parseFrom hp, ← Line.raw_of_parse hparse]
    exact List.mem_map_of_mem ho
  have hr := other.resolve_eq survey.table pc
  apply Line.unbroken_painted htokens
  · intro name hl
    rw [hr] at hl
    exact Line.unbroken_label_of_parse hparse hl
  · intro text hc
    rw [hr] at hc
    exact Line.unbroken_comment_of_parse (Text.unbroken_of_mem_lines hraw) hparse hc

def Program.emits (p : Program) (line : Line) : Bool := p.code.any (·.line == line.number)

namespace Listing

theorem length_rowsOf (line : Line) (words : List Placed) :
    (rowsOf line words).length = words.length + if words.isEmpty then 1 else 0 := by
  cases words with
  | nil => rfl
  | cons word rest => simp [rowsOf]

/-- No line is left out and none is shown twice, whatever the code is. -/
theorem filterMap_line?_rows (p : Program) : (rows p).filterMap Row.line? = p.lines := by
  simp [rows, List.filterMap_flatMap]

/-- All rows show a word, except one for each line without words. -/
theorem length_rows (p : Program) :
    (rows p).length = ((rows p).filterMap Row.word?).length + p.lines.countP (!p.emits ·) := by
  unfold rows
  induction p.lines with
  | nil => rfl
  | cons line rest ih =>
    have he : (p.code.filter (·.line == line.number)).isEmpty = !p.emits line := by
      rw [Program.emits, Bool.eq_iff_iff]
      simp
    rw [List.flatMap_cons, List.length_append, List.filterMap_append, List.length_append, ih,
      length_rowsOf, filterMap_word?_rowsOf, List.countP_cons, he]
    omega

/-- A row has columns for a word and columns for a line.  The first are blank on a silent row, the
others are missing on a continuation. -/
theorem Row.text_eq (row : Row) :
    row.text =
      row.word?.elim (String.ofList (List.replicate 29 ' ') ++ "| ")
          (fun word => "[" ++ Text.paint [.coloured .green (Text.hex 4 word.address)] ++ "] " ++
            Text.hex 4 word.instr.encode.toNat ++ " " ++ WordFile.renderWord word.instr.encode ++
            " | " ++ Text.padRight 32 word.instr.painted ++ " ") ++
        row.line?.elim "" fun line =>
          Text.padLeft 4 (Text.decimal line.number) ++ ": " ++ line.painted := by
  cases row with
  | silent line => rfl
  | first word line => rfl
  | next word => exact String.append_empty.symm

theorem unbroken_wordColumns (word : Placed) : Text.Unbroken (wordColumns word) := by
  have haddress : Text.Unbroken (Text.paint [.coloured .green (Text.hex 4 word.address)]) :=
    Text.unbroken_coloured (Text.unbroken_hex 4 word.address)
  simp only [wordColumns, Text.unbroken_append, Text.unbroken_padRight, haddress, Text.unbroken_hex,
    WordFile.unbroken_renderWord, Instr.unbroken_painted]
  decide

theorem unbroken_sourceColumns {line : Line} (h : Text.Unbroken line.painted) :
    Text.Unbroken (sourceColumns line) := by
  simp only [sourceColumns, Text.unbroken_append, Text.unbroken_padLeft,
    (Instr.solid_decimal _).unbroken, h]
  decide

theorem Row.unbroken_text {row : Row}
    (h : ∀ line, row.line? = some line → Text.Unbroken line.painted) : Text.Unbroken row.text := by
  have hspace : Text.Unbroken " " := by decide
  cases row with
  | silent line =>
    have hmargin : Text.Unbroken (String.ofList (List.replicate margin ' ')) := by decide
    have hbar : Text.Unbroken "| " := by decide
    simp [Row.text, hmargin, hbar, unbroken_sourceColumns (h line rfl)]
  | first word line =>
    simp [Row.text, unbroken_wordColumns, hspace, unbroken_sourceColumns (h line rfl)]
  | next word => simp [Row.text, unbroken_wordColumns, hspace]

theorem render_eq (path : String) (p : Program) :
    render path p =
      header path ++ "\n" ++ String.join ((rows p).map (·.text ++ "\n")) ++ (rule ++ "\n") := by
  simp [render, String.join_cons, String.append_assoc, Function.comp_def]

/-- The rows of one line: a line without an instruction stands alone, an instruction beside its
word, and a `movi` beside the first of its two words, with the second right below. -/
inductive Shows : Line → List Row → Prop
  | silent {line : Line} (hs : line.statement.isInstruction = false) :
    Shows line [.silent line]
  | single {line : Line} {name : String} {operands : List String} {mnemonic : Mnemonic}
    {word : Placed} (hs : line.statement = .instruction name operands)
    (hm : Mnemonic.parse name = .ok mnemonic) (hne : mnemonic ≠ .shorthand .movi)
    (hw : word.line = line.number) :
    Shows line [.first word line]
  | double {line : Line} {name : String} {operands : List String} {word other : Placed}
    (hs : line.statement = .instruction name operands)
    (hm : Mnemonic.parse name = .ok (.shorthand .movi)) (hw : word.line = line.number)
    (ho : other.line = line.number) (ha : other.address = word.address + 1) :
    Shows line [.first word line, .next other]

end Listing

namespace Emission

open Listing

variable {table : SymbolTable} {pc : Nat} {line : Line} {lines rest : List Line}

theorem lines_ofLine (h : (ofLine table pc line).failure = none) :
    (ofLine table pc line).lines = [line.resolve table pc] := by
  obtain ⟨instrs, hx⟩ := failure_ofLine_eq_none_iff.mp h
  rw [ofLine_of_ok hx]

/-- Nothing that is shown with the first line comes from another line, and the other way round. -/
theorem rows_cons (hn : Line.Ascending (line :: rest))
    (h : (ofLines table pc (line :: rest)).failure = none) :
    rows (.ofEmission table (ofLines table pc (line :: rest))) =
      rowsOf (line.resolve table pc) (ofLine table pc line).code ++
        rows (.ofEmission table (ofLines table (pc + line.width) rest)) := by
  rw [ofLines_cons, failure_followedBy_eq_none_iff] at h
  have hown : (ofLine table pc line).code.filter (·.line == line.number) =
      (ofLine table pc line).code := by
    rw [List.filter_eq_self]
    intro word hw
    exact beq_iff_eq.mpr (line_of_mem_ofLine hw)
  have hlater :
      (ofLines table (pc + line.width) rest).code.filter (·.line == line.number) = [] := by
    rw [List.filter_eq_nil_iff]
    intro word hw he
    exact Nat.ne_of_gt (line_lt_of_mem_after hn hw) (beq_iff_eq.mp he)
  have hother : ∀ other ∈ (ofLines table (pc + line.width) rest).lines,
      (ofLine table pc line).code.filter (·.line == other.number) = [] := by
    intro other ho
    have hm : other.number ∈ rest.map Line.number := by
      rw [← map_number_lines h.2]
      exact List.mem_map_of_mem ho
    obtain ⟨source, hs, he⟩ := List.mem_map.mp hm
    have hlt := hn.lt_of_mem_after hs
    rw [List.filter_eq_nil_iff]
    intro word hw hb
    rw [beq_iff_eq, line_of_mem_ofLine hw] at hb
    omega
  rw [ofLines_cons, followedBy_of_none h.1, lines_ofLine h.1]
  simp only [rows, Program.ofEmission, List.singleton_append, List.flatMap_cons, List.filter_append,
    Line.number_resolve, hown, hlater, List.append_nil]
  congr 1
  apply List.flatMap_congr
  intro other ho
  rw [hother other ho, List.nil_append]

theorem filterMap_word?_rows (hn : Line.Ascending lines)
    (h : (ofLines table pc lines).failure = none) :
    (rows (.ofEmission table (ofLines table pc lines))).filterMap Row.word? =
      (ofLines table pc lines).code := by
  induction lines generalizing pc with
  | nil => rfl
  | cons line rest ih =>
    rw [rows_cons hn h, List.filterMap_append, filterMap_word?_rowsOf]
    rw [ofLines_cons, failure_followedBy_eq_none_iff] at h
    rw [ih hn.of_cons h.2, ofLines_cons, followedBy_of_none h.1]

/-- A line that is emitted is shown beside the words that its mnemonic takes. -/
theorem shows_rowsOf (h : (ofLine table pc line).failure = none) :
    Shows (line.resolve table pc) (rowsOf (line.resolve table pc) (ofLine table pc line).code) := by
  obtain ⟨instrs, hx⟩ := failure_ofLine_eq_none_iff.mp h
  have hnumber := line.number_resolve table pc
  rw [ofLine_of_ok hx]
  cases hs : line.statement with
  | instruction name operands =>
    obtain ⟨mnemonic, hm, he⟩ := Line.known_of_expandAt hs hx
    have hl : instrs.length = mnemonic.width := Mnemonic.length_expand he
    have hr := Line.statement_resolve hs hm table pc
    by_cases hmovi : mnemonic = .shorthand .movi
    · subst hmovi
      obtain ⟨first, second, rfl⟩ := List.length_eq_two.mp hl
      exact .double hr hm hnumber.symm hnumber.symm rfl
    · have hw : mnemonic.width = 1 := by
        unfold Mnemonic.width
        split
        · exact absurd rfl hmovi
        · rfl
      obtain ⟨instr, rfl⟩ := List.length_eq_one_iff.mp (hl.trans hw)
      exact .single hr hm hmovi hnumber.symm
  | blank | directive =>
    have hi : line.statement.isInstruction = false := by rw [hs]; rfl
    have hr := Line.resolve_of_silent hi table pc
    rw [Line.expandAt_of_silent hi] at hx
    cases hx
    rw [hr]
    exact .silent hi

theorem exists_groups (hn : Line.Ascending lines) (h : (ofLines table pc lines).failure = none) :
    ∃ groups, rows (.ofEmission table (ofLines table pc lines)) = groups.flatten ∧
      List.Forall₂ Shows (ofLines table pc lines).lines groups := by
  induction lines generalizing pc with
  | nil => exact ⟨[], rfl, .nil⟩
  | cons line rest ih =>
    rw [rows_cons hn h]
    rw [ofLines_cons, failure_followedBy_eq_none_iff] at h
    obtain ⟨groups, hrows, hall⟩ := ih hn.of_cons h.2
    refine ⟨_ :: groups, by rw [hrows, List.flatten_cons], ?_⟩
    rw [ofLines_cons, followedBy_of_none h.1, lines_ofLine h.1]
    exact .cons (shows_rowsOf h.1) hall

end Emission

/-- How the rows of a listing, from top to bottom, show a program and the source it was made of. -/
structure Program.Listed (p : Program) (source : String) (rows : List Listing.Row) : Prop where
  /-- The rows with a word show the code in order. -/
  words : rows.filterMap Listing.Row.word? = p.code
  /-- Addresses count the words from zero on. -/
  addresses : p.code.map Placed.address = List.range p.code.length
  /-- The rows with a line show the lines in order. -/
  lines : rows.filterMap Listing.Row.line? = p.lines
  /-- The lines are those of the source, and their numbers tell them apart. -/
  numbers : p.lines.map Line.number = List.range' 1 (Text.lines source).length
  raws : p.lines.map Line.raw = Text.lines source
  /-- Line by line, the rows fall into groups; a word without a line is the second of a `movi`. -/
  groups : ∃ groups, rows = groups.flatten ∧ List.Forall₂ Listing.Shows p.lines groups
  /-- Every row counts for a word or for a line without words. -/
  count : rows.length = p.code.length + p.lines.countP (!p.emits ·)

open Listing in
/-- A listing shows every word and every line once and in order, and what it prints between its
rules are these rows and nothing else.  A row shows the address of its word, the word in hexadecimal
and in binary digits and its instruction, and then the number and the text of its line. -/
theorem listing_shows_each_once {source : String} {p : Program} (h : assemble source = .ok p)
    (path : String) :
    p.Listed source (rows p) ∧
    render path p =
      header path ++ "\n" ++ String.join ((rows p).map (·.text ++ "\n")) ++ (rule ++ "\n") ∧
    ∀ row ∈ rows p, '\n' ∉ row.text.toList ∧
      row.text =
        row.word?.elim (String.ofList (List.replicate 29 ' ') ++ "| ")
            (fun word => "[" ++ Text.paint [.coloured .green (Text.hex 4 word.address)] ++ "] " ++
              Text.hex 4 word.instr.encode.toNat ++ " " ++ WordFile.renderWord word.instr.encode ++
              " | " ++ Text.padRight 32 word.instr.painted ++ " ") ++
          row.line?.elim "" fun line =>
            Text.padLeft 4 (Text.decimal line.number) ++ ": " ++ line.painted := by
  refine ⟨?_, render_eq path p, ?_⟩
  · obtain ⟨lines, survey, hp, hs, he, rfl⟩ := assemble_eq_ok_iff.mp h
    have hn : Line.Ascending lines := Line.ascending_of_parseSource hp
    have hw := Emission.filterMap_word?_rows hn he
    constructor
    case words => exact hw
    case addresses =>
      rw [List.range_eq_range']
      exact Emission.address_code survey.table 0 lines
    case lines => exact filterMap_line?_rows _
    case numbers => exact (Emission.map_number_lines he).trans (Line.map_number_of_parseSource hp)
    case raws =>
      have hraw (line : Line) (pc : Nat) : (line.resolve survey.table pc).raw = line.raw := by
        rw [Line.resolve_eq]
      exact (Emission.map_lines hraw he).trans (Line.map_raw_of_parseFrom hp)
    case groups => exact Emission.exists_groups hn he
    case count => rw [length_rows, hw]; rfl
  · intro row hr
    refine ⟨Row.unbroken_text ?_, row.text_eq⟩
    intro line hl
    have hm : line ∈ (rows p).filterMap Row.line? := List.mem_filterMap.mpr ⟨row, hr, hl⟩
    rw [filterMap_line?_rows] at hm
    exact Program.unbroken_painted h hm

/-- Two words for one line, then a line of none. -/
theorem listing_shows_each_once_movi :
    ∃ p, assemble "movi r1, 1000\n\nend: halt" = .ok p ∧
      (Listing.rows p).map (fun row => (row.word?.map Placed.address, row.line?.map Line.number)) =
        [(some 0, some 1), (some 1, none), (none, some 2), (some 2, some 3)] ∧
      p.Listed "movi r1, 1000\n\nend: halt" (Listing.rows p) := by
  have h : (assemble "movi r1, 1000\n\nend: halt").toOption.map (fun p => (Listing.rows p).map
      fun row => (row.word?.map Placed.address, row.line?.map Line.number)) =
        some [(some 0, some 1), (some 1, none), (none, some 2), (some 2, some 3)] := by
    decide +kernel
  obtain ⟨p, hp, hr⟩ := Option.map_eq_some_iff.mp h
  have ha := eq_ok_of_toOption hp
  exact ⟨p, ha, hr, (listing_shows_each_once ha "").1⟩

end Risc16
