import Risc16.Proofs.Diagnosis

/-! # Objects

The object of a source is what the source assembles to: its symbols and its code.  Of a line it
takes the number, the label and the statement only, and a line without a label that emits nothing
does not count at all.  So the ends of the lines do not matter either: the object of a source is the
object of the pieces between its newlines.
-/
namespace Risc16

namespace Emission

/-- The code of an emission, or the error that has ended it. -/
def result (e : Emission) : Except Error (List Placed) :=
  match e.failure with
  | some error => .error error
  | none => .ok e.code

theorem result_eq_ok_iff {e : Emission} {code : List Placed} :
    e.result = .ok code ↔ e.failure = none ∧ e.code = code := by
  unfold result
  cases hf : e.failure <;> simp

theorem result_followedBy (first later : Emission) :
    (first.followedBy later).result = do
      let code ← first.result
      let rest ← later.result
      return code ++ rest := by
  cases hf : first.failure with
  | some e =>
    rw [followedBy_of_failure hf]
    simp only [result, hf]
    rfl
  | none =>
    rw [followedBy_of_none hf]
    cases hl : later.failure <;> simp only [result, hf, hl] <;> rfl

theorem result_ofLine (table : SymbolTable) (pc : Nat) (line : Line) :
    (ofLine table pc line).result =
      (located line.number (line.expandAt table pc)).map (place line.number pc) := by
  cases hx : line.expandAt table pc with
  | error fault => rw [ofLine_of_error hx]; rfl
  | ok instrs => rw [ofLine_of_ok hx]; rfl

theorem result_cons (table : SymbolTable) (pc : Nat) (line : Line) (rest : List Line) :
    (ofLines table pc (line :: rest)).result = do
      let code ← (located line.number (line.expandAt table pc)).map (place line.number pc)
      let later ← (ofLines table (pc + line.width) rest).result
      return code ++ later := by
  rw [ofLines_cons, result_followedBy, result_ofLine]

theorem result_append (table : SymbolTable) (pc : Nat) (before after : List Line) :
    (ofLines table pc (before ++ after)).result = do
      let code ← (ofLines table pc before).result
      let later ← (ofLines table (pc + totalWidth before) after).result
      return code ++ later := by
  rw [ofLines_append, result_followedBy]

end Emission

structure Object where
  table : SymbolTable
  code : List Placed
  deriving DecidableEq

def Program.object (p : Program) : Object := ⟨p.table, p.code⟩

namespace Object

/-- The object of lines that were read, or the error of the pass that fails. -/
def ofLines (lines : List Line) : Except Error Object := do
  let survey ← Survey.ofLines lines
  let code ← (Emission.ofLines survey.table 0 lines).result
  return ⟨survey.table, code⟩

theorem ofLines_eq_ok_iff {lines : List Line} {object : Object} :
    ofLines lines = .ok object ↔ ∃ survey, Survey.ofLines lines = .ok survey ∧
      (Emission.ofLines survey.table 0 lines).result = .ok object.code ∧
      object.table = survey.table := by
  simp only [ofLines, bind_eq_ok_iff]
  constructor
  · rintro ⟨survey, hs, code, hc, ⟨⟩⟩
    exact ⟨survey, hs, hc, rfl⟩
  · rintro ⟨survey, hs, hc, ht⟩
    exact ⟨survey, hs, object.code, hc, by rw [← ht]; rfl⟩

/-- An object depends on what the survey reaches and on what is emitted. -/
theorem ofLines_congr {lines others : List Line}
    (hs : Survey.start.advance others = Survey.start.advance lines)
    (he : ∀ table, (Emission.ofLines table 0 others).result =
      (Emission.ofLines table 0 lines).result) : ofLines others = ofLines lines := by
  simp only [ofLines, Survey.ofLines, hs, he]

end Object

theorem map_object_assemble (source : String) :
    (assemble source).map Program.object = Line.parseSource source >>= Object.ofLines := by
  cases hp : Line.parseSource source with
  | error e => rw [assemble_of_unread hp]; rfl
  | ok lines =>
    change _ = Object.ofLines lines
    unfold Object.ofLines
    cases hs : Survey.ofLines lines with
    | error e => rw [assemble_of_unsurveyed hp hs]; rfl
    | ok survey =>
      cases hf : (Emission.ofLines survey.table 0 lines).failure with
      | some e =>
        rw [assemble_of_failure hp hs hf]
        change _ = (Emission.ofLines survey.table 0 lines).result >>= _
        rw [Emission.result, hf]
        rfl
      | none =>
        rw [assemble_of_none hp hs hf]
        change _ = (Emission.ofLines survey.table 0 lines).result >>= _
        rw [Emission.result_eq_ok_iff.mpr ⟨hf, rfl⟩]
        rfl

namespace Line

/-- The parts of a line that assembly goes by. -/
def core (line : Line) : Line := { line with raw := "", comment := none }

theorem expandAt_core (line : Line) (table : SymbolTable) (pc : Nat) :
    line.core.expandAt table pc = line.expandAt table pc := by
  rw [expandAt_eq_expansion, expandAt_eq_expansion]
  rfl

/-- A line without a label that takes no words and is not at fault. -/
structure Silent (line : Line) : Prop where
  unlabelled : line.label = none
  wordless : line.statement.isInstruction = false
  faultless : line.directiveFault? = none

theorem silent_of_blank {line : Line} (hl : line.label = none) (hs : line.statement = .blank) :
    line.Silent := by
  refine ⟨hl, ?_, ?_⟩
  · rw [hs]
    rfl
  · simp only [directiveFault?, hs]

end Line

namespace Survey

theorem advance_map_core (s : Survey) (lines : List Line) :
    s.advance (lines.map Line.core) = s.advance lines := by
  induction lines generalizing s with
  | nil => rfl
  | cons line rest ih =>
    have hc : s.step line.core = s.step line := rfl
    rw [List.map_cons]
    cases hs : s.step line with
    | error e => rw [advance_cons_of_error hs, advance_cons_of_error (hc.trans hs)]
    | ok next => rw [advance_cons_of_ok hs, advance_cons_of_ok (hc.trans hs), ih]

theorem step_of_silent (s : Survey) {line : Line} (h : line.Silent) : s.step line = .ok s := by
  obtain ⟨symbol, hy⟩ := exists_symbol (s := s) h.faultless
  rw [step_eq_ok_iff]
  refine ⟨symbol, s.table, hy, ?_, ?_⟩
  · simp only [bindLabel, h.unlabelled]
  · rw [Line.width_eq_zero h.wordless, Nat.add_zero]

theorem advance_insert (s : Survey) {line : Line} (h : line.Silent) (before after : List Line) :
    s.advance (before ++ line :: after) = s.advance (before ++ after) := by
  induction before generalizing s with
  | nil => exact advance_cons_of_ok (s.step_of_silent h) after
  | cons first rest ih =>
    rw [List.cons_append, List.cons_append]
    cases hs : s.step first with
    | error e => rw [advance_cons_of_error hs, advance_cons_of_error hs]
    | ok next => rw [advance_cons_of_ok hs, advance_cons_of_ok hs, ih]

end Survey

namespace Emission

theorem result_map_core (table : SymbolTable) (pc : Nat) (lines : List Line) :
    (ofLines table pc (lines.map Line.core)).result = (ofLines table pc lines).result := by
  induction lines generalizing pc with
  | nil => rfl
  | cons line rest ih =>
    have hn : line.core.number = line.number := rfl
    have hw : line.core.width = line.width := rfl
    rw [List.map_cons, result_cons, result_cons, Line.expandAt_core, hn, hw, ih]

theorem result_cons_of_silent (table : SymbolTable) (pc : Nat) {line : Line} (h : line.Silent)
    (rest : List Line) :
    (ofLines table pc (line :: rest)).result = (ofLines table pc rest).result := by
  rw [result_cons, Line.expandAt_of_silent h.wordless, Line.width_eq_zero h.wordless, Nat.add_zero]
  change (do
    let later ← (ofLines table pc rest).result
    return [] ++ later) = _
  cases (ofLines table pc rest).result <;> rfl

theorem result_insert (table : SymbolTable) (pc : Nat) {line : Line} (h : line.Silent)
    (before after : List Line) : (ofLines table pc (before ++ line :: after)).result =
      (ofLines table pc (before ++ after)).result := by
  rw [result_append, result_append, result_cons_of_silent _ _ h]

end Emission

namespace Object

/-- The text of a line and its comment do not matter. -/
theorem ofLines_of_core {lines others : List Line}
    (h : others.map Line.core = lines.map Line.core) : ofLines others = ofLines lines := by
  apply ofLines_congr
  · rw [← Survey.advance_map_core, h, Survey.advance_map_core]
  · intro table
    rw [← Emission.result_map_core, h, Emission.result_map_core]

theorem ofLines_insert {line : Line} (h : line.Silent) (before after : List Line) :
    ofLines (before ++ line :: after) = ofLines (before ++ after) :=
  ofLines_congr (Survey.start.advance_insert h before after)
    fun table => Emission.result_insert table 0 h before after

theorem ofLines_append_silent {rest : List Line} (h : ∀ line ∈ rest, line.Silent)
    (lines : List Line) : ofLines (lines ++ rest) = ofLines lines := by
  induction rest with
  | nil => rw [List.append_nil]
  | cons line rest ih =>
    rw [ofLines_insert (h line List.mem_cons_self)]
    exact ih fun other ho => h other (List.mem_cons_of_mem line ho)

end Object

namespace Text

def pieces (text : String) : List String := (text.toList.splitOn '\n').map String.ofList

theorem pieces_append_newline (a b : String) : pieces (a ++ "\n" ++ b) = pieces a ++ pieces b := by
  have ht : (a ++ "\n" ++ b).toList = a.toList ++ '\n' :: b.toList := by simp
  rw [pieces, ht, List.splitOn_append_cons_self, List.map_append, pieces, pieces]

theorem pieces_intercalate {rows : List String} (hne : rows ≠ [])
    (h : ∀ row ∈ rows, '\n' ∉ row.toList) : pieces ("\n".intercalate rows) = rows := by
  have hp : ∀ piece ∈ rows.map String.toList, '\n' ∉ piece := by
    intro piece hm
    obtain ⟨row, hr, rfl⟩ := List.mem_map.mp hm
    exact h row hr
  have hs : ("\n".intercalate rows).toList = ['\n'].intercalate (rows.map String.toList) :=
    String.toList_intercalate
  rw [pieces, hs, List.splitOn_intercalate '\n' hp (by simpa using hne), List.map_map]
  simp [Function.comp_def]

/-- A character behind a text is part of what follows the first mark in it. -/
theorem cut_concat {mark c : Char} (hc : c ≠ mark) (cs : List Char) :
    cut mark (cs ++ [c]) =
      if mark ∈ cs then ((cut mark cs).1, (cut mark cs).2.map (· ++ [c]))
      else (cs ++ [c], none) := by
  split
  next hm =>
    obtain ⟨before, after, rfl, hb⟩ := List.eq_append_cons_of_mem hm
    rw [List.append_assoc, List.cons_append, cut_append hb, cut_append hb]
    rfl
  next hm =>
    apply cut_eq_none
    simp [hm, Ne.symm hc]

end Text

namespace Token

theorem scan_append_cons (cs : List Char) {c : Char} (h : isSeparator c = true)
    (rest : List Char) : scan (cs ++ c :: rest) = scan cs ++ scan rest := by
  rw [scan, Text.words_append_cons cs h, List.map_append, scan, scan]

theorem scan_concat (cs : List Char) {c : Char} (h : isSeparator c = true) :
    scan (cs ++ [c]) = scan cs := by
  rw [scan_append_cons cs h]
  exact List.append_nil (scan cs)

end Token

namespace Line

/-- A carriage return at the end of a line is a blank like others. -/
theorem parseCode_append_return (code : List Char) :
    parseCode (code ++ ['\r']) = parseCode code := by
  have hscan (cs : List Char) : Token.scan (cs ++ ['\r']) = Token.scan cs :=
    Token.scan_concat cs (by decide)
  unfold parseCode
  by_cases hm : ':' ∈ code
  · obtain ⟨before, body, rfl, hb⟩ := List.eq_append_cons_of_mem hm
    rw [Text.cut_concat (by decide), if_pos hm, Text.cut_append hb]
    simp [hscan]
  · rw [Text.cut_concat (by decide), if_neg hm, Text.cut_eq_none hm]
    simp [hscan]

theorem parse_append_return (number : Nat) (cs : List Char) :
    parse number (String.ofList cs) =
      (parse number (String.ofList (cs ++ ['\r']))).map ({ · with raw := String.ofList cs }) := by
  unfold parse
  rw [String.toList_ofList, String.toList_ofList]
  by_cases hm : '#' ∈ cs
  · obtain ⟨code, comment, rfl, hb⟩ := List.eq_append_cons_of_mem hm
    have hr : Text.isBlank '\r' = true := by decide
    rw [Text.cut_concat (by decide), if_pos hm, Text.cut_append hb]
    cases hc : parseCode code with
    | error fault => simp [hc, Except.map]
    | ok parts => simp [hc, Except.map, Text.trimEnd_append_blank comment hr]
  · rw [Text.cut_concat (by decide), if_neg hm, Text.cut_eq_none hm]
    cases hc : parseCode cs with
    | error fault => simp [hc, parseCode_append_return, Except.map]
    | ok parts => simp [hc, parseCode_append_return, Except.map]

theorem parse_dropReturn (number : Nat) (cs : List Char) :
    parse number (String.ofList (Text.dropReturn cs)) =
      (parse number (String.ofList cs)).map
        ({ · with raw := String.ofList (Text.dropReturn cs) }) := by
  unfold Text.dropReturn
  split
  next hl =>
    obtain ⟨front, rfl⟩ := List.getLast?_eq_some_iff.mp hl
    rw [List.dropLast_concat]
    exact parse_append_return number front
  · cases hp : parse number (String.ofList cs) with
    | error e => rfl
    | ok line =>
      obtain ⟨label, statement, -, rfl⟩ := parse_eq_ok_iff.mp hp
      rfl

/-- Two readings with the same error, or with the same lines up to blank ones that the second has
at its end. -/
inductive SameReading : Except Error (List Line) → Except Error (List Line) → Prop where
  | error (e : Error) : SameReading (.error e) (.error e)
  | ok {lines others rest : List Line} (h : others.map core = lines.map core)
      (hr : ∀ line ∈ rest, line.label = none ∧ line.statement = .blank) :
      SameReading (.ok lines) (.ok (others ++ rest))

theorem SameReading.cons {number : Nat} {raw piece : String} {raws pieces : List String}
    (hp : parse number raw = (parse number piece).map ({ · with raw := raw }))
    (h : SameReading (parseFrom (number + 1) raws) (parseFrom (number + 1) pieces)) :
    SameReading (parseFrom number (raw :: raws)) (parseFrom number (piece :: pieces)) := by
  simp only [parseFrom, hp]
  cases hl : parse number piece with
  | error e => exact .error e
  | ok line =>
    generalize parseFrom (number + 1) raws = x at h
    generalize parseFrom (number + 1) pieces = y at h
    cases h with
    | error e => exact .error e
    | @ok lines others rest h hr =>
      have hc : (line :: others).map core = ({ line with raw := raw } :: lines).map core := by
        rw [List.map_cons, List.map_cons, h]
        rfl
      exact .ok hc hr

theorem SameReading.nil (number : Nat) : SameReading (parseFrom number []) (parseFrom number []) :=
  @SameReading.ok [] [] [] rfl (by simp)

/-- The lines of a text read like its pieces. -/
theorem sameReading_closeLines (number : Nat) (pieces : List (List Char)) :
    SameReading (parseFrom number ((Text.closeLines pieces).map String.ofList))
      (parseFrom number (pieces.map String.ofList)) := by
  fun_induction Text.closeLines pieces generalizing number with
  | case1 => exact .nil number
  | case2 last hl =>
    obtain rfl := List.isEmpty_iff.mp hl
    have hp : parseFrom number [String.ofList []] =
        .ok ([] ++ [⟨number, "", none, .blank, none⟩]) := rfl
    simp only [List.map_nil, List.map_cons, hp]
    exact .ok rfl (by simp)
  | case3 last hl =>
    apply SameReading.cons
    · cases hp : parse number (String.ofList last) with
      | error e => rfl
      | ok line =>
        obtain ⟨label, statement, -, rfl⟩ := parse_eq_ok_iff.mp hp
        rfl
    · exact .nil (number + 1)
  | case4 piece rest hne ih =>
    exact .cons (parse_dropReturn number piece) (ih (number + 1))

theorem sameReading_pieces (source : String) :
    SameReading (parseSource source) (parseFrom 1 (Text.pieces source)) :=
  sameReading_closeLines 1 (source.toList.splitOn '\n')

theorem SameReading.object {x y : Except Error (List Line)} (h : SameReading x y) :
    (x >>= Object.ofLines) = y >>= Object.ofLines := by
  cases h with
  | error e => rfl
  | @ok lines others rest h hr =>
    change Object.ofLines lines = Object.ofLines (others ++ rest)
    rw [Object.ofLines_append_silent fun line hm => silent_of_blank (hr line hm).1 (hr line hm).2,
      Object.ofLines_of_core h]

theorem SameReading.mem {lines others : List Line} (h : SameReading (.ok lines) (.ok others))
    {line : Line} (hm : line ∈ others) :
    (∃ other ∈ lines, other.core = line.core) ∨ line.label = none ∧ line.statement = .blank := by
  generalize hy : Except.ok others = y at h
  cases h with
  | @ok _ front rest h hr =>
    cases hy
    rcases List.mem_append.mp hm with hf | hb
    · left
      have hc := List.mem_map_of_mem (f := core) hf
      rw [h] at hc
      exact List.mem_map.mp hc
    · exact .inr (hr line hb)

end Line

theorem object_assemble (source : String) :
    (assemble source).map Program.object =
      Line.parseFrom 1 (Text.pieces source) >>= Object.ofLines := by
  rw [map_object_assemble, (Line.sameReading_pieces source).object]

end Risc16
