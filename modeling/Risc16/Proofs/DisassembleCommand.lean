import Risc16.Command.Disassemble
import Risc16.Proofs.Arguments
import Risc16.Proofs.Disassembly
import Risc16.Proofs.FileTree
import Risc16.Proofs.Unbroken

/-! # The command `disasm` shows each word beside its instruction

The words on the rows and the instructions on the rows are two lists that are made apart: the first
from lines that are trimmed and then kept unless they are empty, the second from lines that are kept
unless they are blank and then trimmed.  The lists have the same length and belong together place by
place, so that no row is lost and none shows the instruction of another word.
-/
namespace Risc16

namespace WordFile

/-- The lines of a word file that are not blank, as they stand there. -/
def written (text : String) : List String := (Text.lines text).filter (!isBlank ·)

/-- It makes no difference whether lines are trimmed before the blank ones are dropped or after. -/
theorem words_eq_map_trim (text : String) : words text = (written text).map trim := by
  have hkeep (line : String) : decide (trim line ≠ "") = !isBlank line := by
    rw [Bool.eq_iff_iff]
    simp [← isBlank_eq_true_iff]
  simp only [words, written, List.filter_map, Function.comp_def, hkeep]

theorem map_trim_of_holds {lines : List String} {ws : List Word}
    (h : List.Forall₂ (fun line w => Holds line (renderWord w)) lines ws) :
    lines.map trim = ws.map renderWord := by
  induction h with
  | nil => rfl
  | cons hw _ ih => rw [List.map_cons, List.map_cons, ih, (holds_iff.mp hw).2]

end WordFile

namespace Command.Disassemble

theorem length_rowsFrom (address : Nat) (pairs : List (String × Instr)) :
    (rowsFrom address pairs).length = pairs.length := by
  induction pairs generalizing address with
  | nil => rfl
  | cons pair rest ih => rw [rowsFrom, List.length_cons, ih, List.length_cons]

theorem getElem?_rowsFrom (address : Nat) (pairs : List (String × Instr)) (k : Nat) :
    (rowsFrom address pairs)[k]? = pairs[k]?.map fun pair => row (address + k) pair.1 pair.2 := by
  induction pairs generalizing address k with
  | nil => rfl
  | cons pair rest ih =>
    cases k with
    | zero => rfl
    | succ k =>
      rw [rowsFrom, List.getElem?_cons_succ, List.getElem?_cons_succ, ih, Nat.add_assoc,
        Nat.add_comm 1]

/-- The rows of a file: one for each line that is not blank, with the address that belongs to this
place, the word between the blanks of the line and the instruction of just that word. -/
structure Lists (text : String) (instrs : List Instr) (rows : List String) : Prop where
  length : rows.length = (WordFile.written text).length
  shows : ∀ (k : Nat) (line : String), (WordFile.written text)[k]? = some line →
    ∃ word instr, WordFile.Holds line word ∧ WordFile.decodeWord word = .ok instr ∧
      instrs[k]? = some instr ∧
      rows[k]? = some (Text.paint [.coloured .green (Text.hex 4 k)] ++ "  " ++ word ++ "  " ++
        instr.painted ++ "\n")
  /-- A row is all that is printed on its line. -/
  ends : ∀ row ∈ rows, ∃ columns, row = columns ++ "\n" ∧ Text.Unbroken columns

theorem unbroken_row (address : Nat) (w : Word) (instr : Instr) :
    ∃ columns, row address (WordFile.renderWord w) instr = columns ++ "\n" ∧
      Text.Unbroken columns := by
  refine ⟨_, rfl, ?_⟩
  have hspace : Text.Unbroken "  " := by decide
  simp only [Text.unbroken_append, Text.unbroken_coloured (Text.unbroken_hex 4 address), hspace,
    WordFile.unbroken_renderWord, instr.unbroken_painted, and_self]

variable {text : String} {instrs : List Instr}

theorem lists_rows (h : WordFile.disassemble text = .ok instrs) :
    Lists text instrs (rows text instrs) := by
  obtain ⟨ws, hws, rfl⟩ := WordFile.exists_words_of_disassemble h
  -- Both lists are made from the same words, so nothing is cut off where they are joined.
  have hrows : rows text (ws.map Instr.decode) =
      rowsFrom 0 (ws.map fun w => (WordFile.renderWord w, Instr.decode w)) := by
    rw [rows, WordFile.words_eq_map_trim, WordFile.written, WordFile.map_trim_of_holds hws,
      List.zip_map']
  have hk (k : Nat) : (rows text (ws.map Instr.decode))[k]? =
      ws[k]?.map fun w => row k (WordFile.renderWord w) (Instr.decode w) := by
    rw [hrows, getElem?_rowsFrom, List.getElem?_map, Option.map_map, Nat.zero_add]
    rfl
  constructor
  case length => rw [hrows, length_rowsFrom, List.length_map, WordFile.written, hws.length_eq]
  case shows =>
    intro k line hline
    obtain ⟨w, hw, hholds⟩ := exists_of_forall₂ hws hline
    refine ⟨WordFile.renderWord w, Instr.decode w, hholds, ?_, ?_, ?_⟩
    · rw [WordFile.decodeWord, WordFile.parseWord_renderWord]
      rfl
    · rw [List.getElem?_map, hw]
      rfl
    · rw [hk, hw]
      rfl
  case ends =>
    intro r hr
    obtain ⟨k, hget⟩ := List.mem_iff_getElem?.mp hr
    rw [hk] at hget
    obtain ⟨w, -, rfl⟩ := Option.map_eq_some_iff.mp hget
    exact unbroken_row k w (Instr.decode w)

theorem take_row (address : Nat) (word : String) (instr : Instr) :
    (row address word instr).toList.take 4 = "\x1b[32".toList := by
  have hc : Text.Style.plain.change (.of .green) = "\x1b[32m" := by decide
  simp [row, Text.paint, Text.paintFrom, Text.Span.coloured, hc]

theorem ne_row_of_take {text : String} (h : text.toList.take 4 ≠ "\x1b[32".toList) (address : Nat)
    (word : String) (instr : Instr) : text ≠ row address word instr := by
  rintro rfl
  exact h (take_row address word instr)

/-- What is printed about an error on a line: a headline, the place, and between two bars the line
itself, without the blanks at its end.  None of it is a row. -/
structure Quotes (input : String) (number : Nat) (line : String) (e : Error)
    (printed : List String) : Prop where
  shows : ∃ shown trail, line.toList = shown ++ trail ∧ (∀ c ∈ trail, Text.isBlank c = true) ∧
    printed = List.map (Text.paint · ++ "\n")
      [[⟨{ colour := some .red, bold := true }, "error"⟩, .plain (": " ++ e.text)],
        [.plain "     ", .coloured .blue "-->", .plain " ",
          ⟨{ underline := true }, input ++ ":" ++ Text.decimal number⟩],
        [.plain "      ", .coloured .blue "|"],
        [.plain " ", .coloured .blue (Text.padLeft 4 (Text.decimal number) ++ " |"),
          .plain (" " ++ String.ofList shown)],
        [.plain "      ", .coloured .blue "|"]]
  others : ∀ text ∈ printed, ∀ address word instr, text ≠ row address word instr

theorem quotes_lines (input : String) (number : Nat) (line : String) (e : Error) :
    Quotes input number line e
      (((⟨.error, e.text⟩ : Message).lines ⟨input, number, line⟩).map (Text.paint · ++ "\n")) := by
  constructor
  case shows =>
    obtain ⟨trail, hs, htrail⟩ := Text.exists_trimEnd line.toList
    exact ⟨Text.trimEnd line.toList, trail, hs, htrail, rfl⟩
  case others =>
    -- The headline begins with another colour than a row, and the rest begins with blanks.
    intro text ht address word instr
    apply ne_row_of_take
    obtain ⟨spans, hs, rfl⟩ := List.mem_map.mp ht
    simp only [Message.lines, Message.quote, List.mem_cons, List.not_mem_nil, or_false] at hs
    rcases hs with rfl | rfl | rfl | rfl | rfl
    · have hc : Text.Style.plain.change { colour := some .red, bold := true } =
          "\x1b[31m\x1b[1m" := by
        decide
      simp [Message.headline, Text.paint, Text.paintFrom, Level.colour, hc]
    all_goals simp [Text.paint, Text.paintFrom, Text.Span.plain]

variable {o : Options} {e : Error}

/-- An error is reported with the line that it is about, and no more is said about its kind. -/
theorem errorReport_of_disassemble (input : String) (h : WordFile.disassemble text = .error e) :
    ∃ (k : Nat) (line : String), e.line = some (k + 1) ∧ (Text.lines text)[k]? = some line ∧
      ∃ printed, errorReport input text e = String.join printed ∧
        Quotes input (k + 1) line e printed := by
  obtain ⟨k, line, hk, -, -, rfl, -⟩ := WordFile.first_malformed_of_disassemble h
  refine ⟨k, line, rfl, hk, _, ?_, quotes_lines input (k + 1) line _⟩
  have hl : ((Text.lines text)[k + 1 - 1]?).getD "" = line := by
    rw [Nat.add_sub_cancel, hk, Option.getD_some]
  simp only [errorReport, Fault.onLine, Option.bind_some, hl, Error.report]
  exact String.append_empty

theorem execute_of_ok (h : WordFile.disassemble text = .ok instrs) :
    execute o (.ok text) =
      { exit := 0, output := String.join (rows text instrs)
        log := log o.verbosity [.decoded instrs.length] } := by
  simp only [execute, h]

theorem execute_of_error (h : WordFile.disassemble text = .error e) :
    execute o (.ok text) = { exit := 1, output := errorReport (inputName o) text e } := by
  simp only [execute, h]

/-- A run reads the one file that its arguments name. -/
theorem command_of_request {args : List String} (h : tool.request args = .run o)
    (files : FileTree) :
    fileNames args = [inputName o] ∧
      command args files = execute o (files.readText (inputName o)) := by
  constructor
  · obtain ⟨hn, hne, hl⟩ := Interface.names_of_request h
    obtain ⟨input, hi⟩ := List.length_eq_one_iff.mp
      (Nat.le_antisymm hl (List.length_pos_of_ne_nil hne))
    rw [← hn, inputName, hi]
    rfl
  · simp only [command, h]

/-- A run of the command on a file that can be read as a text exits with 0 exactly if the file is
accepted.  Then it prints one row for each line that is not blank, with its address, the word as it
is written and the instruction of that word.  If the file is not accepted, the exit code is 1, and
the report shows the line of the file that the error has the number of, and no row. -/
theorem command_shows_each_word {args : List String} (h : tool.request args = .run o)
    (files : FileTree) :
    ∃ input, fileNames args = [input] ∧ ∀ text, files.readText input = .ok text →
      ((command args files).exit = 0 ↔ ∃ instrs, WordFile.disassemble text = .ok instrs) ∧
      (∀ instrs, WordFile.disassemble text = .ok instrs → ∃ printed,
        (command args files).output = String.join printed ∧ Lists text instrs printed) ∧
      ∀ e, WordFile.disassemble text = .error e → (command args files).exit = 1 ∧
        ∃ (k : Nat) (line : String), e.line = some (k + 1) ∧ (Text.lines text)[k]? = some line ∧
          ∃ printed, (command args files).output = String.join printed ∧
            Quotes input (k + 1) line e printed := by
  obtain ⟨hn, hc⟩ := command_of_request h files
  refine ⟨inputName o, hn, ?_⟩
  intro text ht
  rw [hc, ht]
  refine ⟨?_, ?_, ?_⟩
  · cases hd : WordFile.disassemble text with
    | ok instrs => simp [execute_of_ok hd]
    | error e => simp [execute_of_error hd]
  · intro instrs hd
    rw [execute_of_ok hd]
    exact ⟨rows text instrs, rfl, lists_rows hd⟩
  · intro e hd
    rw [execute_of_error hd]
    exact ⟨rfl, errorReport_of_disassemble (inputName o) hd⟩

/-- The third line of one file is shown at address one, with bits that its instruction has no use
for; the second line of another is no word. -/
theorem command_shows_each_word_mixed :
    let files : FileTree :=
      ⟨[(["a"], .file "0000000000000000\n\n 1110010100001111\n".toUTF8),
        (["b"], .file "\n 012\n".toUTF8)], []⟩
    ((command ["a"] files).exit = 0 ∧ ∃ printed,
      (command ["a"] files).output = String.join printed ∧ printed.length = 2 ∧
        printed[1]? = some (row 1 "1110010100001111" (.jalr ⟨1⟩ ⟨2⟩))) ∧
    (command ["b"] files).exit = 1 ∧ ∃ printed,
      (command ["b"] files).output = String.join printed ∧
        printed.head? = some (Text.paint [⟨{ colour := some .red, bold := true }, "error"⟩,
          .plain ": Input error: Expected 16 binary digits, found `012`"] ++ "\n") ∧
        printed[3]? = some (Text.paint [.plain " ", .coloured .blue "   2 |", .plain "  012"] ++
          "\n") := by
  intro files
  constructor
  · have hq : tool.request ["a"] = .run ⟨false, false, 0, ["a"]⟩ := rfl
    obtain ⟨input, hn, hall⟩ := command_shows_each_word hq files
    have hi : fileNames ["a"] = ["a"] := rfl
    obtain ⟨rfl, -⟩ := List.cons.inj (hi.symm.trans hn)
    have hr : files.read "a" = .ok "0000000000000000\n\n 1110010100001111\n".toUTF8 :=
      FileTree.read_eq_ok_iff.mpr ⟨by decide +kernel, ["a"], rfl, rfl⟩
    obtain ⟨hexit, hrows, -⟩ := hall _ (FileTree.readText_of_read hr)
    have hd : WordFile.disassemble "0000000000000000\n\n 1110010100001111\n" =
        .ok [.add ⟨0⟩ ⟨0⟩ ⟨0⟩, .jalr ⟨1⟩ ⟨2⟩] :=
      eq_ok_of_toOption (by decide +kernel)
    have hw : WordFile.written "0000000000000000\n\n 1110010100001111\n" =
        ["0000000000000000", " 1110010100001111"] := by
      decide +kernel
    have ht : WordFile.trim " 1110010100001111" = "1110010100001111" := by decide +kernel
    obtain ⟨printed, ho, hlist⟩ := hrows _ hd
    obtain ⟨word, instr, hholds, -, hinstr, hrow⟩ :=
      hlist.shows 1 " 1110010100001111" (by rw [hw]; rfl)
    obtain rfl := ht.symm.trans (WordFile.holds_iff.mp hholds).2
    cases hinstr
    refine ⟨hexit.mpr ⟨_, hd⟩, printed, ho, ?_, ?_⟩
    · rw [hlist.length, hw]
      rfl
    · rw [hrow, row]
  · have hq : tool.request ["b"] = .run ⟨false, false, 0, ["b"]⟩ := rfl
    obtain ⟨input, hn, hall⟩ := command_shows_each_word hq files
    have hi : fileNames ["b"] = ["b"] := rfl
    obtain ⟨rfl, -⟩ := List.cons.inj (hi.symm.trans hn)
    have hr : files.read "b" = .ok "\n 012\n".toUTF8 :=
      FileTree.read_eq_ok_iff.mpr ⟨by decide +kernel, ["b"], rfl, rfl⟩
    obtain ⟨-, -, hrefused⟩ := hall _ (FileTree.readText_of_read hr)
    have hd : WordFile.disassemble "\n 012\n" = .error ((Fault.malformedWord "012").onLine 2) :=
      eq_error_of_failure? (by decide +kernel)
    obtain ⟨hexit, k, line, hk, hl, hprinted⟩ := hrefused _ hd
    cases hk
    have hlines : (Text.lines "\n 012\n")[1]? = some " 012" := by decide +kernel
    obtain rfl := Option.some.inj (hlines.symm.trans hl)
    obtain ⟨printed, ho, ⟨shown, trail, hs, htrail, rfl⟩, -⟩ := hprinted
    -- The line does not end in a blank, so that all of it is shown.
    rcases List.eq_nil_or_concat trail with rfl | ⟨front, c, rfl⟩
    · rw [List.append_nil] at hs
      subst hs
      exact ⟨hexit, _, ho, rfl, rfl⟩
    · have htwo : " 012".toList.getLast? = some '2' := by decide
      rw [hs, List.concat_eq_append, ← List.append_assoc, List.getLast?_concat] at htwo
      cases htwo
      exact absurd (htrail '2' (by simp)) (by decide)

end Command.Disassemble

end Risc16
