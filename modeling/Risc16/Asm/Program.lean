import Risc16.Asm.Emission
import Risc16.WordFile

/-! # Assembly

Assembly reads all lines, surveys them and emits their code, in this order: an error of an earlier
pass wins over one on an earlier line.  A run also tells its warnings and what it did, step by
step.  An assembler can be used for many runs and remembers the warnings of the last.
-/
namespace Risc16

/-- An assembled source: its lines with labels replaced, its symbols and its code. -/
structure Program where
  lines : List Line
  table : SymbolTable
  code : List Placed
  deriving DecidableEq

namespace Program

def instrs (p : Program) : List Instr := p.code.map Placed.instr

def words (p : Program) : List Word := p.instrs.map Instr.encode

def text (p : Program) : String := WordFile.render p.words

end Program

inductive Event where
  | reading
  | surveying
  | bound (binding : Binding)
  | surveyed (labels words : Nat)
  | emitting
  | placed (p : Placed)
  | decoded (words : Nat)

namespace Event

/-- Single bindings and words are told at the finest level only. -/
def isDetail : Event → Bool
  | bound _ | placed _ => true
  | reading | surveying | surveyed .. | emitting | decoded _ => false

def message : Event → String
  | reading => "pass 1: preprocess"
  | surveying => "pass 2: collect labels"
  | bound b =>
    "label " ++ b.name ++ " = " ++ b.symbol.text ++ " (line " ++ Text.decimal b.line ++ ")"
  | surveyed labels words =>
    "collected " ++ Text.decimal labels ++ " labels, " ++ Text.decimal words ++ " words"
  | emitting => "pass 3: substitute, expand and encode"
  | placed p =>
    Text.hex 4 p.address ++ ": " ++ WordFile.renderWord p.instr.encode ++ "  " ++ p.instr.text
  | decoded words => "decoded " ++ Text.decimal words ++ " words"

end Event

structure Run where
  outcome : Except Error Program
  warnings : List Warning := []
  events : List Event

namespace Run

/-- The run after the survey of `lines` has succeeded. -/
def emit (lines : List Line) (survey : Survey) : Run :=
  let emission := Emission.ofLines survey.table 0 lines
  { outcome := match emission.failure with
      | some e => .error e
      | none => .ok { lines := emission.lines, table := survey.table, code := emission.code }
    warnings := emission.warnings
    events := .surveyed survey.table.size survey.size :: .emitting :: emission.code.map .placed }

/-- The run after the lines have been read. -/
def survey (lines : List Line) : Run :=
  let (reached, failure) := Survey.start.advance lines
  let bindings := reached.table.bindings.map Event.bound
  match failure with
  | some e => { outcome := .error e, events := .surveying :: bindings }
  | none =>
    let run := emit lines reached
    { run with events := .surveying :: bindings ++ run.events }

def ofSource (source : String) : Run :=
  match Line.parseSource source with
  | .error e => { outcome := .error e, events := [.reading] }
  | .ok lines =>
    let run := survey lines
    { run with events := .reading :: run.events }

end Run

def assemble (source : String) : Except Error Program := (Run.ofSource source).outcome

/-- An assembler keeps the warnings of its last run. -/
structure Assembler where
  warnings : List Warning := []

namespace Assembler

def clear (a : Assembler) : Assembler := { a with warnings := [] }

def warn (a : Assembler) (warnings : List Warning) : Assembler :=
  { a with warnings := a.warnings ++ warnings }

/-- Assembles a source; what is left of earlier runs is dropped first. -/
def assemble (a : Assembler) (source : String) : Except Error Program × Assembler :=
  let run := Run.ofSource source
  (run.outcome, a.clear.warn run.warnings)

/-- Assembles sources one after the other, with the warnings that can be read after each. -/
def assembleAll (a : Assembler) : List String → List (Except Error Program × List Warning)
  | [] => []
  | source :: rest =>
    let (outcome, next) := a.assemble source
    (outcome, next.warnings) :: next.assembleAll rest

end Assembler

end Risc16
