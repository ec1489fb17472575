import Risc16.Asm.Emission
import Risc16.Text.Blank
import Risc16.Text.Paint

/-! # Messages about a source

Errors and warnings are shown with the place they concern and that line of the source.  A note
belongs to the message before it and shows no place of its own.
-/
namespace Risc16

inductive Level where
  | error
  | warn
  | note
  deriving DecidableEq

def Level.name : Level → String
  | error => "error"
  | warn => "warn"
  | note => "note"

def Level.colour : Level → Text.Colour
  | error => .red
  | warn => .yellow
  | note => .green

structure Excerpt where
  file : String
  line : Nat
  raw : String

structure Message where
  level : Level
  text : String

namespace Message

def headline (m : Message) : List Text.Span :=
  [⟨{ colour := some m.level.colour, bold := true }, m.level.name⟩, .plain (": " ++ m.text)]

/-- The place of an excerpt and its line between two bars. -/
def quote (e : Excerpt) : List (List Text.Span) :=
  [[.plain "     ", .coloured .blue "-->", .plain " ",
      ⟨{ underline := true }, e.file ++ ":" ++ Text.decimal e.line⟩],
    [.plain "      ", .coloured .blue "|"],
    [.plain " ", .coloured .blue (Text.padLeft 4 (Text.decimal e.line) ++ " |"),
      .plain (" " ++ String.ofList (Text.trimEnd e.raw.toList))],
    [.plain "      ", .coloured .blue "|"]]

def lines (m : Message) (e : Excerpt) : List (List Text.Span) :=
  match m.level with
  | .note => [[.plain "      ", .coloured .blue "=", .plain " "] ++ m.headline]
  | .error | .warn => m.headline :: quote e

def render (m : Message) (e : Excerpt) : String :=
  String.join ((m.lines e).map fun spans => Text.paint spans ++ "\n")

end Message

/-- An error that no line belongs to is shown at line zero. -/
def Error.report (e : Error) (file raw : String) : String :=
  let excerpt : Excerpt := { file, line := e.line.getD 0, raw }
  Message.render ⟨.error, e.text⟩ excerpt ++
    e.kind.advice?.elim "" fun advice => Message.render ⟨.note, advice⟩ excerpt

def Warning.report (w : Warning) (file : String) : String :=
  Message.render ⟨.warn, w.message⟩ { file, line := w.line, raw := w.raw }

end Risc16
