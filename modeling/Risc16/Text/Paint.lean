/-! # Painted text

A painted text is a list of spans, each with its style.  Writing it out marks only the changes
of style: between neighbouring spans, at the start and back to plain at the end.
-/
namespace Risc16.Text

inductive Colour where
  | red
  | green
  | yellow
  | blue
  | cyan
  deriving DecidableEq

def Colour.code : Colour → String
  | .red => "31"
  | .green => "32"
  | .yellow => "33"
  | .blue => "34"
  | .cyan => "36"

structure Style where
  colour : Option Colour := none
  bold : Bool := false
  underline : Bool := false
  deriving DecidableEq

namespace Style

def plain : Style := {}

def of (colour : Colour) : Style := { colour := some colour }

end Style

structure Span where
  style : Style
  text : String

def escape (code : String) : String := "\x1b[" ++ code ++ "m"

/-- The attribute changes that lead from one style to another, colour first. -/
def Style.change (before after : Style) : String :=
  (if before.colour = after.colour then ""
    else escape (after.colour.elim "39" Colour.code)) ++
  (if before.bold = after.bold then "" else escape (if after.bold then "1" else "22")) ++
  (if before.underline = after.underline then "" else escape (if after.underline then "4" else "24"))

@[simp] theorem Style.change_self (style : Style) : style.change style = "" := by
  simp [Style.change]

/-- Writes spans that follow a text of style `before`. -/
def paintFrom (before : Style) : List Span → String
  | [] => before.change .plain
  | span :: spans => before.change span.style ++ span.text ++ paintFrom span.style spans

def paint (spans : List Span) : String := paintFrom .plain spans

def Span.plain (text : String) : Span := ⟨.plain, text⟩

def Span.coloured (colour : Colour) (text : String) : Span := ⟨.of colour, text⟩

end Risc16.Text
