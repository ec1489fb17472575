import Risc16.Fault

/-! # Numeric literals

A literal is an optional minus sign, an optional base mark and digits of that base.  Its
magnitude has at most sixty-three bits, so the least signed 64-bit number is not a literal.
-/
namespace Risc16.Literal

def sign : List Char → Bool × List Char
  | '-' :: rest => (true, rest)
  | cs => (false, cs)

/-- Splits off a base mark; without one the base is ten. -/
def base : List Char → Nat × List Char
  | '0' :: 'x' :: rest | '0' :: 'X' :: rest => (16, rest)
  | '0' :: 'b' :: rest | '0' :: 'B' :: rest => (2, rest)
  | '0' :: 'o' :: rest | '0' :: 'O' :: rest => (8, rest)
  | cs => (10, cs)

/-- The greatest magnitude, with sixty-three bits all set. -/
def greatest : Nat := 0x7FFFFFFFFFFFFFFF

def read? (cs : List Char) : Option Int :=
  let (negative, body) := sign cs
  let (radix, digits) := base body
  match Text.numeral? radix digits with
  | none => none
  | some n =>
    if n ≤ greatest then some (if negative then -(n : Int) else n) else none

def parse (text : String) : Except Fault Int :=
  match read? text.toList with
  | some value => .ok value
  | none => .error (.notLiteral text)

end Risc16.Literal
