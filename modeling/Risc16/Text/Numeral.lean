/-! # Numerals

Positional numerals in a base up to thirty-six are read digit by digit, letters counting from
ten on in either case.  Written numerals are decimal, or hexadecimal and binary of a least width.
-/
namespace Risc16.Text

/-- The value of a digit: `0` to `9`, then the letters of either case from ten on. -/
def digitValue? (c : Char) : Option Nat :=
  if '0' ≤ c ∧ c ≤ '9' then some (c.toNat - '0'.toNat)
  else if 'a' ≤ c ∧ c ≤ 'z' then some (c.toNat - 'a'.toNat + 10)
  else if 'A' ≤ c ∧ c ≤ 'Z' then some (c.toNat - 'A'.toNat + 10)
  else none

def digit? (base : Nat) (c : Char) : Option Nat := (digitValue? c).filter (· < base)

/-- Reads digits to the right of a numeral whose value is `n`. -/
def readDigits (base : Nat) (n : Nat) : List Char → Option Nat
  | [] => some n
  | c :: cs => match digit? base c with
    | some d => readDigits base (base * n + d) cs
    | none => none

/-- The value of a numeral: at least one digit and nothing else. -/
def numeral? (base : Nat) : List Char → Option Nat
  | [] => none
  | c :: cs => readDigits base 0 (c :: cs)

theorem digit?_lt {base d : Nat} {c : Char} (h : digit? base c = some d) : d < base := by
  simp only [digit?, Option.filter_eq_some_iff] at h
  simpa using h.2

theorem readDigits_append (base n : Nat) (cs ds : List Char) :
    readDigits base n (cs ++ ds) = (readDigits base n cs).bind (readDigits base · ds) := by
  induction cs generalizing n with
  | nil => rfl
  | cons c cs ih =>
    simp only [List.cons_append, readDigits]
    split
    · exact ih _
    · rfl

/-- The decimal numeral of an integer, with a sign if it is negative. -/
def decimal : Int → String
  | .ofNat n => n.repr
  | .negSucc n => "-" ++ (n + 1).repr

/-- The hexadecimal numeral in capitals, filled with zeros to `width`. -/
def hex (width n : Nat) : String :=
  String.ofList (((Nat.toDigits 16 n).map Char.toUpper).leftpad width '0')

/-- The binary numeral, filled with zeros to `width`. -/
def binary (width n : Nat) : String := String.ofList ((Nat.toDigits 2 n).leftpad width '0')

/-- Fills a text with spaces on the right; the width counts characters. -/
def padRight (width : Nat) (text : String) : String :=
  String.ofList (text.toList.rightpad width ' ')

def padLeft (width : Nat) (text : String) : String :=
  String.ofList (text.toList.leftpad width ' ')

end Risc16.Text
