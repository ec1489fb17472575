import Risc16.Fault
import Risc16.Isa.Instr
import Risc16.Text.Blank
import Risc16.Text.Lines

/-! # Word files

A word file has one word per line, as sixteen binary digits.  Reading skips blank lines and the
blanks around a word, and counts all lines when it reports one.
-/
namespace Risc16.WordFile

def renderWord (w : Word) : String := Text.binary 16 w.toNat

def render (words : List Word) : String := String.join (words.map fun w => renderWord w ++ "\n")

def parseWord (text : String) : Except Fault Word :=
  match Text.numeral? 2 text.toList with
  | some n => if text.length = 16 then .ok (BitVec.ofNat 16 n) else .error (.malformedWord text)
  | none => .error (.malformedWord text)

def decodeWord (text : String) : Except Fault Instr := (parseWord text).map Instr.decode

def trim (line : String) : String := String.ofList (Text.trim line.toList)

def decodeFrom (number : Nat) : List String → Except Error (List Instr)
  | [] => .ok []
  | line :: rest =>
    if trim line = "" then decodeFrom (number + 1) rest
    else match decodeWord (trim line) with
      | .error fault => .error (fault.onLine number)
      | .ok instr => (decodeFrom (number + 1) rest).map (instr :: ·)

def disassemble (text : String) : Except Error (List Instr) := decodeFrom 1 (Text.lines text)

def words (text : String) : List String := ((Text.lines text).map trim).filter (· ≠ "")

end Risc16.WordFile
