import Risc16.Command.Outcome

/-! # The command `disasm`

The command prints one row for each word of a word file: its address, the word as it is written,
with bits that decoding ignores, and its instruction.
-/
namespace Risc16.Command.Disassemble

def tool : Interface := ⟨[.verbose, .version, .help], 1⟩

/-- A stand-in of one line: the help text itself is not part of this library. -/
def usage : String := "Usage: disasm [-v]... INPUT\n"

def inputName (o : Options) : String := o.names.head?.getD ""

def row (address : Nat) (word : String) (instr : Instr) : String :=
  Text.paint [.coloured .green (Text.hex 4 address)] ++ "  " ++ word ++ "  " ++ instr.painted ++ "\n"

def rowsFrom (address : Nat) : List (String × Instr) → List String
  | [] => []
  | (word, instr) :: rest => row address word instr :: rowsFrom (address + 1) rest

def rows (text : String) (instrs : List Instr) : List String :=
  rowsFrom 0 ((WordFile.words text).zip instrs)

def execute (o : Options) : Except FileFault String → Outcome
  | .error fault => { exit := 1, output := cannotOpen (inputName o) fault }
  | .ok text => match WordFile.disassemble text with
    | .error e => { exit := 1, output := errorReport (inputName o) text e }
    | .ok instrs =>
      { exit := 0, output := String.join (rows text instrs)
        log := log o.verbosity [.decoded instrs.length] }

/-- The command as a whole.  It writes no file. -/
def command (args : List String) (files : FileTree) : Outcome :=
  match tool.request args with
  | .run o => execute o (files.readText (inputName o))
  | other => notRun usage other

end Risc16.Command.Disassemble
