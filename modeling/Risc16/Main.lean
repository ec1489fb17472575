import Risc16.Command.Assemble
import Risc16.Command.Disassemble

/-! # The command line

The first argument names the tool.  Only reading, writing and printing happen here; what is
printed and written is decided by the commands.
-/
namespace Risc16.Command

/-- The fault behind a failed file operation. -/
def faultOf : IO.Error → FileFault
  | .inappropriateType _ code _ => if code = 21 then .isFolder else .notFolder
  | _ => .missing

def readText (name : String) : IO (Except FileFault String) := do
  try
    let bytes ← IO.FS.readBinFile name
    return match String.fromUTF8? bytes with
      | some text => .ok text
      | none => .error .notText
  catch e => return .error (faultOf e)

def writeText (name text : String) : IO (Option FileFault) := do
  try
    IO.FS.writeBinFile name text.toUTF8
    return none
  catch e => return some (faultOf e)

def conclude (outcome : Outcome) : IO UInt32 := do
  IO.print outcome.output
  IO.eprint outcome.log
  return outcome.exit.toUInt32

def assembleMain (args : List String) : IO UInt32 := do
  match Assemble.tool.request args with
  | .run o =>
    let p := Assemble.prepare o (← readText (Assemble.sourceName o))
    match p.words with
    | none => conclude p.failed
    | some words => match ← writeText (Assemble.destinationName o) words with
      | none => conclude p.written
      | some fault => conclude (p.unwritten o fault)
  | other => conclude (notRun Assemble.usage other)

def disassembleMain (args : List String) : IO UInt32 := do
  match Disassemble.tool.request args with
  | .run o => conclude (Disassemble.execute o (← readText (Disassemble.inputName o)))
  | other => conclude (notRun Disassemble.usage other)

end Risc16.Command

def main (args : List String) : IO UInt32 :=
  match args with
  | "assemble" :: rest => Risc16.Command.assembleMain rest
  | "disasm" :: rest => Risc16.Command.disassembleMain rest
  | _ => do
    IO.eprint (Risc16.Command.Assemble.usage ++ Risc16.Command.Disassemble.usage)
    return 2
