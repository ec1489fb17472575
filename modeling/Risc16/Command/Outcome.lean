import Risc16.Asm.Program
import Risc16.Command.Arguments
import Risc16.Command.FileTree
import Risc16.Report.Message
import Risc16.Text.Terminal

/-! # Outcomes of commands

What the two commands share: their log, their report about files, the line of a source that an
error quotes, and their answers to arguments that do not ask for a run.
-/
namespace Risc16

/-- One line of the log.  It leaves out what would control a terminal. -/
def Event.record (e : Event) : String :=
  Text.visible ((if e.isDetail then "[TRACE] " else "[DEBUG] ") ++ e.message ++ "\n")

namespace Command

/-- The log at a verbosity: nothing, all but the details, or everything. -/
def log (verbosity : Nat) (events : List Event) : String :=
  let told : List Event := match verbosity with
    | 0 => []
    | 1 => events.filter (!·.isDetail)
    | _ => events
  String.join (told.map Event.record)

def fileReport (action name : String) (fault : FileFault) : String :=
  Text.paint (Message.headline ⟨.error, action ++ ": " ++ name ++ ": " ++ fault.message⟩) ++ "\n"

def cannotOpen : String → FileFault → String := fileReport "Failed to open file"

def cannotWrite : String → FileFault → String := fileReport "Failed to write file"

def errorReport (name text : String) (e : Error) : String :=
  e.report name ((e.line.bind fun n => (Text.lines text)[n - 1]?).getD "")

structure Outcome where
  exit : Nat
  output : String := ""
  log : String := ""

def versionText : String := "risc16asm 0.1.0\n"

/-- The answer to a request for the version or for help, or to a misuse. -/
def notRun (usage : String) : Request → Outcome
  | .version => { exit := 0, output := versionText }
  | .help => { exit := 0, output := usage }
  | .misuse | .run _ => { exit := 2, log := usage }

end Command

end Risc16
