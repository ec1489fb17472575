import Risc16.Command.Outcome
import Risc16.Report.Listing
import Risc16.Report.SymbolList

/-! # The command `assemble`

The command reads a source, prints what was asked for and the words, and writes the words to a
file.  Nothing is written unless the whole source assembles.
-/
namespace Risc16.Command.Assemble

def tool : Interface := ⟨[.dump, .symbols, .verbose, .version, .help], 2⟩

/-- A stand-in of one line: the help text itself is not part of this library. -/
def usage : String := "Usage: assemble [-d] [-s] [-v]... SOURCE [DEST]\n"

def sourceName (o : Options) : String := o.names.head?.getD ""

/-- The second name is the destination; by default it is the source with the extension `data`. -/
def destinationName (o : Options) : String :=
  (o.names[1]?).getD (Path.withExtension (sourceName o) "data")

def banner (o : Options) : String :=
  "Source      : " ++ sourceName o ++ "\nDestination : " ++ destinationName o ++ "\n"

/-- What a run on a source text prints after the banner: warnings, and then the error or the
tables that were asked for and the words. -/
def output (o : Options) (source : String) (run : Run) : String :=
  String.join (run.warnings.map (·.report (sourceName o))) ++
    match run.outcome with
    | .error e => errorReport (sourceName o) source e
    | .ok program =>
      (if o.symbols then program.table.report else "") ++
        (if o.dump then Listing.render (sourceName o) program else "") ++ program.text

/-- A run before its result is written: what it prints and logs, and the word file if there is
one to write. -/
structure Prepared where
  output : String
  log : String := ""
  words : Option String := none

def prepare (o : Options) : Except FileFault String → Prepared
  | .error fault => { output := banner o ++ cannotOpen (sourceName o) fault }
  | .ok source =>
    let run := Run.ofSource source
    { output := banner o ++ output o source run
      log := log o.verbosity run.events
      words := run.outcome.toOption.map Program.text }

def Prepared.failed (p : Prepared) : Outcome := { exit := 1, output := p.output, log := p.log }

def Prepared.written (p : Prepared) : Outcome := { exit := 0, output := p.output, log := p.log }

def Prepared.unwritten (p : Prepared) (o : Options) (fault : FileFault) : Outcome :=
  { exit := 1, output := p.output ++ cannotWrite (destinationName o) fault, log := p.log }

def execute (o : Options) (files : FileTree) : Outcome × FileTree :=
  let p := prepare o (files.readText (sourceName o))
  match p.words with
  | none => (p.failed, files)
  | some words => match files.write (destinationName o) words.toUTF8 with
    | .error fault => (p.unwritten o fault, files)
    | .ok next => (p.written, next)

/-- The command as a whole: its outcome, and the files after it. -/
def command (args : List String) (files : FileTree) : Outcome × FileTree :=
  match tool.request args with
  | .run o => execute o files
  | other => (notRun usage other, files)

end Risc16.Command.Assemble
