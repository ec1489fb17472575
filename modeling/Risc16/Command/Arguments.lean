/-! # Command line arguments

Arguments are taken from left to right, and the first one that settles the matter ends the
reading: a misuse, or a request for the version or for help.  Flags may stand before and after
names, short flags can be joined, and after `--` everything is a name.
-/
namespace Risc16.Command

inductive Flag where
  | dump
  | symbols
  | verbose
  | version
  | help
  deriving DecidableEq

def Flag.short : Flag → Char
  | dump => 'd'
  | symbols => 's'
  | verbose => 'v'
  | version => 'V'
  | help => 'h'

def Flag.long : Flag → String
  | dump => "dump"
  | symbols => "symbols"
  | verbose => "verbose"
  | version => "version"
  | help => "help"

/-- What a tool takes: its flags, and one file name or more up to a number. -/
structure Interface where
  flags : List Flag
  names : Nat

structure Options where
  dump : Bool := false
  symbols : Bool := false
  verbosity : Nat := 0
  names : List String := []

inductive Request where
  | run (options : Options)
  | version
  | help
  | misuse

namespace Options

/-- Takes in a flag.  Only `verbose` may be given again. -/
def set (o : Options) : Flag → Except Request Options
  | .dump => if o.dump then .error .misuse else .ok { o with dump := true }
  | .symbols => if o.symbols then .error .misuse else .ok { o with symbols := true }
  | .verbose => .ok { o with verbosity := o.verbosity + 1 }
  | .version => .error .version
  | .help => .error .help

end Options

namespace Interface

def addName (tool : Interface) (o : Options) (name : String) : Except Request Options :=
  if name == "" || tool.names ≤ o.names.length then .error .misuse
  else .ok { o with names := o.names ++ [name] }

def setFlag (o : Options) : Option Flag → Except Request Options
  | some flag => o.set flag
  | none => .error .misuse

def setShort (tool : Interface) (o : Options) (c : Char) : Except Request Options :=
  setFlag o (tool.flags.find? (·.short == c))

def setLong (tool : Interface) (o : Options) (name : String) : Except Request Options :=
  setFlag o (tool.flags.find? (·.long == name))

def scan (tool : Interface) (o : Options) : List String → Except Request Options
  | [] => .ok o
  | arg :: rest => match arg.toList with
    | ['-', '-'] => rest.foldlM tool.addName o
    | '-' :: '-' :: name => (tool.setLong o (String.ofList name)).bind (tool.scan · rest)
    | '-' :: c :: cs => ((c :: cs).foldlM tool.setShort o).bind (tool.scan · rest)
    | _ => (tool.addName o arg).bind (tool.scan · rest)

/-- What the arguments ask for; at least one file must be named. -/
def request (tool : Interface) (args : List String) : Request :=
  match tool.scan {} args with
  | .error request => request
  | .ok o => if o.names.isEmpty then .misuse else .run o

end Interface

end Risc16.Command
