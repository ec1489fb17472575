/-! # Terminal control

A terminal reads a text character by character, and an escape character begins a control sequence
there.  The visible part of a text is what is left without its control sequences and control
characters; the controls that only move to another column or line are part of it.
-/
namespace Risc16.Text

/-- What a terminal is reading: text to show, or some part of a control sequence. -/
inductive Reading where
  /-- Outside of every sequence. -/
  | shown
  /-- After an escape character. -/
  | escape
  /-- In a short sequence, before its last character. -/
  | short
  /-- In a sequence of parameters, before the character that says what they are for. -/
  | parameters
  /-- In a command to the system, which a bell ends. -/
  | command
  /-- At the start of a string for a device. -/
  | device
  /-- In the parameters of a string for a device. -/
  | deviceParameters
  /-- Behind the parameters of a string for a device. -/
  | deviceMark
  /-- In a string that the terminal passes on or ignores. -/
  | string
  deriving DecidableEq

def isWithin (low high : Nat) (c : Char) : Bool := low ≤ c.toNat && c.toNat ≤ high

/-- The characters that a terminal shows or that move it to another column or line. -/
def isVisible (c : Char) : Bool :=
  isWithin 0x20 0x7E c || 0x80 ≤ c.toNat || ['\t', '\n', '\x0c', '\r'].contains c

/-- A string is ended by the byte `9C`, also as part of a longer character. -/
def endsString (c : Char) : Bool := (String.utf8EncodeChar c).contains 0x9C

namespace Reading

/-- The character after an escape character says what kind of sequence follows. -/
def afterEscape : Char → Reading
  | '[' => parameters
  | ']' => command
  | 'P' => device
  | 'X' | '^' | '_' => string
  | c =>
    if isWithin 0x20 0x2F c then short else if isWithin 0x30 0x7E c then shown else escape

/-- The start of a string for a device: parameters or marks may come first, and any of the last
characters opens the string itself. -/
def afterDevice (c : Char) : Reading :=
  if isWithin 0x20 0x2F c then deviceMark
  else if c == ':' then string
  else if isWithin 0x30 0x3F c then deviceParameters
  else if isWithin 0x40 0x7E c then string
  else device

def afterDeviceParameters (c : Char) : Reading :=
  if isWithin 0x20 0x2F c then deviceMark
  else if isWithin 0x30 0x39 c || c == ';' then deviceParameters
  else if isWithin 0x3A 0x7E c then string
  else deviceParameters

/-- What is read after a character.  An escape character begins a sequence and two controls
abandon one, whatever was being read. -/
def next (reading : Reading) (c : Char) : Reading :=
  match c with
  | '\x18' | '\x1a' => shown
  | '\x1b' => escape
  | c => match reading with
    | shown => shown
    | escape => afterEscape c
    | short => if isWithin 0x30 0x7E c then shown else short
    | parameters => if isWithin 0x40 0x7E c then shown else parameters
    | command => if c == '\x07' then shown else command
    | device => afterDevice c
    | deviceParameters => afterDeviceParameters c
    | deviceMark => if isWithin 0x30 0x7E c then string else deviceMark
    | string => if endsString c then shown else string

end Reading

def visibleFrom (reading : Reading) : List Char → List Char
  | [] => []
  | c :: cs =>
    if reading = .shown ∧ isVisible c then c :: visibleFrom (reading.next c) cs
    else visibleFrom (reading.next c) cs

def visible (text : String) : String := String.ofList (visibleFrom .shown text.toList)

end Risc16.Text
