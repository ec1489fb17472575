import Risc16.Fault
import Risc16.Text.Paint

/-! # Symbols

A symbol table binds names in the order of their definition.  A name is bound once: a second
definition is refused and leaves the table as it was.
-/
namespace Risc16

/-- What a label stands for: the address of a word, or a text that replaces the label. -/
inductive Symbol where
  | address (addr : Nat)
  | literal (text : String)
  deriving DecidableEq

def Symbol.text : Symbol → String
  | address addr => "0x" ++ Text.hex 4 addr
  | literal text => text

structure Binding where
  name : String
  line : Nat
  symbol : Symbol
  deriving DecidableEq

structure SymbolTable where
  bindings : List Binding
  deriving DecidableEq

namespace SymbolTable

def empty : SymbolTable := ⟨[]⟩

def size (table : SymbolTable) : Nat := table.bindings.length

def find? (table : SymbolTable) (name : String) : Option Binding :=
  table.bindings.find? (·.name == name)

def get? (table : SymbolTable) (name : String) : Option Symbol :=
  (table.find? name).map Binding.symbol

/-- Binds a new name after all others. -/
def insert (table : SymbolTable) (binding : Binding) : Except Error SymbolTable :=
  match table.find? binding.name with
  | some earlier =>
    .error ((Fault.redefinedLabel binding.name earlier.line).onLine binding.line)
  | none => .ok ⟨table.bindings ++ [binding]⟩

@[simp] theorem get?_empty (name : String) : empty.get? name = none := rfl

theorem bindings_of_insert {table next : SymbolTable} {binding : Binding}
    (h : table.insert binding = .ok next) : next.bindings = table.bindings ++ [binding] := by
  unfold insert at h
  split at h
  · simp at h
  · cases h
    rfl

/-- A name and its symbol in colour; a name without a symbol is marked. -/
def columns (table : SymbolTable) (name : String) : List Text.Span :=
  match table.get? name with
  | some (.address addr) =>
    [.coloured .green name, .plain " = ", .coloured .yellow (Symbol.address addr).text]
  | some (.literal text) => [.coloured .cyan name, .plain " = ", .coloured .yellow text]
  | none => [⟨{ colour := some .red, underline := true }, name⟩]

def painted (table : SymbolTable) (name : String) : String := Text.paint (table.columns name)

end SymbolTable

end Risc16
