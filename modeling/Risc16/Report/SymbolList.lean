import Risc16.Asm.Symbol

/-! # The list of symbols

One row for each binding, in order of definition, below their number.
-/
namespace Risc16.SymbolTable

def row (table : SymbolTable) (binding : Binding) : String :=
  "  " ++ Text.padLeft 4 (Text.decimal binding.line) ++ ": " ++ table.painted binding.name

def report (table : SymbolTable) : String :=
  String.join ((("Symbols detected : " ++ Text.decimal table.size) ::
    table.bindings.map table.row).map (· ++ "\n"))

end Risc16.SymbolTable
