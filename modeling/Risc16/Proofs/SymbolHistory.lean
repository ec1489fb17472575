import Mathlib.Data.Finset.Card
import Risc16.Proofs.FillChain
import Risc16.Report.SymbolList

/-! # The history of a symbol table

A table goes through any number of insertions, and some of them are refused.  What it holds in the
end are the first insertions of all names, in their order.  Looking a name up, counting the names
and printing the table all give this one list.
-/
namespace Risc16

namespace Binding

/-- The first binding of each name, in order: one binding, and then those of other names. -/
def firsts : List Binding → List Binding
  | [] => []
  | b :: rest => b :: (firsts rest).filter (·.name ≠ b.name)

def columns (b : Binding) : List Text.Span :=
  match b.symbol with
  | .address addr =>
    [.coloured .green b.name, .plain " = ", .coloured .yellow (Symbol.address addr).text]
  | .literal text => [.coloured .cyan b.name, .plain " = ", .coloured .yellow text]

def row (b : Binding) : String :=
  "  " ++ Text.padLeft 4 (Text.decimal b.line) ++ ": " ++ Text.paint b.columns

theorem find?_firsts (history : List Binding) (name : String) :
    (firsts history).find? (·.name == name) = history.find? (·.name == name) := by
  induction history with
  | nil => rfl
  | cons b rest ih =>
    by_cases hb : b.name = name
    · simp [firsts, hb]
    · -- The filter drops bindings of another name only.
      have hf : ((firsts rest).filter (·.name ≠ b.name)).find? (·.name == name) =
          (firsts rest).find? (·.name == name) := by
        rw [List.find?_filter]
        congr 1
        funext other
        by_cases ho : other.name = name
        · simp [ho, Ne.symm hb]
        · simp [ho]
      rw [firsts, List.find?_cons_of_neg (by simpa using hb), hf, ih,
        List.find?_cons_of_neg (by simpa using hb)]

theorem mem_names_firsts {history : List Binding} {name : String} :
    name ∈ (firsts history).map Binding.name ↔ name ∈ history.map Binding.name := by
  have hmem (bs : List Binding) :
      name ∈ bs.map Binding.name ↔ (bs.find? (·.name == name)).isSome = true := by
    simp [List.find?_isSome]
  rw [hmem, hmem, find?_firsts]

theorem nodup_names_firsts (history : List Binding) :
    ((firsts history).map Binding.name).Nodup := by
  induction history with
  | nil => exact List.nodup_nil
  | cons b rest ih =>
    rw [firsts, List.map_cons, List.nodup_cons]
    constructor
    · simp
    · exact ih.sublist (List.filter_sublist.map Binding.name)

/-- One more binding counts only if it has a new name. -/
theorem firsts_concat (history : List Binding) (b : Binding) :
    firsts (history ++ [b]) =
      if b.name ∈ history.map Binding.name then firsts history else firsts history ++ [b] := by
  induction history with
  | nil => simp [firsts]
  | cons first rest ih =>
    rw [List.cons_append, firsts, ih, firsts, List.map_cons]
    by_cases hr : b.name ∈ rest.map Binding.name
    · rw [if_pos hr, if_pos (List.mem_cons_of_mem _ hr)]
    · rw [if_neg hr, List.filter_append]
      by_cases hf : b.name = first.name
      · rw [if_pos (hf ▸ List.mem_cons_self)]
        simp [hf]
      · rw [if_neg (List.not_mem_cons_of_ne_of_not_mem hf hr)]
        simp [hf]

end Binding

namespace SymbolTable

variable {table : SymbolTable} {history : List Binding} {b : Binding}

/-- The table after an insertion; one that is refused leaves it as it is. -/
def attempt (table : SymbolTable) (b : Binding) : SymbolTable :=
  match table.insert b with
  | .ok next => next
  | .error _ => table

def ofHistory (history : List Binding) : SymbolTable := history.foldl attempt empty

theorem insert_of_not_mem (h : b.name ∉ table.names) :
    table.insert b = .ok ⟨table.bindings ++ [b]⟩ := by
  simp only [insert, find?_eq_none_iff.mpr h]

theorem insert_of_find? {first : Binding} (h : table.find? b.name = some first) :
    table.insert b = .error ((Fault.redefinedLabel b.name first.line).onLine b.line) := by
  simp only [insert, h]

theorem bindings_attempt (table : SymbolTable) (b : Binding) :
    (table.attempt b).bindings =
      if b.name ∈ table.names then table.bindings else table.bindings ++ [b] := by
  unfold attempt
  by_cases hb : b.name ∈ table.names
  · rw [if_pos hb]
    cases hf : table.find? b.name with
    | none => exact absurd hb (find?_eq_none_iff.mp hf)
    | some first => rw [insert_of_find? hf]
  · rw [if_neg hb, insert_of_not_mem hb]

theorem ofHistory_concat (history : List Binding) (b : Binding) :
    ofHistory (history ++ [b]) = (ofHistory history).attempt b := by
  rw [ofHistory, List.foldl_append]
  rfl

theorem bindings_ofHistory (history : List Binding) :
    (ofHistory history).bindings = Binding.firsts history := by
  -- The induction takes the last insertion off, since each one meets the table of those before it.
  induction history using List.reverseRecOn with
  | nil => rfl
  | append_singleton history b ih =>
    rw [ofHistory_concat, bindings_attempt, names, ih, Binding.firsts_concat]
    simp only [Binding.mem_names_firsts]

theorem find?_ofHistory (history : List Binding) (name : String) :
    (ofHistory history).find? name = history.find? (·.name == name) := by
  rw [find?, bindings_ofHistory, Binding.find?_firsts]

theorem nodup_names_ofHistory (history : List Binding) : (ofHistory history).names.Nodup := by
  rw [names, bindings_ofHistory]
  exact Binding.nodup_names_firsts history

theorem mem_names_ofHistory {name : String} :
    name ∈ (ofHistory history).names ↔ name ∈ history.map Binding.name := by
  rw [names, bindings_ofHistory, Binding.mem_names_firsts]

theorem size_ofHistory (history : List Binding) :
    (ofHistory history).size = (history.map Binding.name).toFinset.card := by
  have hs : (history.map Binding.name).toFinset = (ofHistory history).names.toFinset := by
    ext name
    rw [List.mem_toFinset, List.mem_toFinset, mem_names_ofHistory]
  rw [hs, List.toFinset_card_of_nodup (nodup_names_ofHistory history), names, List.length_map, size]

/-- Looking a name up finds the binding that is listed for it. -/
theorem get?_eq_some_iff (hn : table.names.Nodup) {name : String} {y : Symbol} :
    table.get? name = some y ↔ ∃ b ∈ table.bindings, b.name = name ∧ b.symbol = y := by
  constructor
  · intro h
    obtain ⟨b, hb, hy⟩ := Option.map_eq_some_iff.mp h
    exact ⟨b, List.mem_of_find?_eq_some hb, by simpa using List.find?_some hb, hy⟩
  · rintro ⟨b, hb, rfl, rfl⟩
    exact get?_of_mem hn hb

/-- A row shows the binding that it is made for, although the name is looked up again. -/
theorem row_of_mem (hn : table.names.Nodup) (hb : b ∈ table.bindings) : table.row b = b.row := by
  have hc : table.columns b.name = b.columns := by
    rw [columns, get?_of_mem hn hb, Binding.columns]
    cases b.symbol <;> rfl
  rw [row, painted, hc, Binding.row]

theorem report_eq (hn : table.names.Nodup) :
    table.report = String.join ((("Symbols detected : " ++ Text.decimal table.size) ::
      table.bindings.map Binding.row).map (· ++ "\n")) := by
  rw [report, List.map_congr_left fun b hb => row_of_mem hn hb]

/-- An insertion of a name that is there meets the first one. -/
theorem insert_ofHistory_of_mem (h : b.name ∈ (ofHistory history).names) :
    ∃ first, history.find? (·.name == b.name) = some first ∧
      (ofHistory history).insert b =
        .error ((Fault.redefinedLabel b.name first.line).onLine b.line) := by
  cases hf : (ofHistory history).find? b.name with
  | none => exact absurd h (find?_eq_none_iff.mp hf)
  | some first => exact ⟨first, by rw [← find?_ofHistory, hf], insert_of_find? hf⟩

theorem mem_names_of_insert {e : Error} (h : table.insert b = .error e) : b.name ∈ table.names := by
  by_contra hb
  rw [insert_of_not_mem hb] at h
  cases h

/-- What a table holds after a history of insertions. -/
structure Records (table : SymbolTable) (history : List Binding) : Prop where
  bindings : table.bindings = Binding.firsts history
  nodup : table.names.Nodup
  mem_names : ∀ name, name ∈ table.names ↔ name ∈ history.map Binding.name
  first : ∀ b ∈ table.bindings, history.find? (·.name == b.name) = some b
  get? : ∀ name y, table.get? name = some y ↔ ∃ b ∈ table.bindings, b.name = name ∧ b.symbol = y
  size : table.size = (history.map Binding.name).toFinset.card

theorem records_ofHistory (history : List Binding) : (ofHistory history).Records history where
  bindings := bindings_ofHistory history
  nodup := nodup_names_ofHistory history
  mem_names _ := mem_names_ofHistory
  first b hb := by
    rw [← find?_ofHistory]
    exact find?_of_mem (nodup_names_ofHistory history) hb
  get? _ _ := get?_eq_some_iff (nodup_names_ofHistory history)
  size := size_ofHistory history

/-- After any history of insertions, the table lists, finds and counts the first insertion of each
name.  One more insertion is refused exactly if its name is there; the error is on its line and
names the line of the first insertion, and the table stays as it is.  The printed list has a row for
each binding, in order and with what is bound there. -/
theorem ofHistory_keeps_first_insertions (history : List Binding) :
    (ofHistory history).Records history ∧
    (∀ b, (∃ e, (ofHistory history).insert b = .error e) ↔ b.name ∈ history.map Binding.name) ∧
    (∀ b e, (ofHistory history).insert b = .error e →
      ofHistory (history ++ [b]) = ofHistory history ∧
      ∃ first, history.find? (·.name == b.name) = some first ∧
        e.kind = .preprocessor ∧ e.line = some b.line ∧
        e.message = "Re-defined label `" ++ b.name ++ "` (already defined at line " ++
          Text.decimal first.line ++ ")") ∧
    (ofHistory history).report =
      String.join ((("Symbols detected : " ++ Text.decimal (ofHistory history).size) ::
        (ofHistory history).bindings.map Binding.row).map (· ++ "\n")) := by
  refine ⟨records_ofHistory history, ?_, ?_, report_eq (nodup_names_ofHistory history)⟩
  · intro b
    rw [← mem_names_ofHistory]
    constructor
    · rintro ⟨e, he⟩
      exact mem_names_of_insert he
    · intro hb
      obtain ⟨first, -, he⟩ := insert_ofHistory_of_mem hb
      exact ⟨_, he⟩
  · intro b e h
    obtain ⟨first, hf, he⟩ := insert_ofHistory_of_mem (mem_names_of_insert h)
    rw [he] at h
    cases h
    refine ⟨?_, first, hf, rfl, rfl, rfl⟩
    rw [ofHistory_concat, attempt, he]

/-- The second insertion of a name is refused, and the one behind it is not. -/
example :
    (ofHistory [⟨"b", 3, .address 1⟩, ⟨"a", 4, .literal "x"⟩, ⟨"b", 7, .literal "5"⟩,
        ⟨"c", 9, .address 2⟩]).bindings =
      [⟨"b", 3, .address 1⟩, ⟨"a", 4, .literal "x"⟩, ⟨"c", 9, .address 2⟩] := by
  decide

end SymbolTable

end Risc16
