import Risc16.Proofs.Expansion

/-! # The survey line by line

What one line does to the survey is said once.  From it follows what a list of lines does: the
address of the next word moves by the widths of the lines, bindings are only added, and a list that
is cut in two is surveyed part by part.
-/
namespace Risc16

theorem located_eq_ok_iff {α : Type} {number : Nat} {x : Except Fault α} {a : α} :
    located number x = .ok a ↔ x = .ok a := by
  cases x <;> simp

namespace SymbolTable

theorem get?_of_prefix {table later : SymbolTable} (h : table.bindings <+: later.bindings)
    {name : String} {symbol : Symbol} (hg : table.get? name = some symbol) :
    later.get? name = some symbol := by
  obtain ⟨added, ha⟩ := h
  obtain ⟨binding, hb, hs⟩ := Option.map_eq_some_iff.mp hg
  have hf : later.find? name = some binding := by
    rw [find?, ← ha, List.find?_append]
    change (table.find? name).or _ = _
    rw [hb, Option.some_or]
  rw [get?, hf, Option.map_some, hs]

theorem get?_of_insert {table later : SymbolTable} {binding : Binding}
    (h : table.insert binding = .ok later) : later.get? binding.name = some binding.symbol := by
  have hf : table.find? binding.name = none := by
    unfold insert at h
    split at h
    · simp at h
    next hf => exact hf
  rw [get?, find?, bindings_of_insert h, List.find?_append]
  change Option.map _ ((table.find? binding.name).or _) = _
  rw [hf]
  simp

end SymbolTable

namespace Survey

/-- All that a line can do to the survey. -/
theorem step_eq_ok_iff {s next : Survey} {line : Line} :
    s.step line = .ok next ↔ ∃ symbol table, s.symbol line = .ok symbol ∧
      s.bindLabel line symbol = .ok table ∧ next = ⟨table, s.size + line.width⟩ := by
  simp only [step, bind_eq_ok_iff, located_eq_ok_iff]
  constructor
  · rintro ⟨symbol, hs, table, ht, hn⟩
    cases hn
    exact ⟨symbol, table, hs, ht, rfl⟩
  · rintro ⟨symbol, table, hs, ht, rfl⟩
    exact ⟨symbol, hs, table, ht, rfl⟩

theorem prefix_of_bindLabel {s : Survey} {line : Line} {symbol : Symbol} {table : SymbolTable}
    (h : s.bindLabel line symbol = .ok table) : s.table.bindings <+: table.bindings := by
  unfold bindLabel at h
  split at h
  · rw [SymbolTable.bindings_of_insert h]
    exact List.prefix_append _ _
  · cases h
    exact List.prefix_refl _

theorem prefix_of_step {s next : Survey} {line : Line} (h : s.step line = .ok next) :
    s.table.bindings <+: next.table.bindings := by
  obtain ⟨symbol, table, -, ht, rfl⟩ := step_eq_ok_iff.mp h
  exact prefix_of_bindLabel ht

/-- A label that no directive defines is bound to the address of the next word. -/
theorem get?_of_step {s next : Survey} {line : Line} {name : String}
    (h : s.step line = .ok next) (hl : line.label = some name)
    (hs : ∀ directive operands, line.statement ≠ .directive directive operands) :
    next.table.get? name = some (.address s.size) := by
  obtain ⟨symbol, table, hy, ht, rfl⟩ := step_eq_ok_iff.mp h
  have ha : symbol = .address s.size := by
    unfold Survey.symbol at hy
    split at hy
    next directive operands hd => exact absurd hd (hs directive operands)
    all_goals
      cases hy
      rfl
  simp only [bindLabel, hl] at ht
  rw [SymbolTable.get?_of_insert ht, ha]

theorem advance_cons_of_ok {s next : Survey} {line : Line} (h : s.step line = .ok next)
    (rest : List Line) : s.advance (line :: rest) = next.advance rest := by
  simp only [advance, h]

theorem advance_cons_of_error {s : Survey} {line : Line} {e : Error} (h : s.step line = .error e)
    (rest : List Line) : s.advance (line :: rest) = (s, some e) := by
  simp only [advance, h]

theorem advance_append_of_ok {s middle : Survey} {before : List Line}
    (h : s.advance before = (middle, none)) (after : List Line) :
    s.advance (before ++ after) = middle.advance after := by
  induction before generalizing s with
  | nil =>
    cases h
    rfl
  | cons line rest ih =>
    cases hs : s.step line with
    | error e => simp [advance_cons_of_error hs] at h
    | ok next =>
      rw [advance_cons_of_ok hs] at h
      rw [List.cons_append, advance_cons_of_ok hs, ih h]

/-- A survey that gets through a list gets through each part of it. -/
theorem advance_append_eq_ok {s reached : Survey} {before after : List Line}
    (h : s.advance (before ++ after) = (reached, none)) :
    ∃ middle, s.advance before = (middle, none) ∧ middle.advance after = (reached, none) := by
  induction before generalizing s with
  | nil => exact ⟨s, rfl, h⟩
  | cons line rest ih =>
    cases hs : s.step line with
    | error e => simp [advance_cons_of_error hs] at h
    | ok next =>
      rw [List.cons_append, advance_cons_of_ok hs] at h
      obtain ⟨middle, hm, hr⟩ := ih h
      exact ⟨middle, by rw [advance_cons_of_ok hs, hm], hr⟩

theorem prefix_of_advance (s : Survey) (lines : List Line) :
    s.table.bindings <+: (s.advance lines).1.table.bindings := by
  induction lines generalizing s with
  | nil => exact List.prefix_refl _
  | cons line rest ih =>
    cases hs : s.step line with
    | error e => simpa only [advance_cons_of_error hs] using List.prefix_refl _
    | ok next =>
      rw [advance_cons_of_ok hs]
      exact (prefix_of_step hs).trans (ih next)

theorem size_of_advance {s reached : Survey} {lines : List Line}
    (h : s.advance lines = (reached, none)) : reached.size = s.size + totalWidth lines := by
  induction lines generalizing s with
  | nil =>
    cases h
    simp
  | cons line rest ih =>
    cases hs : s.step line with
    | error e => simp [advance_cons_of_error hs] at h
    | ok next =>
      obtain ⟨symbol, table, -, -, rfl⟩ := step_eq_ok_iff.mp hs
      rw [advance_cons_of_ok hs] at h
      rw [ih h, totalWidth_cons, Nat.add_assoc]

/-- A label on a line without a directive is bound to the words before that line. -/
theorem get?_of_advance {s reached : Survey} {before after : List Line} {line : Line}
    {name : String} (h : s.advance (before ++ line :: after) = (reached, none))
    (hl : line.label = some name)
    (hs : ∀ directive operands, line.statement ≠ .directive directive operands) :
    reached.table.get? name = some (.address (s.size + totalWidth before)) := by
  obtain ⟨middle, hb, hm⟩ := advance_append_eq_ok h
  rw [← size_of_advance hb]
  cases ht : middle.step line with
  | error e => simp [advance_cons_of_error ht] at hm
  | ok next =>
    rw [advance_cons_of_ok ht] at hm
    have hp := prefix_of_advance next after
    rw [hm] at hp
    exact SymbolTable.get?_of_prefix hp (get?_of_step ht hl hs)

theorem ofLines_eq_ok_iff {lines : List Line} {survey : Survey} :
    ofLines lines = .ok survey ↔ start.advance lines = (survey, none) := by
  unfold ofLines
  split
  next s hs => simp [hs]
  next s e hs => simp [hs]

theorem ofLines_eq_error_iff {lines : List Line} {e : Error} :
    ofLines lines = .error e ↔ (start.advance lines).2 = some e := by
  unfold ofLines
  split
  next s hs => simp [hs]
  next s e' hs => simp [hs]

end Survey

def Binding.definition (b : Binding) : String × Nat := (b.name, b.line)

def Line.definition? (line : Line) : Option (String × Nat) := line.label.map (·, line.number)

theorem Line.any_definition? (line : Line) (name : String) :
    line.definition?.any (·.1 == name) = (line.label == some name) := by
  cases hl : line.label with
  | none => simp [definition?, hl]
  | some other => simp [definition?, hl]

namespace Survey

/-- The table holds the definitions of these lines, in their order and nothing else. -/
def Defines (s : Survey) (lines : List Line) : Prop :=
  s.table.bindings.map Binding.definition = lines.filterMap Line.definition?

theorem defines_start : start.Defines [] := rfl

theorem Defines.step {s next : Survey} {lines : List Line} {line : Line} (hd : s.Defines lines)
    (h : s.step line = .ok next) : next.Defines (lines ++ [line]) := by
  obtain ⟨symbol, table, -, ht, rfl⟩ := step_eq_ok_iff.mp h
  unfold Defines at hd ⊢
  unfold bindLabel at ht
  split at ht
  next name hl =>
    rw [SymbolTable.bindings_of_insert ht, List.map_append, hd, List.filterMap_append]
    simp [Line.definition?, Binding.definition, hl]
  next hl =>
    cases ht
    rw [hd, List.filterMap_append]
    simp [Line.definition?, hl]

theorem Defines.advance {s reached : Survey} {before lines : List Line} (hd : s.Defines before)
    (h : s.advance lines = (reached, none)) : reached.Defines (before ++ lines) := by
  induction lines generalizing s before with
  | nil =>
    cases h
    rwa [List.append_nil]
  | cons line rest ih =>
    cases hs : s.step line with
    | error e => simp [advance_cons_of_error hs] at h
    | ok next =>
      rw [advance_cons_of_ok hs] at h
      rw [List.append_cons]
      exact ih (hd.step hs) h

theorem defines_of_ofLines {lines : List Line} {survey : Survey}
    (h : ofLines lines = .ok survey) : survey.Defines lines :=
  defines_start.advance (ofLines_eq_ok_iff.mp h)

/-- A name is found in the table at the first line that defines it. -/
theorem Defines.line_find? {s : Survey} {lines : List Line} (hd : s.Defines lines)
    (name : String) : (s.table.find? name).map Binding.line =
      (lines.find? (·.label == some name)).map Line.number := by
  have hf : (s.table.find? name).map Binding.definition =
      (lines.find? (·.label == some name)).bind Line.definition? := by
    calc (s.table.find? name).map Binding.definition
        = (s.table.bindings.map Binding.definition).find? (·.1 == name) := by
          rw [List.find?_map]
          rfl
      _ = (lines.filterMap Line.definition?).find? (·.1 == name) := by rw [hd]
      _ = _ := by
        rw [List.find?_filterMap]
        simp only [Line.any_definition?]
  have hl := congrArg (Option.map Prod.snd) hf
  rw [Option.map_map] at hl
  refine hl.trans ?_
  cases hx : lines.find? (·.label == some name) with
  | none => rfl
  | some line =>
    have hn : line.label = some name := by simpa using List.find?_some hx
    simp [Line.definition?, hn]

end Survey

end Risc16
