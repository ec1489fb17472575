import Risc16.Proofs.LabelName
import Risc16.Proofs.Relocation

/-! # Chains of `.fill`

A `.fill` can name a label that is another `.fill`, and so on.  The survey only copies one symbol
that is in the table already, line by line.  Still every label gets the symbol of the line at the
end of its chain: each step of a chain goes to an earlier line, so that the chain ends, and a name
that is not defined before its `.fill` is the end of it.
-/
namespace Risc16

def Statement.Fills (s : Statement) (value : String) : Prop :=
  ∃ name rest, s = .directive name (value :: rest) ∧ name.toLower = ".fill"

/-- Line `i` is a `.fill` of the label of line `j`, which comes before it. -/
structure Refers (lines : List Line) (i j : Nat) : Prop where
  lt : j < i
  names : ∃ line target name, lines[i]? = some line ∧ lines[j]? = some target ∧
    line.statement.Fills name ∧ target.label = some name

/-- The chain that begins at line `i` ends at line `root`. -/
inductive LeadsTo (lines : List Line) : Nat → Nat → Prop where
  | root {i : Nat} (h : ∀ j, ¬ Refers lines i j) : LeadsTo lines i i
  | next {i j root : Nat} (h : Refers lines i j) (hr : LeadsTo lines j root) : LeadsTo lines i root

/-- The symbol of the line at the end of a chain: the address of an instruction or of a line without
a statement, zero for a `.space`, and for a `.fill` its value, which no line before it defines. -/
inductive RootSymbol (lines : List Line) (root : Nat) : Symbol → Prop where
  | address {line : Line} (hl : lines[root]? = some line)
      (hs : ∀ directive operands, line.statement ≠ .directive directive operands) :
      RootSymbol lines root (.address (totalWidth (lines.take root)))
  | space {line : Line} {name : String} {operands : List String} (hl : lines[root]? = some line)
      (hs : line.statement = .directive name operands) (hn : name.toLower = ".space") :
      RootSymbol lines root (.literal "0")
  | fill {line : Line} {value : String} (hl : lines[root]? = some line)
      (hs : line.statement.Fills value)
      (hn : ∀ j < root, ∀ earlier, lines[j]? = some earlier → earlier.label ≠ some value) :
      RootSymbol lines root (.literal value)

namespace SymbolTable

theorem nodup_of_insert {table later : SymbolTable} {binding : Binding}
    (h : table.insert binding = .ok later) (hn : table.names.Nodup) : later.names.Nodup := by
  have hf : table.find? binding.name = none := by
    unfold insert at h
    split at h
    · cases h
    next hf => exact hf
  have hl : later.names = table.names ++ [binding.name] := by
    rw [names, bindings_of_insert h, List.map_append]
    rfl
  rw [hl, List.nodup_append]
  refine ⟨hn, List.pairwise_singleton _ _, ?_⟩
  intro name hm other ho he
  rw [List.mem_singleton.mp ho] at he
  rw [he] at hm
  exact find?_eq_none_iff.mp hf hm

theorem find?_of_mem {table : SymbolTable} (hn : table.names.Nodup) {b : Binding}
    (hb : b ∈ table.bindings) : table.find? b.name = some b := by
  obtain ⟨before, after, hs⟩ := List.append_of_mem hb
  have hf : before.find? (·.name == b.name) = none := by
    rw [List.find?_eq_none]
    intro other ho he
    rw [names, hs, List.map_append, List.nodup_append] at hn
    exact hn.2.2 _ (List.mem_map_of_mem ho) _ (List.mem_map_of_mem List.mem_cons_self)
      (by simpa using he)
  rw [find?, hs, List.find?_append, hf, Option.none_or, List.find?_cons_of_pos (by simp)]

theorem get?_of_mem {table : SymbolTable} (hn : table.names.Nodup) {b : Binding}
    (hb : b ∈ table.bindings) : table.get? b.name = some b.symbol := by
  rw [get?, find?_of_mem hn hb, Option.map_some]

end SymbolTable

namespace Survey

theorem nodup_of_step {s next : Survey} {line : Line} (h : s.step line = .ok next)
    (hn : s.table.names.Nodup) : next.table.names.Nodup := by
  obtain ⟨symbol, table, -, ht, rfl⟩ := step_eq_ok_iff.mp h
  unfold bindLabel at ht
  split at ht
  · exact SymbolTable.nodup_of_insert ht hn
  · cases ht
    exact hn

theorem nodup_of_advance {s reached : Survey} {lines : List Line}
    (h : s.advance lines = (reached, none)) (hn : s.table.names.Nodup) :
    reached.table.names.Nodup := by
  induction lines generalizing s with
  | nil =>
    cases h
    exact hn
  | cons line rest ih =>
    cases hs : s.step line with
    | error e => simp [advance_cons_of_error hs] at h
    | ok next =>
      rw [advance_cons_of_ok hs] at h
      exact ih h (nodup_of_step hs hn)

theorem nodup_of_ofLines {lines : List Line} {survey : Survey} (h : ofLines lines = .ok survey) :
    survey.table.names.Nodup :=
  nodup_of_advance (ofLines_eq_ok_iff.mp h) List.nodup_nil

theorem Defines.names_eq {s : Survey} {lines : List Line} (hd : s.Defines lines) :
    s.table.names = lines.filterMap Line.label := by
  have hb : Prod.fst ∘ Binding.definition = Binding.name := rfl
  have hl : (fun line => (Line.definition? line).map Prod.fst) = Line.label := by
    funext line
    simp [Line.definition?, Function.comp_def]
  have h := congrArg (List.map Prod.fst) hd
  rwa [List.map_map, List.map_filterMap, hb, hl] at h

theorem eq_of_label {lines : List Line} {survey : Survey} (h : ofLines lines = .ok survey)
    {i j : Nat} {a b : Line} {name : String} (hi : lines[i]? = some a) (hj : lines[j]? = some b)
    (ha : a.label = some name) (hb : b.label = some name) : i = j := by
  have hn := nodup_of_ofLines h
  rw [(defines_of_ofLines h).names_eq, List.Nodup, List.pairwise_filterMap,
    List.pairwise_iff_getElem] at hn
  obtain ⟨hil, rfl⟩ := List.getElem?_eq_some_iff.mp hi
  obtain ⟨hjl, rfl⟩ := List.getElem?_eq_some_iff.mp hj
  rcases Nat.lt_trichotomy i j with hlt | he | hgt
  · exact absurd rfl (hn i j hil hjl hlt name ha name hb)
  · exact he
  · exact absurd rfl (hn j i hjl hil hgt name hb name ha)

/-- All that a line can stand for. -/
theorem symbol_cases {s : Survey} {line : Line} {y : Symbol} (h : s.symbol line = .ok y) :
    (∃ value, line.statement.Fills value ∧ y = (s.table.get? value).getD (.literal value)) ∨
    (∃ name operands, line.statement = .directive name operands ∧ name.toLower = ".space" ∧
      y = .literal "0") ∨
    (∀ name operands, line.statement ≠ .directive name operands) ∧ y = .address s.size := by
  unfold symbol at h
  cases hs : line.statement with
  | blank | instruction =>
    rw [hs] at h
    cases h
    exact .inr (.inr ⟨by simp, rfl⟩)
  | directive name operands =>
    rw [hs] at h
    change directiveSymbol s.table name operands = .ok y at h
    unfold directiveSymbol at h
    split at h
    next hf =>
      cases operands with
      | nil => cases h
      | cons value rest =>
        cases h
        exact .inl ⟨value, ⟨name, rest, rfl, hf⟩, rfl⟩
    · split at h
      next hn =>
        cases h
        exact .inr (.inl ⟨name, operands, rfl, hn, rfl⟩)
      · cases h

/-- A label gets the symbol of its line in view of the lines before. -/
theorem exists_symbol_of_advance {s reached : Survey} {before after : List Line} {line : Line}
    {name : String} (h : s.advance (before ++ line :: after) = (reached, none))
    (hl : line.label = some name) :
    ∃ middle symbol, s.advance before = (middle, none) ∧ middle.symbol line = .ok symbol ∧
      middle.table.bindings <+: reached.table.bindings ∧
      reached.table.get? name = some symbol := by
  obtain ⟨middle, hb, hm⟩ := advance_append_eq_ok h
  cases ht : middle.step line with
  | error e => simp [advance_cons_of_error ht] at hm
  | ok next =>
    rw [advance_cons_of_ok ht] at hm
    have hp := prefix_of_advance next after
    rw [hm] at hp
    have hmiddle := (prefix_of_step ht).trans hp
    obtain ⟨symbol, table, hy, hbind, rfl⟩ := step_eq_ok_iff.mp ht
    simp only [bindLabel, hl] at hbind
    exact ⟨middle, symbol, hb, hy, hmiddle,
      SymbolTable.get?_of_prefix hp (SymbolTable.get?_of_insert hbind)⟩

end Survey

theorem mem_take_iff_getElem? {α : Type} {xs : List α} {i : Nat} {x : α} :
    x ∈ xs.take i ↔ ∃ j < i, xs[j]? = some x := by
  simp only [List.mem_iff_getElem?, List.getElem?_take]
  constructor
  · rintro ⟨j, hj⟩
    split at hj
    next hlt => exact ⟨j, hlt, hj⟩
    · cases hj
  · rintro ⟨j, hlt, hj⟩
    exact ⟨j, by rw [if_pos hlt, hj]⟩

theorem Statement.Fills.unique {s : Statement} {a b : String} (ha : s.Fills a) (hb : s.Fills b) :
    a = b := by
  obtain ⟨_, _, rfl, -⟩ := ha
  obtain ⟨_, _, he, -⟩ := hb
  cases he
  rfl

section Chain

variable {lines : List Line} {survey : Survey} (h : Survey.ofLines lines = .ok survey)
include h

theorem Refers.unique {i j k : Nat} (hj : Refers lines i j) (hk : Refers lines i k) : j = k := by
  obtain ⟨line, target, name, hi, hj, hfills, hlabel⟩ := hj.names
  obtain ⟨line', other, name', hi', hk, hfills', hlabel'⟩ := hk.names
  rw [hi] at hi'
  cases hi'
  rw [hfills'.unique hfills] at hlabel'
  exact Survey.eq_of_label h hj hk hlabel hlabel'

theorem LeadsTo.unique {i a b : Nat} (ha : LeadsTo lines i a) (hb : LeadsTo lines i b) : b = a := by
  induction ha with
  | root hroot =>
    cases hb with
    | root => rfl
    | next hr => exact absurd hr (hroot _)
  | next hr _ ih =>
    cases hb with
    | root hroot => exact absurd hr (hroot _)
    | next hr' hb =>
      rw [hr'.unique h hr] at hb
      exact ih hb

omit h in
theorem LeadsTo.labelled {i root : Nat} (hr : LeadsTo lines i root) {line : Line}
    (hi : lines[i]? = some line) {name : String} (hl : line.label = some name) :
    ∃ last label, lines[root]? = some last ∧ last.label = some label := by
  induction hr generalizing line name with
  | root => exact ⟨line, name, hi, hl⟩
  | next hrefers _ ih =>
    obtain ⟨_, target, label, -, hj, -, hlabel⟩ := hrefers.names
    exact ih hj hlabel

omit h in
theorem LeadsTo.self {i : Nat} {line : Line} (hi : lines[i]? = some line)
    (hs : ∀ value, ¬ line.statement.Fills value) : LeadsTo lines i i := by
  apply LeadsTo.root
  intro j hj
  obtain ⟨_, _, name, hi', -, hfills, -⟩ := hj.names
  rw [hi] at hi'
  cases hi'
  exact hs name hfills

omit h in
theorem LeadsTo.self_of_fill {i : Nat} {line : Line} {value : String} (hi : lines[i]? = some line)
    (hs : line.statement.Fills value)
    (hn : ∀ j < i, ∀ earlier, lines[j]? = some earlier → earlier.label ≠ some value) :
    LeadsTo lines i i := by
  apply LeadsTo.root
  intro j hj
  obtain ⟨_, target, name, hi', htarget, hfills, hlabel⟩ := hj.names
  rw [hi] at hi'
  cases hi'
  rw [hfills.unique hs] at hlabel
  exact hn j hj.lt target htarget hlabel

omit h in
/-- A `.fill` of a label takes over the root of that label, and any other `.fill` is a root. -/
theorem exists_root_of_fill {i : Nat} {line : Line} {value : String} {middle : Survey}
    (hi : lines[i]? = some line) (hs : line.statement.Fills value)
    (hb : Survey.start.advance (lines.take i) = (middle, none))
    (hp : middle.table.bindings <+: survey.table.bindings)
    (ih : ∀ j < i, ∀ target label, lines[j]? = some target → target.label = some label →
      ∃ root symbol, LeadsTo lines j root ∧ RootSymbol lines root symbol ∧
        survey.table.get? label = some symbol) :
    ∃ root, LeadsTo lines i root ∧
      RootSymbol lines root ((middle.table.get? value).getD (.literal value)) := by
  have hd : middle.Defines (lines.take i) := Survey.defines_start.advance hb
  cases hv : middle.table.get? value with
  | some y =>
    obtain ⟨target, hm, hlabel⟩ := hd.exists_label hv
    obtain ⟨j, hlt, htarget⟩ := mem_take_iff_getElem?.mp hm
    obtain ⟨root, symbol, hleads, hroot, hg⟩ := ih j hlt target value htarget hlabel
    rw [SymbolTable.get?_of_prefix hp hv, Option.some.injEq] at hg
    rw [Option.getD_some, hg]
    exact ⟨root, .next ⟨hlt, line, target, value, hi, htarget, hs, hlabel⟩ hleads, hroot⟩
  | none =>
    have hn : ∀ j < i, ∀ earlier, lines[j]? = some earlier → earlier.label ≠ some value := by
      intro j hj earlier he hlabel
      have hm : earlier ∈ lines.take i := mem_take_iff_getElem?.mpr ⟨j, hj, he⟩
      rw [SymbolTable.get?_eq_none_iff, hd.names_eq] at hv
      exact hv (List.mem_filterMap.mpr ⟨earlier, hm, hlabel⟩)
    exact ⟨i, .self_of_fill hi hs hn, .fill hi hs hn⟩

/-- Every label gets the symbol of the line at the end of its chain. -/
theorem exists_root {i : Nat} {line : Line} {name : String} (hi : lines[i]? = some line)
    (hl : line.label = some name) :
    ∃ root symbol, LeadsTo lines i root ∧ RootSymbol lines root symbol ∧
      survey.table.get? name = some symbol := by
  -- The induction is on the line, since a chain goes to earlier lines only.
  induction i using Nat.strongRecOn generalizing line name with
  | ind i ih =>
    have hadvance := Survey.ofLines_eq_ok_iff.mp h
    rw [eq_take_append_of_getElem? hi] at hadvance
    obtain ⟨middle, symbol, hb, hy, hp, hg⟩ := Survey.exists_symbol_of_advance hadvance hl
    rcases Survey.symbol_cases hy with ⟨value, hs, rfl⟩ | ⟨directive, operands, hs, hn, rfl⟩ |
      ⟨hs, rfl⟩
    · obtain ⟨root, hleads, hroot⟩ := exists_root_of_fill hi hs hb hp
        fun j hj target label => ih j hj
      exact ⟨root, _, hleads, hroot, hg⟩
    · refine ⟨i, _, .self hi ?_, .space hi hs hn, hg⟩
      rintro value ⟨other, rest, he, hfill⟩
      obtain ⟨rfl, -⟩ := Statement.directive.inj (hs.symm.trans he)
      exact absurd (hn.symm.trans hfill) (by decide)
    · have hsize : middle.size = totalWidth (lines.take i) := by
        rw [Survey.size_of_advance hb, Survey.start, Nat.zero_add]
      rw [hsize] at hg
      refine ⟨i, _, .self hi ?_, .address hi hs, hg⟩
      rintro value ⟨directive, rest, he, -⟩
      exact hs directive _ he

end Chain

/-- The table of a survey has one binding for each line with a label, in the order of the lines, and
no name twice.  A label stands for what the line at the end of its chain stands for, and each chain
has one end.  So every address in the table is that of a line with a label that is no directive. -/
theorem label_stands_for_root {lines : List Line} {survey : Survey}
    (h : Survey.ofLines lines = .ok survey) :
    survey.table.bindings.map Binding.definition = lines.filterMap Line.definition? ∧
    survey.table.names.Nodup ∧
    (∀ i line name, lines[i]? = some line → line.label = some name →
      ∃ root symbol, LeadsTo lines i root ∧ (∀ other, LeadsTo lines i other → other = root) ∧
        RootSymbol lines root symbol ∧ survey.table.get? name = some symbol) ∧
    ∀ b ∈ survey.table.bindings, ∀ addr, b.symbol = .address addr →
      ∃ k line name, lines[k]? = some line ∧ line.label = some name ∧
        (∀ directive operands, line.statement ≠ .directive directive operands) ∧
        addr = totalWidth (lines.take k) ∧ addr ≤ survey.size := by
  have hd := Survey.defines_of_ofLines h
  have hn := Survey.nodup_of_ofLines h
  refine ⟨hd, hn, ?_, ?_⟩
  · intro i line name hi hl
    obtain ⟨root, symbol, hleads, hroot, hg⟩ := exists_root h hi hl
    exact ⟨root, symbol, hleads, fun other ho => hleads.unique h ho, hroot, hg⟩
  · intro b hb addr ha
    have hg := SymbolTable.get?_of_mem hn hb
    obtain ⟨line, hm, hl⟩ := hd.exists_label hg
    obtain ⟨i, hi⟩ := List.mem_iff_getElem?.mp hm
    obtain ⟨root, symbol, hleads, hroot, hs⟩ := exists_root h hi hl
    obtain ⟨last, label, hlast, hlabel⟩ := hleads.labelled hi hl
    rw [hg, ha, Option.some.injEq] at hs
    subst hs
    cases hroot with
    | address hline hst =>
      rw [hlast] at hline
      cases hline
      refine ⟨root, last, label, hlast, hlabel, hst, rfl, ?_⟩
      calc totalWidth (lines.take root)
          ≤ totalWidth (lines.take root) + totalWidth (lines.drop root) := Nat.le_add_right _ _
        _ = 0 + totalWidth lines := by
          rw [← totalWidth_append, List.take_append_drop, Nat.zero_add]
        _ = survey.size := (Survey.size_of_advance (Survey.ofLines_eq_ok_iff.mp h)).symm

/-- A chain of two steps to an address, and two names that are not defined before. -/
theorem label_stands_for_root_chain :
    ∃ lines survey,
      Line.parseSource "nop\nx: nop\na: .fill x\nb: .Fill a\nk: .fill z\nz: .space 2\ns: .fill s" =
        .ok lines ∧
      Survey.ofLines lines = .ok survey ∧
      survey.table.bindings = [⟨"x", 2, .address 1⟩, ⟨"a", 3, .address 1⟩, ⟨"b", 4, .address 1⟩,
        ⟨"k", 5, .literal "z"⟩, ⟨"z", 6, .literal "0"⟩, ⟨"s", 7, .literal "s"⟩] ∧
      ∃ root symbol, LeadsTo lines 3 root ∧ RootSymbol lines root symbol ∧
        survey.table.get? "b" = some symbol := by
  have h : (Line.parseSource
      "nop\nx: nop\na: .fill x\nb: .Fill a\nk: .fill z\nz: .space 2\ns: .fill s").toOption.map
      (fun lines => (lines[3]?.bind Line.label, (Survey.ofLines lines).toOption)) =
        some (some "b", some ⟨⟨[⟨"x", 2, .address 1⟩, ⟨"a", 3, .address 1⟩, ⟨"b", 4, .address 1⟩,
          ⟨"k", 5, .literal "z"⟩, ⟨"z", 6, .literal "0"⟩, ⟨"s", 7, .literal "s"⟩]⟩, 2⟩) := by
    decide +kernel
  obtain ⟨lines, hp, he⟩ := Option.map_eq_some_iff.mp h
  obtain ⟨hb, hs⟩ := Prod.mk.inj he
  obtain ⟨line, hi, hl⟩ := Option.bind_eq_some_iff.mp hb
  have hsurvey := eq_ok_of_toOption hs
  obtain ⟨root, symbol, hleads, -, hroot, hg⟩ :=
    (label_stands_for_root hsurvey).2.2.1 3 line "b" hi hl
  exact ⟨lines, _, eq_ok_of_toOption hp, hsurvey, rfl, root, symbol, hleads, hroot, hg⟩

end Risc16
