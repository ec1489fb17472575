import Risc16.Proofs.Object

/-! # Relocation

A relocation gives other names to labels, other numbers to lines, and moves all addresses by an
offset.  Lines that are relocated are surveyed behind other bindings as they are surveyed alone, as
long as names that differ stay different; their code is relocated with them, as long as their
operands read the same.
-/
namespace Risc16

/-- A change of names, of line numbers, and of addresses by an offset. -/
structure Relocation where
  name : String → String := id
  number : Nat → Nat := id
  offset : Nat := 0

def Line.names (line : Line) : List String := line.label.toList ++ line.statement.operands

namespace SymbolTable

def names (table : SymbolTable) : List String := table.bindings.map Binding.name

theorem find?_eq_none_iff {table : SymbolTable} {name : String} :
    table.find? name = none ↔ name ∉ table.names := by
  simp [find?, names, List.find?_eq_none]

theorem get?_eq_none_iff {table : SymbolTable} {name : String} :
    table.get? name = none ↔ name ∉ table.names := by
  rw [get?, Option.map_eq_none_iff, find?_eq_none_iff]

end SymbolTable

def Error.renumber (f : Nat → Nat) (e : Error) : Error := { e with line := e.line.map f }

namespace Relocation

variable (r : Relocation)

def symbol : Symbol → Symbol
  | .address addr => .address (r.offset + addr)
  | .literal text => .literal (r.name text)

def binding (b : Binding) : Binding := ⟨r.name b.name, r.number b.line, r.symbol b.symbol⟩

/-- The relocated bindings of a table, behind those of `base`. -/
def table (base table : SymbolTable) : SymbolTable :=
  ⟨base.bindings ++ table.bindings.map r.binding⟩

def survey (base : SymbolTable) (s : Survey) : Survey :=
  ⟨r.table base s.table, r.offset + s.size⟩

def placed (p : Placed) : Placed := ⟨r.offset + p.address, r.number p.line, p.instr⟩

/-- Operands are names; the first token of a statement is not. -/
def statement : Statement → Statement
  | .blank => .blank
  | .directive name operands => .directive name (operands.map r.name)
  | .instruction mnemonic operands => .instruction mnemonic (operands.map r.name)

def line (line : Line) : Line :=
  { line with
    number := r.number line.number
    label := line.label.map r.name
    statement := r.statement line.statement }

/-- Only a redefinition speaks of a name and of another line. -/
def fault : Fault → Fault
  | .redefinedLabel name line => .redefinedLabel (r.name name) (r.number line)
  | fault => fault

def error (e : Error) : Error := ⟨r.fault e.fault, e.line.map r.number⟩

@[simp] theorem kind_error (e : Error) : (r.error e).kind = e.kind := by
  rcases e with ⟨fault, line⟩
  cases fault <;> rfl

@[simp] theorem line_error (e : Error) : (r.error e).line = e.line.map r.number := rfl

@[simp] theorem width_line (line : Line) : (r.line line).width = line.width := by
  unfold Line.width
  cases hs : line.statement <;> simp only [Relocation.line, statement, hs]

@[simp] theorem survey_start (base : SymbolTable) :
    r.survey base .start = ⟨base, r.offset⟩ := by
  rcases base with ⟨bindings⟩
  simp [survey, table, Survey.start, SymbolTable.empty]

theorem line_of_name (h : r.name = id) (line : Line) :
    r.line line = { line with number := r.number line.number } := by
  rcases line with ⟨number, raw, label, statement, comment⟩
  cases statement <;> simp [Relocation.line, Relocation.statement, h]

theorem map_line_default (lines : List Line) :
    lines.map ({} : Relocation).line = lines := by
  have hl : ({} : Relocation).line = id := funext fun line => line_of_name {} rfl line
  rw [hl, List.map_id]

theorem map_placed_default (code : List Placed) : code.map ({} : Relocation).placed = code := by
  have hp : ({} : Relocation).placed = id := by
    funext word
    simp [placed]
  rw [hp, List.map_id]

theorem names_table (base table : SymbolTable) :
    (r.table base table).names = base.names ++ table.names.map r.name := by
  simp [SymbolTable.names, Relocation.table, Function.comp_def, binding]

/-- The first token says whether a directive can be at fault, and its faults name nothing else. -/
theorem fault_of_directiveFault? {line : Line} {fault : Fault}
    (h : line.directiveFault? = some fault) : r.fault fault = fault := by
  unfold Line.directiveFault? at h
  split at h
  · split at h
    · cases h
    split at h
    · split at h
      · cases h
        rfl
      · cases h
    · cases h
      rfl
  · cases h
  · cases h

theorem parseFrom_line (h : r.name = id) {number other : Nat} {raws : List String}
    (hf : ∀ i < raws.length, r.number (number + i) = other + i) :
    Line.parseFrom other raws =
      ((Line.parseFrom number raws).map (List.map r.line)).mapError (Error.renumber r.number) := by
  induction raws generalizing number other with
  | nil => rfl
  | cons raw rest ih =>
    have h₀ : r.number number = other := hf 0 (by simp)
    have hr : Line.parseFrom (other + 1) rest =
        ((Line.parseFrom (number + 1) rest).map (List.map r.line)).mapError
          (Error.renumber r.number) := ih fun i hi => by
      rw [Nat.add_assoc, Nat.add_comm 1, hf (i + 1) (Nat.succ_lt_succ hi), Nat.add_assoc,
        Nat.add_comm 1]
    simp only [Line.parseFrom, hr, Line.parse]
    cases Line.parseCode (Text.cut '#' raw.toList).1 with
    | error fault =>
      change Except.error _ = Except.error _
      simp only [Fault.onLine, Error.renumber, Option.map_some, h₀]
    | ok parts =>
      cases Line.parseFrom (number + 1) rest with
      | error e => rfl
      | ok lines =>
        change Except.ok _ = Except.ok (List.map r.line (_ :: lines))
        rw [List.map_cons, line_of_name r h, h₀]

/-- A name means in a relocated table what it means in the table, if no other name has become the
same and `base` does not have it. -/
structure Keeps (base table : SymbolTable) (name : String) : Prop where
  fresh : base.find? (r.name name) = none
  apart : ∀ b ∈ table.bindings, r.name b.name = r.name name → b.name = name

variable {r} {base table : SymbolTable} {name : String}

theorem Keeps.find? (h : r.Keeps base table name) :
    (r.table base table).find? (r.name name) = (table.find? name).map r.binding := by
  have hb : base.bindings.find? (·.name == r.name name) = none := h.fresh
  rw [SymbolTable.find?, Relocation.table, List.find?_append, hb, Option.none_or, List.find?_map,
    SymbolTable.find?]
  congr 1
  have ha := h.apart
  generalize table.bindings = bindings at ha
  induction bindings with
  | nil => rfl
  | cons b bindings ih =>
    have hn : ((·.name == r.name name) ∘ r.binding) b = (b.name == name) := by
      rw [Bool.eq_iff_iff, beq_iff_eq]
      change (r.name b.name == r.name name) = true ↔ _
      rw [beq_iff_eq]
      exact ⟨ha b List.mem_cons_self, fun he => by rw [he]⟩
    rw [List.find?_cons, List.find?_cons, hn, ih fun c hc => ha c (List.mem_cons_of_mem b hc)]

theorem Keeps.get? (h : r.Keeps base table name) :
    (r.table base table).get? (r.name name) = (table.get? name).map r.symbol := by
  rw [SymbolTable.get?, h.find?, SymbolTable.get?, Option.map_map, Option.map_map]
  rfl

theorem Keeps.insert {binding : Binding} (h : r.Keeps base table binding.name) :
    (r.table base table).insert (r.binding binding) =
      ((table.insert binding).map (r.table base)).mapError r.error := by
  have hf : (r.table base table).find? (r.binding binding).name =
      (table.find? binding.name).map r.binding := h.find?
  unfold SymbolTable.insert
  rw [hf]
  cases table.find? binding.name with
  | some earlier => rfl
  | none =>
    change Except.ok (SymbolTable.mk _) = Except.ok (r.table base ⟨table.bindings ++ [binding]⟩)
    rw [Relocation.table, Relocation.table, List.map_append, List.map_singleton, List.append_assoc]

/-- What a relocation asks of lines: the labels of all of them stay apart from every other name that
they use and from the names of `base`. -/
structure Suits (r : Relocation) (base : SymbolTable) (lines : List Line) : Prop where
  zero : r.name "0" = "0"
  fresh : ∀ line ∈ lines, ∀ name ∈ line.names, base.find? (r.name name) = none
  apart : ∀ line ∈ lines, ∀ name ∈ line.names, ∀ other ∈ lines, ∀ label,
    other.label = some label → r.name label = r.name name → label = name

/-- A relocation that keeps all names suits lines without names of `base`. -/
theorem suits_of_name {lines : List Line} (hn : r.name = id)
    (h : ∀ line ∈ lines, ∀ name ∈ line.names, base.find? name = none) : r.Suits base lines := by
  constructor
  case zero => rw [hn, id]
  case fresh =>
    intro line hm name hname
    rw [hn]
    exact h line hm name hname
  case apart =>
    intro line _ name _ other _ label _ he
    rwa [hn] at he

theorem Suits.keeps {lines before : List Line} {s : Survey} (h : r.Suits base lines)
    (hd : s.Defines before) (hb : ∀ line ∈ before, line ∈ lines) {line : Line} (hl : line ∈ lines)
    (hn : name ∈ line.names) : r.Keeps base s.table name := by
  refine ⟨h.fresh line hl name hn, ?_⟩
  intro b hm he
  have hdef : b.definition ∈ before.filterMap Line.definition? := hd ▸ List.mem_map_of_mem hm
  obtain ⟨other, ho, hx⟩ := List.mem_filterMap.mp hdef
  obtain ⟨label, hlabel, hpair⟩ := Option.map_eq_some_iff.mp hx
  obtain rfl : label = b.name := congrArg Prod.fst hpair
  exact h.apart line hl name hn other (hb other ho) _ hlabel he

section Survey

variable {s : Survey} {line : Line} (hz : r.name "0" = "0")
  (hk : ∀ name ∈ line.names, r.Keeps base s.table name)
include hz hk

theorem symbol_survey : (r.survey base s).symbol (r.line line) = (s.symbol line).map r.symbol := by
  unfold Survey.symbol
  cases hs : line.statement with
  | blank => simp only [Relocation.line, statement, hs]; rfl
  | instruction mnemonic operands => simp only [Relocation.line, statement, hs]; rfl
  | directive directive operands =>
    simp only [Relocation.line, statement, hs, directiveSymbol]
    by_cases hfill : directive.toLower = ".fill"
    · cases operands with
      | nil => simp [hfill, Except.map]
      | cons value rest =>
        have hv : value ∈ line.names := by
          simp [Line.names, Statement.operands, hs, Statement.tokens]
        have hg : (r.survey base s).table.get? (r.name value) = (s.table.get? value).map r.symbol :=
          (hk value hv).get?
        simp only [hfill, List.map_cons, hg]
        cases s.table.get? value <;> rfl
    · by_cases hspace : directive.toLower = ".space"
      · simp [hspace, Except.map, symbol, hz]
      · simp [hfill, hspace, Except.map]

omit hz in
theorem bindLabel_survey (y : Symbol) :
    (r.survey base s).bindLabel (r.line line) (r.symbol y) =
      ((s.bindLabel line y).map (r.table base)).mapError r.error := by
  unfold Survey.bindLabel
  cases hl : line.label with
  | none => simp only [Relocation.line, hl]; rfl
  | some name =>
    have hn : name ∈ line.names := by simp [Line.names, hl]
    simp only [Relocation.line, hl, Option.map_some]
    have hb : r.Keeps base s.table (Binding.mk name line.number y).name := hk name hn
    exact hb.insert

/-- A relocated line does to a relocated survey what the line does to the survey. -/
theorem step_survey : (r.survey base s).step (r.line line) =
    ((s.step line).map (r.survey base)).mapError r.error := by
  unfold Survey.step
  rw [symbol_survey hz hk]
  cases hy : s.symbol line with
  | error fault =>
    have hf := r.fault_of_directiveFault? (Survey.symbol_eq_error_iff.mp hy)
    change Except.error (fault.onLine (r.number line.number)) =
      Except.error (r.error (fault.onLine line.number))
    simp only [error, Fault.onLine, hf, Option.map_some]
  | ok y =>
    change ((r.survey base s).bindLabel (r.line line) (r.symbol y) >>= fun table => _) =
      ((s.bindLabel line y >>= fun table => _).map (r.survey base)).mapError r.error
    rw [bindLabel_survey hk]
    cases s.bindLabel line y with
    | error e => rfl
    | ok table =>
      change Except.ok _ = Except.ok _
      rw [width_line, survey, survey, Nat.add_assoc]

end Survey

/-- Relocated lines are surveyed behind `base` as they are surveyed alone. -/
theorem advance_survey {before lines : List Line} {s : Survey} (hd : s.Defines before)
    (h : r.Suits base (before ++ lines)) :
    (r.survey base s).advance (lines.map r.line) =
      (r.survey base (s.advance lines).1, (s.advance lines).2.map r.error) := by
  -- `Defines` carries the induction: every name in the table is a label of a line before.
  induction lines generalizing s before with
  | nil => rfl
  | cons line rest ih =>
    have hk : ∀ name ∈ line.names, r.Keeps base s.table name := fun name hn =>
      h.keeps hd (fun other ho => List.mem_append_left _ ho)
        (List.mem_append_right _ List.mem_cons_self) hn
    have hstep := step_survey h.zero hk
    rw [List.map_cons]
    cases hs : s.step line with
    | error e =>
      rw [hs] at hstep
      rw [Survey.advance_cons_of_error hs, Survey.advance_cons_of_error hstep]
      rfl
    | ok next =>
      rw [hs] at hstep
      rw [List.append_cons] at h
      rw [Survey.advance_cons_of_ok hs, Survey.advance_cons_of_ok hstep, ih (hd.step hs) h]

/-- Behind other bindings, the addresses of relocated lines count from the offset. -/
theorem advance_of_ofLines {lines : List Line} {s : Survey} (h : r.Suits base lines)
    (hs : Survey.ofLines lines = .ok s) :
    Survey.advance ⟨base, r.offset⟩ (lines.map r.line) = (r.survey base s, none) := by
  rw [← survey_start, advance_survey Survey.defines_start h, Survey.ofLines_eq_ok_iff.mp hs]
  rfl

theorem place_placed (number pc : Nat) (instrs : List Instr) :
    place (r.number number) (r.offset + pc) instrs = (place number pc instrs).map r.placed := by
  induction instrs generalizing pc with
  | nil => rfl
  | cons instr rest ih => rw [place, Nat.add_assoc, ih, place, List.map_cons, placed]

/-- Where relocated lines expand as the lines do, their code is the relocated code. -/
theorem result_of_ok {table other : SymbolTable} {lines : List Line}
    (h : ∀ line ∈ lines, ∀ pc instrs, line.expandAt table pc = .ok instrs →
      (r.line line).expandAt other (r.offset + pc) = .ok instrs) {pc : Nat} {code : List Placed}
    (hc : (Emission.ofLines table pc lines).result = .ok code) :
    (Emission.ofLines other (r.offset + pc) (lines.map r.line)).result =
      .ok (code.map r.placed) := by
  induction lines generalizing pc code with
  | nil =>
    cases hc
    rfl
  | cons line rest ih =>
    rw [Emission.result_cons, bind_eq_ok_iff] at hc
    obtain ⟨block, hb, hc⟩ := hc
    obtain ⟨later, hl, ⟨⟩⟩ := bind_eq_ok_iff.mp hc
    cases hx : line.expandAt table pc with
    | error fault => simp [hx, Except.map] at hb
    | ok instrs =>
      rw [hx] at hb
      cases hb
      rw [List.map_cons, Emission.result_cons, h line List.mem_cons_self pc instrs hx, width_line,
        Nat.add_assoc, ih (fun other ho => h other (List.mem_cons_of_mem line ho)) hl]
      change Except.ok (place (r.number line.number) _ _ ++ _) = _
      rw [place_placed, List.map_append]

/-- Where relocated lines expand as the lines do or fail as they do, so does the whole emission. -/
theorem result_of_eq {table other : SymbolTable} {lines : List Line}
    (h : ∀ line ∈ lines, ∀ pc, (r.line line).expandAt other (r.offset + pc) =
      line.expandAt table pc) (pc : Nat) :
    (Emission.ofLines other (r.offset + pc) (lines.map r.line)).result =
      ((Emission.ofLines table pc lines).result.map (List.map r.placed)).mapError
        (Error.renumber r.number) := by
  induction lines generalizing pc with
  | nil => rfl
  | cons line rest ih =>
    rw [List.map_cons, Emission.result_cons, Emission.result_cons, h line List.mem_cons_self,
      width_line, Nat.add_assoc, ih fun other ho => h other (List.mem_cons_of_mem line ho)]
    cases line.expandAt table pc with
    | error fault => rfl
    | ok instrs =>
      cases (Emission.ofLines table (pc + line.width) rest).result with
      | error e => rfl
      | ok later =>
        change Except.ok (place (r.number line.number) _ _ ++ _) = Except.ok (List.map _ (_ ++ _))
        rw [place_placed, List.map_append]

end Relocation

end Risc16
