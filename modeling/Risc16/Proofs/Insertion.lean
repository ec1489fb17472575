import Risc16.Proofs.Joining

/-! # Lines that emit nothing

A line without a label that emits nothing can be put between any two lines of a source.  What the
source assembles to stays the same, and so does the failure if there is one; only the lines behind
the new one count one more.
-/
namespace Risc16

/-- The number of line `n` after a line was put behind the first `count`. -/
def numberAfterInsert (count n : Nat) : Nat := if n ≤ count then n else n + 1

/-- Two outcomes that differ in the numbers of lines only; the wording of an error can name a line,
its kind does not. -/
inductive Renumbered (f : Nat → Nat) : Except Error Object → Except Error Object → Prop where
  | ok (object : Object) :
      Renumbered f (.ok object)
        (.ok ⟨⟨object.table.bindings.map fun b => { b with line := f b.line }⟩,
          object.code.map fun word => { word with line := f word.line }⟩)
  | error {e e' : Error} (hk : e'.kind = e.kind) (hl : e'.line = e.line.map f) :
      Renumbered f (.error e) (.error e')

/-- Lines with other numbers have the same object, with those numbers. -/
theorem renumbered_ofLines (f : Nat → Nat) (lines : List Line) :
    Renumbered f (Object.ofLines lines)
      (Object.ofLines (lines.map ({ number := f } : Relocation).line)) := by
  let r : Relocation := { number := f }
  have hsuits : r.Suits .empty lines := Relocation.suits_of_name rfl fun _ _ _ _ => rfl
  have hadvance := Relocation.advance_survey (r := r) Survey.defines_start hsuits
  have hstart : r.survey .empty .start = .start := r.survey_start .empty
  rw [hstart] at hadvance
  unfold Object.ofLines Survey.ofLines
  rw [hadvance]
  rcases hreached : Survey.start.advance lines with ⟨reached, _ | e⟩
  · have hresult : (Emission.ofLines (r.table .empty reached.table) 0 (lines.map r.line)).result =
        ((Emission.ofLines reached.table 0 lines).result.map (List.map r.placed)).mapError
          (Error.renumber f) := by
      refine Relocation.result_of_eq (r := r) ?_ 0
      intro line _ pc
      exact Relocation.expandAt_of_name rfl (fun _ _ => rfl) (fun _ _ _ _ => .inl rfl) pc
    change Renumbered f ((Emission.ofLines reached.table 0 lines).result >>= _)
      ((Emission.ofLines (r.table .empty reached.table) 0 (lines.map r.line)).result >>= _)
    rw [hresult]
    cases (Emission.ofLines reached.table 0 lines).result with
    | error e => exact .error rfl rfl
    | ok code =>
      have hb : r.binding = fun b => { b with line := f b.line } := by
        funext b
        rcases b with ⟨name, line, _ | _⟩ <;> simp [Relocation.binding, Relocation.symbol, r]
      have hp : r.placed = fun word => { word with line := f word.line } := by
        funext word
        simp [Relocation.placed, r]
      have hok := Renumbered.ok (f := f) ⟨reached.table, code⟩
      rw [← hb, ← hp] at hok
      exact hok
  · exact .error (r.kind_error e) (r.line_error e)

namespace Line

theorem silent_of_directive {line : Line} (hl : line.label = none) {name : String}
    {operands : List String} (hs : line.statement = .directive name operands)
    (hd : name.toLower = ".space" ∨ name.toLower = ".fill" ∧ operands ≠ []) : line.Silent := by
  refine ⟨hl, by rw [hs]; rfl, ?_⟩
  rcases hd with hspace | ⟨hfill, ho⟩
  · simp [directiveFault?, hs, hspace]
  · simp [directiveFault?, hs, hfill, ho]

theorem exists_silent_of_parse {number : Nat} {raw : String} {line : Line}
    (h : parse number raw = .ok line) (hs : line.Silent) (other : Nat) :
    ∃ silent : Line, parse other raw = .ok silent ∧ silent.Silent := by
  obtain ⟨label, statement, hc, rfl⟩ := parse_eq_ok_iff.mp h
  exact ⟨_, parse_eq_ok_iff.mpr ⟨label, statement, hc, rfl⟩, hs.unlabelled, hs.wordless,
    hs.faultless⟩

end Line

/-- A silent row changes only the numbers of the rows behind it. -/
theorem renumbered_insert {number : Nat} {extra : String} {line : Line}
    (hx : Line.parse number extra = .ok line) (hs : line.Silent) (before after : List String) :
    Renumbered (numberAfterInsert before.length)
      (Line.parseFrom 1 (before ++ after) >>= Object.ofLines)
      (Line.parseFrom 1 (before ++ extra :: after) >>= Object.ofLines) := by
  let r : Relocation := { number := numberAfterInsert before.length }
  obtain ⟨silent, hsilent, hs⟩ := Line.exists_silent_of_parse hx hs (1 + before.length)
  have hb : Line.parseFrom 1 before = ((Line.parseFrom 1 before).map (List.map r.line)).mapError
      (Error.renumber r.number) := r.parseFrom_line rfl fun i hi => by
    change numberAfterInsert before.length (1 + i) = 1 + i
    rw [numberAfterInsert, if_pos (by omega)]
  have ha : Line.parseFrom (1 + before.length + 1) after =
      ((Line.parseFrom (1 + before.length) after).map (List.map r.line)).mapError
        (Error.renumber r.number) := r.parseFrom_line rfl fun i _ => by
    change numberAfterInsert before.length _ = _
    rw [numberAfterInsert, if_neg (by omega), Nat.add_right_comm]
  rw [Line.parseFrom_append, Line.parseFrom_append, Line.parseFrom, hsilent, ha]
  cases hread : Line.parseFrom 1 before with
  | error e =>
    rw [hread] at hb
    have hline : e.line = e.line.map r.number := congrArg Error.line (Except.error.inj hb)
    exact .error rfl hline
  | ok first =>
    rw [hread] at hb
    have hfirst : first = first.map r.line := Except.ok.inj hb
    cases Line.parseFrom (1 + before.length) after with
    | error e => exact .error rfl rfl
    | ok second =>
      change Renumbered _ (Object.ofLines (first ++ second))
        (Object.ofLines (first ++ silent :: second.map r.line))
      have hmap : first ++ second.map r.line = (first ++ second).map r.line := by
        rw [List.map_append, ← hfirst]
      rw [Object.ofLines_insert hs, hmap]
      exact renumbered_ofLines _ _

theorem object_intercalate {rows : List String} (h : ∀ row ∈ rows, '\n' ∉ row.toList) :
    (assemble ("\n".intercalate rows)).map Program.object =
      Line.parseFrom 1 rows >>= Object.ofLines := by
  by_cases hne : rows = []
  · subst hne
    rw [String.intercalate_nil, map_object_assemble, Line.parseSource, Text.lines_empty]
  · rw [object_assemble, Text.pieces_intercalate hne h]

/-- A row without a label that is blank or a directive without a fault can be put anywhere into a
source.  The source then assembles as before, or fails as before, but for the numbers of the lines
behind that row. -/
theorem assemble_insert_silent {before after : List String} {extra : String}
    (hrows : ∀ row ∈ before ++ extra :: after, '\n' ∉ row.toList) {number : Nat} {line : Line}
    (hx : Line.parse number extra = .ok line) (hl : line.label = none)
    (hs : line.statement = .blank ∨ ∃ name operands, line.statement = .directive name operands ∧
      (name.toLower = ".space" ∨ name.toLower = ".fill" ∧ operands ≠ [])) :
    (∀ p, assemble ("\n".intercalate (before ++ after)) = .ok p →
      ∃ q, assemble ("\n".intercalate (before ++ extra :: after)) = .ok q ∧
        q.code = p.code.map (fun word =>
          { word with line := numberAfterInsert before.length word.line }) ∧
        q.table.bindings = p.table.bindings.map fun b =>
          { b with line := numberAfterInsert before.length b.line }) ∧
    ∀ e, assemble ("\n".intercalate (before ++ after)) = .error e →
      ∃ e', assemble ("\n".intercalate (before ++ extra :: after)) = .error e' ∧
        e'.kind = e.kind ∧ e'.line = e.line.map (numberAfterInsert before.length) := by
  have hsilent : line.Silent := by
    rcases hs with hs | ⟨name, operands, hs, hd⟩
    · exact Line.silent_of_blank hl hs
    · exact Line.silent_of_directive hl hs hd
  have hr := renumbered_insert hx hsilent before after
  rw [← object_intercalate hrows, ← object_intercalate fun row hm => hrows row (by
    rcases List.mem_append.mp hm with hb | ha
    · exact List.mem_append_left _ hb
    · exact List.mem_append_right _ (List.mem_cons_of_mem extra ha))] at hr
  constructor
  · intro p hp
    rw [hp] at hr
    cases hq : assemble ("\n".intercalate (before ++ extra :: after)) with
    | error e =>
      rw [hq] at hr
      cases hr
    | ok q =>
      rw [hq] at hr
      generalize ho : Except.map Program.object (Except.ok q) = x at hr
      cases hr
      have hobject := Except.ok.inj ho
      exact ⟨q, rfl, congrArg Object.code hobject,
        congrArg (SymbolTable.bindings ∘ Object.table) hobject⟩
  · intro e he
    rw [he] at hr
    cases hq : assemble ("\n".intercalate (before ++ extra :: after)) with
    | error e' =>
      rw [hq] at hr
      cases hr with
      | error hk hline => exact ⟨e', rfl, hk, hline⟩
    | ok q =>
      rw [hq] at hr
      cases hr

/-- A directive between a label and the branch to it, and between two definitions of a label. -/
theorem assemble_insert_silent_fill :
    (∃ q, assemble "top: nop\n .fill top # no word\nbeq r0, r0, top" = .ok q ∧
      q.code = [⟨0, 1, .add .zero .zero .zero⟩, ⟨1, 3, .beq .zero .zero ⟨-2⟩⟩] ∧
      q.table.bindings = [⟨"top", 1, .address 0⟩]) ∧
    ∃ e, assemble "top: nop\n .fill top # no word\ntop: halt" = .error e ∧
      e.kind = .preprocessor ∧ e.line = some 3 := by
  have hx : Line.parse 1 " .fill top # no word" =
      .ok ⟨1, " .fill top # no word", none, .directive ".fill" ["top"], some " no word"⟩ :=
    eq_ok_of_toOption (by decide +kernel)
  have hs : ∃ name operands, Statement.directive ".fill" ["top"] = .directive name operands ∧
      (name.toLower = ".space" ∨ name.toLower = ".fill" ∧ operands ≠ []) :=
    ⟨".fill", ["top"], rfl, .inr ⟨by decide +kernel, by decide⟩⟩
  constructor
  · have hp : (assemble ("\n".intercalate (["top: nop"] ++ ["beq r0, r0, top"]))).toOption.map
        Program.object = some ⟨⟨[⟨"top", 1, .address 0⟩]⟩,
          [⟨0, 1, .add .zero .zero .zero⟩, ⟨1, 2, .beq .zero .zero ⟨-2⟩⟩]⟩ := by
      decide +kernel
    obtain ⟨p, hp, ho⟩ := Option.map_eq_some_iff.mp hp
    obtain ⟨q, hq, hcode, htable⟩ := (assemble_insert_silent (by decide) hx rfl (.inr hs)).1 p
      (eq_ok_of_toOption hp)
    refine ⟨q, hq, ?_, ?_⟩
    · have hc : p.code = [⟨0, 1, .add .zero .zero .zero⟩, ⟨1, 2, .beq .zero .zero ⟨-2⟩⟩] :=
        congrArg Object.code ho
      rw [hcode, hc]
      rfl
    · have ht : p.table = ⟨[⟨"top", 1, .address 0⟩]⟩ := congrArg Object.table ho
      rw [htable, ht]
      rfl
  · have he : assemble ("\n".intercalate (["top: nop"] ++ ["top: halt"])) =
        .error ((Fault.redefinedLabel "top" 1).onLine 2) :=
      eq_error_of_failure? (by decide +kernel)
    obtain ⟨e, hq, hk, hl⟩ := (assemble_insert_silent (by decide) hx rfl (.inr hs)).2 _ he
    exact ⟨e, hq, hk, hl⟩

end Risc16
