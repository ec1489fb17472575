import Risc16.Proofs.OperandUse

/-! # Sources that are joined

A source can be put behind another, with a newline between them.  What the first assembles to is not
changed by what follows it.  The second, if it takes no address as a number, gives the same words at
any place; only the addresses that its labels stand for move.
-/
namespace Risc16

namespace Line

theorem parseFrom_append (number : Nat) (raws more : List String) :
    parseFrom number (raws ++ more) = do
      let before ← parseFrom number raws
      let after ← parseFrom (number + raws.length) more
      return before ++ after := by
  induction raws generalizing number with
  | nil =>
    rw [List.nil_append, List.length_nil, Nat.add_zero, parseFrom]
    cases parseFrom number more <;> rfl
  | cons raw rest ih =>
    rw [List.cons_append, parseFrom, ih, parseFrom, List.length_cons, Nat.add_right_comm,
      Nat.add_assoc]
    cases parse number raw with
    | error e => rfl
    | ok line =>
      cases parseFrom (number + 1) rest with
      | error e => rfl
      | ok before => cases parseFrom (number + (rest.length + 1)) more <;> rfl

/-- A piece of a source reads as one of its lines up to the number, or as a blank line. -/
theorem exists_of_mem_pieces {source : String} {number : Nat} {lines : List Line}
    (h : parseFrom number (Text.pieces source) = .ok lines) :
    ∃ own, parseSource source = .ok own ∧ ∀ line ∈ lines,
      (∃ other ∈ own, line.label = other.label ∧ line.statement = other.statement) ∨
        line.label = none ∧ line.statement = .blank := by
  let r : Relocation := { number := fun n => n - number + 1 }
  have hf (i : Nat) : r.number (number + i) = 1 + i := by
    change number + i - number + 1 = 1 + i
    omega
  have hp : parseFrom 1 (Text.pieces source) = ((parseFrom number (Text.pieces source)).map
      (List.map r.line)).mapError (Error.renumber r.number) := r.parseFrom_line rfl fun i _ => hf i
  rw [h] at hp
  have hsame := sameReading_pieces source
  rw [hp] at hsame
  cases ho : parseSource source with
  | error e =>
    rw [ho] at hsame
    cases hsame
  | ok own =>
    rw [ho] at hsame
    refine ⟨own, rfl, ?_⟩
    intro line hm
    have hl : r.line line = { line with number := r.number line.number } := r.line_of_name rfl line
    rcases hsame.mem (List.mem_map_of_mem hm) with ⟨other, ho, hc⟩ | hblank
    · left
      rw [hl] at hc
      exact ⟨other, ho, (congrArg Line.label hc).symm, (congrArg Line.statement hc).symm⟩
    · right
      rwa [hl] at hblank

/-- What holds of the statements of a source and of the blank one holds of its pieces. -/
theorem statement_of_mem_pieces (P : Statement → Prop) (hblank : P .blank) {source : String}
    {number : Nat} {lines own : List Line}
    (h : parseFrom number (Text.pieces source) = .ok lines) (ho : parseSource source = .ok own)
    (hown : ∀ line ∈ own, P line.statement) {line : Line} (hm : line ∈ lines) :
    P line.statement := by
  obtain ⟨own', ho', hlike⟩ := exists_of_mem_pieces h
  obtain rfl : own = own' := Except.ok.inj (ho.symm.trans ho')
  rcases hlike line hm with ⟨other, hother, -, hs⟩ | ⟨-, hs⟩
  · rw [hs]
    exact hown other hother
  · rw [hs]
    exact hblank

end Line

theorem exists_assemble_of_pieces {source : String} {lines : List Line} {object : Object}
    (hp : Line.parseFrom 1 (Text.pieces source) = .ok lines)
    (ho : Object.ofLines lines = .ok object) :
    ∃ p, assemble source = .ok p ∧ p.object = object := by
  have h := object_assemble source
  rw [hp] at h
  change _ = Object.ofLines lines at h
  rw [ho] at h
  cases ha : assemble source with
  | error e => simp [ha, Except.map] at h
  | ok p =>
    rw [ha] at h
    exact ⟨p, rfl, Except.ok.inj h⟩

theorem exists_pieces_of_assemble {source : String} {p : Program} (h : assemble source = .ok p) :
    ∃ lines, Line.parseFrom 1 (Text.pieces source) = .ok lines ∧
      Object.ofLines lines = .ok p.object := by
  have ho := object_assemble source
  rw [h] at ho
  exact bind_eq_ok_iff.mp ho.symm

theorem SymbolTable.resolve_of_none {table : SymbolTable} {operand : String}
    (h : table.get? operand = none) (mnemonic : Mnemonic) (pc : Nat) :
    table.resolve mnemonic pc operand = operand := by
  simp only [SymbolTable.resolve, h]

theorem SymbolTable.resolve_of_prefix {table later : SymbolTable}
    (h : table.bindings <+: later.bindings) {operand : String}
    (hn : table.get? operand = none → later.get? operand = none) (mnemonic : Mnemonic) (pc : Nat) :
    later.resolve mnemonic pc operand = table.resolve mnemonic pc operand := by
  have hg : later.get? operand = table.get? operand := by
    cases hg : table.get? operand with
    | none => exact hn hg
    | some y => exact get?_of_prefix h hg
  unfold SymbolTable.resolve
  rw [hg]

/-- More bindings do not change code whose readable operands they do not bind. -/
theorem Emission.result_of_prefix {table later : SymbolTable} {lines : List Line}
    (h : table.bindings <+: later.bindings)
    (hn : ∀ line ∈ lines, ∀ mnemonic operand, line.statement.Uses mnemonic operand →
      Operand.Readable operand → table.get? operand = none → later.get? operand = none)
    {code : List Placed} (hc : (ofLines table 0 lines).result = .ok code) :
    (ofLines later 0 lines).result = .ok code := by
  have hexpand : ∀ line ∈ lines, ∀ pc instrs, line.expandAt table pc = .ok instrs →
      (({} : Relocation).line line).expandAt later (0 + pc) = .ok instrs := by
    intro line hm pc instrs
    apply Relocation.expandAt_of_readable
    intro mnemonic operand hu hread
    change later.resolve mnemonic (0 + pc) operand = _
    rw [Nat.zero_add]
    refine SymbolTable.resolve_of_prefix h ?_ mnemonic pc
    intro hg
    rw [SymbolTable.resolve_of_none hg] at hread
    exact hn line hm mnemonic operand hu hread hg
  have hr := Relocation.result_of_ok hexpand hc
  rwa [Relocation.map_line_default, Relocation.map_placed_default] at hr

theorem Survey.ofLines_append {before after : List Line} {joined : Survey}
    (h : ofLines (before ++ after) = .ok joined) :
    ∃ first, ofLines before = .ok first ∧ first.advance after = (joined, none) := by
  obtain ⟨first, hb, ha⟩ := advance_append_eq_ok (ofLines_eq_ok_iff.mp h)
  exact ⟨first, ofLines_eq_ok_iff.mpr hb, ha⟩

theorem Survey.exists_label_of_append {before after : List Line} {first joined : Survey}
    (hf : ofLines before = .ok first) (hj : ofLines (before ++ after) = .ok joined) {name : String}
    {y : Symbol} (h₀ : first.table.get? name = none) (h₁ : joined.table.get? name = some y) :
    ∃ line ∈ after, line.label = some name := by
  obtain ⟨line, hm, hl⟩ := (defines_of_ofLines hj).exists_label h₁
  rcases List.mem_append.mp hm with hb | ha
  · have hd := (defines_of_ofLines hf).line_find? name
    rw [SymbolTable.get?, Option.map_eq_none_iff] at h₀
    rw [h₀, Option.map_none, eq_comm, Option.map_eq_none_iff, List.find?_eq_none] at hd
    exact absurd (by simpa using hl) (hd line hb)
  · exact ⟨line, ha, hl⟩

/-- Text behind a source changes neither its code nor its symbols, if it defines no label that can
be read as a register. -/
theorem object_prefix_of_joined {a b : String} {p q : Program} (ha : assemble a = .ok p)
    (hj : assemble (a ++ "\n" ++ b) = .ok q)
    (hreg : ∀ lines, Line.parseSource b = .ok lines → ∀ line ∈ lines, ∀ name,
      line.label = some name → ∀ reg, Operand.parseRegister name ≠ .ok reg) :
    p.code <+: q.code ∧ p.table.bindings <+: q.table.bindings := by
  obtain ⟨before, hb, hp⟩ := exists_pieces_of_assemble ha
  obtain ⟨lines, hl, hq⟩ := exists_pieces_of_assemble hj
  rw [Text.pieces_append_newline, Line.parseFrom_append, hb] at hl
  obtain ⟨_, ⟨⟩, hl⟩ := bind_eq_ok_iff.mp hl
  obtain ⟨after, hafter, ⟨⟩⟩ := bind_eq_ok_iff.mp hl
  obtain ⟨joined, hjoined, hcode, htable⟩ := Object.ofLines_eq_ok_iff.mp hq
  obtain ⟨first, hfirst, hfcode, hftable⟩ := Object.ofLines_eq_ok_iff.mp hp
  have hprefix : first.table.bindings <+: joined.table.bindings := by
    obtain ⟨other, ho, hadvance⟩ := Survey.ofLines_append hjoined
    obtain rfl : first = other := Except.ok.inj (hfirst.symm.trans ho)
    have hx := first.prefix_of_advance after
    rwa [hadvance] at hx
  obtain ⟨own, hown, hlike⟩ := Line.exists_of_mem_pieces hafter
  -- A label of the text behind is not readable, so that it is no operand that the code goes by.
  have hsame : (Emission.ofLines joined.table 0 before).result = .ok p.object.code := by
    refine Emission.result_of_prefix hprefix ?_ hfcode
    intro line hm mnemonic operand hu hread hg
    cases hbound : joined.table.get? operand with
    | none => rfl
    | some y =>
      obtain ⟨other, ho, hlabel⟩ := Survey.exists_label_of_append hfirst hjoined hg hbound
      rcases hlike other ho with ⟨source, hsource, hsl, -⟩ | ⟨hnone, -⟩
      · rw [hsl] at hlabel
        have hname := Line.labelName_of_parseSource hown hsource hlabel
        have hregister := hreg own hown source hsource operand hlabel
        exact absurd hread (Operand.not_readable_of_label hname hregister)
      · rw [hnone] at hlabel
        cases hlabel
  rw [Emission.result_append, hsame] at hcode
  obtain ⟨_, ⟨⟩, hcode⟩ := bind_eq_ok_iff.mp hcode
  obtain ⟨later, -, hc⟩ := bind_eq_ok_iff.mp hcode
  constructor
  · exact ⟨later, Except.ok.inj hc⟩
  · change p.object.table.bindings <+: q.object.table.bindings
    rwa [htable, hftable]

/-- Operands that are read over and a `.fill` that stays a text, all of a label that is defined
behind. -/
theorem object_prefix_of_joined_unread :
    ∃ p q, assemble "k: .fill end\nhalt end\njalr r1, r2, end" = .ok p ∧
      p.table.get? "k" = some (.literal "end") ∧
      assemble ("k: .fill end\nhalt end\njalr r1, r2, end" ++ "\n" ++ "end: nop") = .ok q ∧
      q.table.get? "end" = some (.address 2) ∧
      p.code <+: q.code ∧ p.table.bindings <+: q.table.bindings := by
  have ha : (assemble "k: .fill end\nhalt end\njalr r1, r2, end").toOption.map
      (fun p => p.table.get? "k") = some (some (.literal "end")) := by
    decide +kernel
  have hj : (assemble
      ("k: .fill end\nhalt end\njalr r1, r2, end" ++ "\n" ++ "end: nop")).toOption.map
      (fun p => p.table.get? "end") = some (some (.address 2)) := by
    decide +kernel
  have hb : Line.parseSource "end: nop" =
      .ok [⟨1, "end: nop", some "end", .instruction "nop" [], none⟩] :=
    eq_ok_of_toOption (by decide +kernel)
  have hr : Operand.parseRegister "end" = .error (.registerNotInteger "end") :=
    eq_error_of_failure? (by decide +kernel)
  obtain ⟨p, hp, hk⟩ := Option.map_eq_some_iff.mp ha
  obtain ⟨q, hq, hend⟩ := Option.map_eq_some_iff.mp hj
  have hreg : ∀ lines, Line.parseSource "end: nop" = .ok lines → ∀ line ∈ lines, ∀ name,
      line.label = some name → ∀ reg, Operand.parseRegister name ≠ .ok reg := by
    intro lines hl line hm name hname reg
    obtain rfl := Except.ok.inj (hb.symm.trans hl)
    obtain rfl := List.mem_singleton.mp hm
    cases hname
    simp [hr]
  obtain ⟨hcode, htable⟩ :=
    object_prefix_of_joined (eq_ok_of_toOption hp) (eq_ok_of_toOption hq) hreg
  exact ⟨p, q, eq_ok_of_toOption hp, hk, eq_ok_of_toOption hq, hend, hcode, htable⟩

/-- The symbol of a label behind `count` other words. -/
def Symbol.behind (count : Nat) : Symbol → Symbol
  | .address addr => .address (count + addr)
  | .literal text => .literal text

theorem Emission.warnings_of_mem {table : SymbolTable} {lines : List Line} {pc : Nat}
    (hf : (ofLines table pc lines).failure = none) (hw : (ofLines table pc lines).warnings = [])
    {line : Line} (hm : line ∈ lines) : line.warnings table = [] := by
  obtain ⟨before, after, rfl⟩ := List.append_of_mem hm
  rw [ofLines_append, failure_followedBy_eq_none_iff] at hf
  rw [ofLines_append, followedBy_of_none hf.1] at hw
  have hrest := (List.append_eq_nil_iff.mp hw).2
  rw [ofLines_cons, failure_followedBy_eq_none_iff] at hf
  rw [ofLines_cons, followedBy_of_none hf.2.1] at hrest
  obtain ⟨instrs, hx⟩ := failure_ofLine_eq_none_iff.mp hf.2.1
  rw [ofLine_of_ok hx] at hrest
  exact (List.append_eq_nil_iff.mp hrest).1

theorem Relocation.symbol_behind {r : Relocation} (hn : r.name = id) (y : Symbol) :
    r.symbol y = y.behind r.offset := by
  cases y with
  | address addr => rfl
  | literal text => simp only [symbol, hn, Symbol.behind, id_eq]

namespace Object

theorem length_code {lines : List Line} {survey : Survey} {code : List Placed}
    (hs : Survey.ofLines lines = .ok survey)
    (hc : (Emission.ofLines survey.table 0 lines).result = .ok code) :
    survey.size = code.length := by
  obtain ⟨hf, rfl⟩ := Emission.result_eq_ok_iff.mp hc
  have hz : survey.size = 0 + totalWidth lines :=
    Survey.size_of_advance (Survey.ofLines_eq_ok_iff.mp hs)
  rw [hz, Nat.zero_add, Emission.length_code hf]

/-- The object of lines behind others is relocated, if neither of them use the labels of the others
and addresses are used in branches only. -/
theorem ofLines_joined {before after : List Line} {first second : Object} {r : Relocation}
    (hf : ofLines before = .ok first) (hs : ofLines after = .ok second) (hn : r.name = id)
    (hr : r.offset = first.code.length)
    (hafter : ∀ line ∈ after, ∀ name ∈ line.names, name ∉ first.table.names)
    (hbefore : ∀ line ∈ before, ∀ mnemonic operand, line.statement.Uses mnemonic operand →
      operand ∉ second.table.names)
    (haddress : ∀ line ∈ after, ∀ mnemonic operand, line.statement.Uses mnemonic operand →
      mnemonic.isBranch = false → second.table.address? operand = none) :
    ofLines (before ++ after.map r.line) =
      .ok ⟨r.table first.table second.table, first.code ++ second.code.map r.placed⟩ := by
  obtain ⟨s, hsf, hcf, htf⟩ := ofLines_eq_ok_iff.mp hf
  obtain ⟨t, hst, hct, htt⟩ := ofLines_eq_ok_iff.mp hs
  have hsize : s.size = r.offset := by rw [hr, length_code hsf hcf]
  have hfresh : ∀ line ∈ after, ∀ name ∈ line.names, s.table.find? name = none := by
    intro line hm name hname
    rw [SymbolTable.find?_eq_none_iff, ← htf]
    exact hafter line hm name hname
  have hjoined : Survey.ofLines (before ++ after.map r.line) = .ok (r.survey s.table t) := by
    have hb : s = ⟨s.table, r.offset⟩ := by rw [← hsize]
    rw [Survey.ofLines_eq_ok_iff,
      Survey.advance_append_of_ok (Survey.ofLines_eq_ok_iff.mp hsf), hb]
    exact Relocation.advance_of_ofLines (Relocation.suits_of_name hn hfresh) hst
  have hfirst : (Emission.ofLines (r.table s.table t.table) 0 before).result = .ok first.code := by
    have hprefix : s.table.bindings <+: (r.table s.table t.table).bindings :=
      List.prefix_append _ _
    refine Emission.result_of_prefix hprefix ?_ hcf
    intro line hm mnemonic operand hu _ hg
    rw [SymbolTable.get?_eq_none_iff] at hg ⊢
    rw [r.names_table, hn, List.map_id, List.mem_append, not_or, ← htt]
    exact ⟨hg, hbefore line hm mnemonic operand hu⟩
  have hsecond : (Emission.ofLines (r.table s.table t.table) (r.offset + 0)
      (after.map r.line)).result = .ok (second.code.map r.placed) := by
    refine Relocation.result_of_ok ?_ hct
    intro line hm pc instrs hx
    rw [Relocation.expandAt_of_name hn _ _ pc, hx]
    · intro operand ho
      exact hfresh line hm operand (List.mem_append_right _ ho)
    · rw [← htt]
      exact fun mnemonic operand hu hb => .inr (haddress line hm mnemonic operand hu hb)
  have hwidth : 0 + totalWidth before = r.offset + 0 := by
    rw [← hsize, Nat.add_zero]
    exact (Survey.size_of_advance (Survey.ofLines_eq_ok_iff.mp hsf)).symm
  rw [ofLines_eq_ok_iff]
  refine ⟨r.survey s.table t, hjoined, ?_, by rw [htf, htt]; rfl⟩
  change (Emission.ofLines (r.table s.table t.table) 0 _).result = _
  rw [Emission.result_append, hfirst, hwidth, hsecond]
  rfl

end Object

theorem Object.mem_names_of_label {lines : List Line} {object : Object}
    (h : ofLines lines = .ok object) {line : Line} (hm : line ∈ lines) {name : String}
    (hl : line.label = some name) : name ∈ object.table.names := by
  obtain ⟨survey, hs, -, ht⟩ := ofLines_eq_ok_iff.mp h
  have hd : (name, line.number) ∈ survey.table.bindings.map Binding.definition := by
    rw [Survey.defines_of_ofLines hs]
    exact List.mem_filterMap.mpr ⟨line, hm, by simp [Line.definition?, hl]⟩
  obtain ⟨b, hb, hx⟩ := List.mem_map.mp hd
  rw [ht]
  exact List.mem_map.mpr ⟨b, hb, congrArg Prod.fst hx⟩

/-- In a source without warnings, addresses are used in branches only. -/
theorem address?_of_warnings_eq_nil {source : String} {p : Program} {lines : List Line}
    (h : assemble source = .ok p) (hp : Line.parseSource source = .ok lines)
    (hw : (Run.ofSource source).warnings = []) {line : Line} (hm : line ∈ lines)
    {mnemonic : Mnemonic} {operand : String} (hu : line.statement.Uses mnemonic operand)
    (hb : mnemonic.isBranch = false) : p.table.address? operand = none := by
  obtain ⟨own, survey, hown, hs, hf, rfl⟩ := assemble_eq_ok_iff.mp h
  obtain rfl : lines = own := Except.ok.inj (hp.symm.trans hown)
  rw [Run.warnings_ofSource hp hs] at hw
  exact hu.address?_of_warnings (Emission.warnings_of_mem hf hw hm) hb

/-- A source without warnings gives the same words behind another, if the two have different labels
and neither has an operand that is a label of the other, directives of the first apart. -/
theorem assemble_joined {a b : String} {p q : Program} {above below : List Line}
    (ha : assemble a = .ok p) (hb : assemble b = .ok q) (hw : (Run.ofSource b).warnings = [])
    (hpa : Line.parseSource a = .ok above) (hpb : Line.parseSource b = .ok below)
    (hnames : ∀ name ∈ p.table.names, name ∉ q.table.names)
    (hbelow : ∀ line ∈ below, ∀ operand ∈ line.statement.operands, operand ∉ p.table.names)
    (habove : ∀ line ∈ above, line.statement.isInstruction = true →
      ∀ operand ∈ line.statement.operands, operand ∉ q.table.names) :
    ∃ joined, assemble (a ++ "\n" ++ b) = .ok joined ∧ joined.words = p.words ++ q.words ∧
      joined.table.bindings.map (fun b => (b.name, b.symbol)) =
        p.table.bindings.map (fun b => (b.name, b.symbol)) ++
          q.table.bindings.map (fun b => (b.name, b.symbol.behind p.words.length)) := by
  obtain ⟨before, hbefore, hfirst⟩ := exists_pieces_of_assemble ha
  obtain ⟨after, hafter, hsecond⟩ := exists_pieces_of_assemble hb
  let r : Relocation :=
    { number := fun n => (Text.pieces a).length + n, offset := p.code.length }
  have hread : Line.parseFrom 1 (Text.pieces (a ++ "\n" ++ b)) =
      .ok (before ++ after.map r.line) := by
    have hf (i : Nat) : r.number (1 + i) = 1 + (Text.pieces a).length + i := by
      change (Text.pieces a).length + (1 + i) = _
      omega
    rw [Text.pieces_append_newline, Line.parseFrom_append, hbefore,
      r.parseFrom_line rfl fun i _ => hf i, hafter]
    rfl
  have hjoined := Object.ofLines_joined (r := r) hfirst hsecond rfl rfl ?_ ?_ ?_
  · obtain ⟨joined, hj, ho⟩ := exists_assemble_of_pieces hread hjoined
    have hcode : joined.code = p.code ++ q.code.map r.placed := congrArg Object.code ho
    have htable : joined.table = r.table p.table q.table := congrArg Object.table ho
    have hlength : p.words.length = r.offset := by simp [Program.words, Program.instrs, r]
    refine ⟨joined, hj, ?_, ?_⟩
    · simp [Program.words, Program.instrs, hcode, Relocation.placed, Function.comp_def]
    · simp only [htable, hlength, Relocation.table, List.map_append, List.map_map,
        Function.comp_def, Relocation.binding, r.symbol_behind rfl]
      rfl
  · intro line hm name hname
    rcases List.mem_append.mp hname with hl | ho
    · exact fun hp => hnames name hp
        (Object.mem_names_of_label hsecond hm (Option.mem_toList.mp hl))
    · exact Line.statement_of_mem_pieces
        (fun s => ∀ operand ∈ s.operands, operand ∉ p.table.names) Statement.forall_operands_blank
        hafter hpb hbelow hm name ho
  · intro line hm mnemonic operand hu
    obtain ⟨hi, ho⟩ := hu.mem_operands
    exact Line.statement_of_mem_pieces
      (fun s => s.isInstruction = true → ∀ operand ∈ s.operands, operand ∉ q.table.names)
      (fun _ => Statement.forall_operands_blank) hbefore hpa habove hm hi operand ho
  · intro line hm
    refine Line.statement_of_mem_pieces (fun s => ∀ mnemonic operand, s.Uses mnemonic operand →
      mnemonic.isBranch = false → q.table.address? operand = none) ?_ hafter hpb ?_ hm
    · exact fun _ _ hu => absurd hu Statement.not_uses_blank
    · intro other ho mnemonic operand hu hbranch
      exact address?_of_warnings_eq_nil hb hpb hw ho hu hbranch

/-- A source whose last line ends in a carriage return, and one with branches to both sides and
through another label behind it. -/
theorem assemble_joined_alias :
    ∃ p q joined, assemble "k: .fill far\ntop: movi r1, 1000\r" = .ok p ∧
      assemble "near: beq r0, r0, far\nback: .fill near\nbeq r0, r0, back\nfar:" = .ok q ∧
      assemble ("k: .fill far\ntop: movi r1, 1000\r" ++ "\n" ++
        "near: beq r0, r0, far\nback: .fill near\nbeq r0, r0, back\nfar:") = .ok joined ∧
      joined.words = [0x640f, 0x24a8] ++ [0xc001, 0xc07e] ∧
      joined.table.bindings.map (fun b => (b.name, b.symbol)) =
        [("k", .literal "far"), ("top", .address 0), ("near", .address 2), ("back", .address 2),
          ("far", .address 4)] := by
  have ha : (assemble "k: .fill far\ntop: movi r1, 1000\r").toOption.map
      (fun p => (p.words, p.table)) = some ([0x640f, 0x24a8],
        ⟨[⟨"k", 1, .literal "far"⟩, ⟨"top", 2, .address 0⟩]⟩) := by
    decide +kernel
  have hb : (assemble
      "near: beq r0, r0, far\nback: .fill near\nbeq r0, r0, back\nfar:").toOption.map
      (fun p => (p.words, p.table)) = some ([0xc001, 0xc07e],
        ⟨[⟨"near", 1, .address 0⟩, ⟨"back", 2, .address 0⟩, ⟨"far", 4, .address 2⟩]⟩) := by
    decide +kernel
  have hpa : Line.parseSource "k: .fill far\ntop: movi r1, 1000\r" = .ok
      [⟨1, "k: .fill far", some "k", .directive ".fill" ["far"], none⟩,
        ⟨2, "top: movi r1, 1000\r", some "top", .instruction "movi" ["r1", "1000"], none⟩] :=
    eq_ok_of_toOption (by decide +kernel)
  have hpb : Line.parseSource
      "near: beq r0, r0, far\nback: .fill near\nbeq r0, r0, back\nfar:" = .ok
      [⟨1, "near: beq r0, r0, far", some "near", .instruction "beq" ["r0", "r0", "far"], none⟩,
        ⟨2, "back: .fill near", some "back", .directive ".fill" ["near"], none⟩,
        ⟨3, "beq r0, r0, back", none, .instruction "beq" ["r0", "r0", "back"], none⟩,
        ⟨4, "far:", some "far", .blank, none⟩] :=
    eq_ok_of_toOption (by decide +kernel)
  have hw : (Run.ofSource
      "near: beq r0, r0, far\nback: .fill near\nbeq r0, r0, back\nfar:").warnings = [] := by
    decide +kernel
  obtain ⟨p, hp, hpe⟩ := Option.map_eq_some_iff.mp ha
  obtain ⟨q, hq, hqe⟩ := Option.map_eq_some_iff.mp hb
  obtain ⟨hpw, hpt⟩ := Prod.mk.inj hpe
  obtain ⟨hqw, hqt⟩ := Prod.mk.inj hqe
  obtain ⟨joined, hj, hwords, htable⟩ := assemble_joined (eq_ok_of_toOption hp)
    (eq_ok_of_toOption hq) hw hpa hpb (by rw [hpt, hqt]; decide) (by rw [hpt]; decide)
    (by rw [hqt]; decide)
  refine ⟨p, q, joined, eq_ok_of_toOption hp, eq_ok_of_toOption hq, hj, ?_, ?_⟩
  · rw [hwords, hpw, hqw]
  · rw [htable, hpt, hqt, hpw]
    rfl

end Risc16
