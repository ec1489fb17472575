import Risc16.Proofs.Joining
import Risc16.Proofs.Replacement

/-! # Labels with other names

The labels of a source can be given other names where they are defined and where they are operands.
The source then assembles to the same code, with the new names in its table, if names that differ
stay different and if the new names can be read back: a name with a colon or the mark of a comment
in it would end too early.
-/
namespace Risc16

/-- The change of tokens that gives other names to `names` only. -/
def renameOnly (names : List String) (rho : String → String) (text : String) : String :=
  if text ∈ names then rho text else text

def Symbol.mapText (f : String → String) : Symbol → Symbol
  | .address addr => .address addr
  | .literal text => .literal (f text)

theorem Relocation.symbol_mapText {r : Relocation} (h : r.offset = 0) (y : Symbol) :
    r.symbol y = y.mapText r.name := by
  cases y with
  | address addr => rw [symbol, h, Nat.zero_add, Symbol.mapText]
  | literal text => rfl

/-- Lines with other names have the same code, if nothing that can be read has another name. -/
theorem Object.ofLines_renamed {lines : List Line} {object : Object} {f : String → String}
    (h : ofLines lines = .ok object) (hs : ({ name := f } : Relocation).Suits .empty lines)
    (hread : ∀ text, Operand.Readable text → f text = text) :
    ofLines (lines.map ({ name := f } : Relocation).line) =
      .ok ⟨({ name := f } : Relocation).table .empty object.table, object.code⟩ := by
  let r : Relocation := { name := f }
  obtain ⟨survey, hsurvey, hcode, htable⟩ := ofLines_eq_ok_iff.mp h
  have hadvance := Relocation.advance_of_ofLines hs hsurvey
  have hplaced : r.placed = id := by
    funext word
    simp [Relocation.placed, r]
  have hexpand : ∀ line ∈ lines, ∀ pc instrs, line.expandAt survey.table pc = .ok instrs →
      (r.line line).expandAt (r.table .empty survey.table) (r.offset + pc) = .ok instrs := by
    intro line hm pc instrs
    apply Relocation.expandAt_of_readable
    intro mnemonic operand hu hreadable
    have hkeeps : r.Keeps .empty survey.table operand :=
      hs.keeps (Survey.defines_of_ofLines hsurvey) (fun _ ho => ho) hm
        (List.mem_append_right _ hu.mem_operands.2)
    rw [hkeeps.resolve]
    -- A name that stands for a text may give another text, but then no line has read it.
    unfold SymbolTable.resolve at hreadable ⊢
    cases hg : survey.table.get? operand with
    | none =>
      rw [hg] at hreadable
      exact hread operand hreadable
    | some y =>
      cases y with
      | literal text =>
        rw [hg] at hreadable
        exact hread text hreadable
      | address addr => simp [r]
  have hresult := Relocation.result_of_ok hexpand hcode
  rw [hplaced, List.map_id] at hresult
  rw [ofLines_eq_ok_iff]
  exact ⟨r.survey .empty survey, Survey.ofLines_eq_ok_iff.mpr hadvance, hresult,
    by rw [htable]; rfl⟩

theorem labelName_of_mem_names {source : String} {p : Program} (h : assemble source = .ok p)
    {name : String} (hn : name ∈ p.table.names) : LabelName name := by
  obtain ⟨lines, survey, hp, hs, -, rfl⟩ := assemble_eq_ok_iff.mp h
  obtain ⟨b, hb, rfl⟩ := List.mem_map.mp hn
  have hd : b.definition ∈ lines.filterMap Line.definition? := by
    rw [← Survey.defines_of_ofLines hs]
    exact List.mem_map_of_mem hb
  obtain ⟨line, hm, hx⟩ := List.mem_filterMap.mp hd
  obtain ⟨label, hl, hpair⟩ := Option.map_eq_some_iff.mp hx
  obtain rfl : label = b.name := congrArg Prod.fst hpair
  exact Line.labelName_of_parseSource hp hm hl

section RenameOnly

variable {names : List String} {rho : String → String}

theorem renameOnly_of_mem {text : String} (h : text ∈ names) :
    renameOnly names rho text = rho text := if_pos h

theorem renameOnly_of_not_mem {text : String} (h : text ∉ names) :
    renameOnly names rho text = text := if_neg h

theorem renames_renameOnly (hempty : "" ∉ names) (hsolid : ∀ name ∈ names, Token.Solid (rho name)) :
    Token.Renames (renameOnly names rho) := by
  refine ⟨renameOnly_of_not_mem hempty, fun text => ?_⟩
  by_cases ht : text ∈ names
  · rw [renameOnly_of_mem ht]
    exact .inr (hsolid text ht)
  · exact .inl (renameOnly_of_not_mem ht)

/-- New names suit lines if they are different and none of them is another operand already. -/
theorem suits_renameOnly {lines : List Line} (hzero : "0" ∉ names)
    (hlabels : ∀ line ∈ lines, ∀ label, line.label = some label → label ∈ names)
    (hinj : ∀ m ∈ names, ∀ n ∈ names, rho m = rho n → m = n)
    (hfresh : ∀ line ∈ lines, ∀ operand ∈ line.statement.operands, ∀ n ∈ names,
      operand = rho n → operand ∈ names) :
    ({ name := renameOnly names rho } : Relocation).Suits .empty lines := by
  constructor
  case zero => exact renameOnly_of_not_mem hzero
  case fresh => exact fun _ _ _ _ => rfl
  case apart =>
    intro line hm name hname other ho label hlabel he
    have hl := hlabels other ho label hlabel
    change renameOnly names rho label = renameOnly names rho name at he
    rw [renameOnly_of_mem hl] at he
    have hn : name ∈ names := by
      rcases List.mem_append.mp hname with hown | hoperand
      · exact hlabels line hm name (Option.mem_toList.mp hown)
      · by_cases hn : name ∈ names
        · exact hn
        · rw [renameOnly_of_not_mem hn] at he
          exact hfresh line hm name hoperand label hl he.symm
    rw [renameOnly_of_mem hn] at he
    exact hinj label hl name hn he

end RenameOnly

/-- A source whose labels are renamed assembles to the same code.  The new names must be different,
must be names of labels without the marks of labels and comments, and must not be other operands of
the source; the old names must not be readable as registers. -/
theorem assemble_renamed (rho : String → String) {source : String} {p : Program}
    {lines : List Line} (h : assemble source = .ok p) (hp : Line.parseSource source = .ok lines)
    (hinj : ∀ m ∈ p.table.names, ∀ n ∈ p.table.names, rho m = rho n → m = n)
    (hcheck : ∀ n ∈ p.table.names, checkLabel (rho n) = .ok ())
    (hmarks : ∀ n ∈ p.table.names, ':' ∉ (rho n).toList ∧ '#' ∉ (rho n).toList)
    (hreg : ∀ n ∈ p.table.names, ∀ reg, Operand.parseRegister n ≠ .ok reg)
    (hfresh : ∀ line ∈ lines, ∀ operand ∈ line.statement.operands, ∀ n ∈ p.table.names,
      operand = rho n → operand ∈ p.table.names) :
    ∃ q, assemble (renameSource (renameOnly p.table.names rho) source) = .ok q ∧
      q.code = p.code ∧
      q.table.bindings = p.table.bindings.map fun b =>
        ⟨rho b.name, b.line, b.symbol.mapText (renameOnly p.table.names rho)⟩ := by
  let f := renameOnly p.table.names rho
  have hnew : ∀ n ∈ p.table.names, f n = rho n := fun n hn => renameOnly_of_mem hn
  have hname : ∀ n ∈ p.table.names, LabelName n := fun n hn => labelName_of_mem_names h hn
  have hrho : ∀ n ∈ p.table.names, LabelName (rho n) := fun n hn =>
    checkLabel_eq_ok_iff.mp (hcheck n hn)
  have hf : Token.Renames f := renames_renameOnly (fun hn => (hname "" hn).ne_empty rfl)
    fun n hn => (hrho n hn).token (hmarks n hn).1 (hmarks n hn).2
  have hread : ∀ text, Operand.Readable text → f text = text := fun text hr =>
    renameOnly_of_not_mem fun hn => Operand.not_readable_of_label (hname text hn) (hreg text hn) hr
  obtain ⟨own, hown, hobject⟩ := exists_pieces_of_assemble h
  have hlabels : ∀ line ∈ own, ∀ label, line.label = some label → label ∈ p.table.names :=
    fun line hm label hl => Object.mem_names_of_label hobject hm hl
  have hsuits : ({ name := f } : Relocation).Suits .empty own := by
    have hzero : "0" ∉ p.table.names := fun hn =>
      absurd ((hname "0" hn).start '0' rfl).2 (by decide)
    refine suits_renameOnly hzero hlabels hinj ?_
    intro line hm
    exact Line.statement_of_mem_pieces (fun s => ∀ operand ∈ s.operands, ∀ n ∈ p.table.names,
      operand = rho n → operand ∈ p.table.names) Statement.forall_operands_blank hown hp hfresh hm
  obtain ⟨others, hothers, hcore⟩ := Line.parseFrom_rename hf hown fun line hm label hl => by
    rw [hnew label (hlabels line hm label hl)]
    exact hrho label (hlabels line hm label hl)
  rw [← Text.pieces_renameSource hf] at hothers
  have hrenamed := Object.ofLines_renamed hobject hsuits hread
  rw [← Object.ofLines_of_core hcore] at hrenamed
  obtain ⟨q, hq, ho⟩ := exists_assemble_of_pieces hothers hrenamed
  refine ⟨q, hq, congrArg Object.code ho, ?_⟩
  have htable : q.table.bindings = p.table.bindings.map ({ name := f } : Relocation).binding :=
    congrArg (SymbolTable.bindings ∘ Object.table) ho
  rw [htable]
  apply List.map_congr_left
  intro b hb
  rw [Relocation.binding, Relocation.symbol_mapText rfl]
  change Binding.mk (f b.name) _ _ = _
  rw [hnew b.name (List.mem_map_of_mem hb)]
  rfl

/-- Two labels that change their names, one of them spelt like a mnemonic. -/
theorem assemble_renamed_swapped :
    ∃ p q, assemble "k: .fill add\nadd: add r1, r2, r3\nbeq r0, r0, add # add\nhalt k" = .ok p ∧
      assemble "add: .fill k\nk: add r1, r2, r3\nbeq r0, r0, k # add\nhalt add" = .ok q ∧
      q.code = p.code ∧ p.table.bindings = [⟨"k", 1, .literal "add"⟩, ⟨"add", 2, .address 0⟩] ∧
      q.table.bindings = [⟨"add", 1, .literal "k"⟩, ⟨"k", 2, .address 0⟩] := by
  have ha : (assemble
      "k: .fill add\nadd: add r1, r2, r3\nbeq r0, r0, add # add\nhalt k").toOption.map
      Program.table = some ⟨[⟨"k", 1, .literal "add"⟩, ⟨"add", 2, .address 0⟩]⟩ := by
    decide +kernel
  have hl : Line.parseSource
      "k: .fill add\nadd: add r1, r2, r3\nbeq r0, r0, add # add\nhalt k" = .ok
      [⟨1, "k: .fill add", some "k", .directive ".fill" ["add"], none⟩,
        ⟨2, "add: add r1, r2, r3", some "add", .instruction "add" ["r1", "r2", "r3"], none⟩,
        ⟨3, "beq r0, r0, add # add", none, .instruction "beq" ["r0", "r0", "add"], some " add"⟩,
        ⟨4, "halt k", none, .instruction "halt" ["k"], none⟩] :=
    eq_ok_of_toOption (by decide +kernel)
  have hr : ∀ n ∈ ["k", "add"], Operand.parseRegister n = .error (.registerNotInteger n) := by
    intro n hn
    apply eq_error_of_failure?
    revert n
    decide +kernel
  have hc : ∀ n ∈ ["k", "add"], checkLabel (if n = "k" then "add" else "k") = .ok () := by
    intro n hn
    apply eq_ok_of_toOption
    revert n
    decide +kernel
  obtain ⟨p, hp, ht⟩ := Option.map_eq_some_iff.mp ha
  have hn : p.table.names = ["k", "add"] := by rw [ht]; rfl
  obtain ⟨q, hq, hcode, htable⟩ := assemble_renamed
    (fun name => if name = "k" then "add" else "k") (eq_ok_of_toOption hp) hl
    (by rw [hn]; decide) (by rw [hn]; exact hc) (by rw [hn]; decide)
    (by rw [hn]; exact fun n hm reg => by simp [hr n hm]) (by rw [hn]; decide)
  have hs : renameSource (renameOnly p.table.names fun name => if name = "k" then "add" else "k")
      "k: .fill add\nadd: add r1, r2, r3\nbeq r0, r0, add # add\nhalt k" =
      "add: .fill k\nk: add r1, r2, r3\nbeq r0, r0, k # add\nhalt add" := by
    rw [hn]
    decide +kernel
  rw [hs] at hq
  refine ⟨p, q, eq_ok_of_toOption hp, hq, hcode, by rw [ht], ?_⟩
  rw [htable, hn, ht]
  rfl

/-- The rules for names allow both marks, but a colon in a name ends the label before it, and what
follows a hash is a comment. -/
theorem renamed_to_marked_name_fails :
    ∃ p, assemble "x: nop" = .ok p ∧ p.table.names = ["x"] ∧
      Line.parseSource "x: nop" = .ok [⟨1, "x: nop", some "x", .instruction "nop" [], none⟩] ∧
      (∀ reg, Operand.parseRegister "x" ≠ .ok reg) ∧
      (checkLabel "a:b" = .ok () ∧ (∀ reg, Operand.parseRegister "a:b" ≠ .ok reg) ∧
        renameSource (renameOnly p.table.names fun _ => "a:b") "x: nop" = "a:b: nop" ∧
        assemble "a:b: nop" = .error (Fault.secondColon.onLine 1)) ∧
      checkLabel "a#b" = .ok () ∧ (∀ reg, Operand.parseRegister "a#b" ≠ .ok reg) ∧
        renameSource (renameOnly p.table.names fun _ => "a#b") "x: nop" = "a#b: nop" ∧
        assemble "a#b: nop" = .error ((Fault.unknownOpcode "a").onLine 1) := by
  have ha : (assemble "x: nop").toOption.map (fun p => p.table.names) = some ["x"] := by
    decide +kernel
  have hr : ∀ name ∈ ["x", "a:b", "a#b"], ∀ reg, Operand.parseRegister name ≠ .ok reg := by
    intro name hn reg
    have hf : failure? (Operand.parseRegister name) = some (.registerNotInteger name) := by
      revert name
      decide +kernel
    simp [eq_error_of_failure? hf]
  obtain ⟨p, hp, hn⟩ := Option.map_eq_some_iff.mp ha
  refine ⟨p, eq_ok_of_toOption hp, hn, eq_ok_of_toOption (by decide +kernel), hr "x" (by simp),
    ⟨?_, hr "a:b" (by simp), ?_, ?_⟩, ?_, hr "a#b" (by simp), ?_, ?_⟩
  · exact eq_ok_of_toOption (by decide +kernel)
  · rw [hn]
    decide +kernel
  · exact eq_error_of_failure? (by decide +kernel)
  · exact eq_ok_of_toOption (by decide +kernel)
  · rw [hn]
    decide +kernel
  · exact eq_error_of_failure? (by decide +kernel)

end Risc16
