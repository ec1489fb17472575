import Mathlib.Data.List.Forall2
import Risc16.Proofs.LabelName
import Risc16.Proofs.Object
import Risc16.Proofs.Token

/-! # Upper and lower case

Mnemonics, directives and registers can be written in either case.  Two sources that differ in
nothing else assemble to the same symbols and code, or fail on the same line with an error of the
same kind; only the wording of the error can quote one spelling or the other.  Labels are not part
of this: their case counts.
-/
namespace Risc16

/-- The same operand, or two names of one register. -/
def Operand.Respelt (a b : String) : Prop := a = b ∨ ∃ reg : Reg, reg.Named a ∧ reg.Named b

/-- Statements whose first tokens differ in case only.  Registers of an instruction can differ in
case too, and all other operands are the same. -/
inductive Statement.Respelt : Statement → Statement → Prop where
  | blank : Respelt .blank .blank
  | directive {a b : String} (h : a.toLower = b.toLower) (operands : List String) :
      Respelt (.directive a operands) (.directive b operands)
  | instruction {a b : String} (h : a.toLower = b.toLower) {xs ys : List String}
      (ho : List.Forall₂ Operand.Respelt xs ys) : Respelt (.instruction a xs) (.instruction b ys)

/-- Lines with the same label, first tokens that differ in case only, and other tokens that are the
same or, for an instruction, two names of one register. -/
structure Line.Respelt (a b : Line) : Prop where
  label : a.label = b.label
  head : a.statement.tokens.head?.map String.toLower = b.statement.tokens.head?.map String.toLower
  operands : List.Forall₂
    (fun s t => s = t ∨ a.statement.isInstruction = true ∧ ∃ reg : Reg, reg.Named s ∧ reg.Named t)
    a.statement.operands b.statement.operands

namespace Reg.Named

variable {reg : Reg} {name : String}

theorem parseRegister (h : reg.Named name) : Operand.parseRegister name = .ok reg := by
  have hall : ∀ r ∈ Reg.all, (Operand.parseRegister r.text.toUpper).toOption = some r := by
    decide +kernel
  rcases h with rfl | rfl
  · exact Operand.parseRegister_text reg
  · exact eq_ok_of_toOption (hall reg reg.mem_all)

theorem not_literal (h : reg.Named name) : Literal.parse name = .error (.notLiteral name) := by
  have hall : ∀ r ∈ Reg.all, failure? (Literal.parse r.text) = some (.notLiteral r.text) ∧
      failure? (Literal.parse r.text.toUpper) = some (.notLiteral r.text.toUpper) := by
    decide +kernel
  rcases h with rfl | rfl
  · exact eq_error_of_failure? (hall reg reg.mem_all).1
  · exact eq_error_of_failure? (hall reg reg.mem_all).2

end Reg.Named

theorem mapError_bind {ε ε' α β : Type} (g : ε → ε') (x : Except ε α) (f : α → Except ε β) :
    (x >>= f).mapError g = x.mapError g >>= fun a => (f a).mapError g := by
  cases x <;> rfl

theorem mapError_map {ε ε' α β : Type} (g : ε → ε') (f : α → β) (x : Except ε α) :
    (x.map f).mapError g = (x.mapError g).map f := by
  cases x <;> rfl

/-- Two steps with the same result, or with failures that look the same. -/
theorem ok_or_error_of_mapError {ε ε' α : Type} {g : ε → ε'} {x y : Except ε α}
    (h : x.mapError g = y.mapError g) :
    (∃ a, x = .ok a ∧ y = .ok a) ∨ ∃ e f, x = .error e ∧ y = .error f ∧ g e = g f := by
  cases x with
  | ok a =>
    cases y with
    | ok b => exact .inl ⟨a, rfl, (Except.ok.inj h).symm ▸ rfl⟩
    | error f => cases h
  | error e =>
    cases y with
    | ok b => cases h
    | error f => exact .inr ⟨e, f, rfl, rfl, Except.error.inj h⟩

/-- What an error says apart from its wording. -/
def Error.verdict (e : Error) : FaultKind × Option Nat := (e.kind, e.line)

theorem mapError_located {α : Type} (number : Nat) (x : Except Fault α) :
    (located number x).mapError Error.verdict =
      (x.mapError Fault.kind).mapError fun kind => (kind, some number) := by
  cases x <;> rfl

namespace Operand

theorem Respelt.parseRegister {a b : String} (h : Respelt a b) :
    (Operand.parseRegister a).mapError Fault.kind =
      (Operand.parseRegister b).mapError Fault.kind := by
  rcases h with rfl | ⟨reg, ha, hb⟩
  · rfl
  · rw [ha.parseRegister, hb.parseRegister]

theorem Respelt.parse {a b : String} (h : Respelt a b) :
    (Literal.parse a).mapError Fault.kind = (Literal.parse b).mapError Fault.kind := by
  rcases h with rfl | ⟨reg, ha, hb⟩
  · rfl
  · rw [ha.not_literal, hb.not_literal]
    rfl

variable {xs ys : List String} (h : List.Forall₂ Respelt xs ys)
include h

theorem Respelt.getElem? (index : Nat) :
    (xs[index]? = none ∧ ys[index]? = none) ∨
      ∃ a b, xs[index]? = some a ∧ ys[index]? = some b ∧ Respelt a b := by
  induction h generalizing index with
  | nil => exact .inl ⟨rfl, rfl⟩
  | @cons a b xs ys hab _ ih =>
    cases index with
    | zero => exact .inr ⟨a, b, rfl, rfl, hab⟩
    | succ index => exact ih index

theorem atMost_respelt (count : Nat) :
    (atMost count xs).mapError Fault.kind = (atMost count ys).mapError Fault.kind := by
  unfold atMost
  rcases Respelt.getElem? h count with ⟨hx, hy⟩ | ⟨a, b, hx, hy, -⟩
  · rw [hx, hy]
  · rw [hx, hy]
    rfl

theorem register_respelt (index : Nat) :
    (register xs index).mapError Fault.kind = (register ys index).mapError Fault.kind := by
  unfold register
  rcases Respelt.getElem? h index with ⟨hx, hy⟩ | ⟨a, b, hx, hy, hab⟩
  · rw [hx, hy]
  · rw [hx, hy]
    exact hab.parseRegister

theorem number_respelt (index : Nat) :
    (number xs index).mapError Fault.kind = (number ys index).mapError Fault.kind := by
  unfold number
  rcases Respelt.getElem? h index with ⟨hx, hy⟩ | ⟨a, b, hx, hy, hab⟩
  · rw [hx, hy]
  · rw [hx, hy]
    exact hab.parse

theorem signedImm_respelt (index : Nat) :
    (signedImm xs index).mapError Fault.kind = (signedImm ys index).mapError Fault.kind := by
  rw [signedImm, mapError_bind, number_respelt h, ← mapError_bind, signedImm]

theorem longImm_respelt (index : Nat) :
    (longImm xs index).mapError Fault.kind = (longImm ys index).mapError Fault.kind := by
  rw [longImm, mapError_bind, number_respelt h, ← mapError_bind, longImm]

theorem word_respelt (index : Nat) :
    (word xs index).mapError Fault.kind = (word ys index).mapError Fault.kind := by
  rw [word, mapError_bind, number_respelt h, ← mapError_bind, word]

end Operand

section Expand

open Operand

variable {xs ys : List String} (h : List.Forall₂ Respelt xs ys)
include h

theorem Instr.ofOperands_respelt (op : Opcode) :
    (ofOperands op xs).mapError Fault.kind = (ofOperands op ys).mapError Fault.kind := by
  cases op <;> simp only [ofOperands, mapError_bind, atMost_respelt h, register_respelt h,
    signedImm_respelt h, longImm_respelt h]

theorem Shorthand.expand_respelt (s : Shorthand) :
    (s.expand xs).mapError Fault.kind = (s.expand ys).mapError Fault.kind := by
  cases s <;> simp only [expand, mapError_bind, atMost_respelt h, register_respelt h,
    word_respelt h]

theorem Mnemonic.expand_respelt (mnemonic : Mnemonic) :
    (mnemonic.expand xs).mapError Fault.kind = (mnemonic.expand ys).mapError Fault.kind := by
  cases mnemonic with
  | machine op => simp only [expand, mapError_bind, Instr.ofOperands_respelt h]
  | shorthand s => exact Shorthand.expand_respelt h s

end Expand

/-- A mnemonic is looked up without regard to case, and so is the fact that it is unknown. -/
theorem Mnemonic.parse_respelt {a b : String} (h : a.toLower = b.toLower) :
    (parse a).mapError Fault.kind = (parse b).mapError Fault.kind := by
  unfold parse Opcode.ofMnemonic? Shorthand.ofName?
  rw [h]
  split
  · rfl
  · split <;> rfl

theorem head?_of_toLower {a b : String} (h : a.toLower = b.toLower)
    (ha : a.toList.head? = some '.') : b.toList.head? = some '.' := by
  have hl : (a.toList.map Char.toLower).head? = (b.toList.map Char.toLower).head? := by
    rw [← String.toList_map, ← String.toList_map]
    exact congrArg (fun s => s.toList.head?) h
  rw [List.head?_map, ha, List.head?_map] at hl
  obtain ⟨c, hc, he⟩ := Option.map_eq_some_iff.mp hl.symm
  rcases eq_or_eq_toUpper_of_toLower he with rfl | rfl <;> exact hc

/-- No register is the name of a label. -/
def SymbolTable.SparesRegisters (table : SymbolTable) : Prop :=
  ∀ name y, table.get? name = some y → ∀ reg : Reg, ¬ reg.Named name

theorem Survey.Defines.sparesRegisters {s : Survey} {lines : List Line} (hd : s.Defines lines)
    (hl : ∀ line ∈ lines, ∀ name, line.label = some name → LabelName name) :
    s.table.SparesRegisters := by
  intro name y hg
  obtain ⟨line, hm, hlabel⟩ := hd.exists_label hg
  exact (hl line hm name hlabel).unreserved

/-- A register is no label, so that its spelling stays. -/
theorem SymbolTable.SparesRegisters.resolve {table : SymbolTable} (ht : table.SparesRegisters)
    {reg : Reg} {name : String} (h : reg.Named name) (mnemonic : Mnemonic) (pc : Nat) :
    table.resolve mnemonic pc name = name := by
  cases hg : table.get? name with
  | none => simp only [SymbolTable.resolve, hg]
  | some y => exact absurd h (ht name y hg reg)

theorem resolve_respelt {table : SymbolTable} (ht : table.SparesRegisters) {xs ys : List String}
    (h : List.Forall₂ Operand.Respelt xs ys) (mnemonic : Mnemonic) (pc : Nat) :
    List.Forall₂ Operand.Respelt (xs.map (table.resolve mnemonic pc))
      (ys.map (table.resolve mnemonic pc)) := by
  rw [List.forall₂_map_left_iff, List.forall₂_map_right_iff]
  refine h.imp fun a b hab => ?_
  rcases hab with rfl | ⟨reg, ha, hb⟩
  · exact .inl rfl
  · rw [ht.resolve ha, ht.resolve hb]
    exact .inr ⟨reg, ha, hb⟩

namespace Line

/-- Respelt lines of the same number, as the passes meet them. -/
structure Matches (a b : Line) : Prop where
  number : a.number = b.number
  label : a.label = b.label
  statement : a.statement.Respelt b.statement

theorem Tokenised.head?_directive {line : Line} (h : line.Tokenised) {name : String}
    {operands : List String} (hs : line.statement = .directive name operands) :
    name.toList.head? = some '.' := by
  have ho := h.stable
  rw [hs] at ho
  by_cases hd : name.toList.head? = some '.'
  · exact hd
  · simp [Statement.tokens, Statement.ofTokens, hd] at ho

theorem Tokenised.head?_instruction {line : Line} (h : line.Tokenised) {name : String}
    {operands : List String} (hs : line.statement = .instruction name operands) :
    name.toList.head? ≠ some '.' := by
  intro hd
  have ho := h.stable
  rw [hs] at ho
  simp [Statement.tokens, Statement.ofTokens, hd] at ho

/-- First tokens that differ in case only make statements of one sort. -/
theorem Respelt.statement {a b : Line} (h : a.Respelt b) (ha : a.Tokenised) (hb : b.Tokenised) :
    a.statement.Respelt b.statement := by
  have hhead := h.head
  have hops := h.operands
  cases hs : a.statement with
  | blank =>
    rw [hs] at hhead
    cases ht : b.statement with
    | blank => exact .blank
    | directive | instruction =>
      rw [ht] at hhead
      cases hhead
  | directive name operands =>
    rw [hs] at hhead hops
    cases ht : b.statement with
    | blank =>
      rw [ht] at hhead
      cases hhead
    | directive other others =>
      rw [ht] at hhead hops
      have hlower : name.toLower = other.toLower := Option.some.inj hhead
      have hsame : operands = others := by
        rw [← List.forall₂_eq_eq_eq]
        exact hops.imp fun s t hst => hst.resolve_right fun hr => Bool.false_ne_true hr.1
      rw [hsame]
      exact .directive hlower others
    | instruction other others =>
      rw [ht] at hhead
      have hlower : name.toLower = other.toLower := Option.some.inj hhead
      exact absurd (head?_of_toLower hlower (ha.head?_directive hs)) (hb.head?_instruction ht)
  | instruction name operands =>
    rw [hs] at hhead hops
    cases ht : b.statement with
    | blank =>
      rw [ht] at hhead
      cases hhead
    | directive other others =>
      rw [ht] at hhead
      have hlower : name.toLower = other.toLower := Option.some.inj hhead
      exact absurd (head?_of_toLower hlower.symm (hb.head?_directive ht)) (ha.head?_instruction hs)
    | instruction other others =>
      rw [ht] at hhead hops
      exact .instruction (Option.some.inj hhead) (hops.imp fun s t hst => hst.imp_right And.right)

theorem matches_of_parseFrom {number : Nat} {raws others : List String} {as bs : List Line}
    (ha : parseFrom number raws = .ok as) (hb : parseFrom number others = .ok bs)
    (h : List.Forall₂ Respelt as bs) : List.Forall₂ Matches as bs := by
  induction h generalizing number raws others with
  | nil => exact .nil
  | @cons a b as bs hab _ ih =>
    cases raws with
    | nil => cases ha
    | cons raw raws =>
      cases others with
      | nil => cases hb
      | cons other others =>
        obtain ⟨_, _, hpa, hra, ⟨⟩⟩ := parseFrom_cons_eq_ok_iff.mp ha
        obtain ⟨_, _, hpb, hrb, ⟨⟩⟩ := parseFrom_cons_eq_ok_iff.mp hb
        refine .cons ⟨?_, hab.label, ?_⟩ (ih hra hrb)
        · rw [number_of_parse hpa, number_of_parse hpb]
        · exact hab.statement (tokenised_of_parse hpa) (tokenised_of_parse hpb)

variable {a b : Line} (h : a.Matches b)
include h

theorem Matches.width : a.width = b.width := by
  unfold Line.width
  obtain ⟨-, -, hs⟩ := h
  generalize a.statement = x at hs
  generalize b.statement = y at hs
  cases hs with
  | blank | directive => rfl
  | instruction hn =>
    rcases ok_or_error_of_mapError (Mnemonic.parse_respelt hn) with
      ⟨mnemonic, ha, hb⟩ | ⟨e, f, ha, hb, -⟩
    · simp only [ha, hb]
    · simp only [ha, hb]

theorem Matches.symbol (s : Survey) :
    (s.symbol a).mapError Fault.kind = (s.symbol b).mapError Fault.kind := by
  unfold Survey.symbol
  obtain ⟨-, -, hs⟩ := h
  generalize a.statement = x at hs
  generalize b.statement = y at hs
  cases hs with
  | blank | instruction => rfl
  | directive hn operands =>
    dsimp only
    unfold directiveSymbol
    rw [hn]
    split
    · rfl
    · split <;> rfl

theorem Matches.step (s : Survey) :
    (s.step a).mapError Error.verdict = (s.step b).mapError Error.verdict := by
  unfold Survey.step Survey.bindLabel
  rw [mapError_bind, mapError_bind, mapError_located, mapError_located, h.symbol s, h.number,
    h.label, h.width]

theorem Matches.expandAt {table : SymbolTable} (ht : table.SparesRegisters) (pc : Nat) :
    (a.expandAt table pc).mapError Fault.kind = (b.expandAt table pc).mapError Fault.kind := by
  rw [expandAt_eq_expansion, expandAt_eq_expansion]
  unfold expansion
  obtain ⟨-, -, hs⟩ := h
  generalize a.statement = x at hs
  generalize b.statement = y at hs
  cases hs with
  | blank | directive => rfl
  | instruction hn ho =>
    dsimp only
    rw [mapError_bind, mapError_bind, Mnemonic.parse_respelt hn]
    congr 1
    funext mnemonic
    exact Mnemonic.expand_respelt (resolve_respelt ht ho mnemonic pc) mnemonic

end Line

section Passes

variable {as bs : List Line} (h : List.Forall₂ Line.Matches as bs)
include h

theorem Survey.advance_respelt (s : Survey) :
    (s.advance as).1 = (s.advance bs).1 ∧
      (s.advance as).2.map Error.verdict = (s.advance bs).2.map Error.verdict := by
  induction h generalizing s with
  | nil => exact ⟨rfl, rfl⟩
  | @cons a b as bs hab _ ih =>
    rcases ok_or_error_of_mapError (hab.step s) with ⟨next, ha, hb⟩ | ⟨e, f, ha, hb, he⟩
    · rw [advance_cons_of_ok ha, advance_cons_of_ok hb]
      exact ih next
    · rw [advance_cons_of_error ha, advance_cons_of_error hb]
      exact ⟨rfl, congrArg some he⟩

theorem Survey.ofLines_respelt :
    (∃ survey, ofLines as = .ok survey ∧ ofLines bs = .ok survey) ∨
      ∃ e f, ofLines as = .error e ∧ ofLines bs = .error f ∧ e.verdict = f.verdict := by
  obtain ⟨hreached, hfailure⟩ := advance_respelt h start
  cases hs : ofLines as with
  | ok survey =>
    rw [ofLines_eq_ok_iff.mp hs] at hreached hfailure
    refine .inl ⟨survey, rfl, ofLines_eq_ok_iff.mpr (Prod.ext hreached.symm ?_)⟩
    exact Option.map_eq_none_iff.mp hfailure.symm
  | error e =>
    rw [ofLines_eq_error_iff.mp hs] at hfailure
    obtain ⟨f, hf, he⟩ := Option.map_eq_some_iff.mp hfailure.symm
    exact .inr ⟨e, f, rfl, ofLines_eq_error_iff.mpr hf, he.symm⟩

theorem Emission.result_respelt {table : SymbolTable} (ht : table.SparesRegisters) (pc : Nat) :
    (ofLines table pc as).result.mapError Error.verdict =
      (ofLines table pc bs).result.mapError Error.verdict := by
  induction h generalizing pc with
  | nil => rfl
  | @cons a b as bs hab _ ih =>
    simp only [result_cons, mapError_bind, mapError_map, mapError_located, hab.expandAt ht,
      hab.number, hab.width, ih]

theorem Object.ofLines_respelt (hl : ∀ line ∈ as, ∀ name, line.label = some name → LabelName name) :
    (ofLines as).mapError Error.verdict = (ofLines bs).mapError Error.verdict := by
  unfold ofLines
  rw [mapError_bind, mapError_bind]
  rcases Survey.ofLines_respelt h with ⟨survey, ha, hb⟩ | ⟨e, f, ha, hb, he⟩
  · have ht := (Survey.defines_of_ofLines ha).sparesRegisters hl
    rw [ha, hb]
    change ((Emission.ofLines survey.table 0 as).result >>= _).mapError _ =
      ((Emission.ofLines survey.table 0 bs).result >>= _).mapError _
    rw [mapError_bind, mapError_bind, Emission.result_respelt h ht]
  · rw [ha, hb]
    exact congrArg Except.error he

end Passes

/-- Two sources that differ only in the case of mnemonics, directives and registers either both
assemble, to the same code and the same symbols, or both fail, on the same line and with an error of
the same kind. -/
theorem assemble_respelt {a b : String} {as bs : List Line} (ha : Line.parseSource a = .ok as)
    (hb : Line.parseSource b = .ok bs) (h : List.Forall₂ Line.Respelt as bs) :
    (∃ p q, assemble a = .ok p ∧ assemble b = .ok q ∧ p.code = q.code ∧ p.table = q.table) ∨
      ∃ e f, assemble a = .error e ∧ assemble b = .error f ∧ e.kind = f.kind ∧ e.line = f.line := by
  have hmatches := Line.matches_of_parseFrom ha hb h
  have hobject := Object.ofLines_respelt hmatches fun line hm name hl =>
    Line.labelName_of_parseSource ha hm hl
  have hoa := map_object_assemble a
  have hob := map_object_assemble b
  rw [ha] at hoa
  rw [hb] at hob
  change _ = Object.ofLines as at hoa
  change _ = Object.ofLines bs at hob
  rw [← hoa, ← hob, mapError_map, mapError_map] at hobject
  cases hp : assemble a with
  | ok p =>
    cases hq : assemble b with
    | ok q =>
      rw [hp, hq] at hobject
      have he := Except.ok.inj hobject
      exact .inl ⟨p, q, rfl, rfl, congrArg Object.code he, congrArg Object.table he⟩
    | error f =>
      rw [hp, hq] at hobject
      cases hobject
  | error e =>
    cases hq : assemble b with
    | ok q =>
      rw [hp, hq] at hobject
      cases hobject
    | error f =>
      rw [hp, hq] at hobject
      have he := Except.error.inj hobject
      exact .inr ⟨e, f, rfl, rfl, congrArg Prod.fst he, congrArg Prod.snd he⟩

/-- A shorthand of two words, a directive and the registers of a branch in either case. -/
theorem assemble_respelt_mixed :
    ∃ p q, assemble "x: MOVI R1, 1000\nk: .Fill 5\nbeq r1, R2, x" = .ok p ∧
      assemble "x: movi r1, 1000\nk: .FILL 5\nBEQ R1, R2, x" = .ok q ∧
      p.code = q.code ∧ p.table = q.table := by
  have ha : Line.parseSource "x: MOVI R1, 1000\nk: .Fill 5\nbeq r1, R2, x" = .ok
      [⟨1, "x: MOVI R1, 1000", some "x", .instruction "MOVI" ["R1", "1000"], none⟩,
        ⟨2, "k: .Fill 5", some "k", .directive ".Fill" ["5"], none⟩,
        ⟨3, "beq r1, R2, x", none, .instruction "beq" ["r1", "R2", "x"], none⟩] :=
    eq_ok_of_toOption (by decide +kernel)
  have hb : Line.parseSource "x: movi r1, 1000\nk: .FILL 5\nBEQ R1, R2, x" = .ok
      [⟨1, "x: movi r1, 1000", some "x", .instruction "movi" ["r1", "1000"], none⟩,
        ⟨2, "k: .FILL 5", some "k", .directive ".FILL" ["5"], none⟩,
        ⟨3, "BEQ R1, R2, x", none, .instruction "BEQ" ["R1", "R2", "x"], none⟩] :=
    eq_ok_of_toOption (by decide +kernel)
  have hlower : (⟨1⟩ : Reg).Named "r1" := .inl (by decide +kernel)
  have hupper : (⟨1⟩ : Reg).Named "R1" := .inr (by decide +kernel)
  have hmovi : "MOVI".toLower = "movi" ∧ "movi".toLower = "movi" := by decide +kernel
  have hfill : ".Fill".toLower = ".fill" ∧ ".FILL".toLower = ".fill" := by decide +kernel
  have hbeq : "beq".toLower = "beq" ∧ "BEQ".toLower = "beq" := by decide +kernel
  have hfirst : Line.Respelt
      ⟨1, "x: MOVI R1, 1000", some "x", .instruction "MOVI" ["R1", "1000"], none⟩
      ⟨1, "x: movi r1, 1000", some "x", .instruction "movi" ["r1", "1000"], none⟩ :=
    ⟨rfl, congrArg some (hmovi.1.trans hmovi.2.symm),
      .cons (.inr ⟨rfl, ⟨1⟩, hupper, hlower⟩) (.cons (.inl rfl) .nil)⟩
  have hsecond : Line.Respelt ⟨2, "k: .Fill 5", some "k", .directive ".Fill" ["5"], none⟩
      ⟨2, "k: .FILL 5", some "k", .directive ".FILL" ["5"], none⟩ :=
    ⟨rfl, congrArg some (hfill.1.trans hfill.2.symm), .cons (.inl rfl) .nil⟩
  have hthird : Line.Respelt
      ⟨3, "beq r1, R2, x", none, .instruction "beq" ["r1", "R2", "x"], none⟩
      ⟨3, "BEQ R1, R2, x", none, .instruction "BEQ" ["R1", "R2", "x"], none⟩ :=
    ⟨rfl, congrArg some (hbeq.1.trans hbeq.2.symm),
      .cons (.inr ⟨rfl, ⟨1⟩, hlower, hupper⟩) (.cons (.inl rfl) (.cons (.inl rfl) .nil))⟩
  have hok : failure? (assemble "x: MOVI R1, 1000\nk: .Fill 5\nbeq r1, R2, x") = none := by
    decide +kernel
  rcases assemble_respelt ha hb (.cons hfirst (.cons hsecond (.cons hthird .nil))) with
    hsame | ⟨e, f, he, -⟩
  · exact hsame
  · rw [he] at hok
    cases hok

end Risc16
