import Mathlib.Data.List.DropRight
import Risc16.Proofs.Replacement

/-! # The normal form of lines

A line that was read can be written again with single spaces between its label, its tokens and its
comment, and then it reads as it did.  Spaces, commas and comments say nothing to the assembler: two
sources with the same labels and tokens, line by line, assemble alike.
-/
namespace Risc16

namespace Text

theorem trimEnd_trimEnd (cs : List Char) : trimEnd (trimEnd cs) = trimEnd cs :=
  List.rdropWhile_idempotent isBlank cs

theorem mem_of_mem_trim {cs : List Char} {c : Char} (h : c ∈ trim cs) : c ∈ cs := by
  obtain ⟨lead, trail, hcs, -⟩ := exists_trim cs
  rw [hcs]
  exact List.mem_append_right lead (List.mem_append_left trail h)

end Text

namespace Line

/-- A line whose parts can be written and read again: besides its tokens, its label is a token and
its comment does not end in a blank. -/
structure Writable (line : Line) : Prop extends line.Tokenised where
  labelName : ∀ name ∈ line.label, LabelName name
  labelSolid : ∀ name ∈ line.label, Token.Solid name
  trimmed : ∀ text ∈ line.comment, Text.trimEnd text.toList = text.toList

theorem not_mem_label_of_parse {number : Nat} {raw : String} {line : Line} {name : String}
    (h : parse number raw = .ok line) (hl : line.label = some name) :
    ':' ∉ name.toList ∧ '#' ∉ name.toList := by
  obtain ⟨label, statement, hc, rfl⟩ := parse_eq_ok_iff.mp h
  have hcomment := Text.not_mem_cut_fst '#' raw.toList
  rcases parseCode_eq_ok_iff.mp hc with
    ⟨-, rfl, -⟩ | ⟨before, body, other, hcode, hb, -, ht, -, rfl, -⟩
  · cases hl
  · cases hl
    -- The label is cut out of the text before its colon, and that is before the comment.
    have hmem {c : Char} (hm : c ∈ name.toList) : c ∈ before := Text.mem_of_mem_trim (ht ▸ hm)
    rw [hcode] at hcomment
    exact ⟨fun hm => hb (hmem hm), fun hm => hcomment (List.mem_append_left _ (hmem hm))⟩

theorem writable_of_parse {number : Nat} {raw : String} {line : Line}
    (h : parse number raw = .ok line) : line.Writable := by
  refine ⟨tokenised_of_parse h, fun name hl => labelName_of_parse h hl, ?_, ?_⟩
  · intro name hl
    obtain ⟨hcolon, hhash⟩ := not_mem_label_of_parse h hl
    exact (labelName_of_parse h hl).token hcolon hhash
  · intro text ht
    obtain ⟨label, statement, -, rfl⟩ := parse_eq_ok_iff.mp h
    obtain ⟨cs, -, rfl⟩ := Option.map_eq_some_iff.mp ht
    rw [String.toList_ofList, Text.trimEnd_trimEnd]

/-- A line written with single spaces: its normal form. -/
def render (line : Line) : String :=
  line.label.elim "" (· ++ ": ") ++ " ".intercalate line.statement.tokens ++
    line.comment.elim "" (" #" ++ ·)

/-- The tokens of a line with single spaces between them, and `gap` behind them. -/
def renderBody (line : Line) (gap : List Char) : List Char :=
  (" ".intercalate line.statement.tokens).toList ++ gap

/-- The label of a line, if it has one, in front of its tokens. -/
def renderCode (line : Line) (gap : List Char) : List Char :=
  line.label.elim (line.renderBody gap) fun name => name.toList ++ ':' :: ' ' :: line.renderBody gap

namespace Writable

variable {line : Line} (h : line.Writable) {gap : List Char} (hgap : ∀ c ∈ gap, c = ' ')
include h hgap

theorem not_mem_renderBody {c : Char} (hc : Token.isPlain c = false) (hs : c ≠ ' ') :
    c ∉ line.renderBody gap := by
  intro hm
  rcases List.mem_append.mp hm with ht | hg
  · rcases Token.mem_intercalate h.solid ht with hg | hp
    · exact hs (by simpa using hg)
    · rw [hc] at hp
      cases hp
  · exact hs (hgap c hg)

theorem scan_renderBody : Token.scan (line.renderBody gap) = line.statement.tokens := by
  have htokens :
      Token.scan (" ".intercalate line.statement.tokens).toList = line.statement.tokens :=
    Token.scan_intercalate (by decide) (by decide) h.solid
  rcases gap with _ | ⟨c, gap⟩
  · rw [renderBody, List.append_nil, htokens]
  · rw [List.forall_mem_cons] at hgap
    obtain ⟨rfl, hgap⟩ := hgap
    have hnone := Token.scan_separators_append (fun c hc => hgap c hc ▸ (by decide)) []
    rw [List.append_nil] at hnone
    rw [renderBody, Token.scan_append_cons _ (by decide), htokens, hnone]
    exact List.append_nil _

theorem not_mem_renderCode : '#' ∉ line.renderCode gap := by
  have hbody : '#' ∉ line.renderBody gap := h.not_mem_renderBody hgap (by decide) (by decide)
  unfold renderCode
  cases hl : line.label with
  | none => exact hbody
  | some name =>
    have hname : '#' ∉ name.toList := fun hm =>
      absurd ((h.labelSolid name hl).isPlain_of_mem hm) (by decide)
    simp [hname, hbody]

theorem parseCode_renderCode :
    parseCode (line.renderCode gap) = .ok (line.label, line.statement) := by
  have hbody : ':' ∉ line.renderBody gap := h.not_mem_renderBody hgap (by decide) (by decide)
  have hscan : .ofTokens (Token.scan (line.renderBody gap)) = line.statement := by
    rw [h.scan_renderBody hgap, h.stable]
  rw [parseCode_eq_ok_iff]
  unfold renderCode
  cases hl : line.label with
  | none => exact .inl ⟨hbody, rfl, hscan.symm⟩
  | some name =>
    have hname := h.labelName name hl
    have hcolon : ':' ∉ name.toList := fun hm =>
      absurd ((h.labelSolid name hl).isPlain_of_mem hm) (by decide)
    have htrim : Text.trim name.toList = name.toList := by
      have ht : Text.trim ([] ++ (name.toList ++ [])) = name.toList :=
        Text.trim_between (by simp) (fun c hc => hname.isBlank_of_mem hc) (by simp)
      rwa [List.nil_append, List.append_nil] at ht
    have hspace : Token.scan (' ' :: line.renderBody gap) = Token.scan (line.renderBody gap) :=
      Token.scan_append_cons [] (by decide) _
    refine .inr ⟨name.toList, ' ' :: line.renderBody gap, name, rfl, hcolon, ?_, htrim,
      checkLabel_eq_ok_iff.mpr hname, rfl, ?_⟩
    · simpa using hbody
    · rw [hspace, hscan]

end Writable

theorem toList_render (line : Line) :
    line.render.toList = line.renderCode (line.comment.elim [] fun _ => [' ']) ++
      line.comment.elim [] fun text => '#' :: text.toList := by
  unfold render renderCode renderBody
  cases line.label <;> cases line.comment <;> simp

theorem Writable.parse_render {line : Line} (h : line.Writable) (number : Nat) :
    parse number line.render = .ok { line with number, raw := line.render } := by
  have hgap : ∀ c ∈ line.comment.elim [] fun _ => [' '], c = ' ' := by
    cases line.comment <;> simp
  have hcode := h.not_mem_renderCode hgap
  have hparse := h.parseCode_renderCode hgap
  have hcut : Text.cut '#' line.render.toList =
      (line.renderCode (line.comment.elim [] fun _ => [' ']), line.comment.map String.toList) := by
    rw [toList_render]
    cases hc : line.comment with
    | none =>
      rw [hc] at hcode
      rw [Option.elim_none, Option.elim_none, List.append_nil]
      exact Text.cut_eq_none hcode
    | some text =>
      rw [hc] at hcode
      exact Text.cut_append hcode text.toList
  have hcomment : (line.comment.map String.toList).map
      (fun cs => String.ofList (Text.trimEnd cs)) = line.comment := by
    cases hc : line.comment with
    | none => rfl
    | some text => simp [h.trimmed text hc]
  rw [parse_eq_ok_iff, hcut]
  exact ⟨line.label, line.statement, hparse, by rw [hcomment]⟩

end Line

namespace Line

def outline (line : Line) : Option String × List String := (line.label, line.statement.tokens)

/-- The number and the outline of a line that was read are all that assembly goes by. -/
theorem core_of_outline {a b : Line} (ha : a.Tokenised) (hb : b.Tokenised)
    (hn : a.number = b.number) (h : a.outline = b.outline) : a.core = b.core := by
  obtain ⟨hl, ht⟩ := Prod.mk.inj h
  have hs : a.statement = b.statement := by rw [← ha.stable, ← hb.stable, ht]
  rw [core, core, hn, hl, hs]

theorem map_core_of_parseFrom {number : Nat} {raws others : List String} {as bs : List Line}
    (ha : parseFrom number raws = .ok as) (hb : parseFrom number others = .ok bs)
    (h : as.map outline = bs.map outline) : as.map core = bs.map core := by
  induction raws generalizing number others as bs with
  | nil =>
    cases ha
    rw [List.map_eq_nil_iff.mp h.symm]
  | cons raw rest ih =>
    obtain ⟨a, later, hp, hr, rfl⟩ := parseFrom_cons_eq_ok_iff.mp ha
    cases others with
    | nil =>
      cases hb
      cases h
    | cons other others =>
      obtain ⟨b, more, hq, ho, rfl⟩ := parseFrom_cons_eq_ok_iff.mp hb
      rw [List.map_cons, List.map_cons, List.cons.injEq] at h
      have hn : a.number = b.number := (number_of_parse hp).trans (number_of_parse hq).symm
      rw [List.map_cons, List.map_cons, ih hr ho h.2,
        core_of_outline (tokenised_of_parse hp) (tokenised_of_parse hq) hn h.1]

end Line

theorem assemble_of_object {a b : String}
    (h : (assemble a).map Program.object = (assemble b).map Program.object) :
    (∃ p q, assemble a = .ok p ∧ assemble b = .ok q ∧ p.code = q.code ∧ p.table = q.table) ∨
      ∃ e, assemble a = .error e ∧ assemble b = .error e := by
  cases hp : assemble a with
  | ok p =>
    cases hq : assemble b with
    | ok q =>
      rw [hp, hq] at h
      have ho := Except.ok.inj h
      exact .inl ⟨p, q, rfl, rfl, congrArg Object.code ho, congrArg Object.table ho⟩
    | error f =>
      rw [hp, hq] at h
      cases h
  | error e =>
    cases hq : assemble b with
    | ok q =>
      rw [hp, hq] at h
      cases h
    | error f =>
      rw [hp, hq] at h
      cases h
      exact .inr ⟨e, rfl, rfl⟩

/-- A line that was read reads again as its normal form, with the same label, statement and comment.
Two sources whose lines have the same labels and tokens either both assemble, to the same code and
the same symbols, or both fail, with the same error. -/
theorem lines_have_normal_form :
    (∀ number raw line, Line.parse number raw = .ok line →
      Line.parse number line.render = .ok { line with raw := line.render }) ∧
    ∀ a b as bs, Line.parseSource a = .ok as → Line.parseSource b = .ok bs →
      as.map Line.outline = bs.map Line.outline →
      (∃ p q, assemble a = .ok p ∧ assemble b = .ok q ∧ p.code = q.code ∧ p.table = q.table) ∨
        ∃ e, assemble a = .error e ∧ assemble b = .error e := by
  constructor
  · intro number raw line h
    have hr := (Line.writable_of_parse h).parse_render number
    rwa [← Line.number_of_parse h] at hr ⊢
  · intro a b as bs ha hb h
    apply assemble_of_object
    rw [map_object_assemble, map_object_assemble, ha, hb]
    exact Object.ofLines_of_core (Line.map_core_of_parseFrom ha hb h)

/-- A label with blanks around it, commas in a row and a comment with marks in it. -/
theorem lines_have_normal_form_marked :
    ∃ line p q, Line.parse 1 " x :\tbeq,r1 ,, r2 x # a: #b " = .ok line ∧
      line.render = "x: beq r1 r2 x # a: #b" ∧
      Line.parse 1 line.render = .ok { line with raw := line.render } ∧
      assemble " x :\tbeq,r1 ,, r2 x # a: #b " = .ok p ∧
      assemble "x: beq r1, r2, x" = .ok q ∧ p.code = q.code ∧ p.table = q.table := by
  have hline : Line.parse 1 " x :\tbeq,r1 ,, r2 x # a: #b " = .ok
      ⟨1, " x :\tbeq,r1 ,, r2 x # a: #b ", some "x", .instruction "beq" ["r1", "r2", "x"],
        some " a: #b"⟩ :=
    eq_ok_of_toOption (by decide +kernel)
  have ha : Line.parseSource " x :\tbeq,r1 ,, r2 x # a: #b " = .ok
      [⟨1, " x :\tbeq,r1 ,, r2 x # a: #b ", some "x", .instruction "beq" ["r1", "r2", "x"],
        some " a: #b"⟩] :=
    eq_ok_of_toOption (by decide +kernel)
  have hb : Line.parseSource "x: beq r1, r2, x" = .ok
      [⟨1, "x: beq r1, r2, x", some "x", .instruction "beq" ["r1", "r2", "x"], none⟩] :=
    eq_ok_of_toOption (by decide +kernel)
  have hok : failure? (assemble "x: beq r1, r2, x") = none := by decide +kernel
  rcases lines_have_normal_form.2 _ _ _ _ ha hb rfl with ⟨p, q, hp, hq, hsame⟩ | ⟨e, -, he⟩
  · exact ⟨_, p, q, hline, by decide +kernel, lines_have_normal_form.1 _ _ _ hline, hp, hq, hsame⟩
  · rw [he] at hok
    cases hok

end Risc16
