import Risc16.Proofs.Emission
import Risc16.Proofs.RegisterGrammar
import Risc16.Proofs.Source

/-! # Names of labels

A label must not look like something else that an operand can be.  The rules for its name exclude
every literal and every register as it is usually written.  They leave one gap: registers may be
written with zeros in front of the digit, and only the names without such zeros are reserved.
-/
namespace Risc16

/-- A name of the register, with its mark in either case. -/
def Reg.Named (reg : Reg) (name : String) : Prop := name = reg.text ∨ name = reg.text.toUpper

theorem Reg.named_iff {reg : Reg} {name : String} :
    reg.Named name ↔
      ∃ mark, (mark = 'r' ∨ mark = 'R') ∧ name.toList = [mark, reg.index.digitChar] := by
  have hall : ∀ r ∈ Reg.all, r.text.toList = ['r', r.index.digitChar] ∧
      r.text.toUpper.toList = ['R', r.index.digitChar] := by
    decide +kernel
  obtain ⟨hlower, hupper⟩ := hall reg reg.mem_all
  constructor
  · rintro (rfl | rfl)
    · exact ⟨'r', .inl rfl, hlower⟩
    · exact ⟨'R', .inr rfl, hupper⟩
  · rintro ⟨mark, rfl | rfl, hn⟩
    · exact .inl (String.toList_inj.mp (hn.trans hlower.symm))
    · exact .inr (String.toList_inj.mp (hn.trans hupper.symm))

theorem eq_or_eq_toUpper_of_toLower {c d : Char} (h : c.toLower = d) : c = d ∨ c = d.toUpper := by
  subst h
  have hcapital : ∀ n < 91, 65 ≤ n → (Char.ofNat n).toLower.toUpper = Char.ofNat n := by decide
  by_cases hc : 65 ≤ c.toNat ∧ c.toNat ≤ 90
  · right
    have hn := hcapital c.toNat (by omega) hc.1
    rw [Char.ofNat_toNat] at hn
    exact hn.symm
  · left
    have hlower : c.toLower = c := dif_neg (by simpa [UInt32.le_iff_toNat_le] using hc)
    exact hlower.symm

/-- The reserved names are those of the registers, in either case. -/
theorem Reg.isReserved_iff {name : String} :
    isReserved name = true ↔ ∃ reg : Reg, reg.Named name := by
  have hall : ∀ r ∈ Reg.all, r.text.toList = ['r', r.index.digitChar] ∧
      r.index.digitChar.toUpper = r.index.digitChar ∧
      isReserved r.text = true ∧ isReserved r.text.toUpper = true := by
    decide +kernel
  constructor
  · intro h
    obtain ⟨reg, hf⟩ := Option.isSome_iff_exists.mp h
    obtain ⟨hlower, hdigit, -⟩ := hall reg reg.mem_all
    unfold ofName? at hf
    have htext : reg.text = name.toLower := by simpa using List.find?_some hf
    have hname : name.toList.map Char.toLower = ['r', reg.index.digitChar] := by
      rw [← String.toList_map, ← hlower, htext]
      rfl
    obtain ⟨mark, rest, hn, hm, hr⟩ := List.map_eq_cons_iff.mp hname
    obtain ⟨digit, rfl, hd⟩ := List.map_eq_singleton_iff.mp hr
    have he := eq_or_eq_toUpper_of_toLower hd
    rw [hdigit, or_self] at he
    rw [he] at hn
    exact ⟨reg, named_iff.mpr ⟨mark, eq_or_eq_toUpper_of_toLower hm, hn⟩⟩
  · rintro ⟨reg, rfl | rfl⟩
    · exact (hall reg reg.mem_all).2.2.1
    · exact (hall reg reg.mem_all).2.2.2

/-- A text that can be a label: it is not empty, has no blanks and no commas, does not begin like a
number, and is not the name of a register. -/
structure LabelName (name : String) : Prop where
  ne_empty : name ≠ ""
  solid : ∀ c ∈ name.toList, Text.isBlank c = false ∧ c ≠ ','
  start : ∀ c ∈ name.toList.head?, c ≠ '-' ∧ c.isDigit = false
  unreserved : ∀ reg : Reg, ¬ reg.Named name

theorem checkLabel_eq_ok_iff {name : String} : checkLabel name = .ok () ↔ LabelName name := by
  have he : name.toList.isEmpty = false ↔ name ≠ "" := by simp
  have hs : name.toList.any Token.isSeparator = false ↔
      ∀ c ∈ name.toList, Text.isBlank c = false ∧ c ≠ ',' := by
    simp [Token.isSeparator]
  have hd : name.toList.head?.any (fun c => c == '-' || c.isDigit) = false ↔
      ∀ c ∈ name.toList.head?, c ≠ '-' ∧ c.isDigit = false := by
    cases name.toList.head? <;> simp
  have hr : Reg.isReserved name = false ↔ ∀ reg : Reg, ¬ reg.Named name := by
    rw [← not_exists, ← Reg.isReserved_iff, Bool.not_eq_true]
  unfold checkLabel
  constructor
  · intro h
    split at h
    · cases h
    split at h
    · cases h
    split at h
    · cases h
    split at h
    · cases h
    next h₁ h₂ h₃ h₄ =>
      exact ⟨he.mp (Bool.eq_false_iff.mpr h₁), hs.mp (Bool.eq_false_iff.mpr h₂),
        hd.mp (Bool.eq_false_iff.mpr h₃), hr.mp (Bool.eq_false_iff.mpr h₄)⟩
  · intro h
    simp [he.mpr h.ne_empty, hs.mpr h.solid, hd.mpr h.start, hr.mpr h.unreserved]

theorem LabelName.ne_nil {name : String} (h : LabelName name) : name.toList ≠ [] := by
  simpa using h.ne_empty

theorem Line.labelName_of_parse {number : Nat} {raw : String} {line : Line} {name : String}
    (h : parse number raw = .ok line) (hl : line.label = some name) : LabelName name := by
  obtain ⟨label, statement, hc, rfl⟩ := parse_eq_ok_iff.mp h
  rcases parseCode_eq_ok_iff.mp hc with ⟨-, rfl, -⟩ | ⟨_, _, _, -, -, -, -, hcheck, rfl, -⟩
  · cases hl
  · cases hl
    exact checkLabel_eq_ok_iff.mp hcheck

theorem Line.labelName_of_parseSource {source : String} {lines : List Line} {line : Line}
    {name : String} (h : parseSource source = .ok lines) (hm : line ∈ lines)
    (hl : line.label = some name) : LabelName name := by
  obtain ⟨number, raw, hp⟩ := exists_parse_of_mem h hm
  exact labelName_of_parse hp hl

theorem LabelName.digit?_head {name : String} (h : LabelName name) {c : Char} {cs : List Char}
    (hc : name.toList = c :: cs) : c ≠ '-' ∧ Text.digit? 10 c = none := by
  have hs := h.start c (by rw [hc]; rfl)
  refine ⟨hs.1, ?_⟩
  cases hd : Text.digit? 10 c with
  | none => rfl
  | some d =>
    obtain ⟨hlt, rfl⟩ := Text.digit?_ten_eq_some_iff.mp hd
    have hdigit := hs.2
    rw [Nat.isDigit_digitChar] at hdigit
    simp at hdigit
    omega

theorem Text.numeral?_cons_of_none {c : Char} (h : digit? 10 c = none) (cs : List Char) :
    numeral? 10 (c :: cs) = none := by
  simp [numeral?, readDigits, h]

theorem LabelName.not_literal {name : String} (h : LabelName name) :
    Literal.parse name = .error (.notLiteral name) := by
  cases hc : name.toList with
  | nil => exact absurd hc h.ne_nil
  | cons c cs =>
    obtain ⟨hm, hd⟩ := h.digit?_head hc
    have hs : Literal.sign (c :: cs) = (false, c :: cs) := by
      unfold Literal.sign
      split
      next h0 =>
        cases h0
        exact absurd rfl hm
      · rfl
    have hb : Literal.base (c :: cs) = (10, c :: cs) := by
      unfold Literal.base
      split
      case h_7 => rfl
      all_goals
        next h0 =>
        cases h0
        exact absurd hd (by decide)
    simp [Literal.parse, Literal.read?, hc, hs, hb, Text.numeral?_cons_of_none hd]

/-- A register with zeros before its digit, such as `r07`. -/
def Reg.Padded (reg : Reg) (name : String) : Prop :=
  ∃ mark count, (mark = 'r' ∨ mark = 'R') ∧
    name.toList = mark :: (List.replicate (count + 1) '0' ++ [reg.index.digitChar])

theorem Reg.Padded.parseRegister {reg : Reg} {name : String} (h : reg.Padded name) :
    Operand.parseRegister name = .ok reg := by
  obtain ⟨mark, count, hm, hn⟩ := h
  have hlt : reg.index < 10 := Nat.lt_trans reg.index_lt (by decide)
  have hd : Text.numeral? 10 (List.replicate (count + 1) '0' ++ [reg.index.digitChar]) =
      some reg.index :=
    (Text.numeral?_ten_eq_some_iff hlt).mpr ⟨count + 1, rfl⟩
  rw [Operand.parseRegister_eq_ok_iff, hn]
  exact .marked hm ((Text.numeral?_eq_some_iff (by decide)).mp hd)

/-- A label that can be read as a register has zeros before the digit. -/
theorem LabelName.padded {name : String} (h : LabelName name) {reg : Reg}
    (hr : Operand.parseRegister name = .ok reg) : reg.Padded name := by
  have hlt : reg.index < 10 := Nat.lt_trans reg.index_lt (by decide)
  have hn := Operand.parseRegister_eq_ok_iff.mp hr
  generalize hc : name.toList = cs at hn
  cases hn with
  | bare hd =>
    cases cs with
    | nil => exact absurd hc h.ne_nil
    | cons c cs =>
      have hs := (h.start c (by rw [hc]; rfl)).2
      rw [hd.isDigit_of_mem List.mem_cons_self] at hs
      cases hs
  | @marked mark digits _ hm hd =>
    obtain ⟨count, rfl⟩ := (Text.numeral?_ten_eq_some_iff hlt).mp
      ((Text.numeral?_eq_some_iff (by decide)).mpr hd)
    -- Without a zero before the digit the name would be reserved.
    cases count with
    | zero => exact absurd (Reg.named_iff.mpr ⟨mark, hm, hc⟩) (h.unreserved reg)
    | succ count => exact ⟨mark, count, hm, hc⟩

theorem Survey.Defines.exists_label {s : Survey} {lines : List Line} (hd : s.Defines lines)
    {name : String} {symbol : Symbol} (h : s.table.get? name = some symbol) :
    ∃ line ∈ lines, line.label = some name := by
  obtain ⟨binding, hb, -⟩ := Option.map_eq_some_iff.mp h
  have hf := hd.line_find? name
  rw [hb, Option.map_some] at hf
  obtain ⟨line, hl, -⟩ := Option.map_eq_some_iff.mp hf.symm
  exact ⟨line, List.mem_of_find?_eq_some hl, by simpa using List.find?_some hl⟩

/-- An operand is replaced only if it is the label of a line. -/
theorem Survey.Defines.resolve_eq_self {s : Survey} {lines : List Line} (hd : s.Defines lines)
    {operand : String} (h : ∀ line ∈ lines, line.label ≠ some operand) (mnemonic : Mnemonic)
    (pc : Nat) : s.table.resolve mnemonic pc operand = operand := by
  cases hg : s.table.get? operand with
  | none => simp only [SymbolTable.resolve, hg]
  | some symbol =>
    obtain ⟨line, hm, hl⟩ := hd.exists_label hg
    exact absurd hl (h line hm)

/-- No label is a literal, and a label that is a register has zeros before the digit.  So a
replacement leaves all literals and all other registers as they are. -/
theorem label_is_no_plain_operand {source : String} {lines : List Line}
    (hp : Line.parseSource source = .ok lines) :
    (∀ line ∈ lines, ∀ name, line.label = some name →
      (∃ fault, Literal.parse name = .error fault) ∧
      ∀ reg, Operand.parseRegister name = .ok reg ↔ reg.Padded name) ∧
    ∀ survey, Survey.ofLines lines = .ok survey → ∀ mnemonic pc operand,
      ((∃ value, Literal.parse operand = .ok value) ∨
        ∃ reg, Operand.parseRegister operand = .ok reg ∧ ¬ reg.Padded operand) →
      survey.table.resolve mnemonic pc operand = operand := by
  constructor
  · intro line hm name hl
    have hn := Line.labelName_of_parseSource hp hm hl
    exact ⟨⟨_, hn.not_literal⟩, fun reg => ⟨hn.padded, Reg.Padded.parseRegister⟩⟩
  · intro survey hs mnemonic pc operand ho
    apply (Survey.defines_of_ofLines hs).resolve_eq_self
    intro line hm hl
    have hn := Line.labelName_of_parseSource hp hm hl
    rcases ho with ⟨value, hv⟩ | ⟨reg, hr, hpad⟩
    · rw [hn.not_literal] at hv
      cases hv
    · exact hpad (hn.padded hr)

/-- One label with zeros before a digit and one without; the registers and the number beside them
stay. -/
theorem label_is_no_plain_operand_mixed :
    ∃ lines survey, Line.parseSource "R07: nop\nloop: addi r7, 3, loop" = .ok lines ∧
      Survey.ofLines lines = .ok survey ∧ (∃ fault, Literal.parse "loop" = .error fault) ∧
      (⟨7⟩ : Reg).Padded "R07" ∧ ¬ (⟨7⟩ : Reg).Padded "r7" ∧
      survey.table.resolve (.machine .addi) 1 "r7" = "r7" ∧
      survey.table.resolve (.machine .addi) 1 "3" = "3" := by
  have hp : Line.parseSource "R07: nop\nloop: addi r7, 3, loop" = .ok
      [⟨1, "R07: nop", some "R07", .instruction "nop" [], none⟩,
        ⟨2, "loop: addi r7, 3, loop", some "loop", .instruction "addi" ["r7", "3", "loop"],
          none⟩] :=
    eq_ok_of_toOption (by decide +kernel)
  have hs : Survey.ofLines
      [⟨1, "R07: nop", some "R07", .instruction "nop" [], none⟩,
        ⟨2, "loop: addi r7, 3, loop", some "loop", .instruction "addi" ["r7", "3", "loop"],
          none⟩] = .ok ⟨⟨[⟨"R07", 1, .address 0⟩, ⟨"loop", 2, .address 1⟩]⟩, 2⟩ :=
    eq_ok_of_toOption (by decide +kernel)
  have hpad : Operand.parseRegister "R07" = .ok ⟨7⟩ := eq_ok_of_toOption (by decide +kernel)
  have hreg : Operand.parseRegister "r7" = .ok ⟨7⟩ := eq_ok_of_toOption (by decide +kernel)
  have hlit : Literal.parse "3" = .ok 3 := eq_ok_of_toOption (by decide +kernel)
  have hplain : ¬ (⟨7⟩ : Reg).Padded "r7" := by
    rintro ⟨mark, count, -, hn⟩
    have hl := congrArg List.length hn
    simp at hl
  obtain ⟨hlabel, hkeep⟩ := label_is_no_plain_operand hp
  have hloop := hlabel _ (List.mem_cons_of_mem _ List.mem_cons_self) "loop" rfl
  have hpadded := hlabel _ List.mem_cons_self "R07" rfl
  exact ⟨_, _, hp, hs, hloop.1, (hpadded.2 ⟨7⟩).mp hpad, hplain,
    hkeep _ hs _ 1 "r7" (.inr ⟨⟨7⟩, hreg, hplain⟩), hkeep _ hs _ 1 "3" (.inl ⟨3, hlit⟩)⟩

/-- A label can be a register, and then an operand that is this register is replaced: here `r07`
stands for the address zero and no longer for the last register. -/
theorem label_captures_register :
    ∃ lines survey, Line.parseSource "r07: nop\nadd r1, r2, r07" = .ok lines ∧
      (∃ line ∈ lines, line.label = some "r07") ∧ Operand.parseRegister "r07" = .ok ⟨7⟩ ∧
      Survey.ofLines lines = .ok survey ∧
      survey.table.resolve (.machine .add) 1 "r07" = "0" := by
  exact ⟨[⟨1, "r07: nop", some "r07", .instruction "nop" [], none⟩,
      ⟨2, "add r1, r2, r07", none, .instruction "add" ["r1", "r2", "r07"], none⟩],
    ⟨⟨[⟨"r07", 1, .address 0⟩]⟩, 2⟩, eq_ok_of_toOption (by decide +kernel),
    ⟨_, List.mem_cons_self, rfl⟩, eq_ok_of_toOption (by decide +kernel),
    eq_ok_of_toOption (by decide +kernel), by decide +kernel⟩

end Risc16
