import Risc16.Proofs.LiteralGrammar

/-! # The grammar of registers

Which texts are registers is said without the reader: a register is decimal digits, with one mark in
front of them or none, whose number is below eight.  A larger number, of whatever size, is told
apart from a text that is no number at all.  The number needs no more room than a byte while it is
read, because what does not fit a byte is no register either.
-/
namespace Risc16

namespace Text

/-- Reads decimal digits to the right of a number in a byte, up to the first digit that would make
the number too large for the byte. -/
def readByte (n : UInt8) : List Char → Option UInt8
  | [] => some n
  | c :: cs => match digit? 10 c with
    | some d => if 10 * n.toNat + d < 256 then readByte (10 * n + UInt8.ofNat d) cs else none
    | none => none

/-- A number that is too large for a byte has been too large from some digit on. -/
theorem readByte_eq (n : UInt8) (cs : List Char) :
    readByte n cs =
      (readDigits 10 n.toNat cs).bind fun m => if m < 256 then some (UInt8.ofNat m) else none := by
  induction cs generalizing n with
  | nil => simp [readByte, readDigits, UInt8.toNat_lt n]
  | cons c cs ih =>
    cases hd : digit? 10 c with
    | none => simp [readByte, readDigits, hd]
    | some d =>
      simp only [readByte, readDigits, hd]
      split
      next hlt =>
        have hn : (10 * n + UInt8.ofNat d).toNat = 10 * n.toNat + d := by
          rw [UInt8.toNat_add, UInt8.toNat_mul, UInt8.toNat_ofNat']
          change (10 * n.toNat % 256 + d % 256) % 256 = 10 * n.toNat + d
          omega
        rw [ih, hn]
      next hge =>
        -- Digits that follow cannot make the number smaller again.
        cases hr : readDigits 10 (10 * n.toNat + d) cs with
        | none => rfl
        | some m =>
          have hle := (le_of_readDigits (by decide) hr).1
          rw [Option.bind_some, if_neg (by omega)]

theorem exists_digit?_of_isDigit {c : Char} (h : c.isDigit = true) : ∃ d, digit? 10 c = some d := by
  have hc : '0'.toNat ≤ c.toNat ∧ c.toNat ≤ '9'.toNat := Char.isDigit_iff_toNat.mp h
  have hlt : c.toNat - '0'.toNat < 10 := by
    change 48 ≤ c.toNat ∧ c.toNat ≤ 57 at hc
    change c.toNat - 48 < 10
    omega
  have hv : digitValue? c = some (c.toNat - '0'.toNat) := if_pos hc
  exact ⟨_, Option.filter_eq_some_iff.mpr ⟨hv, decide_eq_true hlt⟩⟩

end Text

namespace Operand

/-- Decimal digits behind one mark, or without a mark, and the number that they make. -/
inductive Numbers : List Char → Nat → Prop where
  | bare {digits : List Char} {n : Nat} (h : Text.IsNumeral 10 digits n) : Numbers digits n
  | marked {mark : Char} {digits : List Char} {n : Nat} (hm : mark = 'r' ∨ mark = 'R')
      (h : Text.IsNumeral 10 digits n) : Numbers (mark :: digits) n

def unmarked : List Char → List Char
  | 'r' :: rest | 'R' :: rest => rest
  | cs => cs

/-- Reads a register with no more than a byte for its number.  The digits are looked at first, since
a number that does not fit is another fault than a text without a number. -/
def parseInByte (text : String) : Except Fault Reg :=
  let digits := unmarked text.toList
  if digits.isEmpty || !digits.all Char.isDigit then .error (.registerNotInteger text)
  else match (Text.readByte 0 digits).bind (Reg.ofIndex? ·.toNat) with
    | some reg => .ok reg
    | none => .error (.registerOutOfRange text)

variable {cs : List Char} {text : String} {n : Nat}

/-- A mark is not a digit, so that a text has one reading only. -/
theorem numbers_iff : Numbers cs n ↔ Text.numeral? 10 (unmarked cs) = some n := by
  rw [Text.numeral?_eq_some_iff (by decide)]
  constructor
  · intro h
    cases h with
    | bare h =>
      unfold unmarked
      split
      · exact absurd (h.isDigit_of_mem List.mem_cons_self) (by decide)
      · exact absurd (h.isDigit_of_mem List.mem_cons_self) (by decide)
      · exact h
    | marked hm h =>
      rcases hm with rfl | rfl
      · exact h
      · exact h
  · intro h
    unfold unmarked at h
    split at h
    · exact .marked (.inl rfl) h
    · exact .marked (.inr rfl) h
    · exact .bare h

/-- A text has a number exactly if there are digits and nothing else behind its mark. -/
theorem exists_numbers_iff : (∃ n, Numbers cs n) ↔
    unmarked cs ≠ [] ∧ ∀ c ∈ unmarked cs, c.isDigit = true := by
  simp only [numbers_iff]
  constructor
  · rintro ⟨n, hn⟩
    have h := (Text.numeral?_eq_some_iff (by decide)).mp hn
    exact ⟨h.1, fun c hc => h.isDigit_of_mem hc⟩
  · rintro ⟨hne, hd⟩
    exact Text.exists_numeral? hne fun c hc => Text.exists_digit?_of_isDigit (hd c hc)

theorem parseRegister_eq (text : String) :
    parseRegister text = match Text.numeral? 10 (unmarked text.toList) with
      | none => .error (.registerNotInteger text)
      | some n => match Reg.ofIndex? n with
        | some reg => .ok reg
        | none => .error (.registerOutOfRange text) := rfl

theorem parseRegister_of_numbers (h : Numbers text.toList n) :
    parseRegister text = match Reg.ofIndex? n with
      | some reg => .ok reg
      | none => .error (.registerOutOfRange text) := by
  simp only [parseRegister_eq, numbers_iff.mp h]

theorem parseRegister_eq_ok_iff {reg : Reg} :
    parseRegister text = .ok reg ↔ Numbers text.toList reg.index := by
  rw [parseRegister_eq, numbers_iff]
  cases Text.numeral? 10 (unmarked text.toList) with
  | none => simp
  | some n =>
    cases hr : Reg.ofIndex? n with
    | none =>
      have hne : n ≠ reg.index := by
        have hle := (Reg.ofIndex?_eq_none_iff n).mp hr
        have hlt := reg.index_lt
        omega
      simp [hr, hne]
    | some other =>
      obtain rfl := Reg.index_of_ofIndex? hr
      simp only [hr, Except.ok.injEq, Option.some.injEq]
      exact ⟨congrArg Reg.index, Reg.ext_index⟩

theorem parseRegister_eq_outOfRange_iff :
    parseRegister text = .error (.registerOutOfRange text) ↔
      ∃ n, 8 ≤ n ∧ Numbers text.toList n := by
  simp only [parseRegister_eq, numbers_iff]
  cases Text.numeral? 10 (unmarked text.toList) with
  | none => simp
  | some n =>
    simp only [Option.some.injEq, exists_eq_right', ← Reg.ofIndex?_eq_none_iff]
    cases Reg.ofIndex? n <;> simp

theorem parseRegister_eq_notInteger_iff :
    parseRegister text = .error (.registerNotInteger text) ↔ ∀ n, ¬ Numbers text.toList n := by
  simp only [parseRegister_eq, numbers_iff]
  cases Text.numeral? 10 (unmarked text.toList) with
  | none => simp
  | some n => cases hr : Reg.ofIndex? n <;> simp [hr]

theorem ofIndex?_readByte (h : Numbers cs n) :
    (Text.readByte 0 (unmarked cs)).bind (Reg.ofIndex? ·.toNat) = Reg.ofIndex? n := by
  have hr : Text.readDigits 10 0 (unmarked cs) = some n := by
    rw [← Text.numeral?_of_ne_nil (exists_numbers_iff.mp ⟨n, h⟩).1]
    exact numbers_iff.mp h
  rw [Text.readByte_eq]
  change ((Text.readDigits 10 0 (unmarked cs)).bind _).bind _ = _
  rw [hr, Option.bind_some]
  split
  next hlt =>
    rw [Option.bind_some, UInt8.toNat_ofNat', Nat.mod_eq_of_lt hlt]
  next hge =>
    rw [Option.bind_none, eq_comm, Reg.ofIndex?_eq_none_iff]
    omega

theorem parseInByte_eq (text : String) : parseInByte text = parseRegister text := by
  have hd : ((unmarked text.toList).isEmpty || !(unmarked text.toList).all Char.isDigit) = true ↔
      ∀ n, ¬ Numbers text.toList n := by
    rw [← not_exists, exists_numbers_iff, not_and_or]
    simp
  unfold parseInByte
  by_cases h : ∃ n, Numbers text.toList n
  · obtain ⟨n, hn⟩ := h
    rw [if_neg fun hc => hd.mp hc n hn, ofIndex?_readByte hn, parseRegister_of_numbers hn]
  · rw [if_pos (hd.mpr (not_exists.mp h)), parseRegister_eq_notInteger_iff.mpr (not_exists.mp h)]

end Operand

/-- A text is a register exactly if the grammar says so, with the number that the grammar gives.  A
text whose number is eight or more is out of range, however large the number is, and every other
text is not an integer.  Reading the number into a byte gives the same. -/
theorem registers_follow_grammar (text : String) :
    (∀ reg, Operand.parseRegister text = .ok reg ↔ Operand.Numbers text.toList reg.index) ∧
    (Operand.parseRegister text = .error (.registerOutOfRange text) ↔
      ∃ n, 8 ≤ n ∧ Operand.Numbers text.toList n) ∧
    (Operand.parseRegister text = .error (.registerNotInteger text) ↔
      ∀ n, ¬ Operand.Numbers text.toList n) ∧
    (Fault.registerOutOfRange text).message = "Register id must be < 8 : " ++ text ∧
    (Fault.registerNotInteger text).message = "Register id not an integer : " ++ text ∧
    Operand.parseInByte text = Operand.parseRegister text := by
  refine ⟨fun reg => Operand.parseRegister_eq_ok_iff, Operand.parseRegister_eq_outOfRange_iff,
    Operand.parseRegister_eq_notInteger_iff, rfl, rfl, Operand.parseInByte_eq text⟩

/-- Zeros in front do not make a number too large, and only a number can be. -/
example : Operand.parseRegister "R0000000000000000000007" = .ok ⟨7#3⟩ ∧
    Operand.parseRegister "r256" = .error (.registerOutOfRange "r256") ∧
    Operand.parseRegister "rr1" = .error (.registerNotInteger "rr1") := by
  cbv

end Risc16
