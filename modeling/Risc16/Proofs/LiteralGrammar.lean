import Mathlib.Data.Nat.Digits.Defs
import Mathlib.Tactic.Ring
import Risc16.Proofs.Numeral

/-! # The grammar of literals

Which texts are literals, and of which number, is said without the reader: a literal is an optional
minus sign and digits, with the mark of their base in front unless they are decimal, and the digits
count by their position.  The reader accepts these texts and no others.  A mark is found by its two
bytes, and what is left behind them is always made of whole characters.
-/
namespace Risc16

namespace Text

/-- A character that is a digit with this value, in either case, of a base up to sixteen. -/
def IsDigit (base : Nat) (c : Char) (d : Nat) : Prop :=
  d < base ∧ (c = d.digitChar ∨ c = d.digitChar.toUpper)

/-- At least one digit and nothing else, with the number that the digits make by their position. -/
def IsNumeral (base : Nat) (cs : List Char) (n : Nat) : Prop :=
  cs ≠ [] ∧ ∃ ds : List Nat, List.Forall₂ (IsDigit base) cs ds ∧ n = Nat.ofDigits base ds.reverse

variable {base n m : Nat} {cs : List Char}

/-- What was read before stands in front of all digits that follow. -/
theorem readDigits_eq_some_iff (hb : base ≤ 16) :
    readDigits base n cs = some m ↔ ∃ ds : List Nat, List.Forall₂ (IsDigit base) cs ds ∧
      m = base ^ ds.length * n + Nat.ofDigits base ds.reverse := by
  induction cs generalizing n with
  | nil =>
    constructor
    · intro h
      exact ⟨[], .nil, by simpa [readDigits] using h.symm⟩
    · rintro ⟨_, ⟨⟩, rfl⟩
      simp [readDigits]
  | cons c cs ih =>
    have hvalue (d : Nat) (ds : List Nat) :
        base ^ (d :: ds).length * n + Nat.ofDigits base (d :: ds).reverse =
          base ^ ds.length * (base * n + d) + Nat.ofDigits base ds.reverse := by
      rw [List.reverse_cons, Nat.ofDigits_append, Nat.ofDigits_singleton, List.length_cons,
        List.length_reverse]
      ring
    constructor
    · intro h
      simp only [readDigits] at h
      split at h
      next d hd =>
        obtain ⟨ds, hds, rfl⟩ := ih.mp h
        exact ⟨d :: ds, .cons ((digit?_eq_some_iff hb).mp hd) hds, (hvalue d ds).symm⟩
      · cases h
    · rintro ⟨_, hall, rfl⟩
      cases hall with
      | cons hd hds =>
        simp only [readDigits, (digit?_eq_some_iff hb).mpr hd]
        exact ih.mpr ⟨_, hds, hvalue _ _⟩

theorem numeral?_eq_some_iff (hb : base ≤ 16) :
    numeral? base cs = some n ↔ IsNumeral base cs n := by
  cases cs with
  | nil => simp [numeral?, IsNumeral]
  | cons c cs =>
    rw [numeral?, readDigits_eq_some_iff hb]
    simp [IsNumeral]

theorem IsNumeral.isDigit_of_mem (h : IsNumeral 10 cs n) {c : Char} (hc : c ∈ cs) :
    c.isDigit = true := by
  obtain ⟨-, ds, hall, -⟩ := h
  have hdigit : ∀ d < 10, d.digitChar.isDigit = true ∧ d.digitChar.toUpper.isDigit = true := by
    decide
  induction hall with
  | nil => cases hc
  | cons hd _ ih =>
    rcases List.mem_cons.mp hc with rfl | hc
    · rcases hd.2 with rfl | rfl
      · exact (hdigit _ hd.1).1
      · exact (hdigit _ hd.1).2
    · exact ih hc

def utf8 (cs : List Char) : List UInt8 := cs.flatMap String.utf8EncodeChar

@[simp] theorem utf8_append (cs ds : List Char) : utf8 (cs ++ ds) = utf8 cs ++ utf8 ds :=
  List.flatMap_append

theorem utf8EncodeChar_of_le {c : Char} (h : c.toNat ≤ 127) :
    String.utf8EncodeChar c = [UInt8.ofNat c.toNat] :=
  if_pos h

/-- A longer character has no byte below 128 in front. -/
theorem utf8EncodeChar_of_lt {c : Char} (h : 127 < c.toNat) :
    ∃ first others, String.utf8EncodeChar c = first :: others ∧ 128 ≤ first.toNat := by
  have hlong : ¬ c.val.toNat ≤ 127 := Nat.not_le.mpr h
  simp only [String.utf8EncodeChar, if_neg hlong]
  split
  · refine ⟨_, _, rfl, ?_⟩
    rw [UInt8.toNat_ofNat']
    omega
  split
  · refine ⟨_, _, rfl, ?_⟩
    rw [UInt8.toNat_ofNat']
    omega
  · refine ⟨_, _, rfl, ?_⟩
    rw [UInt8.toNat_ofNat']
    omega

theorem eq_cons_of_utf8 {b : UInt8} {bytes : List UInt8} (hb : b.toNat < 128)
    (h : utf8 cs = b :: bytes) :
    ∃ c rest, cs = c :: rest ∧ c.toNat = b.toNat ∧ utf8 rest = bytes := by
  cases cs with
  | nil => cases h
  | cons c rest =>
    change String.utf8EncodeChar c ++ utf8 rest = b :: bytes at h
    by_cases hc : c.toNat ≤ 127
    · rw [utf8EncodeChar_of_le hc, List.singleton_append, List.cons.injEq] at h
      refine ⟨c, rest, rfl, ?_, h.2⟩
      rw [← h.1, UInt8.toNat_ofNat']
      omega
    · obtain ⟨first, others, he, hfirst⟩ := utf8EncodeChar_of_lt (Nat.lt_of_not_le hc)
      rw [he, List.cons_append, List.cons.injEq] at h
      rw [h.1] at hfirst
      omega

/-- A text of single bytes stands in front of another exactly if its bytes do. -/
theorem utf8_prefix_iff {mark : List Char} (hmark : ∀ c ∈ mark, c.toNat ≤ 127) :
    utf8 mark <+: utf8 cs ↔ mark <+: cs := by
  constructor
  · induction mark generalizing cs with
    | nil => exact fun _ => List.nil_prefix
    | cons c mark ih =>
      rintro ⟨bytes, h⟩
      have hc : c.toNat ≤ 127 := hmark c List.mem_cons_self
      have hb : (UInt8.ofNat c.toNat).toNat = c.toNat := by
        rw [UInt8.toNat_ofNat']
        omega
      change String.utf8EncodeChar c ++ utf8 mark ++ bytes = utf8 cs at h
      rw [utf8EncodeChar_of_le hc, List.append_assoc, List.singleton_append] at h
      obtain ⟨d, rest, rfl, hd, hrest⟩ := eq_cons_of_utf8 (by omega) h.symm
      obtain rfl : d = c := Char.toNat_inj.mp (hd.trans hb)
      rw [List.cons_prefix_cons]
      exact ⟨rfl, ih (fun x hx => hmark x (List.mem_cons_of_mem d hx)) ⟨bytes, hrest.symm⟩⟩
  · rintro ⟨rest, rfl⟩
    exact ⟨utf8 rest, (utf8_append mark rest).symm⟩

end Text

namespace Literal

def marks : List (String × Nat) :=
  [("0x", 16), ("0X", 16), ("0b", 2), ("0B", 2), ("0o", 8), ("0O", 8)]

/-- Digits with the mark of their base, or decimal digits.  Decimal digits are never taken for a
mark, because no letter is among them. -/
inductive Magnitude : List Char → Nat → Prop where
  | marked {mark : String} {base m : Nat} {digits : List Char} (hmark : (mark, base) ∈ marks)
      (h : Text.IsNumeral base digits m) : Magnitude (mark.toList ++ digits) m
  | decimal {m : Nat} {digits : List Char} (h : Text.IsNumeral 10 digits m) : Magnitude digits m

inductive Denotes : List Char → Int → Prop where
  | plain {m : Nat} {cs : List Char} (h : Magnitude cs m) (hm : m ≤ 2 ^ 63 - 1) : Denotes cs m
  | minus {m : Nat} {cs : List Char} (h : Magnitude cs m) (hm : m ≤ 2 ^ 63 - 1) :
      Denotes ('-' :: cs) (-m)

variable {cs : List Char} {m : Nat} {v : Int}

theorem base_append {mark : String × Nat} (h : mark ∈ marks) (digits : List Char) :
    base (mark.1.toList ++ digits) = (mark.2, digits) := by
  simp only [marks, List.mem_cons, List.not_mem_nil, or_false] at h
  rcases h with rfl | rfl | rfl | rfl | rfl | rfl <;> rfl

/-- The base is that of a mark in front of the digits, or ten and all are digits. -/
theorem base_cases (cs : List Char) :
    (∃ mark ∈ marks, ∃ digits, cs = mark.1.toList ++ digits ∧ base cs = (mark.2, digits)) ∨
      base cs = (10, cs) := by
  unfold base
  split
  · exact .inl ⟨("0x", 16), by decide, _, rfl, rfl⟩
  · exact .inl ⟨("0X", 16), by decide, _, rfl, rfl⟩
  · exact .inl ⟨("0b", 2), by decide, _, rfl, rfl⟩
  · exact .inl ⟨("0B", 2), by decide, _, rfl, rfl⟩
  · exact .inl ⟨("0o", 8), by decide, _, rfl, rfl⟩
  · exact .inl ⟨("0O", 8), by decide, _, rfl, rfl⟩
  · exact .inr rfl

/-- Two bytes that are those of a mark end where a character ends. -/
theorem base_of_utf8 {mark : String × Nat} (h : mark ∈ marks) {bytes : List UInt8}
    (hcs : Text.utf8 cs = Text.utf8 mark.1.toList ++ bytes) :
    ∃ digits, base cs = (mark.2, digits) ∧ bytes = Text.utf8 digits := by
  have hbyte : ∀ mark ∈ marks, ∀ c ∈ mark.1.toList, c.toNat ≤ 127 := by simp [marks]
  obtain ⟨digits, rfl⟩ := (Text.utf8_prefix_iff (hbyte mark h)).mp ⟨bytes, hcs.symm⟩
  rw [Text.utf8_append] at hcs
  exact ⟨digits, base_append h digits, (List.append_cancel_left hcs).symm⟩

theorem magnitude_iff : Magnitude cs m ↔ Text.numeral? (base cs).1 (base cs).2 = some m := by
  have hbase : ∀ mark ∈ marks, mark.2 ≤ 16 := by decide
  have hten : 10 ≤ 16 := by decide
  constructor
  · intro h
    cases h with
    | marked hmark h =>
      rw [base_append hmark]
      exact (Text.numeral?_eq_some_iff (hbase _ hmark)).mpr h
    | decimal h =>
      rw [base_of_isDigit fun c hc => h.isDigit_of_mem hc]
      exact (Text.numeral?_eq_some_iff hten).mpr h
  · intro h
    rcases base_cases cs with ⟨mark, hm, digits, rfl, hb⟩ | hb
    · rw [hb] at h
      exact .marked hm ((Text.numeral?_eq_some_iff (hbase _ hm)).mp h)
    · rw [hb] at h
      exact .decimal ((Text.numeral?_eq_some_iff hten).mp h)

theorem not_magnitude_minus (cs : List Char) (m : Nat) : ¬ Magnitude ('-' :: cs) m := by
  intro h
  rw [magnitude_iff] at h
  change Text.readDigits 10 0 ('-' :: cs) = some m at h
  cases h

theorem sign_of_magnitude (h : Magnitude cs m) : sign cs = (false, cs) := by
  unfold sign
  split
  · exact absurd h (not_magnitude_minus _ m)
  · rfl

theorem read?_of_sign {negative : Bool} {body : List Char} (h : sign cs = (negative, body)) :
    read? cs = some v ↔ ∃ m, Magnitude body m ∧ m ≤ 2 ^ 63 - 1 ∧
      v = if negative then -(m : Int) else m := by
  simp only [read?, h, magnitude_iff]
  cases Text.numeral? (base body).1 (base body).2 with
  | none => simp
  | some n =>
    change (if n ≤ 2 ^ 63 - 1 then some (if negative then -(n : Int) else n) else none) = some v ↔ _
    constructor
    · intro hr
      split at hr
      next hn => exact ⟨n, rfl, hn, (Option.some.inj hr).symm⟩
      · cases hr
    · rintro ⟨_, ⟨⟩, hn, rfl⟩
      exact if_pos hn

theorem read?_eq_some_iff : read? cs = some v ↔ Denotes cs v := by
  constructor
  · intro h
    cases hs : sign cs with
    | mk negative body =>
      obtain ⟨m, hm, hle, rfl⟩ := (read?_of_sign hs).mp h
      unfold sign at hs
      split at hs
      · cases hs
        exact .minus hm hle
      · cases hs
        exact .plain hm hle
  · intro h
    cases h with
    | plain h hm => exact (read?_of_sign (sign_of_magnitude h)).mpr ⟨_, h, hm, rfl⟩
    | minus h hm => exact (read?_of_sign rfl).mpr ⟨_, h, hm, rfl⟩

theorem parse_eq_ok_iff {text : String} : parse text = .ok v ↔ Denotes text.toList v := by
  rw [← read?_eq_some_iff, parse]
  cases read? text.toList <;> simp

theorem kind_of_parse {text : String} {fault : Fault} (h : parse text = .error fault) :
    fault.kind = .immediate := by
  unfold parse at h
  split at h
  · cases h
  · cases h
    rfl

theorem Denotes.natAbs_le (h : Denotes cs v) : v.natAbs ≤ 2 ^ 63 - 1 := by
  cases h with
  | plain h hm => exact hm
  | minus h hm =>
    rw [Int.natAbs_neg]
    exact hm

end Literal

/-- A text is a literal exactly if the grammar says so, with the number that the grammar gives;
every other text is refused with an error about an immediate.  Numbers and their opposites stay in
the range of signed 64-bit numbers, bytes are never cut off inside of a character, and every number
in that range is the literal that it is written as, apart from the least one. -/
theorem literals_follow_grammar (text : String) :
    (∀ v, Literal.parse text = .ok v ↔ Literal.Denotes text.toList v) ∧
    ((∀ v, ¬ Literal.Denotes text.toList v) ↔
      ∃ fault, Literal.parse text = .error fault ∧ fault.kind = .immediate) ∧
    (∀ v, Literal.parse text = .ok v → v.natAbs ≤ 2 ^ 63 - 1) ∧
    (∀ mark ∈ Literal.marks, ∀ bytes,
      Text.utf8 (Literal.sign text.toList).2 = Text.utf8 mark.1.toList ++ bytes →
        ∃ digits, Literal.base (Literal.sign text.toList).2 = (mark.2, digits) ∧
          bytes = Text.utf8 digits) ∧
    ∀ n : Int, n.natAbs ≤ 2 ^ 63 - 1 → Literal.parse (Text.decimal n) = .ok n := by
  refine ⟨fun v => Literal.parse_eq_ok_iff, ⟨?_, ?_⟩, ?_, ?_, ?_⟩
  · intro h
    cases hp : Literal.parse text with
    | ok v => exact absurd (Literal.parse_eq_ok_iff.mp hp) (h v)
    | error fault => exact ⟨fault, rfl, Literal.kind_of_parse hp⟩
  · rintro ⟨fault, hf, -⟩ v hv
    rw [Literal.parse_eq_ok_iff.mpr hv] at hf
    cases hf
  · exact fun v h => (Literal.parse_eq_ok_iff.mp h).natAbs_le
  · exact fun mark hm bytes h => Literal.base_of_utf8 hm h
  · exact fun n hn => Literal.parse_decimal hn

/-- The sign counts only after the digits have been read, so the least number is too large. -/
example : Literal.parse "-9223372036854775808" = .error (.notLiteral "-9223372036854775808") := by
  cbv

end Risc16
