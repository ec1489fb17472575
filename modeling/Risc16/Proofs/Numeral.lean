import Risc16.Asm.Operand

/-! # Numerals that were written and read back

A number written in some base up to ten is read back digit by digit, also behind zeros that fill a
column, and a number below ten has no other decimal numerals.  A decimal numeral is a literal with
the same value, unless its magnitude is too large, and the name of a register is read as that
register.
-/
namespace Risc16

namespace Text

/-- The digits of a base up to sixteen are the decimal digits and the letters behind them, in either
case. -/
theorem digit?_eq_some_iff {base d : Nat} {c : Char} (hb : base ≤ 16) :
    digit? base c = some d ↔ d < base ∧ (c = d.digitChar ∨ c = d.digitChar.toUpper) := by
  constructor
  · intro h
    have hd : d < base := digit?_lt h
    have hcode : ∀ d < 16, (d < 10 → d.digitChar.toNat = d + 48) ∧
        (10 ≤ d → d.digitChar.toNat = d + 87 ∧ d.digitChar.toUpper.toNat = d + 55) := by
      decide
    obtain ⟨hdigit, hletter⟩ := hcode d (by omega)
    obtain ⟨hv, -⟩ := Option.filter_eq_some_iff.mp h
    simp only [digitValue?, Char.le_def, UInt32.le_iff_toNat_le] at hv
    change (if 48 ≤ c.toNat ∧ c.toNat ≤ 57 then some (c.toNat - 48)
      else if 97 ≤ c.toNat ∧ c.toNat ≤ 122 then some (c.toNat - 97 + 10)
      else if 65 ≤ c.toNat ∧ c.toNat ≤ 90 then some (c.toNat - 65 + 10) else none) = some d at hv
    refine ⟨hd, ?_⟩
    split at hv
    · have hc : c.toNat - 48 = d := Option.some.inj hv
      left
      apply Char.toNat_inj.mp
      rw [hdigit (by omega)]
      omega
    split at hv
    · have hc : c.toNat - 97 + 10 = d := Option.some.inj hv
      left
      apply Char.toNat_inj.mp
      rw [(hletter (by omega)).1]
      omega
    split at hv
    · have hc : c.toNat - 65 + 10 = d := Option.some.inj hv
      right
      apply Char.toNat_inj.mp
      rw [(hletter (by omega)).2]
      omega
    · cases hv
  · rintro ⟨hd, hc⟩
    have hvalue : ∀ d < 16, digitValue? d.digitChar = some d ∧
        digitValue? d.digitChar.toUpper = some d := by
      decide
    obtain ⟨hlower, hupper⟩ := hvalue d (by omega)
    rcases hc with rfl | rfl
    · simp [digit?, hlower, hd]
    · simp [digit?, hupper, hd]

theorem digit?_digitChar {base d : Nat} (hd : d < base) (hb : base ≤ 10) :
    digit? base d.digitChar = some d :=
  (digit?_eq_some_iff (by omega)).mpr ⟨hd, .inl rfl⟩

theorem readDigits_digitChar {base d : Nat} (hd : d < base) (hb : base ≤ 10) (n : Nat) :
    readDigits base n [d.digitChar] = some (base * n + d) := by
  simp [readDigits, digit?_digitChar hd hb]

theorem readDigits_toDigits {base : Nat} (h : 1 < base) (hb : base ≤ 10) (n : Nat) :
    readDigits base 0 (Nat.toDigits base n) = some n := by
  induction n using Nat.strongRecOn with
  | ind n ih =>
    rw [Nat.toDigits_eq_if h]
    split
    next hn => rw [readDigits_digitChar hn hb, Nat.mul_zero, Nat.zero_add]
    next hn =>
      have hq : n / base < n := Nat.div_lt_self (by omega) h
      have hr : n % base < base := Nat.mod_lt n (by omega)
      rw [readDigits_append, ih _ hq, Option.bind_some, readDigits_digitChar hr hb,
        Nat.div_add_mod]

theorem numeral?_of_ne_nil {cs : List Char} (h : cs ≠ []) (base : Nat) :
    numeral? base cs = readDigits base 0 cs := by
  cases cs with
  | nil => exact absurd rfl h
  | cons c cs => rfl

theorem exists_numeral? {base : Nat} {cs : List Char} (hne : cs ≠ [])
    (h : ∀ c ∈ cs, ∃ d, digit? base c = some d) : ∃ n, numeral? base cs = some n := by
  have hread (m : Nat) : ∃ n, readDigits base m cs = some n := by
    clear hne
    induction cs generalizing m with
    | nil => exact ⟨m, rfl⟩
    | cons c cs ih =>
      obtain ⟨d, hd⟩ := h c List.mem_cons_self
      simp only [readDigits, hd]
      exact ih (fun x hx => h x (List.mem_cons_of_mem c hx)) _
  rw [numeral?_of_ne_nil hne]
  exact hread 0

theorem numeral?_toDigits {base : Nat} (h : 1 < base) (hb : base ≤ 10) (n : Nat) :
    numeral? base (Nat.toDigits base n) = some n := by
  rw [numeral?_of_ne_nil Nat.toDigits_ne_nil, readDigits_toDigits h hb]

theorem readDigits_zeros {base : Nat} (h : 0 < base) (count : Nat) :
    readDigits base 0 (List.replicate count '0') = some 0 := by
  have hz : digit? base '0' = some 0 := by simp [digit?, digitValue?, h]
  induction count with
  | zero => rfl
  | succ count ih => simpa [List.replicate_succ, readDigits, hz] using ih

/-- Zeros in front do not change what a numeral says. -/
theorem numeral?_leftpad {base : Nat} (h : 1 < base) (hb : base ≤ 10) (width n : Nat) :
    numeral? base ((Nat.toDigits base n).leftpad width '0') = some n := by
  have hne : (Nat.toDigits base n).leftpad width '0' ≠ [] := by
    simp [List.leftpad, Nat.toDigits_ne_nil]
  rw [numeral?_of_ne_nil hne, List.leftpad, readDigits_append, readDigits_zeros (by omega),
    Option.bind_some, readDigits_toDigits h hb]

theorem digit?_ten_eq_some_iff {c : Char} {d : Nat} :
    digit? 10 c = some d ↔ d < 10 ∧ c = d.digitChar := by
  rw [digit?_eq_some_iff (by decide)]
  apply and_congr_right
  intro hd
  have hupper : ∀ d < 10, d.digitChar.toUpper = d.digitChar := by decide
  rw [hupper d hd, or_self]

/-- Further digits never make a number smaller, and the first of them multiplies it by the base. -/
theorem le_of_readDigits {base n m : Nat} {cs : List Char} (hb : 0 < base)
    (h : readDigits base n cs = some m) : n ≤ m ∧ (cs ≠ [] → base * n ≤ m) := by
  induction cs generalizing n with
  | nil =>
    cases h
    exact ⟨Nat.le_refl _, fun hne => absurd rfl hne⟩
  | cons c cs ih =>
    simp only [readDigits] at h
    split at h
    next d hd =>
      have hle : base * n + d ≤ m := (ih h).1
      have hmul : n ≤ base * n := Nat.le_mul_of_pos_left n hb
      exact ⟨by omega, fun _ => by omega⟩
    · cases h

/-- A decimal numeral of a number below ten is that digit behind zeros. -/
theorem numeral?_ten_eq_some_iff {cs : List Char} {n : Nat} (hn : n < 10) :
    numeral? 10 cs = some n ↔ ∃ count, cs = List.replicate count '0' ++ [n.digitChar] := by
  constructor
  · intro h
    induction cs with
    | nil => cases h
    | cons c cs ih =>
      change readDigits 10 0 (c :: cs) = some n at h
      simp only [readDigits] at h
      split at h
      next d hd =>
        rw [Nat.mul_zero, Nat.zero_add] at h
        obtain ⟨-, rfl⟩ := digit?_ten_eq_some_iff.mp hd
        cases cs with
        | nil =>
          cases h
          exact ⟨0, rfl⟩
        | cons c cs =>
          -- A digit that is not the last counts ten times, so it is zero.
          have hd0 : d = 0 := by
            have hle := (le_of_readDigits (by decide) h).2 (List.cons_ne_nil c cs)
            omega
          subst hd0
          obtain ⟨count, hc⟩ := ih h
          refine ⟨count + 1, ?_⟩
          rw [hc, List.replicate_succ]
          rfl
      · cases h
  · rintro ⟨count, rfl⟩
    rw [numeral?_of_ne_nil (by simp), readDigits_append, readDigits_zeros (by decide),
      Option.bind_some, readDigits_digitChar hn (Nat.le_refl 10), Nat.mul_zero, Nat.zero_add]

theorem isDigit_of_mem_decimal {v : Int} {c : Char} (h : c ∈ (decimal v).toList) :
    c = '-' ∨ c.isDigit = true := by
  cases v with
  | ofNat n =>
    rw [decimal, Nat.toList_repr] at h
    exact .inr (Nat.isDigit_of_mem_toDigits (by decide) (by decide) h)
  | negSucc n =>
    rw [decimal, String.toList_append, Nat.toList_repr, List.mem_append] at h
    rcases h with h | h
    · exact .inl (by simpa using h)
    · exact .inr (Nat.isDigit_of_mem_toDigits (by decide) (by decide) h)

end Text

namespace Literal

theorem sign_of_isDigit {cs : List Char} (h : ∀ c ∈ cs, c.isDigit = true) :
    sign cs = (false, cs) := by
  unfold sign
  split
  · have hm := h '-' (by simp)
    simp at hm
  · rfl

theorem base_of_isDigit {cs : List Char} (h : ∀ c ∈ cs, c.isDigit = true) :
    base cs = (10, cs) := by
  unfold base
  split
  case h_7 => rfl
  all_goals
    simp only [List.mem_cons, forall_eq_or_imp] at h
    exact absurd h.2.1 (by decide)

theorem base_toDigits (n : Nat) : base (Nat.toDigits 10 n) = (10, Nat.toDigits 10 n) :=
  base_of_isDigit fun _ hc => Nat.isDigit_of_mem_toDigits (by decide) (by decide) hc

theorem sign_toDigits (n : Nat) : sign (Nat.toDigits 10 n) = (false, Nat.toDigits 10 n) :=
  sign_of_isDigit fun _ hc => Nat.isDigit_of_mem_toDigits (by decide) (by decide) hc

/-- A decimal numeral is a literal exactly when its magnitude is small enough. -/
theorem read?_decimal (v : Int) :
    read? (Text.decimal v).toList = if v.natAbs ≤ greatest then some v else none := by
  cases v with
  | ofNat n =>
    rw [Text.decimal, Nat.toList_repr, read?, sign_toDigits]
    simp only [base_toDigits, Text.numeral?_toDigits (by decide : 1 < 10) (Nat.le_refl 10)]
    simp
  | negSucc n =>
    have hs : sign ('-' :: Nat.toDigits 10 (n + 1)) = (true, Nat.toDigits 10 (n + 1)) := rfl
    rw [Text.decimal, String.toList_append, Nat.toList_repr]
    change read? ('-' :: Nat.toDigits 10 (n + 1)) = _
    rw [read?, hs]
    simp only [base_toDigits, Text.numeral?_toDigits (by decide : 1 < 10) (Nat.le_refl 10)]
    rfl

theorem parse_decimal {v : Int} (h : v.natAbs ≤ greatest) :
    parse (Text.decimal v) = .ok v := by
  simp [parse, read?_decimal, h]

theorem parse_decimal_of_lt {v : Int} (h : greatest < v.natAbs) :
    parse (Text.decimal v) = .error (.notLiteral (Text.decimal v)) := by
  simp [parse, read?_decimal, Nat.not_le.mpr h]

end Literal

namespace Operand

theorem parseRegister_text (reg : Reg) : parseRegister reg.text = .ok reg := by
  have hl : reg.text.toList = 'r' :: Nat.toDigits 10 reg.index := by
    rw [Reg.text, String.toList_append]
    change _ ++ (Nat.repr reg.index).toList = _
    rw [Nat.toList_repr]
    rfl
  simp only [parseRegister, hl, Text.numeral?_toDigits (by decide : 1 < 10) (Nat.le_refl 10),
    Reg.ofIndex?_index]

variable {operands : List String} {index : Nat} {v : Int}

theorem register_text {reg : Reg} (ho : operands[index]? = some reg.text) :
    register operands index = .ok reg := by
  simp only [register, ho, parseRegister_text]

theorem number_decimal (ho : operands[index]? = some (Text.decimal v))
    (hv : v.natAbs ≤ Literal.greatest) : number operands index = .ok v := by
  simp only [number, ho, Literal.parse_decimal hv]

theorem signedImm_of_number (h : number operands index = .ok v) :
    signedImm operands index = match SignedImm.ofInt? v with
      | some imm => .ok imm
      | none => .error (.signedOutOfRange v) := by
  rw [signedImm, h]
  rfl

theorem signedImm_decimal {imm : SignedImm} (ho : operands[index]? = some (Text.decimal imm.value)) :
    signedImm operands index = .ok imm := by
  have hl : SignedImm.least ≤ imm.value := imm.least_le_value
  have hg : imm.value ≤ SignedImm.greatest := imm.value_le_greatest
  have hv : imm.value.natAbs ≤ Literal.greatest := by
    simp only [SignedImm.least, SignedImm.greatest, Literal.greatest] at *
    omega
  rw [signedImm_of_number (number_decimal ho hv), SignedImm.ofInt?_value]

theorem longImm_of_number (h : number operands index = .ok v) :
    longImm operands index = match LongImm.ofInt? v with
      | some imm => .ok imm
      | none => .error (.longOutOfRange v) := by
  rw [longImm, h]
  rfl

theorem longImm_decimal {imm : LongImm} (ho : operands[index]? = some (Text.decimal imm.value)) :
    longImm operands index = .ok imm := by
  have hv : (imm.value : Int).natAbs ≤ Literal.greatest := by
    have hg := imm.value_le_greatest
    simp only [LongImm.greatest, Literal.greatest] at *
    omega
  rw [longImm_of_number (number_decimal ho hv), LongImm.ofInt?_value]

/-- A number outside of the field is refused, also when it is too large to be a literal. -/
theorem signedImm_decimal_of_none (ho : operands[index]? = some (Text.decimal v))
    (hv : SignedImm.ofInt? v = none) :
    ∃ fault, signedImm operands index = .error fault ∧ fault.kind = .immediate := by
  by_cases hg : v.natAbs ≤ Literal.greatest
  · refine ⟨.signedOutOfRange v, ?_, rfl⟩
    rw [signedImm_of_number (number_decimal ho hg), hv]
  · refine ⟨.notLiteral (Text.decimal v), ?_, rfl⟩
    have hn : number operands index = .error (.notLiteral (Text.decimal v)) := by
      simp only [number, ho, Literal.parse_decimal_of_lt (Nat.lt_of_not_le hg)]
    rw [signedImm, hn]
    rfl

end Operand

end Risc16
