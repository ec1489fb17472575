import Mathlib.Data.List.Forall2
import Mathlib.Data.Nat.Digits.Defs
import Risc16.Proofs.Diagnosis
import Risc16.Proofs.LiteralGrammar
import Risc16.Proofs.WordFile

/-! # Word files that others have written

A word file is accepted exactly if each line is blank or has sixteen binary digits between blanks.
Its words are decoded in order, and an error names the first line that is neither.  Decoding ignores
the bits that an operation has no use for, so a file that is written again may differ from the one
that was read, but only in those bits: they are clear in the new file.
-/
namespace Risc16

/-- The bits of a word that an operation has no use for. -/
def Opcode.ignores (op : Opcode) (i : Nat) : Bool :=
  match op with
  | add | nand => 3 ≤ i && i ≤ 6
  | jalr => i ≤ 6
  | addi | lui | sw | lw | beq => false

namespace Instr

theorem opcode_decode (w : Word) : (decode w).opcode = Opcode.ofBits (w.extractLsb' 13 3) := by
  unfold decode
  split <;> rename_i h <;> exact h.symm

/-- A field that was cut out of a word fits below the part of the word that was above it. -/
theorem getLsbD_append_field {w : Word} {m : Nat} {high : BitVec m} (start width : Nat)
    (h : ∀ i, high.getLsbD i = w.getLsbD (start + width + i)) (i : Nat) :
    (high ++ w.extractLsb' start width).getLsbD i = w.getLsbD (start + i) := by
  rw [BitVec.getLsbD_append]
  by_cases hi : i < width
  · simp [hi]
  · rw [if_neg hi, h]
    congr 1
    omega

theorem getLsbD_bits {op : Opcode} {w : Word} (h : op.bits = w.extractLsb' 13 3) (i : Nat) :
    op.bits.getLsbD i = w.getLsbD (13 + i) := by
  rw [h, BitVec.getLsbD_extractLsb']
  by_cases hi : i < 3
  · simp [hi]
  · rw [BitVec.getLsbD_of_ge w (13 + i) (by omega), Bool.and_false]

theorem getLsbD_shortWord {op : Opcode} {w : Word} (h : op.bits = w.extractLsb' 13 3)
    (low : BitVec 7) (i : Nat) :
    (shortWord op (regAt w 10) (regAt w 7) low).getLsbD i =
      if i < 7 then low.getLsbD i else w.getLsbD i := by
  have hra := getLsbD_append_field 10 3 (getLsbD_bits h)
  have hrb := getLsbD_append_field 7 3 hra
  rw [shortWord, BitVec.getLsbD_append]
  by_cases hi : i < 7
  · rw [if_pos hi, if_pos hi]
  · rw [if_neg hi, if_neg hi]
    refine (hrb (i - 7)).trans ?_
    congr 1
    omega

theorem getLsbD_longWord {op : Opcode} {w : Word} (h : op.bits = w.extractLsb' 13 3)
    (low : BitVec 10) (i : Nat) :
    (longWord op (regAt w 10) low).getLsbD i =
      if i < 10 then low.getLsbD i else w.getLsbD i := by
  have hra := getLsbD_append_field 10 3 (getLsbD_bits h)
  rw [longWord, BitVec.getLsbD_append]
  by_cases hi : i < 10
  · rw [if_pos hi, if_pos hi]
  · rw [if_neg hi, if_neg hi]
    refine (hra (i - 10)).trans ?_
    congr 1
    omega

/-- A word that is decoded and encoded again has lost the bits without a use, and no others. -/
theorem getLsbD_encode_decode (w : Word) (i : Nat) :
    (decode w).encode.getLsbD i = (w.getLsbD i && !(decode w).opcode.ignores i) := by
  have hbits := Opcode.bits_ofBits (w.extractLsb' 13 3)
  rw [opcode_decode]
  cases hop : Opcode.ofBits (w.extractLsb' 13 3) with
  | add | nand =>
    rw [hop] at hbits
    simp only [decode, hop, encode, getLsbD_shortWord hbits, Opcode.ignores]
    by_cases hi : i < 7
    · rw [if_pos hi, BitVec.getLsbD_append]
      by_cases hrc : i < 3
      · have hused : ¬ 3 ≤ i := by omega
        simp [hrc, hused, regAt]
      · have hunused : 3 ≤ i ∧ i ≤ 6 := by omega
        simp [hrc, hunused]
    · have hused : ¬ i ≤ 6 := by omega
      simp [hi, hused]
  | addi | sw | lw | beq =>
    rw [hop] at hbits
    simp only [decode, hop, encode, getLsbD_shortWord hbits, Opcode.ignores]
    by_cases hi : i < 7
    · simp [hi, SignedImm.ofWord]
    · simp [hi]
  | lui =>
    rw [hop] at hbits
    simp only [decode, hop, encode, getLsbD_longWord hbits, Opcode.ignores]
    by_cases hi : i < 10
    · simp [hi, LongImm.ofWord]
    · simp [hi]
  | jalr =>
    rw [hop] at hbits
    simp only [decode, hop, encode, getLsbD_shortWord hbits, Opcode.ignores]
    by_cases hi : i < 7
    · have hunused : i ≤ 6 := by omega
      simp [hi, hunused]
    · have hused : ¬ i ≤ 6 := by omega
      simp [hi, hused]

end Instr

namespace Text

variable {base n : Nat} {cs ds : List Char}

theorem eq_map_digitChar (hb : base ≤ 10) {values : List Nat}
    (h : List.Forall₂ (IsDigit base) cs values) :
    cs = values.map Nat.digitChar ∧ ∀ d ∈ values, d < base := by
  have hupper : ∀ d < 10, d.digitChar.toUpper = d.digitChar := by decide
  induction h with
  | nil => simp
  | cons hd _ ih =>
    obtain ⟨hlt, hc⟩ := hd
    rw [hupper _ (by omega), or_self] at hc
    rw [List.map_cons, ← ih.1, hc]
    exact ⟨rfl, List.forall_mem_cons.mpr ⟨hlt, ih.2⟩⟩

theorem IsNumeral.lt (hb : 1 < base) (hten : base ≤ 10) (h : IsNumeral base cs n) :
    n < base ^ cs.length := by
  obtain ⟨-, values, hall, rfl⟩ := h
  rw [hall.length_eq, ← List.length_reverse]
  apply Nat.ofDigits_lt_base_pow_length hb
  intro d hd
  exact (eq_map_digitChar hten hall).2 d (List.mem_reverse.mp hd)

theorem IsNumeral.unique (hb : 1 < base) (hten : base ≤ 10) (hc : IsNumeral base cs n)
    (hd : IsNumeral base ds n) (hl : cs.length = ds.length) : cs = ds := by
  obtain ⟨-, values, hall, hvalue⟩ := hc
  obtain ⟨-, others, hall', hvalue'⟩ := hd
  obtain ⟨hcs, hlt⟩ := eq_map_digitChar hten hall
  obtain ⟨hds, hlt'⟩ := eq_map_digitChar hten hall'
  have hlen : values.reverse.length = others.reverse.length := by
    rw [List.length_reverse, List.length_reverse, ← hall.length_eq, ← hall'.length_eq, hl]
  have heq : values.reverse = others.reverse :=
    Nat.ofDigits_inj_of_len_eq hb hlen (fun d hd => hlt d (List.mem_reverse.mp hd))
      (fun d hd => hlt' d (List.mem_reverse.mp hd)) (hvalue.symm.trans hvalue')
  rw [hcs, hds, List.reverse_inj.mp heq]

end Text

theorem exists_of_forall₂ {α β : Type} {R : α → β → Prop} {as : List α} {bs : List β}
    (h : List.Forall₂ R as bs) {k : Nat} {a : α} (ha : as[k]? = some a) :
    ∃ b, bs[k]? = some b ∧ R a b := by
  induction h generalizing k with
  | nil => cases ha
  | cons hr _ ih =>
    cases k with
    | zero =>
      cases ha
      exact ⟨_, rfl, hr⟩
    | succ k => exact ih ha

namespace WordFile

/-- Sixteen characters, each of them `0` or `1`. -/
def IsWord (text : String) : Prop := text.length = 16 ∧ ∀ c ∈ text.toList, c = '0' ∨ c = '1'

def isBlank (line : String) : Bool := line.toList.all Text.isBlank

/-- A line with one word and nothing else but blanks around it. -/
structure Holds (line word : String) : Prop where
  isWord : IsWord word
  around : ∃ lead trail, line.toList = lead ++ (word.toList ++ trail) ∧
    (∀ c ∈ lead, Text.isBlank c = true) ∧ ∀ c ∈ trail, Text.isBlank c = true

variable {text line word : String} {w : Word} {fault : Fault} {e : Error}

theorem isBlank_eq_true_iff : isBlank line = true ↔ trim line = "" := by
  rw [isBlank, List.all_eq_true]
  constructor
  · intro h
    have ht : Text.trim (line.toList ++ ([] ++ [])) = [] := Text.trim_between h (by simp) (by simp)
    rw [List.append_nil, List.append_nil] at ht
    rw [trim, ht]
  · intro h c hc
    obtain ⟨lead, trail, hs, hlead, htrail⟩ := Text.exists_trim line.toList
    have hnil : Text.trim line.toList = [] := by simpa [trim] using h
    rw [hs, hnil, List.nil_append] at hc
    exact (List.mem_append.mp hc).elim (hlead c) (htrail c)

theorem holds_iff : Holds line word ↔ IsWord word ∧ trim line = word := by
  constructor
  · rintro ⟨hw, lead, trail, hs, hlead, htrail⟩
    have hsolid : ∀ c ∈ word.toList, Text.isBlank c = false := fun c hc =>
      Text.isBlank_of_binary (hw.2 c hc)
    refine ⟨hw, ?_⟩
    rw [trim, hs, Text.trim_between hlead hsolid htrail, String.ofList_toList]
  · rintro ⟨hw, rfl⟩
    obtain ⟨lead, trail, hs, hlead, htrail⟩ := Text.exists_trim line.toList
    refine ⟨hw, lead, trail, ?_, hlead, htrail⟩
    rwa [trim, String.toList_ofList]

theorem exists_holds_iff : (∃ word, Holds line word) ↔ IsWord (trim line) := by
  simp [holds_iff]

theorem isWord_renderWord (w : Word) : IsWord (renderWord w) :=
  ⟨length_renderWord w, fun _ hc => Text.mem_binary hc⟩

theorem parseWord_of_numeral {n : Nat} (hn : Text.numeral? 2 text.toList = some n)
    (hl : text.length = 16) : parseWord text = .ok (BitVec.ofNat 16 n) := by
  simp only [parseWord, hn, if_pos hl]

/-- Only the digits that a word is written with are read as that word. -/
theorem parseWord_eq_ok_iff : parseWord text = .ok w ↔ text = renderWord w := by
  constructor
  · intro h
    unfold parseWord at h
    split at h
    next n hn =>
      split at h
      next hl =>
        cases h
        have hnum : Text.IsNumeral 2 text.toList n := (Text.numeral?_eq_some_iff (by decide)).mp hn
        have hlt : n < 2 ^ 16 := by
          have hpow := hnum.lt (by decide) (by decide)
          rwa [String.length_toList, hl] at hpow
        have hword := numeral?_renderWord (BitVec.ofNat 16 n)
        rw [BitVec.toNat_ofNat, Nat.mod_eq_of_lt hlt, Text.numeral?_eq_some_iff (by decide)] at hword
        apply String.toList_inj.mp
        apply hnum.unique (by decide) (by decide) hword
        rw [String.length_toList, String.length_toList, hl, length_renderWord]
      · cases h
    · cases h
  · rintro rfl
    exact parseWord_renderWord w

theorem exists_parseWord_iff : (∃ w, parseWord text = .ok w) ↔ IsWord text := by
  constructor
  · rintro ⟨w, h⟩
    rw [parseWord_eq_ok_iff.mp h]
    exact isWord_renderWord w
  · rintro ⟨hl, hc⟩
    have hne : text.toList ≠ [] := by
      apply List.ne_nil_of_length_pos
      rw [String.length_toList, hl]
      decide
    have hdigit : ∀ c ∈ text.toList, ∃ d, Text.digit? 2 c = some d := by
      intro c h
      rcases hc c h with rfl | rfl
      · exact ⟨0, rfl⟩
      · exact ⟨1, rfl⟩
    obtain ⟨n, hn⟩ := Text.exists_numeral? hne hdigit
    exact ⟨_, parseWord_of_numeral hn hl⟩

theorem parseWord_eq_error_iff :
    parseWord text = .error fault ↔ ¬ IsWord text ∧ fault = .malformedWord text := by
  have hfault {other : Fault} (h : parseWord text = .error other) :
      other = .malformedWord text := by
    unfold parseWord at h
    split at h
    · split at h
      · cases h
      · exact (Except.error.inj h).symm
    · exact (Except.error.inj h).symm
  rw [← exists_parseWord_iff]
  cases hp : parseWord text with
  | ok w => simp
  | error other => simp [hfault hp, eq_comm]

/-- What is read of a line, if the first line has this number: no word if it is blank. -/
def readAfter (number : Nat) (before : List String) (line : String) :
    Except Error (Option Word) :=
  if trim line = "" then .ok none
  else some <$> located (before.length + number) (parseWord (trim line))

variable {number : Nat} {before lines : List String} {found : Option Word}

theorem readAfter_cons (number : Nat) (line : String) :
    (fun before => readAfter number (line :: before)) = readAfter (number + 1) := by
  funext before other
  rw [readAfter, readAfter, List.length_cons, Nat.add_assoc, Nat.add_comm 1]

theorem readAfter_eq_ok_iff : readAfter number before line = .ok found ↔
    (trim line = "" ∧ found = none) ∨ ∃ w, trim line = renderWord w ∧ found = some w := by
  unfold readAfter
  by_cases hb : trim line = ""
  · simp [hb, (renderWord_ne_empty _).symm, eq_comm]
  · simp only [hb, if_false, false_and, false_or, map_eq_ok_iff, located_eq_ok_iff,
      parseWord_eq_ok_iff, eq_comm (a := found)]

theorem exists_readAfter_iff : (∃ found, readAfter number before line = .ok found) ↔
    isBlank line = true ∨ ∃ word, Holds line word := by
  simp only [readAfter_eq_ok_iff, isBlank_eq_true_iff, exists_holds_iff, ← exists_parseWord_iff,
    parseWord_eq_ok_iff]
  constructor
  · rintro ⟨found, hb | ⟨w, hw, -⟩⟩
    · exact .inl hb.1
    · exact .inr ⟨w, hw⟩
  · rintro (hb | ⟨w, hw⟩)
    · exact ⟨none, .inl ⟨hb, rfl⟩⟩
    · exact ⟨some w, .inr ⟨w, hw, rfl⟩⟩

theorem readAfter_eq_error (h : readAfter number before line = .error e) :
    isBlank line = false ∧ (∀ word, ¬ Holds line word) ∧
      e = (Fault.malformedWord (trim line)).onLine (before.length + number) := by
  unfold readAfter at h
  split at h
  · cases h
  next hb =>
    rw [map_eq_error_iff] at h
    cases hp : parseWord (trim line) with
    | ok w =>
      rw [hp] at h
      cases h
    | error fault =>
      obtain ⟨hw, rfl⟩ := parseWord_eq_error_iff.mp hp
      rw [hp] at h
      refine ⟨Bool.eq_false_iff.mpr (mt isBlank_eq_true_iff.mp hb), ?_,
        (Except.error.inj h).symm⟩
      exact not_exists.mp (mt exists_holds_iff.mp hw)

/-- The number of a line counts all lines before it, also the blank ones. -/
theorem decodeFrom_eq_checkAll (number : Nat) (lines : List String) :
    decodeFrom number lines = (fun found => (found.filterMap id).map Instr.decode) <$>
      checkAll (readAfter number) lines := by
  induction lines generalizing number with
  | nil => rfl
  | cons line rest ih =>
    rw [decodeFrom, checkAll, readAfter_cons, ih]
    by_cases hb : trim line = ""
    · have hr : readAfter number [] line = .ok none := readAfter_eq_ok_iff.mpr (.inl ⟨hb, rfl⟩)
      rw [if_pos hb, hr]
      cases checkAll (readAfter (number + 1)) rest <;> rfl
    · have hr : readAfter number [] line = some <$> located number (parseWord (trim line)) := by
        rw [readAfter, if_neg hb, List.length_nil, Nat.zero_add]
      rw [if_neg hb, hr, decodeWord]
      cases parseWord (trim line) with
      | error fault => rfl
      | ok w => cases checkAll (readAfter (number + 1)) rest <;> rfl

theorem holds_of_checkAll {found : List (Option Word)}
    (h : checkAll (readAfter number) lines = .ok found) :
    List.Forall₂ (fun line w => Holds line (renderWord w)) (lines.filter (!isBlank ·))
      (found.filterMap id) := by
  induction lines generalizing number found with
  | nil =>
    cases h
    exact .nil
  | cons line rest ih =>
    rw [checkAll, readAfter_cons] at h
    simp only [bind_eq_ok_iff] at h
    obtain ⟨first, hfirst, later, hlater, ⟨⟩⟩ := h
    rcases readAfter_eq_ok_iff.mp hfirst with ⟨hb, rfl⟩ | ⟨w, hw, rfl⟩
    · rw [List.filter_cons_of_neg (by simp [isBlank_eq_true_iff.mpr hb]),
        List.filterMap_cons_none rfl]
      exact ih hlater
    · have hb : isBlank line ≠ true := by
        rw [Ne, isBlank_eq_true_iff, hw]
        exact renderWord_ne_empty w
      rw [List.filter_cons_of_pos (by simp [hb]), List.filterMap_cons_some (f := id) rfl]
      exact .cons (holds_iff.mpr ⟨isWord_renderWord w, hw⟩) (ih hlater)

theorem exists_words_of_disassemble {instrs : List Instr} (h : disassemble text = .ok instrs) :
    ∃ ws : List Word, List.Forall₂ (fun line w => Holds line (renderWord w))
      ((Text.lines text).filter (!isBlank ·)) ws ∧ instrs = ws.map Instr.decode := by
  rw [disassemble, decodeFrom_eq_checkAll, map_eq_ok_iff] at h
  obtain ⟨found, hc, rfl⟩ := h
  exact ⟨found.filterMap id, holds_of_checkAll hc, rfl⟩

theorem first_malformed_of_disassemble (h : disassemble text = .error e) :
    ∃ (k : Nat) (line : String), (Text.lines text)[k]? = some line ∧ isBlank line = false ∧
      (∀ word, ¬ Holds line word) ∧ e = (Fault.malformedWord (trim line)).onLine (k + 1) ∧
      ∀ j < k, ∀ other, (Text.lines text)[j]? = some other →
        isBlank other = true ∨ ∃ word, Holds other word := by
  rw [disassemble, decodeFrom_eq_checkAll, map_eq_error_iff, checkAll_eq_error_iff] at h
  obtain ⟨k, ⟨line, hk, he⟩, hpassed⟩ := h
  obtain ⟨hne, hw, rfl⟩ := readAfter_eq_error he
  have hlen : ((Text.lines text).take k).length = k := by
    rw [List.length_take, Nat.min_eq_left (Nat.le_of_lt (List.getElem?_eq_some_iff.mp hk).1)]
  refine ⟨k, line, hk, hne, hw, by rw [hlen], ?_⟩
  intro j hj other ho
  exact exists_readAfter_iff.mp (hpassed j hj other ho)

theorem exists_disassemble_iff : (∃ instrs, disassemble text = .ok instrs) ↔
    ∀ line ∈ Text.lines text, isBlank line = true ∨ ∃ word, Holds line word := by
  constructor
  · rintro ⟨instrs, h⟩ line hl
    obtain ⟨ws, hws, -⟩ := exists_words_of_disassemble h
    by_cases hb : isBlank line = true
    · exact .inl hb
    · have hm : line ∈ (Text.lines text).filter (!isBlank ·) :=
        List.mem_filter.mpr ⟨hl, by simpa using hb⟩
      obtain ⟨k, hk⟩ := List.mem_iff_getElem?.mp hm
      obtain ⟨w, -, hw⟩ := exists_of_forall₂ hws hk
      exact .inr ⟨renderWord w, hw⟩
  · intro h
    cases hd : disassemble text with
    | ok instrs => exact ⟨instrs, rfl⟩
    | error e =>
      obtain ⟨k, line, hk, hne, hw, -, -⟩ := first_malformed_of_disassemble hd
      rcases h line (List.mem_of_getElem? hk) with hb | ⟨word, hword⟩
      · rw [hne] at hb
        cases hb
      · exact absurd hword (hw word)

end WordFile

/-- A word file is accepted exactly if every line that is not blank has sixteen binary digits
between blanks.  If it is not, the error has the number of the first line that has not.  If it is,
each such line is decoded in order, and writing the instructions again gives a file of the same
instructions, whose words have the bits of the old ones except those without a use, which are
clear. -/
theorem disassemble_decodes_each_word (text : String) :
    ((∃ instrs, WordFile.disassemble text = .ok instrs) ↔
      ∀ line ∈ Text.lines text, WordFile.isBlank line = true ∨ ∃ word, WordFile.Holds line word) ∧
    (∀ e, WordFile.disassemble text = .error e → e.kind = .input ∧
      ∃ (k : Nat) (line : String), e.line = some (k + 1) ∧ (Text.lines text)[k]? = some line ∧
        WordFile.isBlank line = false ∧ (∀ word, ¬ WordFile.Holds line word) ∧
        ∀ j < k, ∀ other, (Text.lines text)[j]? = some other →
          WordFile.isBlank other = true ∨ ∃ word, WordFile.Holds other word) ∧
    ∀ instrs, WordFile.disassemble text = .ok instrs → ∃ ws : List Word,
      List.Forall₂ (fun line w => WordFile.Holds line (WordFile.renderWord w))
        ((Text.lines text).filter (!WordFile.isBlank ·)) ws ∧
      instrs = ws.map Instr.decode ∧
      WordFile.disassemble (WordFile.render (instrs.map Instr.encode)) = .ok instrs ∧
      ∀ (k : Nat) (w : Word) (instr : Instr), ws[k]? = some w → instrs[k]? = some instr →
        ∀ i, instr.encode.getLsbD i = (w.getLsbD i && !instr.opcode.ignores i) := by
  refine ⟨WordFile.exists_disassemble_iff, ?_, ?_⟩
  · intro e h
    obtain ⟨k, line, hk, hne, hw, rfl, hfirst⟩ := WordFile.first_malformed_of_disassemble h
    exact ⟨rfl, k, line, rfl, hk, hne, hw, hfirst⟩
  · intro instrs h
    obtain ⟨ws, hws, rfl⟩ := WordFile.exists_words_of_disassemble h
    refine ⟨ws, hws, rfl, ?_, ?_⟩
    · rw [WordFile.disassemble_render, List.map_map, List.map_map]
      simp [Function.comp_def]
    · intro k w instr hw hi
      rw [List.getElem?_map, hw] at hi
      cases hi
      exact Instr.getLsbD_encode_decode w

/-- Four bits of an `add` are cleared, and the third register below them stays. -/
example : (Instr.decode 0b0000010101111011).encode = 0b0000010100000011 := by
  decide

end Risc16
