import Risc16.Asm.Program
import Risc16.Proofs.Numeral
import Risc16.Proofs.Token

/-! # Word files that were written and read back

The file of a list of instructions has one line of sixteen binary digits for each of them.  Reading
it gives the same instructions in the same order: no line is skipped, no blank is found in it, and
each word is decoded to the instruction that it was made from.
-/
namespace Risc16

namespace Text

theorem trim_eq_self {cs : List Char} (h : ∀ c ∈ cs, isBlank c = false) : trim cs = cs := by
  have ht : trim ([] ++ (cs ++ [])) = cs := trim_between (by simp) h (by simp)
  rwa [List.append_nil, List.nil_append] at ht

theorem exists_digitChar_of_mem {base n : Nat} (hb : 1 < base) {c : Char}
    (h : c ∈ Nat.toDigits base n) : ∃ d < base, d.digitChar = c := by
  induction n using Nat.strongRecOn with
  | ind n ih =>
    rw [Nat.toDigits_eq_if hb] at h
    split at h
    next hn => exact ⟨n, hn, (List.mem_singleton.mp h).symm⟩
    next hn =>
      rcases List.mem_append.mp h with hq | hr
      · exact ih (n / base) (Nat.div_lt_self (by omega) hb) hq
      · exact ⟨n % base, Nat.mod_lt n (by omega), (List.mem_singleton.mp hr).symm⟩

theorem mem_binary {width n : Nat} {c : Char} (h : c ∈ (binary width n).toList) :
    c = '0' ∨ c = '1' := by
  rw [binary, String.toList_ofList, List.leftpad, List.mem_append] at h
  rcases h with hz | hd
  · exact .inl (List.eq_of_mem_replicate hz)
  · obtain ⟨d, hlt, rfl⟩ := exists_digitChar_of_mem (by decide) hd
    obtain rfl | rfl : d = 0 ∨ d = 1 := by omega
    · exact .inl rfl
    · exact .inr rfl

theorem isBlank_of_binary {c : Char} (h : c = '0' ∨ c = '1') : isBlank c = false := by
  rcases h with rfl | rfl
  · rfl
  · rfl

theorem length_binary {width n : Nat} (hw : 0 < width) (hn : n < 2 ^ width) :
    (binary width n).length = width := by
  have hl : (Nat.toDigits 2 n).length ≤ width :=
    (Nat.length_toDigits_le_iff (by decide) hw).mpr hn
  rw [binary, String.length_ofList, List.length_leftpad]
  omega

end Text

namespace WordFile

theorem length_renderWord (w : Word) : (renderWord w).length = 16 :=
  Text.length_binary (by decide) w.isLt

theorem trim_renderWord (w : Word) : trim (renderWord w) = renderWord w := by
  have hb : ∀ c ∈ (renderWord w).toList, Text.isBlank c = false := fun c hc =>
    Text.isBlank_of_binary (Text.mem_binary hc)
  rw [trim, Text.trim_eq_self hb, String.ofList_toList]

theorem numeral?_renderWord (w : Word) :
    Text.numeral? 2 (renderWord w).toList = some w.toNat := by
  rw [renderWord, Text.binary, String.toList_ofList]
  exact Text.numeral?_leftpad (by decide) (by decide) 16 w.toNat

theorem parseWord_renderWord (w : Word) : parseWord (renderWord w) = .ok w := by
  simp [parseWord, numeral?_renderWord, length_renderWord]

theorem renderWord_ne_empty (w : Word) : renderWord w ≠ "" := by
  intro h
  have hl := length_renderWord w
  rw [h] at hl
  exact absurd hl (by decide)

theorem not_mem_renderWord {c : Char} (h₀ : c ≠ '0') (h₁ : c ≠ '1') (w : Word) :
    c ∉ (renderWord w).toList := by
  intro hc
  rcases Text.mem_binary hc with h | h
  · exact h₀ h
  · exact h₁ h

theorem lines_render (words : List Word) :
    Text.lines (render words) = words.map renderWord := by
  have hr : ∀ row ∈ words.map renderWord, '\n' ∉ row.toList ∧ '\r' ∉ row.toList := by
    intro row hrow
    obtain ⟨w, -, rfl⟩ := List.mem_map.mp hrow
    exact ⟨not_mem_renderWord (by decide) (by decide) w,
      not_mem_renderWord (by decide) (by decide) w⟩
  have hj := Text.lines_join hr
  rwa [List.map_map] at hj

/-- Every written word is read, at whatever line the reading begins. -/
theorem decodeFrom_map_renderWord (number : Nat) (words : List Word) :
    decodeFrom number (words.map renderWord) = .ok (words.map Instr.decode) := by
  induction words generalizing number with
  | nil => rfl
  | cons w words ih =>
    have hd : decodeWord (trim (renderWord w)) = .ok (Instr.decode w) := by
      rw [trim_renderWord, decodeWord, parseWord_renderWord]
      rfl
    have he : trim (renderWord w) ≠ "" := by
      rw [trim_renderWord]
      exact renderWord_ne_empty w
    rw [List.map_cons, decodeFrom, if_neg he, hd]
    simp only [ih]
    rfl

theorem disassemble_render (words : List Word) :
    disassemble (render words) = .ok (words.map Instr.decode) := by
  rw [disassemble, lines_render, decodeFrom_map_renderWord]

end WordFile

theorem Program.disassemble_text (p : Program) : WordFile.disassemble p.text = .ok p.instrs := by
  rw [Program.text, WordFile.disassemble_render, Program.words, List.map_map]
  simp [Function.comp_def]

/-- The file of any instructions has a line of sixteen binary digits for each of them, and reading
the file gives them back. -/
theorem disassemble_file_of_instrs (instrs : List Instr) :
    ∃ rows : List String, rows.length = instrs.length ∧
      WordFile.render (instrs.map Instr.encode) = String.join (rows.map (· ++ "\n")) ∧
      (∀ row ∈ rows, row.length = 16 ∧ ∀ c ∈ row.toList, c = '0' ∨ c = '1') ∧
      WordFile.disassemble (WordFile.render (instrs.map Instr.encode)) = .ok instrs := by
  refine ⟨instrs.map fun instr => WordFile.renderWord instr.encode, ?_, ?_, ?_, ?_⟩
  · rw [List.length_map]
  · rw [WordFile.render, List.map_map, List.map_map]
    rfl
  · intro row hrow
    obtain ⟨instr, -, rfl⟩ := List.mem_map.mp hrow
    exact ⟨WordFile.length_renderWord _, fun c hc => Text.mem_binary hc⟩
  · rw [WordFile.disassemble_render, List.map_map]
    simp [Function.comp_def]

end Risc16
