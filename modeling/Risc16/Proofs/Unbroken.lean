import Risc16.Proofs.Rendering

/-! # Texts of one row

Reports are printed in rows, and a row ends with the only newline in it.  Styles, numerals, tokens,
instructions and words have no newline, nor has any line of a text.
-/
namespace Risc16

/-- A text that does not break a row in two. -/
def Text.Unbroken (text : String) : Prop := '\n' ∉ text.toList

namespace Text

instance (text : String) : Decidable (Unbroken text) := inferInstanceAs (Decidable ('\n' ∉ _))

@[simp] theorem unbroken_append {a b : String} : Unbroken (a ++ b) ↔ Unbroken a ∧ Unbroken b := by
  simp [Unbroken]

@[simp] theorem unbroken_padRight {width : Nat} {text : String} :
    Unbroken (padRight width text) ↔ Unbroken text := by
  simp [Unbroken, padRight, List.rightpad]

@[simp] theorem unbroken_padLeft {width : Nat} {text : String} :
    Unbroken (padLeft width text) ↔ Unbroken text := by
  simp [Unbroken, padLeft, List.leftpad]

theorem unbroken_change (before after : Style) : Unbroken (before.change after) := by
  have hcolour (colour : Option Colour) : Unbroken (escape (colour.elim "39" Colour.code)) := by
    rcases colour with _ | colour
    · decide
    · cases colour <;> decide
  rw [Style.change, unbroken_append, unbroken_append]
  refine ⟨⟨?_, ?_⟩, ?_⟩
  · split
    · decide
    · exact hcolour after.colour
  · cases before.bold <;> cases after.bold <;> decide
  · cases before.underline <;> cases after.underline <;> decide

theorem unbroken_paint {spans : List Span} (h : ∀ span ∈ spans, Unbroken span.text) :
    Unbroken (paint spans) := by
  suffices ∀ before, Unbroken (paintFrom before spans) from this .plain
  induction spans with
  | nil => exact fun before => unbroken_change before .plain
  | cons span spans ih =>
    intro before
    rw [List.forall_mem_cons] at h
    simp only [paintFrom, unbroken_append]
    exact ⟨⟨unbroken_change before span.style, h.1⟩, ih h.2 span.style⟩

theorem unbroken_coloured {colour : Colour} {text : String} (h : Unbroken text) :
    Unbroken (paint [.coloured colour text]) :=
  unbroken_paint fun _ hs => List.mem_singleton.mp hs ▸ h

theorem unbroken_hex (width n : Nat) : Unbroken (hex width n) := by
  intro hm
  rw [hex, String.toList_ofList, List.leftpad, List.mem_append] at hm
  rcases hm with hz | hd
  · exact absurd (List.eq_of_mem_replicate hz) (by decide)
  · obtain ⟨c, hc, hu⟩ := List.mem_map.mp hd
    obtain ⟨d, hlt, rfl⟩ := exists_digitChar_of_mem (by decide) hc
    have hall : ∀ d < 16, d.digitChar.toUpper ≠ '\n' := by decide
    exact hall d hlt hu

theorem dropReturn_prefix (cs : List Char) : dropReturn cs <+: cs := by
  unfold dropReturn
  split
  · exact List.dropLast_prefix cs
  · exact List.prefix_rfl

/-- Lines are pieces of the text; at most their ends are missing. -/
theorem exists_piece_of_mem {pieces : List (List Char)} {cs : List Char}
    (h : cs ∈ closeLines pieces) : ∃ piece ∈ pieces, cs <+: piece := by
  induction pieces with
  | nil => cases h
  | cons piece rest ih =>
    by_cases hrest : rest = []
    · subst hrest
      rw [closeLines] at h
      split at h
      · cases h
      · exact ⟨piece, List.mem_cons_self, List.mem_singleton.mp h ▸ List.prefix_rfl⟩
    · rw [closeLines_cons piece hrest] at h
      rcases List.mem_cons.mp h with rfl | hm
      · exact ⟨piece, List.mem_cons_self, dropReturn_prefix piece⟩
      · obtain ⟨other, ho, hp⟩ := ih hm
        exact ⟨other, List.mem_cons_of_mem piece ho, hp⟩

theorem unbroken_of_mem_lines {source raw : String} (h : raw ∈ lines source) : Unbroken raw := by
  obtain ⟨cs, hc, rfl⟩ := List.mem_map.mp h
  obtain ⟨piece, hp, hpre⟩ := exists_piece_of_mem hc
  intro hm
  rw [String.toList_ofList] at hm
  exact absurd (mem_splitOnP hp '\n' (hpre.subset hm)).1 (by decide)

end Text

namespace Token

theorem Solid.unbroken {text : String} (h : Solid text) : Text.Unbroken text :=
  fun hm => absurd (h.isPlain_of_mem hm) (by decide)

theorem unbroken_intercalate {gap : String} {texts : List String} (hg : Text.Unbroken gap)
    (h : ∀ text ∈ texts, Solid text) : Text.Unbroken (gap.intercalate texts) := by
  intro hm
  rcases mem_intercalate h hm with hm | hp
  · exact hg hm
  · exact absurd hp (by decide)

end Token

theorem Instr.unbroken_painted (instr : Instr) : Text.Unbroken instr.painted := by
  have hmnemonic (op : Opcode) := (solid_mnemonic op).unbroken
  have hregister (reg : Reg) := (solid_register reg).unbroken
  have hdecimal (v : Int) := (solid_decimal v).unbroken
  have hspace : Text.Unbroken " " := by decide
  have hempty : Text.Unbroken "" := by decide
  apply Text.unbroken_paint
  cases instr <;>
    simp [columns, registerColumns, immediateColumns, Text.Span.coloured, SignedImm.text,
      LongImm.text, hmnemonic, hregister, hdecimal, hspace, hempty]

theorem WordFile.unbroken_renderWord (w : Word) : Text.Unbroken (renderWord w) :=
  not_mem_renderWord (by decide) (by decide) w

end Risc16
