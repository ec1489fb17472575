import Risc16.Text.Blank

/-! # Cutting a text

A text is cut in two at the first occurrence of a character, or into the words that a class of
separators leaves between them.
-/
namespace Risc16.Text

/-- The part before the first `mark`, and the part after it if `mark` occurs. -/
def cut (mark : Char) (cs : List Char) : List Char × Option (List Char) :=
  (cs.takeWhile (· != mark), (cs.dropWhile (· != mark)).tail?)

@[simp] theorem cut_nil (mark : Char) : cut mark [] = ([], none) := rfl

@[simp] theorem cut_cons_self (mark : Char) (cs : List Char) :
    cut mark (mark :: cs) = ([], some cs) := by
  simp [cut]

theorem cut_cons_ne {mark c : Char} (h : c ≠ mark) (cs : List Char) :
    cut mark (c :: cs) = (c :: (cut mark cs).1, (cut mark cs).2) := by
  simp [cut, h]

theorem cut_eq_none {mark : Char} {cs : List Char} (h : mark ∉ cs) : cut mark cs = (cs, none) := by
  induction cs with
  | nil => rfl
  | cons c cs ih =>
    simp only [List.mem_cons, not_or] at h
    rw [cut_cons_ne (Ne.symm h.1), ih h.2]

theorem cut_append {mark : Char} {cs : List Char} (h : mark ∉ cs) (rest : List Char) :
    cut mark (cs ++ mark :: rest) = (cs, some rest) := by
  induction cs with
  | nil => simp
  | cons c cs ih =>
    simp only [List.mem_cons, not_or] at h
    rw [List.cons_append, cut_cons_ne (Ne.symm h.1), ih h.2]

theorem not_mem_cut_fst (mark : Char) (cs : List Char) : mark ∉ (cut mark cs).1 := by
  intro h
  simpa using List.all_takeWhile (p := (· != mark)) (l := cs) |> List.all_eq_true.mp |> (· mark h)

/-- The maximal runs of characters that are not separators, in order. -/
def words (sep : Char → Bool) (cs : List Char) : List (List Char) :=
  (cs.splitOnP sep).filter (!·.isEmpty)

theorem ne_nil_of_mem_words {sep : Char → Bool} {cs w : List Char} (h : w ∈ words sep cs) :
    w ≠ [] := by
  simpa [words] using (List.mem_filter.mp h).2

theorem words_eq_singleton {sep : Char → Bool} {cs : List Char} (hne : cs ≠ [])
    (h : ∀ c ∈ cs, sep c = false) : words sep cs = [cs] := by
  simp [words, List.splitOnP_eq_singleton h, hne]

theorem words_append_cons {sep : Char → Bool} (cs : List Char) {c : Char} (h : sep c = true)
    (rest : List Char) : words sep (cs ++ c :: rest) = words sep cs ++ words sep rest := by
  simp [words, List.splitOnP_append_cons cs rest h]

end Risc16.Text
