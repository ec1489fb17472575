/-! # Lines of a text

A line ends at a newline; one carriage return directly before that newline belongs to the line
end.  A carriage return anywhere else is text, and nothing after the last newline is no line.
-/
namespace Risc16.Text

/-- Removes one carriage return at the end. -/
def dropReturn (cs : List Char) : List Char :=
  if cs.getLast? = some '\r' then cs.dropLast else cs

/-- The lines among the pieces between newlines: every piece but the last was ended. -/
def closeLines : List (List Char) → List (List Char)
  | [] => []
  | [last] => if last.isEmpty then [] else [last]
  | piece :: rest => dropReturn piece :: closeLines rest

def lines (source : String) : List String :=
  (closeLines (source.toList.splitOn '\n')).map String.ofList

theorem dropReturn_eq_self {cs : List Char} (h : '\r' ∉ cs) : dropReturn cs = cs := by
  unfold dropReturn
  split
  · next hl => exact absurd (List.mem_of_getLast? hl) h
  · rfl

@[simp] theorem lines_empty : lines "" = [] := by simp [lines, closeLines]

theorem closeLines_cons (piece : List Char) {rest : List (List Char)} (h : rest ≠ []) :
    closeLines (piece :: rest) = dropReturn piece :: closeLines rest := by
  cases rest with
  | nil => exact absurd rfl h
  | cons _ _ => rfl

/-- A line ended by a newline comes before the lines of the rest. -/
theorem lines_append_newline {cs : List Char} (h : '\n' ∉ cs) (rest : List Char) :
    lines (String.ofList (cs ++ '\n' :: rest)) =
      String.ofList (dropReturn cs) :: lines (String.ofList rest) := by
  simp [lines, List.splitOn_append_cons_self_of_not_mem h,
    closeLines_cons _ (List.splitOn_ne_nil '\n' rest)]

end Risc16.Text
