import Risc16.Proofs.Expansion

/-! # Sources line by line

The lines of a source are read one by one and numbered in order.
-/
namespace Risc16.Line

/-- All that reading the text before the comment can give. -/
theorem parseCode_eq_ok_iff {code : List Char} {label : Option String} {statement : Statement} :
    parseCode code = .ok (label, statement) ↔
      (':' ∉ code ∧ label = none ∧ statement = .ofTokens (Token.scan code)) ∨
      ∃ before body name, code = before ++ ':' :: body ∧ ':' ∉ before ∧ ':' ∉ body ∧
        Text.trim before = name.toList ∧ checkLabel name = .ok () ∧ label = some name ∧
        statement = .ofTokens (Token.scan body) := by
  constructor
  · intro h
    by_cases hm : ':' ∈ code
    · obtain ⟨before, body, rfl, hb⟩ := List.eq_append_cons_of_mem hm
      rw [parseCode, Text.cut_append hb] at h
      dsimp only at h
      split at h
      · cases h
      next hbody =>
        split at h
        · cases h
        next hcheck =>
          cases h
          exact .inr ⟨before, body, _, rfl, hb, hbody, by simp, hcheck, rfl, rfl⟩
    · rw [parseCode, Text.cut_eq_none hm] at h
      cases h
      exact .inl ⟨hm, rfl, rfl⟩
  · rintro (⟨hm, rfl, rfl⟩ | ⟨before, body, name, rfl, hb, hbody, ht, hcheck, rfl, rfl⟩)
    · rw [parseCode, Text.cut_eq_none hm]
    · rw [parseCode, Text.cut_append hb]
      dsimp only
      rw [if_neg hbody, ht, String.ofList_toList, hcheck]

/-- All that reading a line can give. -/
theorem parse_eq_ok_iff {number : Nat} {raw : String} {line : Line} :
    parse number raw = .ok line ↔ ∃ label statement,
      parseCode (Text.cut '#' raw.toList).1 = .ok (label, statement) ∧
      line = { number, raw, label, statement
               comment := (Text.cut '#' raw.toList).2.map fun cs =>
                 String.ofList (Text.trimEnd cs) } := by
  unfold parse
  cases hc : parseCode (Text.cut '#' raw.toList).1 with
  | error fault => simp [hc]
  | ok parts =>
    rcases parts with ⟨label, statement⟩
    simp only [hc, Except.ok.injEq, Prod.mk.injEq]
    constructor
    · rintro rfl
      exact ⟨label, statement, ⟨rfl, rfl⟩, rfl⟩
    · rintro ⟨_, _, ⟨rfl, rfl⟩, rfl⟩
      rfl

theorem number_of_parse {number : Nat} {raw : String} {line : Line}
    (h : parse number raw = .ok line) : line.number = number := by
  obtain ⟨label, statement, -, rfl⟩ := parse_eq_ok_iff.mp h
  rfl

theorem raw_of_parse {number : Nat} {raw : String} {line : Line}
    (h : parse number raw = .ok line) : line.raw = raw := by
  obtain ⟨label, statement, -, rfl⟩ := parse_eq_ok_iff.mp h
  rfl

theorem parseFrom_cons_eq_ok_iff {number : Nat} {raw : String} {rest : List String}
    {lines : List Line} :
    parseFrom number (raw :: rest) = .ok lines ↔ ∃ line later, parse number raw = .ok line ∧
      parseFrom (number + 1) rest = .ok later ∧ lines = line :: later := by
  simp only [parseFrom, bind_eq_ok_iff]
  constructor
  · rintro ⟨line, hl, later, hr, hp⟩
    cases hp
    exact ⟨line, later, hl, hr, rfl⟩
  · rintro ⟨line, later, hl, hr, rfl⟩
    exact ⟨line, hl, later, hr, rfl⟩

theorem exists_parse_of_mem {number : Nat} {raws : List String} {lines : List Line} {line : Line}
    (h : parseFrom number raws = .ok lines) (hm : line ∈ lines) :
    ∃ number raw, parse number raw = .ok line := by
  induction raws generalizing number lines with
  | nil =>
    cases h
    cases hm
  | cons raw rest ih =>
    obtain ⟨first, later, hf, hr, rfl⟩ := parseFrom_cons_eq_ok_iff.mp h
    rcases List.mem_cons.mp hm with rfl | hm
    · exact ⟨number, raw, hf⟩
    · exact ih hr hm

theorem map_number_of_parseFrom {number : Nat} {raws : List String} {lines : List Line}
    (h : parseFrom number raws = .ok lines) :
    lines.map Line.number = List.range' number raws.length := by
  induction raws generalizing number lines with
  | nil =>
    cases h
    rfl
  | cons raw rest ih =>
    obtain ⟨line, later, hl, hr, rfl⟩ := parseFrom_cons_eq_ok_iff.mp h
    rw [List.map_cons, number_of_parse hl, ih hr, List.length_cons, List.range'_succ]

theorem map_raw_of_parseFrom {number : Nat} {raws : List String} {lines : List Line}
    (h : parseFrom number raws = .ok lines) : lines.map Line.raw = raws := by
  induction raws generalizing number lines with
  | nil =>
    cases h
    rfl
  | cons raw rest ih =>
    obtain ⟨line, later, hl, hr, rfl⟩ := parseFrom_cons_eq_ok_iff.mp h
    rw [List.map_cons, raw_of_parse hl, ih hr]

theorem map_number_of_parseSource {source : String} {lines : List Line}
    (h : parseSource source = .ok lines) :
    lines.map Line.number = List.range' 1 (Text.lines source).length :=
  map_number_of_parseFrom h

def Ascending (lines : List Line) : Prop := (lines.map Line.number).Pairwise (· < ·)

theorem ascending_of_parseSource {source : String} {lines : List Line}
    (h : parseSource source = .ok lines) : Ascending lines := by
  rw [Ascending, map_number_of_parseSource h]
  exact List.pairwise_lt_range' 1 Nat.zero_lt_one

namespace Ascending

variable {before after : List Line} {line other : Line}

theorem of_append (h : Ascending (before ++ after)) : Ascending after := by
  rw [Ascending, List.map_append, List.pairwise_append] at h
  exact h.2.1

theorem of_cons (h : Ascending (line :: after)) : Ascending after := by
  rw [Ascending, List.map_cons, List.pairwise_cons] at h
  exact h.2

theorem lt_of_mem_before (h : Ascending (before ++ line :: after)) (ho : other ∈ before) :
    other.number < line.number := by
  rw [Ascending, List.map_append, List.pairwise_append] at h
  exact h.2.2 _ (List.mem_map_of_mem ho) _ (List.mem_map_of_mem List.mem_cons_self)

theorem lt_of_mem_after (h : Ascending (line :: after)) (ho : other ∈ after) :
    line.number < other.number := by
  rw [Ascending, List.map_cons, List.pairwise_cons] at h
  exact h.1 _ (List.mem_map_of_mem ho)

end Ascending

end Risc16.Line
