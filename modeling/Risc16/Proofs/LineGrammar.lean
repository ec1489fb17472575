import Risc16.Proofs.LetterCase
import Risc16.Proofs.Location
import Risc16.Proofs.Replacement

/-! # The grammar of lines

Which lines can be read is said without the reader.  Before the comment, a line is a body, or a
label, a colon and a body; the tokens of the body are its runs between blanks and commas, none of
them cut short.  The reader accepts these lines and no others, and it finds these parts.
-/
namespace Risc16

namespace Token

/-- The runs of a text between separators, in order.  A run ends at a separator or with the
text, and it begins where the run before it has ended or behind separators. -/
inductive Runs : List Char → List String → Prop where
  | none {gap : List Char} (hgap : ∀ c ∈ gap, isSeparator c = true) : Runs gap []
  | next {gap rest : List Char} {token : String} {tokens : List String}
      (hgap : ∀ c ∈ gap, isSeparator c = true) (hne : token ≠ "")
      (htoken : ∀ c ∈ token.toList, isSeparator c = false)
      (hend : ∀ c ∈ rest.head?, isSeparator c = true) (hrest : Runs rest tokens) :
      Runs (gap ++ (token.toList ++ rest)) (token :: tokens)

theorem Runs.scan_eq {cs : List Char} {tokens : List String} (h : Runs cs tokens) :
    scan cs = tokens := by
  induction h with
  | @none gap hgap =>
    have hs := scan_separators_append hgap []
    rwa [List.append_nil] at hs
  | next hgap hne htoken hend _ ih =>
    rw [scan_separators_append hgap, scan_append_of_head? (by simpa using hne) htoken hend, ih,
      String.ofList_toList]

theorem runs_scan (cs : List Char) : Runs cs (scan cs) := by
  -- What follows the first token is shorter than the text, unless there is no token at all.
  induction hn : cs.length using Nat.strongRecOn generalizing cs with
  | ind n ih =>
    obtain ⟨gap, head, after, rfl, -, hgap, hhead, hend, hnil⟩ := exists_parts id cs
    by_cases hne : head = []
    · obtain rfl := hnil hne
      subst hne
      rw [List.append_nil, List.append_nil, (Runs.none hgap).scan_eq]
      exact .none hgap
    · have hlt : after.length < n := by
        have hpos := List.length_pos_of_ne_nil hne
        simp only [List.length_append] at hn
        omega
      rw [scan_separators_append hgap, scan_append_of_head? hne hhead hend]
      have hnext : Runs (gap ++ ((String.ofList head).toList ++ after))
          (String.ofList head :: scan after) :=
        .next hgap (by simpa using hne) (by simpa using hhead) hend (ih _ hlt after rfl)
      rwa [String.toList_ofList] at hnext

theorem runs_iff {cs : List Char} {tokens : List String} : Runs cs tokens ↔ scan cs = tokens := by
  constructor
  · exact Runs.scan_eq
  · rintro rfl
    exact runs_scan cs

end Token

namespace Line

/-- The text before a comment, cut into a label, if it has one, and a body.  There is a colon only
behind a label, and around a label there may be blanks. -/
inductive Splits (code : List Char) : Option String → List Char → Prop where
  | unlabelled (h : ':' ∉ code) : Splits code none code
  | labelled {before lead trail body : List Char} {name : String}
      (hcode : code = before ++ ':' :: body) (hbefore : ':' ∉ before) (hbody : ':' ∉ body)
      (htrim : before = lead ++ (name.toList ++ trail))
      (hlead : ∀ c ∈ lead, Text.isBlank c = true) (htrail : ∀ c ∈ trail, Text.isBlank c = true)
      (hname : LabelName name) : Splits code (some name) body

/-- The reader finds the parts that the grammar gives. -/
theorem parseCode_eq_ok_iff_splits {code : List Char} {label : Option String}
    {statement : Statement} :
    parseCode code = .ok (label, statement) ↔
      ∃ body, Splits code label body ∧ statement = .ofTokens (Token.scan body) := by
  rw [parseCode_eq_ok_iff]
  constructor
  · rintro (⟨hm, rfl, rfl⟩ | ⟨before, body, name, rfl, hb, hbody, ht, hcheck, rfl, rfl⟩)
    · exact ⟨code, .unlabelled hm, rfl⟩
    · obtain ⟨lead, trail, hs, hlead, htrail⟩ := Text.exists_trim before
      rw [ht] at hs
      exact ⟨body, .labelled rfl hb hbody hs hlead htrail (checkLabel_eq_ok_iff.mp hcheck), rfl⟩
  · rintro ⟨body, hs, rfl⟩
    cases hs with
    | unlabelled hm => exact .inl ⟨hm, rfl, rfl⟩
    | labelled hcode hb hbody htrim hlead htrail hname =>
      refine .inr ⟨_, _, _, hcode, hb, hbody, ?_, checkLabel_eq_ok_iff.mpr hname, rfl, rfl⟩
      rw [htrim, Text.trim_between hlead (fun c hc => (hname.solid c hc).1) htrail]

end Line

/-- Which first token a statement has says of which sort it is. -/
theorem Statement.sort_ofTokens (tokens : List String) :
    (ofTokens tokens = .blank ↔ tokens = []) ∧
    ((∃ name operands, ofTokens tokens = .directive name operands) ↔
      ∃ head ∈ tokens.head?, head.toList.head? = some '.') ∧
    ((∃ name operands, ofTokens tokens = .instruction name operands) ↔
      ∃ head ∈ tokens.head?, head.toList.head? ≠ some '.') := by
  cases tokens with
  | nil => simp [ofTokens]
  | cons head operands =>
    by_cases hd : head.toList.head? = some '.'
    · simp [ofTokens, hd]
    · simp [ofTokens, hd]

/-- A line can be read exactly if the text before its comment has no colon, or one colon behind a
label; every other line is refused with an error about its form and with its number.  A line that is
read has that label, its tokens are the runs of its body, and the first token gives its sort. -/
theorem parse_follows_grammar (number : Nat) (raw : String) :
    ((∃ line, Line.parse number raw = .ok line) ↔
      ∃ label body, Line.Splits (raw.toList.takeWhile (· != '#')) label body) ∧
    (∀ e, Line.parse number raw = .error e → e.kind = .preprocessor ∧ e.line = some number) ∧
    ∀ line, Line.parse number raw = .ok line →
      (∃ body, Line.Splits (raw.toList.takeWhile (· != '#')) line.label body ∧
        ∀ tokens, Token.Runs body tokens ↔ line.statement.tokens = tokens) ∧
      (∀ token ∈ line.statement.tokens, Token.Solid token) ∧
      (line.statement = .blank ↔ line.statement.tokens = []) ∧
      ((∃ name operands, line.statement = .directive name operands) ↔
        ∃ head ∈ line.statement.tokens.head?, head.toList.head? = some '.') ∧
      ((∃ name operands, line.statement = .instruction name operands) ↔
        ∃ head ∈ line.statement.tokens.head?, head.toList.head? ≠ some '.') := by
  refine ⟨⟨?_, ?_⟩, ?_, ?_⟩
  · rintro ⟨line, h⟩
    obtain ⟨label, statement, hc, -⟩ := Line.parse_eq_ok_iff.mp h
    obtain ⟨body, hs, -⟩ := Line.parseCode_eq_ok_iff_splits.mp hc
    exact ⟨label, body, hs⟩
  · rintro ⟨label, body, hs⟩
    have hc := Line.parseCode_eq_ok_iff_splits.mpr ⟨body, hs, rfl⟩
    exact ⟨_, Line.parse_eq_ok_iff.mpr ⟨label, _, hc, rfl⟩⟩
  · intro e h
    obtain ⟨fault, hf, rfl⟩ := Line.parse_eq_error_iff.mp h
    exact ⟨List.mem_singleton.mp (Line.failsOnlyAs_parseCode _ fault hf), rfl⟩
  · intro line h
    have hsolid := (Line.tokenised_of_parse h).solid
    obtain ⟨label, statement, hc, rfl⟩ := Line.parse_eq_ok_iff.mp h
    obtain ⟨body, hs, rfl⟩ := Line.parseCode_eq_ok_iff_splits.mp hc
    have hsort := Statement.sort_ofTokens (Token.scan body)
    dsimp only at hsolid ⊢
    rw [Statement.tokens_ofTokens] at hsolid ⊢
    exact ⟨⟨body, hs, fun tokens => Token.runs_iff⟩, hsolid, hsort⟩

end Risc16
