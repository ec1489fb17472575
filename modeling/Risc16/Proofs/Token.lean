import Risc16.Proofs.Source

/-! # Tokens that are joined and cut apart again

A solid token has no character that means anything to the reader of a line.  The tokens of every
line that was read are solid.  Solid tokens that are joined by separators are found again one by
one, and a line made of them has neither a label nor a comment.
-/
namespace Risc16

namespace Text

variable {sep : Char → Bool}

theorem words_append_separators (cs : List Char) {gap : List Char} (hg : gap ≠ [])
    (hs : gap.all sep = true) (rest : List Char) :
    words sep (cs ++ (gap ++ rest)) = words sep cs ++ words sep rest := by
  induction gap generalizing cs with
  | nil => exact absurd rfl hg
  | cons c gap ih =>
    rw [List.all_cons, Bool.and_eq_true] at hs
    rw [List.cons_append, words_append_cons cs hs.1]
    congr 1
    cases gap with
    | nil => rfl
    | cons d gap => exact ih [] (List.cons_ne_nil d gap) hs.2

theorem words_intercalate {gap : List Char} (hg : gap ≠ []) (hs : gap.all sep = true)
    {ws : List (List Char)} (hw : ∀ w ∈ ws, w ≠ [] ∧ ∀ c ∈ w, sep c = false) :
    words sep (gap.intercalate ws) = ws := by
  induction ws with
  | nil => rfl
  | cons w ws ih =>
    obtain ⟨hne, hsolid⟩ := hw w List.mem_cons_self
    have hrest := ih fun v hv => hw v (List.mem_cons_of_mem _ hv)
    cases ws with
    | nil => rw [List.intercalate_singleton, words_eq_singleton hne hsolid]
    | cons v ws =>
      rw [List.intercalate_cons_cons, List.append_assoc, words_append_separators w hg hs,
        words_eq_singleton hne hsolid, hrest, List.singleton_append]

theorem mem_intercalate {gap : List Char} {ws : List (List Char)} {c : Char}
    (h : c ∈ gap.intercalate ws) : c ∈ gap ∨ ∃ w ∈ ws, c ∈ w := by
  induction ws with
  | nil => simp at h
  | cons w ws ih =>
    cases ws with
    | nil =>
      rw [List.intercalate_singleton] at h
      exact .inr ⟨w, List.mem_cons_self, h⟩
    | cons v ws =>
      rw [List.intercalate_cons_cons, List.append_assoc, List.mem_append, List.mem_append] at h
      rcases h with hw | hg | hr
      · exact .inr ⟨w, List.mem_cons_self, hw⟩
      · exact .inl hg
      · rcases ih hr with hg | ⟨u, hu, hc⟩
        · exact .inl hg
        · exact .inr ⟨u, List.mem_cons_of_mem _ hu, hc⟩

/-- A text without a newline is one line, or none if it is empty. -/
theorem lines_of_not_mem {row : String} (h : '\n' ∉ row.toList) :
    lines row = if row = "" then [] else [row] := by
  rw [lines, List.splitOn_eq_singleton h]
  by_cases hr : row = ""
  · simp [hr, closeLines]
  · simp [hr, closeLines]

/-- Rows that are ended by newlines are lines, and so is what follows them. -/
theorem lines_join_append {rows : List String}
    (h : ∀ row ∈ rows, '\n' ∉ row.toList ∧ '\r' ∉ row.toList) (rest : String) :
    lines (String.join (rows.map (· ++ "\n")) ++ rest) = rows ++ lines rest := by
  induction rows with
  | nil => simp
  | cons row rows ih =>
    obtain ⟨hn, hr⟩ := h row List.mem_cons_self
    have hj : String.join ((row :: rows).map (· ++ "\n")) ++ rest = String.ofList
        (row.toList ++ '\n' :: (String.join (rows.map (· ++ "\n")) ++ rest).toList) := by
      apply String.toList_inj.mp
      simp
    rw [hj, lines_append_newline hn, dropReturn_eq_self hr, String.ofList_toList,
      String.ofList_toList, ih fun other ho => h other (List.mem_cons_of_mem _ ho),
      List.cons_append]

theorem lines_join {rows : List String}
    (h : ∀ row ∈ rows, '\n' ∉ row.toList ∧ '\r' ∉ row.toList) :
    lines (String.join (rows.map (· ++ "\n"))) = rows := by
  have hj := lines_join_append h ""
  rwa [String.append_empty, lines_empty, List.append_nil] at hj

theorem intercalate_concat (rows : List String) (last : String) :
    "\n".intercalate (rows ++ [last]) = String.join (rows.map (· ++ "\n")) ++ last := by
  induction rows with
  | nil => simp
  | cons row rows ih =>
    rw [List.cons_append, String.intercalate_cons_of_ne_nil (by simp), ih, List.map_cons,
      String.join_cons, String.append_assoc, String.append_assoc, String.append_assoc]

/-- Rows joined by newlines are the lines of the text, except for an empty row at the end. -/
theorem lines_intercalate {rows : List String}
    (h : ∀ row ∈ rows, '\n' ∉ row.toList ∧ '\r' ∉ row.toList) :
    ∃ rest, (∀ row ∈ rest, row = "") ∧ rows = lines ("\n".intercalate rows) ++ rest := by
  rcases List.eq_nil_or_concat rows with rfl | ⟨front, last, hrows⟩
  · exact ⟨[], by simp, by simp⟩
  · rw [List.concat_eq_append] at hrows
    subst hrows
    have hl := h last (List.mem_append_right _ List.mem_cons_self)
    rw [intercalate_concat, lines_join_append fun row hr => h row (List.mem_append_left _ hr),
      lines_of_not_mem hl.1]
    by_cases he : last = ""
    · exact ⟨[last], by simp [he], by simp [he]⟩
    · exact ⟨[], by simp, by simp [he]⟩

theorem lines_intercalate_of_ne_empty {rows : List String}
    (h : ∀ row ∈ rows, row ≠ "" ∧ '\n' ∉ row.toList ∧ '\r' ∉ row.toList) :
    lines ("\n".intercalate rows) = rows := by
  obtain ⟨rest, he, hrows⟩ := lines_intercalate fun row hr => (h row hr).2
  cases rest with
  | nil => rwa [List.append_nil, eq_comm] at hrows
  | cons row rest =>
    have hm : row ∈ rows := hrows ▸ List.mem_append_right _ List.mem_cons_self
    exact absurd (he row List.mem_cons_self) (h row hm).1

theorem exists_trimEnd (cs : List Char) :
    ∃ trail, cs = trimEnd cs ++ trail ∧ ∀ c ∈ trail, isBlank c = true := by
  refine ⟨(cs.reverse.takeWhile isBlank).reverse, ?_, ?_⟩
  · rw [trimEnd, ← List.reverse_append, List.takeWhile_append_dropWhile, List.reverse_reverse]
  · intro c hc
    exact List.all_eq_true.mp List.all_takeWhile c (List.mem_reverse.mp hc)

/-- Trimming takes away blanks only. -/
theorem exists_trim (cs : List Char) : ∃ lead trail, cs = lead ++ (trim cs ++ trail) ∧
    (∀ c ∈ lead, isBlank c = true) ∧ ∀ c ∈ trail, isBlank c = true := by
  obtain ⟨trail, hs, htrail⟩ := exists_trimEnd (trimStart cs)
  refine ⟨cs.takeWhile isBlank, trail, ?_, List.all_eq_true.mp List.all_takeWhile, htrail⟩
  rw [trim, ← hs]
  exact List.takeWhile_append_dropWhile.symm

theorem dropWhile_isBlank_eq_self {cs : List Char} (h : ∀ c ∈ cs, isBlank c = false) :
    cs.dropWhile isBlank = cs := by
  cases cs with
  | nil => rfl
  | cons c cs => simp [h c List.mem_cons_self]

/-- A text without blanks is what is left of it between blanks. -/
theorem trim_between {lead word trail : List Char} (hlead : ∀ c ∈ lead, isBlank c = true)
    (hword : ∀ c ∈ word, isBlank c = false) (htrail : ∀ c ∈ trail, isBlank c = true) :
    trim (lead ++ (word ++ trail)) = word := by
  rw [trim, trimStart, List.dropWhile_append_of_pos hlead]
  cases word with
  | nil =>
    rw [List.nil_append, ← List.append_nil trail, List.dropWhile_append_of_pos htrail]
    rfl
  | cons c word =>
    have hsolid : ∀ d ∈ (c :: word).reverse, isBlank d = false := fun d hd =>
      hword d (List.mem_reverse.mp hd)
    have hblank : ∀ d ∈ trail.reverse, isBlank d = true := fun d hd =>
      htrail d (List.mem_reverse.mp hd)
    rw [List.cons_append, List.dropWhile_cons_of_neg (by simp [hword c List.mem_cons_self]),
      ← List.cons_append, trimEnd, List.reverse_append, List.dropWhile_append_of_pos hblank,
      dropWhile_isBlank_eq_self hsolid, List.reverse_reverse]

end Text

namespace Token

/-- Characters that neither separate tokens nor end a label nor begin a comment. -/
def isPlain (c : Char) : Bool := !isSeparator c && c != '#' && c != ':'

theorem isPlain_iff {c : Char} :
    isPlain c = true ↔ isSeparator c = false ∧ c ≠ '#' ∧ c ≠ ':' := by
  simp [isPlain, and_assoc]

structure Solid (text : String) : Prop where
  ne_nil : text.toList ≠ []
  plain : text.toList.all isPlain = true

namespace Solid

variable {text : String} {c : Char}

theorem isPlain_of_mem (h : Solid text) (hc : c ∈ text.toList) : isPlain c = true :=
  List.all_eq_true.mp h.plain c hc

theorem isSeparator_of_mem (h : Solid text) (hc : c ∈ text.toList) : isSeparator c = false :=
  (isPlain_iff.mp (h.isPlain_of_mem hc)).1

end Solid

theorem isPlain_of_isDigit {c : Char} (h : c.isDigit = true) : isPlain c = true := by
  have hd : 48 ≤ c.toNat ∧ c.toNat ≤ 57 := by
    simpa [Char.isDigit, UInt32.le_iff_toNat_le] using h
  have hb : Text.isBlank c = false := by
    simp only [Text.isBlank, Text.blankRanges, List.any_cons, List.any_nil, Bool.or_false,
      Bool.or_eq_false_iff, Bool.and_eq_false_iff, decide_eq_false_iff_not]
    omega
  have hne {d : Char} (hn : d.toNat < 48 ∨ 57 < d.toNat) : c ≠ d := by
    rintro rfl
    omega
  rw [isPlain_iff]
  refine ⟨?_, hne (by decide), hne (by decide)⟩
  rw [isSeparator, hb, Bool.false_or, beq_eq_false_iff_ne]
  exact hne (by decide)

theorem scan_intercalate {gap : String} (hg : gap.toList ≠ [])
    (hs : gap.toList.all isSeparator = true) {texts : List String}
    (ht : ∀ text ∈ texts, Solid text) : scan (gap.intercalate texts).toList = texts := by
  have hw : ∀ w ∈ texts.map String.toList, w ≠ [] ∧ ∀ c ∈ w, isSeparator c = false := by
    intro w hw
    obtain ⟨text, htext, rfl⟩ := List.mem_map.mp hw
    exact ⟨(ht text htext).ne_nil, fun c hc => (ht text htext).isSeparator_of_mem hc⟩
  rw [scan, String.toList_intercalate, Text.words_intercalate hg hs hw, List.map_map]
  simp [Function.comp_def]

/-- Solid texts that are joined have plain characters only, apart from what joins them. -/
theorem mem_intercalate {gap : String} {texts : List String} (ht : ∀ text ∈ texts, Solid text)
    {c : Char} (h : c ∈ (gap.intercalate texts).toList) : c ∈ gap.toList ∨ isPlain c = true := by
  rw [String.toList_intercalate] at h
  rcases Text.mem_intercalate h with hg | ⟨w, hw, hc⟩
  · exact .inl hg
  · obtain ⟨text, htext, rfl⟩ := List.mem_map.mp hw
    exact .inr ((ht text htext).isPlain_of_mem hc)

end Token

theorem Line.parse_of_unmarked {number : Nat} {raw : String} (hc : '#' ∉ raw.toList)
    (hl : ':' ∉ raw.toList) :
    Line.parse number raw = .ok ⟨number, raw, none, .ofTokens (Token.scan raw.toList), none⟩ := by
  rw [Line.parse_eq_ok_iff, Text.cut_eq_none hc]
  refine ⟨none, _, ?_, rfl⟩
  simp only [parseCode, Text.cut_eq_none hl]

namespace Text

theorem mem_splitOnP {p : Char → Bool} {cs piece : List Char} (h : piece ∈ cs.splitOnP p) :
    ∀ c ∈ piece, p c = false ∧ c ∈ cs := by
  induction cs generalizing piece with
  | nil =>
    rw [List.splitOnP_nil, List.mem_singleton] at h
    simp [h]
  | cons d cs ih =>
    rw [List.splitOnP_cons_eq_if_modifyHead] at h
    intro c hc
    split at h
    next hd =>
      rcases List.mem_cons.mp h with rfl | hp
      · cases hc
      · exact ⟨(ih hp c hc).1, List.mem_cons_of_mem d (ih hp c hc).2⟩
    next hd =>
      -- The first piece is the one that takes in the character in front.
      cases hs : cs.splitOnP p with
      | nil => exact absurd hs (List.splitOnP_ne_nil p cs)
      | cons first rest =>
        rw [hs] at h ih
        rw [List.modifyHead_cons, List.mem_cons] at h
        rcases h with rfl | hp
        · rcases List.mem_cons.mp hc with rfl | hc
          · exact ⟨Bool.eq_false_iff.mpr hd, List.mem_cons_self⟩
          · have := ih List.mem_cons_self c hc
            exact ⟨this.1, List.mem_cons_of_mem d this.2⟩
        · have := ih (List.mem_cons_of_mem first hp) c hc
          exact ⟨this.1, List.mem_cons_of_mem d this.2⟩

theorem mem_words {sep : Char → Bool} {cs w : List Char} (h : w ∈ words sep cs) :
    ∀ c ∈ w, sep c = false ∧ c ∈ cs :=
  mem_splitOnP (List.mem_filter.mp h).1

theorem mem_of_mem_cut_fst {mark c : Char} {cs : List Char} (h : c ∈ (cut mark cs).1) : c ∈ cs :=
  (List.takeWhile_prefix _).subset h

theorem eq_append_of_cut {mark : Char} {cs before after : List Char}
    (h : cut mark cs = (before, some after)) : cs = before ++ mark :: after := by
  induction cs generalizing before with
  | nil => simp at h
  | cons c cs ih =>
    by_cases hc : c = mark
    · subst hc
      rw [cut_cons_self] at h
      cases h
      rfl
    · rw [cut_cons_ne hc, Prod.mk.injEq] at h
      rw [← h.1, List.cons_append, ← ih (Prod.ext rfl h.2)]

end Text

theorem Token.solid_of_mem_scan {cs : List Char} (hc : '#' ∉ cs) (hl : ':' ∉ cs) {text : String}
    (h : text ∈ scan cs) : Solid text := by
  obtain ⟨w, hw, rfl⟩ := List.mem_map.mp h
  constructor
  · rw [String.toList_ofList]
    exact Text.ne_nil_of_mem_words hw
  · rw [String.toList_ofList, List.all_eq_true]
    intro c hm
    obtain ⟨hs, hcs⟩ := Text.mem_words hw c hm
    refine isPlain_iff.mpr ⟨hs, ?_, ?_⟩
    · rintro rfl
      exact hc hcs
    · rintro rfl
      exact hl hcs

namespace Line

/-- The statement of a line is what its body scans to, and the body has no marks. -/
theorem exists_scan_of_parse {number : Nat} {raw : String} {line : Line}
    (h : parse number raw = .ok line) :
    ∃ body, '#' ∉ body ∧ ':' ∉ body ∧ line.statement = .ofTokens (Token.scan body) := by
  obtain ⟨label, statement, hc, rfl⟩ := parse_eq_ok_iff.mp h
  have hcomment := Text.not_mem_cut_fst '#' raw.toList
  rcases parseCode_eq_ok_iff.mp hc with ⟨hm, -, hs⟩ | ⟨before, body, -, hcode, -, hb, -, -, -, hs⟩
  · exact ⟨_, hcomment, hm, hs⟩
  · rw [hcode] at hcomment
    exact ⟨body, fun hm => hcomment (List.mem_append_right _ (List.mem_cons_of_mem _ hm)), hb, hs⟩

/-- A line as it is read: its tokens are solid, and they make its statement. -/
structure Tokenised (line : Line) : Prop where
  solid : ∀ text ∈ line.statement.tokens, Token.Solid text
  stable : .ofTokens line.statement.tokens = line.statement

theorem tokenised_of_parse {number : Nat} {raw : String} {line : Line}
    (h : parse number raw = .ok line) : line.Tokenised := by
  obtain ⟨body, hc, hl, hs⟩ := exists_scan_of_parse h
  constructor
  · intro text ht
    rw [hs, Statement.tokens_ofTokens] at ht
    exact Token.solid_of_mem_scan hc hl ht
  · rw [hs, Statement.tokens_ofTokens]

end Line

end Risc16
