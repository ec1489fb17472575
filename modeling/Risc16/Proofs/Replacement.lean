import Risc16.Proofs.LabelName
import Risc16.Proofs.Relocation
import Risc16.Proofs.Token

/-! # Texts with other names

Names can be replaced in the text of a source where they stand, in labels and operands and nowhere
else: blanks, commas, first tokens and comments stay.  If the new names are tokens, the text then
reads as before but for these names.
-/
namespace Risc16

namespace Token

/-- Replaces the tokens of a text where they stand; `word` has been read of the next one. -/
def replaceFrom (f : String → String) (word : List Char) : List Char → List Char
  | [] => (f (String.ofList word)).toList
  | c :: cs =>
    if isSeparator c then (f (String.ofList word)).toList ++ c :: replaceFrom f [] cs
    else replaceFrom f (word ++ [c]) cs

def replace (f : String → String) (cs : List Char) : List Char := replaceFrom f [] cs

def replaceOperands (f : String → String) (cs : List Char) : List Char :=
  let rest := cs.dropWhile isSeparator
  cs.takeWhile isSeparator ++ (rest.takeWhile (!isSeparator ·) ++
    replace f (rest.dropWhile (!isSeparator ·)))

/-- A change of tokens: each is left alone or becomes another token, and nothing becomes none. -/
structure Renames (f : String → String) : Prop where
  empty : f "" = ""
  solid : ∀ text, f text = text ∨ Solid (f text)

theorem scan_separators_append {gap : List Char} (h : ∀ c ∈ gap, isSeparator c = true)
    (rest : List Char) : scan (gap ++ rest) = scan rest := by
  induction gap with
  | nil => rfl
  | cons c gap ih =>
    rw [List.forall_mem_cons] at h
    have hc := scan_append_cons [] h.1 (gap ++ rest)
    rw [List.cons_append]
    exact hc.trans (ih h.2)

theorem scan_eq_singleton {w : List Char} (hne : w ≠ []) (hs : ∀ c ∈ w, isSeparator c = false) :
    scan w = [String.ofList w] := by
  rw [scan, Text.words_eq_singleton hne hs, List.map_singleton]

theorem scan_append_of_head? {head after : List Char} (hne : head ≠ [])
    (hs : ∀ c ∈ head, isSeparator c = false) (ha : ∀ c ∈ after.head?, isSeparator c = true) :
    scan (head ++ after) = String.ofList head :: scan after := by
  have hhead := scan_eq_singleton hne hs
  cases after with
  | nil => rw [List.append_nil, hhead]; rfl
  | cons c after =>
    have hc : isSeparator c = true := ha c rfl
    have hrest : scan (c :: after) = scan after := scan_append_cons [] hc after
    rw [scan_append_cons head hc, hhead, hrest, List.singleton_append]

/-- A text is separators, its first token, and what follows that. -/
theorem exists_parts (f : String → String) (cs : List Char) :
    ∃ gap head after, cs = gap ++ (head ++ after) ∧
      replaceOperands f cs = gap ++ (head ++ replace f after) ∧
      (∀ c ∈ gap, isSeparator c = true) ∧ (∀ c ∈ head, isSeparator c = false) ∧
      (∀ c ∈ after.head?, isSeparator c = true) ∧ (head = [] → after = []) := by
  refine ⟨_, _, _, ?_, rfl, List.all_eq_true.mp List.all_takeWhile, ?_, ?_, ?_⟩
  · rw [List.takeWhile_append_dropWhile, List.takeWhile_append_dropWhile]
  · intro c hc
    have hs := List.all_eq_true.mp List.all_takeWhile c hc
    simpa using hs
  · intro c hc
    have hs := List.head?_dropWhile_not (!isSeparator ·) (cs.dropWhile isSeparator)
    rw [Option.mem_def.mp hc] at hs
    simpa using hs
  · intro hhead
    have hfirst := List.head?_dropWhile_not isSeparator cs
    cases hrest : cs.dropWhile isSeparator with
    | nil => rfl
    | cons c rest =>
      rw [hrest] at hhead hfirst
      have hc : isSeparator c = false := by simpa using hfirst
      simp [hc] at hhead

section Replace

variable {f : String → String}

theorem replaceFrom_append {w : List Char} (hw : ∀ c ∈ w, isSeparator c = false)
    (word rest : List Char) : replaceFrom f word (w ++ rest) = replaceFrom f (word ++ w) rest := by
  induction w generalizing word with
  | nil => rw [List.append_nil, List.nil_append]
  | cons c w ih =>
    rw [List.forall_mem_cons] at hw
    rw [List.cons_append, replaceFrom, if_neg (by simp [hw.1]), ih hw.2, List.append_assoc,
      List.singleton_append]

variable (hf : Renames f)
include hf

theorem replace_nil : replace f [] = [] := by
  rw [replace, replaceFrom, String.ofList_nil, hf.empty, String.toList_empty]

theorem replace_cons {c : Char} (hc : isSeparator c = true) (cs : List Char) :
    replace f (c :: cs) = c :: replace f cs := by
  rw [replace, replaceFrom, if_pos hc, String.ofList_nil, hf.empty, String.toList_empty,
    List.nil_append, replace]

theorem replace_separators_append {gap : List Char} (h : ∀ c ∈ gap, isSeparator c = true)
    (rest : List Char) : replace f (gap ++ rest) = gap ++ replace f rest := by
  induction gap with
  | nil => rfl
  | cons c gap ih =>
    rw [List.forall_mem_cons] at h
    rw [List.cons_append, replace_cons hf h.1, ih h.2, List.cons_append]

theorem replace_between {lead trail : List Char} {text : String}
    (hlead : ∀ c ∈ lead, isSeparator c = true) (htrail : ∀ c ∈ trail, isSeparator c = true)
    (htext : ∀ c ∈ text.toList, isSeparator c = false) :
    replace f (lead ++ (text.toList ++ trail)) = lead ++ ((f text).toList ++ trail) := by
  rw [replace_separators_append hf hlead, replace, replaceFrom_append htext, List.nil_append]
  congr 1
  cases trail with
  | nil => rw [replaceFrom, String.ofList_toList, List.append_nil]
  | cons c trail =>
    rw [List.forall_mem_cons] at htrail
    have hrest := replace_separators_append hf htrail.2 []
    rw [List.append_nil, replace_nil hf, List.append_nil] at hrest
    rw [replaceFrom, if_pos htrail.1, String.ofList_toList]
    exact congrArg _ (congrArg _ hrest)

theorem scan_renamed {word : List Char} (hw : ∀ c ∈ word, isSeparator c = false) :
    scan (f (String.ofList word)).toList = (scan word).map f := by
  by_cases hne : word = []
  · subst hne
    rw [String.ofList_nil, hf.empty]
    rfl
  · rw [scan_eq_singleton hne hw, List.map_singleton]
    rcases hf.solid (String.ofList word) with he | hs
    · rw [he, String.toList_ofList, scan_eq_singleton hne hw]
    · rw [scan_eq_singleton hs.ne_nil fun c hc => hs.isSeparator_of_mem hc, String.ofList_toList]

theorem scan_replaceFrom {word : List Char} (hw : ∀ c ∈ word, isSeparator c = false)
    (cs : List Char) : scan (replaceFrom f word cs) = (scan (word ++ cs)).map f := by
  -- What has been read of the next token has no separators, however far the text is read.
  induction cs generalizing word with
  | nil => rw [replaceFrom, List.append_nil, scan_renamed hf hw]
  | cons c cs ih =>
    rw [replaceFrom]
    split
    next hc =>
      rw [scan_append_cons _ hc, scan_append_cons _ hc, scan_renamed hf hw, ih (by simp),
        List.map_append, List.nil_append]
    next hc =>
      rw [List.append_cons word c cs]
      have hc : ∀ d ∈ [c], isSeparator d = false := by simpa using hc
      exact ih (List.forall_mem_append.mpr ⟨hw, hc⟩)

theorem scan_replace (cs : List Char) : scan (replace f cs) = (scan cs).map f :=
  scan_replaceFrom hf (by simp) cs

theorem mem_replaceFrom {word cs : List Char} {c : Char} (h : c ∈ replaceFrom f word cs) :
    c ∈ word ∨ c ∈ cs ∨ isPlain c = true := by
  have hplain {w : List Char} (hm : c ∈ (f (String.ofList w)).toList) :
      c ∈ w ∨ isPlain c = true := by
    rcases hf.solid (String.ofList w) with he | hs
    · rw [he, String.toList_ofList] at hm
      exact .inl hm
    · exact .inr (hs.isPlain_of_mem hm)
  induction cs generalizing word with
  | nil => exact (hplain h).imp_right .inr
  | cons d cs ih =>
    rw [replaceFrom] at h
    split at h
    · rcases List.mem_append.mp h with hm | hm
      · exact (hplain hm).imp_right .inr
      · rcases List.mem_cons.mp hm with rfl | hm
        · exact .inr (.inl List.mem_cons_self)
        · rcases ih hm with hw | hcs
          · cases hw
          · exact .inr (hcs.imp_left (List.mem_cons_of_mem d))
    · rcases ih h with hw | hcs
      · rcases List.mem_append.mp hw with hw | hd
        · exact .inl hw
        · rw [List.mem_singleton] at hd
          exact .inr (.inl (hd ▸ List.mem_cons_self))
      · exact .inr (hcs.imp_left (List.mem_cons_of_mem d))

/-- Only plain characters are new. -/
theorem mem_replace {cs : List Char} {c : Char} (h : c ∈ replace f cs) :
    c ∈ cs ∨ isPlain c = true := by
  rcases mem_replaceFrom hf h with hm | h
  · cases hm
  · exact h

theorem mem_replaceOperands {cs : List Char} {c : Char} (h : c ∈ replaceOperands f cs) :
    c ∈ cs ∨ isPlain c = true := by
  obtain ⟨gap, head, after, hcs, hr, -⟩ := exists_parts f cs
  rw [hr, List.mem_append, List.mem_append] at h
  rw [hcs, List.mem_append, List.mem_append]
  rcases h with hg | hh | ha
  · exact .inl (.inl hg)
  · exact .inl (.inr (.inl hh))
  · exact (mem_replace hf ha).imp_left fun hm => .inr (.inr hm)

/-- The first token of a text stays, the others are replaced. -/
theorem scan_replaceOperands (cs : List Char) :
    scan (replaceOperands f cs) = (scan cs).take 1 ++ ((scan cs).drop 1).map f := by
  obtain ⟨gap, head, after, hcs, hr, hg, hh, ha, hnil⟩ := exists_parts f cs
  rw [hr, hcs, scan_separators_append hg, scan_separators_append hg]
  by_cases hne : head = []
  · rw [hne, hnil hne, replace_nil hf]
    rfl
  · have hreplaced : ∀ c ∈ (replace f after).head?, isSeparator c = true := by
      cases after with
      | nil => simp [replace_nil hf]
      | cons c after =>
        rw [replace_cons hf (ha c rfl)]
        exact ha
    rw [scan_append_of_head? hne hh hreplaced, scan_append_of_head? hne hh ha, scan_replace hf]
    rfl

end Replace

end Token

theorem Token.isSeparator_of_isBlank {c : Char} (h : Text.isBlank c = true) :
    isSeparator c = true := by
  simp [isSeparator, h]

namespace LabelName

variable {name : String} (h : LabelName name) {c : Char} (hc : c ∈ name.toList)
include h hc

theorem isSeparator_of_mem : Token.isSeparator c = false := by
  simp [Token.isSeparator, h.solid c hc]

theorem isBlank_of_mem : Text.isBlank c = false := (h.solid c hc).1

end LabelName

theorem LabelName.token {name : String} (h : LabelName name) (hl : ':' ∉ name.toList)
    (hc : '#' ∉ name.toList) : Token.Solid name := by
  refine ⟨h.ne_nil, List.all_eq_true.mpr fun c hm => Token.isPlain_iff.mpr ⟨?_, ?_, ?_⟩⟩
  · exact h.isSeparator_of_mem hm
  · rintro rfl
    exact hc hm
  · rintro rfl
    exact hl hm

namespace Line

/-- Renames the label and the operands in the text before the comment. -/
def renameCode (f : String → String) (code : List Char) : List Char :=
  match Text.cut ':' code with
  | (body, none) => Token.replaceOperands f body
  | (before, some body) => Token.replace f before ++ ':' :: Token.replaceOperands f body

def rename (f : String → String) (raw : String) : String :=
  let (code, comment) := Text.cut '#' raw.toList
  String.ofList (renameCode f code ++ comment.elim [] ('#' :: ·))

theorem renameCode_of_unmarked (f : String → String) {code : List Char} (h : ':' ∉ code) :
    renameCode f code = Token.replaceOperands f code := by
  rw [renameCode, Text.cut_eq_none h]

theorem renameCode_of_marked (f : String → String) {before : List Char} (h : ':' ∉ before)
    (body : List Char) : renameCode f (before ++ ':' :: body) =
      Token.replace f before ++ ':' :: Token.replaceOperands f body := by
  rw [renameCode, Text.cut_append h]

section Rename

variable {f : String → String} (hf : Token.Renames f)
include hf

theorem mem_renameCode {code : List Char} {c : Char} (h : c ∈ renameCode f code) :
    c ∈ code ∨ Token.isPlain c = true := by
  by_cases hm : ':' ∈ code
  · obtain ⟨before, body, rfl, hb⟩ := List.eq_append_cons_of_mem hm
    rw [renameCode_of_marked f hb, List.mem_append, List.mem_cons] at h
    rw [List.mem_append, List.mem_cons]
    rcases h with hl | hc | ho
    · exact (Token.mem_replace hf hl).imp_left .inl
    · exact .inl (.inr (.inl hc))
    · exact (Token.mem_replaceOperands hf ho).imp_left fun hm => .inr (.inr hm)
  · rw [renameCode_of_unmarked f hm] at h
    exact Token.mem_replaceOperands hf h

theorem statement_replaceOperands (body : List Char) :
    .ofTokens (Token.scan (Token.replaceOperands f body)) =
      ({ name := f } : Relocation).statement (.ofTokens (Token.scan body)) := by
  rw [Token.scan_replaceOperands hf]
  cases Token.scan body with
  | nil => rfl
  | cons head operands =>
    change Statement.ofTokens (head :: operands.map f) = _
    rw [Statement.ofTokens, Statement.ofTokens]
    split <;> rfl

theorem trim_replace {before : List Char} {label : String} (hl : Text.trim before = label.toList)
    (h : LabelName label) (hname : LabelName (f label)) :
    Text.trim (Token.replace f before) = (f label).toList := by
  obtain ⟨lead, trail, hbefore, hlead, htrail⟩ := Text.exists_trim before
  rw [hl] at hbefore
  rw [hbefore, Token.replace_between hf (fun c hc => Token.isSeparator_of_isBlank (hlead c hc))
    (fun c hc => Token.isSeparator_of_isBlank (htrail c hc)) fun c hc => h.isSeparator_of_mem hc]
  exact Text.trim_between hlead (fun c hc => hname.isBlank_of_mem hc) htrail

/-- Renamed code reads as the code does, with the new names. -/
theorem parseCode_renameCode {code : List Char} {label : Option String} {statement : Statement}
    (h : parseCode code = .ok (label, statement))
    (hl : ∀ name, label = some name → LabelName (f name)) :
    parseCode (renameCode f code) =
      .ok (label.map f, ({ name := f } : Relocation).statement statement) := by
  have hbody {cs : List Char} (hm : ':' ∉ cs) : ':' ∉ Token.replaceOperands f cs := fun hr =>
    (Token.mem_replaceOperands hf hr).elim hm (by decide)
  rw [parseCode_eq_ok_iff] at h ⊢
  rcases h with ⟨hm, rfl, rfl⟩ | ⟨before, body, name, rfl, hb, hm, ht, hcheck, rfl, rfl⟩
  · rw [renameCode_of_unmarked f hm, ← statement_replaceOperands hf]
    exact .inl ⟨hbody hm, rfl, rfl⟩
  · have hname := hl name rfl
    have hbefore : ':' ∉ Token.replace f before := fun hr =>
      (Token.mem_replace hf hr).elim hb (by decide)
    rw [renameCode_of_marked f hb, ← statement_replaceOperands hf]
    exact .inr ⟨_, _, f name, rfl, hbefore, hbody hm,
      trim_replace hf ht (checkLabel_eq_ok_iff.mp hcheck) hname, checkLabel_eq_ok_iff.mpr hname,
      rfl, rfl⟩

theorem parse_rename {number : Nat} {raw : String} {line : Line}
    (h : parse number raw = .ok line) (hl : ∀ name, line.label = some name → LabelName (f name)) :
    parse number (rename f raw) =
      .ok { ({ name := f } : Relocation).line line with raw := rename f raw } := by
  obtain ⟨label, statement, hc, rfl⟩ := parse_eq_ok_iff.mp h
  have hcut : Text.cut '#' (rename f raw).toList =
      (renameCode f (Text.cut '#' raw.toList).1, (Text.cut '#' raw.toList).2) := by
    have hm : '#' ∉ renameCode f (Text.cut '#' raw.toList).1 := fun hr =>
      (mem_renameCode hf hr).elim (Text.not_mem_cut_fst '#' raw.toList) (by decide)
    rw [rename, String.toList_ofList]
    cases (Text.cut '#' raw.toList).2 with
    | none => rw [Option.elim_none, List.append_nil, Text.cut_eq_none hm]
    | some comment => rw [Option.elim_some, Text.cut_append hm]
  rw [parse_eq_ok_iff, hcut]
  exact ⟨_, _, parseCode_renameCode hf hc hl, rfl⟩

theorem not_mem_rename {raw : String} (h : '\n' ∉ raw.toList) : '\n' ∉ (rename f raw).toList := by
  intro hm
  rw [rename, String.toList_ofList, List.mem_append] at hm
  rcases hm with hcode | hcomment
  · rcases mem_renameCode hf hcode with hm | hp
    · exact h (Text.mem_of_mem_cut_fst hm)
    · exact absurd hp (by decide)
  · cases hcut : Text.cut '#' raw.toList with
    | mk code comment =>
      rw [hcut] at hcomment
      cases comment with
      | none => cases hcomment
      | some comment =>
        apply h
        rw [Text.eq_append_of_cut hcut]
        exact List.mem_append_right _ hcomment

theorem parseFrom_rename {number : Nat} {raws : List String} {lines : List Line}
    (h : parseFrom number raws = .ok lines)
    (hl : ∀ line ∈ lines, ∀ name, line.label = some name → LabelName (f name)) :
    ∃ others, parseFrom number (raws.map (rename f)) = .ok others ∧
      others.map core = (lines.map ({ name := f } : Relocation).line).map core := by
  induction raws generalizing number lines with
  | nil =>
    cases h
    exact ⟨[], rfl, rfl⟩
  | cons raw rest ih =>
    obtain ⟨line, later, hp, hr, rfl⟩ := parseFrom_cons_eq_ok_iff.mp h
    rw [List.forall_mem_cons] at hl
    obtain ⟨others, ho, hcore⟩ := ih hr hl.2
    refine ⟨_ :: others, parseFrom_cons_eq_ok_iff.mpr
      ⟨_, others, parse_rename hf hp hl.1, ho, rfl⟩, ?_⟩
    rw [List.map_cons, hcore]
    rfl

end Rename

end Line

def renameSource (f : String → String) (source : String) : String :=
  "\n".intercalate ((Text.pieces source).map (Line.rename f))

theorem Text.pieces_renameSource {f : String → String} (hf : Token.Renames f) (source : String) :
    pieces (renameSource f source) = (pieces source).map (Line.rename f) := by
  apply pieces_intercalate
  · simp [pieces, List.splitOn_ne_nil]
  · intro row hrow
    obtain ⟨piece, hpiece, rfl⟩ := List.mem_map.mp hrow
    obtain ⟨cs, hcs, rfl⟩ := List.mem_map.mp hpiece
    apply Line.not_mem_rename hf
    rw [String.toList_ofList]
    intro hm
    have hn := (mem_splitOnP hcs _ hm).1
    simp at hn

end Risc16
