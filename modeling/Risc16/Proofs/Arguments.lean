import Risc16.Command.Arguments
import Risc16.Proofs.Expansion

/-! # Files that arguments name

A run has files to work on: the arguments that are not flags, in their order, at least one of them
and no more than the tool takes.  Whatever stands among the flags, arguments that do not ask for a
run are never taken for one.
-/
namespace Risc16.Command

/-- The arguments that are not flags, and all that follow `--`. -/
def fileNames : List String → List String
  | [] => []
  | arg :: rest => match arg.toList with
    | ['-', '-'] => rest
    | '-' :: _ :: _ => fileNames rest
    | _ => arg :: fileNames rest

section FileNames

variable {arg : String} {rest : List String}

theorem fileNames_end (h : arg.toList = ['-', '-']) : fileNames (arg :: rest) = rest := by
  simp only [fileNames, h]

theorem fileNames_flag {c : Char} {cs : List Char} (h : arg.toList = '-' :: c :: cs)
    (hne : c = '-' → cs ≠ []) : fileNames (arg :: rest) = fileNames rest := by
  rw [fileNames]
  split
  next he =>
    rw [h] at he
    cases he
    exact absurd rfl (hne rfl)
  · rfl
  next hf => exact absurd h (hf c cs)

theorem fileNames_name (h : ∀ c cs, arg.toList ≠ '-' :: c :: cs) :
    fileNames (arg :: rest) = arg :: fileNames rest := by
  rw [fileNames]
  split
  next he => exact absurd he (h '-' [])
  next he => exact absurd he (h _ _)
  · rfl

end FileNames

namespace Interface

variable {tool : Interface} {o next : Options}

theorem names_setFlag {flag : Option Flag} (h : setFlag o flag = .ok next) :
    next.names = o.names := by
  cases flag with
  | none => cases h
  | some flag =>
    cases flag with
    | dump | symbols =>
      simp only [setFlag, Options.set] at h
      split at h
      · cases h
      · cases h
        rfl
    | verbose =>
      cases h
      rfl
    | version | help => cases h

theorem names_foldlM_setShort {cs : List Char} (h : cs.foldlM tool.setShort o = .ok next) :
    next.names = o.names := by
  induction cs generalizing o with
  | nil =>
    cases h
    rfl
  | cons c rest ih =>
    rw [List.foldlM_cons, bind_eq_ok_iff] at h
    obtain ⟨mid, hc, hr⟩ := h
    rw [ih hr, names_setFlag hc]

theorem addName_eq_ok {name : String} (h : tool.addName o name = .ok next) :
    next.names = o.names ++ [name] ∧ next.names.length ≤ tool.names := by
  unfold addName at h
  split at h
  · cases h
  next hn =>
    cases h
    simp only [Bool.or_eq_true, decide_eq_true_eq, not_or] at hn
    refine ⟨rfl, ?_⟩
    simp only [List.length_append, List.length_singleton]
    omega

theorem foldlM_addName {names : List String} (hb : o.names.length ≤ tool.names)
    (h : names.foldlM tool.addName o = .ok next) :
    next.names = o.names ++ names ∧ next.names.length ≤ tool.names := by
  induction names generalizing o with
  | nil =>
    cases h
    exact ⟨(List.append_nil _).symm, hb⟩
  | cons name rest ih =>
    rw [List.foldlM_cons, bind_eq_ok_iff] at h
    obtain ⟨mid, hn, hr⟩ := h
    obtain ⟨hm, hl⟩ := addName_eq_ok hn
    obtain ⟨he, hb'⟩ := ih hl hr
    exact ⟨by rw [he, hm, List.append_assoc, List.singleton_append], hb'⟩

/-- The names that a scan collects are the file names among the arguments, as many as the tool
takes at most. -/
theorem names_scan {args : List String} (hb : o.names.length ≤ tool.names)
    (h : tool.scan o args = .ok next) :
    next.names = o.names ++ fileNames args ∧ next.names.length ≤ tool.names := by
  induction args generalizing o with
  | nil =>
    cases h
    exact ⟨(List.append_nil _).symm, hb⟩
  | cons arg rest ih =>
    unfold scan at h
    -- The cases are the end of the flags, a long flag, short flags and a name.
    split at h
    next he =>
      rw [fileNames_end he]
      exact foldlM_addName hb h
    next name hne he =>
      obtain ⟨mid, hm, hr⟩ := bind_eq_ok_iff.mp h
      rw [fileNames_flag he fun _ => hne, ← names_setFlag hm]
      exact ih (by rwa [names_setFlag hm]) hr
    next c cs hne hl he =>
      obtain ⟨mid, hm, hr⟩ := bind_eq_ok_iff.mp h
      rw [fileNames_flag he hne, ← names_foldlM_setShort hm]
      exact ih (by rwa [names_foldlM_setShort hm]) hr
    next hne hl hs =>
      obtain ⟨mid, hm, hr⟩ := bind_eq_ok_iff.mp h
      obtain ⟨hn, hb'⟩ := addName_eq_ok hm
      rw [fileNames_name hs, ← List.singleton_append, ← List.append_assoc, ← hn]
      exact ih hb' hr

theorem setFlag_ne_run {flag : Option Flag} {p : Options} : setFlag o flag ≠ .error (.run p) := by
  cases flag with
  | none => exact nofun
  | some flag =>
    cases flag with
    | dump | symbols =>
      simp only [setFlag, Options.set]
      split <;> exact nofun
    | verbose | version | help => exact nofun

theorem addName_ne_run {name : String} {p : Options} : tool.addName o name ≠ .error (.run p) := by
  unfold addName
  split <;> exact nofun

theorem foldlM_ne_run {α : Type} {f : Options → α → Except Request Options} {p : Options}
    (hf : ∀ o a, f o a ≠ .error (.run p)) (as : List α) : as.foldlM f o ≠ .error (.run p) := by
  induction as generalizing o with
  | nil => exact nofun
  | cons a rest ih =>
    rw [List.foldlM_cons]
    intro h
    rcases bind_eq_error_iff.mp h with ha | ⟨mid, -, hr⟩
    · exact hf o a ha
    · exact ih hr

theorem scan_ne_run {args : List String} {p : Options} : tool.scan o args ≠ .error (.run p) := by
  induction args generalizing o with
  | nil => exact nofun
  | cons arg rest ih =>
    unfold scan
    intro h
    split at h
    · exact foldlM_ne_run (fun _ _ => addName_ne_run) _ h
    all_goals rcases bind_eq_error_iff.mp h with ha | ⟨mid, -, hr⟩
    · exact setFlag_ne_run ha
    · exact ih hr
    · exact foldlM_ne_run (fun _ _ => setFlag_ne_run) _ ha
    · exact ih hr
    · exact addName_ne_run ha
    · exact ih hr

/-- A run names its files, one or more up to the number that the tool takes. -/
theorem names_of_request {args : List String} (h : tool.request args = .run o) :
    o.names = fileNames args ∧ o.names ≠ [] ∧ o.names.length ≤ tool.names := by
  unfold request at h
  split at h
  next hs =>
    rw [h] at hs
    exact absurd hs scan_ne_run
  next hs =>
    split at h
    · cases h
    next hn =>
      cases h
      obtain ⟨he, hb⟩ := names_scan (Nat.zero_le _) hs
      exact ⟨he, by simpa using hn, hb⟩

end Interface

end Risc16.Command
