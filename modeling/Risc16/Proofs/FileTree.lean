import Risc16.Command.FileTree
import Risc16.Proofs.Expansion

/-! # One file that is replaced

A write fails, or the file that its path leads to holds the new bytes and all else is as before.
Which of the two it is depends on the path and not on the bytes.  The path still leads to the same
place after the write, because the folders on the way there are not what was replaced.
-/
namespace Risc16.FileTree

variable {t : FileTree} {path : String} {location : Location}

/-- The path leads to a file or to nothing, and does not ask for a folder. -/
def CanWrite (t : FileTree) (path : String) : Prop :=
  Path.endsInSlash path = false ∧
    ∃ location, t.locate path = .ok location ∧ t.get? location ≠ some .folder

/-- The two trees differ in the file that the path leads to and in nothing else; in `after` this
file holds the text. -/
structure Replaced (t after : FileTree) (path text : String) : Prop where
  read : after.read path = .ok text.toUTF8
  current : after.current = t.current
  others : ∃ location, t.locate path = .ok location ∧ after.locate path = .ok location ∧
    ∀ other ≠ location, after.get? other = t.get? other

theorem read_eq_ok_iff {content : ByteArray} :
    t.read path = .ok content ↔ Path.endsInSlash path = false ∧
      ∃ location, t.locate path = .ok location ∧ t.get? location = some (.file content) := by
  simp only [read, bind_eq_ok_iff]
  constructor
  · rintro ⟨location, hl, hr⟩
    split at hr
    · cases hr
    · cases hr
    next bytes he =>
      split at hr
      · cases hr
      next hs =>
        cases hr
        exact ⟨by simpa using hs, location, hl, he⟩
  · rintro ⟨hs, location, hl, he⟩
    exact ⟨location, hl, by simp [he, hs]⟩

theorem readText_of_read {text : String} (h : t.read path = .ok text.toUTF8) :
    t.readText path = .ok text := by
  have hu : String.fromUTF8? text.toUTF8 = some text := dif_pos text.isValidUTF8
  rw [readText, h]
  simp only [bind, Except.bind, hu]

theorem write_eq_ok_iff {content : ByteArray} {next : FileTree} :
    t.write path content = .ok next ↔ Path.endsInSlash path = false ∧
      ∃ location, t.locate path = .ok location ∧ t.get? location ≠ some .folder ∧
        next = t.put location (.file content) := by
  simp only [write, bind_eq_ok_iff]
  constructor
  · rintro ⟨location, hl, hw⟩
    split at hw
    · cases hw
    all_goals
      next he =>
        split at hw
        · cases hw
        next hs =>
          cases hw
          exact ⟨by simpa using hs, location, hl, by simp [he], rfl⟩
  · rintro ⟨hs, location, hl, hf, rfl⟩
    refine ⟨location, hl, ?_⟩
    split
    next he => exact absurd he hf
    all_goals simp [hs]

/-- Whether a write fails does not depend on what is written. -/
theorem canWrite_iff (content : ByteArray) :
    t.CanWrite path ↔ ∃ next, t.write path content = .ok next := by
  simp only [write_eq_ok_iff]
  constructor
  · rintro ⟨hs, location, hl, hf⟩
    exact ⟨_, hs, location, hl, hf, rfl⟩
  · rintro ⟨next, hs, location, hl, hf, -⟩
    exact ⟨hs, location, hl, hf⟩

section Put

variable (h : t.get? location ≠ some .folder) (entry : Entry)
include h

theorem enter_put {folder next : Location} {name : String} (he : t.enter folder name = .ok next) :
    (t.put location entry).enter folder name = .ok next := by
  unfold enter at he ⊢
  split
  next hd => rwa [if_pos hd] at he
  next hd =>
    rw [if_neg hd] at he
    split
    next hu => rwa [if_pos hu] at he
    next hu =>
      rw [if_neg hu] at he
      split at he
      next hg =>
        have hn : folder ++ [name] ≠ location := by
          rintro rfl
          exact h hg
        rw [get?_put_of_ne t hn, hg]
        exact he
      · cases he
      · cases he

theorem foldlM_enter_put {names : List String} {folder last : Location}
    (hf : names.foldlM t.enter folder = .ok last) :
    names.foldlM (t.put location entry).enter folder = .ok last := by
  induction names generalizing folder with
  | nil => exact hf
  | cons name rest ih =>
    rw [List.foldlM_cons, bind_eq_ok_iff] at hf ⊢
    obtain ⟨next, he, hr⟩ := hf
    exact ⟨next, enter_put h entry he, ih hr⟩

theorem follow_put {names : List String} {folder last : Location}
    (hf : t.follow folder names = .ok last) :
    (t.put location entry).follow folder names = .ok last := by
  unfold follow at hf ⊢
  split
  next hn => simpa only [hn] using hf
  next name hn =>
    simp only [hn] at hf
    split
    next hd =>
      rw [if_pos hd] at hf
      exact foldlM_enter_put h entry hf
    next hd =>
      rw [if_neg hd] at hf
      cases hx : names.dropLast.foldlM t.enter folder with
      | error e =>
        rw [hx] at hf
        cases hf
      | ok parent =>
        rw [foldlM_enter_put h entry hx]
        rwa [hx] at hf

theorem locate_put {last : Location} (hl : t.locate path = .ok last) :
    (t.put location entry).locate path = .ok last :=
  follow_put h entry hl

end Put

theorem replaced_of_write {text : String} {after : FileTree}
    (h : t.write path text.toUTF8 = .ok after) : t.Replaced after path text := by
  obtain ⟨hs, location, hl, hf, rfl⟩ := write_eq_ok_iff.mp h
  -- The root is a folder, so it is not the place that was written to.
  have hr : location ≠ [] := by
    rintro rfl
    exact hf rfl
  have hl' := locate_put hf (.file text.toUTF8) hl
  exact {
    read := read_eq_ok_iff.mpr ⟨hs, location, hl', get?_put_self t hr _⟩
    current := rfl
    others := ⟨location, hl, hl', fun _ ho => get?_put_of_ne t ho _⟩ }

end Risc16.FileTree
