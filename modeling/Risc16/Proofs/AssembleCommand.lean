import Risc16.Command.Assemble
import Risc16.Proofs.Arguments
import Risc16.Proofs.FileTree

/-! # The command `assemble` writes all or nothing

The arguments of a run name one source and at most one destination.  The command exits with 0 after
it has replaced the destination by the words of the whole source, and otherwise leaves every file as
it was.  Flags change what is printed only.
-/
namespace Risc16.Command.Assemble

variable {files : FileTree} {o : Options}

/-- The source can be read as a text that assembles to the program. -/
def Assembles (files : FileTree) (source : String) (program : Program) : Prop :=
  ∃ text, files.readText source = .ok text ∧ assemble text = .ok program

theorem words_prepare (o : Options) (input : Except FileFault String) :
    (prepare o input).words =
      input.toOption.bind fun text => (assemble text).toOption.map Program.text := by
  cases input <;> rfl

theorem words_prepare_eq_some_iff {words : String} :
    (prepare o (files.readText (sourceName o))).words = some words ↔
      ∃ program, Assembles files (sourceName o) program ∧ program.text = words := by
  rw [words_prepare]
  constructor
  · intro h
    obtain ⟨text, ht, hw⟩ := Option.bind_eq_some_iff.mp h
    obtain ⟨program, hp, rfl⟩ := Option.map_eq_some_iff.mp hw
    exact ⟨program, ⟨text, eq_ok_of_toOption ht, eq_ok_of_toOption hp⟩, rfl⟩
  · rintro ⟨program, ⟨text, ht, hp⟩, rfl⟩
    rw [ht, Except.toOption, Option.bind_some, hp]
    rfl

/-- Whatever else was asked for is printed before the words. -/
theorem output_prepare {program : Program} (h : Assembles files (sourceName o) program) :
    ∃ front, (prepare o (files.readText (sourceName o))).output = front ++ program.text := by
  obtain ⟨text, ht, hp⟩ := h
  have hr : (Run.ofSource text).outcome = .ok program := hp
  simp only [ht, prepare, output, hr, ← String.append_assoc]
  exact ⟨_, rfl⟩

@[simp] theorem exit_failed (p : Prepared) : p.failed.exit = 1 := rfl

@[simp] theorem exit_unwritten (p : Prepared) (fault : FileFault) :
    (p.unwritten o fault).exit = 1 := rfl

@[simp] theorem exit_written (p : Prepared) : p.written.exit = 0 := rfl

theorem execute_of_none (h : (prepare o (files.readText (sourceName o))).words = none) :
    execute o files = ((prepare o (files.readText (sourceName o))).failed, files) := by
  simp only [execute, h]

theorem execute_of_error {words : String} {fault : FileFault}
    (h : (prepare o (files.readText (sourceName o))).words = some words)
    (hw : files.write (destinationName o) words.toUTF8 = .error fault) :
    execute o files = ((prepare o (files.readText (sourceName o))).unwritten o fault, files) := by
  simp only [execute, h, hw]

theorem execute_of_ok {words : String} {after : FileTree}
    (h : (prepare o (files.readText (sourceName o))).words = some words)
    (hw : files.write (destinationName o) words.toUTF8 = .ok after) :
    execute o files = ((prepare o (files.readText (sourceName o))).written, after) := by
  simp only [execute, h, hw]

/-- The outcome of a run and the files after it: unless the exit code is 0 nothing was written, and
if it is 0 the destination holds the words and they were printed last. -/
structure AllOrNothing (files : FileTree) (source destination : String) (outcome : Outcome)
    (after : FileTree) : Prop where
  unchanged : outcome.exit ≠ 0 → after = files
  exit_eq_zero_iff : outcome.exit = 0 ↔
    (∃ program, Assembles files source program) ∧ files.CanWrite destination
  replaced : outcome.exit = 0 → ∀ program, Assembles files source program →
    files.Replaced after destination program.text ∧
      ∃ front, outcome.output = front ++ program.text

theorem Assembles.unique {source : String} {p q : Program} (hp : Assembles files source p)
    (hq : Assembles files source q) : p = q := by
  obtain ⟨text, ht, hp⟩ := hp
  obtain ⟨text', ht', hq⟩ := hq
  cases ht.symm.trans ht'
  exact Except.ok.inj (hp.symm.trans hq)

theorem allOrNothing_execute (o : Options) (files : FileTree) :
    AllOrNothing files (sourceName o) (destinationName o) (execute o files).1
      (execute o files).2 := by
  cases hw : (prepare o (files.readText (sourceName o))).words with
  | none =>
    have hn : ¬ ∃ program, Assembles files (sourceName o) program := by
      rintro ⟨program, hp⟩
      rw [words_prepare_eq_some_iff.mpr ⟨program, hp, rfl⟩] at hw
      cases hw
    rw [execute_of_none hw]
    exact {
      unchanged := fun _ => rfl
      exit_eq_zero_iff := ⟨nofun, fun h => absurd h.1 hn⟩
      replaced := nofun }
  | some words =>
    obtain ⟨program, hp, rfl⟩ := words_prepare_eq_some_iff.mp hw
    cases hf : files.write (destinationName o) program.text.toUTF8 with
    | error fault =>
      have hn : ¬ files.CanWrite (destinationName o) := by
        rw [FileTree.canWrite_iff program.text.toUTF8]
        rintro ⟨next, hx⟩
        rw [hf] at hx
        cases hx
      rw [execute_of_error hw hf]
      exact {
        unchanged := fun _ => rfl
        exit_eq_zero_iff := ⟨nofun, fun h => absurd h.2 hn⟩
        replaced := nofun }
    | ok after =>
      rw [execute_of_ok hw hf]
      exact {
        unchanged := fun h => absurd rfl h
        exit_eq_zero_iff :=
          ⟨fun _ => ⟨⟨program, hp⟩, (FileTree.canWrite_iff _).mpr ⟨after, hf⟩⟩, fun _ => rfl⟩
        replaced := fun _ other ho => by
          rw [ho.unique hp]
          exact ⟨FileTree.replaced_of_write hf, output_prepare hp⟩ }

/-- The exit code and the files depend on the names among the options only. -/
theorem execute_congr {p : Options} (h : o.names = p.names) :
    (execute o files).1.exit = (execute p files).1.exit ∧
      (execute o files).2 = (execute p files).2 := by
  have hs : sourceName o = sourceName p := by rw [sourceName, sourceName, h]
  have hd : destinationName o = destinationName p := by
    rw [destinationName, destinationName, h, hs]
  have hw : (prepare o (files.readText (sourceName o))).words =
      (prepare p (files.readText (sourceName p))).words := by
    rw [words_prepare, words_prepare, hs]
  cases hp : (prepare p (files.readText (sourceName p))).words with
  | none =>
    simp only [execute_of_none hp, execute_of_none (hw.trans hp), exit_failed, and_self]
  | some words =>
    cases hf : files.write (destinationName p) words.toUTF8 with
    | error fault =>
      simp only [execute_of_error hp hf, execute_of_error (hw.trans hp) (hd ▸ hf), exit_unwritten,
        and_self]
    | ok after =>
      simp only [execute_of_ok hp hf, execute_of_ok (hw.trans hp) (hd ▸ hf), exit_written, and_self]

theorem command_of_request {args : List String} (h : tool.request args = .run o) :
    command args files = execute o files := by
  simp only [command, h]

/-- A run of the command names a source and may name a destination.  It writes the words of the
whole source to the destination, and exits with 0, or it writes nothing.  Runs with the same names
and other flags have the same exit code and leave the same files. -/
theorem command_writes_all_or_nothing {args : List String} (h : tool.request args = .run o)
    (files : FileTree) :
    (∃ source dest?, fileNames args = source :: Option.toList dest? ∧
      AllOrNothing files source (dest?.getD (Path.withExtension source "data"))
        (command args files).1 (command args files).2) ∧
    ∀ others p, tool.request others = .run p → fileNames others = fileNames args →
      (command others files).1.exit = (command args files).1.exit ∧
        (command others files).2 = (command args files).2 := by
  obtain ⟨hn, hne, hl⟩ := Interface.names_of_request h
  constructor
  · have ha := allOrNothing_execute o files
    rw [command_of_request h, ← hn]
    match hm : o.names, hne, hl with
    | [source], _, _ =>
      simp only [sourceName, destinationName, hm] at ha
      exact ⟨source, none, rfl, ha⟩
    | [source, destination], _, _ =>
      simp only [sourceName, destinationName, hm] at ha
      exact ⟨source, some destination, rfl, ha⟩
  · intro others p hp hf
    rw [command_of_request h, command_of_request hp]
    apply execute_congr
    rw [hn, ← hf, (Interface.names_of_request hp).1]

/-- With flags and without, the words replace what was in the default destination. -/
theorem command_writes_all_or_nothing_nop :
    let files : FileTree :=
      ⟨[(["a.s"], .file "nop".toUTF8), (["a.data"], .file "halt".toUTF8)], []⟩
    (command ["-sv", "a.s"] files).1.exit = 0 ∧
      files.Replaced (command ["-sv", "a.s"] files).2 "a.data" "0000000000000000\n" ∧
      (command ["a.s"] files).2 = (command ["-sv", "a.s"] files).2 := by
  intro files
  have hq : tool.request ["-sv", "a.s"] = .run ⟨false, true, 1, ["a.s"]⟩ := rfl
  obtain ⟨⟨source, dest?, hn, ha⟩, hf⟩ := command_writes_all_or_nothing hq files
  have hs : fileNames ["-sv", "a.s"] = ["a.s"] := by decide +kernel
  obtain ⟨rfl, hd⟩ := List.cons.inj (hs.symm.trans hn)
  obtain rfl : dest? = none := Option.toList_eq_nil_iff.mp hd.symm
  have hx : Path.withExtension "a.s" "data" = "a.data" := by decide +kernel
  rw [Option.getD_none, hx] at ha
  have ht : (assemble "nop").toOption.map Program.text = some "0000000000000000\n" := by
    decide +kernel
  obtain ⟨program, hp, ht⟩ := Option.map_eq_some_iff.mp ht
  have hr : files.read "a.s" = .ok "nop".toUTF8 :=
    FileTree.read_eq_ok_iff.mpr ⟨by decide +kernel, ["a.s"], rfl, rfl⟩
  have hp : Assembles files "a.s" program :=
    ⟨"nop", FileTree.readText_of_read hr, eq_ok_of_toOption hp⟩
  have hw : files.CanWrite "a.data" := ⟨by decide +kernel, ["a.data"], rfl, nofun⟩
  have he := ha.exit_eq_zero_iff.mpr ⟨⟨program, hp⟩, hw⟩
  refine ⟨he, ?_, ?_⟩
  · rw [← ht]
    exact (ha.replaced he program hp).1
  · exact (hf ["a.s"] ⟨false, false, 0, ["a.s"]⟩ rfl (by decide +kernel)).2

end Risc16.Command.Assemble
