import MicroAsm.CommandLine.Run
import MicroAsm.Proofs.Diagnostic.Histories
import MicroAsm.Proofs.Object.Saving
import MicroAsm.Toml.Document

/-!
# The status a run ends with

A run that assembles ends with zero only after everything it was asked for was written: its source
was read, no message stands against the object code, and the listing and the object file were
written. Whatever else happens, the path of the object file leads to what it led to before. The
status of a run that ends with messages is their number, up to the largest status there is.
-/

namespace MicroAsm

/-! ### What a run does -/

namespace CommandLine

open FileTree

variable (read : Toml.DocumentReader) (t : FileTree) (input : List UInt8) (o : Options)

/-- The configuration of a run: the one it names, with what its options say over it. -/
def settings? : Option Config :=
  (configuration read access (o.config.getD "intel8080") t).1.toOption.bind
    fun c => (adjust o c).toOption

/-- The bytes of the source of a run. -/
def source? : Option (List UInt8) :=
  match o.file with
  | none => some input
  | some file => t.contents? file

/-- What a run assembles, if its settings make sense and its source is a text that can be read. -/
def assembled? : Option Assembled :=
  (settings? read t o).bind fun c =>
    (source? t input o).bind fun bytes => (c.assembleBytes (moduleName o c) bytes).toOption

/-- The files after the listing was written where it was asked for. -/
def listed? (a : Assembled) : Option FileTree :=
  match o.listing with
  | none => some t
  | some "-" => some t
  | some path => (t.create path (Text.utf8 a.listing)).toOption

/-- The listing is where it was asked for: it was printed, or its path leads to it. -/
def Listed (a : Assembled) (outcome : Outcome) (after : FileTree) : Prop :=
  match o.listing with
  | none => True
  | some "-" => outcome.stdout = a.listing
  | some path => after.contents? path = some (Text.utf8 a.listing)

/-- The path of the object file. -/
def objectPath : String := o.out.getD "out.obj"

lemma configuration_snd (id : String) : (configuration read access id t).2 = t := by
  rw [configuration]
  cases Config.builtin? id with
  | some c => rfl
  | none =>
    simp only
    rw [isFile_bind]
    cases t.isFile id with
    | false => rfl
    | true =>
      rw [if_pos rfl, read_bind]
      cases t.read id with
      | error e => rfl
      | ok bytes => cases htext : Text.ofUtf8? bytes <;> simp only [htext, pure_apply]

/-- What was read is no text, or what comes of it is written. -/
lemma assembleBytes_cases (c : Config) (bytes : List UInt8) :
    ((c.assembleBytes (moduleName o c) bytes).toOption = none ∧
      (assembleBytes access o c bytes t).1.code = 1 ∧ (assembleBytes access o c bytes t).2 = t) ∨
    ∃ a, (c.assembleBytes (moduleName o c) bytes).toOption = some a ∧ a.log.Counted ∧
      assembleBytes access o c bytes t = writeResults access o a t := by
  rw [assembleBytes, Config.assembleBytes]
  cases Text.ofUtf8? bytes with
  | none => exact Or.inl ⟨rfl, rfl, rfl⟩
  | some source => exact Or.inr ⟨_, rfl, c.counted_assemble (moduleName o c) source, rfl⟩

/-- The source cannot be read or is no text, or what comes of it is written. -/
lemma assembleInput_cases (c : Config) :
    ((source? t input o).bind
        (fun bytes => (c.assembleBytes (moduleName o c) bytes).toOption) = none ∧
      (assembleInput access (pure input) o c t).1.code = 1 ∧
      (assembleInput access (pure input) o c t).2 = t) ∨
    ∃ a, (source? t input o).bind
        (fun bytes => (c.assembleBytes (moduleName o c) bytes).toOption) = some a ∧
      a.log.Counted ∧ assembleInput access (pure input) o c t = writeResults access o a t := by
  rw [source?, assembleInput]
  cases o.file with
  | none => exact assembleBytes_cases t o c input
  | some file =>
    simp only
    rw [isFile_bind, isFile_eq, contents?]
    cases hread : t.read file with
    | error e => exact Or.inl ⟨rfl, rfl, rfl⟩
    | ok bytes =>
      rw [Except.toOption, Option.isSome_some, if_pos rfl, read_bind, hread]
      exact assembleBytes_cases t o c bytes

/-- A run that assembles fails before it writes anything, or writes what it has assembled. -/
lemma run_cases (h : o.disassemble = false) :
    (assembled? read t input o = none ∧
      (run read access (pure input) o t).1.code = 1 ∧ (run read access (pure input) o t).2 = t) ∨
    ∃ a, assembled? read t input o = some a ∧ a.log.Counted ∧
      run read access (pure input) o t = writeResults access o a t := by
  rw [assembled?, settings?, run, bind_apply, configuration_snd]
  cases (configuration read access (o.config.getD "intel8080") t).1 with
  | error e => exact Or.inl ⟨rfl, rfl, rfl⟩
  | ok c =>
    simp only [Except.toOption, Option.bind_some]
    cases adjust o c with
    | error message => exact Or.inl ⟨rfl, rfl, rfl⟩
    | ok c =>
      simp only [h, Bool.false_eq_true, if_false, Option.bind_some]
      exact assembleInput_cases t input o c

/-- The listing is written, or the reason why it cannot be is given and nothing is. -/
lemma writeListing_cases (a : Assembled) :
    (listed? t o a = none ∧ ∃ e, writeListing access o a t = (.error e, t)) ∨
    ∃ listed stdout, listed? t o a = some listed ∧
      writeListing access o a t = (.ok stdout, listed) ∧
      (o.listing = some "-" → stdout = a.listing) := by
  rw [listed?, writeListing]
  cases o.listing with
  | none => exact Or.inr ⟨t, "", rfl, rfl, by simp⟩
  | some path =>
    by_cases hpath : path = "-"
    · subst hpath
      exact Or.inr ⟨t, a.listing, rfl, rfl, fun _ => rfl⟩
    · simp only
      rw [bind_apply, access_create]
      cases t.create path (Text.utf8 a.listing) with
      | error e => exact Or.inl ⟨rfl, (path, e), rfl⟩
      | ok listed => exact Or.inr ⟨listed, "", rfl, rfl, fun h => absurd (Option.some.inj h) hpath⟩

/-- The ways in which writing what was assembled may end. -/
lemma writeResults_cases (a : Assembled) :
    (listed? t o a = none ∧ (writeResults access o a t).1.code = 1 ∧
      (writeResults access o a t).2 = t) ∨
    ∃ listed, listed? t o a = some listed ∧
      ((a.failures ≠ 0 ∧ (writeResults access o a t).1.code = exitCode a.failures ∧
          (writeResults access o a t).2 = listed) ∨
        (a.failures = 0 ∧ (writeResults access o a t).1.code = 1 ∧
          ∃ e, a.program.object.save access (objectPath o) listed =
            (.error e, (writeResults access o a t).2)) ∨
        a.failures = 0 ∧ (writeResults access o a t).1.code = 0 ∧
          a.program.object.save access (objectPath o) listed =
            (.ok (), (writeResults access o a t).2) ∧
          (o.listing = some "-" → (writeResults access o a t).1.stdout = a.listing)) := by
  rw [writeResults, bind_apply]
  rcases writeListing_cases t o a with
    ⟨hlisted, e, heq⟩ | ⟨listed, stdout, hlisted, heq, hstdout⟩
  · rw [heq]
    exact Or.inl ⟨hlisted, rfl, rfl⟩
  · rw [heq]
    refine Or.inr ⟨listed, hlisted, ?_⟩
    by_cases hfailures : a.failures = 0
    · have hsucceeded : a.succeeded = true := by simp [Assembled.succeeded, hfailures]
      rw [objectPath]
      rcases hsave : a.program.object.save access (o.out.getD "out.obj") listed with
        ⟨result, after⟩
      simp only [hsucceeded, if_true, bind_apply, hsave]
      cases result with
      | error e => exact Or.inr (Or.inl ⟨hfailures, rfl, e, rfl⟩)
      | ok u => exact Or.inr (Or.inr ⟨hfailures, rfl, rfl, hstdout⟩)
    · have hsucceeded : a.succeeded = false := by simp [Assembled.succeeded, hfailures]
      simp only [hsucceeded, Bool.false_eq_true, if_false]
      exact Or.inl ⟨hfailures, rfl, rfl⟩

/-! ### The status -/

/-- The listing goes to the file that the object file would replace. -/
def ListsOverObject : Prop :=
  ∃ path place, o.listing = some path ∧ path ≠ "-" ∧ t.place? path = some place ∧
    t.place? (objectPath o) = some place

/-- The listing goes to the file that is the temporary one of the object file. -/
def ListsOverTemporary : Prop :=
  ∃ path place, o.listing = some path ∧ path ≠ "-" ∧ t.place? path = some place ∧
    t.place? (Path.temporary (objectPath o)) = some place

/-- A listing that goes elsewhere leaves what the path of the object file leads to. -/
lemma contents?_listed {a : Assembled} {listed : FileTree} (h : listed? t o a = some listed)
    (helsewhere : ¬ListsOverObject t o) :
    listed.contents? (objectPath o) = t.contents? (objectPath o) := by
  rw [listed?] at h
  cases hlisting : o.listing with
  | none =>
    rw [hlisting, Option.some.injEq] at h
    rw [h]
  | some path =>
    rw [hlisting] at h
    by_cases hpath : path = "-"
    · subst hpath
      rw [Option.some.inj h]
    · simp only at h
      obtain ⟨place, hplace, rfl⟩ := t.create_eq_ok (toOption_eq_some_iff.mp h)
      refine t.contents?_put_of_ne ?_
      rintro place' hplace' rfl
      exact helsewhere ⟨path, place', hlisting, hpath, hplace, hplace'⟩

/-- A listing that was written is still there when the object file has been saved, unless one of
the files that are written then is the same. -/
lemma listed_of_save {a : Assembled} {listed after : FileTree} {outcome : Outcome}
    (h : listed? t o a = some listed)
    (hsave : a.program.object.save access (objectPath o) listed = (.ok (), after))
    (hstdout : o.listing = some "-" → outcome.stdout = a.listing)
    (hobject : ¬ListsOverObject t o) (htemporary : ¬ListsOverTemporary t o) :
    Listed o a outcome after := by
  rw [listed?] at h
  rw [Listed]
  cases hlisting : o.listing with
  | none => trivial
  | some path =>
    rw [hlisting] at h
    by_cases hpath : path = "-"
    · subst hpath
      exact hstdout hlisting
    · simp only at h ⊢
      obtain ⟨place, hplace, rfl⟩ := t.create_eq_ok (toOption_eq_some_iff.mp h)
      have hsame := place?_congr t (t.directories_put place (Text.utf8 a.listing))
      rw [ObjectCode.contents?_save_of_ne hsave, t.contents?_put_self hplace]
      · intro place' hother hout
        rw [hsame] at hother hout
        exact hobject ⟨path, place', hlisting, hpath, hother, hout⟩
      · intro place' hother hout
        rw [hsame] at hother hout
        exact htemporary ⟨path, place', hlisting, hpath, hother, hout⟩

lemma failures_eq_zero_iff {a : Assembled} (h : a.log.Counted) :
    a.failures = 0 ↔ ∀ m ∈ a.log.messages.toList, m.severity = .warning := by
  rw [Assembled.failures, h.failures_eq, List.countP_eq_zero]
  simp

/-- What the status of a run that assembles says. It is zero if and only if the source was read and
is a text, no message is an error or an exception, and the listing and the object file were
written; the path of the object file then leads to the binary form of what was assembled, and the
listing is where it was asked for, unless that is the object file itself or its temporary file. With
any other status the path of the object file leads to what it led to before, unless the listing was
to go there. A run that gets to the end of its work has the number of errors and exceptions as its
status, but at most 255. -/
theorem run_status (hassembles : o.disassemble = false) :
    ((run read access (pure input) o t).1.code = 0 ↔
      ∃ a listed, assembled? read t input o = some a ∧
        (∀ m ∈ a.log.messages.toList, m.severity = .warning) ∧ listed? t o a = some listed ∧
        (a.program.object.save access (objectPath o) listed).1 = .ok ()) ∧
    ((run read access (pure input) o t).1.code = 0 →
      ∃ a bytes, assembled? read t input o = some a ∧ ObjectFile.write a.program.object = .ok bytes ∧
        (run read access (pure input) o t).2.contents? (objectPath o) = some bytes) ∧
    ((run read access (pure input) o t).1.code = 0 → ¬ListsOverObject t o →
      ¬ListsOverTemporary t o → ∃ a, assembled? read t input o = some a ∧
        Listed o a (run read access (pure input) o t).1 (run read access (pure input) o t).2) ∧
    ((run read access (pure input) o t).1.code ≠ 0 → ¬ListsOverObject t o →
      (run read access (pure input) o t).2.contents? (objectPath o) = t.contents? (objectPath o)) ∧
    (∀ a, assembled? read t input o = some a → ∀ listed, listed? t o a = some listed →
      (∃ m ∈ a.log.messages.toList, m.severity ≠ .warning) ∨
        (a.program.object.save access (objectPath o) listed).1 = .ok () →
      (run read access (pure input) o t).1.code =
        min (a.log.messages.toList.countP (·.severity ≠ .warning)) 255) := by
  rcases run_cases read t input o hassembles with ⟨hnone, hcode, htree⟩ | ⟨a, hsome, hcounted, heq⟩
  · rw [hcode, htree, hnone]
    exact ⟨by simp, by simp, by simp, fun _ _ => rfl, by simp⟩
  have hzero := failures_eq_zero_iff hcounted
  have hcount : a.failures = a.log.messages.toList.countP (·.severity ≠ .warning) :=
    hcounted.failures_eq
  rw [heq, hsome]
  simp only [Option.some.injEq, exists_and_left, exists_eq_left', forall_eq']
  rcases writeResults_cases t o a with ⟨hlisted, hcode, htree⟩ | ⟨listed, hlisted, hwritten⟩
  · -- The listing could not be written.
    rw [hcode, htree, hlisted]
    exact ⟨by simp, by simp, by simp, fun _ _ => rfl, by simp⟩
  rw [hlisted]
  simp only [Option.some.injEq, exists_eq_left', forall_eq']
  rcases hwritten with
    ⟨hfailures, hcode, htree⟩ | ⟨hfailures, hcode, e, hsave⟩ | ⟨hfailures, hcode, hsave, hstdout⟩
  · -- There are messages against the use of the object code.
    have hpositive : exitCode a.failures ≠ 0 := by
      rw [exitCode]
      omega
    rw [hcode, htree]
    refine ⟨?_, fun h => absurd h hpositive, fun h => absurd h hpositive,
      fun _ => contents?_listed t o hlisted, fun _ => ?_⟩
    · exact ⟨fun h => absurd h hpositive, fun h => absurd (hzero.mpr h.1) hfailures⟩
    · rw [exitCode, hcount]
  · -- The object file could not be written.
    rw [hcode, hsave]
    refine ⟨by simp, by simp, by simp, fun _ helsewhere => ?_, ?_⟩
    · rw [ObjectCode.contents?_save_of_error hsave]
      exact contents?_listed t o hlisted helsewhere
    · rintro (⟨m, hm, hseverity⟩ | hok)
      · exact absurd (hzero.mp hfailures m hm) hseverity
      · cases hok
  · rw [hcode, hsave, ← hcount, hfailures]
    obtain ⟨bytes, hwrite, hcontents⟩ := ObjectCode.contents?_save_of_ok hsave
    exact ⟨by simpa using hzero.mp hfailures, fun _ => ⟨bytes, hwrite, hcontents⟩,
      fun _ => listed_of_save t o hlisted hsave hstdout, fun h => absurd rfl h, fun _ => rfl⟩

/-- A unit with text behind its end is written out with a warning. When warnings are to be errors,
it leaves the older object file alone. -/
theorem run_status_of_warning :
    let t := (({} : FileTree).addFile "a.asm" (Text.utf8 "DB 1\nEND\nNOP")).addFile "a.obj" [0x2A]
    let o : Options := { file := some "a.asm", out := some "a.obj", listing := some "a.lst" }
    let strict : Options := { o with warnings := some "error" }
    o.disassemble = false ∧ strict.disassemble = false ∧
      (run Toml.read access (pure []) o t).1.code = 0 ∧
      (∃ a bytes, assembled? Toml.read t [] o = some a ∧
        ObjectFile.write a.program.object = .ok bytes ∧
        (run Toml.read access (pure []) o t).2.contents? "a.obj" = some bytes) ∧
      (∃ a, assembled? Toml.read t [] o = some a ∧
        (run Toml.read access (pure []) o t).2.contents? "a.lst" = some (Text.utf8 a.listing)) ∧
      (run Toml.read access (pure []) strict t).1.code = 1 ∧
      (run Toml.read access (pure []) strict t).2.contents? "a.obj" = some [0x2A] := by
  intro t o strict
  have hcode : (run Toml.read access (pure []) o t).1.code = 0 := by decide +kernel
  have hstrict : (run Toml.read access (pure []) strict t).1.code = 1 := by decide +kernel
  have hold : t.contents? "a.obj" = some [0x2A] := by decide +kernel
  have hlisting : t.place? "a.lst" = some ["a.lst"] := by decide +kernel
  have hobject : t.place? "a.obj" = some ["a.obj"] := by decide +kernel
  have htemporary : t.place? (Path.temporary "a.obj") = some [".a.obj.tmp"] := by decide +kernel
  have hapart : ¬ListsOverObject t o := by
    rintro ⟨path, place, hpath, -, hplace, hsame⟩
    cases hpath
    rw [hlisting] at hplace
    rw [show objectPath o = "a.obj" from rfl, hobject, ← hplace] at hsame
    simp at hsame
  have hbeside : ¬ListsOverTemporary t o := by
    rintro ⟨path, place, hpath, -, hplace, hsame⟩
    cases hpath
    rw [hlisting] at hplace
    rw [show objectPath o = "a.obj" from rfl, htemporary, ← hplace] at hsame
    simp at hsame
  obtain ⟨-, hwritten, hlisted, -, -⟩ := run_status Toml.read t [] o rfl
  obtain ⟨-, -, -, hkept, -⟩ := run_status Toml.read t [] strict rfl
  refine ⟨rfl, rfl, hcode, hwritten hcode, hlisted hcode hapart hbeside, hstrict, ?_⟩
  rw [← hold]
  exact hkept (by rw [hstrict]; decide) hapart

end CommandLine

end MicroAsm
