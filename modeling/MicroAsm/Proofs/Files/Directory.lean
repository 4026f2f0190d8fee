import MicroAsm.Proofs.Files.Places

/-!
# The files of one directory

A plain name leads to a file of the directory it is used in, and so does the name of its temporary
file, which is always another one. Operations on files act on a directory when they do to the
contents of plain names what updates do to a map. Those on a tree of files act on its working
directory.
-/

namespace MicroAsm

namespace Path

/-- The text is a name of a file, and not a way through directories. -/
def IsPlain (name : String) : Prop :=
  '/' ∉ name.toList ∧ isIdle name = false ∧ name ≠ ".."

instance : DecidablePred IsPlain :=
  fun _ => inferInstanceAs (Decidable (_ ∧ _))

variable {name : String}

lemma parts_of_isPlain (h : IsPlain name) : parts name = [name] := by
  simp [parts, split_of_not_mem h.1]

lemma fileName?_of_isPlain (h : IsPlain name) : fileName? name = some name :=
  fileName?_eq_some (by rw [parts_of_isPlain h]; rfl) h.2.1 h.2.2

lemma temporary_of_isPlain (h : IsPlain name) : temporary name = "." ++ name ++ ".tmp" := by
  have hsignificant : significant name = [name] := by
    rw [significant, parts_of_isPlain h, List.reverse_singleton,
      List.dropWhile_cons_of_neg (by simp [h.2.1]), List.reverse_singleton]
  rw [temporary, fileName?_of_isPlain h, sibling, fileName?_of_isPlain h, hsignificant]
  simp

/-- A name with something in front of it and behind it is no name of a directory. -/
lemma isPlain_temporary (h : IsPlain name) : IsPlain ("." ++ name ++ ".tmp") := by
  have hlength : 5 ≤ ("." ++ name ++ ".tmp").length := by
    simp only [String.length_append]
    have hdot : ".".length = 1 := rfl
    have htmp : ".tmp".length = 4 := rfl
    omega
  refine ⟨by simp [h.1], ?_, ?_⟩
  · rw [isIdle, Bool.or_eq_false_iff]
    constructor <;> rw [beq_eq_false_iff_ne] <;> intro heq <;> rw [heq] at hlength <;>
      exact absurd hlength (by decide)
  · intro heq
    rw [heq] at hlength
    exact absurd hlength (by decide)

end Path

/-- The plain name of a file. -/
structure FileName where
  text : String
  isPlain : Path.IsPlain text
deriving DecidableEq

/-- The contents of the files of one directory. -/
abbrev Directory := FileName → Option (List UInt8)

namespace FileName

/-- The name of the temporary file beside a file. -/
def temporary (n : FileName) : FileName :=
  ⟨"." ++ n.text ++ ".tmp", Path.isPlain_temporary n.isPlain⟩

lemma text_temporary (n : FileName) : n.temporary.text = Path.temporary n.text :=
  (Path.temporary_of_isPlain n.isPlain).symm

lemma temporary_ne (n : FileName) : n.temporary ≠ n := by
  intro heq
  have hlength := congrArg (·.text.length) heq
  have hdot : ".".length = 1 := rfl
  simp only [temporary, String.length_append] at hlength
  omega

end FileName

/-- Operations on files do to the directory that a state shows what updates do to a map. One that
fails changes nothing, but for the contents of a file that it was making. -/
structure FileAccess.ActsOn {σ : Type} (files : FileAccess (StateM σ)) (view : σ → Directory) :
    Prop where
  read : ∀ (name : FileName) (s : σ), (files.read name.text s).1.toOption = view s name
  create_ok : ∀ {name : FileName} {contents : List UInt8} {s s' : σ},
    files.create name.text contents s = (.ok (), s') →
      view s' = Function.update (view s) name (some contents)
  create_error : ∀ {name : FileName} {contents : List UInt8} {s s' : σ} {e : SystemError},
    files.create name.text contents s = (.error e, s') →
      ∀ other, other ≠ name → view s' other = view s other
  rename_ok : ∀ {name other : FileName} {s s' : σ},
    files.rename name.text other.text s = (.ok (), s') → ∃ contents, view s name = some contents ∧
      view s' = Function.update (Function.update (view s) name none) other (some contents)
  rename_error : ∀ {name other : FileName} {s s' : σ} {e : SystemError},
    files.rename name.text other.text s = (.error e, s') → view s' = view s
  remove : ∀ (name : FileName) (s : σ),
    view (files.remove name.text s).2 = Function.update (view s) name none

namespace FileTree

variable (t : FileTree) {t' : FileTree} {name other : FileName} {place : Place}
  {contents : List UInt8}

/-- The files of the working directory. -/
def workingDirectory : Directory :=
  fun name => t.contents? name.text

/-- A plain name has its place in the working directory. -/
lemma eq_of_place? (h : t.place? name.text = some place) : place = [name.text] := by
  have habsolute : Path.isAbsolute name.text = false := by
    rw [Path.isAbsolute, beq_eq_false_iff_ne]
    intro hhead
    exact name.isPlain.1 (List.mem_of_mem_head? hhead)
  obtain ⟨-, directory, part, henter, hlast, -, rfl⟩ := t.place?_eq_some_iff.mp h
  rw [Path.parts_of_isPlain name.isPlain] at henter hlast
  cases hlast
  rw [startPlace, habsolute] at henter
  cases henter
  rfl

lemma place_ne_of_ne (h : t.place? name.text = some place) (hne : other ≠ name) {place' : Place}
    (h' : t.place? other.text = some place') : place' ≠ place := by
  rw [t.eq_of_place? h, t.eq_of_place? h']
  intro heq
  obtain ⟨text, hplain⟩ := name
  obtain ⟨text', hplain'⟩ := other
  cases heq
  exact hne rfl

lemma workingDirectory_put (h : t.place? name.text = some place) :
    (t.put place contents).workingDirectory =
      Function.update t.workingDirectory name (some contents) := by
  funext other
  by_cases hother : other = name
  · rw [hother, Function.update_self]
    exact t.contents?_put_self h
  · rw [Function.update_of_ne hother]
    exact t.contents?_put_of_ne fun place' h' => t.place_ne_of_ne h hother h'

lemma file?_erase_self (place : Place) : (t.erase place).file? place = none := by
  rw [file?, erase, List.lookup_eq_none_iff]
  intro entry hentry
  rw [bne_comm]
  exact (List.mem_filter.mp hentry).2

lemma workingDirectory_erase (h : t.place? name.text = some place) :
    (t.erase place).workingDirectory = Function.update t.workingDirectory name none := by
  funext other
  by_cases hother : other = name
  · rw [hother, Function.update_self]
    show (t.erase place).contents? name.text = none
    rw [contents?_eq, place?_congr t (t.directories_erase _), h, Option.bind_some,
      file?_erase_self]
  · rw [Function.update_of_ne hother]
    exact t.contents?_erase_of_ne fun place' h' => t.place_ne_of_ne h hother h'

lemma workingDirectory_remove (name : FileName) :
    (t.remove name.text).workingDirectory = Function.update t.workingDirectory name none := by
  rw [remove]
  split
  · rename_i place contents hlocate
    exact t.workingDirectory_erase (t.file?_of_locate hlocate).1
  · rename_i hlocate
    -- There is no file of this name.
    have hnone : t.workingDirectory name = none := by
      cases hcontents : t.workingDirectory name with
      | none => rfl
      | some contents =>
        have hread : t.read name.text = .ok contents := toOption_eq_some_iff.mp hcontents
        rw [read] at hread
        obtain ⟨spot, hspot, hread⟩ := bind_eq_ok_iff.mp hread
        cases spot with
        | directory place => cases hread
        | vacant place => cases hread
        | file place old => exact absurd hspot (hlocate place old)
    rw [← hnone, Function.update_eq_self]

/-- The operations on a tree of files act on its working directory. -/
lemma actsOn_workingDirectory : access.ActsOn workingDirectory where
  read _ _ := rfl
  create_ok := by
    intro name contents t t' h
    rw [access_create] at h
    cases hcreate : t.create name.text contents with
    | error e =>
      rw [hcreate] at h
      cases h
    | ok made =>
      rw [hcreate] at h
      cases h
      obtain ⟨place, hplace, rfl⟩ := t.create_eq_ok hcreate
      exact t.workingDirectory_put hplace
  create_error := by
    intro name contents t t' e h other hother
    rw [access_create] at h
    cases hcreate : t.create name.text contents with
    | ok made =>
      rw [hcreate] at h
      cases h
    | error e =>
      rw [hcreate] at h
      cases h
      rfl
  rename_ok := by
    intro name other t t' h
    rw [access_rename] at h
    cases hrename : t.rename name.text other.text with
    | error e =>
      rw [hrename] at h
      cases h
    | ok moved =>
      rw [hrename] at h
      cases h
      obtain ⟨origin, contents, place, horigin, hcontents, hplace, rfl⟩ := t.rename_eq_ok hrename
      refine ⟨contents, ?_, ?_⟩
      · show t.contents? name.text = some contents
        rw [contents?_eq, horigin, Option.bind_some, hcontents]
      · rw [← place?_congr t (t.directories_erase origin)] at hplace
        rw [workingDirectory_put _ hplace, t.workingDirectory_erase horigin]
  rename_error := by
    intro name other t t' e h
    rw [access_rename] at h
    cases hrename : t.rename name.text other.text with
    | ok moved =>
      rw [hrename] at h
      cases h
    | error e =>
      rw [hrename] at h
      cases h
      rfl
  remove name t := t.workingDirectory_remove name

end FileTree

end MicroAsm
