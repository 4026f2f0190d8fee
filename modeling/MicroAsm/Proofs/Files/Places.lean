import MicroAsm.Files.Tree
import MicroAsm.Proofs.Files.Parts
import MicroAsm.Proofs.Outcome

/-!
# Places of files

A path that leads to a file, or to a free name in a directory, leads to a place, and the directories
of the tree alone decide to which. Reading a path looks up its place, and making or moving a file
puts contents at one. The temporary file beside another never has the place of that one.
-/

namespace MicroAsm

/-! ### Places -/

/-- The place of the file that a path leads to, or of the one that it can be given. -/
def Spot.place? : Spot → Option Place
  | directory _ => none
  | file place _ => some place
  | vacant place => some place

namespace FileTree

variable (t : FileTree) {t' : FileTree} {path : String} {place other : Place}
  {contents : List UInt8}

@[simp] lemma directories_put (place : Place) (contents : List UInt8) :
    (t.put place contents).directories = t.directories := rfl

@[simp] lemma directories_erase (place : Place) :
    (t.erase place).directories = t.directories := rfl

lemma lookup_filter_of_ne (hne : place ≠ other) (files : List (Place × List UInt8)) :
    (files.filter (·.1 != other)).lookup place = files.lookup place := by
  induction files with
  | nil => rfl
  | cons entry files ih =>
    obtain ⟨key, contents⟩ := entry
    by_cases hkey : key = other
    · have hne' : (place == key) = false := beq_false_of_ne (hkey ▸ hne)
      rw [List.filter_cons_of_neg (by simp [hkey]), ih, List.lookup_cons, hne']
    · rw [List.filter_cons_of_pos (by simpa using hkey), List.lookup_cons, List.lookup_cons, ih]

@[simp] lemma file?_put_self (place : Place) (contents : List UInt8) :
    (t.put place contents).file? place = some contents := by
  simp [file?, put]

lemma file?_put_of_ne (hne : place ≠ other) (contents : List UInt8) :
    (t.put other contents).file? place = t.file? place := by
  have hkey : (place == other) = false := beq_false_of_ne hne
  simp only [file?, put, List.lookup_cons, hkey]
  exact lookup_filter_of_ne hne _

lemma file?_erase_of_ne (hne : place ≠ other) : (t.erase other).file? place = t.file? place :=
  lookup_filter_of_ne hne _

lemma toOption_eq_some_iff {α : Type} {x : Except SystemError α} {a : α} :
    x.toOption = some a ↔ x = .ok a := by
  cases x <;> simp [Except.toOption]

/-- The place that a path leads to. -/
def place? (path : String) : Option Place :=
  (t.locate path).toOption.bind Spot.place?

/-- What is in the file that a path leads to, if it leads to one. -/
def contents? (path : String) : Option (List UInt8) :=
  (t.read path).toOption

lemma toOption_enter (h : t'.directories = t.directories) (parts : List String) :
    (t'.enter place parts).toOption = (t.enter place parts).toOption := by
  induction parts generalizing place with
  | nil => rfl
  | cons part parts ih =>
    have hdirectory : t'.isDirectory (place ++ [part]) = t.isDirectory (place ++ [part]) := by
      rw [isDirectory, isDirectory, h]
    rw [enter, enter, hdirectory]
    split
    · exact ih
    · split
      · exact ih
      · split
        · rfl
        · split
          · exact ih
          · -- Without a directory to go into, the files only say what went wrong.
            split <;> split <;> rfl

/-- What there is at the place of a name. -/
def spotAt (place : Place) : Spot :=
  match t.file? place with
  | some contents => .file place contents
  | none => .vacant place

/-- The name can have a place of its own in a directory. -/
def Names (place : Place) (part : String) : Prop :=
  Path.isIdle part = false ∧ part ≠ ".." ∧ ¬nameLimit < part.utf8ByteSize ∧
    t.isDirectory (place ++ [part]) = false

lemma spotIn_of_names {part : String} (h : t.Names place part) :
    t.spotIn place part = .ok (t.spotAt (place ++ [part])) := by
  obtain ⟨hidle, hup, hlimit, hdirectory⟩ := h
  rw [spotIn, if_neg (by simp [hidle]), if_neg hup, if_neg hlimit, if_neg (by simp [hdirectory]),
    spotAt]
  cases t.file? (place ++ [part]) <;> rfl

lemma place?_spotAt (place : Place) : (t.spotAt place).place? = some place := by
  rw [spotAt]
  cases t.file? place <;> rfl

/-- A name leads to a directory, or to its own place in the directory. -/
lemma names_of_spotIn {part : String} {spot : Spot} (h : t.spotIn place part = .ok spot)
    (hplace : spot.place? = some other) : t.Names place part := by
  rw [spotIn] at h
  split at h
  · cases h
    cases hplace
  · split at h
    · cases h
      cases hplace
    · split at h
      · cases h
      · split at h
        · cases h
          cases hplace
        · rename_i hidle hup hlimit hdirectory
          exact ⟨by simpa using hidle, hup, hlimit, by simpa using hdirectory⟩

/-- The directory that a path stands in, and its last part. -/
lemma locate_eq_ok_iff {spot : Spot} : t.locate path = .ok spot ↔ checkPath path = .ok () ∧
    ∃ directory part, t.enter (startPlace path) (Path.parts path).dropLast = .ok directory ∧
      (Path.parts path).getLast? = some part ∧ t.spotIn directory part = .ok spot := by
  obtain ⟨front, last, hparts⟩ := Path.exists_parts_eq_concat path
  simp only [locate, hparts, List.getLast?_concat, List.dropLast_concat, Option.getD_some,
    bind_eq_ok_iff, Option.some.injEq]
  constructor
  · rintro ⟨_, hcheck, directory, henter, hspot⟩
    exact ⟨hcheck, directory, _, henter, rfl, hspot⟩
  · rintro ⟨hcheck, directory, _, henter, rfl, hspot⟩
    exact ⟨(), hcheck, directory, henter, hspot⟩

/-- A path that leads to a place names it in a directory that can be entered. -/
lemma place?_eq_some_iff : t.place? path = some place ↔ checkPath path = .ok () ∧
    ∃ directory part, t.enter (startPlace path) (Path.parts path).dropLast = .ok directory ∧
      (Path.parts path).getLast? = some part ∧ t.Names directory part ∧
      place = directory ++ [part] := by
  rw [place?]
  constructor
  · intro h
    cases hlocate : t.locate path with
    | error e =>
      rw [hlocate] at h
      cases h
    | ok spot =>
      obtain ⟨hcheck, directory, part, henter, hlast, hspot⟩ := t.locate_eq_ok_iff.mp hlocate
      rw [hlocate] at h
      have hnames := t.names_of_spotIn hspot h
      rw [t.spotIn_of_names hnames] at hspot
      cases hspot
      rw [Except.toOption, Option.bind_some, place?_spotAt, Option.some.injEq] at h
      exact ⟨hcheck, directory, part, henter, hlast, hnames, h.symm⟩
  · rintro ⟨hcheck, directory, part, henter, hlast, hnames, rfl⟩
    have hlocate := t.locate_eq_ok_iff.mpr
      ⟨hcheck, directory, part, henter, hlast, t.spotIn_of_names hnames⟩
    rw [hlocate]
    exact t.place?_spotAt _

lemma locate_of_place? (h : t.place? path = some place) :
    t.locate path = .ok (t.spotAt place) := by
  obtain ⟨hcheck, directory, part, henter, hlast, hnames, rfl⟩ := t.place?_eq_some_iff.mp h
  exact t.locate_eq_ok_iff.mpr
    ⟨hcheck, directory, part, henter, hlast, t.spotIn_of_names hnames⟩

/-- Only directories say to which place a path leads. -/
lemma place?_congr (h : t'.directories = t.directories) (path : String) :
    t'.place? path = t.place? path := by
  have hdirectory : ∀ place, t'.isDirectory place = t.isDirectory place := by
    intro place
    rw [isDirectory, isDirectory, h]
  have henter : ∀ place parts directory,
      t'.enter place parts = .ok directory ↔ t.enter place parts = .ok directory := by
    intro place parts directory
    rw [← toOption_eq_some_iff, toOption_enter t h, toOption_eq_some_iff]
  ext place
  simp only [place?_eq_some_iff, henter, Names, hdirectory]

lemma file?_of_locate (h : t.locate path = .ok (.file place contents)) :
    t.place? path = some place ∧ t.file? place = some contents := by
  have hplace : t.place? path = some place := by
    rw [place?, h]
    rfl
  refine ⟨hplace, ?_⟩
  rw [t.locate_of_place? hplace, spotAt] at h
  split at h
  · rename_i hfile
    cases h
    exact hfile
  · cases h

/-! ### Reading and writing -/

lemma read_of_place? (h : t.place? path = some place) :
    t.read path = match t.file? place with
      | some contents => .ok contents
      | none => .error .notFound := by
  rw [read, t.locate_of_place? h, spotAt]
  cases t.file? place <;> rfl

lemma contents?_eq (path : String) : t.contents? path = (t.place? path).bind t.file? := by
  cases hplace : t.place? path with
  | some place =>
    rw [contents?, t.read_of_place? hplace, Option.bind_some]
    cases t.file? place <;> rfl
  | none =>
    rw [place?] at hplace
    rw [contents?, read]
    cases hlocate : t.locate path with
    | error e => rfl
    | ok spot =>
      rw [hlocate] at hplace
      cases spot with
      | directory place => rfl
      | file place contents => cases hplace
      | vacant place => cases hplace

/-- What is put at another place is not what a path leads to. -/
lemma contents?_put_of_ne (hne : ∀ place, t.place? path = some place → place ≠ other) :
    (t.put other contents).contents? path = t.contents? path := by
  rw [contents?_eq, contents?_eq, place?_congr t (t.directories_put _ _)]
  cases hplace : t.place? path with
  | none => rfl
  | some place => exact t.file?_put_of_ne (hne place hplace) contents

lemma contents?_erase_of_ne (hne : ∀ place, t.place? path = some place → place ≠ other) :
    (t.erase other).contents? path = t.contents? path := by
  rw [contents?_eq, contents?_eq, place?_congr t (t.directories_erase _)]
  cases hplace : t.place? path with
  | none => rfl
  | some place => exact t.file?_erase_of_ne (hne place hplace)

lemma contents?_put_self (h : t.place? path = some place) :
    (t.put place contents).contents? path = some contents := by
  rw [contents?_eq, place?_congr t (t.directories_put _ _), h, Option.bind_some, file?_put_self]

/-- A path that does not end with a slash leads to what it names as a target. -/
lemma locate_of_target {directory : Place} {name : String}
    (htarget : t.target path = .ok (directory, name)) (hslash : Path.endsInSlash path = false) :
    t.locate path = t.spotIn directory name := by
  simp only [target, bind_eq_ok_iff] at htarget
  obtain ⟨_, hcheck, place, henter, hpair⟩ := htarget
  have hempty : path.isEmpty = false := by
    by_contra hempty
    simp only [checkPath, Bool.not_eq_false] at hcheck hempty
    rw [if_pos hempty] at hcheck
    split at hcheck <;> cases hcheck
  obtain ⟨front, part, hparts⟩ := Path.exists_parts_eq_concat path
  have hpart : part ≠ "" := by
    rintro rfl
    refine Path.getLast?_parts_ne_empty hempty hslash ?_
    rw [hparts, List.getLast?_concat]
  have hnamed : ((Path.parts path).reverse.dropWhile (· == "")).reverse = front ++ [part] := by
    rw [hparts, List.reverse_concat, List.dropWhile_cons_of_neg (by simpa using hpart)]
    simp
  rw [hnamed, List.dropLast_concat] at henter
  rw [hnamed, List.getLast?_concat] at hpair
  cases hpair
  simp only [locate, hcheck, hparts, List.getLast?_concat, List.dropLast_concat, henter]
  rfl

/-- A file is made by putting its contents at the place of its path. -/
lemma create_eq_ok (h : t.create path contents = .ok t') :
    ∃ place, t.place? path = some place ∧ t' = t.put place contents := by
  simp only [create, bind_eq_ok_iff, Prod.exists] at h
  obtain ⟨directory, name, htarget, h⟩ := h
  split at h
  · cases h
  · rename_i hslash
    obtain ⟨spot, hspot, h⟩ := bind_eq_ok_iff.mp h
    have hlocate := t.locate_of_target htarget (by simpa using hslash)
    rw [place?, hlocate, hspot]
    cases spot with
    | directory place => cases h
    | file place old =>
      cases h
      exact ⟨place, rfl, rfl⟩
    | vacant place =>
      cases h
      exact ⟨place, rfl, rfl⟩

/-- A file is moved by putting its contents at the place of another path. -/
lemma rename_eq_ok {source : String} (h : t.rename source path = .ok t') :
    ∃ origin contents place, t.place? source = some origin ∧ t.file? origin = some contents ∧
      t.place? path = some place ∧ t' = (t.erase origin).put place contents := by
  obtain ⟨spot, hlocate, h⟩ := bind_eq_ok_iff.mp h
  cases spot with
  | directory place => cases h
  | vacant place => cases h
  | file origin contents =>
    simp only [bind_eq_ok_iff, Prod.exists] at h
    obtain ⟨directory, name, htarget, h⟩ := h
    obtain ⟨horigin, hfile⟩ := t.file?_of_locate hlocate
    split at h
    · cases h
    · split at h
      · cases h
      · rename_i hslash
        obtain ⟨spot, hspot, h⟩ := bind_eq_ok_iff.mp h
        have hlocate := t.locate_of_target htarget (by simpa using hslash)
        have hplace : t.place? path = spot.place? := by
          rw [place?, hlocate, hspot]
          rfl
        rw [hplace]
        cases spot with
        | directory place => cases h
        | file place old =>
          cases h
          exact ⟨origin, contents, place, horigin, hfile, rfl, rfl⟩
        | vacant place =>
          cases h
          exact ⟨origin, contents, place, horigin, hfile, rfl, rfl⟩

/-! ### Temporary files -/

/-- A temporary file is beside the file it stands for and never in its place. -/
lemma place_ne_of_temporary {temporary : Place}
    (htemporary : t.place? (Path.temporary path) = some temporary)
    (hplace : t.place? path = some place) : place ≠ temporary := by
  obtain ⟨-, directory, part, -, hlast, ⟨hidle, hup, -, -⟩, rfl⟩ := t.place?_eq_some_iff.mp hplace
  obtain ⟨-, directory', part', -, hlast', -, rfl⟩ := t.place?_eq_some_iff.mp htemporary
  rw [Path.getLast?_parts_temporary, Path.fileName?_eq_some hlast hidle hup, Option.some.injEq,
    Option.getD_some] at hlast'
  intro heq
  obtain ⟨-, heq⟩ := List.append_inj' heq rfl
  rw [List.cons.injEq, ← hlast'] at heq
  have hlength := congrArg String.length heq.1
  simp only [String.length_append] at hlength
  have hdot : ".".length = 1 := rfl
  omega

/-! ### Steps on a tree -/

lemma bind_apply {α β : Type} (x : StateM FileTree α) (f : α → StateM FileTree β) :
    (x >>= f) t = f (x t).1 (x t).2 := rfl

lemma pure_apply {α : Type} (a : α) : (pure a : StateM FileTree α) t = (a, t) := rfl

lemma access_create (path : String) (contents : List UInt8) :
    access.create path contents t =
      match t.create path contents with
      | .ok t' => (.ok (), t')
      | .error e => (.error e, t) := rfl

lemma access_rename (source path : String) :
    access.rename source path t =
      match t.rename source path with
      | .ok t' => (.ok (), t')
      | .error e => (.error e, t) := rfl

lemma isFile_bind {β : Type} (path : String) (f : Bool → StateM FileTree β) :
    (access.isFile path >>= f) t = f (t.isFile path) t := rfl

lemma read_bind {β : Type} (path : String)
    (f : Except SystemError (List UInt8) → StateM FileTree β) :
    (access.read path >>= f) t = f (t.read path) t := rfl

/-- A path leads to a file if there is something to read. -/
lemma isFile_eq (path : String) : t.isFile path = (t.contents? path).isSome := by
  rw [isFile, contents?, read]
  cases t.locate path with
  | error e => rfl
  | ok spot => cases spot <;> rfl

lemma access_remove (path : String) : access.remove path t = ((), t.remove path) := rfl

end FileTree

end MicroAsm
