import MicroAsm.Object.Store
import MicroAsm.Proofs.Files.Places

/-!
# Saving object code

An image that was saved is at its path as a whole. One that could not be saved leaves that path as
it was, whatever went wrong.
-/

namespace MicroAsm

namespace ObjectCode

open FileTree

variable {o : ObjectCode} {t t' : FileTree} {temporary path : String}

/-- Replacing a file goes well when the image can be written, put beside it and moved over it. -/
lemma replaceFile_cases (o : ObjectCode) (t : FileTree) (temporary path : String) :
    (∃ e, o.replaceFile access temporary path t = (.error e, t)) ∨
      ∃ made, t.create temporary (ObjectFile.written o) = .ok made ∧
        ((∃ e, o.replaceFile access temporary path t = (.error e, made)) ∨
          ∃ bytes moved, ObjectFile.write o = .ok bytes ∧ made.rename temporary path = .ok moved ∧
            o.replaceFile access temporary path t = (.ok (), moved)) := by
  rw [replaceFile, bind_apply]
  cases hcreate : t.create temporary (ObjectFile.written o) with
  | error e =>
    rw [access_create, hcreate]
    exact Or.inl ⟨_, rfl⟩
  | ok made =>
    rw [access_create, hcreate]
    refine Or.inr ⟨made, rfl, ?_⟩
    cases hwrite : ObjectFile.write o with
    | error e => exact Or.inl ⟨_, rfl⟩
    | ok bytes =>
      simp only [bind_apply]
      cases hrename : made.rename temporary path with
      | error e =>
        rw [access_rename, hrename]
        exact Or.inl ⟨_, rfl⟩
      | ok moved =>
        rw [access_rename, hrename]
        exact Or.inr ⟨bytes, moved, rfl, rfl, rfl⟩

lemma save_of_error {e : StoreError} {after : FileTree}
    (h : o.replaceFile access (Path.temporary path) path t = (.error e, after)) :
    o.save access path t = (.error e, after.remove (Path.temporary path)) := by
  rw [save, bind_apply, h]
  simp only [bind_apply, access_remove, pure_apply]

lemma save_of_ok {after : FileTree}
    (h : o.replaceFile access (Path.temporary path) path t = (.ok (), after)) :
    o.save access path t = (.ok (), after) := by
  rw [save, bind_apply, h]
  simp only [pure_apply]

/-- An image that was saved is what its path leads to. -/
lemma contents?_save_of_ok (h : o.save access path t = (.ok (), t')) :
    ∃ bytes, ObjectFile.write o = .ok bytes ∧ t'.contents? path = some bytes := by
  rcases o.replaceFile_cases t (Path.temporary path) path with
    ⟨e, heq⟩ | ⟨made, hmade, ⟨e, heq⟩ | ⟨bytes, moved, hwrite, hmoved, heq⟩⟩
  · rw [save_of_error heq] at h
    cases h
  · rw [save_of_error heq] at h
    cases h
  · rw [save_of_ok heq] at h
    cases h
    obtain ⟨temporary, htemporary, rfl⟩ := t.create_eq_ok hmade
    obtain ⟨origin, contents, place, horigin, hcontents, hplace, rfl⟩ := rename_eq_ok _ hmoved
    rw [place?_congr t (t.directories_put _ _), htemporary, Option.some.injEq] at horigin
    rw [← horigin, file?_put_self, Option.some.injEq] at hcontents
    refine ⟨bytes, hwrite, ?_⟩
    rw [← place?_congr _ (directories_erase _ origin)] at hplace
    rw [contents?_put_self _ hplace, ← hcontents, ObjectFile.written_of_write hwrite]

/-- Saving an image leaves what is at other places than those of its path and of the temporary file
beside it. -/
lemma contents?_save_of_ne (h : o.save access path t = (.ok (), t')) {other : String}
    (hpath : ∀ place, t.place? other = some place → t.place? path ≠ some place)
    (htemporary : ∀ place, t.place? other = some place →
      t.place? (Path.temporary path) ≠ some place) :
    t'.contents? other = t.contents? other := by
  rcases o.replaceFile_cases t (Path.temporary path) path with
    ⟨e, heq⟩ | ⟨made, hmade, ⟨e, heq⟩ | ⟨bytes, moved, -, hmoved, heq⟩⟩
  · rw [save_of_error heq] at h
    cases h
  · rw [save_of_error heq] at h
    cases h
  · rw [save_of_ok heq] at h
    cases h
    obtain ⟨temporary, htemporaryPlace, rfl⟩ := t.create_eq_ok hmade
    obtain ⟨origin, contents, place, horigin, -, hplace, rfl⟩ := rename_eq_ok _ hmoved
    rw [place?_congr t (t.directories_put _ _), htemporaryPlace, Option.some.injEq] at horigin
    subst horigin
    rw [place?_congr t (t.directories_put _ _)] at hplace
    rw [contents?_put_of_ne, contents?_erase_of_ne, contents?_put_of_ne]
    · rintro place' hother rfl
      exact htemporary place' hother htemporaryPlace
    · rintro place' hother rfl
      rw [place?_congr t (t.directories_put _ _)] at hother
      exact htemporary place' hother htemporaryPlace
    · rintro place' hother rfl
      rw [place?_congr (t.put temporary _) (directories_erase _ _),
        place?_congr t (t.directories_put _ _)] at hother
      exact hpath place' hother hplace

/-- Removing the temporary file leaves what a path leads to. -/
lemma contents?_remove_temporary (t : FileTree) (path : String) :
    (t.remove (Path.temporary path)).contents? path = t.contents? path := by
  rw [remove]
  split
  · rename_i temporary contents hlocate
    obtain ⟨htemporary, -⟩ := t.file?_of_locate hlocate
    exact t.contents?_erase_of_ne fun place => t.place_ne_of_temporary htemporary
  · rfl

/-- An image that could not be saved leaves what its path led to. -/
lemma contents?_save_of_error {e : StoreError} (h : o.save access path t = (.error e, t')) :
    t'.contents? path = t.contents? path := by
  rcases o.replaceFile_cases t (Path.temporary path) path with
    ⟨e, heq⟩ | ⟨made, hmade, ⟨e, heq⟩ | ⟨bytes, moved, -, -, heq⟩⟩
  · rw [save_of_error heq] at h
    cases h
    exact contents?_remove_temporary t path
  · rw [save_of_error heq] at h
    cases h
    obtain ⟨temporary, htemporary, rfl⟩ := t.create_eq_ok hmade
    rw [contents?_remove_temporary]
    exact t.contents?_put_of_ne fun place => t.place_ne_of_temporary htemporary
  · rw [save_of_ok heq] at h
    cases h

end ObjectCode

end MicroAsm
