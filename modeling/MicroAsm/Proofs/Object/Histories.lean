import MicroAsm.Object.Store
import MicroAsm.Proofs.Files.Directory
import MicroAsm.Proofs.Object.RoundTrip

/-!
# Saving into a directory

A save either puts the whole image under its name or leaves that name as it was, and it takes its
temporary file away again. So whatever is saved later under other names, and whatever cannot be
saved, a name keeps the last image that was saved under it, unless it is the name of a temporary
file itself.
-/

namespace MicroAsm

namespace ObjectCode

variable {σ : Type} {files : FileAccess (StateM σ)} {view : σ → Directory}

/-! ### One save -/

lemma run_bind {α β : Type} (x : StateM σ α) (f : α → StateM σ β) (s : σ) :
    (x >>= f) s = f (x s).1 (x s).2 := rfl

/-- Makes the temporary file of a save. Of an image that cannot be written as a whole it holds the
part in front of the failure. -/
def prepare (files : FileAccess (StateM σ)) (name : FileName) (o : ObjectCode) :
    StateM σ (Except SystemError Unit) :=
  files.create name.temporary.text (ObjectFile.written o)

/-- The error tells why the image cannot be written, or which operation on files failed. -/
inductive Explains (files : FileAccess (StateM σ)) (name : FileName) (o : ObjectCode) (s : σ) :
    StoreError → Prop
  | format {e : ObjectFileError} (h : ObjectFile.write o = .error e) :
      Explains files name o s (.format e)
  | create {e : SystemError} (h : (prepare files name o s).1 = .error e) :
      Explains files name o s (.system e)
  | rename {e : SystemError}
      (h : (files.rename name.temporary.text name.text (prepare files name o s).2).1 = .error e) :
      Explains files name o s (.system e)

/-- Replacing a file moves the whole image there, or stops with nothing changed but the temporary
file. -/
lemma replaceFile_outcome (hfiles : files.ActsOn view) (name : FileName) (o : ObjectCode) (s : σ) :
    (∃ bytes s', o.replaceFile files name.temporary.text name.text s = (.ok (), s') ∧
        ObjectFile.write o = .ok bytes ∧
        view s' = Function.update (Function.update (view s) name.temporary none) name
          (some bytes)) ∨
      ∃ e s', o.replaceFile files name.temporary.text name.text s = (.error e, s') ∧
        Explains files name o s e ∧
        ∀ other, other ≠ name.temporary → view s' other = view s other := by
  rw [replaceFile, run_bind, ← prepare]
  rcases hcreate : prepare files name o s with ⟨e | ⟨⟩, made⟩
  · exact Or.inr ⟨.system e, made, rfl, .create (by rw [hcreate]), hfiles.create_error hcreate⟩
  · have hmade := hfiles.create_ok hcreate
    have hothers : ∀ other, other ≠ name.temporary → view made other = view s other := by
      intro other hother
      rw [hmade, Function.update_of_ne hother]
    cases hwrite : ObjectFile.write o with
    | error e => exact Or.inr ⟨.format e, made, rfl, .format hwrite, hothers⟩
    | ok bytes =>
      simp only [run_bind]
      rcases hrename : files.rename name.temporary.text name.text made with ⟨e | ⟨⟩, moved⟩
      · refine Or.inr ⟨.system e, moved, rfl, .rename (by rw [hcreate, hrename]), ?_⟩
        rw [hfiles.rename_error hrename]
        exact hothers
      · obtain ⟨contents, hcontents, hmoved⟩ := hfiles.rename_ok hrename
        refine Or.inl ⟨bytes, moved, rfl, rfl, ?_⟩
        rw [hmade, Function.update_self, ObjectFile.written_of_write hwrite] at hcontents
        cases hcontents
        rw [hmoved, hmade, Function.update_idem]

/-- What a save comes to: in any case without its temporary file. -/
lemma save_outcome (hfiles : files.ActsOn view) (name : FileName) (o : ObjectCode) (s : σ) :
    (∃ bytes, (o.save files name.text s).1 = .ok () ∧ ObjectFile.write o = .ok bytes ∧
        view (o.save files name.text s).2 =
          Function.update (Function.update (view s) name.temporary none) name (some bytes)) ∨
      ∃ e, (o.save files name.text s).1 = .error e ∧ Explains files name o s e ∧
        view (o.save files name.text s).2 = Function.update (view s) name.temporary none := by
  rw [save, run_bind, ← name.text_temporary]
  rcases replaceFile_outcome hfiles name o s with
    ⟨bytes, s', heq, hwrite, hview⟩ | ⟨e, s', heq, hexplains, hothers⟩
  · rw [heq]
    exact Or.inl ⟨bytes, rfl, hwrite, hview⟩
  · rw [heq]
    refine Or.inr ⟨e, rfl, hexplains, ?_⟩
    have hremove := hfiles.remove name.temporary s'
    refine hremove.trans ?_
    funext other
    by_cases hother : other = name.temporary
    · rw [hother, Function.update_self, Function.update_self]
    · rw [Function.update_of_ne hother, Function.update_of_ne hother, hothers other hother]

/-- A save changes nothing but its own file and the temporary one. -/
lemma view_save_of_ne (hfiles : files.ActsOn view) {name other : FileName} (o : ObjectCode) (s : σ)
    (hname : other ≠ name) (htemporary : other ≠ name.temporary) :
    view (o.save files name.text s).2 other = view s other := by
  rcases save_outcome hfiles name o s with ⟨bytes, -, -, hview⟩ | ⟨e, -, -, hview⟩
  · rw [hview, Function.update_of_ne hname, Function.update_of_ne htemporary]
  · rw [hview, Function.update_of_ne htemporary]

/-- A save that fails leaves its file as it was. -/
lemma view_save_of_not_ok (hfiles : files.ActsOn view) {name : FileName} {o : ObjectCode} {s : σ}
    (h : (o.save files name.text s).1 ≠ .ok ()) :
    view (o.save files name.text s).2 name = view s name := by
  rcases save_outcome hfiles name o s with ⟨bytes, hok, -, -⟩ | ⟨e, -, -, hview⟩
  · exact absurd hok h
  · rw [hview, Function.update_of_ne name.temporary_ne.symm]

/-- What was saved is loaded again. -/
lemma load_of_view (hfiles : files.ActsOn view) {name : FileName} {o : ObjectCode} {s : σ}
    {bytes : List UInt8} (hwrite : ObjectFile.write o = .ok bytes)
    (hview : view s name = some bytes) : (load files name.text s).1 = .ok o := by
  have hread := hfiles.read name s
  rw [hview] at hread
  obtain ⟨hcountable, rfl⟩ := ObjectFile.write_eq_ok_iff.mp hwrite
  have himage : ObjectFile.read (ObjectFile.image o) = .ok o := by
    have happend := ObjectFile.readImage_append [] hcountable
    rw [List.append_nil] at happend
    rw [ObjectFile.read, happend]
    rfl
  rw [load, run_bind]
  cases hresult : (files.read name.text s).1 with
  | error e =>
    rw [hresult] at hread
    cases hread
  | ok found =>
    rw [hresult] at hread
    cases hread
    simp only [himage]
    rfl

/-! ### Many saves -/

/-- Saves images under names, one after the other. -/
def saveAll (files : FileAccess (StateM σ)) (s : σ) (entries : List (FileName × ObjectCode)) : σ :=
  entries.foldl (fun s entry => (entry.2.save files entry.1.text s).2) s

lemma saveAll_append (s : σ) (entries entries' : List (FileName × ObjectCode)) :
    saveAll files s (entries ++ entries') = saveAll files (saveAll files s entries) entries' :=
  List.foldl_append

/-- A file is left alone by saves under other names and by saves that fail, as long as it is not
the temporary file of one of them. -/
lemma view_saveAll (hfiles : files.ActsOn view) {name : FileName} {s : σ}
    {entries : List (FileName × ObjectCode)}
    (hfails : ∀ front o back, entries = front ++ (name, o) :: back →
      (o.save files name.text (saveAll files s front)).1 ≠ .ok ())
    (htemporary : ∀ entry ∈ entries, entry.1.temporary ≠ name) :
    view (saveAll files s entries) name = view s name := by
  induction entries generalizing s with
  | nil => rfl
  | cons entry entries ih =>
    obtain ⟨other, o⟩ := entry
    rw [List.forall_mem_cons] at htemporary
    have hrest := @ih (o.save files other.text s).2 (fun front o' back heq =>
      hfails ((other, o) :: front) o' back (by rw [heq]; rfl)) htemporary.2
    refine hrest.trans ?_
    by_cases hname : other = name
    · subst hname
      exact view_save_of_not_ok hfiles (hfails [] o entries rfl)
    · exact view_save_of_ne hfiles o s (Ne.symm hname) htemporary.1.symm

end ObjectCode

/-- Where operations on files act on a directory, a save leaves under its name the whole image, or
fails and leaves what was there, and the error then tells why the image cannot be written or which
operation failed. Either way its temporary file is gone, and all other files are as they were. So
after any saves a name loads the last image that was saved under it, unless a later one had that
name for its temporary file. -/
theorem save_all_or_nothing {σ : Type} {files : FileAccess (StateM σ)} {view : σ → Directory}
    (hfiles : files.ActsOn view) :
    (∀ (name : FileName) (o : ObjectCode) (s : σ),
      ((∃ bytes, (o.save files name.text s).1 = .ok () ∧ ObjectFile.write o = .ok bytes ∧
          view (o.save files name.text s).2 name = some bytes) ∨
        ∃ e, (o.save files name.text s).1 = .error e ∧ ObjectCode.Explains files name o s e ∧
          view (o.save files name.text s).2 name = view s name) ∧
      view (o.save files name.text s).2 name.temporary = none ∧
      ∀ other, other ≠ name → other ≠ name.temporary →
        view (o.save files name.text s).2 other = view s other) ∧
    ∀ (s : σ) (earlier later : List (FileName × ObjectCode)) (name : FileName) (o : ObjectCode),
      (o.save files name.text (ObjectCode.saveAll files s earlier)).1 = .ok () →
      (∀ front o' back, later = front ++ (name, o') :: back →
        (o'.save files name.text
          (ObjectCode.saveAll files s (earlier ++ (name, o) :: front))).1 ≠ .ok ()) →
      (∀ entry ∈ later, entry.1.temporary ≠ name) →
      (ObjectCode.load files name.text
        (ObjectCode.saveAll files s (earlier ++ (name, o) :: later))).1 = .ok o := by
  constructor
  · intro name o s
    rcases ObjectCode.save_outcome hfiles name o s with
      ⟨bytes, hok, hwrite, hview⟩ | ⟨e, herror, hexplains, hview⟩
    · refine ⟨Or.inl ⟨bytes, hok, hwrite, ?_⟩, ?_, ?_⟩
      · rw [hview, Function.update_self]
      · rw [hview, Function.update_of_ne name.temporary_ne, Function.update_self]
      · exact fun other hname htemporary =>
          ObjectCode.view_save_of_ne hfiles o s hname htemporary
    · refine ⟨Or.inr ⟨e, herror, hexplains, ?_⟩, ?_, ?_⟩
      · rw [hview, Function.update_of_ne name.temporary_ne.symm]
      · rw [hview, Function.update_self]
      · exact fun other hname htemporary =>
          ObjectCode.view_save_of_ne hfiles o s hname htemporary
  · intro s earlier later name o hok hfails htemporary
    rcases ObjectCode.save_outcome hfiles name o (ObjectCode.saveAll files s earlier) with
      ⟨bytes, -, hwrite, hview⟩ | ⟨e, herror, -, -⟩
    · refine ObjectCode.load_of_view hfiles hwrite ?_
      have hsplit : ∀ front, ObjectCode.saveAll files s (earlier ++ (name, o) :: front) =
          ObjectCode.saveAll files
            (o.save files name.text (ObjectCode.saveAll files s earlier)).2 front :=
        fun front => ObjectCode.saveAll_append s earlier ((name, o) :: front)
      simp only [hsplit] at hfails ⊢
      rw [ObjectCode.view_saveAll hfiles hfails htemporary, hview, Function.update_self]
    · rw [hok] at herror
      cases herror

/-- An image with too many bytes is saved under the name of one that was saved before. -/
theorem save_all_or_nothing_of_too_large :
    let a : FileName := ⟨"a.obj", by decide +kernel⟩
    let b : FileName := ⟨"b.obj", by decide +kernel⟩
    let small : ObjectCode := { moduleName := "M", code := some ⟨"CODE", 256, #[1, 2]⟩ }
    let large : ObjectCode :=
      { moduleName := "M", data := some ⟨"DATA", 0, Array.replicate 65536 0⟩ }
    let t : FileTree := { files := [(["a.obj"], [7]), ([".a.obj.tmp"], [8])] }
    FileTree.access.ActsOn FileTree.workingDirectory ∧
      (small.save FileTree.access a.text t).1 = .ok () ∧
      (large.save FileTree.access a.text
        (ObjectCode.saveAll FileTree.access t [(a, small), (b, small)])).1 ≠ .ok () ∧
      (ObjectCode.load FileTree.access a.text
        (ObjectCode.saveAll FileTree.access t [(a, small), (b, small), (a, large)])).1 =
        .ok small := by
  intro a b small large t
  have hok : (small.save FileTree.access a.text t).1 = .ok () := by decide +kernel
  have hfails : ∀ s, (large.save FileTree.access a.text s).1 ≠ .ok () := by
    intro s hlarge
    rcases ObjectCode.save_outcome FileTree.actsOn_workingDirectory a large s with
      ⟨bytes, -, hwrite, -⟩ | ⟨e, herror, -, -⟩
    · have hcountable := (ObjectFile.write_eq_ok_iff.mp hwrite).1.2
        (.data, ⟨"DATA", 0, Array.replicate 65536 0⟩) (by simp [large, ObjectCode.segments,
          SegmentId.all, ObjectCode.get?])
      have hsize := hcountable.2
      simp [Segment.size] at hsize
    · rw [hlarge] at herror
      cases herror
  refine ⟨FileTree.actsOn_workingDirectory, hok, hfails _, ?_⟩
  refine (save_all_or_nothing FileTree.actsOn_workingDirectory).2 t [] [(b, small), (a, large)] a
    small hok ?_ ?_
  · intro front o' back heq
    rcases front with _ | ⟨first, _ | ⟨second, front⟩⟩
    · simp [a, b] at heq
    · simp only [List.cons_append, List.nil_append, List.cons.injEq, Prod.mk.injEq] at heq
      obtain ⟨-, ⟨-, rfl⟩, -⟩ := heq
      exact hfails _
    · simp at heq
  · simp [a, b, FileName.temporary]

end MicroAsm
