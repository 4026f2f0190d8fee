import Mathlib.Data.List.Induction
import MicroAsm.Files.Path

/-!
# Parts of a path

What stands behind the last slash of a path. It is the name of a file if it can name one, and the
path to a temporary file has a name of its own there.
-/

namespace MicroAsm

namespace Path

variable {cs : List Char}

lemma split_slash (cs : List Char) : split ('/' :: cs) = ([], (split cs).1 :: (split cs).2) := rfl

lemma split_cons {c : Char} (hc : c ≠ '/') (cs : List Char) :
    split (c :: cs) = (c :: (split cs).1, (split cs).2) := by
  simp only [split, if_neg hc]

lemma split_of_not_mem (h : '/' ∉ cs) : split cs = (cs, []) := by
  induction cs with
  | nil => rfl
  | cons c cs ih =>
    rw [List.mem_cons, not_or] at h
    rw [split_cons (Ne.symm h.1), ih h.2]

/-- The parts of two texts with a slash between them. -/
lemma split_append (cs ds : List Char) :
    split (cs ++ '/' :: ds) = ((split cs).1, (split cs).2 ++ (split ds).1 :: (split ds).2) := by
  induction cs with
  | nil => rfl
  | cons c cs ih =>
    rw [List.cons_append]
    by_cases hc : c = '/'
    · rw [hc, split_slash, split_slash, ih, List.cons_append]
    · rw [split_cons hc, split_cons hc, ih]

lemma slash_not_mem_split (cs : List Char) :
    ∀ part ∈ (split cs).1 :: (split cs).2, '/' ∉ part := by
  induction cs with
  | nil => simp [split]
  | cons c cs ih =>
    by_cases hc : c = '/'
    · rw [hc, split_slash, List.forall_mem_cons]
      exact ⟨List.not_mem_nil, ih⟩
    · rw [List.forall_mem_cons] at ih
      rw [split_cons hc, List.forall_mem_cons]
      exact ⟨by simp [ih.1, Ne.symm hc], ih.2⟩

/-- The last part of a text that does not end with a slash ends as the text does. -/
lemma getLast?_split_concat (cs : List Char) {c : Char} (hc : c ≠ '/') :
    ∃ front, ((split (cs ++ [c])).1 :: (split (cs ++ [c])).2).getLast? = some (front ++ [c]) := by
  induction cs with
  | nil => exact ⟨[], by simp [split_cons hc, split]⟩
  | cons d cs ih =>
    obtain ⟨front, hlast⟩ := ih
    rw [List.cons_append]
    by_cases hd : d = '/'
    · rw [hd, split_slash, List.getLast?_cons_cons]
      exact ⟨front, hlast⟩
    · rw [split_cons hd]
      cases hothers : (split (cs ++ [c])).2 with
      | nil =>
        rw [hothers, List.getLast?_singleton, Option.some.injEq] at hlast
        exact ⟨d :: front, by simp [hlast]⟩
      | cons other others =>
        rw [hothers, List.getLast?_cons_cons] at hlast
        exact ⟨front, by rw [List.getLast?_cons_cons]; exact hlast⟩

variable {path name : String}

lemma exists_parts_eq_concat (path : String) : ∃ front part, parts path = front ++ [part] :=
  ⟨_, _, (List.dropLast_concat_getLast (by simp [parts])).symm⟩

lemma slash_not_mem_parts {part : String} (h : part ∈ parts path) : '/' ∉ part.toList := by
  obtain ⟨cs, hcs, rfl⟩ := List.mem_map.mp h
  rw [String.toList_ofList]
  exact slash_not_mem_split _ cs hcs

/-- A name behind a slash, or alone, is the last part. -/
lemma getLast?_parts_of_slash (hname : '/' ∉ name.toList) (hpath : path = name ∨
    ∃ front : String, path = front ++ "/" ++ name) : (parts path).getLast? = some name := by
  rcases hpath with rfl | ⟨front, rfl⟩
  · simp [parts, split_of_not_mem hname]
  · have hlist : (front ++ "/" ++ name).toList = front.toList ++ '/' :: name.toList := by simp
    rw [parts, hlist, split_append, split_of_not_mem hname]
    simp [List.getLast?_cons]

/-- The last part is empty only where the path is, or ends with a slash. -/
lemma getLast?_parts_ne_empty (hpath : path.isEmpty = false) (hslash : endsInSlash path = false) :
    (parts path).getLast? ≠ some "" := by
  intro hlast
  cases hcs : path.toList using List.reverseRecOn with
  | nil =>
    rw [String.toList_eq_nil_iff] at hcs
    rw [hcs] at hpath
    cases hpath
  | append_singleton cs c =>
    have hc : c ≠ '/' := by
      intro hc
      simp [endsInSlash, hcs, hc] at hslash
    obtain ⟨front, hfront⟩ := getLast?_split_concat cs hc
    rw [parts, hcs, List.getLast?_map, hfront] at hlast
    simp at hlast

/-- The file name of a path is its last part, if that can name a file. -/
lemma fileName?_eq_some (hlast : (parts path).getLast? = some name) (hidle : isIdle name = false)
    (hup : name ≠ "..") : fileName? path = some name := by
  obtain ⟨front, hfront⟩ := List.getLast?_eq_some_iff.mp hlast
  have hsignificant : significant path = front ++ [name] := by
    rw [significant, hfront, List.reverse_concat, List.dropWhile_cons_of_neg (by simp [hidle])]
    simp
  rw [fileName?, hsignificant, List.getLast?_concat]
  split
  · rename_i heq
    exact absurd (Option.some.inj heq) hup
  · rfl

lemma slash_not_mem_fileName (h : fileName? path = some name) : '/' ∉ name.toList := by
  have hlast : (significant path).getLast? = some name := by
    rw [fileName?] at h
    split at h
    · cases h
    · exact h
  have hmem := List.mem_of_getLast? hlast
  rw [significant, List.mem_reverse] at hmem
  exact slash_not_mem_parts (List.mem_reverse.mp ((List.dropWhile_sublist _).subset hmem))

lemma intercalate_concat (parts : List String) (name : String) :
    "/".intercalate (parts ++ [name]) = name ∨
      ∃ front : String, "/".intercalate (parts ++ [name]) = front ++ "/" ++ name := by
  induction parts with
  | nil => exact Or.inl (by simp)
  | cons part parts ih =>
    right
    have hcons : "/".intercalate (part :: parts ++ [name]) =
        part ++ "/" ++ "/".intercalate (parts ++ [name]) := by
      cases parts <;> simp [String.intercalate_cons_cons]
    rcases ih with heq | ⟨front, heq⟩
    · exact ⟨part, by rw [hcons, heq]⟩
    · exact ⟨part ++ "/" ++ front, by rw [hcons, heq]; simp [String.append_assoc]⟩

lemma getLast?_parts_sibling (path : String) (hname : '/' ∉ name.toList) :
    (parts (sibling path name)).getLast? = some name := by
  refine getLast?_parts_of_slash hname ?_
  rw [sibling]
  split
  · exact intercalate_concat _ _
  · by_cases hslash : (path.isEmpty || endsInSlash path) = true
    · rw [if_pos hslash]
      rw [Bool.or_eq_true, String.isEmpty_iff] at hslash
      rcases hslash with rfl | hslash
      · exact Or.inl (by simp)
      · right
        rw [endsInSlash, beq_iff_eq, List.getLast?_eq_some_iff] at hslash
        obtain ⟨front, hfront⟩ := hslash
        refine ⟨String.ofList front, ?_⟩
        rw [← String.toList_inj]
        simp [hfront]
    · rw [if_neg hslash]
      exact Or.inr ⟨path, rfl⟩

/-- A temporary file has a name of its own. -/
lemma getLast?_parts_temporary (path : String) :
    (parts (temporary path)).getLast? = some ("." ++ (fileName? path).getD "" ++ ".tmp") := by
  refine getLast?_parts_sibling path ?_
  cases hname : fileName? path with
  | none => decide
  | some name =>
    have hslash := slash_not_mem_fileName hname
    simp [hslash]

end Path

end MicroAsm
