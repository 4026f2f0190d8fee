import Mathlib.Data.List.DropRight
import Mathlib.Data.List.Induction
import MicroAsm.Proofs.Listing.Printing

/-!
# Aligned texts

A printer counts columns as it goes, from the last line break on if there is one in what it prints,
and from where it stood otherwise. So its column is always the length of the last row of all it has
printed. Nothing is ever taken back: what comes of any operations is what they write, one text
behind the other, with blanks in between where a column was not reached yet.
-/

namespace MicroAsm

/-- The characters behind the last line break of a text. -/
def Text.lastRow (s : String) : List Char :=
  s.toList.rtakeWhile (· ≠ '\n')

namespace Printer

/-! ### Columns -/

/-- Only what stands behind the last line break counts. -/
lemma columnAfter_eq (column : Nat) (cs : List Char) :
    columnAfter column cs =
      if '\n' ∈ cs then (cs.rtakeWhile (· ≠ '\n')).length else column + cs.length := by
  induction cs using List.reverseRecOn with
  | nil => rfl
  | append_singleton cs c ih =>
    have hlast : columnAfter column (cs ++ [c]) =
        if c = '\n' then 0 else columnAfter column cs + 1 := columnAfter_append column cs [c]
    rw [hlast]
    by_cases hc : c = '\n'
    · rw [if_pos hc, if_pos (by simp [hc]), List.rtakeWhile_concat_neg _ _ _ (by simp [hc])]
      rfl
    · rw [if_neg hc, ih, List.rtakeWhile_concat_pos _ _ _ (by simp [hc])]
      by_cases hbreak : '\n' ∈ cs
      · rw [if_pos hbreak, if_pos (List.mem_append_left _ hbreak), List.length_append]
        rfl
      · rw [if_neg hbreak, if_neg (by simp [hbreak, Ne.symm hc]), List.length_append, Nat.add_assoc]
        rfl

/-- From the start of a text on, the column is the length of its last row. -/
lemma columnAfter_zero (s : String) : columnAfter 0 s.toList = (Text.lastRow s).length := by
  rw [columnAfter_eq, Text.lastRow]
  split
  · rfl
  · rename_i hbreak
    have hrow : s.toList.rtakeWhile (· ≠ '\n') = s.toList := by
      rw [List.rtakeWhile_eq_self_iff]
      intro c hc
      rw [decide_eq_true_eq]
      rintro rfl
      exact hbreak hc
    rw [hrow, Nat.zero_add]

/-! ### Operations -/

/-- What is done with a printer. -/
inductive Operation where
  | write (text : String)
  | toColumn (n : Nat)
  | newline
deriving DecidableEq, Repr

namespace Operation

def isColumn : Operation → Bool
  | toColumn _ => true
  | _ => false

/-- What the operation writes. A column is not written. -/
def written : Operation → String
  | write text => text
  | toColumn _ => ""
  | newline => "\n"

/-- What the operation prints from a column on. -/
def printed (column : Nat) : Operation → String
  | write text => text
  | toColumn n => String.ofList (List.replicate (n - column) ' ')
  | newline => "\n"

end Operation

/-- The printer after an operation. -/
def apply (p : Printer) : Operation → Printer
  | .write text => p.write text
  | .toColumn n => p.toColumn n
  | .newline => p.newline

/-- The printer after operations. -/
def run (p : Printer) (operations : List Operation) : Printer :=
  operations.foldl apply p

/-- A new printer after operations. -/
def ofOperations (operations : List Operation) : Printer :=
  run {} operations

/-- What stands behind the earlier text of a printer after an operation. -/
def piece (p : Printer) (o : Operation) : String :=
  String.ofList ((p.apply o).text.toList.drop p.text.toList.length)

/-- Operations with what each of them put behind the text so far. -/
def pieces (p : Printer) : List Operation → List (Operation × String)
  | [] => []
  | o :: operations => (o, p.piece o) :: (p.apply o).pieces operations

/-- What operations print, without what is put there to reach a column. -/
def unpadded (p : Printer) (operations : List Operation) : String :=
  String.join (((p.pieces operations).filter (!·.1.isColumn)).map Prod.snd)

variable (p : Printer) (o : Operation) (operations : List Operation)

/-- An operation puts its text behind the earlier one and goes on to the column after it. -/
lemma apply_eq :
    p.apply o =
      { text := p.text ++ o.printed p.column
        column := columnAfter p.column (o.printed p.column).toList } := by
  cases o with
  | write text => rfl
  | toColumn n =>
    rw [apply, toColumn, Operation.printed, String.toList_ofList, columnAfter_replicate]
    split
    · rw [Nat.add_sub_cancel' (Nat.le_of_lt ‹_›)]
    · rename_i hreached
      rw [Nat.sub_eq_zero_of_le (Nat.le_of_not_lt hreached)]
      simp
  | newline => simp [apply, newline, Operation.printed, columnAfter]

lemma ofOperations_concat :
    ofOperations (operations ++ [o]) = (ofOperations operations).apply o := by
  simp [ofOperations, run]

/-- The column is always that of the text. -/
lemma column_ofOperations :
    (ofOperations operations).column = (Text.lastRow (ofOperations operations).text).length := by
  rw [← columnAfter_zero]
  induction operations using List.reverseRecOn with
  | nil => rfl
  | append_singleton operations o ih =>
    rw [ofOperations_concat, apply_eq, String.toList_append, columnAfter_append, ← ih]

lemma piece_eq : p.piece o = o.printed p.column := by
  rw [piece, apply_eq, String.toList_append, List.drop_left, String.ofList_toList]

/-- All that is printed comes from the operations. -/
lemma text_run :
    (p.run operations).text = p.text ++ String.join ((p.pieces operations).map Prod.snd) := by
  induction operations generalizing p with
  | nil => simp [run, pieces]
  | cons o operations ih =>
    rw [run, List.foldl_cons, ← run, ih, pieces, List.map_cons, String.join_cons, piece_eq,
      apply_eq, String.append_assoc]

/-- Columns apart, an operation prints what it writes. -/
lemma unpadded_eq : p.unpadded operations = String.join (operations.map Operation.written) := by
  induction operations generalizing p with
  | nil => rfl
  | cons o operations ih =>
    rw [List.map_cons, String.join_cons, ← ih (p.apply o), unpadded, pieces]
    cases o with
    | toColumn n => simp [unpadded, Operation.isColumn, Operation.written]
    | _ => simp [unpadded, Operation.isColumn, piece_eq, Operation.printed, Operation.written]

/-- What a new printer has come to after any operations. Its column is the number of characters
behind the last line break of all it has printed. To go to a column, it prints as many blanks as are
missing there, and nothing else. What it has printed is what the operations put there, one behind
the other, and without the blanks of columns this is what was written, with the line breaks. -/
theorem column_eq_length_lastRow_and_unpadded_eq (operations : List Operation) :
    (ofOperations operations).column = (Text.lastRow (ofOperations operations).text).length ∧
    (∀ n, (ofOperations (operations ++ [.toColumn n])).text = (ofOperations operations).text ++
      String.ofList (List.replicate (n - (ofOperations operations).column) ' ')) ∧
    (ofOperations operations).text = String.join ((pieces {} operations).map Prod.snd) ∧
    unpadded {} operations = String.join (operations.map Operation.written) := by
  refine ⟨column_ofOperations operations, fun n => ?_, ?_, unpadded_eq {} operations⟩
  · rw [ofOperations_concat, apply_eq]
    rfl
  · rw [ofOperations, text_run, String.empty_append]

/-- Blanks are counted from the last line break on, and a column that is passed adds none. -/
example :
    let operations : List Operation :=
      [.write "ab", .toColumn 5, .write "c", .toColumn 3, .write "d", .newline, .toColumn 2,
        .write "e\nfg"]
    (ofOperations operations).text = "ab   cd\n  e\nfg" ∧
      (ofOperations operations).column = 2 ∧ unpadded {} operations = "abcd\ne\nfg" := by
  decide

end Printer

end MicroAsm
