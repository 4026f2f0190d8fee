import MicroAsm.Proofs.Assembly.Logs
import MicroAsm.Proofs.Parser.Resolution
import MicroAsm.Proofs.Tree.Sources

/-!
# Each line once

The loop of a parser takes the physical lines of a text one after the other, up to the first that
has an accepted END. At whatever token a line goes wrong, and whatever token the parser has looked
at by then, the next turn starts with the first token of the next line. So there are at most as many
turns as lines, and each line is accounted for on its own number: a blank one leaves no trace, and
any other leaves one line below the root of the tree or one failure in the log, and never both.
-/

namespace MicroAsm

namespace SyntaxTree

variable {t t' : SyntaxTree} {ls ls' : List Line}

/-- The numbers of the lines below the root, as their nodes are located. -/
def lineNumbers (t : SyntaxTree) : List Nat :=
  (t.lines.filterMap t.node?).map (·.location.line)

lemma Lists.lineNumbers_eq (h : Lists t ls) : t.lineNumbers = ls.map (·.location.line) := by
  have hnodes : t.lines.filterMap t.node? = ls.map Line.node := by
    have hpresents := h.presents
    generalize t.lines = ids at hpresents
    clear h
    induction hpresents with
    | nil => rfl
    | cons hid _ ih => rw [List.filterMap_cons, hid.1, ih, List.map_cons]
  rw [lineNumbers, hnodes, List.map_map]
  rfl

/-- The lines that are added to a tree come behind those that are there. -/
lemma Lists.exists_lines_append (h : Lists t ls) (h' : Lists t' (ls ++ ls'))
    (hextends : Extends t t') :
    ∃ ids, t'.lines = t.lines ++ ids ∧ List.Forall₂ t'.Presents ids ls' := by
  obtain ⟨ns, hns⟩ := hextends.contents
  have hlines : t'.lines = t.lines ++ ns.findIdxs (·.kind.isLine) t.contents.length := by
    rw [h'.lines, ← hns, List.findIdxs_append, ← h.lines, Nat.zero_add]
  have hlast := List.forall₂_drop_append _ _ _ h'.presents
  rw [hlines, ← h.presents.length_eq, List.drop_left] at hlast
  exact ⟨_, hlines, hlast⟩

end SyntaxTree

namespace Parser

variable {p q : Parser} {name : String} {a : Assembly} {line : SourceLine}
  {lines : List SourceLine} {number : Nat}

/-- What a turn of the loop leaves of a line of the given number: nothing of a blank line but that
its end is passed. A line that does not fail leaves one line below the root and no failure, and one
that fails leaves its failure and no line. Only an accepted END ends the unit. -/
inductive Accounts (number : Nat) (line : SourceLine) (p q : Parser) : Prop
  | blank (hbody : line.body = []) (heq : q = p.moved)
  | accepted (id : Nat) (l : Line) (hreads : p.failure? = none) (hbody : line.body ≠ [])
      (hnumber : l.location.line = number) (hlines : q.tree.lines = p.tree.lines ++ [id])
      (hpresents : q.tree.Presents id l) (hfailed : q.log.failed = p.log.failed)
      (hended : q.ended = true ↔ l.statement.kind = .endUnit)
  | rejected (failure : Failure) (hfails : p.failure? = some failure) (hbody : line.body ≠ [])
      (hnumber : failure.location.line = number) (hlines : q.tree.lines = p.tree.lines)
      (hfailed : q.log.failed = p.log.failed ++ [failure.message]) (hended : q.ended = false)

namespace Mirrors

lemma lists (h : Mirrors name p a) (hroles : ∀ r ∈ a.records, r.HasRoles) :
    p.tree.Lists a.lines := by
  rw [h.tree]
  exact SyntaxTree.lists_ofRecords fun r hr => (hroles r (Array.mem_toList_iff.mp hr)).parts

/-- A turn only adds to the tree. -/
lemma extends_parseLine (h : Mirrors name p a) (hroles : ∀ r ∈ a.records, r.HasRoles)
    (hnext : Mirrors name p.parseLine (a.step line)) : p.tree.Extends p.parseLine.tree := by
  obtain ⟨more, hmore⟩ := a.exists_records_steps [line]
  rw [Assembly.steps_cons, Assembly.steps_nil] at hmore
  rw [h.tree, hnext.tree, Assembly.tree, Assembly.tree, hmore]
  refine (SyntaxTree.grows_ofRecords fun r hr => ?_).toExtends
  rw [← hmore, Array.mem_toList_iff] at hr
  exact (a.hasRoles_step hroles line r hr).parts

/-- Every line is accounted for on its own number. -/
lemma accounts (h : Mirrors name p a) (hroles : ∀ r ∈ a.records, r.HasRoles)
    (hfaces : p.cursor.Faces (line :: lines)) (hlast : SourceLine.Last (line :: lines))
    (htext : p.cursor.token.kind ≠ .endOfFile) (hopen : p.ended = false)
    (hnumber : ∀ t ∈ line.tokens, t.location.line = number) :
    Accounts number line p p.parseLine := by
  obtain ⟨hnext, -⟩ := h.next hfaces hlast htext
  have hlists := h.lists hroles
  have hlists' := hnext.lists (a.hasRoles_step hroles line)
  have hextends := h.extends_parseLine hroles hnext
  have hline := hfaces.onLine hlast
  have hreads := h.failure?_eq hline (hlast.comment line List.mem_cons_self)
  cases a.accounts_step hnumber with
  | blank hbody heq =>
    rw [hbody] at hline
    exact .blank hbody (by rw [parseLine, if_pos (hline.kind_token_of_nil htext)])
  | accepted l hread hbody hnumber hlines hfailed hend =>
    rw [hlines] at hlists'
    obtain ⟨ids, hids, hpresents⟩ := hlists.exists_lines_append hlists' hextends
    obtain ⟨id, rest, hid, hrest, rfl⟩ := List.forall₂_cons_right_iff.mp hpresents
    obtain rfl := List.forall₂_nil_right_iff.mp hrest
    refine .accepted id l (hreads.trans hread) hbody hnumber hids hid
      (by rw [hnext.log_eq, h.log_eq, hfailed]) ?_
    rw [hnext.ended_eq, hend, ← h.ended_eq, hopen]
    simp
  | rejected failure hread hbody hnumber hlines hfailed hend =>
    rw [hlines, ← List.append_nil a.lines] at hlists'
    obtain ⟨ids, hids, hpresents⟩ := hlists.exists_lines_append hlists' hextends
    obtain rfl := List.forall₂_nil_right_iff.mp hpresents
    rw [List.append_nil] at hids
    refine .rejected failure (hreads.trans hread) hbody hnumber hids
      (by rw [hnext.log_eq, h.log_eq, hfailed]) ?_
    rw [hnext.ended_eq, hend, ← h.ended_eq, hopen]

end Mirrors

/-! ### Whole texts -/

section Texts

variable {cpu : Cpu} {log : Log} {taken rest : List SourceLine}

/-- A program has the lines and the failures of the lines of its text that were taken. -/
lemma Gives.accounted
    (h : q.Gives (((({ cpu, log } : Assembly).steps taken).warnAfterEnd rest).finish name))
    (hnumber : ∀ numbered ∈ taken.zipIdx 1, ∀ t ∈ numbered.1.tokens,
      t.location.line = numbered.2) :
    ∃ failures, q.log.failed = log.failed ++ failures ∧
      (q.tree.lineNumbers ++ failures.map (·.location.line)).Perm (workNumbers taken) ∧
      q.tree.lineNumbers.Pairwise (· < ·) ∧
      (failures.map (·.location.line)).Pairwise (· < ·) := by
  -- The messages that are in the log already change nothing.
  have hinto : ({ cpu, log } : Assembly) = ({ cpu } : Assembly).into log := rfl
  rw [hinto, Assembly.steps_into, Assembly.warnAfterEnd_into, Assembly.finish_into] at h
  obtain ⟨hperm, hlines, hfailures⟩ := Assembly.accounted_steps cpu hnumber
  have hroles : ∀ r ∈ ((({ cpu } : Assembly).steps taken).warnAfterEnd rest).records,
      r.HasRoles := by
    rw [(Assembly.warnAfterEnd_frame _ rest).2.2.2.1]
    exact Assembly.hasRoles_steps cpu taken
  have hfailed : q.log.failed = log.failed ++ (({ cpu } : Assembly).steps taken).log.failed := by
    rw [h.log, Log.failed, Log.messages_reportAll, List.filter_append, Log.failed,
      ← (complains_finish cpu name taken rest).same.1]
    rfl
  have hnumbers : q.tree.lineNumbers =
      (({ cpu } : Assembly).steps taken).lines.map (·.location.line) := by
    rw [h.tree, (Assembly.lists_finish hroles name).lineNumbers_eq, Assembly.map_line_finish,
      Assembly.lines_warnAfterEnd]
  refine ⟨_, hfailed, ?_⟩
  rw [hnumbers]
  exact ⟨hperm, hlines, hfailures⟩

end Texts

/-- Parsing takes each physical line of a text once and in order, up to the first accepted END or
to the end of the text. Before each turn of the loop all that is to come are the lines from the next
one on, so a line that goes wrong never costs a token of the line behind it, and there are at most
as many turns as lines. A turn leaves nothing of a blank line; of any other it leaves one line below
the root and no failure, or one failure and no line, located on that line. In the end the lines
below the root and the failures have increasing numbers, and together these are the numbers of the
lines taken that are not blank. -/
theorem accounts_of_turns (log : Log) (cpu : Cpu) (name text : String) :
    SourceLine.Divide (Scanner.ofText text).allTokens 1 (SourceLine.ofText text) ∧
    (∀ n p, Turns (atFirstLine log cpu name text) n p →
      n ≤ (SourceLine.ofText text).length ∧
      p.cursor.Faces ((SourceLine.ofText text).drop n) ∧
      p.tree.lines = p.tree.contents.findIdxs (·.kind.isLine) ∧
      (p.cursor.token.kind ≠ .endOfFile → p.ended = false →
        ∃ line, (SourceLine.ofText text)[n]? = some line ∧
          Accounts (n + 1) line p p.parseLine)) ∧
    ∃ n p failures, Turns (atFirstLine log cpu name text) n p ∧
      (p.cursor.token.kind = .endOfFile ∧
          (∀ line ∈ (SourceLine.ofText text).drop n, line.body = []) ∧
          (start log cpu name text).parse = p.resolveFixups ∨
        p.ended = true ∧ (start log cpu name text).parse = p.afterEnd.resolveFixups) ∧
      (start log cpu name text).parse.log.failed = log.failed ++ failures ∧
      ((start log cpu name text).parse.tree.lineNumbers ++ failures.map (·.location.line)).Perm
        (workNumbers ((SourceLine.ofText text).take n)) ∧
      (start log cpu name text).parse.tree.lineNumbers.Pairwise (· < ·) ∧
      (failures.map (·.location.line)).Pairwise (· < ·) := by
  have hdivide := SourceLine.divide_ofText text
  have hlast := SourceLine.Last.ofText text
  refine ⟨hdivide, ?_, ?_⟩
  · intro n p hturns
    obtain ⟨hle, hmirrors, hfaces⟩ := hturns.mirrors_ofText
    have hroles : ∀ r ∈ (({ cpu, log } : Assembly).steps ((SourceLine.ofText text).take n)).records,
        r.HasRoles := Assembly.hasRoles_steps cpu _
    refine ⟨hle, hfaces, (hmirrors.lists hroles).lines, ?_⟩
    intro htext hopen
    have hlt := hfaces.lt_length htext
    refine ⟨(SourceLine.ofText text)[n], List.getElem?_eq_getElem hlt, ?_⟩
    have hlast' := hlast.drop n
    rw [List.drop_eq_getElem_cons hlt] at hfaces hlast'
    have hnumber := hdivide.line_getElem hlt
    rw [Nat.add_comm] at hnumber
    exact hmirrors.accounts hroles hfaces hlast' htext hopen hnumber
  · obtain ⟨n, p, hturns, hend⟩ := exists_turns (atFirstLine log cpu name text)
    obtain ⟨-, hmirrors, hfaces⟩ := hturns.mirrors_ofText
    have hnumber := hdivide.number
    rw [← List.take_append_drop n (SourceLine.ofText text), List.zipIdx_append,
      List.forall_mem_append] at hnumber
    rw [parse_start]
    obtain ⟨htext, hparse⟩ | ⟨htext, hended, hparse⟩ := hend
    · have hgives : p.resolveFixups.Gives
          (((({ cpu, log } : Assembly).steps ((SourceLine.ofText text).take n)).warnAfterEnd
            []).finish name) := hmirrors.gives
      obtain ⟨failures, haccounted⟩ := hgives.accounted hnumber.1
      rw [hparse]
      exact ⟨n, p, failures, hturns, .inl ⟨htext, hfaces.blank (hlast.drop n) htext, rfl⟩,
        haccounted⟩
    · have hne : (SourceLine.ofText text).drop n ≠ [] :=
        List.ne_nil_of_length_pos (by simpa using hfaces.lt_length htext)
      rw [hparse]
      obtain ⟨failures, haccounted⟩ :=
        (mirrors_afterEnd hmirrors hfaces (hlast.drop n) hne).gives.accounted hnumber.1
      exact ⟨n, p, failures, hturns, .inr ⟨hended, rfl⟩, haccounted⟩

/-- The third line of a text lacks its second operand. The parser has looked past the end of none,
and the fourth line is taken all the same. -/
theorem accounts_of_turns_of_missing_operand :
    let text := "JMP X\n\nMOV A\nX: END ; done\nDB 1"
    ∃ p line, Turns (atFirstLine {} .intel8080 "MAIN" text) 2 p ∧
      (SourceLine.ofText text)[2]? = some line ∧ Accounts 3 line p p.parseLine ∧
      p.parseLine.log.failed ≠ p.log.failed ∧
      (start {} .intel8080 "MAIN" text).parse.tree.lineNumbers = [1, 4] ∧
      (start {} .intel8080 "MAIN" text).parse.log.failed.map (·.location.line) = [3] := by
  intro text
  have hturns : Turns (atFirstLine {} .intel8080 "MAIN" text) 2
      (atFirstLine {} .intel8080 "MAIN" text).parseLine.parseLine :=
    .succ (.succ .zero (by decide +kernel) (by decide +kernel)) (by decide +kernel)
      (by decide +kernel)
  obtain ⟨-, hbefore, -⟩ := accounts_of_turns {} .intel8080 "MAIN" text
  obtain ⟨-, -, -, hturn⟩ := hbefore _ _ hturns
  obtain ⟨line, hline, haccounts⟩ := hturn (by decide +kernel) (by decide +kernel)
  exact ⟨_, line, hturns, hline, haccounts, by decide +kernel, by decide +kernel,
    by decide +kernel⟩

end Parser

end MicroAsm
