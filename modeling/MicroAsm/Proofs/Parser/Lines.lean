import Mathlib.Data.List.Find
import MicroAsm.Proofs.Parser.Line

/-!
# Line after line

A parser takes the lines of a text one after the other. Whether a line is accepted or rejected, the
parser goes on with the first token of the next line, so after each turn of its loop one line less
is to come, and what it has done by then is what an assembly does that is given the lines as a
list.
-/

namespace MicroAsm

/-- The last lines of a text: each is over where its first line break is, or the text. A comment is
the last token of its line. -/
structure SourceLine.Last (lines : List SourceLine) : Prop where
  body : ∀ line ∈ lines, ∀ t ∈ line.body, t.kind.endsLine = false
  comment : ∀ line ∈ lines, ∀ t ∈ line.body.dropLast, t.kind ≠ .comment
  stop : ∀ line ∈ lines.dropLast, line.stop.kind = .endOfLine
  last : ∀ line ∈ lines.getLast?, line.stop.kind = .endOfFile

namespace SourceLine.Last

variable {line : SourceLine} {lines : List SourceLine}

lemma ofText (text : String) : Last (SourceLine.ofText text) := by
  have hdivide := SourceLine.divide_ofText text
  refine ⟨hdivide.body, SourceLine.comment_last text, hdivide.stop, ?_⟩
  intro line hline
  have hlast := hdivide.last
  rw [hline] at hlast
  exact Option.some.inj hlast

lemma tail (h : Last (line :: lines)) : Last lines := by
  cases lines with
  | nil => exact ⟨by simp, by simp, by simp, by simp⟩
  | cons line' lines =>
    refine ⟨(List.forall_mem_cons.mp h.body).2, (List.forall_mem_cons.mp h.comment).2, ?_, ?_⟩
    · have hstop := h.stop
      rw [List.dropLast_cons_cons, List.forall_mem_cons] at hstop
      exact hstop.2
    · have hlast := h.last
      rwa [List.getLast?_cons_cons] at hlast

lemma drop (h : Last lines) (n : Nat) : Last (lines.drop n) := by
  induction n generalizing lines with
  | zero => exact h
  | succ n ih =>
    cases lines with
    | nil => exact h
    | cons line lines => exact ih h.tail

/-- A line break ends a line unless it is the last. -/
lemma stop_cases (h : Last (line :: lines)) :
    line.stop.kind = .endOfFile ∧ lines = [] ∨ line.stop.kind = .endOfLine ∧ lines ≠ [] := by
  cases lines with
  | nil => exact .inl ⟨h.last line rfl, rfl⟩
  | cons line' lines => exact .inr ⟨h.stop line (by simp), by simp⟩

lemma endsLine_stop (h : Last (line :: lines)) : line.stop.kind.endsLine = true := by
  obtain ⟨hstop, -⟩ | ⟨hstop, -⟩ := h.stop_cases <;> rw [hstop] <;> rfl

end SourceLine.Last

namespace Cursor

variable {c : Cursor} {line : SourceLine} {lines : List SourceLine}

/-- The cursor is on the first token of the lines that are left of a text, or at its end. -/
def Faces (c : Cursor) (lines : List SourceLine) : Prop :=
  if lines = [] then c.token.kind = .endOfFile else c.upcoming = lines.flatMap SourceLine.tokens

lemma faces_ofText (text : String) : (ofText text).Faces (SourceLine.ofText text) := by
  have hdivide := SourceLine.divide_ofText text
  have hne : SourceLine.ofText text ≠ [] := by
    intro hnil
    have hlast := hdivide.last
    rw [hnil] at hlast
    cases hlast
  rw [Faces, if_neg hne, upcoming_ofText, hdivide.tokens]

lemma Faces.onLine (h : c.Faces (line :: lines)) (hlast : SourceLine.Last (line :: lines)) :
    c.OnLine line.stop (lines.flatMap SourceLine.tokens) line.body := by
  refine ⟨?_, hlast.body line List.mem_cons_self, hlast.endsLine_stop⟩
  rw [Faces, if_neg (by simp)] at h
  rw [h, List.flatMap_cons, SourceLine.tokens, List.append_assoc]
  rfl

/-- Behind the end of a line the next line is to come. -/
lemma OnLine.faces (h : c.OnLine line.stop (lines.flatMap SourceLine.tokens) [])
    (hlast : SourceLine.Last (line :: lines)) : c.skipBreak.Faces lines := by
  obtain ⟨hstop, hnil⟩ | ⟨hstop, hne⟩ := hlast.stop_cases
  · obtain ⟨hline, -⟩ | ⟨-, hupcoming⟩ := h.skipBreak
    · rw [hstop] at hline
      cases hline
    · rw [Faces, if_pos hnil, token_of_upcoming hupcoming, hstop]
  · obtain ⟨-, hupcoming⟩ | ⟨hfile, -⟩ := h.skipBreak
    · rw [Faces, if_neg hne, hupcoming]
    · rw [hstop] at hfile
      cases hfile

/-- At the end of the text only a blank line is left. -/
lemma Faces.of_endOfFile (h : c.Faces (line :: lines)) (hlast : SourceLine.Last (line :: lines))
    (hkind : c.token.kind = .endOfFile) : line.body = [] ∧ lines = [] := by
  have hline := h.onLine hlast
  have hbody : line.body = [] := by
    have hends := hline.endsLine_token
    rw [hkind] at hends
    exact List.isEmpty_iff.mp hends.symm
  refine ⟨hbody, ?_⟩
  have htoken := hline.token_eq
  rw [hbody] at htoken
  obtain ⟨-, hnil⟩ | ⟨hstop, -⟩ := hlast.stop_cases
  · exact hnil
  · rw [htoken] at hkind
    exact absurd (hkind.symm.trans hstop) (by decide)

/-- Before the end of the text a line is left. -/
lemma Faces.lt_length {n : Nat} (h : c.Faces (lines.drop n)) (hkind : c.token.kind ≠ .endOfFile) :
    n < lines.length := by
  by_contra hge
  rw [List.drop_eq_nil_of_le (Nat.le_of_not_lt hge)] at h
  exact hkind h

/-- At the end of the text no line is left that is not blank. -/
lemma Faces.blank (h : c.Faces lines) (hlast : SourceLine.Last lines)
    (hkind : c.token.kind = .endOfFile) : ∀ line ∈ lines, line.body = [] := by
  cases lines with
  | nil => simp
  | cons line lines =>
    obtain ⟨hbody, rfl⟩ := h.of_endOfFile hlast hkind
    simpa using hbody

/-- Skipping line breaks and comments stops at the first other token. -/
lemma find?_upcoming (c : Cursor) :
    c.upcoming.find? (fun t => t.kind ≠ .endOfLine ∧ t.kind ≠ .comment) =
      some c.skipComments.token := by
  fun_induction skipComments c with
  | case1 c hskip ih =>
    have hkind : c.token.kind ≠ .endOfFile := by
      intro hend
      simp [hend] at hskip
    rw [upcoming_eq_cons hkind, List.find?_cons_of_neg (by obtain h | h := hskip <;> simp [h]), ih]
  | case2 c hskip =>
    obtain ⟨rest, hupcoming⟩ : ∃ rest, c.upcoming = c.token :: rest := by
      rw [upcoming]
      split <;> exact ⟨_, rfl⟩
    rw [hupcoming, List.find?_cons_of_pos (by simpa [not_or] using hskip)]

end Cursor

namespace SourceLine

/-- The first token of lines that is neither a line break nor a comment is one of their own, or the
end of the text. -/
lemma Last.find?_tokens {lines : List SourceLine} (h : Last lines) (hne : lines ≠ []) :
    ∃ t, (lines.flatMap SourceLine.tokens).find?
        (fun t => t.kind ≠ .endOfLine ∧ t.kind ≠ .comment) = some t ∧
      (t.kind ≠ .endOfFile ∧
          (lines.flatMap SourceLine.body).find? (·.kind ≠ .comment) = some t ∨
        t.kind = .endOfFile ∧
          (lines.flatMap SourceLine.body).find? (·.kind ≠ .comment) = none) := by
  induction lines with
  | nil => exact absurd rfl hne
  | cons line lines ih =>
    have hbody := h.body line List.mem_cons_self
    have hfind : line.body.find? (fun t => t.kind ≠ .endOfLine ∧ t.kind ≠ .comment) =
        line.body.find? (·.kind ≠ .comment) := by
      refine List.find?_congr fun t ht => ?_
      simp [(TokenKind.endsLine_eq_false_iff.mp (hbody t ht)).1]
    simp only [List.flatMap_cons, SourceLine.tokens, List.append_assoc, List.find?_append, hfind]
    cases hfirst : line.body.find? (·.kind ≠ .comment) with
    | some t =>
      have ht := hbody t (List.mem_of_find?_eq_some hfirst)
      exact ⟨t, rfl, .inl ⟨(TokenKind.endsLine_eq_false_iff.mp ht).2, rfl⟩⟩
    | none =>
      rw [Option.none_or, Option.none_or]
      obtain ⟨hstop, rfl⟩ | ⟨hstop, hne'⟩ := h.stop_cases
      · exact ⟨line.stop, by simp [hstop], .inr ⟨hstop, rfl⟩⟩
      · rw [List.find?_singleton, if_neg (by simp [hstop]), Option.none_or]
        exact ih h.tail hne'

end SourceLine

namespace Parser

variable {p : Parser} {name : String} {a : Assembly} {line : SourceLine} {lines : List SourceLine}

lemma Mirrors.anywhere (h : Mirrors name p a) (c : Cursor) :
    Mirrors name { p with cursor := c } a :=
  ⟨congrArg (fun p => { p with cursor := c }) h.holds, h.tree, h.fixups⟩

lemma Mirrors.reportAll (h : Mirrors name p a) (ms : List Message) :
    Mirrors name (p.reportAll ms) (a.report ms) :=
  ⟨congrArg (fun p => p.reportAll ms) h.holds, h.tree, h.fixups⟩

/-- Text behind the end of a unit is told from its first token that is no comment. -/
lemma mirrors_afterEnd (h : Mirrors name p a) (hfaces : p.cursor.Faces lines)
    (hlast : SourceLine.Last lines) (hne : lines ≠ []) :
    Mirrors name p.afterEnd (a.warnAfterEnd lines) := by
  have hskip := p.cursor.find?_upcoming
  rw [Cursor.Faces, if_neg hne] at hfaces
  obtain ⟨t, ht, hfirst⟩ := hlast.find?_tokens hne
  rw [hfaces, ht] at hskip
  obtain rfl := Option.some.inj hskip
  rw [afterEnd, Assembly.warnAfterEnd]
  obtain ⟨hkind, hfind⟩ | ⟨hkind, hfind⟩ := hfirst
  · rw [hfind, if_neg (by exact hkind)]
    exact (h.anywhere _).reportAll _
  · rw [hfind, if_pos (by exact hkind)]
    exact h.anywhere _

/-- A turn of the loop takes the next line. -/
lemma Mirrors.next (h : Mirrors name p a) (hfaces : p.cursor.Faces (line :: lines))
    (hlast : SourceLine.Last (line :: lines)) (hkind : p.cursor.token.kind ≠ .endOfFile) :
    Mirrors name p.parseLine (a.step line) ∧ p.parseLine.cursor.Faces lines := by
  obtain ⟨hmirrors, c, hc, hcursor⟩ := mirrors_parseLine h (hfaces.onLine hlast) hkind
    (hlast.comment line List.mem_cons_self)
  refine ⟨hmirrors, ?_⟩
  rw [hcursor]
  exact hc.faces hlast

/-- A parser takes the lines of a text as an assembly does that is given them as a list. -/
lemma mirrors_parseLines (h : Mirrors name p a) (hfaces : p.cursor.Faces lines)
    (hlast : SourceLine.Last lines) : Mirrors name p.parseLines (a.run lines) := by
  induction lines generalizing p a with
  | nil =>
    have hkind : p.cursor.token.kind = .endOfFile := hfaces
    rw [parseLines, if_pos hkind]
    exact h
  | cons line lines ih =>
    rw [parseLines, Assembly.run, ← h.ended_eq]
    by_cases hkind : p.cursor.token.kind = .endOfFile
    · obtain ⟨hbody, rfl⟩ := hfaces.of_endOfFile hlast hkind
      rw [if_pos hkind]
      have hfind : a.warnAfterEnd [line] = a := by simp [Assembly.warnAfterEnd, hbody]
      have hrun : (a.step line).run [] = a := by simp [Assembly.step, Assembly.run, hbody]
      rw [hfind, hrun, ite_self]
      exact h
    rw [if_neg hkind]
    by_cases hend : p.ended = true
    · rw [if_pos hend, if_pos hend]
      exact mirrors_afterEnd h hfaces hlast (by simp)
    · rw [if_neg hend, if_neg hend]
      obtain ⟨hnext, hcursor⟩ := h.next hfaces hlast hkind
      exact ih hnext hcursor hlast.tail

/-! ### Turns of the loop -/

/-- From a parser the loop comes to another one in so many turns. Each turn takes a line, as long
as the text is not over and no END has been accepted. -/
inductive Turns (p : Parser) : Nat → Parser → Prop
  | zero : Turns p 0 p
  | succ {n : Nat} {q : Parser} (h : Turns p n q) (htext : q.cursor.token.kind ≠ .endOfFile)
      (hopen : q.ended = false) : Turns p (n + 1) q.parseLine

variable {n : Nat} {q : Parser}

lemma Turns.cons (htext : p.cursor.token.kind ≠ .endOfFile) (hopen : p.ended = false)
    (h : Turns p.parseLine n q) : Turns p (n + 1) q := by
  induction h with
  | zero => exact .succ .zero htext hopen
  | succ h htext' hopen' ih => exact .succ ih htext' hopen'

/-- The loop ends, at the end of the text or behind an accepted END. -/
lemma exists_turns (p : Parser) : ∃ n q, Turns p n q ∧
    (q.cursor.token.kind = .endOfFile ∧ p.parseLines = q ∨
      q.cursor.token.kind ≠ .endOfFile ∧ q.ended = true ∧ p.parseLines = q.afterEnd) := by
  fun_induction parseLines p with
  | case1 p htext => exact ⟨0, p, .zero, .inl ⟨htext, rfl⟩⟩
  | case2 p htext hended => exact ⟨0, p, .zero, .inr ⟨htext, hended, rfl⟩⟩
  | case3 p htext hended ih =>
    obtain ⟨n, q, hturns, hend⟩ := ih
    exact ⟨n + 1, q, .cons htext (Bool.eq_false_of_not_eq_true hended) hturns, hend⟩

/-- After so many turns as many lines have been taken, and the others are to come. -/
lemma Turns.mirrors (hturns : Turns p n q) (h : Mirrors name p a) (hfaces : p.cursor.Faces lines)
    (hlast : SourceLine.Last lines) :
    n ≤ lines.length ∧ Mirrors name q (a.steps (lines.take n)) ∧
      q.cursor.Faces (lines.drop n) := by
  induction hturns with
  | zero => exact ⟨Nat.zero_le _, h, hfaces⟩
  | @succ n q hturns htext hopen ih =>
    obtain ⟨hle, hmirrors, hdrop⟩ := ih
    have hlt := hdrop.lt_length htext
    have hlast' := hlast.drop n
    rw [List.drop_eq_getElem_cons hlt] at hdrop hlast'
    rw [← List.take_concat_get' lines n hlt, Assembly.steps_concat]
    exact ⟨hlt, hmirrors.next hdrop hlast' htext⟩

/-! ### The start -/

/-- A parser in front of a text. -/
def start (log : Log) (cpu : Cpu) (name text : String) : Parser :=
  ((ofText log text).withCpu cpu).withModule name

/-- A parser that takes its first line. -/
def atFirstLine (log : Log) (cpu : Cpu) (name text : String) : Parser :=
  { start log cpu name text with parsed := true }

lemma parse_start (log : Log) (cpu : Cpu) (name text : String) :
    (start log cpu name text).parse =
      (atFirstLine log cpu name text).parseLines.resolveFixups := rfl

lemma mirrors_atFirstLine (log : Log) (cpu : Cpu) (name text : String) :
    Mirrors name (atFirstLine log cpu name text) { cpu, log } :=
  ⟨rfl, rfl, rfl⟩

/-- What the loop comes to after some turns over a text. -/
lemma Turns.mirrors_ofText {log : Log} {cpu : Cpu} {text : String}
    (h : Turns (atFirstLine log cpu name text) n q) :
    n ≤ (SourceLine.ofText text).length ∧
      Mirrors name q (({ cpu, log } : Assembly).steps ((SourceLine.ofText text).take n)) ∧
      q.cursor.Faces ((SourceLine.ofText text).drop n) :=
  h.mirrors (mirrors_atFirstLine log cpu name text) (Cursor.faces_ofText text)
    (SourceLine.Last.ofText text)

end Parser

end MicroAsm
