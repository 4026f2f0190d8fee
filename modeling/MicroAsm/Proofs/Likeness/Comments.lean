import MicroAsm.Proofs.Assembly.Comments
import MicroAsm.Proofs.Likeness.Columns
import MicroAsm.Proofs.Likeness.Offsets
import MicroAsm.Proofs.Token.Comments

/-!
# Comments do not matter

A source and the same source without its comments come to the same code, symbols and messages. This
is shown in two steps. The lines of the source without their comments, each of them with its end
where the comment was, do the same as the lines with them. And they are like the lines of the text
without its comments: blank lines apart they have the same words in the same columns, and only where
a carriage return and a line feed have become one line break the lines have other numbers.
-/

namespace MicroAsm

open List (Forall₂)

/-! ### Lines that are numbered anew -/

/-- Places in the same column, on a line that comes down by as many as the function says. -/
def Likeness.renumbered (joined : Nat → Nat) (hnone : joined 0 = 0) : Likeness where
  place l l' := l.column = l'.column ∧ l'.line = l.line + joined l'.line
  spelled := True
  place_none := ⟨rfl, by simp [Location.none, hnone]⟩

lemma Likeness.lines_renumbered {joined : Nat → Nat} {hnone : joined 0 = 0} {number number' : Nat}
    (h : number' = number + joined number') :
    (Likeness.renumbered joined hnone).Lines number number' := by
  rintro l l' rfl rfl hcolumn
  exact ⟨hcolumn, h⟩

namespace SourceLine

variable {L : Likeness} {C : Token → Prop} {line : List Char} {l : Location} {done : Bool}

lemma work_cons_of_alike {first first' : SourceLine} {lines lines' : List SourceLine}
    (h : first.Alike L first') (hlines : Forall₂ (SourceLine.Alike L) (work lines) (work lines')) :
    Forall₂ (SourceLine.Alike L) (work (first :: lines)) (work (first' :: lines')) := by
  have hblank : first.body.isEmpty = first'.body.isEmpty := by
    rw [Bool.eq_iff_iff, List.isEmpty_iff_length_eq_zero, List.isEmpty_iff_length_eq_zero,
      h.body.length_eq]
  rw [work, work, List.filter_cons, List.filter_cons, ← hblank]
  split
  · exact .cons h hlines
  · exact hlines

lemma work_cons_of_blank {first : SourceLine} (h : first.body = []) (lines : List SourceLine) :
    work (first :: lines) = work lines := by
  rw [work, List.filter_cons, h]
  rfl

/-- A line of the source, and what stands in front of its comment with an end in the place of
that. -/
lemma uncomments_line (hline : ∀ c ∈ line, Lexeme.onLine c = true) {stop stop' : Token}
    (hC : ∀ t ∈ (Scanner.tokens ⟨line, l, done⟩).1, t.kind = .comment → C t)
    (hstop : stop.kind.endsLine = true)
    (hplace : stop.location = Scanner.placeBehind l (Text.dropComments line))
    (hsame : Text.dropComments line = line → stop = stop') :
    Uncomments C ⟨(Scanner.tokens ⟨Text.dropComments line, l, done⟩).1, stop⟩
      ⟨(Scanner.tokens ⟨line, l, done⟩).1, stop'⟩ := by
  obtain ⟨hwords, hdrop | ⟨comment, -, htokens⟩⟩ := Scanner.tokens_dropComments hline l done
  · rw [hdrop] at hwords ⊢
    rw [hsame hdrop]
    exact .same hwords
  · rw [htokens] at hC ⊢
    exact .comment hwords rfl (hC _ (List.mem_append_right _ (List.mem_singleton_self _)) rfl)
      hstop hplace

/-- But for blank lines the first lines are like the second without their comments. -/
def Uncommented (L : Likeness) (C : Token → Prop) (plain lines : List SourceLine) : Prop :=
  ∃ between, Forall₂ (Uncomments C) between lines ∧
    Forall₂ (SourceLine.Alike L) (work plain) (work between)

lemma Uncommented.cons {first between first' : SourceLine} {plain lines : List SourceLine}
    (hrest : Uncommented L C plain lines) (halike : first.Alike L between)
    (huncomments : between.Uncomments C first') :
    Uncommented L C (first :: plain) (first' :: lines) := by
  obtain ⟨rest, hrestUncomments, hrestAlike⟩ := hrest
  exact ⟨between :: rest, .cons huncomments hrestUncomments,
    work_cons_of_alike halike hrestAlike⟩

lemma uncommented_cons_blank {first : SourceLine} {plain lines : List SourceLine}
    (hblank : first.body = []) :
    Uncommented L C (first :: plain) lines ↔ Uncommented L C plain lines := by
  rw [Uncommented, Uncommented, work_cons_of_blank hblank]

section

variable {l' : Location} (hline : ∀ c ∈ line, Lexeme.onLine c = true)
  (hlines : L.Lines l.line l'.line) (hcolumn : l.column = l'.column)
include hline hlines hcolumn

/-- The last line. -/
lemma uncommented_last
    (hC : ∀ t ∈ (Scanner.tokens ⟨line, l', done⟩).1, t.kind = .comment → C t) :
    Uncommented L C (ofScanner ⟨Text.dropComments line, l, done⟩)
      (ofScanner ⟨line, l', done⟩) := by
  have hplain := Text.onLine_dropComments hline
  have hlast := Scanner.last_of_onLine hplain l' done
  have hnil : Uncommented L C [] [] := ⟨[], .nil, .nil⟩
  rw [ofScanner_line hline, ofScanner_line hplain]
  refine hnil.cons (alike_of_last hplain hlines hcolumn) (uncomments_line hline hC ?_ ?_ ?_)
  · rw [hlast]
    rfl
  · rw [hlast]
  · intro hsame
    rw [hsame]

/-- A line with line breaks behind it that need not be the same. -/
lemma uncommented_break {cs rest cs' rest' : List Char} (h : IsBreak cs rest)
    (h' : IsBreak cs' rest')
    (hC : ∀ t ∈ (Scanner.tokens ⟨line, l', done⟩).1, t.kind = .comment → C t)
    (hrest : Uncommented L C
      (ofScanner ⟨rest', ((Text.dropComments line).foldl Location.advance l).breakLine cs'.length,
        done⟩)
      (ofScanner ⟨rest, (line.foldl Location.advance l').breakLine cs.length, done⟩)) :
    Uncommented L C (ofScanner ⟨Text.dropComments line ++ (cs' ++ rest'), l, done⟩)
      (ofScanner ⟨line ++ (cs ++ rest), l', done⟩) := by
  have hplain := Text.onLine_dropComments hline
  rw [ofScanner_break hline h, ofScanner_break hplain h']
  refine hrest.cons (alike_of_break hplain h' h hlines hcolumn) (uncomments_line hline hC ?_ ?_ ?_)
  · rw [h.nextToken]
    rfl
  · rw [h.nextToken]
    rfl
  · intro hsame
    rw [hsame]

/-- A line with a carriage return behind it, which a comment keeps from a line feed. The line of
that comment is blank without it, so it may as well be the first line of the rest. -/
lemma uncommented_joined {rest tail : List Char} (h : IsBreak ['\r'] rest)
    (htail : Text.dropComments rest = '\n' :: tail)
    (hC : ∀ t ∈ (Scanner.tokens ⟨line, l', done⟩).1, t.kind = .comment → C t)
    (hrest : ∀ here : Location, here.line = l.line → here.column = 0 → Uncommented L C
      (ofScanner ⟨Text.dropComments rest, here, done⟩)
      (ofScanner ⟨rest, (line.foldl Location.advance l').breakLine ['\r'].length, done⟩)) :
    Uncommented L C
      (ofScanner ⟨Text.dropComments line ++ (['\r'] ++ Text.dropComments rest), l, done⟩)
      (ofScanner ⟨line ++ (['\r'] ++ rest), l', done⟩) := by
  have hpair : IsBreak ['\r', '\n'] tail := ⟨Or.inl rfl, by simp [Apart]⟩
  have hfeed : IsBreak ['\n'] tail := ⟨Or.inr (Or.inr rfl), by simp [Apart]⟩
  obtain ⟨here, hhere⟩ : ∃ here : Location,
      here = (Text.dropComments line).foldl Location.advance l := ⟨_, rfl⟩
  have hnumber : here.line = l.line := hhere ▸ Location.line_foldl_advance _ l
  have hbehind := hrest ⟨here.line, 0, here.offset + 1⟩ hnumber rfl
  have hblank := @ofScanner_break [] ['\n'] tail done (by simp) hfeed
    ⟨here.line, 0, here.offset + 1⟩
  rw [List.nil_append, List.singleton_append, ← htail] at hblank
  rw [hblank, uncommented_cons_blank (Scanner.tokens_of_rest_eq_nil rfl)] at hbehind
  have hjoin : ['\r'] ++ '\n' :: tail = ['\r', '\n'] ++ tail := rfl
  rw [htail, hjoin]
  refine uncommented_break hline hlines hcolumn h hpair hC ?_
  rw [← hhere]
  exact hbehind

end

/-- The lines of a text are those of the same text without its comments, but for the comments,
for blank lines and for the numbers of the lines. -/
lemma uncommented_dropComments {joined : Nat → Nat} (hnone : joined 0 = 0) (cs : List Char)
    {l l' : Location} {before : Nat}
    (hC : ∀ line ∈ ofScanner ⟨cs, l', done⟩, ∀ t ∈ line.body, t.kind = .comment → C t)
    (hnumber : l'.line = l.line + before) (hcolumn : l.column = l'.column)
    (hjoined : ∀ n, joined (l'.line + n) = before + Text.joinedBreaks n cs) :
    Uncommented (.renumbered joined hnone) C (ofScanner ⟨Text.dropComments cs, l, done⟩)
      (ofScanner ⟨cs, l', done⟩) := by
  have hlines : ∀ {cs : List Char} {l l' : Location} {before : Nat}, l'.line = l.line + before →
      (∀ n, joined (l'.line + n) = before + Text.joinedBreaks n cs) →
      (Likeness.renumbered joined hnone).Lines l.line l'.line := by
    intro cs l l' before hnumber hjoined
    have hhere := hjoined 0
    rw [Nat.add_zero, Text.joinedBreaks, Nat.add_zero] at hhere
    exact Likeness.lines_renumbered (hhere ▸ hnumber)
  revert l l' before
  refine lines_rec (P := fun cs => ∀ {l l' : Location} {before : Nat},
    (∀ line ∈ ofScanner ⟨cs, l', done⟩, ∀ t ∈ line.body, t.kind = .comment → C t) →
    l'.line = l.line + before → l.column = l'.column →
    (∀ n, joined (l'.line + n) = before + Text.joinedBreaks n cs) →
    Uncommented (.renumbered joined hnone) C (ofScanner ⟨Text.dropComments cs, l, done⟩)
      (ofScanner ⟨cs, l', done⟩)) ?_ ?_ cs
  · intro line hline l l' before hC hnumber hcolumn hjoined
    rw [ofScanner_line hline, List.forall_mem_singleton] at hC
    exact uncommented_last hline (hlines hnumber hjoined) hcolumn hC
  · intro line cs rest hline hbreak ih l l' before hC hnumber hcolumn hjoined
    have hdrop : Text.dropComments (line ++ (cs ++ rest)) =
        Text.dropComments line ++ (cs ++ Text.dropComments rest) := by
      rw [Text.dropComments_append hline hbreak.breaks, Text.dropComments_break hbreak]
    have hnext : ((line.foldl Location.advance l').breakLine cs.length).line = l'.line + 1 :=
      congrArg (· + 1) (Location.line_foldl_advance line l')
    have hbehind : ∀ n, joined (l'.line + 1 + n) =
        before + Text.joinedBreaks (n + 1) (cs ++ rest) := by
      intro n
      rw [Nat.add_assoc, Nat.add_comm 1, hjoined, Text.joinedBreaks_line hline]
    have hfirst := hlines hnumber hjoined
    rw [ofScanner_break hline hbreak, List.forall_mem_cons] at hC
    rw [hdrop]
    rcases Text.break_dropComments hbreak with
      ⟨hjoins, hbreak'⟩ | ⟨⟨rfl, hstarts⟩, tail, htail⟩
    · have hnumber' : ((line.foldl Location.advance l').breakLine cs.length).line =
          (((Text.dropComments line).foldl Location.advance l).breakLine cs.length).line +
            before := by
        rw [hnext, hnumber, Location.breakLine, Location.newline, Location.line_foldl_advance]
        exact Nat.add_right_comm _ _ _
      refine uncommented_break hline hfirst hcolumn hbreak hbreak' hC.1
        (ih hC.2 hnumber' rfl fun n => ?_)
      rw [hnext, hbehind, Text.joinedBreaks_break hbreak, if_neg hjoins]
    · refine uncommented_joined hline hfirst hcolumn hbreak htail hC.1 ?_
      intro here hhere hzero
      have hnumber' : ((line.foldl Location.advance l').breakLine ['\r'].length).line =
          here.line + (before + 1) := by
        rw [hnext, hnumber, hhere, Nat.add_assoc]
      refine ih hC.2 hnumber' hzero fun n => ?_
      rw [hnext, hbehind, Text.joinedBreaks_break hbreak, if_pos ⟨rfl, hstarts⟩]
      omega

end SourceLine

/-! ### Programs -/

/-- The line is the second one without its comment, and with a number that comes down by as many as
the function says. -/
structure Line.Keeps (joined : Nat → Nat) (l l' : Line) : Prop where
  place : l.place = l'.place
  column : l.location.column = l'.location.column
  line : l'.location.line = l.location.line + joined l'.location.line
  label : l.label.map Node.text = l'.label.map Node.text
  statement : l.statement.kind = l'.statement.kind ∧ l.statement.text = l'.statement.text
  operands : l.operands.map (fun o => (o.node.kind, o.node.text)) =
    l'.operands.map (fun o => (o.node.kind, o.node.text))
  comment : l.comment = none

/-- The message is the second one, on a line with a number that comes down by as many as the
function says. It may be about the end of a line where the second is about one of the comments. -/
structure Message.Keeps (joined : Nat → Nat) (comments : List Token) (m m' : Message) : Prop where
  severity : m.severity = m'.severity
  column : m.location.column = m'.location.column
  line : m'.location.line = m.location.line + joined m'.location.line
  text : m.text = m'.text ∨ ∃ what, ∃ c ∈ comments, c.location = m'.location ∧
    m'.text = expectedText what c.shown ∧
      ∃ kind : TokenKind, kind.endsLine = true ∧ m.text = expectedText what kind.name

namespace Likeness

variable {joined : Nat → Nat} {hnone : joined 0 = 0}

lemma line_keeps {l l' : Line}
    (h : l.Alike (.renumbered joined hnone) { l' with comment := none }) : l.Keeps joined l' where
  place := h.place
  column := h.location.1
  line := h.location.2
  label := map_eq_map_of_rel h.label fun _ _ hn => hn.text trivial
  statement := ⟨h.statement.kind.eq trivial, h.statement.text trivial⟩
  operands := map_eq_map_of_forall₂ h.operands fun o o' ho => by
    rw [ho.node.kind.eq trivial, ho.node.text trivial]
  comment := by
    cases hl : l.comment with
    | none => rfl
    | some n =>
      obtain ⟨n', hn', -⟩ := h.comment.of_some hl
      cases hn'

/-- A message about the text without comments, the same about the lines without them, and the one
about the lines with them. -/
lemma message_keeps {comments : List Token} {m between m' : Message}
    (h : m.Alike (.renumbered joined hnone) between) (h' : between.Finds (· ∈ comments) m') :
    m.Keeps joined comments m' := by
  cases h' with
  | same => exact ⟨h.severity, h.place.1, h.place.2, Or.inl (h.text trivial)⟩
  | @comment stop c what hc hstop hplace =>
    have hplace' := h.place
    simp only [hplace] at hplace'
    refine ⟨h.severity, hplace'.1, hplace'.2, Or.inr ⟨what, c, hc, rfl, rfl, stop.kind, hstop, ?_⟩⟩
    have hshown : stop.shown = stop.kind.name := if_pos hstop
    rw [h.text trivial, hshown]

end Likeness

lemma Program.Uncomments.lines {p p' : Program} (h : p.Uncomments p') :
    p.lines = (p'.lines.filter fun l => !l.isComment).map fun l => { l with comment := none } := by
  rw [Program.lines, Program.lines, h.records]
  induction p'.records with
  | nil => rfl
  | cons r rs ih =>
    cases r with
    | remnant r => exact ih
    | line l =>
      rw [List.filterMap_cons, List.filterMap_cons, Record.uncommented]
      by_cases hcomment : l.isComment = true
      · simpa [Record.line?, hcomment] using ih
      · simpa [Record.line?, hcomment] using ih

/-- Comments are inert. Without them a source comes to the same object code, symbols and processor,
and but for the lines of nothing but a comment to the same lines with the same placements and the
same messages in the same order. Only a text differs where the comment itself was not expected, and
a line has a lower number for every comment in front of it that stands between a carriage return and
a line feed: without it these are one line break. -/
theorem assemble_dropComments (cpu : Cpu) (moduleName source : String) :
    let plain := String.ofList (Text.dropComments source.toList)
    let joined := fun number => Text.joinedBreaks (number - 1) source.toList
    let comments := (Scanner.ofText source).allTokens.filter (·.kind = .comment)
    (assemble cpu moduleName plain).1.object = (assemble cpu moduleName source).1.object ∧
    (assemble cpu moduleName plain).1.symbols = (assemble cpu moduleName source).1.symbols ∧
    (assemble cpu moduleName plain).1.cpu = (assemble cpu moduleName source).1.cpu ∧
    Forall₂ (Line.Keeps joined) (assemble cpu moduleName plain).1.lines
      ((assemble cpu moduleName source).1.lines.filter fun l => !l.isComment) ∧
    Forall₂ (Message.Keeps joined comments) (assemble cpu moduleName plain).2.messages.toList
      (assemble cpu moduleName source).2.messages.toList := by
  intro plain joined comments
  have hplain : plain.toList = Text.dropComments source.toList := String.toList_ofList
  -- The lines of the source with and without their comments.
  have hC : ∀ line ∈ SourceLine.ofText source, ∀ t ∈ line.body, t.kind = .comment →
      t ∈ comments := by
    intro line hline t ht hkind
    rw [List.mem_filter, ← (SourceLine.divide_ofText source).tokens]
    exact ⟨List.mem_flatMap.mpr ⟨line, hline, List.mem_append_left _ ht⟩, by simpa using hkind⟩
  have hnone : joined 0 = 0 := Text.joinedBreaks.eq_1 _
  have hjoined : ∀ n, joined (1 + n) = 0 + Text.joinedBreaks n source.toList := by
    intro n
    rw [Nat.zero_add, Nat.add_comm]
    rfl
  obtain ⟨between, huncomments, halike⟩ : SourceLine.Uncommented (.renumbered joined hnone)
      (· ∈ comments) (SourceLine.ofText plain) (SourceLine.ofText source) := by
    have hlines := SourceLine.uncommented_dropComments hnone source.toList (l := .start) hC rfl rfl
      hjoined
    rw [← hplain] at hlines
    exact hlines
  have hstart : Assembly.Uncomments (· ∈ comments) { cpu } { cpu } := ⟨rfl, rfl, .nil⟩
  obtain ⟨hprogram, hmessages⟩ := (hstart.run huncomments).finish moduleName
  obtain ⟨hprogram', hlog⟩ := finish_alike cpu moduleName halike
  rw [Assembly.run_work, Assembly.run_work] at hprogram' hlog
  refine ⟨hprogram'.object.trans hprogram.object,
    (hprogram'.symbols.eq trivial).trans hprogram.symbols, hprogram'.cpu.trans hprogram.cpu,
    ?_, ?_⟩
  · have hlines := hprogram'.lines
    rw [hprogram.lines, List.forall₂_map_right_iff] at hlines
    exact hlines.imp fun _ _ => Likeness.line_keeps
  · exact rel_trans hlog.messages hmessages fun _ _ _ => Likeness.message_keeps

/-- A comment may keep a carriage return and a line feed from being one line break. Without it the
lines behind have other numbers, in messages too. -/
theorem messages_dropComments_renumbered :
    let source := "\r;\nFOO"
    let plain := String.ofList (Text.dropComments source.toList)
    plain = "\r\nFOO" ∧
    ((assemble .intel8080 "MAIN" plain).2.messages.toList.map
        fun m => (m.severity, m.location.line, m.location.column)) = [(.error, 2, 1)] ∧
    ((assemble .intel8080 "MAIN" source).2.messages.toList.map
        fun m => (m.severity, m.location.line, m.location.column)) = [(.error, 3, 1)] := by
  decide +kernel

/-- Semicolons in strings start no comment, and gaps in front of comments are left. -/
example : Text.dropComments "A: ; a\r\n;b\rDB ';',\"x;\" ;c; d\n HLT;".toList =
    "A: \r\n\rDB ';',\"x;\" \n HLT".toList := by
  decide +kernel

end MicroAsm
