import MicroAsm.Proofs.Parser.Lines

/-!
# What a failing line leaves alone

A parser adds nodes, complains and evaluates symbols while it takes a statement, before it knows
whether the rest of the line can be read. What lasts is done when nothing can fail any more: only
then are bytes put into the object code, values kept for later, symbols assigned, the processor
selected and the unit ended. So from a line that fails nothing is left but its label, loose nodes
and messages, the failure behind all others.
-/

namespace MicroAsm

namespace Parser

variable {p q : Parser} {name : String} {a : Assembly} {line : SourceLine} {more : List Token}
  {failure : Failure}

/-- What a line with a failure leaves alone: the object code, the values that wait, the processor,
the end of the unit, and all that can be seen from the root of the tree. The label in front of a
colon may become a symbol with the address of the line, if it is new and the statement behind it is
neither an assignment nor an ORG. The messages so far are followed by complaints and, at the end, by
the failure. -/
structure Spares (p : Parser) (failure : Failure) (q : Parser) : Prop where
  object : q.object = p.object
  fixups : q.fixups = p.fixups
  cpu : q.cpu = p.cpu
  ended : q.ended = p.ended
  tree : p.tree.Shows q.tree
  symbols : q.symbols = p.symbols ∨
    ∃ label colon next rest, p.cursor.upcoming = label :: colon :: next :: rest ∧
      label.kind = .identifier ∧ colon.kind = .colon ∧ next.kind.placesLabel = false ∧
      p.symbols.get? label.value = none ∧
      q.symbols = p.symbols.insert ⟨label.value, p.locationCounter, .label⟩
  messages : ∃ ms, (∀ m ∈ ms, m.IsComplaint) ∧
    q.log.messages.toList = p.log.messages.toList ++ ms ++ [failure.message]

lemma Mirrors.read_of_failure (h : Mirrors name p a)
    (hline : p.cursor.OnLine line.stop more line.body)
    (hcomment : ∀ t ∈ line.body.dropLast, t.kind ≠ .comment) (hfails : p.failure? = some failure) :
    ∃ label fragment, line.read a.cpu = .rejected label fragment failure := by
  rw [h.failure?_eq hline hcomment] at hfails
  cases hread : line.read a.cpu with
  | accepted label statement comment =>
    rw [hread] at hfails
    cases hfails
  | rejected label fragment failure' =>
    rw [hread] at hfails
    cases hfails
    exact ⟨label, fragment, rfl⟩

end Parser

/-- A label in front of a statement that does not give it a value stands in front of a colon. -/
lemma Reader.readLabel_eq_some {body ts : List Token} {label : Token}
    (h : readLabel body = (some label, ts)) (hplaces : ts.head?.any (·.kind.placesLabel) = false) :
    ∃ colon, body = label :: colon :: ts ∧ label.kind = .identifier ∧ colon.kind = .colon := by
  unfold readLabel at h
  split at h
  · rename_i t u rest
    split at h
    · rename_i hkind
      split at h
      · rename_i hcolon
        cases h
        exact ⟨u, rfl, hkind, hcolon⟩
      · rename_i hequ
        cases h
        simp [TokenKind.placesLabel, hequ] at hplaces
      · rename_i hset
        cases h
        simp [TokenKind.placesLabel, hset] at hplaces
      · cases h
    · cases h
  · cases h

namespace Cursor

variable {c : Cursor} {stop : Token} {more body ts : List Token}

lemma onLine_of_endOfFile (h : c.token.kind = .endOfFile) : c.OnLine c.token [] [] := by
  refine ⟨?_, by simp, by rw [h]; rfl⟩
  rw [upcoming, if_pos h]
  rfl

/-- The tokens from a label on. -/
lemma OnLine.upcoming_of_label {label colon : Token} (h : c.OnLine stop more body)
    (hbody : body = label :: colon :: ts) (hplaces : ts.head?.any (·.kind.placesLabel) = false) :
    ∃ next rest, c.upcoming = label :: colon :: next :: rest ∧
      next.kind.placesLabel = false := by
  rw [h.upcoming, hbody]
  cases ts with
  | cons t ts => exact ⟨t, ts ++ stop :: more, rfl, hplaces⟩
  | nil =>
    refine ⟨stop, more, rfl, ?_⟩
    have hends := h.stop
    cases hkind : stop.kind <;> simp_all [TokenKind.endsLine, TokenKind.placesLabel]

end Cursor

namespace Parser

variable {p q : Parser} {name : String} {a : Assembly} {line : SourceLine} {more : List Token}
  {label : Option Token} {fragment : Fragment} {failure : Failure}

/-- The label of a rejected line may become a symbol. -/
lemma Mirrors.symbols_of_rejected (h : Mirrors name p a)
    (hline : p.cursor.OnLine line.stop more line.body)
    (hcomment : ∀ t ∈ line.body.dropLast, t.kind ≠ .comment)
    (hread : line.read a.cpu = .rejected label fragment failure)
    (hnext : Mirrors name q (a.reject label fragment failure)) :
    q.symbols = p.symbols ∨
      ∃ label colon next rest, p.cursor.upcoming = label :: colon :: next :: rest ∧
        label.kind = .identifier ∧ colon.kind = .colon ∧ next.kind.placesLabel = false ∧
        p.symbols.get? label.value = none ∧
        q.symbols = p.symbols.insert ⟨label.value, p.locationCounter, .label⟩ := by
  obtain ⟨hlabel, hstatement⟩ := SourceLine.readStatement_of_rejected hcomment hread
  have hplaces : fragment.placesLabel =
      (Reader.readLabel line.body).2.head?.any (·.kind.placesLabel) :=
    (Reader.ends_readStatement _ _ _).of_error hstatement
  rw [hnext.symbols_eq, h.symbols_eq, h.locationCounter_eq]
  obtain heq | ⟨t, rfl, hfragment, hnone, heq⟩ := a.symbols_reject label fragment failure
  · exact .inl heq
  · rw [hfragment] at hplaces
    obtain ⟨colon, hbody, hkind, hcolon⟩ :=
      Reader.readLabel_eq_some (Prod.ext hlabel rfl) hplaces.symm
    obtain ⟨next, rest, hupcoming, hnext⟩ := hline.upcoming_of_label hbody hplaces.symm
    exact .inr ⟨t, colon, next, rest, hupcoming, hkind, hcolon, hnext, hnone, heq⟩

/-- What an assembly leaves alone that rejects a line, its parser does. -/
lemma Mirrors.spares_of_rejected (h : Mirrors name p a)
    (hline : p.cursor.OnLine line.stop more line.body)
    (hcomment : ∀ t ∈ line.body.dropLast, t.kind ≠ .comment)
    (hread : line.read a.cpu = .rejected label fragment failure)
    (hnext : Mirrors name q (a.reject label fragment failure)) : p.Spares failure q := by
  obtain ⟨hcpu, hcode, hrecords, hended⟩ := a.reject_frame label fragment failure
  refine ⟨?_, ?_, ?_, ?_, ?_, h.symbols_of_rejected hline hcomment hread hnext, ?_⟩
  · rw [hnext.object_eq, hcode, h.object_eq]
  · rw [hnext.fixups, hrecords, Array.toList_push, SyntaxTree.fixups_concat, ← h.fixups]
    exact List.append_nil p.fixups
  · rw [hnext.cpu_eq, hcpu, h.cpu_eq]
  · rw [hnext.ended_eq, hended, h.ended_eq]
  · rw [h.tree, hnext.tree]
    exact a.shows_reject _ _ _
  · rw [hnext.log_eq, h.log_eq]
    exact a.messages_reject _ _ _

/-- Whatever state the loop of a parser has come to, a line that fails leaves the program alone. -/
theorem spares_parseLine_of_failure (log : Log) (cpu : Cpu) (name text : String) (n : Nat)
    (p : Parser) (hturns : Turns (atFirstLine log cpu name text) n p) (failure : Failure)
    (hfails : p.failure? = some failure) : p.Spares failure p.parseLine := by
  obtain ⟨-, hmirrors, hfaces⟩ := hturns.mirrors_ofText
  have hlast := (SourceLine.Last.ofText text).drop n
  generalize ({ cpu, log } : Assembly).steps ((SourceLine.ofText text).take n) = a at hmirrors
  generalize (SourceLine.ofText text).drop n = lines at hfaces hlast
  cases lines with
  | nil =>
    -- At the end of the text there is no token to blame.
    have hread : ∃ label fragment,
        SourceLine.read a.cpu ⟨[], p.cursor.token⟩ = .rejected label fragment failure :=
      hmirrors.read_of_failure (Cursor.onLine_of_endOfFile hfaces) (by simp) hfails
    obtain ⟨label, fragment, hread⟩ := hread
    exact absurd rfl (Assembly.step_of_rejected hread).1
  | cons line lines =>
    have hline := hfaces.onLine hlast
    have hcomment := hlast.comment line List.mem_cons_self
    obtain ⟨label, fragment, hread⟩ := hmirrors.read_of_failure hline hcomment hfails
    obtain ⟨hbody, hstep⟩ := Assembly.step_of_rejected hread
    have htext : p.cursor.token.kind ≠ .endOfFile := by
      intro hkind
      exact hbody (hfaces.of_endOfFile hlast hkind).1
    obtain ⟨hnext, -⟩ := hmirrors.next hfaces hlast htext
    rw [hstep] at hnext
    exact hmirrors.spares_of_rejected hline hcomment hread hnext

/-- An instruction without its second operand, behind a label that is defined all the same. A value
of the line before waits, and goes on waiting. -/
theorem spares_parseLine_of_missing_operand :
    let p := (atFirstLine {} .intel8080 "MAIN" "LXI H,Y\nX: MVI A ; no value\nEND").parseLine
    let failure : Failure := ⟨⟨2, 10, 17⟩, .expected "Comma" " no value"⟩
    p.failure? = some failure ∧ p.fixups ≠ [] ∧
      p.parseLine.symbols = p.symbols.insert ⟨"X", 3, .label⟩ ∧ p.Spares failure p.parseLine := by
  intro p failure
  have hturns : Turns (atFirstLine {} .intel8080 "MAIN" "LXI H,Y\nX: MVI A ; no value\nEND") 1 p :=
    .succ .zero (by decide +kernel) (by decide +kernel)
  have hfails : p.failure? = some failure := by decide +kernel
  refine ⟨hfails, by decide +kernel, by decide +kernel, ?_⟩
  exact spares_parseLine_of_failure _ _ _ _ _ _ hturns _ hfails

end Parser

end MicroAsm
