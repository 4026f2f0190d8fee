import MicroAsm.Parser.Unit
import MicroAsm.Proofs.Outcome
import MicroAsm.Proofs.Parser.Cursor

/-!
# Expressions token by token

A parser that takes an expression from its cursor finds what is found among the tokens of the
line, and leaves the cursor on what is left of the line. When it fails it is still on that line.
-/

namespace MicroAsm

namespace Parser

variable {stop : Token} {more ts : List Token} {p : Parser}

/-- A step comes to what reading the tokens of its line gives, and changes nothing but its place
among them. -/
inductive Reads (stop : Token) (more : List Token) (p : Parser) {α : Type} :
    Except Failure (α × List Token) → EStateM.Result Failure Parser α → Prop
  | ok {a : α} {rest : List Token} {c : Cursor} (h : c.OnLine stop more rest) :
      Reads stop more p (.ok (a, rest)) (.ok a { p with cursor := c })
  | error {f : Failure} {rest : List Token} {c : Cursor} (h : c.OnLine stop more rest) :
      Reads stop more p (.error f) (.error f { p with cursor := c })

namespace Reads

variable {α β : Type}

lemma exists_of_ok {a : α} {rest : List Token} {result : EStateM.Result Failure Parser α}
    (h : Reads stop more p (.ok (a, rest)) result) :
    ∃ c, c.OnLine stop more rest ∧ result = .ok a { p with cursor := c } := by
  cases h with
  | ok hc => exact ⟨_, hc, rfl⟩

lemma exists_of_error {f : Failure} {result : EStateM.Result Failure Parser α}
    (h : Reads stop more p (.error f) result) :
    ∃ c rest, c.OnLine stop more rest ∧ result = .error f { p with cursor := c } := by
  cases h with
  | error hc => exact ⟨_, _, hc, rfl⟩

/-- A step from the next token on is a step from the current one. -/
lemma of_moved {x : Except Failure (α × List Token)} {result : EStateM.Result Failure Parser α}
    (h : Reads stop more p.moved x result) : Reads stop more p x result := by
  cases h with
  | ok hc => exact .ok hc
  | error hc => exact .error hc

/-- Something is made of what was read. -/
lemma map {x : Except Failure (α × List Token)} {step : Parse α}
    (h : Reads stop more p x (step.run p)) (f : α → β) :
    Reads stop more p (x.map fun (a, rest) => (f a, rest))
      ((step >>= fun a => pure (f a)).run p) := by
  rw [EStateM.run_bind]
  generalize step.run p = result at h ⊢
  cases h with
  | ok hc => exact .ok hc
  | error hc => exact .error hc

end Reads

/-! ### Steps over tokens -/

@[simp] lemma run_token : token.run p = .ok p.cursor.token p := rfl

@[simp] lemma run_advance : advance.run p = .ok () p.moved := rfl

@[simp] lemma run_missing {α : Type} (what : String) :
    (missing what : Parse α).run p =
      .error ⟨p.cursor.token.location, .expected what p.cursor.token.shown⟩ p := rfl

/-- What a parser misses is missing on its line. -/
lemma run_missing_of_onLine {α : Type} (h : p.cursor.OnLine stop more ts) (what : String) :
    (missing what : Parse α).run p = .error (Reader.missing stop ts what) p := by
  rw [run_missing, h.token_eq]
  rfl

/-- The end of a statement is found where it is found among the tokens of the line. -/
lemma run_expectEnd (h : p.cursor.OnLine stop more ts) :
    expectEnd.run p =
      match Reader.expectEnd stop ts with
      | .ok () => .ok () p
      | .error f => .error f p := by
  have hends : (p.cursor.token.kind = .comment ∨ p.cursor.token.kind.endsLine = true) ↔
      Reader.atEnd ts = true := by
    rw [h.endsLine_token, h.token_eq]
    cases ts with
    | nil => simp [Reader.atEnd]
    | cons t ts => simp [Reader.atEnd, Reader.current]
  rw [expectEnd, run_bind_of_ok run_token, Reader.expectEnd]
  by_cases hend : Reader.atEnd ts = true
  · rw [if_pos (hends.mpr hend), if_pos hend]
    rfl
  · rw [if_neg (hends.not.mpr hend), if_neg hend, run_missing_of_onLine h]

/-! ### Expressions -/

lemma run_parseTerms (negative : Bool) (p : Parser) :
    (parseTerms negative).run p =
      match Reader.readTerm p.cursor.token with
      | .error f => .error f p
      | .ok term =>
        match Reader.sign? p.moved.cursor.token with
        | none => .ok ([⟨negative, term⟩], p.cursor.token.value) p.moved
        | some next =>
          match (parseTerms next).run p.moved.moved with
          | .error f q => .error f q
          | .ok (terms, text) q =>
            .ok (⟨negative, term⟩ :: terms,
              p.cursor.token.value ++ p.moved.cursor.token.value ++ text) q := by
  rw [EStateM.run, parseTerms]
  split
  · rename_i f hterm
    rw [hterm]
  · rename_i term hterm
    simp only [hterm]
    rfl

/-- No term starts with the end of a line. -/
lemma readTerm_of_endsLine {t : Token} (h : t.kind.endsLine = true) :
    Reader.readTerm t = .error (Reader.missing t [] "Value") := by
  rw [Reader.readTerm]
  cases hkind : t.kind <;> first | rfl | simp [hkind, TokenKind.endsLine] at h

lemma sign?_of_endsLine {t : Token} (h : t.kind.endsLine = true) : Reader.sign? t = none := by
  rw [Reader.sign?]
  cases hkind : t.kind <;> first | rfl | simp [hkind, TokenKind.endsLine] at h

/-- The terms of an expression. -/
lemma reads_parseTerms (h : p.cursor.OnLine stop more ts) (negative : Bool) :
    Reads stop more p
      ((Reader.readTerms stop negative ts).map fun (terms, text, rest) => ((terms, text), rest))
      ((parseTerms negative).run p) := by
  fun_induction Reader.readTerms stop negative ts generalizing p with
  | case1 negative =>
    have htoken : p.cursor.token = stop := h.token_eq
    rw [run_parseTerms, htoken, readTerm_of_endsLine h.stop]
    exact .error h
  | case2 negative t =>
    have htoken : p.cursor.token = t := h.token_eq
    have hnext : p.moved.cursor.token = stop := h.advance.token_eq
    rw [run_parseTerms, htoken, hnext, sign?_of_endsLine h.stop]
    cases Reader.readTerm t with
    | error f => exact .error h
    | ok term => exact .ok h.advance
  | case3 negative t op rest f hterm =>
    have htoken : p.cursor.token = t := h.token_eq
    rw [run_parseTerms, htoken, hterm]
    exact .error h
  | case4 negative t op rest term hsign hterm =>
    have htoken : p.cursor.token = t := h.token_eq
    have hnext : p.moved.cursor.token = op := h.advance.token_eq
    rw [run_parseTerms, htoken, hnext, hterm, hsign]
    exact .ok h.advance
  | case5 negative t op rest term next hsign hterm ih =>
    have htoken : p.cursor.token = t := h.token_eq
    have hnext : p.moved.cursor.token = op := h.advance.token_eq
    have hrest := ih (p := p.moved.moved) h.advance.advance
    rw [run_parseTerms, htoken, hnext, hterm, hsign]
    simp only
    generalize (parseTerms next).run p.moved.moved = result at hrest ⊢
    cases hterms : Reader.readTerms stop next rest with
    | error f =>
      rw [hterms] at hrest
      cases hrest with
      | error hc => exact .error hc
    | ok read =>
      rw [hterms] at hrest
      cases hrest with
      | ok hc => exact .ok hc

/-- An expression, with its text and its place. -/
lemma reads_parseExpr (h : p.cursor.OnLine stop more ts) :
    Reads stop more p (Reader.readValue stop ts) (parseExpr.run p) := by
  have hfirst : p.cursor.token = Reader.current stop ts := h.token_eq
  have hsign : Reader.sign? (Reader.current stop ts) = ts.head?.bind Reader.sign? := by
    cases ts with
    | nil => exact sign?_of_endsLine h.stop
    | cons t ts => rfl
  rw [parseExpr, run_bind_of_ok run_token, hfirst, hsign, Reader.readValue]
  cases hhead : ts.head?.bind Reader.sign? with
  | none =>
    have hterms := (reads_parseTerms h false).map fun read =>
      (⟨⟨read.1⟩, read.2, (Reader.current stop ts).location⟩ : Value)
    rwa [map_map] at hterms
  | some negative =>
    cases ts with
    | nil => simp at hhead
    | cons t ts =>
      have hterms := (reads_parseTerms (p := p.moved) h.advance negative).map fun read =>
        (⟨⟨read.1⟩, t.value ++ read.2, t.location⟩ : Value)
      rw [map_map] at hterms
      simp only [run_bind_of_ok run_advance]
      exact hterms.of_moved

end Parser

end MicroAsm
