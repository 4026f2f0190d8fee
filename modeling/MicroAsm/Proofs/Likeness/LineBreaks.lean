import MicroAsm.Proofs.Likeness.Columns
import MicroAsm.Proofs.Likeness.Offsets

/-!
# Line breaks of any kind

A text may end its lines with a carriage return, a line feed or both. With a line feed behind every
line it has the same tokens on the same lines and columns, so it comes to the same program and the
same listing; only byte offsets differ.
-/

namespace MicroAsm

open List (Forall₂)

/-! ### Texts with line feeds -/

/-- The text with a line feed for every carriage return that has one behind it. -/
def joinFeeds : List Char → List Char
  | '\r' :: '\n' :: cs => '\n' :: joinFeeds cs
  | c :: cs => c :: joinFeeds cs
  | [] => []

/-- The source with a line feed for every carriage return and line feed, and then one for every
other carriage return. -/
def withLineFeeds (source : String) : String :=
  String.ofList ((joinFeeds source.toList).map fun c => if c = '\r' then '\n' else c)

namespace Listing

variable {line cs rest : List Char}

/-- A listing cuts its source where it has line feeds then. -/
lemma map_joinFeeds (cs : List Char) :
    (joinFeeds cs).map (fun c => if c = '\r' then '\n' else c) = normalizeBreaks cs := by
  fun_induction joinFeeds cs with
  | case1 cs ih =>
    rw [List.map_cons, ih, normalizeBreaks]
    rfl
  | case2 c cs hpair ih => rw [List.map_cons, ih, normalizeBreaks.eq_2 _ _ hpair]
  | case3 => rfl

lemma toList_withLineFeeds (source : String) :
    (withLineFeeds source).toList = normalizeBreaks source.toList := by
  rw [withLineFeeds, String.toList_ofList, map_joinFeeds]

lemma normalizeBreaks_line (hline : ∀ c ∈ line, Lexeme.onLine c = true) (rest : List Char) :
    normalizeBreaks (line ++ rest) = line ++ normalizeBreaks rest := by
  induction line with
  | nil => rfl
  | cons c line ih =>
    rw [List.forall_mem_cons] at hline
    have hne : c ≠ '\r' := by
      rintro rfl
      cases hline.1
    rw [List.cons_append, normalizeBreaks.eq_2, if_neg hne, ih hline.2, List.cons_append]
    rintro tail rfl -
    exact hne rfl

lemma normalizeBreaks_break (h : IsBreak cs rest) :
    normalizeBreaks (cs ++ rest) = '\n' :: normalizeBreaks rest := by
  rcases h.eq with rfl | rfl | rfl
  · rfl
  · rw [List.singleton_append, normalizeBreaks.eq_2]
    · rfl
    · rintro tail - rfl
      exact h.apart rfl rfl
  · rfl

lemma isBreak_newline (rest : List Char) : IsBreak ['\n'] rest := by
  refine ⟨Or.inr (Or.inr rfl), ?_⟩
  intro hlast
  cases hlast

/-- The line feeds of a text are left alone. -/
lemma normalizeBreaks_normalizeBreaks (cs : List Char) :
    normalizeBreaks (normalizeBreaks cs) = normalizeBreaks cs := by
  refine lines_rec (P := fun cs => normalizeBreaks (normalizeBreaks cs) = normalizeBreaks cs)
    ?_ ?_ cs
  · intro line hline
    have heq := normalizeBreaks_line hline []
    rw [List.append_nil, normalizeBreaks, List.append_nil] at heq
    rw [heq, heq]
  · intro line cs rest hline h ih
    have hbreak := normalizeBreaks_break (isBreak_newline (normalizeBreaks rest))
    rw [List.singleton_append, ih] at hbreak
    rw [normalizeBreaks_line hline, normalizeBreaks_break h, normalizeBreaks_line hline, hbreak]

end Listing

/-! ### Scanning -/

namespace Location

variable {l l' : Location}

lemma isNone_of_pos (h : 0 < l.line) : l.isNone = false := by
  rw [isNone, beq_eq_false_iff_ne]
  rintro rfl
  exact Nat.lt_irrefl 0 h

end Location

/-- Places of a text that are on the same line and column stand for each other. -/
lemma Likeness.lines_flat {number : Nat} (hpos : 0 < number) :
    Likeness.flat.Lines number number := by
  intro l l' hline hline' hcolumn
  refine ⟨Location.flat_eq_iff.mpr ⟨hline.trans hline'.symm, hcolumn⟩, ?_⟩
  rw [Location.isNone_of_pos (hline ▸ hpos), Location.isNone_of_pos (hline' ▸ hpos)]

/-- The lines of a text, and of the text with a line feed behind every line. -/
lemma SourceLine.ofScanner_normalizeBreaks (cs : List Char) {l l' : Location}
    (h : l.flat = l'.flat) (hpos : 0 < l.line) (done : Bool) :
    Forall₂ (SourceLine.Alike .flat) (ofScanner ⟨Listing.normalizeBreaks cs, l, done⟩)
      (ofScanner ⟨cs, l', done⟩) := by
  have hlines : ∀ {l l' : Location}, l.flat = l'.flat → 0 < l.line →
      Likeness.flat.Lines l.line l'.line ∧ l.column = l'.column := by
    intro l l' h hpos
    obtain ⟨hline, hcolumn⟩ := Location.flat_eq_iff.mp h
    exact ⟨hline ▸ Likeness.lines_flat hpos, hcolumn⟩
  revert l l'
  refine lines_rec (P := fun cs => ∀ {l l' : Location}, l.flat = l'.flat → 0 < l.line →
    Forall₂ (SourceLine.Alike .flat) (ofScanner ⟨Listing.normalizeBreaks cs, l, done⟩)
      (ofScanner ⟨cs, l', done⟩)) ?_ ?_ cs
  · intro line hline l l' h hpos
    have heq := Listing.normalizeBreaks_line hline []
    rw [List.append_nil, Listing.normalizeBreaks, List.append_nil] at heq
    obtain ⟨hsame, hcolumn⟩ := hlines h hpos
    rw [heq, ofScanner_line hline, ofScanner_line hline]
    exact .cons (alike_of_last hline hsame hcolumn) .nil
  · intro line cs rest hline hbreak ih l l' h hpos
    have hnewline := Listing.isBreak_newline (Listing.normalizeBreaks rest)
    have heq : Listing.normalizeBreaks (line ++ (cs ++ rest)) =
        line ++ (['\n'] ++ Listing.normalizeBreaks rest) := by
      rw [Listing.normalizeBreaks_line hline, Listing.normalizeBreaks_break hbreak,
        List.singleton_append]
    obtain ⟨hsame, hcolumn⟩ := hlines h hpos
    have hnumber : l.line = l'.line := (Location.flat_eq_iff.mp h).1
    rw [heq, ofScanner_break hline hnewline, ofScanner_break hline hbreak]
    refine .cons (alike_of_break hline hnewline hbreak hsame hcolumn) (ih ?_ (Nat.succ_pos _))
    exact Location.flat_eq_iff.mpr ⟨by simp [Location.breakLine, Location.newline,
      Location.line_foldl_advance, hnumber], rfl⟩

/-- Line endings do not matter. With line feeds for all of them the tokens of a source have the same
kinds and values and stand on the same lines and columns. The object code, the symbols and the processor are the same,
the tree and the messages are the same but for byte offsets, and the listing is the same text. -/
theorem assemble_normalizeBreaks (cpu : Cpu) (moduleName source : String) :
    let feeds := withLineFeeds source
    (Scanner.ofText feeds).allTokens.map
        (fun t => (t.kind, t.value, t.location.line, t.location.column)) =
      (Scanner.ofText source).allTokens.map
        (fun t => (t.kind, t.value, t.location.line, t.location.column)) ∧
    (assemble cpu moduleName feeds).1.object = (assemble cpu moduleName source).1.object ∧
    (assemble cpu moduleName feeds).1.symbols = (assemble cpu moduleName source).1.symbols ∧
    (assemble cpu moduleName feeds).1.cpu = (assemble cpu moduleName source).1.cpu ∧
    (assemble cpu moduleName feeds).1.tree.map SyntaxTree.flat =
      (assemble cpu moduleName source).1.tree.map SyntaxTree.flat ∧
    (assemble cpu moduleName feeds).2.messages.toList.map Message.flat =
      (assemble cpu moduleName source).2.messages.toList.map Message.flat ∧
    ∀ columns,
      Listing.render columns feeds (assemble cpu moduleName feeds).1
          (assemble cpu moduleName feeds).2 =
        Listing.render columns source (assemble cpu moduleName source).1
          (assemble cpu moduleName source).2 := by
  intro feeds
  have hfeeds : feeds.toList = Listing.normalizeBreaks source.toList :=
    Listing.toList_withLineFeeds source
  have hlines : Forall₂ (SourceLine.Alike .flat) (SourceLine.ofText feeds)
      (SourceLine.ofText source) := by
    have halike := SourceLine.ofScanner_normalizeBreaks source.toList (l := .start) rfl
      Nat.one_pos false
    rw [← hfeeds] at halike
    exact halike
  obtain ⟨hprogram, hlog⟩ := assemble_alike cpu moduleName hlines
  have htokens : Forall₂ (Token.Alike .flat) (Scanner.ofText feeds).allTokens
      (Scanner.ofText source).allTokens := by
    rw [← (SourceLine.divide_ofText feeds).tokens, ← (SourceLine.divide_ofText source).tokens]
    exact List.rel_flatMap hlines fun _ _ hline =>
      List.rel_append hline.body (.cons hline.stop .nil)
  refine ⟨map_eq_map_of_forall₂ htokens ?_, hprogram.object, hprogram.symbols.eq trivial,
    hprogram.cpu, ?_, map_eq_map_of_forall₂ hlog.messages fun _ _ hm => hm.flat, ?_⟩
  · intro t t' ht
    obtain ⟨hline, hcolumn⟩ := Location.flat_eq_iff.mp ht.place.1
    rw [ht.kind, ht.name.text trivial, hline, hcolumn]
  · rw [← Program.tree_flat, ← Program.tree_flat, hprogram.flat]
  · intro columns
    refine Listing.render_alike columns ?_ hprogram hlog
    rw [Listing.sourceLines, Listing.sourceLines, hfeeds, Listing.normalizeBreaks_normalizeBreaks]

/-- A return in front of a return and a feed, one inside a string that is not closed, and one at
the end. -/
example : withLineFeeds "A:\r\r\nDB 'x\rEND\r" = "A:\n\nDB 'x\nEND\n" := by
  decide

end MicroAsm
