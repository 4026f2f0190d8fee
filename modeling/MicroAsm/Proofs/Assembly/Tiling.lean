import MicroAsm.Proofs.Assembly.Bytes

/-!
# How lines tile the code

With errors or without, the lines of a unit stand one behind the other in the code. Only an ORG
leaves bytes out, and it stands behind them. These are zeros when the ORG puts them there and are
zeros at the end, since the last pass writes inside the lines only.
-/

namespace MicroAsm

/-- The byte at an index of the code is one of the line. -/
def Line.Covers (l : Line) (k : Nat) : Prop :=
  l.place.start ≤ k ∧ k < l.place.start + l.place.size

/-- Lines between two places of the code, each right behind the one in front of it. Only in front
of an ORG there may be a gap. -/
def Tiles : (first : Nat) → List Line → (last : Nat) → Prop
  | first, [], last => first = last
  | first, l :: ls, last =>
    first ≤ l.place.start ∧ (l.statement.kind ≠ .org → l.place.start = first) ∧
      Tiles (l.place.start + l.place.size) ls last

namespace Tiles

variable {first last : Nat} {ls : List Line}

/-- One more line behind the others. -/
lemma concat {l : Line} (h : Tiles first ls last) (hstart : last ≤ l.place.start)
    (hgap : l.statement.kind ≠ .org → l.place.start = last) :
    Tiles first (ls ++ [l]) (l.place.start + l.place.size) := by
  induction ls generalizing first with
  | nil =>
    obtain rfl : first = last := h
    exact ⟨hstart, hgap, rfl⟩
  | cons l' ls ih =>
    obtain ⟨hfirst, horg, hrest⟩ := h
    exact ⟨hfirst, horg, ih hrest⟩

lemma first_le_last (h : Tiles first ls last) : first ≤ last := by
  induction ls generalizing first with
  | nil => exact Nat.le_of_eq h
  | cons l ls ih =>
    obtain ⟨hfirst, -, hrest⟩ := h
    have hle := ih hrest
    omega

lemma first_le (h : Tiles first ls last) : ∀ l ∈ ls, first ≤ l.place.start := by
  induction ls generalizing first with
  | nil => simp
  | cons l ls ih =>
    obtain ⟨hfirst, -, hrest⟩ := h
    rw [List.forall_mem_cons]
    refine ⟨hfirst, ?_⟩
    intro l' hl'
    have hle := ih hrest l' hl'
    omega

lemma le_last (h : Tiles first ls last) : ∀ l ∈ ls, l.place.start + l.place.size ≤ last := by
  induction ls generalizing first with
  | nil => simp
  | cons l ls ih =>
    obtain ⟨-, -, hrest⟩ := h
    rw [List.forall_mem_cons]
    exact ⟨hrest.first_le_last, ih hrest⟩

lemma ordered (h : Tiles first ls last) :
    ls.Pairwise fun l l' => l.place.start + l.place.size ≤ l'.place.start := by
  induction ls generalizing first with
  | nil => exact .nil
  | cons l ls ih =>
    obtain ⟨-, -, hrest⟩ := h
    exact .cons hrest.first_le (ih hrest)

/-- A byte that no line covers is in a gap, and the gap ends where an ORG stands. -/
lemma covers_or_gap (h : Tiles first ls last) {k : Nat} (hfirst : first ≤ k) (hlast : k < last) :
    (∃ l ∈ ls, l.Covers k) ∨
      ∃ earlier l later, ls = earlier ++ l :: later ∧ l.statement.kind = .org ∧
        (∀ l' ∈ earlier, l'.place.start + l'.place.size ≤ k) ∧ k < l.place.start := by
  induction ls generalizing first with
  | nil =>
    obtain rfl : first = last := h
    omega
  | cons l ls ih =>
    obtain ⟨-, horg, hrest⟩ := h
    by_cases hgap : k < l.place.start
    · -- Only an ORG leaves a gap in front of it.
      refine Or.inr ⟨[], l, ls, rfl, ?_, by simp, hgap⟩
      by_contra hkind
      have hstart := horg hkind
      omega
    · by_cases hcovers : k < l.place.start + l.place.size
      · exact Or.inl ⟨l, List.mem_cons_self, by omega, hcovers⟩
      · rcases ih hrest (by omega) with ⟨l', hl', hk⟩ | ⟨earlier, l', later, rfl, hl'⟩
        · exact Or.inl ⟨l', List.mem_cons_of_mem l hl', hk⟩
        · obtain ⟨hkind, hearlier, hk⟩ := hl'
          refine Or.inr ⟨l :: earlier, l', later, rfl, hkind, ?_, hk⟩
          rw [List.forall_mem_cons]
          exact ⟨by omega, hearlier⟩

/-- The operands of lines have no say in where they stand. -/
lemma map_outline (first : Nat) (ls : List Line) (last : Nat) :
    Tiles first (ls.map Patching.outline) last ↔ Tiles first ls last := by
  induction ls generalizing first with
  | nil => exact Iff.rfl
  | cons l ls ih =>
    rw [List.map_cons, Tiles, Tiles, ← ih]
    rfl

end Tiles

/-! ### Bytes that no value waits for -/

/-- The byte at an index is not one of the slot. -/
def Slot.Misses (s : Slot) (k : Nat) : Prop :=
  k < s.index ∨ s.index + s.width ≤ k

lemma Segment.getElem?_overwrite {bytes : Array UInt8} {index k : Nat} {bs : List UInt8}
    (h : k < index ∨ index + bs.length ≤ k) : (overwrite bytes index bs)[k]? = bytes[k]? := by
  induction bs generalizing bytes index with
  | nil => rfl
  | cons b bs ih =>
    rw [List.length_cons] at h
    have hne : index ≠ k := by omega
    rw [overwrite, ih (by omega), Array.getElem?_setIfInBounds_ne hne]

namespace Patching

variable {symbols : SymbolTable} {k : Nat}

lemma getElem?_write (p : Patching) {index : Nat} {bytes : List UInt8} (location : Location)
    (h : k < index ∨ index + bytes.length ≤ k) :
    (p.write index bytes location).code.bytes[k]? = p.code.bytes[k]? := by
  rw [write, Segment.patch?]
  split
  · rename_i code hcode
    split at hcode
    · cases hcode
      exact Segment.getElem?_overwrite h
    · cases hcode
  · rfl

lemma getElem?_resolveOperand (p : Patching) {place : Placement} {o : OperandNode}
    (h : ∀ s ∈ Slot.ofOperands place.start [o], s.Misses k) :
    (p.resolveOperand symbols place o).2.code.bytes[k]? = p.code.bytes[k]? := by
  rw [resolveOperand]
  cases hdeferred : o.deferred with
  | none => rfl
  | some d =>
    have hmisses : Slot.Misses ⟨place.start + d.offset, d.width.size⟩ k :=
      h _ (by simp [Slot.ofOperands, hdeferred])
    simp only
    cases d.expr.eval symbols place.address with
    | error name => rfl
    | ok n => exact getElem?_write _ _ (by rw [Width.length_bytesOf]; exact hmisses)

lemma getElem?_resolveOperands (p : Patching) {place : Placement} {os : List OperandNode}
    (h : ∀ s ∈ Slot.ofOperands place.start os, s.Misses k) :
    (p.resolveOperands symbols place os).2.code.bytes[k]? = p.code.bytes[k]? := by
  induction os generalizing p with
  | nil => rfl
  | cons o os ih =>
    rw [← List.singleton_append, Slot.ofOperands_append, List.forall_mem_append] at h
    exact (ih _ h.2).trans (getElem?_resolveOperand p h.1)

/-- The last pass does not touch a byte that is in no slot. -/
lemma getElem?_resolveRecords (p : Patching) {rs : List Record}
    (h : ∀ l ∈ rs.filterMap Record.line?, ∀ s ∈ l.slots, s.Misses k) :
    (p.resolveRecords symbols rs).2.code.bytes[k]? = p.code.bytes[k]? := by
  induction rs generalizing p with
  | nil => rfl
  | cons r rs ih =>
    cases r with
    | remnant r => exact ih p h
    | line l =>
      simp only [List.filterMap_cons, Record.line?, List.forall_mem_cons] at h
      exact (ih _ h.2).trans (getElem?_resolveOperands p h.1)

end Patching

namespace Assembly

variable {a : Assembly} {label comment : Option Token} {statement : Statement}

/-! ### One line -/

lemma exists_toList_put (e : Emission) (location : Location) :
    ∃ bytes, (a.put e location).code.bytes.toList = a.code.bytes.toList ++ bytes := by
  rw [put]
  split
  · exact ⟨e.bytes, by simp⟩
  · exact ⟨[], by simp⟩

/-- A statement puts the zeros of its gap into the code and its own bytes behind them. -/
lemma exists_toList_execute :
    ∃ bytes, (a.execute a.code.locationCounter label statement).1.code.bytes.toList =
      a.code.bytes.toList ++ List.replicate (a.layout.gapOf statement) 0 ++ bytes := by
  cases statement with
  | org location origin =>
    refine ⟨[], ?_⟩
    rcases hvalue : origin.evaluate a.symbols a.code.locationCounter with ⟨value, messages⟩
    have hgap : a.layout.gapOf (.org location origin) = (value.map a.layout.gapTo).getD 0 := by
      rw [← here_layout] at hvalue
      exact congrArg (fun r => (r.1.map a.layout.gapTo).getD 0) hvalue
    simp only [execute, hvalue, (defineLabel_frame _ _ _).2.1, hgap, List.append_nil]
    cases value with
    | none => exact (List.append_nil _).symm
    | some target => exact toList_moveTo target origin.location
  | data width location items =>
    obtain ⟨bytes, hbytes⟩ := (a.defineLabel label a.code.locationCounter).exists_toList_put
      (Item.emissions (a.defineLabel label a.code.locationCounter).symbols
        a.code.locationCounter width 0 items) location
    exact ⟨bytes, by simpa [execute, Layout.gapOf] using hbytes⟩
  | instruction i location arguments =>
    obtain ⟨bytes, hbytes⟩ := (a.defineLabel label a.code.locationCounter).exists_toList_put
      (i.emission location (arguments.map (Argument.settle
        (a.defineLabel label a.code.locationCounter).symbols a.code.locationCounter))) location
    exact ⟨bytes, by simpa [execute, Layout.gapOf] using hbytes⟩
  | cpu location name =>
    refine ⟨[], ?_⟩
    simp only [execute]
    split <;> simp [Layout.gapOf]
  | empty location | endUnit location | assign how location v =>
    exact ⟨[], by simp [execute, Layout.gapOf]⟩

/-- The slots of an accepted line are in its own bytes. -/
lemma between_slots_lineOf (hbelongs : statement.BelongsTo a.cpu) (location : Location) :
    Slot.Between (a.lineOf location label statement comment).place.start
      ((a.lineOf location label statement comment).place.start +
        (a.lineOf location label statement comment).place.size)
      (a.lineOf location label statement comment).slots := by
  obtain ⟨hsize, hslots⟩ := @reserves_execute a label comment location statement hbelongs
  by_cases horg : ∃ location' origin, statement = .org location' origin
  · -- The value of an ORG cannot wait.
    obtain ⟨location', origin, rfl⟩ := horg
    rw [Line.slots, Slot.ofOperands_of_settled (by simp [lineOf, execute])]
    exact Slot.between_nil _ _
  · have hkind := mt (a.kind_execute_eq_org_iff a.code.locationCounter label statement).mp horg
    have hplace : (a.lineOf location label statement comment).place =
        { address := (a.execute a.code.locationCounter label statement).1.code.offset +
            UInt16.ofNat a.code.size
          start := a.code.size
          size := (a.execute a.code.locationCounter label statement).1.code.size -
            a.code.size } := if_neg hkind
    rw [hplace]
    simp only [Nat.add_sub_cancel' hsize]
    exact hslots

/-! ### Runs -/

/-- The lines tile the code, the bytes between them are zeros, and nothing waits for these. The
address of a line with bytes is that of its first byte. -/
structure Tiled (a : Assembly) : Prop where
  tiles : Tiles 0 a.lines a.code.size
  zeros : ∀ k < a.code.size, (∀ l ∈ a.lines, ¬l.Covers k) → a.code.bytes[k]? = some 0
  slots : ∀ l ∈ a.lines, ∀ s ∈ l.slots, ∀ k, ¬l.Covers k → s.Misses k
  address : ∀ l ∈ a.lines, 0 < l.place.size →
    l.place.address = a.code.offset + UInt16.ofNat l.place.start

lemma size_accept (hbelongs : statement.BelongsTo a.cpu) (location : Location) :
    (a.accept location label statement comment).code.size =
      a.code.size + a.layout.gapOf statement + statement.room := by
  have hlayout := congrArg Layout.size (a.layout_execute hbelongs label)
  rw [Layout.size_execute] at hlayout
  exact hlayout.trans (Nat.add_right_comm _ _ _)

/-- An accepted line comes behind the others, maybe with a gap of zeros in front of it. -/
lemma Tiled.accept (h : Tiled a) (hbelongs : statement.BelongsTo a.cpu) (location : Location) :
    Tiled (a.accept location label statement comment) := by
  obtain ⟨hroom, hstart⟩ := a.place_lineOf hbelongs location label comment
  have hsize := @size_accept a label comment statement hbelongs location
  have hend : (a.accept location label statement comment).code.size =
      (a.lineOf location label statement comment).place.start +
        (a.lineOf location label statement comment).place.size := by
    rw [hsize, hstart, hroom]
  refine ⟨?_, ?_, ?_, ?_⟩
  · rw [lines_accept, hend]
    refine h.tiles.concat (by omega) ?_
    intro hkind
    have hgap : a.layout.gapOf statement = 0 := by
      refine a.layout.gapOf_of_ne fun location' origin heq => hkind ?_
      exact (a.kind_execute_eq_org_iff _ label statement).mpr ⟨location', origin, heq⟩
    omega
  · intro k hk hcovers
    obtain ⟨bytes, hbytes⟩ := @exists_toList_execute a label statement
    rw [lines_accept, List.forall_mem_append, List.forall_mem_singleton] at hcovers
    have hcode : (a.accept location label statement comment).code.bytes[k]? =
        (a.code.bytes.toList ++ List.replicate (a.layout.gapOf statement) 0 ++ bytes)[k]? := by
      rw [← hbytes, Array.getElem?_toList]
      rfl
    by_cases hold : k < a.code.size
    · rw [hcode, List.append_assoc, List.getElem?_append_left hold, Array.getElem?_toList]
      exact h.zeros k hold hcovers.1
    · -- The line covers its own bytes, so the new byte is in its gap.
      have hgap : k < a.code.size + a.layout.gapOf statement := by
        by_contra hge
        exact hcovers.2 ⟨by omega, by omega⟩
      have hlength : (a.code.bytes.toList ++ List.replicate (a.layout.gapOf statement) 0).length =
          a.code.size + a.layout.gapOf statement := by
        rw [List.length_append, List.length_replicate, Segment.size_eq_length]
      rw [Segment.size_eq_length] at hold hgap
      rw [hcode, List.getElem?_append_left (by rw [hlength]; exact hgap),
        List.getElem?_append_right (by omega), List.getElem?_replicate_of_lt (by omega)]
  · intro l hl
    rw [lines_accept, List.mem_append, List.mem_singleton] at hl
    rcases hl with hl | rfl
    · exact h.slots l hl
    · intro s hs k hk
      have hbetween := @between_slots_lineOf a label comment statement hbelongs location
      have hfirst := hbetween.first_le s hs
      have hlast := hbetween.le_last s hs
      by_contra hhits
      rw [Slot.Misses, not_or] at hhits
      exact hk ⟨by omega, by omega⟩
  · intro l hl hpos
    rw [lines_accept, List.mem_append, List.mem_singleton] at hl
    rcases hl with hl | rfl
    · -- The code is not empty any more, so it keeps its address.
      have hinside := h.tiles.le_last l hl
      rw [h.address l hl hpos]
      exact congrArg (· + UInt16.ofNat l.place.start)
        (offset_execute hbelongs (Or.inl (by omega))).symm
    · exact a.address_lineOf location

lemma Tiled.step (h : Tiled a) (line : SourceLine) : Tiled (a.step line) := by
  rcases a.step_eq_cases line with
    ⟨-, heq⟩ | ⟨first, label, statement, comment, -, hread, heq⟩ |
      ⟨first, label, fragment, failure, -, -, heq⟩
  · rw [heq]
    exact h
  · rw [heq]
    exact h.accept (SourceLine.belongsTo_of_read hread) first.location
  · have hlines : (a.reject label fragment failure).lines = a.lines := by
      simp [lines, Record.line?]
    have hcode := (reject_frame a label fragment failure).2.1
    rw [heq]
    refine ⟨?_, ?_, ?_, ?_⟩
    · rw [hlines, hcode]
      exact h.tiles
    · rw [hlines, hcode]
      exact h.zeros
    · rw [hlines]
      exact h.slots
    · rw [hlines, hcode]
      exact h.address

/-- The lines tile the code after any lines of a text. -/
lemma tiled_steps (cpu : Cpu) (lines : List SourceLine) :
    Tiled (({ cpu } : Assembly).steps lines) := by
  refine steps_rec (P := fun _ a => Tiled a) _ ?_ (fun _ _ line h => h.step line) lines
  refine ⟨rfl, ?_, ?_, ?_⟩
  · intro k hk
    exact absurd hk (Nat.not_lt_zero k)
  · simp [Assembly.lines]
  · simp [Assembly.lines]

/-! ### The last pass -/

lemma Tiled.warnAfterEnd (h : Tiled a) (rest : List SourceLine) : Tiled (a.warnAfterEnd rest) := by
  have hcode := (a.warnAfterEnd_frame rest).2.2.1
  refine ⟨?_, ?_, ?_, ?_⟩
  · rw [lines_warnAfterEnd, hcode]
    exact h.tiles
  · rw [lines_warnAfterEnd, hcode]
    exact h.zeros
  · rw [lines_warnAfterEnd]
    exact h.slots
  · rw [lines_warnAfterEnd, hcode]
    exact h.address

/-- The last pass changes neither where lines stand nor how long the code is. -/
lemma Tiled.tiles_resolved (h : Tiled a) :
    Tiles 0 (a.resolved.1.filterMap Record.line?) a.resolved.2.code.size := by
  rw [a.resolved_extent.size, ← Tiles.map_outline, map_outline_resolved, Tiles.map_outline]
  exact h.tiles

/-- Between the lines there are zeros after the last pass, too. -/
lemma Tiled.zeros_resolved (h : Tiled a) {k : Nat} (hk : k < a.resolved.2.code.size)
    (hcovers : ∀ l ∈ a.resolved.1.filterMap Record.line?, ¬l.Covers k) :
    a.resolved.2.code.bytes[k]? = some 0 := by
  have hcovers' : ∀ l ∈ a.lines, ¬l.Covers k := by
    have houtline : ∀ l ∈ a.lines.map Patching.outline, ¬l.Covers k := by
      rw [← map_outline_resolved, List.forall_mem_map]
      exact hcovers
    rw [List.forall_mem_map] at houtline
    exact houtline
  have hbyte : a.resolved.2.code.bytes[k]? = a.code.bytes[k]? := by
    refine Patching.getElem?_resolveRecords ⟨a.code, a.log⟩ ?_
    intro l hl s hs
    exact h.slots l hl s hs k (hcovers' l hl)
  rw [hbyte]
  rw [a.resolved_extent.size] at hk
  exact h.zeros k hk hcovers'

end Assembly

/-- With errors or without, the lines of a unit have their bytes in the code one behind the other.
A byte of the code that no line covers is zero, and it stands behind all lines in front of some ORG
and in front of the start of that ORG. A line with bytes has the address of its first byte, as the
machine counts. -/
theorem lines_tile_code (cpu : Cpu) (moduleName source : String) :
    ∃ code, (assemble cpu moduleName source).1.object.get? .code = some code ∧
      (assemble cpu moduleName source).1.lines.Pairwise
        (fun l l' => l.place.start + l.place.size ≤ l'.place.start) ∧
      (∀ l ∈ (assemble cpu moduleName source).1.lines,
        l.place.start + l.place.size ≤ code.size) ∧
      (∀ k < code.size,
        (∃ l ∈ (assemble cpu moduleName source).1.lines,
          l.place.start ≤ k ∧ k < l.place.start + l.place.size) ∨
        code.bytes[k]? = some 0 ∧
          ∃ earlier l later,
            (assemble cpu moduleName source).1.lines = earlier ++ l :: later ∧
            l.statement.kind = .org ∧
            (∀ l' ∈ earlier, l'.place.start + l'.place.size ≤ k) ∧ k < l.place.start) ∧
      ∀ l ∈ (assemble cpu moduleName source).1.lines, 0 < l.place.size →
        l.place.address.toNat = (code.offset.toNat + l.place.start) % 65536 := by
  obtain ⟨done, rest, -, hfinish, -⟩ := assemble_eq_finish cpu moduleName source
  have htiled := (Assembly.tiled_steps cpu done).warnAfterEnd rest
  rw [hfinish, Assembly.finish_eq]
  generalize (({ cpu } : Assembly).steps done).warnAfterEnd rest = a at htiled
  have htiles := htiled.tiles_resolved
  refine ⟨a.resolved.2.code, rfl, htiles.ordered, htiles.le_last, ?_, ?_⟩
  · intro k hk
    by_cases hcovers : ∃ l ∈ a.resolved.1.filterMap Record.line?, l.Covers k
    · exact Or.inl hcovers
    · refine Or.inr ⟨htiled.zeros_resolved hk ?_,
        (htiles.covers_or_gap (Nat.zero_le k) hk).resolve_left hcovers⟩
      intro l hl hk
      exact hcovers ⟨l, hl, hk⟩
  · intro l hl hpos
    obtain ⟨operands, hmem⟩ := a.exists_line_of_mem_resolved hl
    have haddress : l.place.address = a.code.offset + UInt16.ofNat l.place.start :=
      htiled.address { l with operands } hmem hpos
    rw [haddress, a.resolved_extent.offset, UInt16.toNat_add, UInt16.toNat_ofNat', Nat.add_mod_mod]

/-- A move over two bytes behind an operand that waits, a move back, and a line without its
operand. -/
theorem lines_tile_code_of_errors :
    let source := "ORG 8\nJMP X\nORG 13\nORG 2\nMVI A\nX: DB 'ab',Y"
    (assemble .intel8080 "MAIN" source).2.errors = 3 ∧
      (assemble .intel8080 "MAIN" source).1.lines.map (fun l => (l.place.start, l.place.size)) =
        [(0, 0), (0, 3), (5, 0), (5, 0), (5, 3)] ∧
      ∃ code, (assemble .intel8080 "MAIN" source).1.object.get? .code = some code ∧
        (∀ l ∈ (assemble .intel8080 "MAIN" source).1.lines,
          l.place.start + l.place.size ≤ code.size) ∧
        (∀ k < code.size,
          (∃ l ∈ (assemble .intel8080 "MAIN" source).1.lines,
            l.place.start ≤ k ∧ k < l.place.start + l.place.size) ∨
          code.bytes[k]? = some 0 ∧
            ∃ earlier l later,
              (assemble .intel8080 "MAIN" source).1.lines = earlier ++ l :: later ∧
              l.statement.kind = .org ∧
              (∀ l' ∈ earlier, l'.place.start + l'.place.size ≤ k) ∧ k < l.place.start) ∧
        ∀ l ∈ (assemble .intel8080 "MAIN" source).1.lines, 0 < l.place.size →
          l.place.address.toNat = (code.offset.toNat + l.place.start) % 65536 := by
  intro source
  obtain ⟨code, hcode, -, hinside, hgaps, haddress⟩ := lines_tile_code .intel8080 "MAIN" source
  exact ⟨by decide +kernel, by decide +kernel, code, hcode, hinside, hgaps, haddress⟩

end MicroAsm
