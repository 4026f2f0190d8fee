import MicroAsm.Proofs.Assembly.Padding
import MicroAsm.Proofs.Listing.Breaks

/-!
# Bytes in a listing

The bytes of a line stand in rows of four, each with its address, and no other row has bytes. So
from the first row to the last the bytes of a listing are those of the code, without what ORGs put
there.
-/

namespace MicroAsm

namespace Listing

variable (columns : Columns)

/-- The row has bytes. -/
def Row.hasBytes (r : Row) : Bool :=
  !r.bytes.isEmpty

/-- Rows without bytes have no say in the bytes of rows. -/
lemma flatMap_bytes_filter (rs : List Row) :
    (rs.filter Row.hasBytes).flatMap Row.bytes = rs.flatMap Row.bytes := by
  induction rs with
  | nil => rfl
  | cons r rs ih =>
    rw [List.filter_cons, List.flatMap_cons, ← ih]
    split
    · rfl
    · rename_i hnone
      have hnil : r.bytes = [] := by simpa [Row.hasBytes] using hnone
      rw [hnil, List.nil_append]

/-! ### Rows of four bytes -/

/-- Rows of bytes by their numbers. -/
lemma byteRows_eq (address : UInt16) (bs : List UInt8) :
    byteRows address (rows bs) = (List.range ((bs.length + 3) / 4)).map fun i =>
      { word := some (address + UInt16.ofNat (4 * i)), bytes := (bs.drop (4 * i)).take 4 } := by
  fun_induction rows bs generalizing address with
  | case1 a b c d rest ih =>
    have hlength : ((a :: b :: c :: d :: rest).length + 3) / 4 = (rest.length + 3) / 4 + 1 := by
      simp only [List.length_cons]
      omega
    have haddress : ∀ i, address + UInt16.ofNat bytesPerRow + UInt16.ofNat (4 * i) =
        address + UInt16.ofNat (4 * (i + 1)) := by
      intro i
      rw [UInt16.add_assoc, ← UInt16.ofNat_add, bytesPerRow, Nat.mul_succ, Nat.add_comm]
    rw [hlength, List.range_succ_eq_map, List.map_cons, List.map_map, byteRows, ih]
    refine List.cons_eq_cons.mpr ⟨?_, List.map_congr_left fun i _ => ?_⟩
    · simp
    · rw [haddress]
      rfl
  | case2 => rfl
  | case3 short hfour hnil =>
    rcases short with _ | ⟨a, _ | ⟨b, _ | ⟨c, _ | ⟨d, rest⟩⟩⟩⟩
    · exact (hnil rfl).elim
    · simp [byteRows]
    · simp [byteRows]
    · simp [byteRows]
    · exact (hfour a b c d rest rfl).elim

lemma flatMap_byteRows (address : UInt16) (rs : List (List UInt8)) :
    (byteRows address rs).flatMap Row.bytes = rs.flatten := by
  induction rs generalizing address with
  | nil => rfl
  | cons row rs ih => rw [byteRows, List.flatMap_cons, ih, List.flatten_cons]

lemma flatten_rows (bs : List UInt8) : (rows bs).flatten = bs := by
  fun_induction rows bs with
  | case1 a b c d rest ih => rw [List.flatten_cons, ih]; rfl
  | case2 => rfl
  | case3 short => exact List.append_nil _

/-- The rows of a line have its bytes. -/
lemma flatMap_statementRows (program : Program) (l : Line) :
    (statementRows columns program l).flatMap Row.bytes = lineBytes program.object l.place := by
  have hall := flatten_rows (lineBytes program.object l.place)
  rw [statementRows]
  generalize rows (lineBytes program.object l.place) = all at hall ⊢
  cases shownWord program.symbols l with
  | some word =>
    simp only [List.flatMap_cons, flatMap_byteRows]
    rw [← hall]
    cases all <;> rfl
  | none =>
    simp only [List.flatMap_cons, flatMap_byteRows]
    exact hall

/-- What is found by number, one number after the other, is all there is. -/
lemma flatMap_lineAt? {α : Type} (f : Line → List α) {ls : List Line} {first n : Nat}
    (hlines : (ls.map (·.location.line)).Pairwise (· < ·))
    (hbounds : ∀ l ∈ ls, first ≤ l.location.line ∧ l.location.line < first + n) :
    ((List.range' first n).flatMap fun number =>
      match lineAt? ls number with
      | some l => f l
      | none => []) = ls.flatMap f := by
  induction n generalizing first ls with
  | zero =>
    have hnil : ls = [] := by
      refine List.eq_nil_iff_forall_not_mem.mpr fun l hl => ?_
      have hempty := hbounds l hl
      omega
    rw [hnil]
    rfl
  | succ n ih =>
    rw [List.range'_succ, List.flatMap_cons]
    by_cases hfirst : ∃ l ∈ ls.head?, l.location.line = first
    · obtain ⟨l, hl, rfl⟩ := hfirst
      obtain ⟨ls, rfl⟩ := List.head?_eq_some_iff.mp hl
      have hfound := lineAt?_of_mem hlines List.mem_cons_self
      rw [List.map_cons, List.pairwise_cons, List.forall_mem_map] at hlines
      rw [List.forall_mem_cons] at hbounds
      have hrest := ih hlines.2 fun l' hl' => ⟨hlines.1 l' hl', by have := hbounds.2 l' hl'; omega⟩
      rw [hfound, List.flatMap_cons, ← hrest]
      refine congrArg (f l ++ ·) (List.flatMap_congr fun number hnumber => ?_)
      have hlt := (List.mem_range'_1.mp hnumber).1
      rw [lineAt?_cons, if_neg (by omega), Option.or_none]
    · have hlater : ∀ l ∈ ls, first + 1 ≤ l.location.line := by
        intro l hl
        refine Nat.lt_of_le_of_ne (hbounds l hl).1 fun heq => hfirst ?_
        cases ls with
        | nil => cases hl
        | cons head ls =>
          rcases List.mem_cons.mp hl with rfl | hl
          · exact ⟨l, rfl, heq.symm⟩
          · rw [List.map_cons, List.pairwise_cons, List.forall_mem_map] at hlines
            have hlt := hlines.1 l hl
            have hhead := (hbounds head List.mem_cons_self).1
            omega
      have hnone : lineAt? ls first = none := by
        refine Option.eq_none_iff_forall_not_mem.mpr fun l hl => ?_
        obtain ⟨hmem, hnumber⟩ := location_of_lineAt? hl
        have hlt := hlater l hmem
        omega
      rw [hnone, List.nil_append]
      exact ih hlines fun l hl => ⟨hlater l hl, by have := hbounds l hl; omega⟩

/-! ### The bytes of a line -/

/-- Bytes between two indices, one by one. -/
lemma filterMap_range' {xs : Array UInt8} {start size : Nat} (h : start + size ≤ xs.size) :
    (List.range' start size).filterMap (xs[·]?) = (xs.toList.drop start).take size := by
  induction size generalizing start with
  | zero => simp
  | succ size ih =>
    have hlt : start < xs.size := by omega
    have hdrop : xs.toList.drop start = xs[start] :: xs.toList.drop (start + 1) :=
      List.drop_eq_getElem_cons hlt
    rw [List.range'_succ, List.filterMap_cons_some (Array.getElem?_eq_getElem hlt),
      ih (by omega), hdrop, List.take_succ_cons]

/-- Row by row the bytes of a line: each row has its address and up to four bytes, and the first one
has the label, the statement and the comment behind them. -/
def byteRow (code : Segment) (l : Line) (i : Nat) : Row :=
  let first := l.place.start + 4 * i
  let r : Row :=
    { word := some (l.place.address + UInt16.ofNat (4 * i))
      bytes := (code.bytes.extract first (min (first + 4) (l.place.start + l.place.size))).toList }
  if i = 0 then r.withFields columns l else r

/-- The text of a row of a line: its address, its bytes, and behind these only in the first row
anything else. -/
lemma exists_text_byteRow (code : Segment) (l : Line) (i : Nat) :
    ∃ back, (byteRow columns code l i).text columns =
      String.ofList (List.replicate columns.address ' ') ++
      Text.hex 4 (UInt16.ofNat (l.place.address.toNat + 4 * i)) ++
      String.join ((code.bytes.extract (l.place.start + 4 * i)
        (min (l.place.start + 4 * i + 4) (l.place.start + l.place.size))).toList.map
          fun b => " " ++ Text.hexByte b) ++ back ∧ (0 < i → back = "") := by
  have hword : UInt16.ofNat (l.place.address.toNat + 4 * i) =
      l.place.address + UInt16.ofNat (4 * i) := by
    rw [UInt16.ofNat_add, UInt16.ofNat_toNat]
  rw [hword, byteRow]
  split
  · exact ⟨_, rfl, fun hpos => by omega⟩
  · exact ⟨"", rfl, fun _ => rfl⟩

/-- A listing finds the bytes of the line in the code, and shows its address if it has any. -/
structure Places (program : Program) (code : Segment) (l : Line) : Prop where
  bytes : lineBytes program.object l.place = code.bytesOf l
  inside : l.place.start + l.place.size ≤ code.size
  word : 0 < l.place.size → shownWord program.symbols l = some l.place.address

section

variable {columns} {program : Program} {code : Segment} {l : Line}

lemma Places.bytes_eq (h : Places program code l) : lineBytes program.object l.place =
    (code.bytes.toList.drop l.place.start).take l.place.size :=
  h.bytes.trans (filterMap_range' h.inside)

/-- The rows of a line with bytes. -/
lemma Places.statementRows_eq (h : Places program code l) (hpos : 0 < l.place.size) :
    statementRows columns program l =
      (List.range ((l.place.size + 3) / 4)).map (byteRow columns code l) := by
  have hbytes := h.bytes_eq
  have hlength : (lineBytes program.object l.place).length = l.place.size := by
    have hinside : l.place.start + l.place.size ≤ code.bytes.size := h.inside
    rw [hbytes, List.length_take, List.length_drop, Array.length_toList]
    omega
  -- All rows are rows of bytes, and the first one has the fields of the line, too.
  have hrows : statementRows columns program l =
      (byteRows l.place.address (rows (lineBytes program.object l.place))).modifyHead
        (Row.withFields columns l) := by
    have hne : rows (lineBytes program.object l.place) ≠ [] := by
      intro hnil
      have hflat := flatten_rows (lineBytes program.object l.place)
      rw [hnil, List.flatten_nil] at hflat
      rw [← hflat] at hlength
      exact absurd hlength (Nat.ne_of_lt hpos)
    obtain ⟨row, rest, hcons⟩ := List.exists_cons_of_ne_nil hne
    rw [statementRows, h.word hpos, hcons]
    rfl
  have hmany : ∀ (f : Nat → Row) (g : Row → Row) (n : Nat),
      ((List.range n).map f).modifyHead g =
        (List.range n).map fun i => if i = 0 then g (f i) else f i := by
    intro f g n
    cases n with
    | zero => rfl
    | succ n => simp [List.range_succ_eq_map, Function.comp_def]
  rw [hrows, byteRows_eq, hmany, hlength]
  refine List.map_congr_left fun i _ => ?_
  have hrow : ((lineBytes program.object l.place).drop (4 * i)).take 4 =
      (code.bytes.extract (l.place.start + 4 * i)
        (min (l.place.start + 4 * i + 4) (l.place.start + l.place.size))).toList := by
    rw [hbytes, Array.toList_extract, List.extract_eq_take_drop, List.drop_take, List.take_take,
      List.drop_drop]
    congr 1
    omega
  rw [hrow]
  rfl

/-- A line without bytes has one row, and no byte there. -/
lemma Places.statementRows_empty (h : Places program code l) (hzero : l.place.size = 0) :
    ∃ r : Row, statementRows columns program l = [r] ∧ r.bytes = [] := by
  have hbytes := h.bytes_eq
  rw [hzero, List.take_zero] at hbytes
  rw [statementRows, hbytes]
  cases shownWord program.symbols l with
  | some word => exact ⟨_, rfl, rfl⟩
  | none => exact ⟨_, rfl, rfl⟩

lemma bytes_byteRow (i : Nat) : (byteRow columns code l i).bytes =
    (code.bytes.extract (l.place.start + 4 * i)
      (min (l.place.start + 4 * i + 4) (l.place.start + l.place.size))).toList := by
  rw [byteRow]
  split <;> rfl

/-- The rows of a line that have bytes. -/
lemma Places.filter_statementRows (h : Places program code l) :
    (statementRows columns program l).filter Row.hasBytes =
      (List.range ((l.place.size + 3) / 4)).map (byteRow columns code l) := by
  by_cases hpos : 0 < l.place.size
  · rw [h.statementRows_eq hpos, List.filter_eq_self, List.forall_mem_map]
    intro i hi
    have hlt := List.mem_range.mp hi
    have hinside : l.place.start + l.place.size ≤ code.bytes.size := h.inside
    have hlength : 0 < (byteRow columns code l i).bytes.length := by
      rw [bytes_byteRow, Array.length_toList, Array.size_extract]
      omega
    simpa [Row.hasBytes] using List.ne_nil_of_length_pos hlength
  · have hzero : l.place.size = 0 := Nat.eq_zero_of_not_pos hpos
    have hrow : ∃ r : Row, statementRows columns program l = [r] ∧ r.bytes = [] :=
      h.statementRows_empty hzero
    obtain ⟨r, hrows, hnil⟩ := hrow
    rw [hrows, hzero]
    simp [Row.hasBytes, hnil]

end

/-! ### The bytes of all lines -/

variable {program : Program} {log : Log} {source : String}

/-- Only accepted lines have bytes. -/
lemma filter_physicalRows (number : Nat) (line : List Char) :
    (physicalRows columns program log number line).filter Row.hasBytes =
      match lineAt? program.lines number with
      | some l => (statementRows columns program l).filter Row.hasBytes
      | none => [] := by
  have hmessages : ((log.onLine number).map fun m => ({ rest := messageRow m } : Row)).filter
      Row.hasBytes = [] := by
    rw [List.filter_eq_nil_iff, List.forall_mem_map]
    exact fun _ _ => Bool.false_ne_true
  rw [physicalRows, List.filter_append, hmessages, List.append_nil]
  cases lineAt? program.lines number <;> rfl

lemma filter_symbolTableRows (symbols : SymbolTable) :
    (symbolTableRows columns symbols).filter Row.hasBytes = [] := by
  rw [List.filter_eq_nil_iff, symbolTableRows]
  split
  · exact List.forall_mem_nil _
  · rw [List.forall_mem_cons, List.forall_mem_cons, List.forall_mem_map]
    exact ⟨Bool.false_ne_true, Bool.false_ne_true, fun _ _ => Bool.false_ne_true⟩

/-- The rows with bytes are those of the accepted lines, one line after the other. -/
lemma filter_allRows (hlines : (program.lines.map (·.location.line)).Pairwise (· < ·))
    (hbounds : ∀ l ∈ program.lines,
      1 ≤ l.location.line ∧ l.location.line < 1 + (sourceLines source).length) :
    (allRows columns source program log).filter Row.hasBytes =
      program.lines.flatMap fun l => (statementRows columns program l).filter Row.hasBytes := by
  rw [allRows, List.filter_append, filter_symbolTableRows, List.append_nil, List.filter_flatMap,
    ← flatMap_lineAt? _ hlines hbounds, ← List.zipIdx_map_snd, List.flatMap_map]
  exact List.flatMap_congr fun numbered _ => filter_physicalRows columns numbered.2 numbered.1

/-- Behind the rows of the physical lines in front of it a listing has those of an accepted line. -/
lemma exists_allRows_eq (hlines : (program.lines.map (·.location.line)).Pairwise (· < ·))
    {l : Line} (hl : l ∈ program.lines) {k : Nat} (hnumber : l.location.line = k + 1)
    (hk : k < (sourceLines source).length) :
    ∃ back, allRows columns source program log =
      (((sourceLines source).take k).zipIdx 1).flatMap
        (fun (line, number) => physicalRows columns program log number line) ++
      statementRows columns program l ++ back := by
  have hrows : physicalRows columns program log (k + 1) (sourceLines source)[k] =
      statementRows columns program l ++
        (log.onLine (k + 1)).map fun m => { rest := messageRow m } := by
    rw [physicalRows, ← hnumber, lineAt?_of_mem hlines hl]
  rw [allRows, zipIdx_sourceLines hk, List.flatMap_append, List.flatMap_cons]
  simp only [hrows, List.append_assoc]
  exact ⟨_, rfl⟩

end Listing

/-- What is kept of a line with bytes is shown with its address. -/
lemma Assembly.shownWord_lineOf {a : Assembly} {location : Location} {label comment : Option Token}
    {statement : Statement} (hbelongs : statement.BelongsTo a.cpu)
    (hpos : 0 < (a.lineOf location label statement comment).place.size) (symbols : SymbolTable) :
    Listing.shownWord symbols ((a.lineOf location label statement comment).resolved symbols) =
      some (a.lineOf location label statement comment).place.address := by
  rw [(a.place_lineOf hbelongs location label comment).1] at hpos
  cases statement with
  | data width location' items => cases width <;> rfl
  | instruction i location' arguments => rfl
  | _ => exact absurd hpos (Nat.lt_irrefl 0)

section

variable {cpu : Cpu} {moduleName source : String}

/-- The lines of a program are where its code has their bytes. -/
lemma places_of_mem_lines {code : Segment} {l : Line}
    (hcode : (assemble cpu moduleName source).1.object.get? .code = some code)
    (hinside : l.place.start + l.place.size ≤ code.size)
    (h : l ∈ (assemble cpu moduleName source).1.lines) :
    Listing.Places (assemble cpu moduleName source).1 code l := by
  obtain ⟨before, line, after, hsplit, -, -, first, label, statement, comment, kept, hkeeps, hl⟩ :=
    exists_keeps_of_mem_lines h
  have hsegment : l.place.segment = .code := by
    rw [hl, hkeeps.hline]
    simp only [Line.resolved, Assembly.lineOf, Assembly.placement]
    split <;> rfl
  refine ⟨?_, hinside, fun hpos => ?_⟩
  · have hinside' : l.place.start + l.place.size ≤ code.bytes.size := hinside
    rw [Listing.lineBytes, hsegment, hcode]
    simp only [if_pos hinside]
    rw [Segment.bytesOf, Line.indices, Listing.filterMap_range' hinside', Array.toList_extract,
      List.extract_eq_take_drop, Nat.add_sub_cancel_left]
  · rw [hl, hkeeps.hline] at hpos ⊢
    exact Assembly.shownWord_lineOf (SourceLine.belongsTo_of_read hkeeps.hread) hpos _

end

/-- The rows of a listing are its lines, and a row has no line break in it. The rows of an accepted
line stand right behind those of the physical lines in front of it. If the line has bytes, there is
a row for every four of them: it starts with its address in the address column, the bytes there
follow as they are in the code at the end, and behind these only the first row has more. If the line
has no bytes, it has one row without any. No other rows have bytes, so from the first row to the
last these are the bytes of the code without what ORGs put there. -/
theorem listing_rows_carry_code (cpu : Cpu) (moduleName source : String) (columns : Columns) :
    let program := (assemble cpu moduleName source).1
    let log := (assemble cpu moduleName source).2
    let rows := Listing.allRows columns source program log
    Listing.render columns source program log =
      String.join (rows.map fun r => r.text columns ++ "\n") ∧
    (∀ r ∈ rows, '\n' ∉ (r.text columns).toList) ∧
    ∃ code, program.object.get? .code = some code ∧
      (∀ l ∈ program.lines,
        (∃ back, rows = (((Listing.sourceLines source).take (l.location.line - 1)).zipIdx 1).flatMap
            (fun (text, number) => Listing.physicalRows columns program log number text) ++
          Listing.statementRows columns program l ++ back) ∧
        (0 < l.place.size → l.place.address = code.offset + UInt16.ofNat l.place.start ∧
          Listing.statementRows columns program l =
            (List.range ((l.place.size + 3) / 4)).map (Listing.byteRow columns code l)) ∧
        (∀ i, ∃ back, (Listing.byteRow columns code l i).text columns =
          String.ofList (List.replicate columns.address ' ') ++
          Text.hex 4 (UInt16.ofNat (l.place.address.toNat + 4 * i)) ++
          String.join ((code.bytes.extract (l.place.start + 4 * i)
            (min (l.place.start + 4 * i + 4) (l.place.start + l.place.size))).toList.map
              fun b => " " ++ Text.hexByte b) ++ back ∧ (0 < i → back = "")) ∧
        (l.place.size = 0 →
          ∃ r, Listing.statementRows columns program l = [r] ∧ r.bytes = [])) ∧
      rows.filter Listing.Row.hasBytes = (program.lines.flatMap fun l =>
        (List.range ((l.place.size + 3) / 4)).map (Listing.byteRow columns code l)) ∧
      rows.flatMap Listing.Row.bytes =
        code.without (({ cpu } : Assembly).padding (unitLines cpu (SourceLine.ofText source))) := by
  intro program log rows
  have hplaced : ∀ m ∈ log.messages.toList, m.isGlobal = false := by
    intro m hm
    have hwithin : log.Within (SourceLine.Has source) := within_assemble cpu moduleName source
    exact Location.isNone_of_pos (Listing.bounds_of_has (hwithin m hm).1).1
  have hlines : (program.lines.map (·.location.line)).Pairwise (· < ·) := pairwise_line_assemble
  have hbounds : ∀ l ∈ program.lines,
      1 ≤ l.location.line ∧ l.location.line < 1 + (Listing.sourceLines source).length := by
    intro l hl
    obtain ⟨before, -, -, -, hnumber, hlt, -⟩ := exists_keeps_of_mem_lines hl
    omega
  obtain ⟨code, hcode, hinside, haddress, hwithout⟩ := without_padding cpu moduleName source
  have hplaces : ∀ l ∈ program.lines, Listing.Places program code l :=
    fun l hl => places_of_mem_lines hcode (hinside l hl) hl
  have hfilter : rows.filter Listing.Row.hasBytes = program.lines.flatMap fun l =>
      (Listing.statementRows columns program l).filter Listing.Row.hasBytes :=
    Listing.filter_allRows columns hlines hbounds
  refine ⟨Listing.render_eq_joinRows columns source hplaced, oneRow_allRows columns, code, hcode,
    ?_, ?_, ?_⟩
  · intro l hl
    obtain ⟨hfirst, hlast⟩ := hbounds l hl
    refine ⟨Listing.exists_allRows_eq columns hlines hl (by omega) (by omega), fun hpos => ?_,
      fun i => ?_, (hplaces l hl).statementRows_empty⟩
    · exact ⟨haddress l hl hpos, (hplaces l hl).statementRows_eq hpos⟩
    · exact Listing.exists_text_byteRow columns code l i
  · rw [hfilter]
    exact List.flatMap_congr fun l hl => (hplaces l hl).filter_statementRows
  · rw [← Listing.flatMap_bytes_filter, hfilter, List.flatMap_assoc, hwithout]
    refine List.flatMap_congr fun l hl => ?_
    rw [Listing.flatMap_bytes_filter, Listing.flatMap_statementRows, (hplaces l hl).bytes]

/-- Five bytes are shown in two rows, and the three zeros that an ORG puts behind them are not. -/
theorem listing_rows_carry_code_of_padding :
    let source := "ORG 8\nX: DB 1,2,3,4,5 ; five\nORG 16\nNOP\n"
    let program := (assemble .intel8080 "MAIN" source).1
    let log := (assemble .intel8080 "MAIN" source).2
    ∃ code l, program.object.get? .code = some code ∧
      code.bytes = #[1, 2, 3, 4, 5, 0, 0, 0, 0] ∧ program.lines[1]? = some l ∧ 0 < l.place.size ∧
      Listing.statementRows {} program l =
        [Listing.byteRow {} code l 0, Listing.byteRow {} code l 1] ∧
      (Listing.byteRow {} code l 1).text {} = "000C 05" ∧
      (Listing.allRows {} source program log).flatMap Listing.Row.bytes = [1, 2, 3, 4, 5, 0] := by
  intro source program log
  obtain ⟨-, -, code, hcode, hlines, -, hbytes⟩ :=
    listing_rows_carry_code .intel8080 "MAIN" source {}
  have hsegment : (program.object.get? .code).map (fun code => (code.bytes, code.without
      (({} : Assembly).padding (unitLines .intel8080 (SourceLine.ofText source))))) =
        some (#[1, 2, 3, 4, 5, 0, 0, 0, 0], [1, 2, 3, 4, 5, 0]) := by
    decide +kernel
  rw [hcode, Option.map_some, Option.some.injEq, Prod.mk.injEq] at hsegment
  have hfound : program.lines[1]?.map (fun l => (l.place.size,
      (Listing.statementRows {} program l)[1]?.map (Listing.Row.text {}))) =
        some (5, some "000C 05") := by
    decide +kernel
  obtain ⟨l, hl, hfields⟩ := Option.map_eq_some_iff.mp hfound
  obtain ⟨hsize, htext⟩ := Prod.mk.inj hfields
  obtain ⟨-, hrows, -, -⟩ := hlines l (List.mem_of_getElem? hl)
  have hpos : 0 < l.place.size := by omega
  obtain ⟨-, hrows⟩ := hrows hpos
  rw [hsize] at hrows
  rw [hrows] at htext
  exact ⟨code, l, hcode, hsegment.1, hl, hpos, hrows, Option.some.inj htext,
    hbytes.trans hsegment.2⟩

end MicroAsm
