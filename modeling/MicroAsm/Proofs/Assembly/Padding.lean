import MicroAsm.Proofs.Assembly.Agreement

/-!
# Padding

Beyond the bytes of its lines the code has nothing but what the ORGs put there when they move the
location counter. Without this padding it is the bytes of the lines, one line behind the other.
-/

namespace MicroAsm

/-- The bytes of a segment without those at the given indices. -/
def Segment.without (s : Segment) (indices : List Nat) : List UInt8 :=
  ((List.range s.size).filter (· ∉ indices)).filterMap (s.bytes[·]?)

/-- The indices of the bytes of a line. -/
def Line.indices (l : Line) : List Nat :=
  List.range' l.place.start l.place.size

namespace Assembly

/-- The indices that a line fills if it is an ORG. -/
def paddingOf (a : Assembly) (line : SourceLine) : List Nat :=
  match line.read a.cpu with
  | .accepted _ (.org _ _) _ => List.range' a.code.size ((a.step line).code.size - a.code.size)
  | _ => []

/-- The indices that the ORGs among lines fill. -/
def padding (a : Assembly) : List SourceLine → List Nat
  | [] => []
  | line :: lines => a.paddingOf line ++ (a.step line).padding lines

lemma padding_concat (a : Assembly) (lines : List SourceLine) (line : SourceLine) :
    a.padding (lines ++ [line]) = a.padding lines ++ (a.steps lines).paddingOf line := by
  induction lines generalizing a with
  | nil => simp [padding]
  | cons first lines ih => rw [List.cons_append, padding, padding, ih, List.append_assoc]; rfl

/-- The indices are in the code, and all others are those of its lines. -/
structure Padded (indices : List Nat) (a : Assembly) : Prop where
  inside : ∀ k ∈ indices, k < a.code.size
  own : (List.range a.code.size).filter (· ∉ indices) = a.lines.flatMap Line.indices

variable {a b : Assembly} {indices : List Nat}

/-- More padding behind the code. -/
lemma Padded.pad (h : Padded indices a) {n : Nat} (hsize : b.code.size = a.code.size + n)
    (hlines : b.lines.flatMap Line.indices = a.lines.flatMap Line.indices) :
    Padded (indices ++ List.range' a.code.size n) b := by
  have hnew : ∀ k ∈ List.range' a.code.size n, a.code.size ≤ k ∧ k < b.code.size := by
    intro k hk
    have hbounds := List.mem_range'_1.mp hk
    omega
  refine ⟨?_, ?_⟩
  · rw [List.forall_mem_append]
    refine ⟨fun k hk => ?_, fun k hk => (hnew k hk).2⟩
    have hlt := h.inside k hk
    omega
  · have hold : (List.range a.code.size).filter (· ∉ indices ++ List.range' a.code.size n) =
        (List.range a.code.size).filter (· ∉ indices) := by
      refine List.filter_congr fun k hk => ?_
      have hlt := List.mem_range.mp hk
      have hnot : k ∉ List.range' a.code.size n := fun hmem => by
        have hle := (hnew k hmem).1
        omega
      simp only [List.mem_append, hnot, or_false]
    have hpadding : (List.range' a.code.size n).filter
        (· ∉ indices ++ List.range' a.code.size n) = [] := by
      rw [List.filter_eq_nil_iff]
      intro k hk
      simp [hk]
    rw [hsize, List.range_add, ← List.range'_eq_map_range, List.filter_append, hold, hpadding, h.own, hlines,
      List.append_nil]

/-- More bytes of a line behind the code. -/
lemma Padded.put (h : Padded indices a) {n : Nat} (hsize : b.code.size = a.code.size + n)
    (hlines : b.lines.flatMap Line.indices =
      a.lines.flatMap Line.indices ++ List.range' a.code.size n) :
    Padded indices b := by
  refine ⟨fun k hk => ?_, ?_⟩
  · have hlt := h.inside k hk
    omega
  · have hown : (List.range' a.code.size n).filter (· ∉ indices) =
        List.range' a.code.size n := by
      rw [List.filter_eq_self]
      intro k hk
      have hle := (List.mem_range'_1.mp hk).1
      have hnot : k ∉ indices := fun hmem => absurd (h.inside k hmem) (Nat.not_lt_of_le hle)
      exact decide_eq_true hnot
    rw [hsize, List.range_add, ← List.range'_eq_map_range, List.filter_append, hown, h.own, hlines]

variable {label comment : Option Token} {statement : Statement}

/-- An ORG adds padding only, and every other line adds its own bytes only. -/
lemma Padded.accept (h : Padded indices a) (hbelongs : statement.BelongsTo a.cpu)
    {line : SourceLine} {first : Token}
    (hread : line.read a.cpu = .accepted label statement comment)
    (hstep : a.step line = a.accept first.location label statement comment) :
    Padded (indices ++ a.paddingOf line) (a.step line) := by
  obtain ⟨hroom, hstart⟩ := a.place_lineOf hbelongs first.location label comment
  have hsize := @size_accept a label comment statement hbelongs first.location
  have hlines := congrArg (List.flatMap Line.indices)
    (a.lines_accept first.location label statement comment)
  rw [List.flatMap_append, List.flatMap_singleton, Line.indices, hroom, hstart] at hlines
  rw [← hstep] at hsize hlines
  by_cases horg : ∃ location origin, statement = .org location origin
  · obtain ⟨location, origin, rfl⟩ := horg
    have hpadding : a.paddingOf line =
        List.range' a.code.size ((a.step line).code.size - a.code.size) := by
      rw [paddingOf, hread]
    rw [hpadding]
    refine h.pad (by omega) ?_
    rw [hlines]
    exact List.append_nil _
  · have hgap : a.layout.gapOf statement = 0 :=
      a.layout.gapOf_of_ne fun location origin heq => horg ⟨location, origin, heq⟩
    have hpadding : a.paddingOf line = [] := by
      rw [paddingOf, hread]
      cases statement with
      | org location origin => exact absurd ⟨location, origin, rfl⟩ horg
      | _ => rfl
    rw [hpadding, List.append_nil]
    rw [hgap] at hsize hlines
    exact h.put hsize hlines

lemma Padded.step (h : Padded indices a) (line : SourceLine) :
    Padded (indices ++ a.paddingOf line) (a.step line) := by
  rcases a.step_eq_cases line with
    ⟨hbody, heq⟩ | ⟨first, label, statement, comment, -, hread, heq⟩ |
      ⟨first, label, fragment, failure, -, hread, heq⟩
  · have hpadding : a.paddingOf line = [] := by
      rw [paddingOf, read_of_body_eq_nil _ hbody]
    rw [hpadding, List.append_nil, heq]
    exact h
  · exact h.accept (SourceLine.belongsTo_of_read hread) hread heq
  · have hpadding : a.paddingOf line = [] := by
      rw [paddingOf, hread]
    have hlines : (a.reject label fragment failure).lines = a.lines := by
      simp [lines, Record.line?]
    have hcode := (reject_frame a label fragment failure).2.1
    rw [hpadding, List.append_nil, heq]
    exact ⟨by rw [hcode]; exact h.inside, by rw [hcode, hlines]; exact h.own⟩

/-- After any lines of a text the code is their bytes and the padding of the ORGs among them. -/
lemma padded_steps (cpu : Cpu) (lines : List SourceLine) :
    Padded (({ cpu } : Assembly).padding lines) (({ cpu } : Assembly).steps lines) := by
  induction lines using List.reverseRecOn with
  | nil => exact ⟨List.forall_mem_nil _, rfl⟩
  | append_singleton lines line ih =>
    rw [padding_concat, steps_concat]
    exact ih.step line

end Assembly

/-! ### The last pass -/

/-- The bytes of a line in the code. -/
def Segment.bytesOf (s : Segment) (l : Line) : List UInt8 :=
  l.indices.filterMap (s.bytes[·]?)

/-- The code without the padding of the ORGs is the bytes of the lines, one line behind the
other. -/
lemma without_padding (cpu : Cpu) (moduleName source : String) :
    ∃ code, (assemble cpu moduleName source).1.object.get? .code = some code ∧
      (∀ l ∈ (assemble cpu moduleName source).1.lines, l.place.start + l.place.size ≤ code.size) ∧
      (∀ l ∈ (assemble cpu moduleName source).1.lines, 0 < l.place.size →
        l.place.address = code.offset + UInt16.ofNat l.place.start) ∧
      code.without (({ cpu } : Assembly).padding (unitLines cpu (SourceLine.ofText source))) =
        (assemble cpu moduleName source).1.lines.flatMap code.bytesOf := by
  obtain ⟨rest, hfinish, -⟩ := assemble_eq_unitLines cpu moduleName source
  have hpadded := Assembly.padded_steps cpu (unitLines cpu (SourceLine.ofText source))
  have htiled := (Assembly.tiled_steps cpu (unitLines cpu (SourceLine.ofText source))).warnAfterEnd
    rest
  have hcode := (Assembly.warnAfterEnd_frame (({ cpu } : Assembly).steps
    (unitLines cpu (SourceLine.ofText source))) rest).2.2.1
  have hlines := Assembly.lines_warnAfterEnd (({ cpu } : Assembly).steps
    (unitLines cpu (SourceLine.ofText source))) rest
  rw [hfinish, Assembly.finish_eq]
  generalize ({ cpu } : Assembly).padding _ = indices at hpadded ⊢
  generalize (({ cpu } : Assembly).steps _).warnAfterEnd rest = a at htiled hcode hlines
  have hown := hpadded.own
  rw [← hcode, ← hlines] at hown
  refine ⟨a.resolved.2.code, rfl, htiled.tiles_resolved.le_last, ?_, ?_⟩
  · intro l hl hpos
    rw [Program.lines, Assembly.lines_resolved, List.mem_map] at hl
    obtain ⟨kept, hkept, rfl⟩ := hl
    rw [a.resolved_extent.offset]
    exact htiled.address kept hkept hpos
  · have hplaces : ∀ code : Segment, (a.lines.map (Line.resolved a.symbols)).flatMap code.bytesOf =
        a.lines.flatMap code.bytesOf := fun code => List.flatMap_map _ _ _
    rw [Segment.without, a.resolved_extent.size, hown, List.filterMap_flatMap]
    exact ((congrArg (List.flatMap _) a.lines_resolved).trans (hplaces _)).symm

end MicroAsm
