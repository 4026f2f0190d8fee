import MicroAsm.Assembler
import MicroAsm.Proofs.Assembly.Quiet
import MicroAsm.Proofs.Object.RoundTrip

/-!
# The size of the code

Without errors the code ends at the last address of the machine at the latest, so it has at most
65536 bytes. An object file counts the bytes of a segment in a word and so can hold one byte less:
of the units without errors exactly those cannot be written that fill the whole machine.
-/

namespace MicroAsm

/-- The bytes of a segment lie inside the machine. -/
def Segment.Inside (s : Segment) : Prop :=
  s.endAddress ≤ 0x10000

namespace Assembly

/-- The code has its own name and lies inside the machine. -/
def CodeInside (a : Assembly) : Prop :=
  a.code.name = SegmentId.code.defaultName ∧ a.code.Inside

variable {a : Assembly}

lemma execute_codeInside {here : UInt16} {label : Option Token} {statement : Statement}
    (h : a.CodeInside) (hclean : (a.execute here label statement).1.log.errors = a.log.errors) :
    (a.execute here label statement).1.CodeInside := by
  obtain ⟨hname, hinside⟩ := h
  rcases a.execute_code_cases here label statement hclean with
    hcode | ⟨hsize, target, hcode⟩ | ⟨bs, hend, hcode⟩
  · rw [CodeInside, hcode]
    exact ⟨hname, hinside⟩
  · -- An empty segment ends where it starts, and every address is inside.
    rw [CodeInside, hcode]
    refine ⟨hname, ?_⟩
    have htarget := target.toNat_lt
    have hempty : a.code.bytes.size = 0 := hsize
    simp only [Segment.Inside, Segment.endAddress, hempty]
    omega
  · rw [CodeInside, hcode, Segment.Inside, Segment.endAddress_append]
    exact ⟨hname, hend⟩

lemma step_codeInside {line : SourceLine} (h : a.CodeInside)
    (hclean : (a.step line).log.errors = a.log.errors) : (a.step line).CodeInside := by
  rcases a.step_cases hclean with ⟨-, hstep⟩ | ⟨first, label, statement, comment, -, -, hstep⟩
  · rw [hstep]
    exact h
  · rw [hstep] at hclean ⊢
    exact execute_codeInside h hclean

lemma steps_codeInside {lines : List SourceLine} (h : a.CodeInside)
    (hclean : (a.steps lines).log.errors = a.log.errors) : (a.steps lines).CodeInside :=
  a.steps_induction (P := fun _ b => b.CodeInside) h
    (fun _ _ _ hb hstep => step_codeInside hb hstep) hclean

end Assembly

/-- Assembling without errors gives one segment, the code, and it lies inside the machine. -/
lemma object_of_errors_eq_zero {cpu : Cpu} {moduleName source : String}
    (h : (assemble cpu moduleName source).2.errors = 0) :
    ∃ code : Segment, code.name = SegmentId.code.defaultName ∧ code.Inside ∧
      (assemble cpu moduleName source).1.object =
        (ObjectCode.ofModule moduleName).put .code code := by
  obtain ⟨done, rest, -, hfinish, hclean⟩ := assemble_eq_finish cpu moduleName source
  have hinside : (({ cpu } : Assembly).steps done).CodeInside :=
    Assembly.steps_codeInside ⟨rfl, by simp [Segment.Inside, Segment.endAddress]⟩ (hclean h)
  rw [hfinish, Assembly.finish_eq]
  have hextent := ((({ cpu } : Assembly).steps done).warnAfterEnd rest).resolved_extent
  simp only [Assembly.warnAfterEnd_frame] at hextent
  refine ⟨_, hextent.name.trans hinside.1, ?_, rfl⟩
  rw [Segment.Inside, Segment.endAddress_eq, hextent.offset, hextent.size, ← Segment.endAddress_eq]
  exact hinside.2

/-- The messages of a unit that can be used hold no error. -/
lemma errors_eq_zero_of_succeeded {c : Config} {moduleName : Option String} {source : String}
    (h : (c.assemble moduleName source).succeeded = true) :
    (assemble c.cpu ((moduleName.or c.moduleName).getD Program.defaultModule) source).2.errors =
      0 := by
  simp only [Assembled.succeeded, Assembled.failures, Log.failures, beq_iff_eq] at h
  simp only [Config.assemble] at h
  split at h
  · simp only [Log.promoteWarnings] at h
    omega
  · omega

lemma ObjectFile.writeLength_of_lt {n : Nat} (h : 65535 < n) (what : String) :
    ObjectFile.writeLength n what = .error (.tooLarge what) := by
  rw [ObjectFile.writeLength, if_neg (by omega)]

/-- The code is too large to be written although a word can count the bytes of the names. -/
lemma ObjectFile.write_put_code_of_lt {moduleName : String} {code : Segment}
    (hmodule : (Text.utf8 moduleName).length ≤ 65535) (hname : (Text.utf8 code.name).length ≤ 65535)
    (hsize : 65535 < code.size) :
    ObjectFile.write ((ObjectCode.ofModule moduleName).put .code code) =
      .error (.tooLarge ("segment " ++ code.name)) := by
  have hsegments : ((ObjectCode.ofModule moduleName).put .code code).segments =
      [(.code, code)] := rfl
  have hcount : ObjectFile.writeLength 1 "segment count" = .ok (ObjectFile.lengthImage 1) := rfl
  have hmoduleText : ObjectFile.writeText moduleName "module name" =
      .ok (ObjectFile.textImage moduleName) :=
    ObjectFile.writeText_eq_ok_iff.mpr ⟨hmodule, rfl⟩
  have hnameText : ObjectFile.writeText code.name "segment name" =
      .ok (ObjectFile.textImage code.name) :=
    ObjectFile.writeText_eq_ok_iff.mpr ⟨hname, rfl⟩
  rw [ObjectFile.write, hsegments]
  simp only [List.length_singleton, hcount, ObjectFile.writeSegments, ObjectFile.writeSegment,
    hnameText, ObjectFile.writeLength_of_lt hsize, bind, Except.bind]
  rw [show ((ObjectCode.ofModule moduleName).put .code code).moduleName = moduleName from rfl,
    hmoduleText]

/-- A unit that succeeded can be written to an object file unless its code fills the machine from
the first address to the last: only then it has one byte more than a word can count. -/
theorem write_ok_iff_of_succeeded (c : Config) (moduleName : Option String) (source : String)
    (hmodule :
      (Text.utf8 ((moduleName.or c.moduleName).getD Program.defaultModule)).length ≤ 65535)
    (hok : (c.assemble moduleName source).succeeded = true) :
    ∃ code, (c.assemble moduleName source).program.object.get? .code = some code ∧
      code.offset.toNat + code.size ≤ 65536 ∧
      ((∃ bs, ObjectFile.write (c.assemble moduleName source).program.object = .ok bs) ↔
        code.size ≠ 65536) ∧
      (code.size = 65536 →
        ObjectFile.write (c.assemble moduleName source).program.object =
          .error (.tooLarge "segment CODE")) := by
  obtain ⟨code, hname, hinside, hobject⟩ :=
    object_of_errors_eq_zero (errors_eq_zero_of_succeeded hok)
  have hobject' : (c.assemble moduleName source).program.object =
      (ObjectCode.ofModule ((moduleName.or c.moduleName).getD Program.defaultModule)).put
        .code code := hobject
  have hend : code.offset.toNat + code.size ≤ 65536 := hinside
  have hnameLength : (Text.utf8 code.name).length ≤ 65535 := by
    rw [hname]
    decide +kernel
  have hlarge := ObjectFile.write_put_code_of_lt hmodule hnameLength
  rw [hname] at hlarge
  rw [hobject']
  refine ⟨code, rfl, hend, ?_, ?_⟩
  · constructor
    · rintro ⟨bs, hbs⟩ hsize
      rw [hlarge (by omega)] at hbs
      cases hbs
    · intro hne
      refine ⟨_, ObjectFile.write_eq_ok_iff.mpr ⟨⟨hmodule, ?_⟩, rfl⟩⟩
      intro entry hentry
      rw [List.mem_singleton.mp hentry]
      exact ⟨hnameLength, show code.size ≤ 65535 by omega⟩
  · intro hsize
    exact hlarge (by omega)

/-- The first line of a unit that fills the machine. -/
def firstByte : SourceLine :=
  ⟨[⟨.identifier, "NOP", ⟨1, 1, 0⟩⟩], ⟨.endOfLine, "\n", ⟨1, 4, 3⟩⟩⟩

/-- The line that moves over all bytes but the last. -/
def zerosBetween : SourceLine :=
  ⟨[⟨.org, "ORG", ⟨2, 1, 4⟩⟩, ⟨.number, "65535", ⟨2, 5, 8⟩⟩], ⟨.endOfLine, "\n", ⟨2, 10, 13⟩⟩⟩

/-- The last line of a unit that fills the machine. -/
def lastByte : SourceLine :=
  ⟨[⟨.identifier, "NOP", ⟨3, 1, 14⟩⟩], ⟨.endOfFile, "", ⟨3, 4, 17⟩⟩⟩

/-- An instruction of one byte without operands. -/
def nop : Instruction := ⟨"NOP", 0x00, .implied⟩

lemma step_nop {a : Assembly} {line : SourceLine} {first : Token} {location : Location}
    (hbody : line.body = [first])
    (hread : line.read a.cpu = .accepted none (.instruction nop location []) none)
    (hend : a.code.endAddress + 1 ≤ 0x10000) :
    Assembly.Quiet a (a.step line) ∧ (a.step line).code = a.code.append [0x00] :=
  Assembly.step_put (e := nop.emission location []) hbody hread rfl rfl rfl
    (by intro o ho; cases ho) hend

/-- Two instructions and a move between them fill the machine without an error. -/
lemma run_fullMachine :
    (({} : Assembly).run [firstByte, zerosBetween, lastByte]).log = {} ∧
      (({} : Assembly).run [firstByte, zerosBetween, lastByte]).code.size = 65536 ∧
      ∀ r ∈ (({} : Assembly).run [firstByte, zerosBetween, lastByte]).records.toList,
        r.Settled := by
  let origin : Value := ⟨⟨[⟨false, .number 65535⟩]⟩, "65535", ⟨2, 5, 8⟩⟩
  have hread₁ : firstByte.read .intel8080 =
      .accepted none (.instruction nop ⟨1, 1, 0⟩ []) none := by decide +kernel
  have hread₂ : zerosBetween.read .intel8080 =
      .accepted none (.org ⟨2, 1, 4⟩ origin) none := by decide +kernel
  have hread₃ : lastByte.read .intel8080 =
      .accepted none (.instruction nop ⟨3, 1, 14⟩ []) none := by decide +kernel
  obtain ⟨hquiet₁, hcode₁⟩ := step_nop (a := {}) rfl hread₁ (by decide)
  rw [Assembly.run_cons _ _ rfl]
  generalize ({} : Assembly).step firstByte = a at hquiet₁ hcode₁ ⊢
  have hhere : a.code.locationCounter = 1 := by
    rw [hcode₁]
    decide
  have hvalue : origin.evaluate a.symbols a.code.locationCounter = (some 65535, []) := by
    rw [hquiet₁.symbols, hhere]
    decide +kernel
  have hmove : a.moveTo 65535 origin.location =
      { a with code := a.code.append (List.replicate 65534 0) } := by
    rw [Assembly.moveTo_of_le origin.location (by rw [hcode₁]; decide) (by rw [hhere]; decide)
      (by rw [hhere, hcode₁]; decide), hhere]
    rfl
  rw [show Cpu.intel8080 = a.cpu from hquiet₁.cpu.symm] at hread₂
  obtain ⟨hquiet₂, hcode₂⟩ := Assembly.step_org rfl hread₂ hvalue hmove
  rw [Assembly.run_cons _ _ hquiet₁.ended]
  generalize a.step zerosBetween = b at hquiet₂ hcode₂ ⊢
  have hquiet := hquiet₁.trans hquiet₂
  have hend : b.code.endAddress = 65535 := by
    rw [hcode₂, Segment.endAddress_append, List.length_replicate, hcode₁]
    decide
  have hsize : b.code.size = 65535 := by
    rw [hcode₂, Segment.size_append, List.length_replicate, hcode₁]
    decide
  rw [show Cpu.intel8080 = b.cpu from hquiet.cpu.symm] at hread₃
  obtain ⟨hquiet₃, hcode₃⟩ := step_nop rfl hread₃ (by omega)
  rw [Assembly.run_cons _ _ hquiet.ended]
  refine ⟨(hquiet.trans hquiet₃).log, ?_, (hquiet.trans hquiet₃).settled (by simp)⟩
  rw [Assembly.run, hcode₃, Segment.size_append, hsize]
  rfl

/-- A text with these lines succeeds, and its code has 65536 bytes. -/
lemma assemble_fullMachine {source : String}
    (hlines : SourceLine.ofText source = [firstByte, zerosBetween, lastByte]) :
    (({} : Config).assemble none source).succeeded = true ∧
      ∀ code, (({} : Config).assemble none source).program.object.get? .code = some code →
        code.size = 65536 := by
  obtain ⟨hlog, hsize, hsettled⟩ := run_fullMachine
  rw [← hlines] at hlog hsize hsettled
  obtain ⟨hobject, hmessages⟩ := Assembly.finish_of_settled Program.defaultModule hsettled
  have hlog' : (({} : Config).assemble none source).log = {} := hmessages.trans hlog
  have hobject' : (({} : Config).assemble none source).program.object = _ := hobject
  constructor
  · rw [Assembled.succeeded, Assembled.failures, hlog']
    rfl
  · intro code hcode
    rw [hobject', ObjectCode.get?_put_self, Option.some.injEq] at hcode
    rw [← hcode]
    exact hsize

/-- The unit that fills the machine succeeds, and its object code cannot be written. -/
theorem write_fullMachine :
    (Text.utf8 Program.defaultModule).length ≤ 65535 ∧
      (({} : Config).assemble none "NOP\nORG 65535\nNOP").succeeded = true ∧
      ObjectFile.write (({} : Config).assemble none "NOP\nORG 65535\nNOP").program.object =
        .error (.tooLarge "segment CODE") := by
  have hlines : SourceLine.ofText "NOP\nORG 65535\nNOP" = [firstByte, zerosBetween, lastByte] := by
    decide +kernel
  have hmodule : (Text.utf8 Program.defaultModule).length ≤ 65535 := by decide +kernel
  obtain ⟨hok, hsize⟩ := assemble_fullMachine hlines
  obtain ⟨code, hcode, -, -, hwrite⟩ := write_ok_iff_of_succeeded {} none _ hmodule hok
  exact ⟨hmodule, hok, hwrite (hsize code hcode)⟩

end MicroAsm
