import MicroAsm.Object.Basic
import MicroAsm.Text.Utf8
import MicroAsm.Word

/-!
# Object files

The binary form of an image. Words are written low byte first, texts in UTF-8 with their length in
front:

    "OBJ" version segments:word module:text
    then for each segment   number name:text offset:word size:word bytes

Reading takes exactly one image off the front and ignores what follows it.
-/

namespace MicroAsm

/-- Why an image cannot be written or read. -/
inductive ObjectFileError where
  | badMagic
  | unsupportedVersion (version : UInt8)
  | truncated
  | invalidSegment (number : UInt8)
  | duplicateSegment (number : UInt8)
  | invalidName
  /-- Something has more bytes than a word can count. -/
  | tooLarge (what : String)
deriving DecidableEq, Repr

def ObjectFileError.text : ObjectFileError → String
  | badMagic => "not an object file"
  | unsupportedVersion v => "unsupported object file version " ++ toString v.toNat
  | truncated => "truncated object file"
  | invalidSegment n => "invalid segment identifier " ++ toString n.toNat
  | duplicateSegment n => "duplicated segment " ++ toString n.toNat
  | invalidName => "name is not valid UTF-8"
  | tooLarge what => what ++ " is too large"

namespace ObjectFile

/-- The bytes that every object file starts with. -/
def magic : List UInt8 := [0x4F, 0x42, 0x4A]

def version : UInt8 := 1

/-! ### Writing -/

def writeLength (length : Nat) (what : String) : Except ObjectFileError (List UInt8) :=
  if length < 0x10000 then .ok (wordBytes (UInt16.ofNat length)) else .error (.tooLarge what)

/-- A text with its length in front. -/
def writeText (text what : String) : Except ObjectFileError (List UInt8) := do
  let bytes := Text.utf8 text
  let length ← writeLength bytes.length what
  return length ++ bytes

def writeSegment (id : SegmentId) (s : Segment) : Except ObjectFileError (List UInt8) := do
  let name ← writeText s.name "segment name"
  let size ← writeLength s.size ("segment " ++ s.name)
  return id.number :: name ++ wordBytes s.offset ++ size ++ s.bytes.toList

/-- The records of segments, one after the other. -/
def writeSegments : List (SegmentId × Segment) → Except ObjectFileError (List UInt8)
  | [] => .ok []
  | (id, s) :: rest => do
    let first ← writeSegment id s
    let others ← writeSegments rest
    return first ++ others

/-- The binary form of an image. -/
def write (o : ObjectCode) : Except ObjectFileError (List UInt8) := do
  let count ← writeLength o.segments.length "segment count"
  let name ← writeText o.moduleName "module name"
  let records ← writeSegments o.segments
  return magic ++ version :: count ++ name ++ records

/-! ### Writing piece by piece -/

/-- What is put out for the record of a segment, one piece after the other. -/
def segmentPieces (id : SegmentId) (s : Segment) : List (Except ObjectFileError (List UInt8)) :=
  [.ok [id.number], writeText s.name "segment name", .ok (wordBytes s.offset),
    writeLength s.size ("segment " ++ s.name), .ok s.bytes.toList]

/-- What is put out for an image, one piece after the other. -/
def pieces (o : ObjectCode) : List (Except ObjectFileError (List UInt8)) :=
  .ok magic :: .ok [version] :: writeLength o.segments.length "segment count" ::
    writeText o.moduleName "module name" ::
    o.segments.flatMap fun (id, s) => segmentPieces id s

/-- The bytes in front of the first piece that cannot be put out. -/
def putOut : List (Except ObjectFileError (List UInt8)) → List UInt8
  | .ok bytes :: rest => bytes ++ putOut rest
  | _ => []

/-- What has been put out when the writing of an image ends, well or not. -/
def written (o : ObjectCode) : List UInt8 :=
  putOut (pieces o)

/-- Putting out all pieces, or the reason why one cannot be. -/
def putOutAll : List (Except ObjectFileError (List UInt8)) → Except ObjectFileError (List UInt8)
  | [] => .ok []
  | piece :: rest => do
    let bytes ← piece
    let others ← putOutAll rest
    return bytes ++ others

theorem putOutAll_append (ps qs : List (Except ObjectFileError (List UInt8))) :
    putOutAll (ps ++ qs) = do return (← putOutAll ps) ++ (← putOutAll qs) := by
  induction ps with
  | nil => cases h : putOutAll qs <;> simp [putOutAll, h] <;> rfl
  | cons p ps ih =>
    rw [List.cons_append, putOutAll, putOutAll, ih]
    cases p with
    | error e => rfl
    | ok bytes =>
      cases putOutAll ps with
      | error e => rfl
      | ok front =>
        cases putOutAll qs with
        | error e => rfl
        | ok back => simp [bind, Except.bind, pure, Except.pure]

/-- If all pieces can be put out, all of them are. -/
theorem putOut_of_putOutAll {ps : List (Except ObjectFileError (List UInt8))} {bytes : List UInt8}
    (h : putOutAll ps = .ok bytes) : putOut ps = bytes := by
  induction ps generalizing bytes with
  | nil =>
    cases h
    rfl
  | cons p ps ih =>
    cases p with
    | error e => cases h
    | ok first =>
      cases hrest : putOutAll ps with
      | error e => simp [putOutAll, hrest, bind, Except.bind] at h
      | ok others =>
        simp only [putOutAll, hrest, bind, Except.bind, pure, Except.pure, Except.ok.injEq] at h
        rw [putOut, ih hrest, h]

theorem putOutAll_segmentPieces (id : SegmentId) (s : Segment) :
    putOutAll (segmentPieces id s) = writeSegment id s := by
  rw [segmentPieces, writeSegment]
  cases writeText s.name "segment name" with
  | error e => rfl
  | ok name =>
    cases writeLength s.size ("segment " ++ s.name) with
    | error e => rfl
    | ok size => simp [putOutAll, bind, Except.bind, pure, Except.pure]

theorem putOutAll_records (ss : List (SegmentId × Segment)) :
    putOutAll (ss.flatMap fun (id, s) => segmentPieces id s) = writeSegments ss := by
  induction ss with
  | nil => rfl
  | cons entry ss ih =>
    rw [List.flatMap_cons, putOutAll_append, ih, putOutAll_segmentPieces]
    rfl

/-- Writing an image puts out its pieces. -/
theorem putOutAll_pieces (o : ObjectCode) : putOutAll (pieces o) = write o := by
  rw [pieces, write]
  simp only [putOutAll, putOutAll_records]
  cases writeLength o.segments.length "segment count" with
  | error e => rfl
  | ok count =>
    cases writeText o.moduleName "module name" with
    | error e => rfl
    | ok name =>
      cases writeSegments o.segments with
      | error e => rfl
      | ok records => simp [bind, Except.bind, pure, Except.pure]

/-- An image that can be written is put out as a whole. -/
theorem written_of_write {o : ObjectCode} {bytes : List UInt8} (h : write o = .ok bytes) :
    written o = bytes :=
  putOut_of_putOutAll ((putOutAll_pieces o).trans h)

/-! ### Reading -/

/-- Reads something off the front of a list of bytes. -/
abbrev Reader (α : Type) := List UInt8 → Except ObjectFileError (α × List UInt8)

def readBytes (n : Nat) : Reader (List UInt8) := fun bytes =>
  let front := bytes.take n
  if front.length = n then .ok (front, bytes.drop n) else .error .truncated

def readByte : Reader UInt8
  | [] => .error .truncated
  | b :: rest => .ok (b, rest)

def readWord : Reader UInt16
  | low :: high :: rest => .ok (wordOf low high, rest)
  | _ => .error .truncated

/-- Reads a text with its length in front. -/
def readText : Reader String := fun bytes => do
  let (length, bytes) ← readWord bytes
  let (text, bytes) ← readBytes length.toNat bytes
  match Text.ofUtf8? text with
  | some s => .ok (s, bytes)
  | none => .error .invalidName

/-- Reads the number of a segment that an image does not have yet. -/
def readSegmentId (o : ObjectCode) : Reader SegmentId := fun bytes => do
  let (number, bytes) ← readByte bytes
  match SegmentId.ofNumber? number with
  | none => .error (.invalidSegment number)
  | some id =>
    if (o.get? id).isSome then .error (.duplicateSegment number) else .ok (id, bytes)

/-- Reads the record of a segment into an image. -/
def readSegment (o : ObjectCode) : Reader ObjectCode := fun bytes => do
  let (id, bytes) ← readSegmentId o bytes
  let (name, bytes) ← readText bytes
  let (offset, bytes) ← readWord bytes
  let (size, bytes) ← readWord bytes
  let (data, bytes) ← readBytes size.toNat bytes
  return (o.put id ⟨name, offset, data.toArray⟩, bytes)

/-- Reads a number of records into an image. -/
def readSegments : (count : Nat) → ObjectCode → Reader ObjectCode
  | 0, o, bytes => .ok (o, bytes)
  | count + 1, o, bytes => do
    let (o, bytes) ← readSegment o bytes
    readSegments count o bytes

/-- Reads an image off the front, and gives what follows it too. -/
def readImage : Reader ObjectCode := fun bytes => do
  let (front, bytes) ← readBytes magic.length bytes
  if front ≠ magic then .error .badMagic
  else
    let (v, bytes) ← readByte bytes
    if v ≠ version then .error (.unsupportedVersion v)
    else
      let (count, bytes) ← readWord bytes
      let (name, bytes) ← readText bytes
      readSegments count.toNat { moduleName := name } bytes

/-- The image in front of a list of bytes. -/
def read (bytes : List UInt8) : Except ObjectFileError ObjectCode :=
  (readImage bytes).map Prod.fst

end ObjectFile

end MicroAsm
