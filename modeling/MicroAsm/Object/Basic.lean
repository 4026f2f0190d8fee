import MicroAsm.Text.AsciiCase

/-!
# Object code

The image of an assembled module: up to three segments of bytes, each with the address it starts
at.
-/

namespace MicroAsm

/-- Which segment of a module. -/
inductive SegmentId where
  | absolute
  | code
  | data
deriving DecidableEq, Repr, Inhabited

namespace SegmentId

/-- All of them, in order. -/
def all : List SegmentId := [absolute, code, data]

/-- The number of a segment in object files. -/
def number : SegmentId → UInt8
  | absolute => 0
  | code => 1
  | data => 2

def ofNumber? (n : UInt8) : Option SegmentId :=
  all.find? (·.number == n)

/-- The name of a segment that was given none. -/
def defaultName : SegmentId → String
  | absolute => "ABSOLUTE"
  | code => "CODE"
  | data => "DATA"

end SegmentId

/-- A run of bytes with a name and the address of its first byte. -/
structure Segment where
  name : String
  offset : UInt16 := 0
  bytes : Array UInt8 := #[]
deriving DecidableEq, Repr, Inhabited

namespace Segment

def size (s : Segment) : Nat := s.bytes.size

/-- The address after the last byte, which may lie beyond the last address of the machine. -/
def endAddress (s : Segment) : Nat := s.offset.toNat + s.bytes.size

/-- The address of the next byte, as the machine counts. -/
def locationCounter (s : Segment) : UInt16 := UInt16.ofNat s.endAddress

/-- The segment moved to another first address. -/
def setOffset (s : Segment) (offset : UInt16) : Segment :=
  { s with offset := offset }

/-- The segment with other bytes in place of its own. -/
def setData (s : Segment) (bs : List UInt8) : Segment :=
  { s with bytes := bs.toArray }

/-- The segment with more bytes at its end. -/
def append (s : Segment) (bs : List UInt8) : Segment :=
  { s with bytes := s.bytes ++ bs }

/-- Bytes written over an array from an index on. -/
def overwrite (bytes : Array UInt8) (index : Nat) : List UInt8 → Array UInt8
  | [] => bytes
  | b :: bs => overwrite (bytes.setIfInBounds index b) (index + 1) bs

/-- The segment with bytes written over those at an index, if there are that many. -/
def patch? (s : Segment) (index : Nat) (bs : List UInt8) : Option Segment :=
  if index + bs.length ≤ s.bytes.size then some { s with bytes := overwrite s.bytes index bs }
  else none

@[simp] theorem endAddress_setOffset (s : Segment) (offset : UInt16) :
    (s.setOffset offset).endAddress = offset.toNat + s.size := rfl

@[simp] theorem endAddress_setData (s : Segment) (bs : List UInt8) :
    (s.setData bs).endAddress = s.offset.toNat + bs.length := rfl

end Segment

inductive ObjectError where
  | unknownSegment (name : String)
deriving DecidableEq, Repr

def ObjectError.text : ObjectError → String
  | unknownSegment name => "unknown segment '" ++ name ++ "'"

/-- The image of a module. -/
structure ObjectCode where
  moduleName : String
  absolute : Option Segment := none
  code : Option Segment := none
  data : Option Segment := none
deriving DecidableEq, Repr, Inhabited

namespace ObjectCode

/-- An image with an empty code segment, which every module starts with. -/
def ofModule (name : String) : ObjectCode :=
  { moduleName := name, code := some { name := SegmentId.code.defaultName } }

def get? (o : ObjectCode) : SegmentId → Option Segment
  | .absolute => o.absolute
  | .code => o.code
  | .data => o.data

/-- The image with a segment added, over one of the same identifier. -/
def put (o : ObjectCode) (id : SegmentId) (s : Segment) : ObjectCode :=
  match id with
  | .absolute => { o with absolute := some s }
  | .code => { o with code := some s }
  | .data => { o with data := some s }

def setModuleName (o : ObjectCode) (name : String) : ObjectCode :=
  { o with moduleName := name }

/-- The image with a new segment without bytes, over one of the same identifier. -/
def addSegment (o : ObjectCode) (id : SegmentId) (name : String) : ObjectCode :=
  o.put id { name }

/-- The segments of an image in the order of their numbers. -/
def segments (o : ObjectCode) : List (SegmentId × Segment) :=
  SegmentId.all.filterMap fun id => (o.get? id).map (id, ·)

/-- A segment of an image, or the complaint that there is none. -/
def segment (o : ObjectCode) (id : SegmentId) : Except ObjectError Segment :=
  match o.get? id with
  | some s => .ok s
  | none => .error (.unknownSegment id.defaultName)

/-- The first segment with a name, in letters of any case. -/
def segmentNamed (o : ObjectCode) (name : String) : Except ObjectError (SegmentId × Segment) :=
  match o.segments.find? (Text.eqIgnoringCase ·.2.name name) with
  | some found => .ok found
  | none => .error (.unknownSegment name)

/-- Changes a segment of an image, if there is one. -/
def modify (o : ObjectCode) (id : SegmentId) (f : Segment → Segment) : ObjectCode :=
  match o.get? id with
  | some s => o.put id (f s)
  | none => o

@[simp] theorem get?_put_self (o : ObjectCode) (id : SegmentId) (s : Segment) :
    (o.put id s).get? id = some s := by
  cases id <;> rfl

theorem get?_put_of_ne (o : ObjectCode) {id other : SegmentId} (s : Segment) (h : other ≠ id) :
    (o.put id s).get? other = o.get? other := by
  cases id <;> cases other <;> first | rfl | contradiction

@[simp] theorem moduleName_put (o : ObjectCode) (id : SegmentId) (s : Segment) :
    (o.put id s).moduleName = o.moduleName := by
  cases id <;> rfl

@[simp] theorem get?_setModuleName (o : ObjectCode) (name : String) (id : SegmentId) :
    (o.setModuleName name).get? id = o.get? id := by
  cases id <;> rfl

@[simp] theorem setModuleName_put (o : ObjectCode) (id : SegmentId) (s : Segment) (name : String) :
    (o.put id s).setModuleName name = (o.setModuleName name).put id s := by
  cases id <;> rfl

@[simp] theorem get?_addSegment_self (o : ObjectCode) (id : SegmentId) (name : String) :
    (o.addSegment id name).get? id = some { name } :=
  get?_put_self o id _

theorem get?_addSegment_of_ne (o : ObjectCode) {id other : SegmentId} (name : String)
    (h : other ≠ id) : (o.addSegment id name).get? other = o.get? other :=
  get?_put_of_ne o _ h

@[simp] theorem get?_modify_self (o : ObjectCode) (id : SegmentId) (f : Segment → Segment) :
    (o.modify id f).get? id = (o.get? id).map f := by
  rw [modify]
  cases h : o.get? id with
  | none => simp [h]
  | some s => simp

theorem get?_modify_of_ne (o : ObjectCode) {id other : SegmentId} (f : Segment → Segment)
    (h : other ≠ id) : (o.modify id f).get? other = o.get? other := by
  rw [modify]
  cases o.get? id with
  | none => rfl
  | some s => exact get?_put_of_ne o (f s) h

end ObjectCode

end MicroAsm
