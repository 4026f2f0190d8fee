import MicroAsm.Object.File
import MicroAsm.Proofs.Outcome
import MicroAsm.Proofs.Word

/-!
# Writing and reading object files

An image can be written exactly if a word can count the bytes of its module name, of each segment
name and of each segment. What was written is read back as the same image, whatever follows it.

Both are shown through the total function `ObjectFile.image`: writing gives the image or fails, and
reading undoes it part by part.
-/

namespace MicroAsm

/-- A word can count the bytes of the name and those of the segment. -/
def Segment.Countable (s : Segment) : Prop :=
  (Text.utf8 s.name).length ≤ 65535 ∧ s.size ≤ 65535

/-- A word can count the bytes of the module name and of every segment and its name. -/
def ObjectCode.Countable (o : ObjectCode) : Prop :=
  (Text.utf8 o.moduleName).length ≤ 65535 ∧ ∀ entry ∈ o.segments, entry.2.Countable

instance (s : Segment) : Decidable s.Countable :=
  inferInstanceAs (Decidable (_ ∧ _))

instance (o : ObjectCode) : Decidable o.Countable :=
  inferInstanceAs (Decidable (_ ∧ _))

namespace ObjectFile

/-! ### Images -/

/-- A length in two bytes. -/
def lengthImage (n : Nat) : List UInt8 :=
  wordBytes (UInt16.ofNat n)

/-- A text with its length in front. -/
def textImage (t : String) : List UInt8 :=
  lengthImage (Text.utf8 t).length ++ Text.utf8 t

/-- The record of a segment. -/
def segmentImage (id : SegmentId) (s : Segment) : List UInt8 :=
  id.number :: textImage s.name ++ wordBytes s.offset ++ lengthImage s.size ++ s.bytes.toList

/-- The records of segments, one after the other. -/
def segmentImages (entries : List (SegmentId × Segment)) : List UInt8 :=
  entries.flatMap fun (id, s) => segmentImage id s

/-- The binary form that an image has if it has one. -/
def image (o : ObjectCode) : List UInt8 :=
  magic ++ version :: lengthImage o.segments.length ++ textImage o.moduleName ++
    segmentImages o.segments

/-! ### Writing gives the image -/

lemma writeLength_eq_ok_iff {n : Nat} {what : String} {bs : List UInt8} :
    writeLength n what = .ok bs ↔ n ≤ 65535 ∧ bs = lengthImage n := by
  unfold writeLength lengthImage
  split
  · simp only [Except.ok.injEq, eq_comm, iff_and_self]
    intro _
    omega
  · simp only [reduceCtorEq, false_iff, not_and]
    intro h
    omega

lemma writeText_eq_ok_iff {t what : String} {bs : List UInt8} :
    writeText t what = .ok bs ↔ (Text.utf8 t).length ≤ 65535 ∧ bs = textImage t := by
  simp only [writeText, bind_eq_ok_iff, writeLength_eq_ok_iff, pure, Except.pure,
    Except.ok.injEq, textImage]
  constructor
  · rintro ⟨_, ⟨hle, rfl⟩, rfl⟩
    exact ⟨hle, rfl⟩
  · rintro ⟨hle, rfl⟩
    exact ⟨_, ⟨hle, rfl⟩, rfl⟩

lemma writeSegment_eq_ok_iff {id : SegmentId} {s : Segment} {bs : List UInt8} :
    writeSegment id s = .ok bs ↔ s.Countable ∧ bs = segmentImage id s := by
  simp only [writeSegment, bind_eq_ok_iff, writeText_eq_ok_iff, writeLength_eq_ok_iff, pure,
    Except.pure, Except.ok.injEq, Segment.Countable, segmentImage]
  constructor
  · rintro ⟨_, ⟨hname, rfl⟩, _, ⟨hsize, rfl⟩, rfl⟩
    exact ⟨⟨hname, hsize⟩, rfl⟩
  · rintro ⟨⟨hname, hsize⟩, rfl⟩
    exact ⟨_, ⟨hname, rfl⟩, _, ⟨hsize, rfl⟩, rfl⟩

lemma writeSegments_eq_ok_iff {entries : List (SegmentId × Segment)} {bs : List UInt8} :
    writeSegments entries = .ok bs ↔
      (∀ entry ∈ entries, entry.2.Countable) ∧ bs = segmentImages entries := by
  induction entries generalizing bs with
  | nil => simp [writeSegments, segmentImages, eq_comm]
  | cons entry rest ih =>
    obtain ⟨id, s⟩ := entry
    simp only [writeSegments, bind_eq_ok_iff, writeSegment_eq_ok_iff, ih, pure, Except.pure,
      Except.ok.injEq, List.forall_mem_cons, segmentImages, List.flatMap_cons]
    constructor
    · rintro ⟨_, ⟨hs, rfl⟩, _, ⟨hrest, rfl⟩, rfl⟩
      exact ⟨⟨hs, hrest⟩, rfl⟩
    · rintro ⟨⟨hs, hrest⟩, rfl⟩
      exact ⟨_, ⟨hs, rfl⟩, _, ⟨hrest, rfl⟩, rfl⟩

/-- An image has at most as many segments as there are identifiers. -/
lemma length_segments_le (o : ObjectCode) : o.segments.length ≤ 3 :=
  List.length_filterMap_le _ SegmentId.all

/-- Writing fails only for lengths that a word cannot count, and gives the image otherwise. -/
lemma write_eq_ok_iff {o : ObjectCode} {bs : List UInt8} :
    write o = .ok bs ↔ o.Countable ∧ bs = image o := by
  have hcount : o.segments.length ≤ 65535 := Nat.le_trans (length_segments_le o) (by decide)
  simp only [write, bind_eq_ok_iff, writeLength_eq_ok_iff, writeText_eq_ok_iff,
    writeSegments_eq_ok_iff, pure, Except.pure, Except.ok.injEq, ObjectCode.Countable, image]
  constructor
  · rintro ⟨_, ⟨-, rfl⟩, _, ⟨hname, rfl⟩, _, ⟨hsegments, rfl⟩, rfl⟩
    exact ⟨⟨hname, hsegments⟩, rfl⟩
  · rintro ⟨⟨hname, hsegments⟩, rfl⟩
    exact ⟨_, ⟨hcount, rfl⟩, _, ⟨hname, rfl⟩, _, ⟨hsegments, rfl⟩, rfl⟩

/-! ### Reading undoes the image -/

variable (rest : List UInt8)

lemma readBytes_append {front : List UInt8} {n : Nat} (h : front.length = n) :
    readBytes n (front ++ rest) = .ok (front, rest) := by
  subst h
  simp [readBytes]

lemma readWord_append (v : UInt16) : readWord (wordBytes v ++ rest) = .ok (v, rest) := by
  simp [readWord, wordBytes]

lemma readWord_lengthImage {n : Nat} (h : n ≤ 65535) :
    ∃ v : UInt16, readWord (lengthImage n ++ rest) = .ok (v, rest) ∧ v.toNat = n := by
  refine ⟨UInt16.ofNat n, readWord_append rest _, ?_⟩
  rw [UInt16.toNat_ofNat']
  exact Nat.mod_eq_of_lt (by omega)

lemma readText_append {t : String} (h : (Text.utf8 t).length ≤ 65535) :
    readText (textImage t ++ rest) = .ok (t, rest) := by
  obtain ⟨v, hv, hn⟩ := readWord_lengthImage (Text.utf8 t ++ rest) h
  simp only [readText, textImage, List.append_assoc, hv, bind, Except.bind]
  rw [readBytes_append rest hn.symm]
  simp only [Text.ofUtf8?_utf8]

lemma ofNumber?_number (id : SegmentId) : SegmentId.ofNumber? id.number = some id := by
  cases id <;> rfl

lemma readSegmentId_number {o : ObjectCode} {id : SegmentId} (h : o.get? id = none) :
    readSegmentId o (id.number :: rest) = .ok (id, rest) := by
  simp [readSegmentId, readByte, ofNumber?_number, h, bind, Except.bind]

/-- The record of a segment that is not in an image yet puts it there. -/
lemma readSegment_append {o : ObjectCode} {id : SegmentId} {s : Segment} (hid : o.get? id = none)
    (hs : s.Countable) :
    readSegment o (segmentImage id s ++ rest) = .ok (o.put id s, rest) := by
  obtain ⟨hname, hsize⟩ := hs
  obtain ⟨v, hv, hn⟩ := readWord_lengthImage (s.bytes.toList ++ rest) hsize
  have hdata : s.bytes.toList.length = v.toNat := by rw [hn]; rfl
  simp only [readSegment, segmentImage, List.cons_append, List.append_assoc, bind, Except.bind]
  simp only [readSegmentId_number _ hid, readText_append _ hname, readWord_append, hv,
    readBytes_append rest hdata, pure, Except.pure]

/-- Segments put into an image one after the other. -/
def putAll (o : ObjectCode) (entries : List (SegmentId × Segment)) : ObjectCode :=
  entries.foldl (fun o entry => o.put entry.1 entry.2) o

/-- An image with a name only has no segments. -/
lemma get?_moduleName (name : String) (id : SegmentId) :
    ({ moduleName := name } : ObjectCode).get? id = none := by
  cases id <;> rfl

/-- Putting the first of several different segments in leaves the others out. -/
lemma get?_put_eq_none {entry : SegmentId × Segment} {entries : List (SegmentId × Segment)}
    {o : ObjectCode} (hids : ((entry :: entries).map Prod.fst).Nodup)
    (hnew : ∀ e ∈ entry :: entries, o.get? e.1 = none) :
    ∀ e ∈ entries, (o.put entry.1 entry.2).get? e.1 = none := by
  intro e he
  have hne : e.1 ≠ entry.1 := by
    intro hid
    rw [List.map_cons, List.nodup_cons] at hids
    exact hids.1 (List.mem_map.mpr ⟨e, he, hid⟩)
  rw [ObjectCode.get?_put_of_ne o entry.2 hne]
  exact hnew e (List.mem_cons_of_mem _ he)

/-- Records of segments with identifiers of their own put all of them into an image. -/
lemma readSegments_append {entries : List (SegmentId × Segment)} {o : ObjectCode}
    (hids : (entries.map Prod.fst).Nodup) (hnew : ∀ entry ∈ entries, o.get? entry.1 = none)
    (hs : ∀ entry ∈ entries, entry.2.Countable) :
    readSegments entries.length o (segmentImages entries ++ rest) =
      .ok (putAll o entries, rest) := by
  induction entries generalizing o with
  | nil => rfl
  | cons entry entries ih =>
    have hnew' := get?_put_eq_none hids hnew
    rw [List.forall_mem_cons] at hnew hs
    rw [List.map_cons, List.nodup_cons] at hids
    simp only [segmentImages, List.flatMap_cons, List.length_cons, readSegments,
      List.append_assoc, bind, Except.bind]
    rw [readSegment_append _ hnew.1 hs.1]
    exact ih hids.2 hnew' hs.2

/-- The segments of an image stand in the order of their identifiers. -/
lemma segments_sublist_all (o : ObjectCode) : (o.segments.map Prod.fst).Sublist SegmentId.all := by
  obtain ⟨name, absolute, code, data⟩ := o
  cases absolute <;> cases code <;> cases data <;>
    simp [ObjectCode.segments, ObjectCode.get?, SegmentId.all]

lemma nodup_segments (o : ObjectCode) : (o.segments.map Prod.fst).Nodup :=
  (segments_sublist_all o).nodup (by decide)

/-- An image is what its segments make of one with the same name and no segments. -/
lemma putAll_segments (o : ObjectCode) : putAll { moduleName := o.moduleName } o.segments = o := by
  obtain ⟨name, absolute, code, data⟩ := o
  cases absolute <;> cases code <;> cases data <;> rfl

/-- Reading takes a module name and the records of different segments off the front. -/
lemma readImage_records {name : String} {entries : List (SegmentId × Segment)}
    (hname : (Text.utf8 name).length ≤ 65535) (hids : (entries.map Prod.fst).Nodup)
    (hcount : entries.length ≤ 65535) (hs : ∀ entry ∈ entries, entry.2.Countable) :
    readImage (magic ++ version :: lengthImage entries.length ++ textImage name ++
      segmentImages entries ++ rest) = .ok (putAll { moduleName := name } entries, rest) := by
  obtain ⟨v, hv, hn⟩ := readWord_lengthImage
    (textImage name ++ (segmentImages entries ++ rest)) hcount
  have hrecords := readSegments_append rest hids (fun _ _ => get?_moduleName name _) hs
  simp only [readImage, List.append_assoc, List.cons_append, bind, Except.bind]
  rw [readBytes_append _ rfl]
  simp only [ne_eq, not_true_eq_false, ite_false, readByte, hv, readText_append _ hname, hn,
    hrecords]

/-- Reading takes exactly the image of an object off the front. -/
lemma readImage_append {o : ObjectCode} (h : o.Countable) :
    readImage (image o ++ rest) = .ok (o, rest) := by
  have hcount : o.segments.length ≤ 65535 := Nat.le_trans (length_segments_le o) (by decide)
  rw [image, readImage_records rest h.1 (nodup_segments o) hcount h.2, putAll_segments]

/-- Writing succeeds exactly for an image whose names and segments a word can count, and what was
written is read back as the same image, whatever follows it. -/
theorem write_ok_iff_and_read_append (o : ObjectCode) :
    ((∃ bs, write o = .ok bs) ↔ o.Countable) ∧
      ∀ bs, write o = .ok bs → ∀ rest, read (bs ++ rest) = .ok o := by
  constructor
  · constructor
    · rintro ⟨bs, h⟩
      exact (write_eq_ok_iff.mp h).1
    · intro h
      exact ⟨image o, write_eq_ok_iff.mpr ⟨h, rfl⟩⟩
  · intro bs h rest
    obtain ⟨hcountable, rfl⟩ := write_eq_ok_iff.mp h
    rw [read, readImage_append rest hcountable]
    rfl

end ObjectFile

end MicroAsm
