import Mathlib.Data.List.Sort
import MicroAsm.Proofs.Object.RoundTrip

/-!
# The format of object files

`Contents` is what an object file says, with its records in the order of the file. Reading accepts
exactly the lists of bytes that start with well-formed contents, and takes exactly these bytes off
the front. Writing what was read gives the same contents with their records in the order of their
numbers, so a file whose records are in order already is written back as it was.

Each reader is described by an equivalence that says which bytes it accepts.
-/

namespace MicroAsm

namespace ObjectFile

variable {bs rest : List UInt8}

/-! ### What each reader accepts -/

lemma readBytes_eq_ok_iff {n : Nat} {front : List UInt8} :
    readBytes n bs = .ok (front, rest) ↔ front.length = n ∧ bs = front ++ rest := by
  constructor
  · intro h
    simp only [readBytes] at h
    split at h
    · rename_i hlen
      cases h
      exact ⟨hlen, (List.take_append_drop n bs).symm⟩
    · cases h
  · rintro ⟨hlen, rfl⟩
    exact readBytes_append rest hlen

lemma readByte_eq_ok_iff {b : UInt8} : readByte bs = .ok (b, rest) ↔ bs = b :: rest := by
  cases bs with
  | nil => simp [readByte]
  | cons b' bs => simp [readByte]

lemma readWord_eq_ok_iff {v : UInt16} : readWord bs = .ok (v, rest) ↔ bs = wordBytes v ++ rest := by
  constructor
  · intro h
    rw [readWord.eq_def] at h
    split at h
    · cases h
      rw [wordBytes_wordOf]
      rfl
    · cases h
  · rintro rfl
    exact readWord_append rest v

/-- A text was read if its length stands in front of its bytes. -/
lemma readText_eq_ok_iff {t : String} :
    readText bs = .ok (t, rest) ↔
      (Text.utf8 t).length ≤ 65535 ∧ bs = textImage t ++ rest := by
  constructor
  · intro h
    obtain ⟨⟨length, bs'⟩, hlength, htail⟩ := bind_eq_ok_iff.mp h
    obtain ⟨⟨text, rest'⟩, htext, hname⟩ := bind_eq_ok_iff.mp htail
    obtain rfl := readWord_eq_ok_iff.mp hlength
    obtain ⟨hlen, rfl⟩ := readBytes_eq_ok_iff.mp htext
    simp only at hname
    split at hname
    · rename_i hutf8
      cases hname
      have hle := length.toNat_lt
      rw [textImage, lengthImage, Text.utf8_of_ofUtf8? hutf8, hlen, UInt16.ofNat_toNat,
        List.append_assoc]
      exact ⟨by omega, rfl⟩
    · cases hname
  · rintro ⟨hle, rfl⟩
    exact readText_append rest hle

lemma ofNumber?_eq_some_iff {n : UInt8} {id : SegmentId} :
    SegmentId.ofNumber? n = some id ↔ n = id.number := by
  constructor
  · intro h
    have hfound := List.find?_some h
    simp only [beq_iff_eq] at hfound
    exact hfound.symm
  · rintro rfl
    exact ofNumber?_number id

/-- Only the number of a segment that an image does not have yet is accepted. -/
lemma readSegmentId_eq_ok_iff {o : ObjectCode} {id : SegmentId} :
    readSegmentId o bs = .ok (id, rest) ↔ o.get? id = none ∧ bs = id.number :: rest := by
  constructor
  · intro h
    obtain ⟨⟨number, bs'⟩, hnumber, hknown⟩ := bind_eq_ok_iff.mp h
    obtain rfl := readByte_eq_ok_iff.mp hnumber
    simp only at hknown
    split at hknown
    · cases hknown
    · rename_i id' hid
      split at hknown
      · cases hknown
      · rename_i hnone
        cases hknown
        exact ⟨by simpa using hnone, by rw [ofNumber?_eq_some_iff.mp hid]⟩
  · rintro ⟨hnone, rfl⟩
    exact readSegmentId_number rest hnone

/-- The record of a segment was read if the image did not have that segment. -/
lemma readSegment_eq_ok_iff {o o' : ObjectCode} :
    readSegment o bs = .ok (o', rest) ↔
      ∃ id s, o.get? id = none ∧ s.Countable ∧ bs = segmentImage id s ++ rest ∧
        o' = o.put id s := by
  constructor
  · intro h
    obtain ⟨⟨id, bs₁⟩, hid, h⟩ := bind_eq_ok_iff.mp h
    obtain ⟨⟨name, bs₂⟩, hname, h⟩ := bind_eq_ok_iff.mp h
    obtain ⟨⟨offset, bs₃⟩, hoffset, h⟩ := bind_eq_ok_iff.mp h
    obtain ⟨⟨size, bs₄⟩, hsize, h⟩ := bind_eq_ok_iff.mp h
    obtain ⟨⟨data, bs₅⟩, hdata, h⟩ := bind_eq_ok_iff.mp h
    cases h
    obtain ⟨hnone, rfl⟩ := readSegmentId_eq_ok_iff.mp hid
    obtain ⟨hnameLength, rfl⟩ := readText_eq_ok_iff.mp hname
    obtain rfl := readWord_eq_ok_iff.mp hoffset
    obtain rfl := readWord_eq_ok_iff.mp hsize
    obtain ⟨hlen, rfl⟩ := readBytes_eq_ok_iff.mp hdata
    have hle := size.toNat_lt
    have hcount : (⟨name, offset, data.toArray⟩ : Segment).size = size.toNat := by
      simpa [Segment.size] using hlen
    refine ⟨id, ⟨name, offset, data.toArray⟩, hnone, ⟨hnameLength, by omega⟩, ?_, rfl⟩
    simp [segmentImage, lengthImage, hcount]
  · rintro ⟨id, s, hnone, hs, rfl, rfl⟩
    exact readSegment_append rest hnone hs

/-- Records were read if they have identifiers of their own that the image does not have. -/
lemma readSegments_eq_ok_iff {count : Nat} {o o' : ObjectCode} :
    readSegments count o bs = .ok (o', rest) ↔
      ∃ records : List (SegmentId × Segment), records.length = count ∧
        (records.map Prod.fst).Nodup ∧ (∀ r ∈ records, o.get? r.1 = none) ∧
        (∀ r ∈ records, r.2.Countable) ∧ bs = segmentImages records ++ rest ∧
        o' = putAll o records := by
  constructor
  · intro h
    induction count generalizing o bs with
    | zero =>
      cases h
      exact ⟨[], rfl, List.nodup_nil, by simp, by simp, rfl, rfl⟩
    | succ count ih =>
      obtain ⟨⟨o₁, bs₁⟩, hfirst, h⟩ := bind_eq_ok_iff.mp h
      obtain ⟨id, s, hnone, hs, rfl, rfl⟩ := readSegment_eq_ok_iff.mp hfirst
      obtain ⟨records, hlen, hnodup, hnew, hcountable, rfl, rfl⟩ := ih h
      -- The first segment is in the image by now, so no later record has its identifier.
      have hne : ∀ r ∈ records, r.1 ≠ id := by
        rintro r hr rfl
        have hnone' := hnew r hr
        rw [ObjectCode.get?_put_self] at hnone'
        cases hnone'
      refine ⟨(id, s) :: records, by rw [List.length_cons, hlen], ?_, ?_, ?_, ?_, rfl⟩
      · rw [List.map_cons, List.nodup_cons]
        refine ⟨?_, hnodup⟩
        intro hmem
        obtain ⟨r, hr, hid⟩ := List.mem_map.mp hmem
        exact hne r hr hid
      · rw [List.forall_mem_cons]
        refine ⟨hnone, ?_⟩
        intro r hr
        rw [← ObjectCode.get?_put_of_ne o s (hne r hr)]
        exact hnew r hr
      · rw [List.forall_mem_cons]
        exact ⟨hs, hcountable⟩
      · simp [segmentImages]
  · rintro ⟨records, rfl, hnodup, hnew, hcountable, rfl, rfl⟩
    exact readSegments_append rest hnodup hnew hcountable

/-! ### Contents -/

/-- What an object file says, with the records in the order of the file. -/
structure Contents where
  moduleName : String
  records : List (SegmentId × Segment)
deriving DecidableEq, Repr

namespace Contents

/-- Words can count what they have to, and no segment has two records. -/
structure WellFormed (c : Contents) : Prop where
  name : (Text.utf8 c.moduleName).length ≤ 65535
  distinct : (c.records.map Prod.fst).Nodup
  countable : ∀ r ∈ c.records, r.2.Countable

/-- The bytes of the file: the mark of the format and its version, the number of records, the name
of the module, and the records. -/
def bytes (c : Contents) : List UInt8 :=
  magic ++ version :: lengthImage c.records.length ++ textImage c.moduleName ++
    segmentImages c.records

/-- The number of the first record is not above that of the second. -/
def inOrder (r r' : SegmentId × Segment) : Bool :=
  r.1.number ≤ r'.1.number

/-- The records stand in the order of their numbers. -/
def Ascending (c : Contents) : Prop :=
  c.records.Pairwise fun r r' => inOrder r r' = true

/-- The same contents with the records in the order of their numbers. -/
def sorted (c : Contents) : Contents :=
  { c with records := c.records.mergeSort inOrder }

/-- The image that the contents describe. -/
def object (c : Contents) : ObjectCode :=
  putAll { moduleName := c.moduleName } c.records

/-- What the file of an image says. -/
def ofObject (o : ObjectCode) : Contents :=
  ⟨o.moduleName, o.segments⟩

variable {c : Contents}

lemma bytes_ofObject (o : ObjectCode) : (ofObject o).bytes = image o := rfl

lemma sorted_of_ascending (h : c.Ascending) : c.sorted = c := by
  rw [sorted, List.mergeSort_of_pairwise h]

lemma sorted_perm (c : Contents) : c.sorted.records.Perm c.records :=
  List.mergeSort_perm _ _

/-- Sorting moves records and changes no byte of them. -/
lemma length_bytes_sorted (c : Contents) : c.sorted.bytes.length = c.bytes.length := by
  have hrecords : (segmentImages c.sorted.records).length = (segmentImages c.records).length :=
    (c.sorted_perm.flatMap_right _).length_eq
  simp only [bytes, List.length_append, List.length_cons, hrecords, c.sorted_perm.length_eq]
  rfl

/-- Words count no more than there are identifiers. -/
lemma WellFormed.length_records_le (h : c.WellFormed) : c.records.length ≤ 3 := by
  have hsubset : c.records.map Prod.fst ⊆ SegmentId.all := by
    intro id _
    cases id <;> decide
  have hle := (List.subperm_of_subset h.distinct hsubset).length_le
  rwa [List.length_map] at hle

/-- A segment put into an image joins its segments. -/
lemma segments_put_perm {o : ObjectCode} {id : SegmentId} {s : Segment} (h : o.get? id = none) :
    (o.put id s).segments.Perm ((id, s) :: o.segments) := by
  obtain ⟨name, absolute, code, data⟩ := o
  cases id with
  | absolute =>
    obtain rfl : absolute = none := h
    exact List.Perm.refl _
  | code =>
    obtain rfl : code = none := h
    cases absolute with
    | none => exact List.Perm.refl _
    | some s' => exact List.Perm.swap _ _ _
  | data =>
    obtain rfl : data = none := h
    cases absolute <;> cases code
    · exact List.Perm.refl _
    · exact List.Perm.swap _ _ _
    · exact List.Perm.swap _ _ _
    · exact @List.perm_append_comm _ [_, _] [_]

/-- Segments put into an image one after the other join its segments. -/
lemma segments_putAll_perm {records : List (SegmentId × Segment)} {o : ObjectCode}
    (hids : (records.map Prod.fst).Nodup) (hnew : ∀ r ∈ records, o.get? r.1 = none) :
    (putAll o records).segments.Perm (records ++ o.segments) := by
  induction records generalizing o with
  | nil => exact List.Perm.refl _
  | cons r records ih =>
    have hnew' := get?_put_eq_none hids hnew
    rw [List.map_cons, List.nodup_cons] at hids
    rw [List.forall_mem_cons] at hnew
    have hrest := ih hids.2 hnew'
    have hfirst := (segments_put_perm (s := r.2) hnew.1).append_left records
    exact (hrest.trans hfirst).trans List.perm_middle

/-- The segments of an image stand in the order of their numbers. -/
lemma segments_inOrder (o : ObjectCode) :
    o.segments.Pairwise fun r r' => inOrder r r' = true := by
  have hall : SegmentId.all.Pairwise fun id id' => id.number ≤ id'.number := by decide
  have hids := hall.sublist (segments_sublist_all o)
  rw [List.pairwise_map] at hids
  simpa only [inOrder, decide_eq_true_eq] using hids

lemma moduleName_putAll (o : ObjectCode) (records : List (SegmentId × Segment)) :
    (putAll o records).moduleName = o.moduleName := by
  induction records generalizing o with
  | nil => rfl
  | cons r records ih =>
    have hput : (o.put r.1 r.2).moduleName = o.moduleName := by
      cases r.1 <;> rfl
    exact (ih _).trans hput

/-- Records with the same number are one record, since no image has a segment twice. -/
lemma eq_of_inOrder {o : ObjectCode} {r r' : SegmentId × Segment} (hr : r ∈ o.segments)
    (hr' : r' ∈ o.segments) (hle : inOrder r r' = true) (hle' : inOrder r' r = true) : r = r' := by
  simp only [inOrder, decide_eq_true_eq] at hle hle'
  have hid : r.1 = r'.1 := by
    apply Option.some_injective
    rw [← ofNumber?_number r.1, ← ofNumber?_number r'.1, UInt8.le_antisymm hle hle']
  exact List.inj_on_of_nodup_map (nodup_segments o) hr hr' hid

/-- The image that contents describe says the same with its records in order. -/
lemma ofObject_object (h : c.WellFormed) : ofObject c.object = c.sorted := by
  have hperm : c.object.segments.Perm c.sorted.records := by
    have hput := segments_putAll_perm h.distinct fun _ _ => get?_moduleName c.moduleName _
    rw [show ({ moduleName := c.moduleName } : ObjectCode).segments = [] from rfl,
      List.append_nil] at hput
    exact hput.trans c.sorted_perm.symm
  have hsorted : c.sorted.records.Pairwise fun r r' => inOrder r r' = true := by
    refine List.pairwise_mergeSort ?_ ?_ c.records
    · intro r r' r'' hr hr'
      simp only [inOrder, decide_eq_true_eq] at hr hr' ⊢
      exact UInt8.le_trans hr hr'
    · intro r r'
      simp only [inOrder, Bool.or_eq_true, decide_eq_true_eq]
      exact UInt8.le_total _ _
  have hsegments : c.object.segments = c.sorted.records := by
    refine hperm.eq_of_pairwise ?_ (segments_inOrder _) hsorted
    intro r r' hr hr'
    exact eq_of_inOrder hr (hperm.mem_iff.mpr hr')
  rw [ofObject, hsegments, object, moduleName_putAll]
  rfl

/-- Writing the image that contents describe gives the contents with their records in order. -/
lemma write_object (h : c.WellFormed) : write c.object = .ok c.sorted.bytes := by
  have hobject := ofObject_object h
  have hname : c.object.moduleName = c.moduleName := congrArg moduleName hobject
  have hsegments : c.object.segments = c.sorted.records := congrArg records hobject
  refine write_eq_ok_iff.mpr ⟨⟨?_, ?_⟩, ?_⟩
  · rw [hname]
    exact h.name
  · intro r hr
    rw [hsegments] at hr
    exact h.countable r (c.sorted_perm.mem_iff.mp hr)
  · rw [← bytes_ofObject, hobject]

end Contents

/-! ### Images -/

/-- Reading takes well-formed contents off the front, whatever follows them. -/
lemma readImage_contents {c : Contents} (h : c.WellFormed) (rest : List UInt8) :
    readImage (c.bytes ++ rest) = .ok (c.object, rest) := by
  have hcount : c.records.length ≤ 65535 := Nat.le_trans h.length_records_le (by decide)
  exact readImage_records rest h.name h.distinct hcount h.countable

/-- Whatever reading accepts starts with well-formed contents. -/
lemma exists_contents_of_readImage {o : ObjectCode} (h : readImage bs = .ok (o, rest)) :
    ∃ c : Contents, c.WellFormed ∧ bs = c.bytes ++ rest ∧ c.object = o := by
  obtain ⟨⟨front, bs₁⟩, hfront, hchecked⟩ := bind_eq_ok_iff.mp h
  simp only at hchecked
  split at hchecked
  · cases hchecked
  rename_i hmagic
  obtain ⟨⟨v, bs₂⟩, hversion, hchecked'⟩ := bind_eq_ok_iff.mp hchecked
  simp only at hchecked'
  split at hchecked'
  · cases hchecked'
  rename_i hv
  obtain ⟨⟨count, bs₃⟩, hcount, hbody⟩ := bind_eq_ok_iff.mp hchecked'
  obtain ⟨⟨name, bs₄⟩, hname, hrecords⟩ := bind_eq_ok_iff.mp hbody
  obtain ⟨-, rfl⟩ := readBytes_eq_ok_iff.mp hfront
  obtain rfl := readByte_eq_ok_iff.mp hversion
  obtain rfl := readWord_eq_ok_iff.mp hcount
  obtain ⟨hnameLength, rfl⟩ := readText_eq_ok_iff.mp hname
  obtain ⟨records, hlen, hnodup, -, hcountable, rfl, rfl⟩ := readSegments_eq_ok_iff.mp hrecords
  refine ⟨⟨name, records⟩, ⟨hnameLength, hnodup, hcountable⟩, ?_, rfl⟩
  rw [not_not.mp hmagic, not_not.mp hv]
  simp [Contents.bytes, lengthImage, hlen]

lemma read_eq_ok_iff {o : ObjectCode} :
    read bs = .ok o ↔ ∃ (c : Contents) (rest : List UInt8), c.WellFormed ∧ bs = c.bytes ++ rest ∧
      c.object = o := by
  constructor
  · intro h
    obtain ⟨⟨o', rest⟩, hread, rfl⟩ := map_eq_ok_iff.mp h
    obtain ⟨c, hc, hbs, hobject⟩ := exists_contents_of_readImage hread
    exact ⟨c, rest, hc, hbs, hobject⟩
  · rintro ⟨c, rest, hc, rfl, rfl⟩
    rw [read, readImage_contents hc]
    rfl

/-- Reading accepts exactly the bytes that start with well-formed contents, and takes exactly these
off the front. Writing what was read gives the contents with their records in the order of their
numbers: as many bytes, and the same ones if the records were in order. What is written so is read
as the same image again. -/
theorem read_ok_iff_and_write_sorted (bs : List UInt8) :
    ((∃ o, read bs = .ok o) ↔
        ∃ (c : Contents) (rest : List UInt8), c.WellFormed ∧ bs = c.bytes ++ rest) ∧
      (∀ (c : Contents) (rest : List UInt8), c.WellFormed → bs = c.bytes ++ rest →
        ∃ o, read bs = .ok o ∧ readImage bs = .ok (o, rest) ∧ Contents.ofObject o = c.sorted ∧
          write o = .ok c.sorted.bytes ∧ c.sorted.bytes.length = c.bytes.length ∧
          (c.Ascending → c.sorted.bytes = c.bytes)) ∧
      ∀ o, read bs = .ok o → ∃ bs', write o = .ok bs' ∧ read bs' = .ok o := by
  refine ⟨⟨?_, ?_⟩, ?_, ?_⟩
  · rintro ⟨o, ho⟩
    obtain ⟨c, rest, hc, hbs, -⟩ := read_eq_ok_iff.mp ho
    exact ⟨c, rest, hc, hbs⟩
  · rintro ⟨c, rest, hc, hbs⟩
    exact ⟨c.object, read_eq_ok_iff.mpr ⟨c, rest, hc, hbs, rfl⟩⟩
  · rintro c rest hc rfl
    refine ⟨c.object, read_eq_ok_iff.mpr ⟨c, rest, hc, rfl, rfl⟩, readImage_contents hc rest,
      Contents.ofObject_object hc, Contents.write_object hc, c.length_bytes_sorted, ?_⟩
    intro hascending
    rw [Contents.sorted_of_ascending hascending]
  · intro o ho
    obtain ⟨c, -, hc, -, rfl⟩ := read_eq_ok_iff.mp ho
    have hwrite := Contents.write_object hc
    obtain ⟨hcountable, himage⟩ := write_eq_ok_iff.mp hwrite
    refine ⟨_, hwrite, ?_⟩
    rw [himage, read, ← List.append_nil (image c.object), readImage_append [] hcountable]
    rfl

end ObjectFile

end MicroAsm
