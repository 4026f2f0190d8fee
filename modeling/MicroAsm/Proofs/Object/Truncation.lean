import MicroAsm.Proofs.Object.RoundTrip

/-!
# Object files that are cut off

A file that ends before the image in it is over is reported as truncated, wherever it was cut: every
check on the way to the cut is passed by what was written, and the length of a text is checked
before its bytes are.

`ObjectFile.Needs` says this of one reader and one list of bytes. It holds for readers one after the
other if it holds for each of them.
-/

namespace MicroAsm

namespace ObjectFile

/-- The reader wants all of these bytes: it complains about the end of any proper part in front. -/
def Needs {α : Type} (r : Reader α) (bytes : List UInt8) : Prop :=
  ∀ n < bytes.length, r (bytes.take n) = .error .truncated

variable {α β : Type} {r : Reader α} {first second : List UInt8}

/-- What is done with a result does not matter as long as there is none. -/
lemma Needs.andThen (h : Needs r first)
    (k : α × List UInt8 → Except ObjectFileError (β × List UInt8)) :
    Needs (fun bytes => r bytes >>= k) first := by
  intro n hn
  simp only [h n hn]
  rfl

/-- Two readers one after the other want the bytes of both. -/
lemma Needs.bind {a : α} {k : α × List UInt8 → Except ObjectFileError (β × List UInt8)}
    (h : Needs r first)
    (hread : ∀ rest, r (first ++ rest) = .ok (a, rest))
    (h' : Needs (fun bytes => k (a, bytes)) second) :
    Needs (fun bytes => r bytes >>= k) (first ++ second) := by
  intro n hn
  by_cases hcut : n < first.length
  · rw [List.take_append_of_le_length (Nat.le_of_lt hcut)]
    exact h.andThen k n hcut
  · rw [List.length_append] at hn
    rw [List.take_append, List.take_of_length_le (by omega)]
    simp only [hread]
    exact h' (n - first.length) (by omega)

/-! ### Parts of a file -/

lemma needs_readByte (b : UInt8) : Needs readByte [b] := by
  intro n hn
  obtain rfl : n = 0 := by simpa using hn
  rfl

lemma needs_readWord (v : UInt16) : Needs readWord (wordBytes v) := by
  intro n hn
  match n, hn with
  | 0, _ => rfl
  | 1, _ => rfl

lemma needs_readBytes (bytes : List UInt8) : Needs (readBytes bytes.length) bytes := by
  intro n hn
  rw [readBytes, if_neg]
  rw [List.length_take, List.length_take]
  omega

/-- The bytes of a text are counted before they are looked at. -/
lemma needs_readText {t : String} (h : (Text.utf8 t).length ≤ 65535) :
    Needs readText (textImage t) := by
  have hlength : (UInt16.ofNat (Text.utf8 t).length).toNat = (Text.utf8 t).length :=
    UInt16.toNat_ofNat_of_lt' (Nat.lt_succ_of_le h)
  refine (needs_readWord _).bind (fun rest => readWord_append rest _) (Needs.andThen ?_ _)
  rw [hlength]
  exact needs_readBytes _

lemma needs_readSegmentId (o : ObjectCode) (id : SegmentId) :
    Needs (readSegmentId o) [id.number] :=
  (needs_readByte id.number).andThen _

lemma needs_readSegment {o : ObjectCode} {id : SegmentId} {s : Segment} (hid : o.get? id = none)
    (hs : s.Countable) : Needs (readSegment o) (segmentImage id s) := by
  obtain ⟨hname, hsize⟩ := hs
  have hlength : (UInt16.ofNat s.size).toNat = s.bytes.toList.length :=
    UInt16.toNat_ofNat_of_lt' (Nat.lt_succ_of_le hsize)
  have himage : segmentImage id s = [id.number] ++ (textImage s.name ++ (wordBytes s.offset ++
      (wordBytes (UInt16.ofNat s.size) ++ s.bytes.toList))) := by
    simp [segmentImage, lengthImage]
  rw [himage]
  refine (needs_readSegmentId o id).bind (fun rest => readSegmentId_number rest hid) ?_
  refine (needs_readText hname).bind (fun rest => readText_append rest hname) ?_
  refine (needs_readWord _).bind (fun rest => readWord_append rest _) ?_
  refine (needs_readWord _).bind (fun rest => readWord_append rest _) (Needs.andThen ?_ _)
  rw [hlength]
  exact needs_readBytes _

/-- Records of segments with identifiers of their own are wanted one after the other. -/
lemma needs_readSegments {entries : List (SegmentId × Segment)} {o : ObjectCode}
    (hids : (entries.map Prod.fst).Nodup) (hnew : ∀ entry ∈ entries, o.get? entry.1 = none)
    (hs : ∀ entry ∈ entries, entry.2.Countable) :
    Needs (readSegments entries.length o) (segmentImages entries) := by
  induction entries generalizing o with
  | nil =>
    intro n hn
    cases hn
  | cons entry entries ih =>
    have hnew' := get?_put_eq_none hids hnew
    rw [List.forall_mem_cons] at hnew hs
    rw [List.map_cons, List.nodup_cons] at hids
    exact (needs_readSegment hnew.1 hs.1).bind (fun rest => readSegment_append rest hnew.1 hs.1)
      (ih hids.2 hnew' hs.2)

/-! ### Files -/

/-- Reading wants all bytes of an image. -/
lemma needs_readImage {o : ObjectCode} (h : o.Countable) : Needs readImage (image o) := by
  obtain ⟨hname, hsegments⟩ := h
  have hcount : (UInt16.ofNat o.segments.length).toNat = o.segments.length :=
    UInt16.toNat_ofNat_of_lt' (Nat.lt_of_le_of_lt (length_segments_le o) (by decide))
  have himage : image o = magic ++ ([version] ++ (wordBytes (UInt16.ofNat o.segments.length) ++
      (textImage o.moduleName ++ segmentImages o.segments))) := by
    simp [image, lengthImage]
  rw [himage]
  refine (needs_readBytes magic).bind (fun rest => readBytes_append rest rfl) ?_
  simp only [ne_eq, not_true_eq_false, ite_false]
  refine (needs_readByte version).bind (fun rest => rfl) ?_
  simp only [not_true_eq_false, ite_false]
  refine (needs_readWord _).bind (fun rest => readWord_append rest _) ?_
  dsimp only
  refine (needs_readText hname).bind (fun rest => readText_append rest hname) ?_
  rw [hcount]
  exact needs_readSegments (nodup_segments o) (fun _ _ => get?_moduleName _ _) hsegments

/-- A file that was written and then cut off anywhere is reported as truncated. -/
theorem read_take_eq_truncated (o : ObjectCode) (bs : List UInt8) (h : write o = .ok bs) (n : Nat)
    (hn : n < bs.length) : read (bs.take n) = .error .truncated := by
  obtain ⟨hcountable, rfl⟩ := write_eq_ok_iff.mp h
  rw [read, needs_readImage hcountable n hn]
  rfl

/-- A module whose name ends with a character of two bytes, with two segments. -/
def twoSegments : ObjectCode :=
  ((ObjectCode.ofModule "CAÑ").put .code ⟨"CODE", 0x100, #[0xC3, 0x00, 0x01]⟩).put .data
    ⟨"ß", 0x8000, #[1, 2]⟩

/-- The file cut inside the name of the module, between two records and before the last byte. -/
theorem read_take_eq_truncated_of_twoSegments :
    ∃ bs, write twoSegments = .ok bs ∧ bs.length = 37 ∧
      read (bs.take 11) = .error .truncated ∧ read (bs.take 26) = .error .truncated ∧
      read (bs.take 36) = .error .truncated := by
  have hlength : (image twoSegments).length = 37 := by decide +kernel
  have hwrite : write twoSegments = .ok (image twoSegments) :=
    write_eq_ok_iff.mpr ⟨by decide +kernel, rfl⟩
  refine ⟨_, hwrite, hlength, ?_, ?_, ?_⟩
  · exact read_take_eq_truncated _ _ hwrite 11 (by omega)
  · exact read_take_eq_truncated _ _ hwrite 26 (by omega)
  · exact read_take_eq_truncated _ _ hwrite 36 (by omega)

end ObjectFile

end MicroAsm
