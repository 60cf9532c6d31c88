import Rmdb.Recovery.LogFile

/-!
# The header of an index file

- `IxFileHdr` with `serialize` and `deserialize`: the layout of `ix_defs.h`. The header is written with its own length
  and read as one page;
- `IxFileHdr.deserialize_serialize`: a header whose fields fit their types is read back, whatever follows it, as long as
  the page reaches that far.
-/

namespace Rmdb

open Lib Lib.Reader LogRecord

/-- The number of an enumerator. -/
def ColType.code : ColType → Int
  | .int => 0
  | .float => 1
  | .string => 2
  | .bigint => 3
  | .datetime => 4

/-- The enumerator of a number. -/
def ColType.ofCode (n : Int) : Option ColType := [.int, .float, .string, .bigint, .datetime].find? (·.code = n)

theorem ColType.ofCode_code (type : ColType) : ofCode type.code = some type := by cases type <;> rfl

theorem ColType.isInt_code (type : ColType) : IsInt type.code := by cases type <;> decide

/-- `btree_order_` is positive in every header (`create_index` asserts it). -/
structure IxFileHdr where
  firstFreePageNo : Int
  numPages : Int
  rootPage : Int
  colNum : Int
  colTypes : List ColType
  colLens : List Int
  colTotLen : Int
  btreeOrder : Nat
  keysSize : Int
  firstLeaf : Int
  lastLeaf : Int
  totLen : Int
  deriving DecidableEq

namespace IxFileHdr

/-- `update_tot_len`. -/
def updateTotLen (hdr : IxFileHdr) : IxFileHdr :=
  { hdr with totLen := 4 * 4 + 4 * 6 + (4 * hdr.colNum + 4 * hdr.colNum) }

/-- `serialize`, up to its assertion. -/
def serialize (hdr : IxFileHdr) : Bytes :=
  intBytes hdr.totLen ++ (intBytes hdr.firstFreePageNo ++ (intBytes hdr.numPages ++ (intBytes hdr.rootPage ++
    (intBytes hdr.colNum ++
      ((hdr.colTypes.take hdr.colNum.toNat).flatMap (intBytes ·.code) ++
        ((hdr.colLens.take hdr.colNum.toNat).flatMap intBytes ++
          (intBytes hdr.colTotLen ++ (intBytes hdr.btreeOrder ++ (intBytes hdr.keysSize ++
            (intBytes hdr.firstLeaf ++ intBytes hdr.lastLeaf))))))))))

/-- An enumerator in the header. -/
def colType : Reader UInt8 ColType := do
  let n ← int
  match ColType.ofCode n with
  | some type => return type
  | none => failure

/-- The fields, in the order of `deserialize`. -/
def fields : Reader UInt8 IxFileHdr := do
  let totLen ← int
  let firstFreePageNo ← int
  let numPages ← int
  let rootPage ← int
  let colNum ← int
  let colTypes ← many colType colNum.toNat
  let colLens ← many int colNum.toNat
  let colTotLen ← int
  let btreeOrder ← int
  let keysSize ← int
  let firstLeaf ← int
  let lastLeaf ← int
  return ⟨firstFreePageNo, numPages, rootPage, colNum, colTypes, colLens, colTotLen, btreeOrder.toNat, keysSize,
    firstLeaf, lastLeaf, totLen⟩

/-- `deserialize` into a new header, with its assertion; nothing beyond `src` can be read. -/
def deserialize (src : Bytes) : Option IxFileHdr :=
  match fields.run src with
  | some (hdr, rest) => if ((src.length - rest.length : Nat) : Int) = hdr.totLen then some hdr else none
  | none => none

/-! ## The round trip -/

/-- The fields are values of their types, and the vectors and `tot_len_` follow `col_num_`. -/
structure Typed (hdr : IxFileHdr) : Prop where
  totLen : hdr.totLen = 40 + 8 * hdr.colNum
  colTypes : (hdr.colTypes.length : Int) = hdr.colNum
  colLens : (hdr.colLens.length : Int) = hdr.colNum
  totLen_int : IsInt hdr.totLen
  firstFreePageNo : IsInt hdr.firstFreePageNo
  numPages : IsInt hdr.numPages
  rootPage : IsInt hdr.rootPage
  lens : ∀ len ∈ hdr.colLens, IsInt len
  colTotLen : IsInt hdr.colTotLen
  btreeOrder : IsInt hdr.btreeOrder
  keysSize : IsInt hdr.keysSize
  firstLeaf : IsInt hdr.firstLeaf
  lastLeaf : IsInt hdr.lastLeaf

theorem length_flatMap_intBytes {α : Type} (f : α → Int) (as : List α) :
    (as.flatMap fun a => intBytes (f a)).length = 4 * as.length := by
  induction as with
  | nil => rfl
  | cons a as ih =>
    rw [List.flatMap_cons, List.length_append, length_intBytes, ih, List.length_cons]
    omega

section codec
variable {hdr : IxFileHdr}

theorem Typed.take_colTypes (h : hdr.Typed) : hdr.colTypes.take hdr.colNum.toNat = hdr.colTypes := by
  apply List.take_of_length_le
  have := h.colTypes
  omega

theorem Typed.take_colLens (h : hdr.Typed) : hdr.colLens.take hdr.colNum.toNat = hdr.colLens := by
  apply List.take_of_length_le
  have := h.colLens
  omega

/-- **The header has the length it states.** -/
theorem Typed.length_serialize (h : hdr.Typed) : (hdr.serialize.length : Int) = hdr.totLen := by
  have h1 := length_flatMap_intBytes ColType.code hdr.colTypes
  have h2 := length_flatMap_intBytes (fun len : Int => len) hdr.colLens
  have h3 := h.colTypes
  have h4 := h.colLens
  simp only [serialize, h.take_colTypes, h.take_colLens, List.length_append, length_intBytes, h1, h2, h.totLen]
  omega

theorem reads_colType (type : ColType) : Reads colType (intBytes type.code) type := by
  rw [← List.append_nil (intBytes type.code)]
  refine (reads_int type.isInt_code).bind ?_
  rw [ColType.ofCode_code]
  exact Reads.pure type

theorem Typed.reads_fields (h : hdr.Typed) : Reads fields hdr.serialize hdr := by
  have htypes : Reads (many colType hdr.colNum.toNat) (hdr.colTypes.flatMap fun t => intBytes t.code) hdr.colTypes := by
    have hmany : Reads (many colType hdr.colTypes.length) (hdr.colTypes.flatMap fun t => intBytes t.code) hdr.colTypes :=
      Reads.many fun t _ => reads_colType t
    rwa [← Int.toNat_natCast hdr.colTypes.length, h.colTypes] at hmany
  have hlens : Reads (many int hdr.colNum.toNat) (hdr.colLens.flatMap intBytes) hdr.colLens := by
    have hmany : Reads (many int hdr.colLens.length) (hdr.colLens.flatMap intBytes) hdr.colLens :=
      Reads.many fun len hlen => reads_int (h.lens len hlen)
    rwa [← Int.toNat_natCast hdr.colLens.length, h.colLens] at hmany
  have hcolNum : IsInt hdr.colNum := by
    have h1 := h.totLen
    have h2 := h.totLen_int.1
    have h3 := h.totLen_int.2
    have h4 := h.colTypes
    constructor <;> omega
  unfold serialize fields
  rw [h.take_colTypes, h.take_colLens]
  refine (reads_int h.totLen_int).bind ?_
  refine (reads_int h.firstFreePageNo).bind ?_
  refine (reads_int h.numPages).bind ?_
  refine (reads_int h.rootPage).bind ?_
  refine (reads_int hcolNum).bind ?_
  refine htypes.bind ?_
  refine hlens.bind ?_
  refine (reads_int h.colTotLen).bind ?_
  refine (reads_int h.btreeOrder).bind ?_
  refine (reads_int h.keysSize).bind ?_
  refine (reads_int h.firstLeaf).bind ?_
  have hlast := (reads_int h.lastLeaf).last fun lastLeaf => IxFileHdr.mk hdr.firstFreePageNo hdr.numPages hdr.rootPage
    hdr.colNum hdr.colTypes hdr.colLens hdr.colTotLen (hdr.btreeOrder : Int).toNat hdr.keysSize hdr.firstLeaf lastLeaf
    hdr.totLen
  rwa [Int.toNat_natCast] at hlast

/-- **What was serialized is deserialized**, whatever follows it in the page. -/
theorem Typed.deserialize_serialize (h : hdr.Typed) (rest : Bytes) : deserialize (hdr.serialize ++ rest) = some hdr := by
  have hlen := h.length_serialize
  unfold deserialize
  rw [h.reads_fields rest]
  simp only [List.length_append, Nat.add_sub_cancel]
  rw [if_pos hlen]

end codec

/-- A header is read from no fewer bytes than it states. -/
theorem totLen_le_of_deserialize {src : Bytes} {hdr : IxFileHdr} (h : deserialize src = some hdr) :
    hdr.totLen ≤ src.length := by
  unfold deserialize at h
  split at h
  · next hdr' rest _ =>
    split at h
    · next heq =>
      cases h
      omega
    · cases h
  · cases h

end IxFileHdr

end Rmdb
