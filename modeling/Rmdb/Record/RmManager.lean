import Rmdb.Recovery.LogFile
import Rmdb.Record.FileHandle
import Rmdb.Storage.Directory

/-!
# The record manager

`create_file`, `open_file`, `close_file` and `destroy_file` of `rm_manager.h` on the directory, with the bytes of the
file header. The descriptor that `open` returns is an input, and so are the pages that `close_file` finds dirty in the
buffer pool.
-/

namespace Rmdb

open Lib Lib.Reader LogRecord

def rmFileHdrPage : Int := 0

/-- The struct in memory. -/
def RmFileHdr.bytes (hdr : RmFileHdr) : Bytes :=
  intBytes hdr.recordSize ++ (intBytes hdr.numPages ++ (intBytes hdr.numRecordsPerPage ++
    (intBytes hdr.firstFreePageNo ++ intBytes hdr.bitmapSize)))

def RmFileHdr.fields : Reader UInt8 RmFileHdr := do
  let recordSize ← int
  let numPages ← int
  let numRecordsPerPage ← int
  let firstFreePageNo ← int
  let bitmapSize ← int
  return ⟨recordSize, numPages, numRecordsPerPage, firstFreePageNo, bitmapSize⟩

@[simp] theorem RmFileHdr.length_bytes (hdr : RmFileHdr) : hdr.bytes.length = 20 := by
  simp only [bytes, List.length_append, length_intBytes]

/-- The fields are values of an `int`. -/
structure RmFileHdr.Typed (hdr : RmFileHdr) : Prop where
  recordSize : IsInt hdr.recordSize
  numPages : IsInt hdr.numPages
  numRecordsPerPage : IsInt hdr.numRecordsPerPage
  firstFreePageNo : IsInt hdr.firstFreePageNo
  bitmapSize : IsInt hdr.bitmapSize

theorem RmFileHdr.Typed.reads_bytes {hdr : RmFileHdr} (h : hdr.Typed) : Reads fields hdr.bytes hdr := by
  unfold bytes fields
  refine (reads_int h.recordSize).bind ?_
  refine (reads_int h.numPages).bind ?_
  refine (reads_int h.numRecordsPerPage).bind ?_
  refine (reads_int h.firstFreePageNo).bind ?_
  exact (reads_int h.bitmapSize).last _

/-- Any twenty bytes are taken for a header. -/
theorem RmFileHdr.exists_fields {buf : Bytes} (h : buf.length = 20) : ∃ r, fields.run buf = some r := by
  have hint : ∀ src : Bytes, 4 ≤ src.length → int.run src = some (readInt (src.take 4), src.drop 4) := by
    intro src hsrc
    rw [int, StateT.run_map, run_take hsrc]
    rfl
  unfold fields
  simp only [StateT.run_bind, hint buf (by omega), hint (buf.drop 4) (by simp; omega),
    hint ((buf.drop 4).drop 4) (by simp; omega), hint (((buf.drop 4).drop 4).drop 4) (by simp; omega),
    hint ((((buf.drop 4).drop 4).drop 4).drop 4) (by simp; omega), Option.bind_eq_bind, Option.bind_some]
  exact ⟨_, rfl⟩

/-- The header of a new file fits its fields. -/
theorem RmFileHdr.typed_create {recordSize : Int} (h1 : 1 ≤ recordSize) (hle : recordSize ≤ rmMaxRecordSize) :
    (create recordSize).Typed := by
  have hpos := create_perPage_pos h1 hle
  have hdiv : (create recordSize).numRecordsPerPage ≤ Bitmap.bitmapWidth * (pageSize - 1 - 20) + 1 :=
    Int.ediv_le_self _ (by decide)
  simp only [create, Bitmap.bitmapWidth, pageSize, rmMaxRecordSize] at hpos hdiv hle
  exact {
    recordSize := by
      simp only [create, IsInt]
      omega
    numPages := by
      simp only [create, IsInt]
      omega
    numRecordsPerPage := by
      simp only [create, IsInt, Bitmap.bitmapWidth, pageSize]
      omega
    firstFreePageNo := by
      simp only [create, IsInt, rmNoPage]
      omega
    bitmapSize := by
      simp only [create, IsInt, Bitmap.bitmapWidth, pageSize]
      omega }

namespace RmManager

def createFile (filename : String) (recordSize : Int) (fd : Int) : FsM Unit := do
  if recordSize < 1 ∨ rmMaxRecordSize < recordSize then Act.throw (.thrown (.invalidRecordSize recordSize))
  else do
    FileSys.createFile filename
    FileSys.openFile filename fd
    FileSys.writePage fd rmFileHdrPage (RmFileHdr.create recordSize).bytes
    FileSys.closeFile fd

def destroyFile (filename : String) : FsM Unit := FileSys.destroyFile filename

/-- `open_file` with the constructor of the handle: the header that it reads. -/
def openFile (filename : String) (fd : Int) : FsM RmFileHdr := do
  FileSys.openFile filename fd
  let buf ← FileSys.readPage fd rmFileHdrPage 20
  match RmFileHdr.fields.run buf with
  | none => Act.throw .overrun
  | some (hdr, _) => do
    FileSys.setFd2pageno fd hdr.numPages
    return hdr

/-- `close_file`; `dirty` are the pages of the file that the pool has to write. -/
def closeFile (fd : Int) (hdr : RmFileHdr) (dirty : List (Int × Bytes)) : FsM Unit := do
  FileSys.writePage fd rmFileHdrPage hdr.bytes
  FileSys.writePages fd dirty
  FileSys.closeFile fd

/-! ## A new file -/

section runs
variable {filename : String} {recordSize fd : Int} {s t : FileSys}

/-- What `create_file` accepts, and the file that it leaves. -/
theorem run_createFile (h : (createFile filename recordSize fd).run s = (.ok (), t)) :
    (1 ≤ recordSize ∧ recordSize ≤ rmMaxRecordSize) ∧
      t.Shows ⟨none, filename, (RmFileHdr.create recordSize).bytes⟩ ∧ t.disk.path2fd filename = none := by
  unfold createFile at h
  split at h
  · cases h
  · next hsize =>
    obtain ⟨_, s₁, h₁, h⟩ := Act.run_bind_eq_ok.1 h
    obtain ⟨s₁', h₁', hshow₁, -⟩ := FileSys.leads_createFile (FileSys.absent_of_createFile h₁)
    obtain ⟨_, s₂, h₂, h⟩ := Act.run_bind_eq_ok.1 h
    cases h₁.symm.trans h₁'
    obtain ⟨s₂', h₂', hshow₂⟩ := FileSys.leads_openFile fd hshow₁ (FileSys.closed_of_openFile h₂)
    obtain ⟨_, s₃, h₃, h⟩ := Act.run_bind_eq_ok.1 h
    cases h₂.symm.trans h₂'
    obtain ⟨s₃', h₃', hshow₃⟩ := FileSys.leads_writePage_zero (RmFileHdr.create recordSize).bytes s₂ hshow₂
    cases h₃.symm.trans h₃'
    obtain ⟨t', h₄, hshow₄⟩ := FileSys.leads_closeFile s₃ hshow₃
    have hclosed := FileSys.path2fd_of_closeFile (hshow₃.1 fd rfl) h
    cases h.symm.trans h₄
    exact ⟨by omega, hshow₄, hclosed⟩

/-- A new file is opened with the header it was created with. -/
theorem run_openFile (fd : Int) (h1 : 1 ≤ recordSize) (hle : recordSize ≤ rmMaxRecordSize)
    (hs : s.Shows ⟨none, filename, (RmFileHdr.create recordSize).bytes⟩) (hopen : s.disk.path2fd filename = none) :
    ∃ t, (openFile filename fd).run s = (.ok (RmFileHdr.create recordSize), t) := by
  obtain ⟨u, hu, hshow⟩ := FileSys.leads_openFile fd hs hopen
  have hread := (RmFileHdr.typed_create h1 hle).reads_bytes
  have hrest := hread []
  rw [List.append_nil] at hrest
  have hlen := (RmFileHdr.create recordSize).length_bytes
  obtain ⟨v, hv, hshow⟩ := FileSys.leads_readPage (n := 20) (by omega) u hshow
  rw [List.take_of_length_le (by omega)] at hv
  rw [openFile, rmFileHdrPage, Act.run_bind_of_ok hu, Act.run_bind_of_ok hv]
  simp only [hrest]
  obtain ⟨w, hw, -⟩ := FileSys.leads_setFd2pageno (RmFileHdr.create recordSize).numPages v hshow
  exact ⟨w, Act.run_bind_of_ok hw⟩

end runs

end RmManager

end Rmdb
