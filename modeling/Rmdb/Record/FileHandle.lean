import Mathlib.Tactic.Common
import Rmdb.Record.Bitmap
import Rmdb.Recovery.LogManager

/-!
# Heap files

- `RmPage`, `RmFileHdr` and `RmFile`: a page seen through its page handle, the file header, and an open file with its
  pages and the page number its descriptor allocates next;
- the operations of `rm_file_handle.cpp`, under their names; each one either raises an error and changes nothing or
  returns the new file;
- the buffer pool is transparent: `bpmFetch` returns the page as it was last written, and always finds a frame.
-/

namespace Rmdb

def rmNoPage : Int := -1
def rmFirstRecordPage : Int := 1
def rmMaxRecordSize : Int := 512

structure RmFileHdr where
  recordSize : Int
  numPages : Int
  numRecordsPerPage : Int
  firstFreePageNo : Int
  bitmapSize : Int

/-- The header that `RmManager::create_file` writes; `sizeof(RmFileHdr)` is 20. -/
def RmFileHdr.create (recordSize : Int) : RmFileHdr :=
  let n := (Bitmap.bitmapWidth * (pageSize - 1 - 20) + 1) / (1 + recordSize * Bitmap.bitmapWidth)
  { recordSize := recordSize
    numPages := 1
    numRecordsPerPage := n
    firstFreePageNo := rmNoPage
    bitmapSize := (n + Bitmap.bitmapWidth - 1) / Bitmap.bitmapWidth }

/-- A page has room for at least one record of any size that is allowed. -/
theorem RmFileHdr.create_perPage_pos {recordSize : Int} (h1 : 1 ≤ recordSize) (hle : recordSize ≤ rmMaxRecordSize) :
    0 < (RmFileHdr.create recordSize).numRecordsPerPage := by
  simp only [RmFileHdr.create, Bitmap.bitmapWidth, pageSize, rmMaxRecordSize] at hle ⊢
  exact (Int.le_ediv_iff_mul_le (by omega)).2 (by omega)

/-- A page of a heap file; `slots` holds the bytes of each slot by slot number. -/
structure RmPage where
  pageLsn : Int
  nextFreePageNo : Int
  numRecords : Int
  bitmap : Bitmap
  slots : Int → Bytes

/-- `memcpy` of `size` bytes. -/
def memcpy (buf : Bytes) (size : Int) : Bytes := buf.take size.toNat

/-- A page after `reset_memory`. -/
def RmPage.zero (recordSize : Int) : RmPage where
  pageLsn := 0
  nextFreePageNo := 0
  numRecords := 0
  bitmap := Bitmap.zero
  slots := fun _ => List.replicate recordSize.toNat 0

/-- Set the bit of a slot, copy the record into it and count it. -/
def RmPage.fillSlot (page : RmPage) (recordSize slotNo : Int) (buf : Bytes) : RmPage :=
  { page with
    bitmap := page.bitmap.set slotNo
    slots := Function.update page.slots slotNo (memcpy buf recordSize)
    numRecords := page.numRecords + 1 }

/-- Clear the bit of a slot and count it out. -/
def RmPage.clearSlot (page : RmPage) (slotNo : Int) : RmPage :=
  { page with bitmap := page.bitmap.reset slotNo, numRecords := page.numRecords - 1 }

def RmPage.overwriteSlot (page : RmPage) (recordSize slotNo : Int) (buf : Bytes) : RmPage :=
  { page with slots := Function.update page.slots slotNo (memcpy buf recordSize) }

/-- `set_page_lsn`. -/
def RmPage.stamp (page : RmPage) (lsn : Int) : RmPage := { page with pageLsn := lsn }

/-- The record in a slot. -/
def RmPage.record (page : RmPage) (slotNo : Int) : Option Bytes :=
  if page.bitmap.isSet slotNo then some (page.slots slotNo) else none

/-- What a page says about its records and their lsn. -/
def RmPage.data (page : RmPage) : Int × Bitmap × (Int → Bytes) := (page.pageLsn, page.bitmap, page.slots)

/-- A `Context` whose log manager and transaction are both set. -/
structure Context where
  logMgr : LogManager
  tid : Int
  prevLsn : Int

/-- Append a log record for a write to a page, chain it to the transaction and stamp the page. -/
def logWrite (ctx : Option Context) (body : LogBody) (page : RmPage) : RmPage × Option Context :=
  match ctx with
  | none => (page, none)
  | some c =>
    let (lsn, lm) := c.logMgr.addLogToBuffer c.tid c.prevLsn body
    (page.stamp lsn, some { c with logMgr := lm, prevLsn := lsn })

/-- `RmFileHandle`, with the file's pages and `fd2pageno_` of its descriptor. -/
structure RmFile where
  tabName : TabName
  fileHdr : RmFileHdr
  pages : Int → Option RmPage
  fd2pageno : Int

namespace RmFile

/-- The constructor `RmFileHandle`: read the header and start allocating at `num_pages`. -/
def openFile (tabName : TabName) (hdr : RmFileHdr) (pages : Int → Option RmPage) : RmFile :=
  ⟨tabName, hdr, pages, hdr.numPages⟩

/-- `BufferPoolManager::fetch_page`; reading a page beyond the end of the file fails. -/
def bpmFetch (f : RmFile) (pageNo : Int) : Except RMDBError RmPage :=
  match f.pages pageNo with
  | some page => .ok page
  | none => .error (.internal "DiskManager::read_page Error")

def setPage (f : RmFile) (pageNo : Int) (page : RmPage) : RmFile :=
  { f with pages := Function.update f.pages pageNo (some page) }

def setFirstFree (f : RmFile) (pageNo : Int) : RmFile :=
  { f with fileHdr := { f.fileHdr with firstFreePageNo := pageNo } }

/-- `BufferPoolManager::new_page`: a zeroed frame under the descriptor's next page number. -/
def newPage (f : RmFile) : Int × RmPage × RmFile :=
  (f.fd2pageno, RmPage.zero f.fileHdr.recordSize, { f with fd2pageno := f.fd2pageno + 1 })

def fetchPageHandle (f : RmFile) (pageNo : Int) : Except RMDBError RmPage :=
  if pageNo ≥ f.fileHdr.numPages ∨ pageNo < 0 then .error (.pageNotExist "" pageNo) else f.bpmFetch pageNo

def createNewPageHandle (f : RmFile) : Int × RmPage × RmFile :=
  let (pageNo, page, f) := f.newPage
  let page := { page with
    bitmap := page.bitmap.init f.fileHdr.bitmapSize
    numRecords := 0
    nextFreePageNo := rmNoPage }
  (pageNo, page, { f with fileHdr := { f.fileHdr with numPages := f.fileHdr.numPages + 1 } })

def createPageHandle (f : RmFile) : Except RMDBError (Int × RmPage × RmFile) :=
  if f.fileHdr.firstFreePageNo = rmNoPage then .ok f.createNewPageHandle
  else (f.fetchPageHandle f.fileHdr.firstFreePageNo).map (f.fileHdr.firstFreePageNo, ·, f)

/-- Put a page that has a free slot again at the head of the free-page chain. -/
def releasePageHandle (f : RmFile) (pageNo : Int) (page : RmPage) : RmPage × RmFile :=
  ({ page with nextFreePageNo := f.fileHdr.firstFreePageNo }, f.setFirstFree pageNo)

def isRecord (f : RmFile) (rid : Rid) : Except RMDBError Bool :=
  (f.fetchPageHandle rid.pageNo).map (·.bitmap.isSet rid.slotNo)

def getRecord (f : RmFile) (rid : Rid) : Except RMDBError Bytes := do
  let page ← f.fetchPageHandle rid.pageNo
  if page.bitmap.isSet rid.slotNo then return memcpy (page.slots rid.slotNo) f.fileHdr.recordSize
  else throw (.recordNotFound rid.pageNo rid.slotNo)

/-- `insert_record(buf)`: into the first free slot of the first free page, or of a new one. -/
def insertRecord (f : RmFile) (buf : Bytes) (ctx : Option Context) :
    Except RMDBError (Rid × RmFile × Option Context) := do
  let (pageNo, page, f) ← f.createPageHandle
  let slotNo := page.bitmap.firstBit false f.fileHdr.numRecordsPerPage
  let page := page.fillSlot f.fileHdr.recordSize slotNo buf
  let f := if page.numRecords = f.fileHdr.numRecordsPerPage then f.setFirstFree page.nextFreePageNo else f
  let rid : Rid := ⟨pageNo, slotNo⟩
  let (page, ctx) := logWrite ctx (.insert (memcpy buf f.fileHdr.recordSize) rid f.tabName) page
  return (rid, f.setPage pageNo page, ctx)

/-- `insert_record(rid, buf)`: an occupied slot is left alone, and neither the chain nor the log is touched. -/
def insertRecordAt (f : RmFile) (rid : Rid) (buf : Bytes) : Except RMDBError RmFile := do
  let page ← f.fetchPageHandle rid.pageNo
  if page.bitmap.isSet rid.slotNo then return f
  else return f.setPage rid.pageNo (page.fillSlot f.fileHdr.recordSize rid.slotNo buf)

def deleteRecord (f : RmFile) (rid : Rid) (ctx : Option Context) : Except RMDBError (RmFile × Option Context) := do
  let page ← f.fetchPageHandle rid.pageNo
  if page.bitmap.isSet rid.slotNo then
    let old := memcpy (page.slots rid.slotNo) f.fileHdr.recordSize
    let (page, ctx) := logWrite ctx (.delete old rid f.tabName) page
    let page := page.clearSlot rid.slotNo
    if page.numRecords = f.fileHdr.numRecordsPerPage - 1 then
      let (page, f) := f.releasePageHandle rid.pageNo page
      return (f.setPage rid.pageNo page, ctx)
    else return (f.setPage rid.pageNo page, ctx)
  else throw (.recordNotFound rid.pageNo rid.slotNo)

def updateRecord (f : RmFile) (rid : Rid) (buf : Bytes) (ctx : Option Context) :
    Except RMDBError (RmFile × Option Context) := do
  let page ← f.fetchPageHandle rid.pageNo
  if page.bitmap.isSet rid.slotNo then
    let old := memcpy (page.slots rid.slotNo) f.fileHdr.recordSize
    let new := memcpy buf f.fileHdr.recordSize
    let (page, ctx) := logWrite ctx (.update old new rid f.tabName) page
    return (f.setPage rid.pageNo (page.overwriteSlot f.fileHdr.recordSize rid.slotNo buf), ctx)
  else throw (.recordNotFound rid.pageNo rid.slotNo)

end RmFile

/-! ## Logging a write -/

/-- The lsn that `logWrite` leaves on a page. -/
def stampLsn (ctx : Option Context) (old : Int) : Int := (ctx.map (·.logMgr.globalLsn)).getD old

/-- The context after `logWrite`. -/
def appendLog (ctx : Option Context) (body : LogBody) : Option Context :=
  ctx.map fun c =>
    { c with logMgr := (c.logMgr.addLogToBuffer c.tid c.prevLsn body).2, prevLsn := c.logMgr.globalLsn }

@[simp] theorem logWrite_fst (ctx : Option Context) (body : LogBody) (page : RmPage) :
    (logWrite ctx body page).1 = page.stamp (stampLsn ctx page.pageLsn) := by
  cases ctx <;> simp [logWrite, stampLsn, RmPage.stamp]

@[simp] theorem logWrite_snd (ctx : Option Context) (body : LogBody) (page : RmPage) :
    (logWrite ctx body page).2 = appendLog ctx body := by
  cases ctx <;> simp [logWrite, appendLog]

/-! ## Records of a page -/

namespace RmPage

variable (page : RmPage) (recordSize slotNo s lsn : Int) (buf : Bytes)

theorem record_fillSlot : (page.fillSlot recordSize slotNo buf).record s =
    if s = slotNo then some (memcpy buf recordSize) else page.record s := by
  by_cases h : s = slotNo
  · simp [record, fillSlot, h]
  · simp [record, fillSlot, h, Bitmap.isSet_set_of_ne]

theorem record_clearSlot : (page.clearSlot slotNo).record s = if s = slotNo then none else page.record s := by
  by_cases h : s = slotNo
  · simp [record, clearSlot, h]
  · simp [record, clearSlot, h, Bitmap.isSet_reset_of_ne]

variable {slotNo} in
theorem record_overwriteSlot (hset : page.bitmap.isSet slotNo = true) :
    (page.overwriteSlot recordSize slotNo buf).record s =
      if s = slotNo then some (memcpy buf recordSize) else page.record s := by
  by_cases h : s = slotNo
  · simp [record, overwriteSlot, h, hset]
  · simp [record, overwriteSlot, h]

@[simp] theorem record_stamp : (page.stamp lsn).record s = page.record s := rfl

/-- A page that `create_new_page_handle` has initialised. -/
def fresh : RmPage := { zero recordSize with nextFreePageNo := rmNoPage }

@[simp] theorem record_fresh : (fresh recordSize).record s = none := by simp [record, fresh, zero]

theorem record_eq_none : page.record s = none ↔ page.bitmap.isSet s = false := by
  simp [record]

end RmPage

/-! ## What each operation does -/

namespace RmFile

/-- The record at a rid of the file. -/
def recordAt (f : RmFile) (rid : Rid) : Option Bytes :=
  if 1 ≤ rid.pageNo ∧ rid.pageNo < f.fileHdr.numPages then (f.pages rid.pageNo).bind (·.record rid.slotNo) else none

/-- The lsn of a page; a page that is still to be created counts as zeroed. -/
def lsnAt (f : RmFile) (pageNo : Int) : Int :=
  if pageNo < f.fileHdr.numPages then ((f.pages pageNo).map (·.pageLsn)).getD 0 else 0

/-- A file whose pages are all there. -/
structure Present (f : RmFile) : Prop where
  perPage : 0 < f.fileHdr.numRecordsPerPage
  numPages : 1 ≤ f.fileHdr.numPages
  page : ∀ p, 1 ≤ p → p < f.fileHdr.numPages → ∃ page, f.pages p = some page

/-- The descriptor allocates the next page of the file. -/
structure Ready (f : RmFile) : Prop extends Present f where
  alloc : f.fd2pageno = f.fileHdr.numPages

/-- The parts of a file that no operation changes. -/
structure SameShape (f f' : RmFile) : Prop where
  tabName : f'.tabName = f.tabName
  recordSize : f'.fileHdr.recordSize = f.fileHdr.recordSize
  perPage : f'.fileHdr.numRecordsPerPage = f.fileHdr.numRecordsPerPage

/-- `f'` is `f` with the record at `rid` replaced by `r` and its page stamped with `lsn`. -/
structure Wrote (f f' : RmFile) (rid : Rid) (lsn : Int) (r : Option Bytes) : Prop extends SameShape f f' where
  numPages : f'.fileHdr.numPages = max f.fileHdr.numPages (rid.pageNo + 1)
  recordAt : ∀ ρ, f'.recordAt ρ = if ρ = rid then r else f.recordAt ρ
  lsnAt : ∀ p, 1 ≤ p → f'.lsnAt p = if p = rid.pageNo then lsn else f.lsnAt p
  ready : f.Ready → f'.Ready

variable {f f' : RmFile} {rid : Rid} {buf : Bytes} {ctx ctx' : Option Context} {page : RmPage} {pageNo : Int}

@[simp] theorem setPage_fileHdr : (f.setPage pageNo page).fileHdr = f.fileHdr := rfl
@[simp] theorem setPage_fd2pageno : (f.setPage pageNo page).fd2pageno = f.fd2pageno := rfl
@[simp] theorem setPage_pages : (f.setPage pageNo page).pages = Function.update f.pages pageNo (some page) := rfl
@[simp] theorem setFirstFree_pages : (f.setFirstFree pageNo).pages = f.pages := rfl
@[simp] theorem setFirstFree_fd2pageno : (f.setFirstFree pageNo).fd2pageno = f.fd2pageno := rfl

theorem fetchPageHandle_eq_ok : f.fetchPageHandle pageNo = .ok page ↔
    0 ≤ pageNo ∧ pageNo < f.fileHdr.numPages ∧ f.pages pageNo = some page := by
  unfold fetchPageHandle bpmFetch
  split
  · next h => simp; omega
  · next h =>
    have hrange : 0 ≤ pageNo ∧ pageNo < f.fileHdr.numPages := by omega
    cases f.pages pageNo <;> simp [hrange]

/-- The file with one page more. -/
def grow (f : RmFile) : RmFile :=
  { f with
    fileHdr := { f.fileHdr with numPages := f.fileHdr.numPages + 1 }
    fd2pageno := f.fd2pageno + 1 }

@[simp] theorem grow_pages : f.grow.pages = f.pages := rfl
@[simp] theorem grow_tabName : f.grow.tabName = f.tabName := rfl
@[simp] theorem grow_fd2pageno : f.grow.fd2pageno = f.fd2pageno + 1 := rfl
@[simp] theorem grow_numPages : f.grow.fileHdr.numPages = f.fileHdr.numPages + 1 := rfl
@[simp] theorem grow_perPage : f.grow.fileHdr.numRecordsPerPage = f.fileHdr.numRecordsPerPage := rfl
@[simp] theorem grow_recordSize : f.grow.fileHdr.recordSize = f.fileHdr.recordSize := rfl

theorem createNewPageHandle_eq :
    f.createNewPageHandle = (f.fd2pageno, RmPage.fresh f.fileHdr.recordSize, f.grow) := by
  simp [createNewPageHandle, newPage, RmPage.fresh, RmPage.zero, grow]

/-- The page that `insert_record(buf)` fills is the first of the chain, or a new one. -/
theorem insertRecord_eq {f₁ : RmFile} (buf : Bytes) (ctx : Option Context) (h : f.createPageHandle = .ok (pageNo, page, f₁)) :
    let slotNo := page.bitmap.firstBit false f₁.fileHdr.numRecordsPerPage
    let filled := (page.fillSlot f₁.fileHdr.recordSize slotNo buf).stamp (stampLsn ctx page.pageLsn)
    f.insertRecord buf ctx = .ok (⟨pageNo, slotNo⟩,
      (if page.numRecords + 1 = f₁.fileHdr.numRecordsPerPage then f₁.setFirstFree page.nextFreePageNo
        else f₁).setPage pageNo filled,
      appendLog ctx (.insert (memcpy buf f₁.fileHdr.recordSize) ⟨pageNo, slotNo⟩ f₁.tabName)) := by
  simp only [insertRecord, h, bind, Except.bind, logWrite_fst, logWrite_snd, pure, Except.pure]
  split <;> simp_all [RmPage.fillSlot, RmPage.stamp, setFirstFree]

theorem insertRecordAt_eq (buf : Bytes) (h : f.fetchPageHandle rid.pageNo = .ok page) :
    f.insertRecordAt rid buf = .ok (if page.bitmap.isSet rid.slotNo then f
      else f.setPage rid.pageNo (page.fillSlot f.fileHdr.recordSize rid.slotNo buf)) := by
  simp only [insertRecordAt, h, bind, Except.bind, pure, Except.pure]
  split <;> rfl

/-- A page that was full is put at the head of the chain. -/
theorem deleteRecord_eq (ctx : Option Context) (h : f.fetchPageHandle rid.pageNo = .ok page) (hset : page.bitmap.isSet rid.slotNo = true) :
    let cleared := (page.clearSlot rid.slotNo).stamp (stampLsn ctx page.pageLsn)
    f.deleteRecord rid ctx = .ok (
      (if page.numRecords = f.fileHdr.numRecordsPerPage then
        (f.setFirstFree rid.pageNo).setPage rid.pageNo { cleared with nextFreePageNo := f.fileHdr.firstFreePageNo }
      else f.setPage rid.pageNo cleared),
      appendLog ctx (.delete (memcpy (page.slots rid.slotNo) f.fileHdr.recordSize) rid f.tabName)) := by
  simp only [deleteRecord, h, bind, Except.bind, hset, if_true, logWrite_fst, logWrite_snd, pure, Except.pure,
    RmPage.clearSlot, RmPage.stamp, releasePageHandle]
  by_cases hfull : page.numRecords = f.fileHdr.numRecordsPerPage
  · simp [hfull]
  · simp [hfull, show page.numRecords - 1 ≠ f.fileHdr.numRecordsPerPage - 1 by omega]

theorem updateRecord_eq (buf : Bytes) (ctx : Option Context) (h : f.fetchPageHandle rid.pageNo = .ok page) (hset : page.bitmap.isSet rid.slotNo = true) :
    f.updateRecord rid buf ctx = .ok (
      f.setPage rid.pageNo ((page.overwriteSlot f.fileHdr.recordSize rid.slotNo buf).stamp
        (stampLsn ctx page.pageLsn)),
      appendLog ctx (.update (memcpy (page.slots rid.slotNo) f.fileHdr.recordSize)
        (memcpy buf f.fileHdr.recordSize) rid f.tabName)) := by
  simp [updateRecord, h, bind, Except.bind, hset, pure, Except.pure, RmPage.overwriteSlot, RmPage.stamp]

/-- Only an empty slot makes `delete_record` or `update_record` of an existing page fail. -/
theorem deleteRecord_error (h : f.fetchPageHandle rid.pageNo = .ok page) (hclear : page.bitmap.isSet rid.slotNo = false) :
    f.deleteRecord rid ctx = .error (.recordNotFound rid.pageNo rid.slotNo) := by
  simp [deleteRecord, h, bind, Except.bind, hclear, throw, throwThe, MonadExceptOf.throw]

theorem updateRecord_error (h : f.fetchPageHandle rid.pageNo = .ok page) (hclear : page.bitmap.isSet rid.slotNo = false) :
    f.updateRecord rid buf ctx = .error (.recordNotFound rid.pageNo rid.slotNo) := by
  simp [updateRecord, h, bind, Except.bind, hclear, throw, throwThe, MonadExceptOf.throw]

theorem deleteRecord_ok {r : RmFile × Option Context} (hok : f.deleteRecord rid ctx = .ok r) :
    ∃ page, f.fetchPageHandle rid.pageNo = .ok page ∧ page.bitmap.isSet rid.slotNo = true := by
  cases h : f.fetchPageHandle rid.pageNo with
  | error e => simp [deleteRecord, h, bind, Except.bind] at hok
  | ok page =>
    refine ⟨page, rfl, ?_⟩
    by_contra hclear
    rw [deleteRecord_error h (by simpa using hclear)] at hok
    cases hok

theorem updateRecord_ok {r : RmFile × Option Context} (hok : f.updateRecord rid buf ctx = .ok r) :
    ∃ page, f.fetchPageHandle rid.pageNo = .ok page ∧ page.bitmap.isSet rid.slotNo = true := by
  cases h : f.fetchPageHandle rid.pageNo with
  | error e => simp [updateRecord, h, bind, Except.bind] at hok
  | ok page =>
    refine ⟨page, rfl, ?_⟩
    by_contra hclear
    rw [updateRecord_error h (by simpa using hclear)] at hok
    cases hok

theorem insertRecordAt_ok (hok : f.insertRecordAt rid buf = .ok f') :
    ∃ page, f.fetchPageHandle rid.pageNo = .ok page := by
  cases h : f.fetchPageHandle rid.pageNo with
  | error e => simp [insertRecordAt, h, bind, Except.bind] at hok
  | ok page => exact ⟨page, rfl⟩

/-- A page beyond the end of the file holds no record. -/
theorem recordAt_of_le {ρ : Rid} (h : f.fileHdr.numPages ≤ ρ.pageNo) : f.recordAt ρ = none := by
  have : ¬ ρ.pageNo < f.fileHdr.numPages := by omega
  simp [recordAt, this]

theorem ready_setPage (hf : f.Ready) (pageNo : Int) (page : RmPage) : (f.setPage pageNo page).Ready := by
  refine ⟨⟨hf.perPage, hf.numPages, fun p h1 hlt => ?_⟩, hf.alloc⟩
  by_cases hp : p = pageNo
  · exact ⟨page, by simp [hp]⟩
  · simpa [Function.update_of_ne hp] using hf.page p h1 hlt

section newPage
variable (hf : f.Ready)
include hf

theorem recordAt_grow (page : RmPage) (ρ : Rid) : (f.grow.setPage f.fd2pageno page).recordAt ρ =
    if ρ.pageNo = f.fd2pageno then page.record ρ.slotNo else f.recordAt ρ := by
  have hnp := hf.numPages
  have hal := hf.alloc
  by_cases hρ : ρ.pageNo = f.fd2pageno
  · have h1 : 1 ≤ f.fileHdr.numPages := hnp
    simp [recordAt, hρ, hal, h1]
  · have hiff : ρ.pageNo < f.fileHdr.numPages + 1 ↔ ρ.pageNo < f.fileHdr.numPages := by omega
    simp [recordAt, hρ, hiff]

theorem lsnAt_grow (page : RmPage) (p : Int) : (f.grow.setPage f.fd2pageno page).lsnAt p =
    if p = f.fd2pageno then page.pageLsn else f.lsnAt p := by
  have hal := hf.alloc
  by_cases hp : p = f.fd2pageno
  · simp [lsnAt, hp, hal]
  · have hiff : p < f.fileHdr.numPages + 1 ↔ p < f.fileHdr.numPages := by omega
    simp [lsnAt, hp, hiff]

theorem ready_grow (page : RmPage) : (f.grow.setPage f.fd2pageno page).Ready := by
  have hnp := hf.numPages
  have hal := hf.alloc
  refine ⟨⟨hf.perPage, by simp only [setPage_fileHdr, grow_numPages]; omega, fun p h1 hlt => ?_⟩, by simp [hal]⟩
  by_cases hp : p = f.fd2pageno
  · exact ⟨page, by simp [hp]⟩
  · simp only [setPage_fileHdr, grow_numPages] at hlt
    simpa [Function.update_of_ne hp] using hf.page p h1 (by omega)

/-- A new page whose only record is in one slot. -/
theorem wrote_of_grow {slotNo : Int} {r : Option Bytes} (page : RmPage)
    (hr : ∀ s, page.record s = if s = slotNo then r else none) :
    f.Wrote (f.grow.setPage f.fd2pageno page) ⟨f.fd2pageno, slotNo⟩ page.pageLsn r where
  tabName := rfl
  recordSize := rfl
  perPage := rfl
  numPages := by
    have hal := hf.alloc
    simp only [setPage_fileHdr, grow_numPages]
    omega
  recordAt ρ := by
    rw [recordAt_grow hf]
    by_cases hρ : ρ.pageNo = f.fd2pageno
    · have hiff : ρ = ⟨f.fd2pageno, slotNo⟩ ↔ ρ.slotNo = slotNo := by
        cases ρ
        simp_all
      have hnone : f.recordAt ρ = none := recordAt_of_le (by rw [hρ, hf.alloc])
      simp [hρ, hr, hiff, hnone]
    · have hne : ρ ≠ ⟨f.fd2pageno, slotNo⟩ := fun he => hρ (by rw [he])
      simp [hρ, hne]
  lsnAt p _ := lsnAt_grow hf page p
  ready _ := ready_grow hf page

end newPage

section wrote
variable (rid) (h1 : 1 ≤ rid.pageNo) (h : f.fetchPageHandle rid.pageNo = .ok page)
include h1 h

theorem recordAt_of_fetch (s : Int) : f.recordAt ⟨rid.pageNo, s⟩ = page.record s := by
  obtain ⟨_, hlt, hp⟩ := fetchPageHandle_eq_ok.1 h
  simp [recordAt, h1, hlt, hp]

/-- Storing a page that differs from the fetched one in one slot. -/
theorem wrote_of_setPage {f₁ : RmFile} {page' : RmPage} {r : Option Bytes} (hs : f.SameShape f₁)
    (hnp : f₁.fileHdr.numPages = f.fileHdr.numPages) (hal : f₁.fd2pageno = f.fd2pageno) (hp : f₁.pages = f.pages)
    (hr : ∀ s, page'.record s = if s = rid.slotNo then r else page.record s) :
    f.Wrote (f₁.setPage rid.pageNo page') rid page'.pageLsn r where
  tabName := hs.tabName
  recordSize := hs.recordSize
  perPage := hs.perPage
  numPages := by
    have := (fetchPageHandle_eq_ok.1 h).2.1
    simp only [setPage_fileHdr, hnp]
    omega
  recordAt ρ := by
    obtain ⟨-, hlt, hpage⟩ := fetchPageHandle_eq_ok.1 h
    by_cases hρ : ρ.pageNo = rid.pageNo
    · have hiff : ρ = rid ↔ ρ.slotNo = rid.slotNo := by
        cases ρ
        cases rid
        simp_all
      simp [recordAt, hρ, hnp, h1, hlt, hr, hiff, hpage]
    · have hne : ρ ≠ rid := fun he => hρ (by rw [he])
      simp [recordAt, Function.update_of_ne hρ, hp, hnp, hne]
  lsnAt p h1p := by
    by_cases hpe : p = rid.pageNo
    · have hlt := (fetchPageHandle_eq_ok.1 h).2.1
      simp [lsnAt, hpe, hnp, hlt]
    · simp [lsnAt, hp, hnp, hpe]
  ready hf := by
    refine ⟨⟨?_, ?_, fun p h1p hlt => ?_⟩, ?_⟩
    · simpa [hs.perPage] using hf.perPage
    · simpa [hnp] using hf.numPages
    · by_cases hpe : p = rid.pageNo
      · exact ⟨page', by simp [hpe]⟩
      · simp only [setPage_fileHdr, hnp] at hlt
        simpa [Function.update_of_ne hpe, hp] using hf.page p h1p hlt
    · simpa [hnp, hal] using hf.alloc

theorem insertRecordAt_wrote (buf : Bytes) (hclear : page.bitmap.isSet rid.slotNo = false) :
    ∃ f', f.insertRecordAt rid buf = .ok f' ∧
      f.Wrote f' rid page.pageLsn (some (memcpy buf f.fileHdr.recordSize)) := by
  refine ⟨f.setPage rid.pageNo (page.fillSlot f.fileHdr.recordSize rid.slotNo buf),
    by simp [insertRecordAt_eq buf h, hclear], ?_⟩
  exact wrote_of_setPage rid h1 h ⟨rfl, rfl, rfl⟩ rfl rfl rfl fun s => page.record_fillSlot _ _ s buf

theorem deleteRecord_wrote (ctx : Option Context) (hset : page.bitmap.isSet rid.slotNo = true) :
    ∃ f', f.deleteRecord rid ctx = .ok (f', appendLog ctx
        (.delete (memcpy (page.slots rid.slotNo) f.fileHdr.recordSize) rid f.tabName)) ∧
      f.Wrote f' rid (stampLsn ctx page.pageLsn) none := by
  refine ⟨_, deleteRecord_eq ctx h hset, ?_⟩
  split
  · exact wrote_of_setPage rid h1 h ⟨rfl, rfl, rfl⟩ rfl rfl rfl fun s => page.record_clearSlot _ s
  · exact wrote_of_setPage rid h1 h ⟨rfl, rfl, rfl⟩ rfl rfl rfl fun s => page.record_clearSlot _ s

theorem updateRecord_wrote (buf : Bytes) (ctx : Option Context) (hset : page.bitmap.isSet rid.slotNo = true) :
    ∃ f', f.updateRecord rid buf ctx = .ok (f', appendLog ctx
        (.update (memcpy (page.slots rid.slotNo) f.fileHdr.recordSize) (memcpy buf f.fileHdr.recordSize)
          rid f.tabName)) ∧
      f.Wrote f' rid (stampLsn ctx page.pageLsn) (some (memcpy buf f.fileHdr.recordSize)) := by
  refine ⟨_, updateRecord_eq buf ctx h hset, ?_⟩
  exact wrote_of_setPage rid h1 h ⟨rfl, rfl, rfl⟩ rfl rfl rfl fun s => page.record_overwriteSlot _ s buf hset

end wrote

end RmFile

end Rmdb
