import Rmdb.Record.HeapMap

/-!
# Record pages as bytes

- `PageImage`: the words of a page's header and the bytes from its bitmap on, where the slots follow;
- `RmFileHandle`: the operations of `rm_file_handle.cpp` on such pages, the constructor and `is_record` included;
- `Layout`: bitmap and slots of a page lie side by side within it, as the header that `create_file` writes has it;
- `PageImage.page` and `RmFileHandle.file` read an image as a page of `FileHandle`. On slots of the layout every operation
  on images is the one there (`insertRecord_file` and so on).
-/

namespace Rmdb

/-! ## Bytes -/

/-- The bytes from an address on, by distance. -/
abbrev Memory := Int → BitVec 8

namespace Memory

/-- The `n` bytes from `offset`. -/
def read (mem : Memory) (offset : Int) (n : Nat) : Bytes :=
  (List.range n).map fun i : Nat => ⟨mem (offset + i)⟩

/-- `memcpy` to `offset`. -/
def write (mem : Memory) (offset : Int) (data : Bytes) : Memory := fun i =>
  if offset ≤ i ∧ i < offset + data.length then (data.getD (i - offset).toNat 0).toBitVec else mem i

variable {mem : Memory} {offset : Int} {data : Bytes}

theorem write_of_lt {i : Int} (h : i < offset) : mem.write offset data i = mem i := if_neg (by omega)

theorem write_of_le {i : Int} (h : offset + data.length ≤ i) : mem.write offset data i = mem i := if_neg (by omega)

@[simp] theorem length_read (n : Nat) : (mem.read offset n).length = n := by simp [read]

theorem read_congr {mem' : Memory} {n : Nat} (h : ∀ i, offset ≤ i → i < offset + n → mem' i = mem i) :
    mem'.read offset n = mem.read offset n := by
  apply List.map_congr_left
  intro i hi
  have hi := List.mem_range.1 hi
  rw [h (offset + i) (by omega) (by omega)]

theorem read_write_self : (mem.write offset data).read offset data.length = data := by
  apply List.ext_getElem (by simp)
  intro i hi hi'
  simp [read, write, hi']

end Memory

/-! ## Images -/

/-- A page: its lsn, its `RmPageHdr`, and its bytes from `RmPageHandle::bitmap` on. -/
structure PageImage where
  pageLsn : Int
  nextFreePageNo : Int
  numRecords : Int
  bitmap : Memory

namespace PageImage

/-- `reset_memory`. -/
def zero : PageImage := ⟨0, 0, 0, Bitmap.zero⟩

/-- The distance of `RmPageHandle::get_slot` from the bitmap. -/
def slotOffset (hdr : RmFileHdr) (slotNo : Int) : Int := hdr.bitmapSize + slotNo * hdr.recordSize

/-- The bytes that `get_slot` points to. -/
def getSlot (image : PageImage) (hdr : RmFileHdr) (slotNo : Int) : Bytes :=
  image.bitmap.read (slotOffset hdr slotNo) hdr.recordSize.toNat

/-- `Bitmap::set`, then `memcpy` to the slot, then the counter. -/
def fillSlot (image : PageImage) (hdr : RmFileHdr) (slotNo : Int) (buf : Bytes) : PageImage :=
  { image with
    bitmap := Memory.write (Bitmap.set image.bitmap slotNo) (slotOffset hdr slotNo) (memcpy buf hdr.recordSize)
    numRecords := image.numRecords + 1 }

/-- `Bitmap::reset` and the counter. -/
def clearSlot (image : PageImage) (slotNo : Int) : PageImage :=
  { image with bitmap := Bitmap.reset image.bitmap slotNo, numRecords := image.numRecords - 1 }

def overwriteSlot (image : PageImage) (hdr : RmFileHdr) (slotNo : Int) (buf : Bytes) : PageImage :=
  { image with bitmap := image.bitmap.write (slotOffset hdr slotNo) (memcpy buf hdr.recordSize) }

end PageImage

/-- The log record of a write is appended and the image gets its lsn. -/
def logWriteImage (ctx : Option Context) (body : LogBody) (image : PageImage) : PageImage × Option Context :=
  match ctx with
  | none => (image, none)
  | some c =>
    let (lsn, lm) := c.logMgr.addLogToBuffer c.tid c.prevLsn body
    ({ image with pageLsn := lsn }, some { c with logMgr := lm, prevLsn := lsn })

structure RmFileHandle where
  tabName : TabName
  fileHdr : RmFileHdr
  pages : Int → Option PageImage
  fd2pageno : Int

namespace RmFileHandle

def bpmFetch (g : RmFileHandle) (pageNo : Int) : Except RMDBError PageImage :=
  match g.pages pageNo with
  | some image => .ok image
  | none => .error (.internal "DiskManager::read_page Error")

def setPage (g : RmFileHandle) (pageNo : Int) (image : PageImage) : RmFileHandle :=
  { g with pages := Function.update g.pages pageNo (some image) }

def setFirstFree (g : RmFileHandle) (pageNo : Int) : RmFileHandle :=
  { g with fileHdr := { g.fileHdr with firstFreePageNo := pageNo } }

def fetchPageHandle (g : RmFileHandle) (pageNo : Int) : Except RMDBError PageImage :=
  if pageNo ≥ g.fileHdr.numPages ∨ pageNo < 0 then .error (.pageNotExist "" pageNo) else g.bpmFetch pageNo

def createNewPageHandle (g : RmFileHandle) : Int × PageImage × RmFileHandle :=
  let image := { PageImage.zero with
    bitmap := Bitmap.init PageImage.zero.bitmap g.fileHdr.bitmapSize
    numRecords := 0
    nextFreePageNo := rmNoPage }
  (g.fd2pageno, image, { g with
    fileHdr := { g.fileHdr with numPages := g.fileHdr.numPages + 1 }
    fd2pageno := g.fd2pageno + 1 })

def createPageHandle (g : RmFileHandle) : Except RMDBError (Int × PageImage × RmFileHandle) :=
  if g.fileHdr.firstFreePageNo = rmNoPage then .ok g.createNewPageHandle
  else (g.fetchPageHandle g.fileHdr.firstFreePageNo).map (g.fileHdr.firstFreePageNo, ·, g)

def isRecord (g : RmFileHandle) (rid : Rid) : Except RMDBError Bool :=
  (g.fetchPageHandle rid.pageNo).map (Bitmap.isSet ·.bitmap rid.slotNo)

def getRecord (g : RmFileHandle) (rid : Rid) : Except RMDBError Bytes := do
  let image ← g.fetchPageHandle rid.pageNo
  if Bitmap.isSet image.bitmap rid.slotNo then return image.getSlot g.fileHdr rid.slotNo
  else throw (.recordNotFound rid.pageNo rid.slotNo)

/-- `insert_record(buf)`. -/
def insertRecord (g : RmFileHandle) (buf : Bytes) (ctx : Option Context) :
    Except RMDBError (Rid × RmFileHandle × Option Context) := do
  let (pageNo, image, g) ← g.createPageHandle
  let slotNo := Bitmap.firstBit false image.bitmap g.fileHdr.numRecordsPerPage
  let image := image.fillSlot g.fileHdr slotNo buf
  let g := if image.numRecords = g.fileHdr.numRecordsPerPage then g.setFirstFree image.nextFreePageNo else g
  let rid : Rid := ⟨pageNo, slotNo⟩
  let (image, ctx) := logWriteImage ctx (.insert (memcpy buf g.fileHdr.recordSize) rid g.tabName) image
  return (rid, g.setPage pageNo image, ctx)

def deleteRecord (g : RmFileHandle) (rid : Rid) (ctx : Option Context) :
    Except RMDBError (RmFileHandle × Option Context) := do
  let image ← g.fetchPageHandle rid.pageNo
  if Bitmap.isSet image.bitmap rid.slotNo then
    let old := image.getSlot g.fileHdr rid.slotNo
    let (image, ctx) := logWriteImage ctx (.delete old rid g.tabName) image
    let image := image.clearSlot rid.slotNo
    if image.numRecords = g.fileHdr.numRecordsPerPage - 1 then
      -- `release_page_handle`
      let image := { image with nextFreePageNo := g.fileHdr.firstFreePageNo }
      return ((g.setFirstFree rid.pageNo).setPage rid.pageNo image, ctx)
    else return (g.setPage rid.pageNo image, ctx)
  else throw (.recordNotFound rid.pageNo rid.slotNo)

def updateRecord (g : RmFileHandle) (rid : Rid) (buf : Bytes) (ctx : Option Context) :
    Except RMDBError (RmFileHandle × Option Context) := do
  let image ← g.fetchPageHandle rid.pageNo
  if Bitmap.isSet image.bitmap rid.slotNo then
    let old := image.getSlot g.fileHdr rid.slotNo
    let (image, ctx) := logWriteImage ctx (.update old (memcpy buf g.fileHdr.recordSize) rid g.tabName) image
    return (g.setPage rid.pageNo (image.overwriteSlot g.fileHdr rid.slotNo buf), ctx)
  else throw (.recordNotFound rid.pageNo rid.slotNo)

/-- `close_file` writes the header, and the constructor of `open_file` reads it and starts allocating at
`num_pages`. -/
def reopen (g : RmFileHandle) : RmFileHandle := { g with fd2pageno := g.fileHdr.numPages }

/-- What `create_file` and `open_file` give for a new file. -/
def create (tabName : TabName) (recordSize : Int) : Except RMDBError RmFileHandle :=
  if recordSize < 1 ∨ recordSize > rmMaxRecordSize then .error (.invalidRecordSize recordSize)
  else .ok
    { tabName := tabName
      fileHdr := RmFileHdr.create recordSize
      pages := fun _ => none
      fd2pageno := (RmFileHdr.create recordSize).numPages }

/-! ## Recovery -/

/-- The body of the loop over the pages at the end of `undo`. -/
def relinkPage (g : RmFileHandle) (pageNo : Int) : Except RMDBError RmFileHandle := do
  let image ← g.bpmFetch pageNo
  let numRecords := Bitmap.count image.bitmap g.fileHdr.numRecordsPerPage.toNat
  if numRecords < g.fileHdr.numRecordsPerPage then
    return (g.setPage pageNo { image with
      numRecords := numRecords
      nextFreePageNo := g.fileHdr.firstFreePageNo }).setFirstFree pageNo
  else
    return g.setPage pageNo { image with numRecords := numRecords, nextFreePageNo := rmNoPage }

def relinkFrom : Nat → Int → RmFileHandle → Except RMDBError RmFileHandle
  | 0, _, g => .ok g
  | k + 1, pageNo, g => do relinkFrom k (pageNo + 1) (← g.relinkPage pageNo)

/-- "Reconstruct the free page list". -/
def rebuildFreeList (g : RmFileHandle) : Except RMDBError RmFileHandle := do
  let g ← relinkFrom (g.fileHdr.numPages - 1).toNat rmFirstRecordPage (g.setFirstFree rmNoPage)
  return { g with fd2pageno := g.fileHdr.numPages }

end RmFileHandle

/-! ## The layout of a page -/

/-- A page holds its header, then a bitmap with a bit for every slot, then the slots. -/
structure Layout (hdr : RmFileHdr) : Prop where
  recordSize : 1 ≤ hdr.recordSize
  perPage : 0 < hdr.numRecordsPerPage
  bits : hdr.numRecordsPerPage ≤ Bitmap.bitmapWidth * hdr.bitmapSize
  -- `OFFSET_PAGE_HDR` and `sizeof(RmPageHdr)` come before the bitmap
  fits : 4 + 8 + hdr.bitmapSize + hdr.numRecordsPerPage * hdr.recordSize ≤ pageSize

theorem Layout.congr {hdr hdr' : RmFileHdr} (h : Layout hdr) (hsize : hdr'.recordSize = hdr.recordSize)
    (hper : hdr'.numRecordsPerPage = hdr.numRecordsPerPage) (hbits : hdr'.bitmapSize = hdr.bitmapSize) :
    Layout hdr' :=
  ⟨hsize ▸ h.recordSize, hper ▸ h.perPage, by rw [hper, hbits]; exact h.bits, by rw [hper, hbits, hsize]; exact h.fits⟩

/-- The sizes that `create_file` computes fit, for every record size that it accepts. -/
theorem Layout.create {recordSize : Int} (h1 : 1 ≤ recordSize) (hle : recordSize ≤ rmMaxRecordSize) :
    Layout (RmFileHdr.create recordSize) := by
  have hn : (RmFileHdr.create recordSize).numRecordsPerPage * (1 + recordSize * 8) ≤ 8 * (4096 - 1 - 20) + 1 :=
    Int.ediv_mul_le _ (show 1 + recordSize * 8 ≠ 0 by omega)
  have hpos := RmFileHdr.create_perPage_pos h1 hle
  have hbits : (RmFileHdr.create recordSize).bitmapSize =
      ((RmFileHdr.create recordSize).numRecordsPerPage + 8 - 1) / 8 := rfl
  have hsize : (RmFileHdr.create recordSize).recordSize = recordSize := rfl
  refine ⟨h1, hpos, ?_, ?_⟩
  · simp only [Bitmap.bitmapWidth]
    omega
  · rw [Int.mul_add, Int.mul_one, ← Int.mul_assoc] at hn
    rw [hsize]
    simp only [pageSize]
    omega

/-- A slot lies behind the bitmap and within the page. -/
theorem Layout.slot {hdr : RmFileHdr} (h : Layout hdr) {s : Int} (h0 : 0 ≤ s) (hlt : s < hdr.numRecordsPerPage) :
    hdr.bitmapSize ≤ PageImage.slotOffset hdr s ∧ 4 + 8 + PageImage.slotOffset hdr s + hdr.recordSize ≤ pageSize := by
  have hr := h.recordSize
  have hfits := h.fits
  have h1 := Int.mul_nonneg h0 (show 0 ≤ hdr.recordSize by omega)
  have h2 := Int.mul_le_mul_of_nonneg_right (show s + 1 ≤ hdr.numRecordsPerPage by omega)
    (show 0 ≤ hdr.recordSize by omega)
  rw [Int.add_mul, Int.one_mul] at h2
  unfold PageImage.slotOffset
  omega

/-- Different slots do not overlap. -/
theorem Layout.slot_disjoint {hdr : RmFileHdr} (h : Layout hdr) {s s' : Int} (hlt : s < s') :
    PageImage.slotOffset hdr s + hdr.recordSize ≤ PageImage.slotOffset hdr s' := by
  have hr := h.recordSize
  have hmul := Int.mul_le_mul_of_nonneg_right (show s + 1 ≤ s' by omega) (show 0 ≤ hdr.recordSize by omega)
  rw [Int.add_mul, Int.one_mul] at hmul
  unfold PageImage.slotOffset
  omega

/-- The bit of a slot lies in the bitmap. -/
theorem Layout.bucket {hdr : RmFileHdr} (h : Layout hdr) {s : Int} (h0 : 0 ≤ s) (hlt : s < hdr.numRecordsPerPage) :
    0 ≤ Bitmap.getBucket s ∧ Bitmap.getBucket s < hdr.bitmapSize := by
  have hbits := h.bits
  simp only [Bitmap.getBucket, Bitmap.bitmapWidth] at hbits ⊢
  omega

/-! ## Images as pages -/

namespace PageImage

/-- The bitmap, without the slots behind it. -/
def bits (hdr : RmFileHdr) (mem : Memory) : Bitmap := fun i => if 0 ≤ i ∧ i < hdr.bitmapSize then mem i else 0

/-- The slots of the page; there are no others. -/
def slots (hdr : RmFileHdr) (mem : Memory) : Int → Bytes := fun s =>
  if 0 ≤ s ∧ s < hdr.numRecordsPerPage then mem.read (slotOffset hdr s) hdr.recordSize.toNat
  else List.replicate hdr.recordSize.toNat 0

/-- The page that an image stands for. -/
def page (hdr : RmFileHdr) (image : PageImage) : RmPage where
  pageLsn := image.pageLsn
  nextFreePageNo := image.nextFreePageNo
  numRecords := image.numRecords
  bitmap := bits hdr image.bitmap
  slots := slots hdr image.bitmap

section layout
variable {hdr : RmFileHdr} (hl : Layout hdr) (mem : Memory)
include hl

/-- A byte of the bitmap is written. -/
theorem slots_update {b : Int} (hb : b < hdr.bitmapSize) (v : BitVec 8) :
    slots hdr (Function.update mem b v) = slots hdr mem := by
  funext s
  unfold slots
  split
  · next hs =>
    have hslot := (hl.slot hs.1 hs.2).1
    apply Memory.read_congr
    intro i hi _
    exact Function.update_of_ne (by omega) _ _
  · rfl

omit hl in
theorem bits_update {b : Int} (hb : 0 ≤ b ∧ b < hdr.bitmapSize) (v : BitVec 8) :
    bits hdr (Function.update mem b v) = Function.update (bits hdr mem) b v := by
  funext i
  by_cases hi : i = b
  · subst hi
    simp [bits, hb]
  · simp [bits, hi]

variable {s : Int} (h0 : 0 ≤ s) (hlt : s < hdr.numRecordsPerPage) {data : Bytes}
include h0 hlt

/-- A slot is written. -/
theorem bits_write : bits hdr (mem.write (slotOffset hdr s) data) = bits hdr mem := by
  funext i
  unfold bits
  split
  · next hi =>
    have hslot := (hl.slot h0 hlt).1
    exact Memory.write_of_lt (by omega)
  · rfl

theorem slots_write (hlen : data.length = hdr.recordSize.toNat) :
    slots hdr (mem.write (slotOffset hdr s) data) = Function.update (slots hdr mem) s data := by
  funext s'
  by_cases hs : s' = s
  · subst hs
    rw [Function.update_self, slots, if_pos ⟨h0, hlt⟩, ← hlen]
    exact Memory.read_write_self
  · rw [Function.update_of_ne hs]
    unfold slots
    split
    · have hr := hl.recordSize
      apply Memory.read_congr
      intro i hi hi'
      -- the slots before and behind it
      rcases Int.lt_or_gt_of_ne hs with h | h
      · have hd := hl.slot_disjoint h
        exact Memory.write_of_lt (by omega)
      · have hd := hl.slot_disjoint h
        exact Memory.write_of_le (by omega)
    · rfl

theorem bits_isSet : (bits hdr mem).isSet s = Bitmap.isSet mem s := by
  have hb := hl.bucket h0 hlt
  simp only [Bitmap.isSet, bits, if_pos hb]

theorem bits_set : bits hdr (Bitmap.set mem s) = (bits hdr mem).set s := by
  have hb := hl.bucket h0 hlt
  unfold Bitmap.set
  rw [bits_update mem hb]
  simp only [bits, if_pos hb]

theorem bits_reset : bits hdr (Bitmap.reset mem s) = (bits hdr mem).reset s := by
  have hb := hl.bucket h0 hlt
  unfold Bitmap.reset
  rw [bits_update mem hb]
  simp only [bits, if_pos hb]

end layout

section page
variable {hdr : RmFileHdr} (hl : Layout hdr) (image : PageImage) {s : Int} (h0 : 0 ≤ s)
  (hlt : s < hdr.numRecordsPerPage) {buf : Bytes}
include hl h0 hlt

theorem page_isSet : (image.page hdr).bitmap.isSet s = Bitmap.isSet image.bitmap s := bits_isSet hl _ h0 hlt

omit hl in
theorem page_slots : (image.page hdr).slots s = image.getSlot hdr s := if_pos ⟨h0, hlt⟩

theorem page_clearSlot : (image.clearSlot s).page hdr = (image.page hdr).clearSlot s := by
  unfold RmPage.clearSlot clearSlot page
  rw [bits_reset hl _ h0 hlt, Bitmap.reset, slots_update hl _ (hl.bucket h0 hlt).2]

theorem page_fillSlot (hbuf : hdr.recordSize.toNat ≤ buf.length) :
    (image.fillSlot hdr s buf).page hdr = (image.page hdr).fillSlot hdr.recordSize s buf := by
  unfold RmPage.fillSlot fillSlot page
  rw [bits_write hl _ h0 hlt, bits_set hl _ h0 hlt, slots_write hl _ h0 hlt (by simp [memcpy, hbuf]), Bitmap.set,
    slots_update hl _ (hl.bucket h0 hlt).2]

theorem page_overwriteSlot (hbuf : hdr.recordSize.toNat ≤ buf.length) :
    (image.overwriteSlot hdr s buf).page hdr = (image.page hdr).overwriteSlot hdr.recordSize s buf := by
  unfold RmPage.overwriteSlot overwriteSlot page
  rw [bits_write hl _ h0 hlt, slots_write hl _ h0 hlt (by simp [memcpy, hbuf])]

end page

/-- `set_page_lsn`. -/
def stamp (image : PageImage) (lsn : Int) : PageImage := { image with pageLsn := lsn }

@[simp] theorem page_stamp (hdr : RmFileHdr) (image : PageImage) (lsn : Int) :
    (image.stamp lsn).page hdr = (image.page hdr).stamp lsn := rfl

end PageImage

@[simp] theorem logWriteImage_fst (ctx : Option Context) (body : LogBody) (image : PageImage) :
    (logWriteImage ctx body image).1 = image.stamp (stampLsn ctx image.pageLsn) := by
  cases ctx <;> simp [logWriteImage, stampLsn, PageImage.stamp]

@[simp] theorem logWriteImage_snd (ctx : Option Context) (body : LogBody) (image : PageImage) :
    (logWriteImage ctx body image).2 = appendLog ctx body := by
  cases ctx <;> simp [logWriteImage, appendLog]

/-- Two bitmaps that agree on the positions looked at. -/
theorem Bitmap.scan_congr {bit : Bool} {bm bm' : Bitmap} {maxN : Int} : ∀ (k : Nat) (i : Int),
    (∀ j, i ≤ j → j < i + k → bm.isSet j = bm'.isSet j) → scan bit bm maxN k i = scan bit bm' maxN k i
  | 0, _, _ => rfl
  | k + 1, i, h => by
    unfold scan
    rw [h i (by omega) (by omega), scan_congr k (i + 1) fun j hj hj' => h j (by omega) (by omega)]

theorem Bitmap.nextBit_congr {bit : Bool} {bm bm' : Bitmap} {maxN curr : Int}
    (h : ∀ j, curr < j → j < maxN → bm.isSet j = bm'.isSet j) : nextBit bit bm maxN curr = nextBit bit bm' maxN curr :=
  scan_congr _ _ fun j hj hj' => h j (by omega) (by omega)

/-- The page of an image depends on the sizes in the header only. -/
theorem PageImage.page_congr {hdr hdr' : RmFileHdr} (hsize : hdr'.recordSize = hdr.recordSize)
    (hper : hdr'.numRecordsPerPage = hdr.numRecordsPerPage) (hbits : hdr'.bitmapSize = hdr.bitmapSize)
    (image : PageImage) : image.page hdr' = image.page hdr := by
  unfold page bits slots slotOffset
  rw [hsize, hper, hbits]

theorem PageImage.nextBit_page {hdr : RmFileHdr} (hl : Layout hdr) (image : PageImage) (bit : Bool) {curr : Int}
    (hc : -1 ≤ curr) : Bitmap.nextBit bit (image.page hdr).bitmap hdr.numRecordsPerPage curr =
      Bitmap.nextBit bit image.bitmap hdr.numRecordsPerPage curr :=
  Bitmap.nextBit_congr fun _ hj hj' => page_isSet hl image (by omega) hj'

/-! ## Files of images -/

namespace PageImage

theorem page_zero (hdr : RmFileHdr) : zero.page hdr = RmPage.zero hdr.recordSize := by
  unfold page zero RmPage.zero
  congr 1
  · funext i
    simp [bits, Bitmap.zero]
  · funext s
    unfold slots
    split
    · exact List.ext_getElem (by simp) fun i hi _ => by simp [Memory.read, Bitmap.zero]
    · rfl

/-- The positions that `RecoveryManager::undo` counts are those of the bitmap. -/
theorem count_page {hdr : RmFileHdr} (hl : Layout hdr) (image : PageImage) :
    (image.page hdr).bitmap.count hdr.numRecordsPerPage.toNat =
      Bitmap.count image.bitmap hdr.numRecordsPerPage.toNat :=
  Bitmap.count_congr _ fun i h0 hlt => page_isSet hl image h0 (by have := hl.perPage; omega)

end PageImage

namespace RmFileHandle

/-- The file that a file of images stands for. -/
def file (g : RmFileHandle) : RmFile where
  tabName := g.tabName
  fileHdr := g.fileHdr
  pages p := (g.pages p).map (PageImage.page g.fileHdr)
  fd2pageno := g.fd2pageno

variable {g : RmFileHandle} {rid : Rid} {buf : Bytes} {ctx : Option Context} {pageNo : Int} {image : PageImage}

@[simp] theorem file_fileHdr : g.file.fileHdr = g.fileHdr := rfl
@[simp] theorem file_tabName : g.file.tabName = g.tabName := rfl
@[simp] theorem file_pages : g.file.pages pageNo = (g.pages pageNo).map (PageImage.page g.fileHdr) := rfl

theorem file_setPage : (g.setPage pageNo image).file = g.file.setPage pageNo (image.page g.fileHdr) := by
  unfold file setPage RmFile.setPage
  congr 1
  funext p
  by_cases hp : p = pageNo <;> simp [hp]

theorem file_setFirstFree : (g.setFirstFree pageNo).file = g.file.setFirstFree pageNo := rfl

theorem file_fetchPageHandle (g : RmFileHandle) (pageNo : Int) :
    g.file.fetchPageHandle pageNo = (g.fetchPageHandle pageNo).map (PageImage.page g.fileHdr) := by
  unfold RmFile.fetchPageHandle fetchPageHandle RmFile.bpmFetch bpmFetch
  change (if pageNo ≥ g.fileHdr.numPages ∨ pageNo < 0 then _ else _) = _
  split
  · rfl
  · simp only [file]
    cases g.pages pageNo <;> rfl

theorem file_createPageHandle (g : RmFileHandle) : g.file.createPageHandle =
    g.createPageHandle.map fun r => (r.1, r.2.1.page g.fileHdr, r.2.2.file) := by
  unfold RmFile.createPageHandle createPageHandle
  rw [file_fileHdr]
  split
  · have hfresh : PageImage.page g.fileHdr { PageImage.zero with nextFreePageNo := rmNoPage } =
        RmPage.fresh g.fileHdr.recordSize := by
      unfold RmPage.fresh
      rw [← PageImage.page_zero]
      rfl
    rw [RmFile.createNewPageHandle_eq, file_fileHdr, ← hfresh]
    simp only [Except.map, createNewPageHandle, PageImage.zero, Bitmap.init_zero]
    rfl
  · rw [file_fetchPageHandle]
    cases g.fetchPageHandle g.fileHdr.firstFreePageNo <;> rfl

/-- What `createPageHandle` returns has the layout of the file. -/
theorem createPageHandle_layout {g' : RmFileHandle} (h : g.createPageHandle = .ok (pageNo, image, g')) :
    g'.tabName = g.tabName ∧ g'.fileHdr.recordSize = g.fileHdr.recordSize ∧
      g'.fileHdr.numRecordsPerPage = g.fileHdr.numRecordsPerPage ∧ g'.fileHdr.bitmapSize = g.fileHdr.bitmapSize := by
  unfold createPageHandle at h
  split at h
  · cases h
    exact ⟨rfl, rfl, rfl, rfl⟩
  · cases hfetch : g.fetchPageHandle g.fileHdr.firstFreePageNo with
    | error e => rw [hfetch] at h; cases h
    | ok image => rw [hfetch] at h; cases h; exact ⟨rfl, rfl, rfl, rfl⟩

/-- The bytes of a slot, as the functions of the file copy them. -/
theorem memcpy_slots (hslot : 0 ≤ rid.slotNo ∧ rid.slotNo < g.fileHdr.numRecordsPerPage) (image : PageImage) :
    memcpy ((image.page g.fileHdr).slots rid.slotNo) g.fileHdr.recordSize = image.getSlot g.fileHdr rid.slotNo := by
  rw [PageImage.page_slots image hslot.1 hslot.2, memcpy, List.take_of_length_le]
  exact Nat.le_of_eq (Memory.length_read _)

/-! ## What the operations write -/

theorem insertRecord_eq {g₁ : RmFileHandle} (buf : Bytes) (ctx : Option Context)
    (h : g.createPageHandle = .ok (pageNo, image, g₁)) :
    let slotNo := Bitmap.firstBit false image.bitmap g₁.fileHdr.numRecordsPerPage
    let filled := (image.fillSlot g₁.fileHdr slotNo buf).stamp (stampLsn ctx image.pageLsn)
    g.insertRecord buf ctx = .ok (⟨pageNo, slotNo⟩,
      (if image.numRecords + 1 = g₁.fileHdr.numRecordsPerPage then g₁.setFirstFree image.nextFreePageNo
        else g₁).setPage pageNo filled,
      appendLog ctx (.insert (memcpy buf g₁.fileHdr.recordSize) ⟨pageNo, slotNo⟩ g₁.tabName)) := by
  simp only [insertRecord, h, bind, Except.bind, logWriteImage_fst, logWriteImage_snd, pure, Except.pure]
  split <;> simp_all [PageImage.fillSlot, PageImage.stamp, setFirstFree]

theorem deleteRecord_eq (ctx : Option Context) (h : g.fetchPageHandle rid.pageNo = .ok image)
    (hset : Bitmap.isSet image.bitmap rid.slotNo = true) :
    let cleared := (image.clearSlot rid.slotNo).stamp (stampLsn ctx image.pageLsn)
    g.deleteRecord rid ctx = .ok (
      (if image.numRecords = g.fileHdr.numRecordsPerPage then
        (g.setFirstFree rid.pageNo).setPage rid.pageNo { cleared with nextFreePageNo := g.fileHdr.firstFreePageNo }
      else g.setPage rid.pageNo cleared),
      appendLog ctx (.delete (image.getSlot g.fileHdr rid.slotNo) rid g.tabName)) := by
  simp only [deleteRecord, h, bind, Except.bind, hset, if_true, logWriteImage_fst, logWriteImage_snd, pure, Except.pure,
    PageImage.clearSlot, PageImage.stamp]
  by_cases hfull : image.numRecords = g.fileHdr.numRecordsPerPage
  · simp [hfull]
  · simp [hfull, show image.numRecords - 1 ≠ g.fileHdr.numRecordsPerPage - 1 by omega]

theorem updateRecord_eq (buf : Bytes) (ctx : Option Context) (h : g.fetchPageHandle rid.pageNo = .ok image)
    (hset : Bitmap.isSet image.bitmap rid.slotNo = true) :
    g.updateRecord rid buf ctx = .ok (
      g.setPage rid.pageNo ((image.overwriteSlot g.fileHdr rid.slotNo buf).stamp (stampLsn ctx image.pageLsn)),
      appendLog ctx (.update (image.getSlot g.fileHdr rid.slotNo) (memcpy buf g.fileHdr.recordSize) rid g.tabName)) := by
  simp [updateRecord, h, bind, Except.bind, hset, pure, Except.pure, PageImage.overwriteSlot, PageImage.stamp]

section layout
variable (hl : Layout g.fileHdr)
include hl

theorem file_insertRecord (hbuf : g.fileHdr.recordSize.toNat ≤ buf.length) {f' : RmFile} {ctx' : Option Context}
    (hslot : 0 ≤ rid.slotNo ∧ rid.slotNo < g.fileHdr.numRecordsPerPage)
    (h : g.file.insertRecord buf ctx = .ok (rid, f', ctx')) :
    ∃ g', g.insertRecord buf ctx = .ok (rid, g', ctx') ∧ g'.file = f' := by
  cases hcreate : g.createPageHandle with
  | error e =>
    have hfile := file_createPageHandle g
    rw [hcreate] at hfile
    simp [RmFile.insertRecord, hfile, Except.map, bind, Except.bind] at h
  | ok r =>
    obtain ⟨pageNo, image, g₁⟩ := r
    have hfile := file_createPageHandle g
    rw [hcreate] at hfile
    obtain ⟨-, hsize, hper, hbits⟩ := createPageHandle_layout hcreate
    have hl₁ := hl.congr hsize hper hbits
    have hpage := PageImage.page_congr hsize hper hbits image
    have hbit : (image.page g.fileHdr).bitmap.firstBit false g₁.fileHdr.numRecordsPerPage =
        Bitmap.firstBit false image.bitmap g₁.fileHdr.numRecordsPerPage := by
      rw [← hpage]
      exact PageImage.nextBit_page hl₁ image false (Int.le_refl _)
    have heq := RmFile.insertRecord_eq buf ctx hfile
    simp only [file_fileHdr, file_tabName, hbit] at heq
    rw [h] at heq
    obtain ⟨rfl, hrest⟩ := Prod.mk.inj (Except.ok.inj heq)
    obtain ⟨rfl, rfl⟩ := Prod.mk.inj hrest
    refine ⟨_, insertRecord_eq buf ctx hcreate, ?_⟩
    have hfill := PageImage.page_fillSlot hl₁ image hslot.1 (hper ▸ hslot.2) (hsize ▸ hbuf)
    rw [hpage] at hfill
    change _ = RmFile.setPage (if image.numRecords + 1 = _ then _ else _) _ _
    split
    · rw [file_setPage, ← hfill]
      rfl
    · rw [file_setPage, ← hfill]
      rfl

variable (hslot : 0 ≤ rid.slotNo ∧ rid.slotNo < g.fileHdr.numRecordsPerPage)
include hslot

theorem file_deleteRecord (ctx : Option Context) : g.file.deleteRecord rid ctx =
    (g.deleteRecord rid ctx).map fun r => (r.1.file, r.2) := by
  cases hfetch : g.fetchPageHandle rid.pageNo with
  | error e => simp [RmFile.deleteRecord, deleteRecord, file_fetchPageHandle, hfetch, Except.map, bind, Except.bind]
  | ok image =>
    have hfile : g.file.fetchPageHandle rid.pageNo = .ok (image.page g.fileHdr) := by
      rw [file_fetchPageHandle, hfetch]
      rfl
    have hset := PageImage.page_isSet hl image hslot.1 hslot.2
    by_cases hbit : Bitmap.isSet image.bitmap rid.slotNo = true
    · have hclear := PageImage.page_clearSlot hl image hslot.1 hslot.2
      rw [deleteRecord_eq ctx hfetch hbit, RmFile.deleteRecord_eq ctx hfile (hset.trans hbit)]
      simp only [Except.map, file_fileHdr, file_tabName, memcpy_slots hslot image, ← hclear]
      change Except.ok (if image.numRecords = _ then _ else _, _) = _
      split
      · rw [file_setPage]
        rfl
      · rw [file_setPage]
        rfl
    · rw [Bool.not_eq_true] at hbit
      rw [RmFile.deleteRecord_error hfile (hset.trans hbit)]
      simp [deleteRecord, hfetch, bind, Except.bind, hbit, throw, throwThe, MonadExceptOf.throw, Except.map]

theorem file_updateRecord (hbuf : g.fileHdr.recordSize.toNat ≤ buf.length) (ctx : Option Context) :
    g.file.updateRecord rid buf ctx = (g.updateRecord rid buf ctx).map fun r => (r.1.file, r.2) := by
  cases hfetch : g.fetchPageHandle rid.pageNo with
  | error e => simp [RmFile.updateRecord, updateRecord, file_fetchPageHandle, hfetch, Except.map, bind, Except.bind]
  | ok image =>
    have hfile : g.file.fetchPageHandle rid.pageNo = .ok (image.page g.fileHdr) := by
      rw [file_fetchPageHandle, hfetch]
      rfl
    have hset := PageImage.page_isSet hl image hslot.1 hslot.2
    by_cases hbit : Bitmap.isSet image.bitmap rid.slotNo = true
    · have hover := PageImage.page_overwriteSlot hl image hslot.1 hslot.2 hbuf
      rw [updateRecord_eq buf ctx hfetch hbit, RmFile.updateRecord_eq buf ctx hfile (hset.trans hbit)]
      simp only [Except.map, file_fileHdr, file_tabName, memcpy_slots hslot image, ← hover, file_setPage]
      rfl
    · rw [Bool.not_eq_true] at hbit
      rw [RmFile.updateRecord_error hfile (hset.trans hbit)]
      simp [updateRecord, hfetch, bind, Except.bind, hbit, throw, throwThe, MonadExceptOf.throw, Except.map]

end layout

/-! ## Recovery -/

theorem file_relinkPage (hl : Layout g.fileHdr) (pageNo : Int) :
    g.file.relinkPage pageNo = (g.relinkPage pageNo).map file := by
  unfold RmFile.relinkPage relinkPage RmFile.bpmFetch bpmFetch
  rw [file_pages, file_fileHdr]
  cases g.pages pageNo with
  | none => rfl
  | some image =>
    simp only [Option.map_some, bind, Except.bind, PageImage.count_page hl]
    split
    · simp only [Except.map, pure, Except.pure, file_setFirstFree, file_setPage]
      rfl
    · simp only [Except.map, pure, Except.pure, file_setPage]
      rfl

theorem relinkPage_layout {g' : RmFileHandle} (hl : Layout g.fileHdr) (h : g.relinkPage pageNo = .ok g') :
    Layout g'.fileHdr := by
  unfold relinkPage bpmFetch at h
  cases hp : g.pages pageNo with
  | none => rw [hp] at h; cases h
  | some image =>
    simp only [hp, bind, Except.bind] at h
    split at h
    · cases h
      exact hl.congr rfl rfl rfl
    · cases h
      exact hl

theorem file_relinkFrom : ∀ (k : Nat) (pageNo : Int) {g : RmFileHandle}, Layout g.fileHdr →
    RmFile.relinkFrom k pageNo g.file = (relinkFrom k pageNo g).map file
  | 0, _, _, _ => rfl
  | k + 1, pageNo, g, hl => by
    unfold RmFile.relinkFrom relinkFrom
    rw [file_relinkPage hl]
    cases h : g.relinkPage pageNo with
    | error e => rfl
    | ok g' => exact file_relinkFrom k (pageNo + 1) (relinkPage_layout hl h)

theorem relinkFrom_layout : ∀ (k : Nat) (pageNo : Int) {g g' : RmFileHandle}, Layout g.fileHdr →
    relinkFrom k pageNo g = .ok g' → Layout g'.fileHdr
  | 0, _, _, _, hl, h => by
    cases h
    exact hl
  | k + 1, pageNo, g, g', hl, h => by
    obtain ⟨g₁, h₁, h⟩ := bind_eq_ok.1 h
    exact relinkFrom_layout k (pageNo + 1) (relinkPage_layout hl h₁) h

theorem rebuildFreeList_layout {g' : RmFileHandle} (hl : Layout g.fileHdr) (h : g.rebuildFreeList = .ok g') :
    Layout g'.fileHdr := by
  obtain ⟨g₁, h₁, h⟩ := bind_eq_ok.1 h
  cases h
  have hl' : Layout (g.setFirstFree rmNoPage).fileHdr := hl.congr rfl rfl rfl
  have hl₁ : Layout g₁.fileHdr := relinkFrom_layout _ _ hl' h₁
  exact hl₁

theorem file_rebuildFreeList (hl : Layout g.fileHdr) : g.file.rebuildFreeList = g.rebuildFreeList.map file := by
  have hl' : Layout (g.setFirstFree rmNoPage).fileHdr := hl.congr rfl rfl rfl
  have h := file_relinkFrom (g.fileHdr.numPages - 1).toNat rmFirstRecordPage hl'
  unfold RmFile.rebuildFreeList rebuildFreeList
  rw [file_setFirstFree] at h
  rw [file_fileHdr, h]
  cases relinkFrom (g.fileHdr.numPages - 1).toNat rmFirstRecordPage (g.setFirstFree rmNoPage) <;> rfl

end RmFileHandle

end Rmdb
