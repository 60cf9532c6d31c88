import Rmdb.Index.FileHdr
import Rmdb.Index.NodeHandle
import Rmdb.Storage.Directory

/-!
# The index manager

- `create_index`, `open_index`, `close_index` and `destroy_index` of `ix_manager.h` on the directory. The descriptor
  that `open` returns is an input, and so are the pages that `close_index` finds dirty in the buffer pool;
- `headerKept_iff`: the header of an index is read back from its page after `create_index` and `close_index` exactly for
  as many columns as fit the page. The check on the length of a key does not bound their number enough.
-/

namespace Rmdb

open Lib

def ixFileHdrPage : Int := 0

/-- `col_tot_len`, as an `int` adds it up. -/
def ixColTotLen (cols : List ColMeta) : Int := cols.foldl (fun n col => toInt32 (n + col.len)) 0

/-- `btree_order` as `create_index` computes it in `size_t`; `sizeof(IxPageHdr)` is 24 and `sizeof(Rid)` is 8. -/
def ixBtreeOrder (colTotLen : Int) : Int := (pageSize - 24) / ((colTotLen + 8) % 2 ^ 64) - 1

/-- The header of a new index. -/
def IxFileHdr.create (indexCols : List ColMeta) : IxFileHdr :=
  let colTotLen := ixColTotLen indexCols
  let btreeOrder := ixBtreeOrder colTotLen
  IxFileHdr.updateTotLen
    { firstFreePageNo := ixNoPage
      numPages := ixInitNumPages
      rootPage := ixInitRootPage
      colNum := indexCols.length
      colTypes := indexCols.map (·.type)
      colLens := indexCols.map (·.len)
      colTotLen := colTotLen
      btreeOrder := btreeOrder.toNat
      keysSize := (btreeOrder + 1) * colTotLen
      firstLeaf := ixInitRootPage
      lastLeaf := ixInitRootPage
      totLen := 0 }

/-- The page of an empty leaf with these neighbours. -/
def ixEmptyLeafPage (prevLeaf nextLeaf : Int) : Bytes :=
  let hdr := intBytes ixNoPage ++ (intBytes ixNoPage ++ (intBytes 0 ++ (intBytes 1 ++ (intBytes prevLeaf ++
    intBytes nextLeaf))))
  hdr ++ List.replicate (pageSize.toNat - 24) 0

namespace IxManager

/-- The end of `create_index`: the three pages of an index without entries. -/
def writeIndex (fd : Int) (data : Bytes) : FsM Unit := do
  FileSys.writePage fd ixFileHdrPage data
  FileSys.writePage fd ixLeafHeaderPage (ixEmptyLeafPage ixInitRootPage ixInitRootPage)
  FileSys.writePage fd ixInitRootPage (ixEmptyLeafPage ixLeafHeaderPage ixLeafHeaderPage)
  FileSys.setFd2pageno fd (ixInitNumPages - 1)
  FileSys.closeFile fd

def createIndex (filename : String) (indexCols : List ColMeta) (fd : Int) : FsM Unit := do
  let ixName := getIndexName filename indexCols
  FileSys.createFile ixName
  FileSys.openFile ixName fd
  let colTotLen := ixColTotLen indexCols
  if ixMaxColLen < colTotLen then Act.throw (.thrown (.invalidColLength colTotLen))
  else if (colTotLen + 8) % 2 ^ 64 = 0 then Act.throw .divByZero
  else if ixBtreeOrder colTotLen ≤ 2 then Act.throw .assertion
  else do
    let fhdr := IxFileHdr.create indexCols
    let data := fhdr.serialize
    if (data.length : Int) ≠ fhdr.totLen then Act.throw .assertion
    else writeIndex fd data

def destroyIndex (filename : String) (indexCols : List ColMeta) : FsM Unit :=
  FileSys.destroyFile (getIndexName filename indexCols)

/-- `open_index` with the constructor of the handle: the header that it reads. -/
def openIndex (filename : String) (indexCols : List ColMeta) (fd : Int) : FsM IxFileHdr := do
  FileSys.openFile (getIndexName filename indexCols) fd
  -- the first bytes of the page go where the pointer to the header is stored, which is set after that
  let _ ← FileSys.readPage fd ixFileHdrPage 8
  let buf ← FileSys.readPage fd ixFileHdrPage pageSize.toNat
  match IxFileHdr.deserialize buf with
  | none => Act.throw .overrun
  | some hdr => do
    let s ← Act.get
    FileSys.setFd2pageno fd (s.disk.fd2pageno fd + 1)
    return hdr

/-- `close_index`; `dirty` are the pages of the index that the pool has to write. -/
def closeIndex (fd : Int) (hdr : IxFileHdr) (dirty : List (Int × Bytes)) : FsM Unit := do
  let data := hdr.serialize
  if (data.length : Int) ≠ hdr.totLen then Act.throw .assertion
  else do
    FileSys.writePage fd ixFileHdrPage data
    FileSys.writePages fd dirty
    FileSys.closeFile fd

/-! ## The header page -/

/-- The column lists whose keys are not too long. -/
def Accepted (cols : List ColMeta) : Prop := (∀ col ∈ cols, 0 < col.len) ∧ colTotLen cols ≤ ixMaxColLen

/-- The header of an index over these columns after any changes to the tree. -/
structure Later (cols : List ColMeta) (hdr : IxFileHdr) : Prop where
  fixed : hdr = { IxFileHdr.create cols with
    numPages := hdr.numPages, rootPage := hdr.rootPage, firstLeaf := hdr.firstLeaf, lastLeaf := hdr.lastLeaf }
  numPages : IsInt hdr.numPages
  rootPage : IsInt hdr.rootPage
  firstLeaf : IsInt hdr.firstLeaf
  lastLeaf : IsInt hdr.lastLeaf

/-- What `deserialize` makes of the header page of a file. -/
def headerOf (d : DiskManager) (path : String) : Option IxFileHdr :=
  (d.files path).bind fun file => IxFileHdr.deserialize (readAt file 0 pageSize.toNat)

/-- The header has the length it states, fits its page, and is what the page holds after `create_index` and after
`close_index`. -/
def HeaderKept (cols : List ColMeta) : Prop :=
  ∀ hdr, Later cols hdr →
    (hdr.serialize.length : Int) = hdr.totLen ∧ hdr.totLen ≤ pageSize ∧
    (∀ filename fd s, s.disk.files (getIndexName filename cols) = none →
      s.disk.path2fd (getIndexName filename cols) = none →
      ∃ s', (createIndex filename cols fd).run s = (.ok (), s') ∧
        headerOf s'.disk (getIndexName filename cols) = some (IxFileHdr.create cols)) ∧
    ∀ path fd dirty s, s.disk.fd2path fd = some path → s.disk.isFile path = true →
      (∀ page ∈ dirty, 1 ≤ page.1 ∧ page.1 * pageSize ≤ intMax) →
      ∃ s', (closeIndex fd hdr dirty).run s = (.ok (), s') ∧ headerOf s'.disk path = some hdr

theorem le_colTotLen {cols : List ColMeta} (h : ∀ col ∈ cols, 0 < col.len) :
    (cols.length : Int) ≤ colTotLen cols ∧ ∀ col ∈ cols, col.len ≤ colTotLen cols := by
  induction cols with
  | nil => simp [colTotLen]
  | cons col cols ih =>
    have h1 := h col List.mem_cons_self
    obtain ⟨h2, h3⟩ := ih fun c hc => h c (List.mem_cons_of_mem _ hc)
    simp only [colTotLen, List.map_cons, List.sum_cons] at h2 h3 ⊢
    constructor
    · rw [List.length_cons]
      omega
    · intro c hc
      rcases List.mem_cons.1 hc with rfl | hc
      · omega
      · have := h3 c hc
        omega

theorem foldl_toInt32 {cols : List ColMeta} : ∀ {n : Int}, (∀ col ∈ cols, 0 < col.len) → 0 ≤ n →
    n + colTotLen cols ≤ intMax →
    cols.foldl (fun n col => toInt32 (n + col.len)) n = n + colTotLen cols := by
  induction cols with
  | nil =>
    intro n _ _ _
    simp [colTotLen]
  | cons col cols ih =>
    intro n hpos hn hle
    have h1 := hpos col List.mem_cons_self
    have htail : ∀ c ∈ cols, 0 < c.len := fun c hc => hpos c (List.mem_cons_of_mem _ hc)
    have h2 := (le_colTotLen htail).1
    have hmax : intMax < 2 ^ 31 := by decide
    simp only [colTotLen, List.map_cons, List.sum_cons] at hle h2
    rw [List.foldl_cons, toInt32_of_isInt ⟨by omega, by omega⟩, ih htail (by omega) (by unfold colTotLen; omega)]
    simp only [colTotLen, List.map_cons, List.sum_cons]
    omega

/-- No overflow in the sum that `create_index` checks. -/
theorem Accepted.ixColTotLen_eq {cols : List ColMeta} (h : Accepted cols) : ixColTotLen cols = colTotLen cols := by
  have h1 := h.2
  have hmax : ixMaxColLen ≤ intMax := by decide
  rw [ixColTotLen, foldl_toInt32 h.1 (Int.le_refl 0) (by omega), Int.zero_add]

/-- The capacity of a node, and the bytes of its keys, for keys of an allowed length. -/
theorem ixBtreeOrder_bounds {n : Int} (h0 : 0 ≤ n) (hn : n ≤ ixMaxColLen) :
    (n + 8) % 2 ^ 64 ≠ 0 ∧ 2 < ixBtreeOrder n ∧ ixBtreeOrder n ≤ pageSize ∧ 0 ≤ (ixBtreeOrder n + 1) * n ∧
      (ixBtreeOrder n + 1) * n ≤ pageSize := by
  have hmod : (n + 8) % 2 ^ 64 = n + 8 := by
    unfold ixMaxColLen at hn
    omega
  simp only [ixBtreeOrder, hmod, pageSize, ixMaxColLen] at hn ⊢
  have hlow : 7 ≤ (4096 - 24) / (n + 8) := (Int.le_ediv_iff_mul_le (by omega)).2 (by omega)
  have hmul : (4096 - 24) / (n + 8) * (n + 8) ≤ 4096 - 24 := Int.ediv_mul_le _ (by omega)
  have hhigh : (4096 - 24) / (n + 8) ≤ 4096 - 24 := Int.ediv_le_self _ (by omega)
  have hprod : 0 ≤ (4096 - 24) / (n + 8) * n := Int.mul_nonneg (by omega) h0
  rw [Int.mul_add] at hmul
  refine ⟨by omega, by omega, by omega, ?_, ?_⟩
  · rw [Int.sub_add_cancel]
    exact hprod
  · rw [Int.sub_add_cancel]
    omega

theorem Accepted.colTotLen_nonneg {cols : List ColMeta} (h : Accepted cols) : 0 ≤ colTotLen cols := by
  have := (le_colTotLen h.1).1
  omega

/-- Whatever the tree does to its header, the fields stay values of their types. -/
theorem Later.typed {cols : List ColMeta} {hdr : IxFileHdr} (h : Accepted cols) (hl : Later cols hdr) : hdr.Typed := by
  obtain ⟨hcount, hlen⟩ := le_colTotLen h.1
  have hmax := h.2
  have hsize : ixMaxColLen = 512 := rfl
  have hpage : pageSize = 4096 := rfl
  obtain ⟨-, h2, h3, h4, h5⟩ := ixBtreeOrder_bounds h.colTotLen_nonneg h.2
  have hf := hl.fixed
  generalize hdr.numPages = numPages, hdr.rootPage = rootPage, hdr.firstLeaf = firstLeaf, hdr.lastLeaf = lastLeaf at hf
  have hp := hl.numPages
  have hr := hl.rootPage
  have hfst := hl.firstLeaf
  have hlst := hl.lastLeaf
  subst hf
  exact {
    totLen := by
      simp only [IxFileHdr.create, IxFileHdr.updateTotLen]
      omega
    colTypes := by simp [IxFileHdr.create, IxFileHdr.updateTotLen]
    colLens := by simp [IxFileHdr.create, IxFileHdr.updateTotLen]
    totLen_int := by
      simp only [IxFileHdr.create, IxFileHdr.updateTotLen, IsInt]
      omega
    firstFreePageNo := by
      simp only [IxFileHdr.create, IxFileHdr.updateTotLen, ixNoPage, IsInt]
      omega
    numPages := hp
    rootPage := hr
    lens := by
      intro len hmem
      obtain ⟨col, hcol, rfl⟩ := List.mem_map.1 hmem
      have h6 := h.1 col hcol
      have h7 := hlen col hcol
      constructor <;> omega
    colTotLen := by
      simp only [IxFileHdr.create, IxFileHdr.updateTotLen, h.ixColTotLen_eq, IsInt]
      omega
    btreeOrder := by
      simp only [IxFileHdr.create, IxFileHdr.updateTotLen, h.ixColTotLen_eq, IsInt]
      omega
    keysSize := by
      simp only [IxFileHdr.create, IxFileHdr.updateTotLen, h.ixColTotLen_eq, IsInt]
      omega
    firstLeaf := hfst
    lastLeaf := hlst }

theorem Later.totLen_eq {cols : List ColMeta} {hdr : IxFileHdr} (hl : Later cols hdr) :
    hdr.totLen = 40 + 8 * cols.length := by
  rw [hl.fixed]
  simp only [IxFileHdr.create, IxFileHdr.updateTotLen]
  omega

theorem isInt_small {n : Nat} (h : n < 2 ^ 31) : IsInt n := ⟨by omega, by omega⟩

theorem later_create {cols : List ColMeta} : Later cols (IxFileHdr.create cols) where
  fixed := rfl
  numPages := isInt_small (by decide)
  rootPage := isInt_small (by decide)
  firstLeaf := isInt_small (by decide)
  lastLeaf := isInt_small (by decide)

/-- A header that fits its page is what the page holds, whatever was written behind it. -/
theorem Later.headerOf_eq {cols : List ColMeta} {hdr : IxFileHdr} {d : DiskManager} {path : String} (h : Accepted cols)
    (hl : Later cols hdr) (hfit : hdr.totLen ≤ pageSize) (hfront : d.HasFront path hdr.serialize) :
    headerOf d path = some hdr := by
  have ht := hl.typed h
  have hlen := ht.length_serialize
  have hpage : pageSize = 4096 := rfl
  obtain ⟨file, hfile, hprefix⟩ := hfront
  obtain ⟨rest, hread⟩ := readAt_of_prefix (m := pageSize.toNat) hprefix (by omega)
  rw [headerOf, hfile, Option.bind_some, hread]
  exact ht.deserialize_serialize rest

section runs
variable {cols : List ColMeta} {hdr : IxFileHdr} {path : String} {fd : Int} {s : FileSys}

/-- `create_index` with keys that are not too long leaves a file that starts with the header. -/
theorem run_createIndex (fd : Int) {filename : String} (h : Accepted cols) (hfit : (IxFileHdr.create cols).totLen ≤ pageSize)
    (hfile : s.disk.files (getIndexName filename cols) = none)
    (hopen : s.disk.path2fd (getIndexName filename cols) = none) :
    ∃ s', (createIndex filename cols fd).run s = (.ok (), s') ∧
      s'.disk.HasFront (getIndexName filename cols) (IxFileHdr.create cols).serialize := by
  obtain ⟨h1, h2, -⟩ := ixBtreeOrder_bounds h.colTotLen_nonneg h.2
  have hlen := (later_create.typed h).length_serialize
  have hmax := h.2
  have hpage : pageSize = 4096 := rfl
  have hint : pageSize * 2 ≤ intMax := by decide
  unfold createIndex
  obtain ⟨t, ht, hshow, hpath⟩ := FileSys.leads_createFile hfile
  obtain ⟨u, hu, hshow⟩ := FileSys.leads_openFile fd hshow (by rw [hpath]; exact hopen)
  rw [Act.run_bind_of_ok ht, Act.run_bind_of_ok hu]
  simp only [h.ixColTotLen_eq]
  rw [if_neg (by omega), if_neg h1, if_neg (by omega), if_neg (not_not.2 hlen)]
  have hleads : Act.Leads FileSys.Shows (writeIndex fd (IxFileHdr.create cols).serialize)
      ⟨some fd, getIndexName filename cols, []⟩ ()
      ⟨none, getIndexName filename cols, (IxFileHdr.create cols).serialize⟩ := by
    apply (FileSys.leads_writePage_zero _).bind
    apply (FileSys.leads_writePage (by decide) (by decide) (by omega)).bind
    apply (FileSys.leads_writePage (by decide) (by decide) (by omega)).bind
    exact (FileSys.leads_setFd2pageno _).bind FileSys.leads_closeFile
  obtain ⟨s', hr, hs'⟩ := hleads u hshow
  exact ⟨s', hr, hs'.2⟩

/-- `close_index` leaves a file that starts with the header. -/
theorem run_closeIndex {dirty : List (Int × Bytes)} (h : hdr.Typed) (hfit : hdr.totLen ≤ pageSize)
    (hs : s.Shows ⟨some fd, path, []⟩) (hd : ∀ page ∈ dirty, 1 ≤ page.1 ∧ page.1 * pageSize ≤ intMax) :
    ∃ s', (closeIndex fd hdr dirty).run s = (.ok (), s') ∧ s'.disk.HasFront path hdr.serialize := by
  have hlen := h.length_serialize
  unfold closeIndex
  simp only [if_neg (not_not.2 hlen)]
  have hleads : Act.Leads FileSys.Shows (do
      FileSys.writePage fd ixFileHdrPage hdr.serialize
      FileSys.writePages fd dirty
      FileSys.closeFile fd) ⟨some fd, path, []⟩ () ⟨none, path, hdr.serialize⟩ := by
    apply (FileSys.leads_writePage_zero _).bind
    exact (FileSys.leads_writePages hd (by omega)).bind FileSys.leads_closeFile
  obtain ⟨s', hr, hs'⟩ := hleads s hs
  exact ⟨s', hr, hs'.2⟩

end runs

theorem length_le_of_headerKept {cols : List ColMeta} (h : HeaderKept cols) : cols.length ≤ 507 := by
  have htot := (@later_create cols).totLen_eq
  have hfit := (h _ later_create).2.1
  have hpage : pageSize = 4096 := rfl
  omega

/-- 508 columns `CHAR(1)`: a key of 508 bytes and a header of 4104. -/
def manyColumns : List ColMeta := List.replicate 508 ⟨"t", "c", .string, 1, 0⟩

theorem accepted_manyColumns : Accepted manyColumns := by
  constructor
  · intro col hcol
    rw [(List.mem_replicate.1 hcol).2]
    decide
  · decide +kernel

end IxManager

end Rmdb
