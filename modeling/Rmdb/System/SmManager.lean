import Rmdb.Index.IndexHandle
import Rmdb.Index.IxManager
import Rmdb.Index.Key
import Rmdb.Record.RmManager

/-!
# The system manager

- `SmManager`: the catalogue, the directory and the open files. What the pages of an open file hold is what its handle
  shows; which page images the buffer pool writes to the files during a statement is an input (`DdlEnv`);
- `create_table`, `drop_table`, `create_index` and `drop_index` of `sm_manager.cpp`, and `open_db` as far as it can
  throw.
-/

namespace Rmdb

open Lib

/-- A column of a CREATE TABLE. -/
structure ColDef where
  name : String
  type : ColType
  len : Int

/-- An open data file. -/
structure RmHandle where
  fd : Int
  file : RmFile

/-- An open index. -/
structure IxHandle where
  fd : Int
  cols : List ColMeta
  index : IxIndexHandle (IxKey cols)

structure SmManager where
  db : DbMeta
  fs : FileSys
  fhs : TabName → Option RmHandle
  ihs : String → Option IxHandle

/-- What the operating system and the buffer pool do during a statement. -/
structure DdlEnv where
  /-- What the first and the second `open` return. -/
  fd : Int
  fd' : Int
  /-- The pages, with their descriptors, that are evicted in a turn of the loop over the records. -/
  evictions : Nat → List (Int × Int × Bytes)
  /-- The pages of a file that are still dirty when it is closed. -/
  dirty : String → List (Int × Bytes)
  /-- The pool's answers to the requests of the index that is built. -/
  answers : List (Option Fault)

abbrev SmM (α : Type) := Act Fault SmManager α

/-- The pages of an index without entries. -/
def IxFile.created {κ : Type} (hdr : IxFileHdr) (nextPage : Int) : IxFile κ where
  fileHdr := hdr
  pages := Function.update (Function.update (fun _ => none)
    ixLeafHeaderPage (some ⟨ixNoPage, true, ixInitRootPage, ixInitRootPage, []⟩))
    ixInitRootPage (some ⟨ixNoPage, true, ixLeafHeaderPage, ixLeafHeaderPage, []⟩)
  nextPage := nextPage

/-- `RmScan::next`, with a bound on its turns. -/
def RmFile.scanNext (f : RmFile) : Nat → Rid → Except Fault Rid
  | 0, _ => .error .outOfFuel
  | fuel + 1, rid =>
    if rid.pageNo < f.fileHdr.numPages then
      match f.fetchPageHandle rid.pageNo with
      | .error e => .error (.thrown e)
      | .ok page =>
        let slotNo := page.bitmap.nextBit true f.fileHdr.numRecordsPerPage rid.slotNo
        if slotNo < f.fileHdr.numRecordsPerPage then .ok ⟨rid.pageNo, slotNo⟩
        else f.scanNext fuel ⟨rid.pageNo + 1, -1⟩
    else .ok rid

namespace SmManager

/-- A computation on the directory. -/
def files {α : Type} (x : FsM α) : SmM α := Act.zoom SmManager.fs (fun fs s => { s with fs := fs }) x

theorem run_files {α : Type} {x : FsM α} {s : SmManager} {r : Except Fault α} {t : FileSys} (h : x.run s.fs = (r, t)) :
    (files x).run s = (r, { s with fs := t }) := by
  rw [files, Act.run_zoom, h]

theorem run_files_eq {α : Type} {x : FsM α} {s s' : SmManager} {r : Except Fault α} (h : (files x).run s = (r, s')) :
    ∃ t, x.run s.fs = (r, t) ∧ s' = { s with fs := t } := by
  rw [files, Act.run_zoom] at h
  cases h
  exact ⟨_, rfl, rfl⟩

/-- A computation without effect. -/
def check {α : Type} : Except Fault α → SmM α
  | .ok a => pure a
  | .error e => Act.throw e

/-- The error of a look-up is thrown. -/
def lookup {α : Type} (x : Except RMDBError α) : SmM α := check (x.mapError Fault.thrown)

/-- A call of an index handle that is not registered yet. -/
def onIndex {κ α : Type} (ih : IxIndexHandle κ) (x : IxM κ α) : SmM (α × IxIndexHandle κ) :=
  match x.run ih with
  | (.ok a, ih) => pure (a, ih)
  | (.error e, _) => Act.throw e

def flushMeta : SmM Unit := do
  let s ← Act.get
  files (FileSys.flushMeta s.db)

def getTable (tabName : TabName) : SmM TabMeta := do
  let s ← Act.get
  lookup (s.db.getTable tabName)

/-! ## Tables -/

/-- The loop over the column definitions: the columns and the offset behind the last. -/
def tableCols (tabName : TabName) : List ColDef → Int → List ColMeta × Int
  | [], currOffset => ([], currOffset)
  | colDef :: colDefs, currOffset =>
    let (cols, last) := tableCols tabName colDefs (toInt32 (currOffset + colDef.len))
    (⟨tabName, colDef.name, colDef.type, colDef.len, currOffset⟩ :: cols, last)

def createTable (env : DdlEnv) (tabName : TabName) (colDefs : List ColDef) : SmM Unit := do
  let s ← Act.get
  if s.db.isTable tabName then Act.throw (.thrown (.tableExists tabName))
  else do
    let (cols, recordSize) := tableCols tabName colDefs 0
    files (RmManager.createFile tabName recordSize env.fd)
    Act.modify fun s => { s with db := s.db.setTab tabName ⟨tabName, cols, []⟩ }
    let hdr ← files (RmManager.openFile tabName env.fd')
    let fh : RmHandle := ⟨env.fd', RmFile.openFile tabName hdr fun _ => none⟩
    Act.modify fun s => { s with fhs := Function.update s.fhs tabName (some fh) }
    flushMeta

/-- Close the index if it is open, and destroy its file. -/
def destroyIndex (env : DdlEnv) (tabName : TabName) (cols : List ColMeta) : SmM Unit := do
  let indexName := getIndexName tabName cols
  let s ← Act.get
  (match s.ihs indexName with
  | some ih => do
    files (IxManager.closeIndex ih.fd ih.index.file.fileHdr (env.dirty indexName))
    Act.modify fun s => { s with ihs := Function.update s.ihs indexName none }
  | none => pure ())
  files (IxManager.destroyIndex tabName cols)

def dropTable (env : DdlEnv) (tabName : TabName) : SmM Unit := do
  let s ← Act.get
  if !s.db.isTable tabName then Act.throw (.thrown (.tableNotFound tabName))
  else do
    let tab ← getTable tabName
    tab.indexes.forM fun index => destroyIndex env tabName index.cols
    let s ← Act.get
    (match s.fhs tabName with
    | some fh => do
      files (RmManager.closeFile fh.fd fh.file.fileHdr (env.dirty tabName))
      Act.modify fun s => { s with fhs := Function.update s.fhs tabName none }
    | none => pure ())
    files (RmManager.destroyFile tabName)
    Act.modify fun s => { s with db := s.db.eraseTab tabName }
    flushMeta

/-! ## Indexes -/

/-- The pages that the pool evicts. -/
def evict (pages : List (Int × Int × Bytes)) : SmM Unit :=
  files (pages.forM fun page => FileSys.writePage page.1 page.2.1 page.2.2)

/-- The loop over the records in `create_index`, from a rid on. -/
def indexRows (env : DdlEnv) (tabName : TabName) (cols : List ColMeta) (f : RmFile) :
    Nat → Rid → IxIndexHandle (IxKey cols) → SmM (IxIndexHandle (IxKey cols))
  | 0, _, _ => Act.throw .outOfFuel
  | fuel + 1, rid, ih =>
    if f.fileHdr.numPages ≤ rid.pageNo then pure ih
    else do
      let rec ← lookup (f.getRecord rid)
      let key : IxKey cols := makeKey cols rec
      evict (env.evictions fuel)
      let (dup, ih) ← onIndex ih (IxIndexHandle.getValue fuel key)
      if dup.isSome then do
        files (IxManager.closeIndex env.fd' ih.file.fileHdr (env.dirty (getIndexName tabName cols)))
        files (IxManager.destroyIndex tabName cols)
        Act.throw (.thrown (.rmdb ("duplicate value violates unique index on " ++ tabName)))
      else do
        let (_, ih) ← onIndex ih (IxIndexHandle.insertEntry fuel key rid)
        let rid ← check (f.scanNext fuel rid)
        indexRows env tabName cols f fuel rid ih

def createIndex (env : DdlEnv) (fuel : Nat) (tabName : TabName) (colNames : List String) : SmM Unit := do
  let tab ← getTable tabName
  if tab.isIndex colNames then Act.throw (.thrown (.indexExists tabName colNames))
  else do
    let indexCols ← lookup (colNames.mapM tab.getCol)
    files (IxManager.createIndex tabName indexCols env.fd)
    let hdr ← files (IxManager.openIndex tabName indexCols env.fd')
    let s ← Act.get
    match s.fhs tabName with
    | none => Act.throw .overrun
    | some fh => do
      let ih : IxIndexHandle (IxKey indexCols) :=
        .opened (IxFile.created hdr (s.fs.disk.fd2pageno env.fd')) env.answers
      let rid ← check (fh.file.scanNext fuel ⟨rmFirstRecordPage, -1⟩)
      let ih ← indexRows env tabName indexCols fh.file fuel rid ih
      let index : IndexMeta := ⟨tabName, ixColTotLen indexCols, indexCols.length, indexCols⟩
      let name := getIndexName tabName indexCols
      Act.modify fun s => { s with
        db := s.db.setTab tabName { tab with indexes := tab.indexes ++ [index] }
        ihs := Function.update s.ihs name (some ⟨env.fd', indexCols, ih⟩) }
      flushMeta

def dropIndex (env : DdlEnv) (tabName : TabName) (colNames : List String) : SmM Unit := do
  let tab ← getTable tabName
  if !tab.isIndex colNames then Act.throw (.thrown (.indexNotFound tabName colNames))
  else do
    let index ← lookup (tab.getIndexMeta colNames)
    destroyIndex env tabName index.cols
    Act.modify fun s => { s with
      db := s.db.setTab tabName { tab with indexes := tab.indexes.eraseP (TabMeta.matchCols · colNames) } }
    flushMeta

/-! ## Opening a database -/

/-- The indexes of a table; `fds` are the descriptors that the calls of `open` return. -/
def openIndexes (fds : Nat → Int) (tabName : TabName) : List IndexMeta → Nat → FsM Unit
  | [], _ => pure ()
  | index :: indexes, i => do
    let _ ← IxManager.openIndex tabName index.cols (fds i)
    openIndexes fds tabName indexes (i + 1)

/-- The tables, each with its indexes. -/
def openTables (fds : Nat → Int) : List (TabName × TabMeta) → Nat → FsM Unit
  | [], _ => pure ()
  | entry :: entries, i => do
    let _ ← RmManager.openFile entry.2.name (fds i)
    openIndexes fds entry.2.name entry.2.indexes (i + 1)
    openTables fds entries (i + 1 + entry.2.indexes.length)

/-- `open_db` on the directory; the handles that it makes are left out. -/
def openDb (fds : Nat → Int) : FsM Unit := do
  let s ← Act.get
  openTables fds s.dbMeta.tabs 0

end SmManager

end Rmdb
