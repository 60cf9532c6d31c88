import Rmdb.Lib.Act
import Rmdb.Recovery.LogManager
import Rmdb.Storage.DiskManager

/-!
# The buffer pool

- `LRUReplacer`: the frames that may be evicted, the least recently used last;
- `BufferPoolManager`: the frames with the page table, `free_list_` and the managers it holds pointers to;
- the operations of `buffer_pool_manager.cpp`, each as a computation that keeps what was done before a throw. A page
  that is ahead of `db.log` has the log written first.
-/

namespace Rmdb

open Lib

/-- The frames of `LRUlist_`, front first; `LRUhash_` is their index. -/
structure LRUReplacer where
  lruList : List Nat

namespace LRUReplacer

/-- `victim`. -/
def victim (r : LRUReplacer) : Option (Nat × LRUReplacer) :=
  r.lruList.getLast?.map fun frame => (frame, ⟨r.lruList.dropLast⟩)

/-- `pin`. -/
def pin (r : LRUReplacer) (frame : Nat) : LRUReplacer := ⟨r.lruList.erase frame⟩

/-- `unpin`. -/
def unpin (r : LRUReplacer) (frame : Nat) : LRUReplacer :=
  if frame ∈ r.lruList then r else ⟨frame :: r.lruList⟩

end LRUReplacer

structure Page where
  id : PageId
  data : Bytes
  isDirty : Bool
  pinCount : Int

/-- The bytes that `reset_memory` leaves. -/
def blankPage : Bytes := List.replicate pageSize.toNat 0

/-- `get_page_lsn`. -/
def Page.lsn (page : Page) : Int := readInt page.data

structure BufferPoolManager where
  poolSize : Nat
  pages : Nat → Page
  pageTable : PageId → Option Nat
  freeList : List Nat
  replacer : LRUReplacer
  diskManager : DiskManager
  logManager : Option LogManager

/-- An operation of the pool. -/
abbrev PoolM (α : Type) := Act RMDBError BufferPoolManager α

namespace BufferPoolManager

/-- The constructor, with `set_log_manager`. The `fd` of a frame that never held a page is indeterminate. -/
def new (poolSize : Nat) (diskManager : DiskManager) (logManager : Option LogManager) : BufferPoolManager where
  poolSize := poolSize
  pages _ := ⟨⟨0, invalidPageId⟩, blankPage, false, 0⟩
  pageTable _ := none
  freeList := List.range poolSize
  replacer := ⟨[]⟩
  diskManager := diskManager
  logManager := logManager

def setPage (s : BufferPoolManager) (frame : Nat) (page : Page) : BufferPoolManager :=
  { s with pages := Function.update s.pages frame page }

/-- The frame with a new `pin_count_`. -/
def setPinCount (s : BufferPoolManager) (frame : Nat) (n : Int) : BufferPoolManager :=
  s.setPage frame { s.pages frame with pinCount := n }

/-- `replacer_->pin`. -/
def pin (s : BufferPoolManager) (frame : Nat) : BufferPoolManager := { s with replacer := s.replacer.pin frame }

/-- `replacer_->unpin`. -/
def unpin (s : BufferPoolManager) (frame : Nat) : BufferPoolManager := { s with replacer := s.replacer.unpin frame }

/-- The log is written before a page that is ahead of it. -/
def flushLogFor (s : BufferPoolManager) (page : Page) : BufferPoolManager :=
  match s.logManager with
  | some lm => if lm.persistLsn < page.lsn then { s with logManager := some lm.flushLogToDisk } else s
  | none => s

/-- `disk_manager_->write_page` of a frame, which is then clean. -/
def writeBack (frame : Nat) : PoolM Unit := do
  let s ← Act.get
  let page := s.pages frame
  Act.modify fun s => s.flushLogFor page
  match s.diskManager.writePage page.id.fd page.id.pageNo page.data with
  | .error e => Act.throw e
  | .ok d => Act.modify fun s => { s with diskManager := d }.setPage frame { page with isDirty := false }

def writeIfDirty (frame : Nat) : PoolM Unit := do
  let s ← Act.get
  if (s.pages frame).isDirty then writeBack frame

/-- `find_victim_page`. -/
def findVictimPage : PoolM (Option Nat) := do
  let s ← Act.get
  match s.freeList with
  | frame :: rest =>
    Act.modify fun s => { s with freeList := rest }
    pure (some frame)
  | [] =>
    match s.replacer.victim with
    | some (frame, replacer) =>
      Act.modify fun s => { s with replacer := replacer }
      pure (some frame)
    | none => pure none

/-- The frame changes over to another page: page table, id and data. -/
def replacePage (s : BufferPoolManager) (newPageId : PageId) (frame : Nat) : BufferPoolManager :=
  let page := s.pages frame
  let pageTable := Function.update s.pageTable page.id none
  { s with
    pageTable := if newPageId.pageNo = invalidPageId then pageTable
      else Function.update pageTable newPageId (some frame) }.setPage frame
    { page with id := newPageId, data := blankPage }

/-- `update_page`. -/
def updatePage (newPageId : PageId) (frame : Nat) : PoolM Unit := do
  writeIfDirty frame
  Act.modify fun s => s.replacePage newPageId frame

/-- `fetch_page`; the result is the frame. -/
def fetchPage (pageId : PageId) : PoolM (Option Nat) := do
  let s ← Act.get
  match s.pageTable pageId with
  | some frame =>
    Act.modify fun s => (s.pin frame).setPinCount frame ((s.pages frame).pinCount + 1)
    pure (some frame)
  | none =>
    match ← findVictimPage with
    | none => pure none
    | some frame =>
      updatePage pageId frame
      let s ← Act.get
      match s.diskManager.readPage pageId.fd pageId.pageNo with
      | .error e => Act.throw e
      | .ok data =>
        Act.modify fun s => s.setPage frame { s.pages frame with data := data }
        Act.modify fun s => (s.pin frame).setPinCount frame 1
        pure (some frame)

/-- `mark_dirty`. -/
def markDirty (s : BufferPoolManager) (frame : Nat) : BufferPoolManager :=
  s.setPage frame { s.pages frame with isDirty := true }

/-- `unpin_page`. -/
def unpinPage (pageId : PageId) (isDirty : Bool) : PoolM Bool := do
  let s ← Act.get
  match s.pageTable pageId with
  | none => pure false
  | some frame =>
    if (s.pages frame).pinCount ≤ 0 then pure false
    else
      Act.modify fun s => s.setPinCount frame ((s.pages frame).pinCount - 1)
      Act.modify fun s => if (s.pages frame).pinCount = 0 then s.unpin frame else s
      Act.modify fun s => if isDirty then s.markDirty frame else s
      pure true

/-- `flush_page`. -/
def flushPage (pageId : PageId) : PoolM Bool := do
  let s ← Act.get
  match s.pageTable pageId with
  | none => pure false
  | some frame =>
    writeBack frame
    pure true

/-- `new_page` in the file behind `fd`; the result is the frame with the page id. -/
def newPage (fd : Int) : PoolM (Option (Nat × PageId)) := do
  match ← findVictimPage with
  | none => pure none
  | some frame =>
    let s ← Act.get
    let (pageNo, d) := s.diskManager.allocatePage fd
    Act.modify fun s => { s with diskManager := d }
    updatePage ⟨fd, pageNo⟩ frame
    Act.modify fun s => (s.pin frame).setPinCount frame 1
    pure (some (frame, ⟨fd, pageNo⟩))

/-- The page leaves its frame, which goes to the end of `free_list_`. -/
def freePage (s : BufferPoolManager) (pageId : PageId) (frame : Nat) (pinCount : Int) : BufferPoolManager :=
  { s with
    pageTable := Function.update s.pageTable pageId none
    freeList := s.freeList ++ [frame] }.setPage frame
    { s.pages frame with id := ⟨-1, invalidPageId⟩, data := blankPage, pinCount := pinCount }

/-- `delete_page`. -/
def deletePage (pageId : PageId) : PoolM Bool := do
  let s ← Act.get
  match s.pageTable pageId with
  | none => pure true
  | some frame =>
    if 0 < (s.pages frame).pinCount then pure false
    else
      writeIfDirty frame
      Act.modify fun s => s.freePage pageId frame (s.pages frame).pinCount
      pure true

/-- The frame holds a page of the file. -/
def holds (s : BufferPoolManager) (fd : Int) (frame : Nat) : Bool :=
  (s.pages frame).id.fd = fd ∧ (s.pages frame).id.pageNo ≠ invalidPageId

/-- `flush_all_pages`. -/
def flushAllPages (fd : Int) : PoolM Unit := do
  let s ← Act.get
  (List.range s.poolSize).forM fun frame => do
    let s ← Act.get
    if s.holds fd frame then writeIfDirty frame

/-- `delete_all_pages`. -/
def deleteAllPages (fd : Int) : PoolM Unit := do
  let s ← Act.get
  (List.range s.poolSize).forM fun frame => do
    let s ← Act.get
    if s.holds fd frame then
      writeIfDirty frame
      Act.modify fun s => s.freePage (s.pages frame).id frame 0

end BufferPoolManager

end Rmdb
