import Rmdb.Lib.Act
import Rmdb.Storage.DiskManager
import Rmdb.System.Meta

/-!
# The directory of a database

- `FileSys`: the disk manager with `db.meta`, and every step on the files so far with what it left (`steps`, the last
  first), which is what a crash at that point leaves;
- the operations of the disk manager as steps. A system call succeeds, so a step is whole or did not happen;
- `FileSys.Shows`: what one file starts with, and one rule for each operation on it.
-/

namespace Rmdb

open Lib

inductive FsStep
  | create (path : String)
  | write (fd pageNo : Int)
  | delete (path : String)
  /-- `flush_meta`. -/
  | dbMeta
  deriving DecidableEq

/-- What is on disk. -/
structure Directory where
  files : String → Option Bytes
  dbMeta : DbMeta

structure FileSys where
  disk : DiskManager
  dbMeta : DbMeta
  steps : List (FsStep × Directory)

abbrev FsM (α : Type) := Act Fault FileSys α

namespace FileSys

def directory (s : FileSys) : Directory := ⟨s.disk.files, s.dbMeta⟩

/-- The state after a step. -/
def record (s : FileSys) (step : FsStep) : FileSys := { s with steps := (step, s.directory) :: s.steps }

/-- A call of the disk manager that leaves the files as they are. -/
def call (f : DiskManager → Except RMDBError DiskManager) : FsM Unit := do
  let s ← Act.get
  match f s.disk with
  | .error e => Act.throw (.thrown e)
  | .ok d => Act.modify fun s => { s with disk := d }

/-- A call of the disk manager that is a step. -/
def perform (step : FsStep) (f : DiskManager → Except RMDBError DiskManager) : FsM Unit := do
  call f
  Act.modify (·.record step)

def createFile (path : String) : FsM Unit := perform (.create path) (·.createFile path)

def destroyFile (path : String) : FsM Unit := perform (.delete path) (·.destroyFile path)

def openFile (path : String) (fd : Int) : FsM Unit := call (·.openFile path fd)

def closeFile (fd : Int) : FsM Unit := call (·.closeFile fd)

def writePage (fd pageNo : Int) (data : Bytes) : FsM Unit := perform (.write fd pageNo) (·.writePage fd pageNo data)

/-- `read_page`. -/
def readPage (fd pageNo : Int) (numBytes : Nat) : FsM Bytes := do
  let s ← Act.get
  match s.disk.lseek fd pageNo with
  | .error e => Act.throw (.thrown e)
  | .ok (_, file) =>
    let data := readAt file (pageSize.toNat * pageNo.toNat) numBytes
    if data.length = numBytes then return data
    else Act.throw (.thrown (.internal "DiskManager::read_page Error"))

def setFd2pageno (fd startPageNo : Int) : FsM Unit := call fun d => .ok (d.setFd2pageno fd startPageNo)

/-- `flush_meta`. -/
def flushMeta (db : DbMeta) : FsM Unit := Act.modify fun s => { s with dbMeta := db }.record .dbMeta

/-- Pages that the buffer pool writes to the file of a descriptor. -/
def writePages (fd : Int) (pages : List (Int × Bytes)) : FsM Unit := pages.forM fun page => writePage fd page.1 page.2

/-! ## One file -/

section runs
variable {s : FileSys} {d : DiskManager} {f : DiskManager → Except RMDBError DiskManager} {step : FsStep}

theorem run_call (h : f s.disk = .ok d) : (call f).run s = (.ok (), { s with disk := d }) := by
  rw [call, Act.run_bind_of_ok (Act.run_get s), h]
  rfl

theorem run_call_error {e : RMDBError} (h : f s.disk = .error e) : (call f).run s = (.error (.thrown e), s) := by
  rw [call, Act.run_bind_of_ok (Act.run_get s), h]
  rfl

theorem run_perform (h : f s.disk = .ok d) : (perform step f).run s = (.ok (), { s with disk := d }.record step) := by
  rw [perform, Act.run_bind_of_ok (run_call h)]
  rfl

theorem run_call_ok {t : FileSys} (h : (call f).run s = (.ok (), t)) : ∃ d, f s.disk = .ok d ∧ t = { s with disk := d } := by
  cases hf : f s.disk with
  | ok d =>
    rw [run_call hf] at h
    cases h
    exact ⟨d, rfl, rfl⟩
  | error e =>
    rw [run_call_error hf] at h
    cases h

theorem run_perform_ok {t : FileSys} (h : (perform step f).run s = (.ok (), t)) :
    ∃ d, f s.disk = .ok d ∧ t = { s with disk := d }.record step := by
  obtain ⟨a, u, hu, h⟩ := Act.run_bind_eq_ok.1 h
  obtain ⟨d, hd, rfl⟩ := run_call_ok hu
  cases h
  exact ⟨d, hd, rfl⟩

/-- Only a new file is created. -/
theorem absent_of_createFile {path : String} {t : FileSys} (h : (createFile path).run s = (.ok (), t)) :
    s.disk.files path = none := by
  obtain ⟨d, hd, -⟩ := run_perform_ok h
  unfold DiskManager.createFile at hd
  split at hd
  · cases hd
  · next hfile =>
    simpa [DiskManager.isFile] using hfile

/-- Only a file that is not open is opened. -/
theorem closed_of_openFile {path : String} {fd : Int} {t : FileSys} (h : (openFile path fd).run s = (.ok (), t)) :
    s.disk.path2fd path = none := by
  obtain ⟨d, hd, -⟩ := run_call_ok h
  unfold DiskManager.openFile at hd
  split at hd
  · cases hd
  · split at hd
    · cases hd
    · next hopen => simpa using hopen

end runs

/-- A file with what it starts with, and the descriptor that it is open under, if any. -/
structure FrontOf where
  fd : Option Int
  path : String
  front : Bytes

/-- The file is there as said. -/
def Shows (s : FileSys) (x : FrontOf) : Prop :=
  (∀ fd, x.fd = some fd → s.disk.fd2path fd = some x.path) ∧ s.disk.HasFront x.path x.front

section leads
variable {fd pageNo : Int} {path : String} {front data : Bytes}

theorem leads_createFile {s : FileSys} (hfile : s.disk.files path = none) :
    ∃ s', (createFile path).run s = (.ok (), s') ∧ s'.Shows ⟨none, path, []⟩ ∧ s'.disk.path2fd = s.disk.path2fd := by
  refine ⟨_, run_perform (DiskManager.createFile_eq hfile), ?_, rfl⟩
  exact ⟨nofun, [], Function.update_self .., List.nil_prefix⟩

theorem leads_openFile (fd : Int) {s : FileSys} (hs : s.Shows ⟨none, path, front⟩) (hopen : s.disk.path2fd path = none) :
    ∃ s', (openFile path fd).run s = (.ok (), s') ∧ s'.Shows ⟨some fd, path, front⟩ := by
  obtain ⟨-, file, hfile, hpre⟩ := hs
  refine ⟨_, run_call (DiskManager.openFile_eq hfile hopen), ?_, file, hfile, hpre⟩
  intro fd' h
  cases h
  exact Function.update_self ..

/-- A closed file is not open. -/
theorem path2fd_of_closeFile {s t : FileSys} (hs : s.disk.fd2path fd = some path)
    (h : (closeFile fd).run s = (.ok (), t)) : t.disk.path2fd path = none := by
  rw [closeFile, run_call (DiskManager.closeFile_eq hs)] at h
  cases h
  exact Function.update_self ..

theorem leads_closeFile : Act.Leads Shows (closeFile fd) ⟨some fd, path, front⟩ () ⟨none, path, front⟩ := by
  intro s hs
  exact ⟨_, run_call (DiskManager.closeFile_eq (hs.1 fd rfl)), nofun, hs.2⟩

theorem leads_setFd2pageno (n : Int) :
    Act.Leads Shows (setFd2pageno fd n) ⟨some fd, path, front⟩ () ⟨some fd, path, front⟩ := by
  intro s hs
  exact ⟨_, run_call rfl, hs⟩

/-- The header page is written. -/
theorem leads_writePage_zero (data : Bytes) :
    Act.Leads Shows (writePage fd 0 data) ⟨some fd, path, front⟩ () ⟨some fd, path, data⟩ := by
  intro s hs
  refine ⟨_, run_perform (DiskManager.writePage_eq (hs.1 fd rfl) (Int.le_refl 0) (by decide)), hs.1, ?_⟩
  exact DiskManager.hasFront_writeAt_zero _

/-- A page behind the header page is written. -/
theorem leads_writePage (h1 : 1 ≤ pageNo) (hint : pageNo * pageSize ≤ intMax) (hfit : (front.length : Int) ≤ pageSize) :
    Act.Leads Shows (writePage fd pageNo data) ⟨some fd, path, front⟩ () ⟨some fd, path, front⟩ := by
  intro s hs
  refine ⟨_, run_perform (DiskManager.writePage_eq (hs.1 fd rfl) (by omega) hint), hs.1, ?_⟩
  have hlen : front.length ≤ pageSize.toNat * 1 := by
    rw [Nat.mul_one]
    exact (Int.le_toNat (by decide)).2 hfit
  have hoff : pageSize.toNat * 1 ≤ pageSize.toNat * pageNo.toNat := Nat.mul_le_mul_left _ (by omega)
  exact hs.2.writeAt (Nat.le_trans hlen hoff)

/-- The first bytes of the file are read. -/
theorem leads_readPage {n : Nat} (hn : n ≤ front.length) :
    Act.Leads Shows (readPage fd 0 n) ⟨some fd, path, front⟩ (front.take n) ⟨some fd, path, front⟩ := by
  intro s hs
  obtain ⟨hfd, file, hfile, hpre⟩ := hs
  refine ⟨s, ?_, hfd, file, hfile, hpre⟩
  have hseek : s.disk.lseek fd 0 = .ok (path, file) := by
    simp [DiskManager.lseek, hfd fd rfl, hfile, show (0 : Int) ≤ intMax by decide]
  have hread : readAt file (pageSize.toNat * (0 : Int).toNat) n = front.take n := by
    obtain ⟨rest, rfl⟩ := hpre
    simp only [readAt, Int.toNat_zero, Nat.mul_zero, List.drop_zero, List.take_append_of_le_length hn]
  rw [readPage, Act.run_bind_of_ok (Act.run_get s), hseek]
  simp only [hread, List.length_take, Nat.min_eq_left hn, if_true]
  rfl

theorem leads_writePages {pages : List (Int × Bytes)} (h : ∀ page ∈ pages, 1 ≤ page.1 ∧ page.1 * pageSize ≤ intMax)
    (hfit : (front.length : Int) ≤ pageSize) :
    Act.Leads Shows (writePages fd pages) ⟨some fd, path, front⟩ () ⟨some fd, path, front⟩ :=
  Act.Leads.forM fun page hp => leads_writePage (h page hp).1 (h page hp).2 hfit

end leads

end FileSys

end Rmdb
