import Rmdb.Common.Value
import Rmdb.Lib.PagedFile

/-!
# Pages on disk

- `DiskManager`: the files of the directory and the descriptors they are open under, as `disk_manager.cpp` keeps them;
- `readPage` and `writePage`: one page at its offset. A closed descriptor and an offset that no `int` holds are a
  failing `lseek`; a read that stops at the end of the file is the other error;
- `createFile`, `destroyFile`, `openFile` and `closeFile`, with the checks each makes. The system calls succeed.
-/

namespace Rmdb

open Lib

structure PageId where
  fd : Int
  pageNo : Int
  deriving DecidableEq

structure DiskManager where
  /-- The next page number of each descriptor. -/
  fd2pageno : Int → Int
  fd2path : Int → Option String
  path2fd : String → Option Int
  files : String → Option Bytes

namespace DiskManager

/-- The position of a page in the file behind `fd`. -/
def lseek (d : DiskManager) (fd pageNo : Int) : Except RMDBError (String × Bytes) :=
  if 0 ≤ pageNo ∧ pageNo * pageSize ≤ intMax then
    match d.fd2path fd with
    | none => .error .unix
    | some path => .ok (path, (d.files path).getD [])
  else .error .unix

/-- `write_page`. -/
def writePage (d : DiskManager) (fd pageNo : Int) (data : Bytes) : Except RMDBError DiskManager := do
  let (path, file) ← d.lseek fd pageNo
  let file := writeAt 0 file (pageSize.toNat * pageNo.toNat) data
  .ok { d with files := Function.update d.files path (some file) }

/-- `read_page`. -/
def readPage (d : DiskManager) (fd pageNo : Int) : Except RMDBError Bytes := do
  let (_, file) ← d.lseek fd pageNo
  let data := readAt file (pageSize.toNat * pageNo.toNat) pageSize.toNat
  if data.length = pageSize.toNat then .ok data else .error (.internal "DiskManager::read_page Error")

/-- `allocate_page`; its assertion on `fd` is the caller's. -/
def allocatePage (d : DiskManager) (fd : Int) : Int × DiskManager :=
  (d.fd2pageno fd, { d with fd2pageno := Function.update d.fd2pageno fd (d.fd2pageno fd + 1) })

/-! ## Files -/

/-- `is_file`. -/
def isFile (d : DiskManager) (path : String) : Bool := (d.files path).isSome

/-- `create_file`. -/
def createFile (d : DiskManager) (path : String) : Except RMDBError DiskManager :=
  if d.isFile path then .error (.fileExists path)
  else .ok { d with files := Function.update d.files path (some []) }

/-- `destroy_file`. -/
def destroyFile (d : DiskManager) (path : String) : Except RMDBError DiskManager :=
  if !d.isFile path then .error (.fileNotFound path)
  else if (d.path2fd path).isSome then .error (.fileNotClosed path)
  else .ok { d with files := Function.update d.files path none }

/-- `open_file`; `fd` is the descriptor that `open` returns. -/
def openFile (d : DiskManager) (path : String) (fd : Int) : Except RMDBError DiskManager :=
  if !d.isFile path then .error (.fileNotFound path)
  else if (d.path2fd path).isSome then .error (.fileNotClosed path)
  else .ok { d with path2fd := Function.update d.path2fd path (some fd), fd2path := Function.update d.fd2path fd (some path) }

/-- `close_file`. -/
def closeFile (d : DiskManager) (fd : Int) : Except RMDBError DiskManager :=
  match d.fd2path fd with
  | none => .error (.fileNotOpen fd)
  | some path =>
    .ok { d with path2fd := Function.update d.path2fd path none, fd2path := Function.update d.fd2path fd none }

/-- `set_fd2pageno`. -/
def setFd2pageno (d : DiskManager) (fd startPageNo : Int) : DiskManager :=
  { d with fd2pageno := Function.update d.fd2pageno fd startPageNo }

section equations
variable {d : DiskManager} {fd : Int} {path : String} {file : Bytes}

theorem createFile_eq (h : d.files path = none) :
    d.createFile path = .ok { d with files := Function.update d.files path (some []) } := by
  rw [createFile, isFile, h]
  rfl

theorem destroyFile_eq (h : d.files path = some file) (h' : d.path2fd path = none) :
    d.destroyFile path = .ok { d with files := Function.update d.files path none } := by
  rw [destroyFile, isFile, h, h']
  rfl

theorem openFile_eq (h : d.files path = some file) (h' : d.path2fd path = none) :
    d.openFile path fd = .ok { d with
      path2fd := Function.update d.path2fd path (some fd)
      fd2path := Function.update d.fd2path fd (some path) } := by
  rw [openFile, isFile, h, h']
  rfl

theorem closeFile_eq (h : d.fd2path fd = some path) :
    d.closeFile fd = .ok { d with
      path2fd := Function.update d.path2fd path none
      fd2path := Function.update d.fd2path fd none } := by
  rw [closeFile, h]

end equations

/-! ## Open files -/

/-- What a descriptor is open on exists and is not open under another. -/
structure Coherent (d : DiskManager) : Prop where
  file : ∀ fd path, d.fd2path fd = some path → d.isFile path = true
  descriptor : ∀ fd path, d.fd2path fd = some path → d.path2fd path = some fd

section coherent
variable {d d' : DiskManager} {fd pageNo : Int} {path : String} {data : Bytes}

/-- A file gets other contents. -/
theorem Coherent.put (h : d.Coherent) (path : String) (file : Bytes) :
    Coherent { d with files := Function.update d.files path (some file) } := by
  refine ⟨fun fd p hp => ?_, h.descriptor⟩
  change (Function.update d.files path (some file) p).isSome = true
  by_cases hpath : p = path
  · rw [hpath, Function.update_self, Option.isSome_some]
  · rw [Function.update_of_ne hpath]
    exact h.file fd p hp

/-- A file that is not open is deleted. -/
theorem Coherent.delete (h : d.Coherent) (hopen : d.path2fd path = none) :
    Coherent { d with files := Function.update d.files path none } := by
  refine ⟨fun fd p hp => ?_, h.descriptor⟩
  have hpath : p ≠ path := by
    rintro rfl
    rw [h.descriptor fd p hp] at hopen
    cases hopen
  change (Function.update d.files path none p).isSome = true
  rw [Function.update_of_ne hpath]
  exact h.file fd p hp

theorem Coherent.opened (h : d.Coherent) (fd : Int) (hfile : d.isFile path = true) (hopen : d.path2fd path = none) :
    Coherent { d with
      path2fd := Function.update d.path2fd path (some fd), fd2path := Function.update d.fd2path fd (some path) } := by
  constructor
  · intro fd' p hp
    change Function.update d.fd2path fd (some path) fd' = some p at hp
    by_cases hfd : fd' = fd
    · rw [hfd, Function.update_self] at hp
      cases hp
      exact hfile
    · rw [Function.update_of_ne hfd] at hp
      exact h.file fd' p hp
  · intro fd' p hp
    change Function.update d.fd2path fd (some path) fd' = some p at hp
    change Function.update d.path2fd path (some fd) p = some fd'
    by_cases hfd : fd' = fd
    · rw [hfd, Function.update_self] at hp
      cases hp
      rw [hfd, Function.update_self]
    · rw [Function.update_of_ne hfd] at hp
      have hpath : p ≠ path := by
        rintro rfl
        rw [h.descriptor fd' p hp] at hopen
        cases hopen
      rw [Function.update_of_ne hpath]
      exact h.descriptor fd' p hp

theorem Coherent.closed (h : d.Coherent) (hfd : d.fd2path fd = some path) :
    Coherent { d with
      path2fd := Function.update d.path2fd path none, fd2path := Function.update d.fd2path fd none } := by
  have hother : ∀ fd' p, Function.update d.fd2path fd none fd' = some p → fd' ≠ fd ∧ d.fd2path fd' = some p := by
    intro fd' p hp
    by_cases hne : fd' = fd
    · rw [hne, Function.update_self] at hp
      cases hp
    · rw [Function.update_of_ne hne] at hp
      exact ⟨hne, hp⟩
  constructor
  · intro fd' p hp
    exact h.file fd' p (hother fd' p hp).2
  · intro fd' p hp'
    obtain ⟨hne, hp⟩ := hother fd' p hp'
    have hpath : p ≠ path := by
      rintro rfl
      have heq := (h.descriptor fd' p hp).symm.trans (h.descriptor fd p hfd)
      exact hne (Option.some.inj heq)
    change Function.update d.path2fd path none p = some fd'
    rw [Function.update_of_ne hpath]
    exact h.descriptor fd' p hp

/-- What a page write does: the file that the descriptor is open on changes. -/
theorem writePage_ok (h : d.writePage fd pageNo data = .ok d') :
    ∃ path, d.fd2path fd = some path ∧ d' = { d with
      files := Function.update d.files path (some (writeAt 0 ((d.files path).getD []) (pageSize.toNat * pageNo.toNat)
        data)) } := by
  unfold writePage lseek at h
  split at h
  · split at h
    · cases h
    · next path hpath =>
      cases h
      exact ⟨path, hpath, rfl⟩
  · cases h

end coherent

/-! ## The front of a file -/

/-- The file exists and starts with these bytes. -/
def HasFront (d : DiskManager) (path : String) (front : Bytes) : Prop := ∃ file, d.files path = some file ∧ front <+: file

section front
variable {d : DiskManager} {fd pageNo : Int} {path : String} {front data : Bytes}

theorem writePage_eq (hfd : d.fd2path fd = some path) (h0 : 0 ≤ pageNo) (hint : pageNo * pageSize ≤ intMax) :
    d.writePage fd pageNo data = .ok { d with
      files := Function.update d.files path (some (writeAt 0 ((d.files path).getD []) (pageSize.toNat * pageNo.toNat)
        data)) } := by
  unfold writePage lseek
  rw [if_pos ⟨h0, hint⟩, hfd]
  rfl

/-- The first page is written from its first byte on. -/
theorem hasFront_writeAt_zero (file : Bytes) :
    HasFront { d with files := Function.update d.files path (some (writeAt 0 file 0 data)) } path data :=
  ⟨_, Function.update_self .., prefix_writeAt_zero data⟩

/-- A write of any later page leaves what is in the first. -/
theorem HasFront.writeAt (h : d.HasFront path front) {offset : Nat} (hle : front.length ≤ offset) :
    HasFront { d with files := Function.update d.files path (some (writeAt 0 ((d.files path).getD []) offset data)) } path
      front := by
  obtain ⟨file, hfile, hpre⟩ := h
  refine ⟨_, Function.update_self .., ?_⟩
  rw [hfile, Option.getD_some]
  exact prefix_writeAt hpre hle

end front

end DiskManager

end Rmdb
