import Rmdb.Storage.Directory

/-!
# Which files there are and which are open

- `Skeleton`: what the directory and the descriptors show apart from the contents of the files;
- `triple_…`: what each operation of the disk manager does to it and when it throws. A failure of a system call is not
  told apart further (`Fault.IsCheck`).
-/

namespace Rmdb

open Lib

structure Skeleton where
  isFile : String → Bool
  fd2path : Int → Option String
  path2fd : String → Option Int
  dbMeta : DbMeta

namespace Skeleton

/-- A new file. -/
def create (σ : Skeleton) (path : String) : Skeleton := { σ with isFile := Function.update σ.isFile path true }

/-- A file less. -/
def destroy (σ : Skeleton) (path : String) : Skeleton := { σ with isFile := Function.update σ.isFile path false }

/-- The file is opened. -/
def opened (σ : Skeleton) (path : String) (fd : Int) : Skeleton :=
  { σ with
    fd2path := Function.update σ.fd2path fd (some path)
    path2fd := Function.update σ.path2fd path (some fd) }

/-- The file is closed. -/
def closed (σ : Skeleton) (path : String) (fd : Int) : Skeleton :=
  { σ with
    fd2path := Function.update σ.fd2path fd none
    path2fd := Function.update σ.path2fd path none }

/-- Open files exist. -/
structure Sound (σ : Skeleton) : Prop where
  fd2path : ∀ fd path, σ.fd2path fd = some path → σ.isFile path = true
  path2fd : ∀ path fd, σ.path2fd path = some fd → σ.isFile path = true

variable {σ : Skeleton} {path : String} {fd : Int}

theorem opened_closed (hfd : σ.fd2path fd = none) (hpath : σ.path2fd path = none) :
    (σ.opened path fd).closed path fd = σ := by
  simp only [opened, closed, Function.update_idem]
  rw [← hfd, ← hpath, Function.update_eq_self, Function.update_eq_self]

theorem create_destroy (hfile : σ.isFile path = false) : (σ.create path).destroy path = σ := by
  simp only [create, destroy, Function.update_idem]
  rw [← hfile, Function.update_eq_self]

theorem destroy_opened : (σ.opened path fd).destroy path = (σ.destroy path).opened path fd := rfl

/-- A file that is not there is not open. -/
theorem Sound.closed_of_absent (h : σ.Sound) (hfile : σ.isFile path = false) : σ.path2fd path = none := by
  cases hopen : σ.path2fd path with
  | none => rfl
  | some fd =>
    rw [h.path2fd path fd hopen] at hfile
    cases hfile

theorem Sound.create (h : σ.Sound) (path : String) : (σ.create path).Sound := by
  constructor
  · intro fd p hp
    by_cases hpp : p = path
    · subst hpp
      exact Function.update_self ..
    · exact (Function.update_of_ne hpp ..).trans (h.fd2path fd p hp)
  · intro p fd hp
    by_cases hpp : p = path
    · subst hpp
      exact Function.update_self ..
    · exact (Function.update_of_ne hpp ..).trans (h.path2fd p fd hp)

theorem Sound.opened (h : σ.Sound) (fd : Int) (hfile : σ.isFile path = true) : (σ.opened path fd).Sound := by
  constructor
  · intro fd' p hp
    change Function.update σ.fd2path fd (some path) fd' = some p at hp
    by_cases hfd : fd' = fd
    · rw [hfd, Function.update_self] at hp
      cases hp
      exact hfile
    · rw [Function.update_of_ne hfd] at hp
      exact h.fd2path fd' p hp
  · intro p fd' hp
    change Function.update σ.path2fd path (some fd) p = some fd' at hp
    by_cases hpp : p = path
    · rw [hpp]
      exact hfile
    · rw [Function.update_of_ne hpp] at hp
      exact h.path2fd p fd' hp

theorem Sound.closed (h : σ.Sound) : (σ.closed path fd).Sound := by
  constructor
  · intro fd' p hp
    change Function.update σ.fd2path fd none fd' = some p at hp
    by_cases hfd : fd' = fd
    · rw [hfd, Function.update_self] at hp
      cases hp
    · rw [Function.update_of_ne hfd] at hp
      exact h.fd2path fd' p hp
  · intro p fd' hp
    change Function.update σ.path2fd path none p = some fd' at hp
    by_cases hpp : p = path
    · rw [hpp, Function.update_self] at hp
      cases hp
    · rw [Function.update_of_ne hpp] at hp
      exact h.path2fd p fd' hp

end Skeleton

namespace FileSys

def skeleton (s : FileSys) : Skeleton := ⟨s.disk.isFile, s.disk.fd2path, s.disk.path2fd, s.dbMeta⟩

/-- The state has this skeleton. -/
def Is (σ : Skeleton) (s : FileSys) : Prop := s.skeleton = σ

section rules
variable {σ : Skeleton} {path : String} {fd pageNo : Int} {data : Bytes}

/-- A step that writes one file. -/
theorem skeleton_put (s : FileSys) (path : String) (file : Option Bytes) (step : FsStep) :
    (record { s with disk := { s.disk with files := Function.update s.disk.files path file } } step).skeleton =
      { s.skeleton with isFile := Function.update s.disk.isFile path file.isSome } := by
  have hfile : (fun p => (Function.update s.disk.files path file p).isSome) =
      Function.update s.disk.isFile path file.isSome := by
    funext p
    by_cases hp : p = path
    · subst hp
      simp
    · simp [Function.update_of_ne hp, DiskManager.isFile]
  rw [← hfile]
  rfl

/-- A new file is created; a file that exists is refused. -/
theorem triple_createFile {E : Fault → FileSys → Prop}
    (hE : σ.isFile path = true → ∀ s, Is σ s → E (.thrown (.fileExists path)) s) :
    Act.Triple (Is σ) (createFile path) (fun _ s => σ.isFile path = false ∧ Is (σ.create path) s) E := by
  rintro s rfl
  by_cases hfile : s.disk.isFile path = true
  · have herr : s.disk.createFile path = .error (.fileExists path) := by rw [DiskManager.createFile, if_pos hfile]
    rw [createFile, perform, Act.run_bind, run_call_error herr]
    exact hE hfile s rfl
  · have hnone : s.disk.files path = none := by simpa [DiskManager.isFile] using hfile
    rw [createFile, run_perform (DiskManager.createFile_eq hnone)]
    exact ⟨by simpa [skeleton] using hfile, skeleton_put ..⟩

theorem triple_destroyFile {E : Fault → FileSys → Prop} (hfile : σ.isFile path = true) (hopen : σ.path2fd path = none) :
    Act.Triple (Is σ) (destroyFile path) (fun _ => Is (σ.destroy path)) E := by
  rintro s rfl
  obtain ⟨file, hsome⟩ := Option.isSome_iff_exists.1 (show (s.disk.files path).isSome from hfile)
  rw [destroyFile, run_perform (DiskManager.destroyFile_eq hsome hopen)]
  exact skeleton_put ..

theorem triple_openFile {E : Fault → FileSys → Prop} (hfile : σ.isFile path = true) (hopen : σ.path2fd path = none) :
    Act.Triple (Is σ) (openFile path fd) (fun _ => Is (σ.opened path fd)) E := by
  rintro s rfl
  obtain ⟨file, hsome⟩ := Option.isSome_iff_exists.1 (show (s.disk.files path).isSome from hfile)
  rw [openFile, run_call (DiskManager.openFile_eq hsome hopen)]
  rfl

theorem triple_closeFile {E : Fault → FileSys → Prop} (hfd : σ.fd2path fd = some path) :
    Act.Triple (Is σ) (closeFile fd) (fun _ => Is (σ.closed path fd)) E := by
  rintro s rfl
  rw [closeFile, run_call (DiskManager.closeFile_eq hfd)]
  rfl

theorem triple_setFd2pageno {E : Fault → FileSys → Prop} (n : Int) :
    Act.Triple (Is σ) (setFd2pageno fd n) (fun _ => Is σ) E := by
  rintro s rfl
  rw [setFd2pageno, run_call (d := s.disk.setFd2pageno fd n) rfl]
  rfl

theorem lseek_error {d : DiskManager} {e : RMDBError} (h : d.lseek fd pageNo = .error e) : e = .unix := by
  unfold DiskManager.lseek at h
  split at h
  · split at h
    · cases h
      rfl
    · cases h
  · cases h
    rfl

/-- A page of an open file is written; no file comes or goes. -/
theorem triple_writePage {E : Fault → FileSys → Prop} (hσ : σ.Sound) (hE : ∀ e s, ¬e.IsCheck → E e s) :
    Act.Triple (Is σ) (writePage fd pageNo data) (fun _ => Is σ) E := by
  rintro s rfl
  cases hseek : s.disk.lseek fd pageNo with
  | error e =>
    have herr : s.disk.writePage fd pageNo data = .error e := by rw [DiskManager.writePage, hseek]; rfl
    cases lseek_error hseek
    rw [writePage, perform, Act.run_bind, run_call_error herr]
    exact hE _ _ id
  | ok r =>
    have hok : s.disk.writePage fd pageNo data = .ok { s.disk with
        files := Function.update s.disk.files r.1 (some (writeAt 0 r.2 (pageSize.toNat * pageNo.toNat) data)) } := by
      rw [DiskManager.writePage, hseek]
      rfl
    have hpath : s.disk.fd2path fd = some r.1 := by
      unfold DiskManager.lseek at hseek
      split at hseek
      · split at hseek
        · cases hseek
        · next hp =>
          cases hseek
          exact hp
      · cases hseek
    have hfile : s.disk.isFile r.1 = true := hσ.fd2path fd r.1 hpath
    rw [writePage, run_perform hok]
    refine (skeleton_put ..).trans ?_
    rw [Option.isSome_some, ← hfile, Function.update_eq_self]
    rfl

theorem triple_readPage {E : Fault → FileSys → Prop} {n : Nat} (hE : ∀ e s, ¬e.IsCheck → E e s) :
    Act.Triple (Is σ) (readPage fd pageNo n) (fun _ => Is σ) E := by
  intro s hs
  unfold readPage
  rw [Act.run_bind_of_ok (Act.run_get s)]
  cases hseek : s.disk.lseek fd pageNo with
  | error e =>
    cases lseek_error hseek
    exact hE _ _ id
  | ok r =>
    obtain ⟨path, file⟩ := r
    by_cases hlen : (readAt file (pageSize.toNat * pageNo.toNat) n).length = n
    · simp only [hlen, if_true]
      exact hs
    · simp only [hlen, if_false]
      exact hE _ _ id

theorem triple_writePages {E : Fault → FileSys → Prop} {pages : List (Int × Bytes)} (hσ : σ.Sound)
    (hE : ∀ e s, ¬e.IsCheck → E e s) : Act.Triple (Is σ) (writePages fd pages) (fun _ => Is σ) E :=
  Act.Triple.forM pages fun _ _ => triple_writePage hσ hE

end rules

end FileSys

end Rmdb
