import Mathlib.Data.List.Perm.Subperm
import Rmdb.System.SmManager

/-!
# What a database needs to be opened

- `Opens`: `open_db` in a new process returns, whatever descriptors it is given;
- `Openable`: every file that `db.meta` names is there with its header, and no two have one name;
- `opens_of_openable` and `not_opens_of_missing`: the first follows from the second, and a missing file prevents it.
-/

namespace Rmdb

open Lib Lib.Reader LogRecord

/-- A new process finds the directory. -/
def Directory.restart (dir : Directory) : FileSys where
  disk := ⟨fun _ => 0, fun _ => none, fun _ => none, dir.files⟩
  dbMeta := dir.dbMeta
  steps := []

/-- `open_db` returns. -/
def Opens (dir : Directory) : Prop := ∀ fds : Nat → Int, ((SmManager.openDb fds).run dir.restart).1 = .ok ()

/-- The file has room for the header of a table. -/
def HeapOk (file : Bytes) : Prop := 20 ≤ file.length

/-- The file has a header page, and the header can be read from it. -/
def IndexOk (file : Bytes) : Prop :=
  pageSize.toNat ≤ file.length ∧ (IxFileHdr.deserialize (readAt file 0 pageSize.toNat)).isSome = true

inductive FileKind
  | heap
  | index

def FileKind.Ok : FileKind → Bytes → Prop
  | .heap => HeapOk
  | .index => IndexOk

def indexFiles (tabName : TabName) (indexes : List IndexMeta) : List (String × FileKind) :=
  indexes.map fun index => (getIndexName tabName index.cols, .index)

/-- A write behind the first page changes nothing that matters. -/
theorem FileKind.Ok.writeAt {kind : FileKind} {file data : Bytes} {offset : Nat} (h : kind.Ok file)
    (hle : pageSize.toNat ≤ offset) : kind.Ok (writeAt 0 file offset data) := by
  have hpage : pageSize.toNat = 4096 := by decide
  cases kind with
  | heap =>
    change 20 ≤ file.length at h
    have hfront : file.take 20 <+: Lib.writeAt 0 file offset data :=
      prefix_writeAt (List.take_prefix ..) (by rw [List.length_take]; omega)
    have hlen := hfront.length_le
    rw [List.length_take] at hlen
    change 20 ≤ (Lib.writeAt 0 file offset data).length
    omega
  | index =>
    obtain ⟨hlen, hsome⟩ := h
    have hfront : file.take pageSize.toNat <+: Lib.writeAt 0 file offset data :=
      prefix_writeAt (List.take_prefix ..) (by rw [List.length_take]; omega)
    constructor
    · have := hfront.length_le
      rw [List.length_take] at this
      omega
    · have heq : readAt (Lib.writeAt 0 file offset data) 0 pageSize.toNat = readAt file 0 pageSize.toNat := by
        rw [readAt, readAt, List.drop_zero, List.drop_zero]
        have := List.prefix_iff_eq_take.1 hfront
        rw [List.length_take, Nat.min_eq_left hlen] at this
        exact this.symm
      rw [heq]
      exact hsome

/-- A heap file keeps its size under any write. -/
theorem HeapOk.writeAt_zero {file data : Bytes} (h : 20 ≤ data.length) : HeapOk (writeAt 0 file 0 data) :=
  Nat.le_trans h (prefix_writeAt_zero data).length_le

/-- An index file gets another header. -/
theorem IndexOk.writeAt_zero {file : Bytes} {hdr : IxFileHdr} (h : IndexOk file) (ht : hdr.Typed)
    (hfit : hdr.totLen ≤ pageSize) : IndexOk (writeAt 0 file 0 hdr.serialize) := by
  have hlen := ht.length_serialize
  have hpage : pageSize = 4096 := rfl
  constructor
  · refine Nat.le_trans h.1 ?_
    simp only [writeAt, List.take_zero, List.nil_append, List.length_append, List.length_drop]
    omega
  · have hfront : hdr.serialize <+: writeAt 0 file 0 hdr.serialize := prefix_writeAt_zero _
    obtain ⟨rest, hread⟩ := readAt_of_prefix (m := pageSize.toNat) hfront (by omega)
    rw [hread, ht.deserialize_serialize rest]
    rfl

/-- The files of a table. -/
def tabFiles (tab : TabMeta) : List (String × FileKind) := (tab.name, .heap) :: indexFiles tab.name tab.indexes

/-- The files of the tables. -/
def metaFiles (entries : List (TabName × TabMeta)) : List (String × FileKind) :=
  entries.flatMap fun entry => tabFiles entry.2

/-- These files are there, under different names. -/
structure Held (needs : List (String × FileKind)) (files : String → Option Bytes) : Prop where
  file : ∀ need ∈ needs, ∃ file, files need.1 = some file ∧ need.2.Ok file
  nodup : (needs.map Prod.fst).Nodup

/-- The metadata and the files fit. -/
def Openable (dir : Directory) : Prop := Held (metaFiles dir.dbMeta.tabs) dir.files

section held
variable {needs needs' : List (String × FileKind)} {need : String × FileKind} {files : String → Option Bytes}
  {path : String}

theorem Held.subperm (h : Held needs files) (hsub : needs'.Subperm needs) : Held needs' files := by
  obtain ⟨l, hperm, hsub⟩ := hsub
  constructor
  · intro need hneed
    exact h.file need (hsub.subset (hperm.mem_iff.2 hneed))
  · exact ((hperm.map Prod.fst).nodup_iff).1 (h.nodup.sublist (hsub.map Prod.fst))

theorem Held.append_left (h : Held (needs ++ needs') files) : Held needs files :=
  h.subperm (List.sublist_append_left ..).subperm

theorem Held.append_right (h : Held (needs ++ needs') files) : Held needs' files :=
  h.subperm (List.sublist_append_right ..).subperm

theorem Held.tail (h : Held (need :: needs) files) : Held needs files := h.subperm (List.sublist_cons_self ..).subperm

/-- A file that is not there is none of them. -/
theorem Held.ne_of_absent (h : Held needs files) (hpath : files path = none) : ∀ need ∈ needs, need.1 ≠ path := by
  rintro need hneed rfl
  obtain ⟨file, hfile, -⟩ := h.file need hneed
  rw [hpath] at hfile
  cases hfile

/-- The first file is none of the others. -/
theorem Held.ne_head (h : Held (need :: needs) files) : ∀ need' ∈ needs, need'.1 ≠ need.1 := by
  intro need' hneed heq
  have hnodup := h.nodup
  rw [List.map_cons, List.nodup_cons] at hnodup
  exact hnodup.1 (heq ▸ List.mem_map_of_mem hneed)

/-- No file is in both lists. -/
theorem Held.ne_append (h : Held (needs ++ needs') files) : ∀ n ∈ needs, ∀ n' ∈ needs', n.1 ≠ n'.1 := by
  intro n hn n' hn'
  have hnodup := h.nodup
  rw [List.map_append, List.nodup_append] at hnodup
  exact hnodup.2.2 n.1 (List.mem_map_of_mem hn) n'.1 (List.mem_map_of_mem hn')

/-- A file is needed for one thing. -/
theorem Held.eq_of_path (h : Held needs files) {need' : String × FileKind} (hneed : need ∈ needs) (hneed' : need' ∈ needs)
    (heq : need.1 = need'.1) : need = need' :=
  List.inj_on_of_nodup_map h.nodup hneed hneed' heq

theorem Held.congr {files' : String → Option Bytes} (h : Held needs files)
    (heq : ∀ need ∈ needs, files' need.1 = files need.1) : Held needs files' :=
  ⟨fun need hneed => by rw [heq need hneed]; exact h.file need hneed, h.nodup⟩

end held

/-! ## Opening one file -/

section oneFile
variable {s : FileSys} {path : String} {fd : Int} {file : Bytes}

/-- Opening files changes no file, and only adds to the open ones. -/
structure Opened (path : String) (s s' : FileSys) : Prop where
  files : s'.disk.files = s.disk.files
  path2fd : ∀ p, p ≠ path → s'.disk.path2fd p = s.disk.path2fd p

theorem opened_openFile {s' : FileSys} (h : (FileSys.openFile path fd).run s = (.ok (), s')) : Opened path s s' := by
  obtain ⟨d, hd, rfl⟩ := FileSys.run_call_ok h
  unfold DiskManager.openFile at hd
  split at hd
  · cases hd
  · split at hd
    · cases hd
    · cases hd
      exact ⟨rfl, fun p hp => Function.update_of_ne hp ..⟩

/-- The file that is opened is there, and the descriptor is open on it. -/
theorem file_of_openFile {s' : FileSys} (h : (FileSys.openFile path fd).run s = (.ok (), s')) :
    (∃ file, s.disk.files path = some file) ∧ s'.disk.fd2path fd = some path := by
  obtain ⟨d, hd, rfl⟩ := FileSys.run_call_ok h
  unfold DiskManager.openFile at hd
  split at hd
  · cases hd
  · next hfile =>
    split at hd
    · cases hd
    · cases hd
      exact ⟨Option.ne_none_iff_exists'.1 (by simpa [DiskManager.isFile] using hfile), Function.update_self ..⟩

/-- What is read from the front of a file. -/
theorem readPage_ok {s' : FileSys} {n : Nat} {data : Bytes}
    (h : (FileSys.readPage fd 0 n).run s = (.ok data, s')) : s' = s ∧
      ∃ path, s.disk.fd2path fd = some path ∧ data = readAt ((s.disk.files path).getD []) 0 n ∧ data.length = n := by
  unfold FileSys.readPage at h
  rw [Act.run_bind_of_ok (Act.run_get s)] at h
  cases hseek : s.disk.lseek fd 0 with
  | error e =>
    rw [hseek] at h
    cases h
  | ok r =>
    obtain ⟨path, file⟩ := r
    rw [hseek] at h
    dsimp only at h
    unfold DiskManager.lseek at hseek
    split at hseek
    · split at hseek
      · cases hseek
      · next path hpath =>
        cases hseek
        split at h
        · next hlen =>
          cases h
          exact ⟨rfl, _, hpath, rfl, hlen⟩
        · cases h
    · cases hseek

/-- The table that is opened is there, and no file changes. -/
theorem opened_heap {s' : FileSys} {hdr : RmFileHdr} (h : (RmManager.openFile path fd).run s = (.ok hdr, s')) :
    (∃ file, s.disk.files path = some file ∧ HeapOk file) ∧ Opened path s s' := by
  unfold RmManager.openFile at h
  obtain ⟨_, s₁, h₁, hread⟩ := Act.run_bind_eq_ok.1 h
  obtain ⟨buf, s₂, h₂, hset⟩ := Act.run_bind_eq_ok.1 hread
  have hopened := opened_openFile h₁
  obtain ⟨⟨file, hfile⟩, hfd⟩ := file_of_openFile h₁
  obtain ⟨rfl, path', hpath, hbuf, hlen⟩ := readPage_ok h₂
  cases hfd.symm.trans hpath
  rw [hopened.files, hfile, Option.getD_some, readAt, List.drop_zero] at hbuf
  refine ⟨⟨file, hfile, ?_⟩, ?_⟩
  · rw [hbuf, List.length_take] at hlen
    change 20 ≤ file.length
    omega
  · split at hset
    · cases hset
    · obtain ⟨_, s₃, h₃, hend⟩ := Act.run_bind_eq_ok.1 hset
      obtain ⟨d, hd, rfl⟩ := FileSys.run_call_ok h₃
      cases hd
      cases hend
      exact ⟨hopened.files, hopened.path2fd⟩

/-- The index that is opened is there, and no file changes. -/
theorem opened_index {s' : FileSys} {tabName : TabName} {cols : List ColMeta} {hdr : IxFileHdr}
    (h : (IxManager.openIndex tabName cols fd).run s = (.ok hdr, s')) :
    (∃ file, s.disk.files (getIndexName tabName cols) = some file ∧ IndexOk file) ∧
      Opened (getIndexName tabName cols) s s' := by
  unfold IxManager.openIndex at h
  obtain ⟨_, s₁, h₁, hread⟩ := Act.run_bind_eq_ok.1 h
  obtain ⟨_, s₂, h₂, hread'⟩ := Act.run_bind_eq_ok.1 hread
  obtain ⟨buf, s₃, h₃, hset⟩ := Act.run_bind_eq_ok.1 hread'
  have hopened := opened_openFile h₁
  obtain ⟨⟨file, hfile⟩, hfd⟩ := file_of_openFile h₁
  obtain ⟨rfl, -⟩ := readPage_ok h₂
  obtain ⟨rfl, path', hpath, hbuf, hlen⟩ := readPage_ok h₃
  cases hfd.symm.trans hpath
  rw [hopened.files, hfile, Option.getD_some] at hbuf
  split at hset
  · cases hset
  · next hdr' hhdr =>
    rw [hbuf] at hhdr
    refine ⟨⟨file, hfile, ?_, by rw [hhdr]; rfl⟩, ?_⟩
    · rw [hbuf, readAt, List.drop_zero, List.length_take] at hlen
      omega
    · obtain ⟨_, s₄, h₄, hset'⟩ := Act.run_bind_eq_ok.1 hset
      cases h₄
      obtain ⟨_, s₅, h₅, hend⟩ := Act.run_bind_eq_ok.1 hset'
      obtain ⟨d, hd, rfl⟩ := FileSys.run_call_ok h₅
      cases hd
      cases hend
      exact ⟨hopened.files, hopened.path2fd⟩

/-- The state in which a file is open, with what the file holds. -/
theorem run_openFile_of_file (hfile : s.disk.files path = some file) (hopen : s.disk.path2fd path = none) :
    ∃ s', (FileSys.openFile path fd).run s = (.ok (), s') ∧ s'.Shows ⟨some fd, path, file⟩ :=
  FileSys.leads_openFile fd ⟨nofun, file, hfile, List.prefix_rfl⟩ hopen

theorem run_openHeap (hfile : s.disk.files path = some file) (hok : HeapOk file) (hopen : s.disk.path2fd path = none) :
    ∃ hdr s', (RmManager.openFile path fd).run s = (.ok hdr, s') := by
  obtain ⟨s₁, h₁, hshow₁⟩ := @run_openFile_of_file _ _ fd _ hfile hopen
  obtain ⟨s₂, h₂, hshow₂⟩ := FileSys.leads_readPage (n := 20) hok s₁ hshow₁
  have hlen : (file.take 20).length = 20 := by
    rw [List.length_take]
    exact Nat.min_eq_left hok
  obtain ⟨r, hr⟩ := RmFileHdr.exists_fields hlen
  obtain ⟨s₃, h₃, -⟩ := FileSys.leads_setFd2pageno r.1.numPages s₂ hshow₂
  unfold RmManager.openFile
  rw [rmFileHdrPage, Act.run_bind_of_ok h₁, Act.run_bind_of_ok h₂]
  simp only [hr]
  exact ⟨_, _, Act.run_bind_of_ok h₃⟩

theorem run_openIndex {tabName : TabName} {cols : List ColMeta}
    (hfile : s.disk.files (getIndexName tabName cols) = some file) (hok : IndexOk file)
    (hopen : s.disk.path2fd (getIndexName tabName cols) = none) :
    ∃ hdr s', (IxManager.openIndex tabName cols fd).run s = (.ok hdr, s') := by
  obtain ⟨hlen, hsome⟩ := hok
  obtain ⟨hdr, hhdr⟩ := Option.isSome_iff_exists.1 hsome
  have hread : readAt file 0 pageSize.toNat = file.take pageSize.toNat := by rw [readAt, List.drop_zero]
  rw [hread] at hhdr
  obtain ⟨s₁, h₁, hshow₁⟩ := @run_openFile_of_file _ _ fd _ hfile hopen
  obtain ⟨s₂, h₂, hshow₂⟩ := FileSys.leads_readPage (n := 8) (Nat.le_trans (by decide) hlen) s₁ hshow₁
  obtain ⟨s₃, h₃, hshow₃⟩ := FileSys.leads_readPage (n := pageSize.toNat) hlen s₂ hshow₂
  obtain ⟨s₄, h₄, -⟩ := FileSys.leads_setFd2pageno (s₃.disk.fd2pageno fd + 1) s₃ hshow₃
  unfold IxManager.openIndex
  rw [ixFileHdrPage, Act.run_bind_of_ok h₁, Act.run_bind_of_ok h₂, Act.run_bind_of_ok h₃]
  simp only [hhdr]
  rw [Act.run_bind_of_ok (Act.run_get s₃)]
  exact ⟨_, _, Act.run_bind_of_ok h₄⟩

end oneFile

/-! ## Opening all of them -/

section openAll
variable {fds : Nat → Int} {tabName : TabName}

/-- The opened files were there, and no file changes. -/
theorem files_of_openIndexes : ∀ {indexes : List IndexMeta} {i : Nat} {s s' : FileSys},
    (SmManager.openIndexes fds tabName indexes i).run s = (.ok (), s') →
    (∀ need ∈ indexFiles tabName indexes, ∃ file, s.disk.files need.1 = some file) ∧ s'.disk.files = s.disk.files
  | [], _, _, _, h => by
    cases h
    exact ⟨nofun, rfl⟩
  | index :: indexes, i, s, s', h => by
    unfold SmManager.openIndexes at h
    obtain ⟨_, s₁, h₁, h⟩ := Act.run_bind_eq_ok.1 h
    obtain ⟨⟨file, hfile, -⟩, hopened⟩ := opened_index h₁
    obtain ⟨hrest, hfiles⟩ := files_of_openIndexes h
    refine ⟨fun need hneed => ?_, hfiles.trans hopened.files⟩
    rcases List.mem_cons.1 hneed with rfl | hneed
    · exact ⟨file, hfile⟩
    · rw [← hopened.files]
      exact hrest need hneed

theorem files_of_openTables : ∀ {entries : List (TabName × TabMeta)} {i : Nat} {s s' : FileSys},
    (SmManager.openTables fds entries i).run s = (.ok (), s') →
    ∀ need ∈ metaFiles entries, ∃ file, s.disk.files need.1 = some file
  | [], _, _, _, _ => by simp [metaFiles]
  | entry :: entries, i, s, s', h => by
    unfold SmManager.openTables at h
    obtain ⟨_, s₁, h₁, h⟩ := Act.run_bind_eq_ok.1 h
    obtain ⟨_, s₂, h₂, h⟩ := Act.run_bind_eq_ok.1 h
    obtain ⟨⟨file, hfile, -⟩, hopened⟩ := opened_heap h₁
    obtain ⟨hindex, hfiles⟩ := files_of_openIndexes h₂
    intro need hneed
    rw [metaFiles, List.flatMap_cons, tabFiles, List.cons_append, List.mem_cons, List.mem_append] at hneed
    rcases hneed with rfl | hneed | hneed
    · exact ⟨file, hfile⟩
    · rw [← hopened.files]
      exact hindex need hneed
    · rw [← hopened.files, ← hfiles]
      exact files_of_openTables h need hneed

/-- The indexes of a table are opened when their files are there and closed. -/
theorem run_openIndexes : ∀ {indexes : List IndexMeta} {i : Nat} {s : FileSys},
    Held (indexFiles tabName indexes) s.disk.files →
    (∀ need ∈ indexFiles tabName indexes, s.disk.path2fd need.1 = none) →
    ∃ s', (SmManager.openIndexes fds tabName indexes i).run s = (.ok (), s') ∧ s'.disk.files = s.disk.files ∧
      ∀ p, (∀ need ∈ indexFiles tabName indexes, need.1 ≠ p) → s'.disk.path2fd p = s.disk.path2fd p
  | [], _, s, _, _ => ⟨s, rfl, rfl, fun _ _ => rfl⟩
  | index :: indexes, i, s, hheld, hopen => by
    obtain ⟨file, hsome, hok⟩ := hheld.file _ List.mem_cons_self
    obtain ⟨hdr, s₁, h₁⟩ : ∃ hdr s₁, (IxManager.openIndex tabName index.cols (fds i)).run s = (.ok hdr, s₁) :=
      run_openIndex hsome hok (hopen _ List.mem_cons_self)
    have hopened := (opened_index h₁).2
    have hrest : Held (indexFiles tabName indexes) s₁.disk.files := by
      rw [hopened.files]
      exact hheld.tail
    obtain ⟨s₂, h₂, hfiles, hpath⟩ := run_openIndexes (i := i + 1) hrest fun need hneed => by
      rw [hopened.path2fd _ (hheld.ne_head need hneed)]
      exact hopen need (List.mem_cons_of_mem _ hneed)
    refine ⟨s₂, ?_, hfiles.trans hopened.files, fun p hp => ?_⟩
    · unfold SmManager.openIndexes
      rw [Act.run_bind_of_ok h₁, h₂]
    · rw [hpath p fun need hneed => hp need (List.mem_cons_of_mem _ hneed)]
      exact hopened.path2fd p (hp _ List.mem_cons_self).symm

theorem run_openTables : ∀ {entries : List (TabName × TabMeta)} {i : Nat} {s : FileSys},
    Held (metaFiles entries) s.disk.files → (∀ need ∈ metaFiles entries, s.disk.path2fd need.1 = none) →
    ∃ s', (SmManager.openTables fds entries i).run s = (.ok (), s')
  | [], _, s, _, _ => ⟨s, rfl⟩
  | entry :: entries, i, s, hheld, hopen => by
    have hsplit : metaFiles (entry :: entries) = (entry.2.name, .heap) ::
      (indexFiles entry.2.name entry.2.indexes ++ metaFiles entries) := rfl
    rw [hsplit] at hheld hopen
    obtain ⟨file, hsome, hok⟩ := hheld.file _ List.mem_cons_self
    obtain ⟨hdr, s₁, h₁⟩ : ∃ hdr s₁, (RmManager.openFile entry.2.name (fds i)).run s = (.ok hdr, s₁) :=
      run_openHeap hsome hok (hopen _ List.mem_cons_self)
    have hopened₁ := (opened_heap h₁).2
    have hothers : Held (indexFiles entry.2.name entry.2.indexes ++ metaFiles entries) s₁.disk.files := by
      rw [hopened₁.files]
      exact hheld.tail
    have hclosed : ∀ need ∈ indexFiles entry.2.name entry.2.indexes ++ metaFiles entries,
        s₁.disk.path2fd need.1 = none := by
      intro need hneed
      rw [hopened₁.path2fd _ (hheld.ne_head need hneed)]
      exact hopen need (List.mem_cons_of_mem _ hneed)
    obtain ⟨s₂, h₂, hfiles₂, hpath₂⟩ := @run_openIndexes fds _ _ (i + 1) _ hothers.append_left
      fun need hneed => hclosed need (List.mem_append_left _ hneed)
    have hrest : ∀ need ∈ metaFiles entries, s₂.disk.path2fd need.1 = none := by
      intro need hneed
      rw [hpath₂ need.1 fun need' hneed' => hothers.ne_append need' hneed' need hneed]
      exact hclosed need (List.mem_append_right _ hneed)
    obtain ⟨s₃, h₃⟩ := run_openTables (i := i + 1 + entry.2.indexes.length)
      (by rw [hfiles₂]; exact hothers.append_right) hrest
    refine ⟨s₃, ?_⟩
    unfold SmManager.openTables
    rw [Act.run_bind_of_ok h₁, Act.run_bind_of_ok h₂, h₃]

end openAll

/-- **A database whose files are there can be opened.** -/
theorem opens_of_openable {dir : Directory} (h : Openable dir) : Opens dir := by
  intro fds
  obtain ⟨s', hr⟩ := @run_openTables fds _ 0 dir.restart h fun _ _ => rfl
  unfold SmManager.openDb
  rw [Act.run_bind_of_ok (Act.run_get dir.restart)]
  exact congrArg Prod.fst hr

/-- **A database of which a file is missing cannot be opened.** -/
theorem not_opens_of_missing {dir : Directory} {need : String × FileKind} (hneed : need ∈ metaFiles dir.dbMeta.tabs)
    (hfile : dir.files need.1 = none) : ¬Opens dir := by
  intro h
  have hr := h fun i => i
  unfold SmManager.openDb at hr
  rw [Act.run_bind_of_ok (Act.run_get dir.restart)] at hr
  obtain ⟨file, hsome⟩ := files_of_openTables (Act.run_eq_of_fst hr) need hneed
  cases hsome.symm.trans hfile

end Rmdb
