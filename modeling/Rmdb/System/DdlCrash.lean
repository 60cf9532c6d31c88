import Rmdb.System.CreateIndex
import Rmdb.System.OpenDb

/-!
# A crash during a schema change

- `Stage`: how far an operation is: which files hold what the metadata asks for, and whether one is missing;
  `Tracks`: the directory after each step can be opened exactly when the steps so far say so;
- one rule for each operation on a file, and from them the four operations of `sm_manager.cpp`;
- `crashPoint_opens_iff`: a database can be opened after a crash at any point, except between the first file that a DROP
  deletes and the new metadata.
-/

namespace Rmdb

open Lib

/-- The directories after the steps, each with the steps before it, are openable exactly as `C` says. -/
def Tracks (C : List FsStep → Prop) : List (FsStep × Directory) → Prop
  | [] => True
  | (step, dir) :: older => (Opens dir ↔ C (step :: older.map Prod.fst)) ∧ Tracks C older

theorem Tracks.at {C : List FsStep → Prop} {step : FsStep} {dir : Directory} {older : List (FsStep × Directory)} :
    ∀ {newer : List (FsStep × Directory)}, Tracks C (newer ++ (step, dir) :: older) →
      (Opens dir ↔ C (step :: older.map Prod.fst))
  | [], h => h.1
  | _ :: _, h => Tracks.at h.2

/-- Creating and writing files is as good as not. -/
def Steady (C : List FsStep → Prop) : Prop :=
  ∀ step steps, (∀ path, step ≠ .delete path) → step ≠ .dbMeta → (C (step :: steps) ↔ C steps)

theorem Steady.create {C : List FsStep → Prop} (hC : Steady C) (path : String) (steps : List FsStep) :
    C (.create path :: steps) ↔ C steps := by
  refine hC _ _ ?_ ?_
  · intro _ h
    cases h
  · intro h
    cases h

theorem Steady.write {C : List FsStep → Prop} (hC : Steady C) (fd : Int) (pageNo : Int) (steps : List FsStep) :
    C (.write fd pageNo :: steps) ↔ C steps := by
  refine hC _ _ ?_ ?_
  · intro _ h
    cases h
  · intro h
    cases h

/-- A file was deleted, and the metadata has not been rewritten. -/
def Halfway (steps : List FsStep) : Prop := (∃ path, .delete path ∈ steps) ∧ .dbMeta ∉ steps

theorem steady_not_halfway : Steady fun steps => ¬Halfway steps := by
  intro step steps hdelete hmeta
  have hne : ∀ path, FsStep.delete path ≠ step := fun path => (hdelete path).symm
  simp only [Halfway, List.mem_cons, hne, hmeta.symm, false_or]

namespace FileSys

/-- What the files hold: `needs`, among them all files of the metadata `db`, unless one is missing (`broken`). The open
files are `m`. -/
structure Shape (db : DbMeta) (needs : List (String × FileKind)) (broken : Prop) (m : Int → Option String)
    (s : FileSys) : Prop where
  dbMeta : s.dbMeta = db
  fd2path : s.disk.fd2path = m
  coherent : s.disk.Coherent
  held : Held needs s.disk.files
  whole : ¬broken → (metaFiles db.tabs).Subperm needs
  missing : broken → ∃ need ∈ metaFiles db.tabs, s.disk.files need.1 = none

/-- The state in the middle of an operation. -/
structure Stage (C : List FsStep → Prop) (db : DbMeta) (needs : List (String × FileKind)) (broken : Prop)
    (m : Int → Option String) (s : FileSys) : Prop where
  shape : s.Shape db needs broken m
  now : C (s.steps.map Prod.fst) ↔ ¬broken
  unflushed : FsStep.dbMeta ∉ s.steps.map Prod.fst
  tracks : Tracks C s.steps

section rules
variable {C : List FsStep → Prop} {db : DbMeta} {needs needs' : List (String × FileKind)} {broken broken' : Prop}
  {m m' : Int → Option String} {s : FileSys} {path : String} {fd pageNo : Int} {data : Bytes} {step : FsStep}

theorem Shape.opens_iff (h : s.Shape db needs broken m) : Opens s.directory ↔ ¬broken := by
  constructor
  · intro hopens hbroken
    obtain ⟨need, hneed, hfile⟩ := h.missing hbroken
    rw [← h.dbMeta] at hneed
    exact not_opens_of_missing hneed hfile hopens
  · intro hbroken
    apply opens_of_openable
    change Held (metaFiles s.dbMeta.tabs) s.disk.files
    rw [h.dbMeta]
    exact h.held.subperm (h.whole hbroken)

/-- A call that is no step. -/
theorem Stage.stay {d : DiskManager} (h : s.Stage C db needs broken m)
    (hshape : Shape db needs broken m' { s with disk := d }) : Stage C db needs broken m' { s with disk := d } :=
  ⟨hshape, h.now, h.unflushed, h.tracks⟩

theorem Stage.advance {d : DiskManager} (h : s.Stage C db needs broken m)
    (hshape : Shape db needs' broken' m' { s with disk := d })
    (hnow : C (step :: s.steps.map Prod.fst) ↔ ¬broken') (hstep : step ≠ .dbMeta) :
    Stage C db needs' broken' m' (record { s with disk := d } step) where
  shape := ⟨hshape.dbMeta, hshape.fd2path, hshape.coherent, hshape.held, hshape.whole, hshape.missing⟩
  now := hnow
  unflushed := by
    rw [record, List.map_cons, List.mem_cons, not_or]
    exact ⟨hstep.symm, h.unflushed⟩
  tracks := ⟨hshape.opens_iff.trans hnow.symm, h.tracks⟩

/-- A write to an open file. -/
theorem Shape.write {offset : Nat} (h : s.Shape db needs broken m) (hfd : m fd = some path)
    (hkeep : ∀ need ∈ needs, need.1 = path → ∀ file, need.2.Ok file → need.2.Ok (writeAt 0 file offset data)) :
    Shape db needs broken m { s with disk := { s.disk with
      files := Function.update s.disk.files path (some (writeAt 0 ((s.disk.files path).getD []) offset data)) } } where
  dbMeta := h.dbMeta
  fd2path := h.fd2path
  coherent := h.coherent.put path _
  held := by
    refine ⟨fun need hneed => ?_, h.held.nodup⟩
    obtain ⟨file, hfile, hok⟩ := h.held.file need hneed
    by_cases hpath : need.1 = path
    · refine ⟨writeAt 0 file offset data, ?_, hkeep need hneed hpath file hok⟩
      rw [hpath] at hfile ⊢
      rw [hfile, Option.getD_some]
      exact Function.update_self ..
    · exact ⟨file, (Function.update_of_ne hpath ..).trans hfile, hok⟩
  whole := h.whole
  missing := by
    intro hbroken
    obtain ⟨need, hneed, hnone⟩ := h.missing hbroken
    refine ⟨need, hneed, (Function.update_of_ne ?_ ..).trans hnone⟩
    rintro rfl
    have hfile := h.coherent.file fd need.1 (by rw [h.fd2path]; exact hfd)
    rw [DiskManager.isFile, hnone] at hfile
    cases hfile

/-! ### The operations on files -/

namespace Stage

theorem triple_createFile (hC : Steady C) : Act.Triple (Stage C db needs False m) (FileSys.createFile path)
    (fun _ s => (∀ need ∈ needs, need.1 ≠ path) ∧ s.Stage C db needs False m) fun _ s => Tracks C s.steps := by
  intro s hs
  by_cases hfile : s.disk.files path = none
  · rw [FileSys.createFile, run_perform (DiskManager.createFile_eq hfile)]
    have hne := hs.shape.held.ne_of_absent hfile
    refine ⟨hne, hs.advance ?_ ((hC.create ..).trans hs.now) (by simp)⟩
    exact {
      dbMeta := hs.shape.dbMeta
      fd2path := hs.shape.fd2path
      coherent := hs.shape.coherent.put path []
      held := hs.shape.held.congr fun need hneed => Function.update_of_ne (hne need hneed) ..
      whole := hs.shape.whole
      missing := False.elim }
  · have herr : s.disk.createFile path = .error (.fileExists path) := by
      rw [DiskManager.createFile, if_pos]
      exact Option.isSome_iff_ne_none.2 hfile
    rw [FileSys.createFile, perform, Act.run_bind, run_call_error herr]
    exact hs.tracks

theorem triple_openFile : Act.Triple (Stage C db needs broken m) (FileSys.openFile path fd)
    (fun _ => Stage C db needs broken (Function.update m fd (some path))) fun _ s => Tracks C s.steps := by
  intro s hs
  cases hopen : s.disk.openFile path fd with
  | error e =>
    rw [FileSys.openFile, run_call_error hopen]
    exact hs.tracks
  | ok d =>
    rw [FileSys.openFile, run_call hopen]
    unfold DiskManager.openFile at hopen
    split at hopen
    · cases hopen
    · next hfile =>
      split at hopen
      · cases hopen
      · next hclosed =>
        cases hopen
        exact hs.stay {
          dbMeta := hs.shape.dbMeta
          fd2path := by rw [← hs.shape.fd2path]
          coherent := hs.shape.coherent.opened fd (by simpa using hfile) (by simpa using hclosed)
          held := hs.shape.held
          whole := hs.shape.whole
          missing := hs.shape.missing }

theorem triple_closeFile : Act.Triple (Stage C db needs broken m) (FileSys.closeFile fd)
    (fun _ => Stage C db needs broken (Function.update m fd none)) fun _ s => Tracks C s.steps := by
  intro s hs
  cases hpath : s.disk.fd2path fd with
  | none =>
    have herr : s.disk.closeFile fd = .error (.fileNotOpen fd) := by rw [DiskManager.closeFile, hpath]
    rw [FileSys.closeFile, run_call_error herr]
    exact hs.tracks
  | some path =>
    rw [FileSys.closeFile, run_call (DiskManager.closeFile_eq hpath)]
    exact hs.stay {
      dbMeta := hs.shape.dbMeta
      fd2path := by rw [← hs.shape.fd2path]
      coherent := hs.shape.coherent.closed hpath
      held := hs.shape.held
      whole := hs.shape.whole
      missing := hs.shape.missing }

theorem triple_setFd2pageno (n : Int) : Act.Triple (Stage C db needs broken m) (FileSys.setFd2pageno fd n)
    (fun _ => Stage C db needs broken m) fun _ s => Tracks C s.steps := by
  intro s hs
  exact hs.stay ⟨hs.shape.dbMeta, hs.shape.fd2path, ⟨hs.shape.coherent.file, hs.shape.coherent.descriptor⟩,
    hs.shape.held, hs.shape.whole, hs.shape.missing⟩

theorem triple_readPage {n : Nat} : Act.Triple (Stage C db needs broken m) (FileSys.readPage fd pageNo n)
    (fun _ => Stage C db needs broken m) fun _ s => Tracks C s.steps := by
  intro s hs
  unfold FileSys.readPage
  rw [Act.run_bind_of_ok (Act.run_get s)]
  cases s.disk.lseek fd pageNo with
  | error e => exact hs.tracks
  | ok r =>
    obtain ⟨path, file⟩ := r
    by_cases hlen : (readAt file (pageSize.toNat * pageNo.toNat) n).length = n
    · simp only [hlen, if_true]
      exact hs
    · simp only [hlen, if_false]
      exact hs.tracks

/-- A page is written that leaves the file what it was. -/
theorem triple_writePage (hC : Steady C) (hkeep : ∀ path, m fd = some path → ∀ need ∈ needs, need.1 = path →
      ∀ file, need.2.Ok file → need.2.Ok (writeAt 0 file (pageSize.toNat * pageNo.toNat) data)) :
    Act.Triple (Stage C db needs broken m) (FileSys.writePage fd pageNo data) (fun _ => Stage C db needs broken m)
      fun _ s => Tracks C s.steps := by
  intro s hs
  cases hwrite : s.disk.writePage fd pageNo data with
  | error e =>
    rw [FileSys.writePage, perform, Act.run_bind, run_call_error hwrite]
    exact hs.tracks
  | ok d =>
    rw [FileSys.writePage, run_perform hwrite]
    obtain ⟨path, hpath, rfl⟩ := DiskManager.writePage_ok hwrite
    rw [hs.shape.fd2path] at hpath
    exact hs.advance (hs.shape.write hpath (hkeep path hpath)) ((hC.write ..).trans hs.now) (by simp)

/-- A page behind the header is written. -/
theorem triple_writePage_later (hC : Steady C) (h1 : 1 ≤ pageNo) :
    Act.Triple (Stage C db needs broken m) (FileSys.writePage fd pageNo data) (fun _ => Stage C db needs broken m)
      fun _ s => Tracks C s.steps := by
  refine triple_writePage hC fun path _ need _ _ file hok => hok.writeAt ?_
  exact Nat.le_mul_of_pos_right _ (by omega)

theorem triple_writePages (hC : Steady C) {pages : List (Int × Bytes)} (h : ∀ page ∈ pages, 1 ≤ page.1) :
    Act.Triple (Stage C db needs broken m) (FileSys.writePages fd pages) (fun _ => Stage C db needs broken m)
      fun _ s => Tracks C s.steps :=
  Act.Triple.forM pages fun page hp => triple_writePage_later hC (h page hp)

/-- A file is deleted that is not needed any more, or that the metadata still names. -/
theorem triple_destroyFile (hsub : needs'.Subperm needs) (hne : ∀ need ∈ needs', need.1 ≠ path)
    (hnow : ∀ steps, .dbMeta ∉ steps → (C (.delete path :: steps) ↔ ¬broken'))
    (hwhole : ¬broken' → (metaFiles db.tabs).Subperm needs')
    (hmissing : broken' → ∃ kind, (path, kind) ∈ metaFiles db.tabs) :
    Act.Triple (Stage C db needs broken m) (FileSys.destroyFile path) (fun _ => Stage C db needs' broken' m)
      fun _ s => Tracks C s.steps := by
  intro s hs
  cases hdestroy : s.disk.destroyFile path with
  | error e =>
    rw [FileSys.destroyFile, perform, Act.run_bind, run_call_error hdestroy]
    exact hs.tracks
  | ok d =>
    rw [FileSys.destroyFile, run_perform hdestroy]
    unfold DiskManager.destroyFile at hdestroy
    split at hdestroy
    · cases hdestroy
    · split at hdestroy
      · cases hdestroy
      · next hclosed =>
        cases hdestroy
        refine hs.advance ?_ (hnow _ hs.unflushed) (by simp)
        exact {
          dbMeta := hs.shape.dbMeta
          fd2path := hs.shape.fd2path
          coherent := hs.shape.coherent.delete (by simpa using hclosed)
          held := (hs.shape.held.subperm hsub).congr fun need hneed => Function.update_of_ne (hne need hneed) ..
          whole := hwhole
          missing := fun h => by
            obtain ⟨kind, hkind⟩ := hmissing h
            exact ⟨(path, kind), hkind, Function.update_self ..⟩ }

/-- A file is not needed any more. -/
theorem tail {need : String × FileKind} {s : FileSys} (hs : s.Stage C db (need :: needs) broken m)
    (hwhole : ¬broken → (metaFiles db.tabs).Subperm needs) : s.Stage C db needs broken m :=
  ⟨⟨hs.shape.dbMeta, hs.shape.fd2path, hs.shape.coherent, hs.shape.held.tail, hwhole, hs.shape.missing⟩, hs.now,
    hs.unflushed, hs.tracks⟩

/-- The metadata is rewritten. -/
theorem triple_flushMeta {db' : DbMeta} (hsub : (metaFiles db'.tabs).Subperm needs) (hnow : ∀ steps, C (.dbMeta :: steps)) :
    Act.Triple (Stage C db needs broken m) (FileSys.flushMeta db') (fun _ s => Tracks C s.steps)
      fun _ s => Tracks C s.steps := by
  intro s hs
  refine ⟨?_, hs.tracks⟩
  have hopens : Opens ⟨s.disk.files, db'⟩ := opens_of_openable (hs.shape.held.subperm hsub)
  exact ⟨fun _ => hnow _, fun _ => hopens⟩

/-- Another file has become needed. -/
theorem add {need : String × FileKind} {s : FileSys} (hs : s.Stage C db needs broken m)
    (hne : ∀ need' ∈ needs, need'.1 ≠ need.1) (hfile : ∃ file, s.disk.files need.1 = some file ∧ need.2.Ok file) :
    s.Stage C db (need :: needs) broken m := by
  refine ⟨⟨hs.shape.dbMeta, hs.shape.fd2path, hs.shape.coherent, ⟨?_, ?_⟩, fun h => ?_, hs.shape.missing⟩, hs.now,
    hs.unflushed, hs.tracks⟩
  · intro need' hneed
    rcases List.mem_cons.1 hneed with rfl | hneed
    · exact hfile
    · exact hs.shape.held.file need' hneed
  · rw [List.map_cons, List.nodup_cons]
    refine ⟨fun hmem => ?_, hs.shape.held.nodup⟩
    obtain ⟨need', hneed, heq⟩ := List.mem_map.1 hmem
    exact hne need' hneed heq
  · exact (hs.shape.whole h).trans (List.sublist_cons_self ..).subperm

/-! ### The managers -/

section managers
variable {filename : String} {cols : List ColMeta} {recordSize : Int}

theorem triple_createHeap (hC : Steady C) : Act.Triple (Stage C db needs False m)
    (RmManager.createFile filename recordSize fd)
    (fun _ s => (∀ need ∈ needs, need.1 ≠ filename) ∧ s.Stage C db needs False (Function.update m fd none))
    fun _ s => Tracks C s.steps := by
  unfold RmManager.createFile
  split
  · exact Act.Triple.throw fun _ hs => hs.tracks
  · refine (triple_createFile hC).bind fun _ => Act.Triple.of_and fun hne => ?_
    refine triple_openFile.bind fun _ => ?_
    refine Act.Triple.bind (triple_writePage hC ?_) fun _ => ?_
    · intro path hpath need hneed heq
      rw [Function.update_self] at hpath
      cases hpath
      exact absurd heq (hne need hneed)
    · refine triple_closeFile.conseq (fun _ => id) (fun _ s hs => ⟨hne, ?_⟩) fun _ _ => id
      rwa [Function.update_idem] at hs

theorem triple_openHeap (hne : ∀ need ∈ needs, need.1 ≠ path) : Act.Triple (Stage C db needs broken m)
    (RmManager.openFile path fd)
    (fun _ => Stage C db ((path, .heap) :: needs) broken (Function.update m fd (some path)))
    fun _ s => Tracks C s.steps := by
  have hstage : Act.Triple (Stage C db needs broken m) (RmManager.openFile path fd)
      (fun _ => Stage C db needs broken (Function.update m fd (some path))) fun _ s => Tracks C s.steps := by
    unfold RmManager.openFile
    refine triple_openFile.bind fun _ => triple_readPage.bind fun buf => ?_
    split
    · exact Act.Triple.throw fun _ hs => hs.tracks
    · refine (triple_setFd2pageno _).bind fun _ => Act.Triple.pure fun _ hs => hs
  have hfile : ∀ s hdr s', (RmManager.openFile path fd).run s = (.ok hdr, s') →
      ∃ file, s'.disk.files path = some file ∧ HeapOk file := by
    intro s hdr s' h
    obtain ⟨hok, hopened⟩ := opened_heap h
    rwa [hopened.files]
  refine (hstage.and_ok hfile).conseq (fun _ => id) ?_ fun _ _ => id
  intro _ s ⟨hok, hs⟩
  exact hs.add hne hok

theorem triple_closeHeap (hC : Steady C) {hdr : RmFileHdr} {dirty : List (Int × Bytes)}
    (hheap : ∀ path, m fd = some path → ∀ need ∈ needs, need.1 = path → need.2 = .heap)
    (hd : ∀ page ∈ dirty, 1 ≤ page.1) :
    Act.Triple (Stage C db needs broken m) (RmManager.closeFile fd hdr dirty)
      (fun _ => Stage C db needs broken (Function.update m fd none)) fun _ s => Tracks C s.steps := by
  unfold RmManager.closeFile
  refine Act.Triple.bind (triple_writePage hC ?_) fun _ => (triple_writePages hC hd).bind fun _ => triple_closeFile
  intro path hpath need hneed heq file hok
  rw [hheap path hpath need hneed heq]
  exact HeapOk.writeAt_zero (by rw [RmFileHdr.length_bytes])

theorem triple_createIndex (hC : Steady C) : Act.Triple (Stage C db needs False m)
    (IxManager.createIndex filename cols fd)
    (fun _ s => (∀ need ∈ needs, need.1 ≠ getIndexName filename cols) ∧
      s.Stage C db needs False (Function.update m fd none)) fun _ s => Tracks C s.steps := by
  unfold IxManager.createIndex
  refine (triple_createFile hC).bind fun _ => Act.Triple.of_and fun hne => ?_
  refine triple_openFile.bind fun _ => ?_
  dsimp only
  split
  · exact Act.Triple.throw fun _ hs => hs.tracks
  · split
    · exact Act.Triple.throw fun _ hs => hs.tracks
    · split
      · exact Act.Triple.throw fun _ hs => hs.tracks
      · split
        · exact Act.Triple.throw fun _ hs => hs.tracks
        · unfold IxManager.writeIndex
          refine Act.Triple.bind (triple_writePage hC ?_) fun _ => ?_
          · intro path hpath need hneed heq
            rw [Function.update_self] at hpath
            cases hpath
            exact absurd heq (hne need hneed)
          · refine (triple_writePage_later hC (by decide)).bind fun _ => ?_
            refine (triple_writePage_later hC (by decide)).bind fun _ => (triple_setFd2pageno _).bind fun _ => ?_
            refine triple_closeFile.conseq (fun _ => id) (fun _ s hs => ⟨hne, ?_⟩) fun _ _ => id
            rwa [Function.update_idem] at hs

theorem triple_openIndex (hne : ∀ need ∈ needs, need.1 ≠ getIndexName filename cols) :
    Act.Triple (Stage C db needs broken m) (IxManager.openIndex filename cols fd)
      (fun _ => Stage C db ((getIndexName filename cols, .index) :: needs) broken
        (Function.update m fd (some (getIndexName filename cols)))) fun _ s => Tracks C s.steps := by
  have hstage : Act.Triple (Stage C db needs broken m) (IxManager.openIndex filename cols fd)
      (fun _ => Stage C db needs broken (Function.update m fd (some (getIndexName filename cols))))
      fun _ s => Tracks C s.steps := by
    unfold IxManager.openIndex
    refine triple_openFile.bind fun _ => triple_readPage.bind fun _ => triple_readPage.bind fun buf => ?_
    split
    · exact Act.Triple.throw fun _ hs => hs.tracks
    · refine (Act.Triple.get fun s hs => hs).bind fun s => (triple_setFd2pageno _).bind fun _ => ?_
      exact Act.Triple.pure fun _ hs => hs
  have hfile : ∀ s hdr s', (IxManager.openIndex filename cols fd).run s = (.ok hdr, s') →
      ∃ file, s'.disk.files (getIndexName filename cols) = some file ∧ IndexOk file := by
    intro s hdr s' h
    obtain ⟨hok, hopened⟩ := opened_index h
    rwa [hopened.files]
  refine (hstage.and_ok hfile).conseq (fun _ => id) ?_ fun _ _ => id
  intro _ s ⟨hok, hs⟩
  exact hs.add hne hok

/-- An index is closed whose file is not needed, or with a header that can be read. -/
theorem triple_closeIndex (hC : Steady C) {hdr : IxFileHdr} {dirty : List (Int × Bytes)}
    (hindex : ∀ path, m fd = some path → ∀ need ∈ needs, need.1 = path →
      need.2 = .index ∧ hdr.Typed ∧ hdr.totLen ≤ pageSize) (hd : ∀ page ∈ dirty, 1 ≤ page.1) :
    Act.Triple (Stage C db needs broken m) (IxManager.closeIndex fd hdr dirty)
      (fun _ => Stage C db needs broken (Function.update m fd none)) fun _ s => Tracks C s.steps := by
  unfold IxManager.closeIndex
  dsimp only
  split
  · exact Act.Triple.throw fun _ hs => hs.tracks
  · refine Act.Triple.bind (triple_writePage hC ?_) fun _ => (triple_writePages hC hd).bind fun _ => triple_closeFile
    intro path hpath need hneed heq file hok
    obtain ⟨hkind, htyped, hfit⟩ := hindex path hpath need hneed heq
    rw [hkind] at hok ⊢
    exact IndexOk.writeAt_zero hok htyped hfit

end managers

end Stage

end rules

end FileSys

/-! ## The files of a changed catalogue -/

namespace DbMeta

theorem filter_eq_self_of_lt {tabName : TabName} {entries : List (TabName × TabMeta)} (h : ∀ entry ∈ entries, tabName < entry.1) :
    entries.filter (·.1 ≠ tabName) = entries := by
  apply List.filter_eq_self.2
  intro entry hentry
  have hlt := h entry hentry
  simp only [ne_eq, decide_eq_true_eq]
  rintro rfl
  exact String.lt_irrefl _ hlt

theorem perm_insertEntry (tabName : TabName) (tab : TabMeta) : ∀ {entries : List (TabName × TabMeta)},
    entries.Pairwise (·.1 < ·.1) →
    (insertEntry tabName tab entries).Perm ((tabName, tab) :: entries.filter (·.1 ≠ tabName))
  | [], _ => List.Perm.refl _
  | entry :: entries, h => by
    rw [List.pairwise_cons] at h
    unfold insertEntry
    split
    · next heq =>
      rw [List.filter_cons_of_neg (by simp [heq]), filter_eq_self_of_lt fun e he => heq ▸ h.1 e he]
    · next hne =>
      split
      · next hlt =>
        rw [filter_eq_self_of_lt]
        intro e he
        rcases List.mem_cons.1 he with rfl | he
        · exact hlt
        · exact String.lt_trans hlt (h.1 e he)
      · rw [List.filter_cons_of_pos (by simpa using hne)]
        exact ((perm_insertEntry tabName tab h.2).cons entry).trans (List.Perm.swap ..)

theorem mem_insertEntry {tabName : TabName} {tab : TabMeta} {entries : List (TabName × TabMeta)}
    (h : entries.Pairwise (·.1 < ·.1)) {entry : TabName × TabMeta} (hentry : entry ∈ insertEntry tabName tab entries) :
    entry = (tabName, tab) ∨ entry ∈ entries := by
  rcases List.mem_cons.1 ((perm_insertEntry tabName tab h).mem_iff.1 hentry) with rfl | hmem
  · exact .inl rfl
  · exact .inr (List.mem_of_mem_filter hmem)

theorem pairwise_insertEntry (tabName : TabName) (tab : TabMeta) : ∀ {entries : List (TabName × TabMeta)},
    entries.Pairwise (·.1 < ·.1) → (insertEntry tabName tab entries).Pairwise (·.1 < ·.1)
  | [], _ => List.pairwise_singleton ..
  | entry :: entries, h => by
    have h' := h
    rw [List.pairwise_cons] at h'
    unfold insertEntry
    split
    · next heq =>
      exact List.pairwise_cons.2 ⟨fun e he => heq ▸ h'.1 e he, h'.2⟩
    · next hne =>
      split
      · next hlt =>
        refine List.pairwise_cons.2 ⟨fun e he => ?_, h⟩
        rcases List.mem_cons.1 he with rfl | he
        · exact hlt
        · exact String.lt_trans hlt (h'.1 e he)
      · next hge =>
        refine List.pairwise_cons.2 ⟨fun e he => ?_, pairwise_insertEntry tabName tab h'.2⟩
        rcases mem_insertEntry h'.2 he with rfl | he
        · exact String.not_le.1 fun hle => hne (String.le_antisymm (String.not_lt.1 hge) hle)
        · exact h'.1 e he

theorem perm_of_find? {tabName : TabName} {entry : TabName × TabMeta} : ∀ {entries : List (TabName × TabMeta)},
    entries.Pairwise (·.1 < ·.1) → entries.find? (·.1 = tabName) = some entry →
    entries.Perm (entry :: entries.filter (·.1 ≠ tabName))
  | e :: entries, h, hfind => by
    rw [List.pairwise_cons] at h
    by_cases heq : e.1 = tabName
    · rw [List.find?_cons_of_pos (by simpa using heq)] at hfind
      cases hfind
      rw [List.filter_cons_of_neg (by simp [heq]), filter_eq_self_of_lt fun e' he => heq ▸ h.1 e' he]
    · rw [List.find?_cons_of_neg (by simpa using heq)] at hfind
      rw [List.filter_cons_of_pos (by simpa using heq)]
      exact ((perm_of_find? h.2 hfind).cons e).trans (List.Perm.swap ..)

variable {db : DbMeta} {tabName : TabName} {tab tab' : TabMeta}

/-- The other tables. -/
def others (db : DbMeta) (tabName : TabName) : List (TabName × TabMeta) := db.tabs.filter (·.1 ≠ tabName)

theorem metaFiles_of_getTable (h : db.tabs.Pairwise (·.1 < ·.1)) (hget : db.getTable tabName = .ok tab) :
    (metaFiles db.tabs).Perm (tabFiles tab ++ metaFiles (db.others tabName)) := by
  unfold getTable at hget
  split at hget
  · next entry hfind =>
    cases hget
    exact (perm_of_find? h hfind).flatMap_right _
  · cases hget

theorem metaFiles_setTab (h : db.tabs.Pairwise (·.1 < ·.1)) :
    (metaFiles (db.setTab tabName tab).tabs).Perm (tabFiles tab ++ metaFiles (db.others tabName)) :=
  (perm_insertEntry tabName tab h).flatMap_right _

end DbMeta

namespace SmManager

/-! ## The operations -/

/-- The metadata names every table by its key, in order. -/
structure Sorted (db : DbMeta) : Prop where
  lt : db.tabs.Pairwise (·.1 < ·.1)
  names : ∀ entry ∈ db.tabs, entry.2.name = entry.1

/-- Between two statements: what is in memory is what is on disk, the database can be opened, and the handles are on the
files they are kept under. -/
structure Ready (s : SmManager) : Prop where
  dbMeta : s.fs.dbMeta = s.db
  sorted : Sorted s.db
  openable : Openable s.fs.directory
  coherent : s.fs.disk.Coherent
  fhs : ∀ tabName fh, s.fhs tabName = some fh → s.fs.disk.fd2path fh.fd = some tabName
  ihs : ∀ name ih, s.ihs name = some ih → s.fs.disk.fd2path ih.fd = some name
  headers : ∀ name ih, s.ihs name = some ih → ih.index.file.fileHdr.Typed ∧ ih.index.file.fileHdr.totLen ≤ pageSize

/-- The pages that the pool writes are behind the headers. -/
structure PoolWrites (env : DdlEnv) : Prop where
  evictions : ∀ i, ∀ page ∈ env.evictions i, 1 ≤ page.2.1
  dirty : ∀ path, ∀ page ∈ env.dirty path, 1 ≤ page.1

section operations
variable {C : List FsStep → Prop} {db : DbMeta} {needs needs' : List (String × FileKind)} {broken : Prop}
  {m : Int → Option String} {env : DdlEnv} {fuel : Nat} {tabName : TabName} {s : SmManager}

/-- A computation on the directory that keeps track. -/
theorem triple_tracked {α ρ : Type} (rest : SmManager → ρ) (r : ρ) {x : FsM α} {F : FileSys → Prop}
    {Q : α → FileSys → Prop} (hrest : ∀ t s, rest { s with fs := t } = rest s) (h : Act.Triple F x Q fun _ t => Tracks C t.steps) :
    Act.Triple (fun s => rest s = r ∧ F s.fs) (files x) (fun a s => rest s = r ∧ Q a s.fs)
      fun _ s => Tracks C s.fs.steps :=
  (Act.Triple.zoom h (fun _ _ => rfl) hrest r).conseq (fun _ => id) (fun _ _ => id) fun _ _ h => h.2

/-- The start of an operation. -/
theorem Ready.stage (hs : s.Ready) (hsteps : s.fs.steps = []) (hC : C []) :
    s.fs.Stage C s.db (metaFiles s.db.tabs) False s.fs.disk.fd2path where
  shape := {
    dbMeta := hs.dbMeta
    fd2path := rfl
    coherent := hs.coherent
    held := by
      have := hs.openable
      rwa [Openable, FileSys.directory, hs.dbMeta] at this
    whole := fun _ => List.Subperm.refl _
    missing := False.elim }
  now := by
    rw [hsteps]
    exact ⟨fun _ => id, fun _ => hC⟩
  unflushed := by
    rw [hsteps]
    nofun
  tracks := by
    rw [hsteps]
    trivial

/-- The end of an operation. -/
theorem triple_flushMeta {db' : DbMeta} (hsub : (metaFiles db'.tabs).Subperm needs) (hnow : ∀ steps, C (.dbMeta :: steps)) :
    Act.Triple (fun t => t.db = db' ∧ t.fs.Stage C db needs broken m) flushMeta (fun _ t => Tracks C t.fs.steps)
      fun _ t => Tracks C t.fs.steps := by
  have hflush : Act.Triple (fun t => t.db = db' ∧ t.fs.Stage C db needs broken m) (files (FileSys.flushMeta db'))
      (fun _ t => t.db = db' ∧ Tracks C t.fs.steps) fun _ t => Tracks C t.fs.steps :=
    triple_tracked SmManager.db db' (fun _ _ => rfl) (FileSys.Stage.triple_flushMeta hsub hnow)
  unfold flushMeta
  refine Act.Triple.of_eq fun t ⟨hdb, ht⟩ => ?_
  apply Act.Triple.get_bind
  rw [hdb]
  exact (hflush.start ⟨hdb, ht⟩).conseq (fun _ => id) (fun _ _ h => h.2) fun _ _ => id

/-! ### CREATE -/

/-- Nothing is in danger: the catalogue in memory is `db'`, and the files that are needed, those of `db` among them, are
there. -/
def Safe (db db' : DbMeta) (needs : List (String × FileKind)) (m : Int → Option String) (t : SmManager) : Prop :=
  t.db = db' ∧ t.fs.Stage (fun _ => True) db needs False m

theorem steady_true : Steady fun _ => True := fun _ _ _ _ => Iff.rfl

/-- The new table is one file more. -/
theorem metaFiles_newTable {db : DbMeta} {cols : List ColMeta} (h : Sorted db) (hnot : ¬db.isTable tabName = true) :
    (metaFiles (db.setTab tabName ⟨tabName, cols, []⟩).tabs).Perm ((tabName, .heap) :: metaFiles db.tabs) := by
  have hothers : db.others tabName = db.tabs := by
    apply List.filter_eq_self.2
    intro entry hentry
    simp only [DbMeta.isTable, List.any_eq_true, decide_eq_true_eq, not_exists, not_and] at hnot
    simpa using hnot entry hentry
  have hperm := @DbMeta.metaFiles_setTab db tabName ⟨tabName, cols, []⟩ h.lt
  rwa [hothers] at hperm

theorem tracks_createTable {colDefs : List ColDef} (hs : s.Ready) (hsteps : s.fs.steps = []) :
    Act.Triple (· = s) (createTable env tabName colDefs) (fun _ t => Tracks (fun _ => True) t.fs.steps)
      fun _ t => Tracks (fun _ => True) t.fs.steps := by
  have hstage := hs.stage (C := fun _ => True) hsteps trivial
  unfold createTable
  apply Act.Triple.get_bind
  split
  · apply Act.Triple.throw_eq
    exact hstage.tracks
  · next hnot =>
    dsimp only
    refine Act.Triple.bind (Act.Triple.start (triple_tracked SmManager.db s.db (fun _ _ => rfl)
      (FileSys.Stage.triple_createHeap steady_true)) ⟨rfl, hstage⟩) fun _ => ?_
    generalize (tableCols tabName colDefs 0).1 = cols
    refine Act.Triple.bind (Q := fun _ t => (∀ need ∈ metaFiles s.db.tabs, need.1 ≠ tabName) ∧
      Safe s.db (s.db.setTab tabName ⟨tabName, cols, []⟩) (metaFiles s.db.tabs)
        (Function.update s.fs.disk.fd2path env.fd none) t) (Act.Triple.modify ?_) fun _ => ?_
    · rintro t ⟨hdb, hne, ht⟩
      exact ⟨hne, by rw [← hdb], ht⟩
    refine Act.Triple.of_and fun hne => ?_
    refine (triple_tracked SmManager.db _ (fun _ _ => rfl) (FileSys.Stage.triple_openHeap hne)).bind fun hdr => ?_
    refine Act.Triple.bind (Q := fun _ => Safe s.db (s.db.setTab tabName ⟨tabName, cols, []⟩)
      ((tabName, .heap) :: metaFiles s.db.tabs)
      (Function.update (Function.update s.fs.disk.fd2path env.fd none) env.fd' (some tabName)))
      (Act.Triple.modify fun t ht => ht) fun _ =>
        triple_flushMeta (metaFiles_newTable hs.sorted hnot).subperm fun _ => trivial

/-- CREATE TABLE with descriptors that are not in use ends between two statements again. -/
theorem ready_createTable {colDefs : List ColDef} {s' : SmManager} (hs : s.Ready) (hsteps : s.fs.steps = [])
    (hfd : s.fs.disk.fd2path env.fd = none) (hfd' : s.fs.disk.fd2path env.fd' = none)
    (h : (createTable env tabName colDefs).run s = (.ok (), s')) : s'.Ready := by
  have hstage := hs.stage (C := fun _ => True) hsteps trivial
  unfold createTable at h
  obtain ⟨_, s₁, h₁, h⟩ := Act.run_bind_eq_ok.1 h
  cases h₁
  split at h
  · cases h
  · next hnot =>
    obtain ⟨_, s₂, h₂, h⟩ := Act.run_bind_eq_ok.1 h
    obtain ⟨fs₂, hfs₂, rfl⟩ := run_files_eq h₂
    obtain ⟨hne, hstage₂⟩ := (FileSys.Stage.triple_createHeap steady_true).ok hstage hfs₂
    obtain ⟨_, s₃, h₃, h⟩ := Act.run_bind_eq_ok.1 h
    cases h₃
    obtain ⟨hdr, s₄, h₄, h⟩ := Act.run_bind_eq_ok.1 h
    obtain ⟨fs₄, hfs₄, rfl⟩ := run_files_eq h₄
    have hstage₄ := (FileSys.Stage.triple_openHeap hne).ok hstage₂ hfs₄
    obtain rfl : _ = s' := congrArg Prod.snd h
    have hshape := hstage₄.shape
    have hkeep : ∀ fd path, s.fs.disk.fd2path fd = some path → fs₄.disk.fd2path fd = some path := by
      intro fd path hpath
      have h1 : fd ≠ env.fd := by
        rintro rfl
        rw [hfd] at hpath
        cases hpath
      have h2 : fd ≠ env.fd' := by
        rintro rfl
        rw [hfd'] at hpath
        cases hpath
      rw [hshape.fd2path, Function.update_of_ne h2, Function.update_of_ne h1, hpath]
    exact {
      dbMeta := rfl
      sorted := by
        refine ⟨DbMeta.pairwise_insertEntry _ _ hs.sorted.lt, fun entry hentry => ?_⟩
        rcases DbMeta.mem_insertEntry hs.sorted.lt hentry with rfl | hentry
        · rfl
        · exact hs.sorted.names entry hentry
      openable := hshape.held.subperm (metaFiles_newTable hs.sorted hnot).subperm
      coherent := hshape.coherent
      fhs := by
        intro name fh hfh
        change Function.update s.fhs tabName _ name = some fh at hfh
        change fs₄.disk.fd2path fh.fd = some name
        by_cases hname : name = tabName
        · rw [hname, Function.update_self] at hfh
          cases hfh
          rw [hshape.fd2path, hname]
          exact Function.update_self ..
        · rw [Function.update_of_ne hname] at hfh
          exact hkeep _ _ (hs.fhs name fh hfh)
      ihs := fun name ih hih => hkeep _ _ (hs.ihs name ih hih)
      headers := hs.headers }

/-- A call of an index handle touches nothing else. -/
theorem triple_onIndex_frame {κ α : Type} {P : SmManager → Prop} {E : Fault → SmManager → Prop} {ih : IxIndexHandle κ}
    {x : IxM κ α} (hE : ∀ e s, P s → E e s) : Act.Triple P (onIndex ih x) (fun _ => P) E := by
  intro s hs
  unfold onIndex
  rcases x.run ih with ⟨e | a, ih'⟩
  · exact hE e s hs
  · exact hs

/-- The loop over the records keeps the new index, or closes and deletes it. -/
theorem tracks_indexRows {cols : List ColMeta} {f : RmFile} (he : PoolWrites env)
    (hne : ∀ need ∈ metaFiles db.tabs, need.1 ≠ getIndexName tabName cols)
    (hfd : m env.fd' = some (getIndexName tabName cols)) : ∀ (fuel : Nat) (rid : Rid) (ih : IxIndexHandle (IxKey cols)),
    Act.Triple (Safe db db ((getIndexName tabName cols, .index) :: metaFiles db.tabs) m)
      (indexRows env tabName cols f fuel rid ih)
      (fun _ => Safe db db ((getIndexName tabName cols, .index) :: metaFiles db.tabs) m)
      fun _ t => Tracks (fun _ => True) t.fs.steps
  | 0, _, _ => Act.Triple.throw fun _ hs => hs.2.tracks
  | fuel + 1, rid, ih => by
    have hE : ∀ (e : Fault) t, Safe db db ((getIndexName tabName cols, .index) :: metaFiles db.tabs) m t →
        Tracks (fun _ => True) t.fs.steps := fun _ _ ht => ht.2.tracks
    have hevict : Act.Triple (Safe db db ((getIndexName tabName cols, .index) :: metaFiles db.tabs) m)
        (evict (env.evictions fuel)) (fun _ => Safe db db ((getIndexName tabName cols, .index) :: metaFiles db.tabs) m)
        fun _ t => Tracks (fun _ => True) t.fs.steps :=
      triple_tracked SmManager.db db (fun _ _ => rfl) (Act.Triple.forM _ fun page hp =>
        FileSys.Stage.triple_writePage_later steady_true (he.evictions fuel page hp))
    have hdrop : ∀ t, Safe db db ((getIndexName tabName cols, .index) :: metaFiles db.tabs) m t →
        Safe db db (metaFiles db.tabs) m t := fun t ht => ⟨ht.1, ht.2.tail fun _ => List.Subperm.refl _⟩
    unfold indexRows
    split
    · exact Act.Triple.pure fun _ hs => hs
    · refine (triple_lookup hE).bind fun rec => Act.Triple.of_and fun _ => ?_
      refine hevict.bind fun _ => (triple_onIndex_frame hE).bind fun dup => ?_
      obtain ⟨dup, ih⟩ := dup
      dsimp only
      split
      · refine Act.Triple.conseq (P := Safe db db (metaFiles db.tabs) m) ?_ hdrop (fun _ _ => id) fun _ _ => id
        refine Act.Triple.bind (triple_tracked SmManager.db db (fun _ _ => rfl)
          (FileSys.Stage.triple_closeIndex steady_true ?_ (he.dirty _))) fun _ => ?_
        · intro path hpath need hneed heq
          rw [hfd] at hpath
          cases hpath
          exact absurd heq (hne need hneed)
        · refine Act.Triple.bind (triple_tracked SmManager.db db (fun _ _ => rfl)
            (FileSys.Stage.triple_destroyFile (List.Subperm.refl _) hne (fun _ _ => ⟨fun _ => id, fun _ => trivial⟩)
              (fun _ => List.Subperm.refl _) False.elim)) fun _ => ?_
          exact Act.Triple.throw fun _ hs => hs.2.tracks
      · refine (triple_onIndex_frame hE).bind fun a => ?_
        refine (triple_check fun e t _ ht => hE e t ht).bind fun rid' => Act.Triple.of_and fun _ => ?_
        exact tracks_indexRows he hne hfd fuel rid' a.2

theorem name_of_getTable {db : DbMeta} {tab : TabMeta} (h : Sorted db) (hget : db.getTable tabName = .ok tab) :
    tab.name = tabName := by
  unfold DbMeta.getTable at hget
  split at hget
  · next entry hfind =>
    cases hget
    rw [h.names entry (List.mem_of_find?_eq_some hfind)]
    simpa using List.find?_some hfind
  · cases hget

/-- The new index is one file more. -/
theorem metaFiles_addIndex {db : DbMeta} {tab : TabMeta} {index : IndexMeta} (h : Sorted db)
    (hget : db.getTable tabName = .ok tab) :
    (metaFiles (db.setTab tabName { tab with indexes := tab.indexes ++ [index] }).tabs).Perm
      ((getIndexName tabName index.cols, .index) :: metaFiles db.tabs) := by
  have hname := name_of_getTable h hget
  have hfiles : tabFiles { tab with indexes := tab.indexes ++ [index] } =
      tabFiles tab ++ [(getIndexName tabName index.cols, .index)] := by
    simp only [tabFiles, indexFiles, List.map_append, List.map_cons, List.map_nil, List.cons_append, hname]
  refine (DbMeta.metaFiles_setTab h.lt).trans ?_
  rw [hfiles, List.append_assoc, List.singleton_append]
  exact List.perm_middle.trans ((DbMeta.metaFiles_of_getTable h.lt hget).symm.cons _)

theorem tracks_createIndex {colNames : List String} (hs : s.Ready) (he : PoolWrites env) (hsteps : s.fs.steps = []) :
    Act.Triple (· = s) (createIndex env fuel tabName colNames) (fun _ t => Tracks (fun _ => True) t.fs.steps)
      fun _ t => Tracks (fun _ => True) t.fs.steps := by
  have hstage := hs.stage (C := fun _ => True) hsteps trivial
  unfold createIndex
  refine (triple_getTable fun e => hstage.tracks).bind fun tab => Act.Triple.of_and fun htab => ?_
  split
  · apply Act.Triple.throw_eq
    exact hstage.tracks
  · refine Act.Triple.bind (triple_lookup ?_) fun cols => Act.Triple.of_and fun _ => ?_
    · rintro e t rfl
      exact hstage.tracks
    have hcreate : Act.Triple (· = s) (files (IxManager.createIndex tabName cols env.fd))
        (fun _ t => (∀ need ∈ metaFiles s.db.tabs, need.1 ≠ getIndexName tabName cols) ∧
          Safe s.db s.db (metaFiles s.db.tabs) (Function.update s.fs.disk.fd2path env.fd none) t)
        fun _ t => Tracks (fun _ => True) t.fs.steps :=
      (Act.Triple.start (triple_tracked SmManager.db s.db (fun _ _ => rfl)
        (FileSys.Stage.triple_createIndex steady_true)) ⟨rfl, hstage⟩).conseq (fun _ => id)
          (fun _ t ht => ⟨ht.2.1, ht.1, ht.2.2⟩) fun _ _ => id
    refine hcreate.bind fun _ => Act.Triple.of_and fun hne => ?_
    refine (triple_tracked SmManager.db s.db (fun _ _ => rfl) (FileSys.Stage.triple_openIndex hne)).bind fun hdr => ?_
    refine (Act.Triple.get fun t ht => ht).bind fun t => ?_
    split
    · exact Act.Triple.throw fun t ht => ht.2.tracks
    · next fh _ =>
      refine (triple_check fun e t _ ht => ht.2.tracks).bind fun rid => Act.Triple.of_and fun _ => ?_
      refine (tracks_indexRows he hne (Function.update_self ..) fuel rid _).bind fun ih => ?_
      refine Act.Triple.bind (Q := fun _ => Safe s.db (s.db.setTab tabName { tab with indexes := tab.indexes ++
          [⟨tabName, ixColTotLen cols, cols.length, cols⟩] })
        ((getIndexName tabName cols, .index) :: metaFiles s.db.tabs)
        (Function.update (Function.update s.fs.disk.fd2path env.fd none) env.fd' (some (getIndexName tabName cols))))
        (Act.Triple.modify ?_) fun _ => triple_flushMeta ?_ fun _ => trivial
      · intro t ht
        exact ⟨by rw [← ht.1], ht.2⟩
      · exact (metaFiles_addIndex hs.sorted htab).subperm

/-! ### DROP -/

/-- The files that are needed after a DROP are there, and the handles are on the files they are kept under, if open. -/
structure Dropping (db : DbMeta) (needs : List (String × FileKind)) (s : SmManager) : Prop where
  catalogue : s.db = db
  stage : ∃ broken, s.fs.Stage (fun steps => ¬Halfway steps) db needs broken s.fs.disk.fd2path
  fhs : ∀ tabName fh, s.fhs tabName = some fh → ∀ path, s.fs.disk.fd2path fh.fd = some path → path = tabName
  ihs : ∀ name ih, s.ihs name = some ih → ∀ path, s.fs.disk.fd2path ih.fd = some path → path = name
  headers : ∀ name ih, s.ihs name = some ih → ih.index.file.fileHdr.Typed ∧ ih.index.file.fileHdr.totLen ≤ pageSize

theorem Ready.dropping (hs : s.Ready) (hsteps : s.fs.steps = []) (hsub : needs.Perm (metaFiles s.db.tabs)) :
    Dropping s.db needs s where
  catalogue := rfl
  stage := by
    have hC : ¬Halfway [] := fun h => by
      obtain ⟨path, hpath⟩ := h.1
      cases hpath
    have hstage := hs.stage (C := fun steps => ¬Halfway steps) hsteps hC
    have hshape := hstage.shape
    exact ⟨False, ⟨hshape.dbMeta, rfl, hshape.coherent, hshape.held.subperm hsub.subperm,
      fun _ => hsub.symm.subperm, False.elim⟩, hstage.now, hstage.unflushed, hstage.tracks⟩
  fhs := by
    intro name fh hfh path hpath
    exact Option.some.inj (hpath.symm.trans (hs.fhs name fh hfh))
  ihs := by
    intro name ih hih path hpath
    exact Option.some.inj (hpath.symm.trans (hs.ihs name ih hih))
  headers := hs.headers

theorem Dropping.tracks (hs : Dropping db needs s) : Tracks (fun steps => ¬Halfway steps) s.fs.steps :=
  hs.stage.elim fun _ h => h.tracks

/-- An operation on the files that opens none. -/
theorem Dropping.of_memory {t : SmManager} (hs : Dropping db needs s) (hmem : t.memory = s.memory)
    (hstage : t.fs.Stage (fun steps => ¬Halfway steps) db needs' broken m)
    (hm : ∀ fd path, m fd = some path → s.fs.disk.fd2path fd = some path) : Dropping db needs' t := by
  simp only [memory, Prod.mk.injEq] at hmem
  obtain ⟨hdb, hfhs, hihs⟩ := hmem
  have hfd := hstage.shape.fd2path
  exact {
    catalogue := hdb.trans hs.catalogue
    stage := ⟨broken, by rw [hfd]; exact hstage⟩
    fhs := by
      rw [hfhs, hfd]
      exact fun name fh hfh path hpath => hs.fhs name fh hfh path (hm _ _ hpath)
    ihs := by
      rw [hihs, hfd]
      exact fun name ih hih path hpath => hs.ihs name ih hih path (hm _ _ hpath)
    headers := by
      rw [hihs]
      exact hs.headers }

/-- Without an entry there is no new one. -/
theorem of_update_none {α β : Type} [DecidableEq α] {m : α → Option β} {a a' : α} {b : β}
    (h : Function.update m a none a' = some b) : m a' = some b := by
  by_cases ha : a' = a
  · rw [ha, Function.update_self] at h
    cases h
  · rwa [Function.update_of_ne ha] at h

/-- A file of a table that is dropped is deleted. -/
theorem tracks_delete {path : String} {kind : FileKind} (hmem : (path, kind) ∈ metaFiles db.tabs) :
    Act.Triple (Dropping db ((path, kind) :: needs)) (files (FileSys.destroyFile path)) (fun _ => Dropping db needs)
      fun _ t => Tracks (fun steps => ¬Halfway steps) t.fs.steps := by
  refine Act.Triple.of_eq fun t ht => ?_
  obtain ⟨broken, hstage⟩ := ht.stage
  have hdestroy : Act.Triple (FileSys.Stage (fun steps => ¬Halfway steps) db ((path, kind) :: needs) broken
      t.fs.disk.fd2path) (FileSys.destroyFile path)
      (fun _ => FileSys.Stage (fun steps => ¬Halfway steps) db needs True t.fs.disk.fd2path)
      fun _ t => Tracks (fun steps => ¬Halfway steps) t.steps := by
    refine FileSys.Stage.triple_destroyFile (List.sublist_cons_self ..).subperm hstage.shape.held.ne_head ?_
      (fun h => absurd trivial h) fun _ => ⟨kind, hmem⟩
    intro steps hsteps
    refine ⟨fun h _ => h ⟨⟨path, List.mem_cons_self⟩, ?_⟩, fun h => absurd trivial h⟩
    rw [List.mem_cons, not_or]
    exact ⟨nofun, hsteps⟩
  refine ((triple_tracked memory t.memory (fun _ _ => rfl) hdestroy).start ⟨rfl, hstage⟩).conseq (fun _ => id) ?_
    fun _ _ => id
  rintro _ u ⟨hmem, hu⟩
  exact ht.of_memory hmem hu fun _ _ => id

/-- A file is closed. -/
theorem Dropping.close {x : FsM Unit} (fd : Int) (hs : Dropping db needs s)
    (h : ∀ broken, Act.Triple (FileSys.Stage (fun steps => ¬Halfway steps) db needs broken s.fs.disk.fd2path) x
      (fun _ => FileSys.Stage (fun steps => ¬Halfway steps) db needs broken (Function.update s.fs.disk.fd2path fd none))
      fun _ t => Tracks (fun steps => ¬Halfway steps) t.steps) :
    Act.Triple (· = s) (files x) (fun _ => Dropping db needs)
      fun _ t => Tracks (fun steps => ¬Halfway steps) t.fs.steps := by
  obtain ⟨broken, hstage⟩ := hs.stage
  refine ((triple_tracked memory s.memory (fun _ _ => rfl) (h broken)).start ⟨rfl, hstage⟩).conseq (fun _ => id) ?_
    fun _ _ => id
  rintro _ t ⟨hmem, ht⟩
  exact hs.of_memory hmem ht fun _ _ => of_update_none

/-- `close_index` and `destroy_index`. -/
theorem tracks_destroyIndex {cols : List ColMeta} (he : PoolWrites env)
    (hmem : (getIndexName tabName cols, .index) ∈ metaFiles db.tabs) :
    Act.Triple (Dropping db ((getIndexName tabName cols, .index) :: needs)) (destroyIndex env tabName cols)
      (fun _ => Dropping db needs) fun _ t => Tracks (fun steps => ¬Halfway steps) t.fs.steps := by
  unfold destroyIndex
  refine Act.Triple.of_eq fun t ht => ?_
  apply Act.Triple.get_bind
  refine Act.Triple.bind (Q := fun _ => Dropping db ((getIndexName tabName cols, .index) :: needs)) ?_
    fun _ => tracks_delete hmem
  split
  · next ih hih =>
    refine Act.Triple.bind (ht.close ih.fd fun broken => ?_) fun _ => Act.Triple.modify fun u hu => ?_
    · refine FileSys.Stage.triple_closeIndex steady_not_halfway ?_ (he.dirty _)
      intro path hpath need hneed heq
      have hheld := ht.stage.elim fun _ h => h.shape.held
      rw [ht.ihs _ _ hih path hpath] at heq
      rw [hheld.eq_of_path hneed List.mem_cons_self heq]
      exact ⟨rfl, ht.headers _ _ hih⟩
    · exact ⟨hu.catalogue, hu.stage, hu.fhs, fun name ih h => hu.ihs name ih (of_update_none h),
        fun name ih h => hu.headers name ih (of_update_none h)⟩
  · apply Act.Triple.pure_eq
    exact ht

/-- The loop over the indexes of a table. -/
theorem tracks_destroyIndexes (he : PoolWrites env) : ∀ {indexes : List IndexMeta},
    (∀ need ∈ indexFiles tabName indexes, need ∈ metaFiles db.tabs) →
    Act.Triple (Dropping db (indexFiles tabName indexes ++ needs))
      (indexes.forM fun index => destroyIndex env tabName index.cols) (fun _ => Dropping db needs)
      fun _ t => Tracks (fun steps => ¬Halfway steps) t.fs.steps
  | [], _ => Act.Triple.pure fun _ hs => hs
  | _ :: _, hmem => by
    refine (tracks_destroyIndex he (hmem _ List.mem_cons_self)).bind fun _ => ?_
    exact tracks_destroyIndexes he fun need hneed => hmem need (List.mem_cons_of_mem _ hneed)

/-- The end of a DROP. -/
theorem tracks_dropped (db' : DbMeta) (hsub : (metaFiles db'.tabs).Subperm needs) :
    Act.Triple (fun t => t.db = db' ∧ ∃ db, Dropping db needs { t with db := db }) flushMeta
      (fun _ t => Tracks (fun steps => ¬Halfway steps) t.fs.steps)
      fun _ t => Tracks (fun steps => ¬Halfway steps) t.fs.steps := by
  refine Act.Triple.of_eq fun t ⟨hdb, db, ht⟩ => ?_
  obtain ⟨broken, hstage⟩ := ht.stage
  exact (triple_flushMeta hsub fun steps h => h.2 List.mem_cons_self).start ⟨hdb, hstage⟩

theorem tracks_dropTable (hs : s.Ready) (he : PoolWrites env) (hsteps : s.fs.steps = []) :
    Act.Triple (· = s) (dropTable env tabName) (fun _ t => Tracks (fun steps => ¬Halfway steps) t.fs.steps)
      fun _ t => Tracks (fun steps => ¬Halfway steps) t.fs.steps := by
  have htracks : Tracks (fun steps => ¬Halfway steps) s.fs.steps := by
    rw [hsteps]
    trivial
  unfold dropTable
  apply Act.Triple.get_bind
  split
  · apply Act.Triple.throw_eq
    exact htracks
  · refine (triple_getTable fun e => htracks).bind fun tab => Act.Triple.of_and fun htab => ?_
    have hname := name_of_getTable hs.sorted htab
    have hperm := DbMeta.metaFiles_of_getTable hs.sorted.lt htab
    rw [tabFiles, hname] at hperm
    have hneeds : (indexFiles tabName tab.indexes ++ (tabName, .heap) :: metaFiles (s.db.others tabName)).Perm
        (metaFiles s.db.tabs) := List.perm_middle.trans hperm.symm
    refine Act.Triple.bind (Act.Triple.start (tracks_destroyIndexes he ?_) (hs.dropping hsteps hneeds)) fun _ => ?_
    · intro need hneed
      exact hneeds.subset (List.mem_append_left _ hneed)
    refine Act.Triple.of_eq fun t ht => ?_
    apply Act.Triple.get_bind
    refine Act.Triple.bind (Q := fun _ => Dropping s.db ((tabName, .heap) :: metaFiles (s.db.others tabName))) ?_
      fun _ => (tracks_delete (hneeds.subset (List.mem_append_right _ List.mem_cons_self))).bind fun _ => ?_
    · split
      · next fh hfh =>
        refine Act.Triple.bind (ht.close fh.fd fun broken => ?_) fun _ => Act.Triple.modify fun u hu => ?_
        · refine FileSys.Stage.triple_closeHeap steady_not_halfway ?_ (he.dirty _)
          intro path hpath need hneed heq
          have hheld := ht.stage.elim fun _ h => h.shape.held
          rw [ht.fhs _ _ hfh path hpath] at heq
          rw [hheld.eq_of_path hneed List.mem_cons_self heq]
        · exact ⟨hu.catalogue, hu.stage, fun name fh h => hu.fhs name fh (of_update_none h), hu.ihs, hu.headers⟩
      · apply Act.Triple.pure_eq
        exact ht
    · refine Act.Triple.bind (Act.Triple.modify fun u hu => ?_) fun _ =>
        tracks_dropped (s.db.eraseTab tabName) (List.Subperm.refl _)
      exact ⟨by rw [← hu.catalogue], s.db, rfl, hu.stage, hu.fhs, hu.ihs, hu.headers⟩

/-- The index that is dropped is one file less. -/
theorem metaFiles_eraseIndex {db : DbMeta} {tab : TabMeta} {index : IndexMeta} {colNames : List String} (h : Sorted db)
    (hget : db.getTable tabName = .ok tab) (hindex : tab.getIndexMeta colNames = .ok index) :
    (metaFiles db.tabs).Perm ((getIndexName tabName index.cols, .index) ::
      metaFiles (db.setTab tabName { tab with indexes := tab.indexes.eraseP (TabMeta.matchCols · colNames) }).tabs) := by
  have hname := name_of_getTable h hget
  unfold TabMeta.getIndexMeta at hindex
  split at hindex
  · next found hfind =>
    cases hindex
    obtain ⟨hmatch, front, rest, hsplit, hfront⟩ := List.find?_eq_some_iff_append.1 hfind
    have herase : tab.indexes.eraseP (TabMeta.matchCols · colNames) = front ++ rest := by
      rw [hsplit, List.eraseP_append_right _ fun a ha => by simpa using hfront a ha, 
        List.eraseP_cons_of_pos (p := (TabMeta.matchCols · colNames)) hmatch]
    have hfiles : (tabFiles tab).Perm ((getIndexName tabName index.cols, .index) ::
        tabFiles { tab with indexes := tab.indexes.eraseP (TabMeta.matchCols · colNames) }) := by
      rw [herase]
      simp only [tabFiles, hsplit, indexFiles, List.map_append, List.map_cons, hname]
      exact (List.perm_middle.cons _).trans (List.Perm.swap ..)
    refine (DbMeta.metaFiles_of_getTable h.lt hget).trans ?_
    refine (hfiles.append_right _).trans ?_
    rw [List.cons_append]
    exact (DbMeta.metaFiles_setTab h.lt).symm.cons _
  · cases hindex

theorem tracks_dropIndex {colNames : List String} (hs : s.Ready) (he : PoolWrites env) (hsteps : s.fs.steps = []) :
    Act.Triple (· = s) (dropIndex env tabName colNames) (fun _ t => Tracks (fun steps => ¬Halfway steps) t.fs.steps)
      fun _ t => Tracks (fun steps => ¬Halfway steps) t.fs.steps := by
  have htracks : Tracks (fun steps => ¬Halfway steps) s.fs.steps := by
    rw [hsteps]
    trivial
  unfold dropIndex
  refine (triple_getTable fun e => htracks).bind fun tab => Act.Triple.of_and fun htab => ?_
  split
  · apply Act.Triple.throw_eq
    exact htracks
  · refine Act.Triple.bind (triple_lookup ?_) fun index => Act.Triple.of_and fun hindex => ?_
    · rintro e t rfl
      exact htracks
    have hperm := metaFiles_eraseIndex hs.sorted htab hindex
    refine Act.Triple.bind (Act.Triple.start (tracks_destroyIndex he (hperm.symm.subset List.mem_cons_self))
      (hs.dropping hsteps hperm.symm)) fun _ => ?_
    refine Act.Triple.bind (Act.Triple.modify fun u hu => ?_) fun _ => tracks_dropped
      (s.db.setTab tabName { tab with indexes := tab.indexes.eraseP (TabMeta.matchCols · colNames) })
      (List.Subperm.refl _)
    exact ⟨by rw [← hu.catalogue], s.db, rfl, hu.stage, hu.fhs, hu.ihs, hu.headers⟩

end operations

end SmManager

/-! ## The statement -/

inductive Ddl
  | createTable (tabName : TabName) (colDefs : List ColDef)
  | dropTable (tabName : TabName)
  | createIndex (tabName : TabName) (colNames : List String)
  | dropIndex (tabName : TabName) (colNames : List String)

namespace Ddl

def run (env : DdlEnv) (fuel : Nat) : Ddl → SmM Unit
  | .createTable tabName colDefs => SmManager.createTable env tabName colDefs
  | .dropTable tabName => SmManager.dropTable env tabName
  | .createIndex tabName colNames => SmManager.createIndex env fuel tabName colNames
  | .dropIndex tabName colNames => SmManager.dropIndex env tabName colNames

def IsDrop : Ddl → Prop
  | .dropTable _ => True
  | .dropIndex _ _ => True
  | _ => False

/-- The steps up to a crash, the last first, with the directory that is left. -/
def pointsOf (start : Directory) : List (FsStep × Directory) → List (List FsStep × Directory)
  | [] => [([], start)]
  | (step, dir) :: older => (step :: older.map Prod.fst, dir) :: pointsOf start older

/-- The operation without the steps of earlier ones. -/
def crashPoints (env : DdlEnv) (fuel : Nat) (op : Ddl) (s : SmManager) : List (List FsStep × Directory) :=
  pointsOf s.fs.directory ((op.run env fuel).run { s with fs := { s.fs with steps := [] } }).2.fs.steps

theorem opens_of_tracks {C : List FsStep → Prop} {start : Directory} (h0 : Opens start ↔ C []) :
    ∀ {steps : List (FsStep × Directory)}, Tracks C steps → ∀ point ∈ pointsOf start steps, (Opens point.2 ↔ C point.1)
  | [], _, point, hpoint => by
    rw [pointsOf, List.mem_singleton] at hpoint
    rw [hpoint]
    exact h0
  | (step, dir) :: older, h, point, hpoint => by
    rcases List.mem_cons.1 hpoint with rfl | hpoint
    · exact h.1
    · exact opens_of_tracks h0 h.2 point hpoint

section statement
variable {env : DdlEnv} {fuel : Nat} {s : SmManager}

/-- Every step of an operation is tracked, whether it returns or throws. -/
theorem tracks_run (hs : s.Ready) (he : SmManager.PoolWrites env) (hsteps : s.fs.steps = []) : ∀ op : Ddl,
    Tracks (fun steps => ¬(op.IsDrop ∧ Halfway steps)) ((op.run env fuel).run s).2.fs.steps := by
  have hend : ∀ {C : List FsStep → Prop} {x : SmM Unit}, Act.Triple (· = s) x (fun _ t => Tracks C t.fs.steps)
      (fun _ t => Tracks C t.fs.steps) → Tracks C (x.run s).2.fs.steps := by
    intro C x h
    have h := h s rfl
    rcases hx : x.run s with ⟨_ | _, t⟩ <;> rw [hx] at h
    · exact h
    · exact h
  intro op
  cases op with
  | createTable tabName colDefs =>
    simp only [IsDrop, false_and, not_false_eq_true]
    exact hend (SmManager.tracks_createTable hs hsteps)
  | dropTable tabName =>
    simp only [IsDrop, true_and]
    exact hend (SmManager.tracks_dropTable hs he hsteps)
  | createIndex tabName colNames =>
    simp only [IsDrop, false_and, not_false_eq_true]
    exact hend (SmManager.tracks_createIndex hs he hsteps)
  | dropIndex tabName colNames =>
    simp only [IsDrop, true_and]
    exact hend (SmManager.tracks_dropIndex hs he hsteps)

theorem opens_iff_of_mem (hs : s.Ready) (he : SmManager.PoolWrites env) {op : Ddl} {point : List FsStep × Directory}
    (hpoint : point ∈ op.crashPoints env fuel s) : Opens point.2 ↔ ¬(op.IsDrop ∧ Halfway point.1) := by
  have hs' : SmManager.Ready { s with fs := { s.fs with steps := [] } } :=
    ⟨hs.dbMeta, hs.sorted, hs.openable, hs.coherent, hs.fhs, hs.ihs, hs.headers⟩
  refine opens_of_tracks ⟨fun _ h => ?_, fun _ => opens_of_openable hs.openable⟩ (tracks_run hs' he rfl op) point hpoint
  obtain ⟨path, hpath⟩ := h.2.1
  cases hpath

/-- **A crash during a schema change leaves a database that can be opened, exactly unless a DROP has deleted a file and
not yet rewritten the metadata.** -/
theorem crashPoint_opens_iff (hs : s.Ready) (he : SmManager.PoolWrites env) (op : Ddl) :
    ∀ point ∈ op.crashPoints env fuel s, (Opens point.2 ↔ ¬(op.IsDrop ∧ Halfway point.1)) :=
  fun _ hpoint => opens_iff_of_mem hs he hpoint

end statement

/-! ## DROP TABLE -/

theorem ready_emptyDb : SmManager.emptyDb.Ready where
  dbMeta := rfl
  sorted := ⟨List.Pairwise.nil, nofun⟩
  openable := ⟨nofun, List.nodup_nil⟩
  coherent := ⟨nofun, nofun⟩
  fhs := nofun
  ihs := nofun
  headers := nofun

/-- After `CREATE TABLE t (a INT);` -/
def oneTable : SmManager :=
  ((SmManager.createTable SmManager.quietEnv "t" (planFields [("a", .int)])).run SmManager.emptyDb).2

theorem ready_oneTable : oneTable.Ready :=
  SmManager.ready_createTable ready_emptyDb rfl rfl rfl (Act.run_eq_of_fst (by decide +kernel))

theorem poolWrites_quietEnv : SmManager.PoolWrites SmManager.quietEnv := ⟨nofun, nofun⟩

/-- `DROP TABLE t;` has deleted the file of the table. -/
theorem deleted_oneTable : ∃ point ∈ (Ddl.dropTable "t").crashPoints SmManager.quietEnv 9 oneTable,
    point.1 = [.delete "t", .write 3 0] := by
  have hsteps : ((Ddl.dropTable "t").crashPoints SmManager.quietEnv 9 oneTable).map Prod.fst =
      [[.dbMeta, .delete "t", .write 3 0], [.delete "t", .write 3 0], [.write 3 0], []] := by
    decide +kernel
  apply List.mem_map.1
  rw [hsteps]
  decide

theorem crashPoint_opens_iff_oneTable :
    ∃ point, point ∈ (Ddl.dropTable "t").crashPoints SmManager.quietEnv 9 oneTable ∧
      point.1 = [.delete "t", .write 3 0] ∧ (Opens point.2 ↔ ¬((Ddl.dropTable "t").IsDrop ∧ Halfway point.1)) := by
  obtain ⟨point, hpoint, hsteps⟩ := deleted_oneTable
  exact ⟨point, hpoint, hsteps, crashPoint_opens_iff ready_oneTable poolWrites_quietEnv (.dropTable "t") point hpoint⟩

theorem not_opens_dropTable : ¬∀ (env : DdlEnv) (fuel : Nat) (op : Ddl) (s : SmManager), s.Ready →
    SmManager.PoolWrites env → ∀ point ∈ op.crashPoints env fuel s, Opens point.2 := by
  intro h
  obtain ⟨point, hpoint, hsteps⟩ := deleted_oneTable
  have hopens := h _ _ _ _ ready_oneTable poolWrites_quietEnv point hpoint
  refine (opens_iff_of_mem ready_oneTable poolWrites_quietEnv hpoint).1 hopens ⟨trivial, ?_⟩
  rw [hsteps]
  exact ⟨⟨"t", by decide⟩, by decide⟩

end Ddl

end Rmdb
