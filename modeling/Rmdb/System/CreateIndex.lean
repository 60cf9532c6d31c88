import Rmdb.Index.Faults
import Rmdb.Storage.Skeleton
import Rmdb.System.TableLayout

/-!
# A CREATE INDEX that fails

- `SameStore`: catalogue, files, descriptors and handles are as before. Evicted pages may have been written meanwhile;
  what a table or an index holds is what its handle shows;
- `createIndex_atomic_iff`: an error of `create_index` leaves everything as it was, except the one for a key that is too
  long, which leaves the new file, open, behind.
-/

namespace Rmdb

open Lib

namespace IxManager

section runs
variable {σ : Skeleton} {filename : String} {cols : List ColMeta} {fd : Int}

/-- `create_index` makes one file. It leaves none when it raises an error of a check, unless the key is too long. -/
theorem triple_createIndex (hσ : σ.Sound) (hfd : σ.fd2path fd = none)
    (hshort : σ.isFile (getIndexName filename cols) = false → ixColTotLen cols ≤ ixMaxColLen) :
    Act.Triple (FileSys.Is σ) (createIndex filename cols fd)
      (fun _ s => σ.isFile (getIndexName filename cols) = false ∧ FileSys.Is (σ.create (getIndexName filename cols)) s)
      fun e s => e.IsCheck → FileSys.Is σ s := by
  unfold createIndex
  refine (FileSys.triple_createFile fun _ s hs _ => hs).bind fun _ => Act.Triple.of_and fun hfile => ?_
  have hclosed := hσ.closed_of_absent hfile
  have hnew : (σ.create (getIndexName filename cols)).isFile (getIndexName filename cols) = true :=
    Function.update_self ..
  have hsound := (hσ.create (getIndexName filename cols)).opened fd hnew
  have hE : ∀ (e : Fault) (s : FileSys), ¬e.IsCheck → e.IsCheck → FileSys.Is σ s := fun e s h h' => absurd h' h
  refine (FileSys.triple_openFile hnew hclosed).bind fun _ => ?_
  dsimp only
  rw [if_neg (Int.not_lt.2 (hshort hfile))]
  split
  · exact Act.Triple.throw fun s _ => hE _ s id
  · split
    · exact Act.Triple.throw fun s _ => hE _ s id
    · split
      · exact Act.Triple.throw fun s _ => hE _ s id
      · unfold writeIndex
        refine (FileSys.triple_writePage hsound hE).bind fun _ => (FileSys.triple_writePage hsound hE).bind fun _ => ?_
        refine (FileSys.triple_writePage hsound hE).bind fun _ => (FileSys.triple_setFd2pageno _).bind fun _ => ?_
        refine (FileSys.triple_closeFile (Function.update_self ..)).conseq (fun _ => id) (fun _ s hs => ?_) fun _ _ => id
        have hback : ((σ.create (getIndexName filename cols)).opened (getIndexName filename cols) fd).closed
          (getIndexName filename cols) fd = σ.create (getIndexName filename cols) := Skeleton.opened_closed hfd hclosed
        rw [hback] at hs
        exact ⟨hfile, hs⟩

theorem triple_openIndex {E : Fault → FileSys → Prop} (hfile : σ.isFile (getIndexName filename cols) = true)
    (hopen : σ.path2fd (getIndexName filename cols) = none) (hE : ∀ e s, ¬e.IsCheck → E e s) :
    Act.Triple (FileSys.Is σ) (openIndex filename cols fd)
      (fun _ => FileSys.Is (σ.opened (getIndexName filename cols) fd)) E := by
  unfold openIndex
  refine (FileSys.triple_openFile hfile hopen).bind fun _ => ?_
  refine (FileSys.triple_readPage hE).bind fun _ => (FileSys.triple_readPage hE).bind fun buf => ?_
  split
  · exact Act.Triple.throw fun s _ => hE _ s id
  · refine (Act.Triple.get fun s hs => hs).bind fun s => (FileSys.triple_setFd2pageno _).bind fun _ => ?_
    exact Act.Triple.pure fun s hs => hs

/-- `close_index` and `destroy_index`: the file is closed and gone. -/
theorem triple_closeIndex {E : Fault → FileSys → Prop} {path : String} (hdr : IxFileHdr) (dirty : List (Int × Bytes))
    (hσ : σ.Sound) (hfd : σ.fd2path fd = some path) (hE : ∀ e s, ¬e.IsCheck → E e s) :
    Act.Triple (FileSys.Is σ) (closeIndex fd hdr dirty) (fun _ => FileSys.Is (σ.closed path fd)) E := by
  unfold closeIndex
  dsimp only
  split
  · exact Act.Triple.throw fun s _ => hE _ s id
  · refine (FileSys.triple_writePage hσ hE).bind fun _ => (FileSys.triple_writePages hσ hE).bind fun _ => ?_
    exact FileSys.triple_closeFile hfd

end runs

end IxManager

namespace RmFile

variable {f : RmFile}

/-- There is nothing behind the place, or a record at it. -/
def Placed (f : RmFile) (rid : Rid) : Prop :=
  f.fileHdr.numPages ≤ rid.pageNo ∨ ∃ page, f.fetchPageHandle rid.pageNo = .ok page ∧ page.bitmap.isSet rid.slotNo = true

/-- A step of the scan ends at a record or at the end of the file. -/
theorem placed_of_scanNext : ∀ {fuel : Nat} {rid rid' : Rid}, f.scanNext fuel rid = .ok rid' → f.Placed rid'
  | 0, _, _, h => by cases h
  | fuel + 1, rid, rid', h => by
    unfold scanNext at h
    split at h
    · split at h
      · cases h
      · next page hpage =>
        dsimp only at h
        split at h
        · next hslot =>
          cases h
          refine .inr ⟨page, hpage, ?_⟩
          rcases Bitmap.scan_spec page.bitmap true f.fileHdr.numRecordsPerPage
            (f.fileHdr.numRecordsPerPage - (rid.slotNo + 1)).toNat (rid.slotNo + 1) with ⟨hset, -⟩ | ⟨hend, -⟩
          · exact hset
          · exact absurd hslot (by rw [Bitmap.nextBit, hend]; exact Int.lt_irrefl _)
        · exact placed_of_scanNext h
    · next hpage =>
      cases h
      exact .inl (by omega)

/-- A step of the scan fails only in a read of a page. -/
theorem scanNext_error : ∀ {fuel : Nat} {rid : Rid} {e : Fault}, 0 ≤ rid.pageNo → f.scanNext fuel rid = .error e → ¬e.IsCheck
  | 0, _, _, _, h => by
    cases h
    exact id
  | fuel + 1, rid, e, h0, h => by
    unfold scanNext at h
    split at h
    · next hlt =>
      split at h
      · next e' hpage =>
        cases h
        unfold fetchPageHandle bpmFetch at hpage
        split at hpage
        · omega
        · split at hpage
          · cases hpage
          · cases hpage
            exact id
      · dsimp only at h
        split at h
        · cases h
        · exact scanNext_error (by dsimp only; omega) h
    · cases h

theorem nonneg_of_scanNext : ∀ {fuel : Nat} {rid rid' : Rid}, 0 ≤ rid.pageNo → f.scanNext fuel rid = .ok rid' →
    0 ≤ rid'.pageNo
  | 0, _, _, _, h => by cases h
  | fuel + 1, rid, rid', h0, h => by
    unfold scanNext at h
    split at h
    · split at h
      · cases h
      · dsimp only at h
        split at h
        · cases h
          exact h0
        · exact nonneg_of_scanNext (by dsimp only; omega) h
    · cases h
      exact h0

/-- The record at a place before the end is there. -/
theorem Placed.getRecord {rid : Rid} (h : f.Placed rid) (hlt : rid.pageNo < f.fileHdr.numPages) :
    ∃ rec, f.getRecord rid = .ok rec := by
  rcases h with h | ⟨page, hpage, hset⟩
  · omega
  · refine ⟨memcpy (page.slots rid.slotNo) f.fileHdr.recordSize, ?_⟩
    rw [RmFile.getRecord, hpage]
    simp only [bind, Except.bind, hset, if_true]
    rfl

end RmFile

namespace SmManager

/-! ## The run -/

/-- What is in memory: catalogue and handles. -/
def memory (s : SmManager) : DbMeta × (TabName → Option RmHandle) × (String → Option IxHandle) := (s.db, s.fhs, s.ihs)

/-- The state with this memory and this skeleton of the directory. -/
def At (r : DbMeta × (TabName → Option RmHandle) × (String → Option IxHandle)) (σ : Skeleton) (s : SmManager) : Prop :=
  s.memory = r ∧ FileSys.Is σ s.fs

section rules
variable {α : Type} {r : DbMeta × (TabName → Option RmHandle) × (String → Option IxHandle)} {σ τ : Skeleton}
  {P : SmManager → Prop} {E : Fault → SmManager → Prop}

theorem triple_files {x : FsM α} {F : FileSys → Prop} {Q : α → FileSys → Prop} {G : Fault → FileSys → Prop}
    (h : Act.Triple F x Q G) : Act.Triple (fun s => s.memory = r ∧ F s.fs) (files x)
      (fun a s => s.memory = r ∧ Q a s.fs) fun e s => s.memory = r ∧ G e s.fs := by
  unfold files
  apply Act.Triple.zoom h
  · intro t s
    rfl
  · intro t s
    rfl

theorem triple_check {x : Except Fault α} (hE : ∀ e s, x = .error e → P s → E e s) :
    Act.Triple P (check x) (fun a s => x = .ok a ∧ P s) E := by
  cases x with
  | ok a => exact Act.Triple.pure fun s hs => ⟨rfl, hs⟩
  | error e => exact Act.Triple.throw fun s hs => hE e s rfl hs

theorem triple_lookup {x : Except RMDBError α} (hE : ∀ e s, P s → E e s) :
    Act.Triple P (lookup x) (fun a s => x = .ok a ∧ P s) E := by
  cases x with
  | ok a => exact Act.Triple.pure fun s hs => ⟨rfl, hs⟩
  | error e => exact Act.Triple.throw fun s hs => hE _ s hs

/-- A call of a calm handle. -/
theorem triple_onIndex {κ : Type} {ih : IxIndexHandle κ} {x : IxM κ α} (hc : ih.Calm) (hx : IxIndexHandle.Quiet x)
    (hE : ∀ e s, ¬e.IsCheck → E e s) : Act.Triple P (onIndex ih x) (fun a s => a.2.Calm ∧ P s) E := by
  have h := hx ih hc
  intro s hs
  unfold onIndex
  rcases hr : x.run ih with ⟨e | a, ih'⟩ <;> rw [hr] at h
  · exact hE e s h
  · exact ⟨h, hs⟩

theorem triple_evict {pages : List (Int × Int × Bytes)} (hσ : σ.Sound) (hE : ∀ e s, ¬e.IsCheck → E e s) :
    Act.Triple (At r σ) (evict pages) (fun _ => At r σ) E :=
  (triple_files (Act.Triple.forM pages fun _ _ => FileSys.triple_writePage hσ (E := fun e _ => ¬e.IsCheck)
    fun _ _ h => h)).conseq (fun _ => id) (fun _ _ => id) fun e s h => hE e s h.2

/-- The loop over the records keeps the new file, or removes it before it reports a duplicate. -/
theorem triple_indexRows {env : DdlEnv} {tabName : TabName} {cols : List ColMeta} {f : RmFile} (hσ : σ.Sound)
    (hfd : σ.fd2path env.fd' = none) (hfile : σ.isFile (getIndexName tabName cols) = false) :
    ∀ (fuel : Nat) (rid : Rid) (ih : IxIndexHandle (IxKey cols)), f.Placed rid → 0 ≤ rid.pageNo → ih.Calm →
    Act.Triple (At r ((σ.create (getIndexName tabName cols)).opened (getIndexName tabName cols) env.fd'))
      (indexRows env tabName cols f fuel rid ih)
      (fun _ => At r ((σ.create (getIndexName tabName cols)).opened (getIndexName tabName cols) env.fd'))
      fun e s => e.IsCheck → At r σ s
  | 0, _, _, _, _, _ => Act.Triple.throw fun _ _ h => h.elim
  | fuel + 1, rid, ih, hplaced, h0, hcalm => by
    have hclosed := hσ.closed_of_absent hfile
    have hnew : (σ.create (getIndexName tabName cols)).isFile (getIndexName tabName cols) = true :=
      Function.update_self ..
    have hsound := (hσ.create (getIndexName tabName cols)).opened env.fd' hnew
    have hE : ∀ (e : Fault) (s : SmManager), ¬e.IsCheck → e.IsCheck → At r σ s := fun e s h h' => absurd h' h
    unfold indexRows
    split
    · exact Act.Triple.pure fun _ hs => hs
    · next hlt =>
      obtain ⟨rec, hrec⟩ := hplaced.getRecord (Int.not_le.1 hlt)
      rw [hrec]
      refine (triple_check fun _ _ h => by cases h).bind fun rec => Act.Triple.of_and fun _ => ?_
      refine (triple_evict hsound hE).bind fun _ => ?_
      refine (triple_onIndex hcalm (IxIndexHandle.quiet_getValue fuel _) hE).bind fun dup => ?_
      refine Act.Triple.of_and fun hcalm => ?_
      obtain ⟨dup, ih⟩ := dup
      dsimp only
      split
      · have hback : ((σ.create (getIndexName tabName cols)).opened (getIndexName tabName cols) env.fd').closed
          (getIndexName tabName cols) env.fd' = σ.create (getIndexName tabName cols) := Skeleton.opened_closed hfd hclosed
        have hclose := triple_files (r := r) (IxManager.triple_closeIndex (E := fun e _ => ¬e.IsCheck) ih.file.fileHdr
          (env.dirty (getIndexName tabName cols)) hsound (Function.update_self ..) fun _ _ h => h)
        rw [hback] at hclose
        refine (hclose.conseq (fun _ => id) (fun _ _ => id) fun e s h => hE e s h.2).bind fun _ => ?_
        have hdestroy := triple_files (r := r) (@FileSys.triple_destroyFile (σ.create (getIndexName tabName cols)) _
          (fun _ _ => False) hnew hclosed)
        rw [Skeleton.create_destroy hfile] at hdestroy
        refine (hdestroy.conseq (fun _ => id) (fun _ _ => id) fun e s h => h.2.elim).bind fun _ => ?_
        exact Act.Triple.throw fun s hs _ => hs
      · refine (triple_onIndex hcalm (IxIndexHandle.quiet_insertEntry fuel _ rid) hE).bind fun a => ?_
        refine Act.Triple.of_and fun hcalm => ?_
        obtain ⟨_, ih⟩ := a
        refine (triple_check fun e s h _ => hE e s (RmFile.scanNext_error h0 h)).bind fun rid' => ?_
        refine Act.Triple.of_and fun hnext => ?_
        exact triple_indexRows hσ hfd hfile fuel rid' ih (RmFile.placed_of_scanNext hnext)
          (RmFile.nonneg_of_scanNext h0 hnext) hcalm

end rules

/-! ## The statement -/

/-- The open files exist. -/
def Consistent (s : SmManager) : Prop := s.fs.skeleton.Sound

/-- The descriptors that `open` returns are not in use, and the pool raises no errors of its own. -/
structure Admissible (env : DdlEnv) (s : SmManager) : Prop where
  fd : s.fs.disk.fd2path env.fd = none
  fd' : s.fs.disk.fd2path env.fd' = none
  answers : ∀ e, some e ∈ env.answers → ¬e.IsCheck

/-- Catalogue, files, descriptors and handles are the same. -/
structure SameStore (s s' : SmManager) : Prop where
  db : s'.db = s.db
  dbMeta : s'.fs.dbMeta = s.fs.dbMeta
  isFile : s'.fs.disk.isFile = s.fs.disk.isFile
  fd2path : s'.fs.disk.fd2path = s.fs.disk.fd2path
  path2fd : s'.fs.disk.path2fd = s.fs.disk.path2fd
  fhs : s'.fhs = s.fhs
  ihs : s'.ihs = s.ihs

/-- Whatever error CREATE INDEX raises, apart from a failed system call, it has changed nothing. -/
def Atomic (env : DdlEnv) (fuel : Nat) (tabName : TabName) (colNames : List String) (s : SmManager) : Prop :=
  ∀ e s', (createIndex env fuel tabName colNames).run s = (.error e, s') → e.IsCheck → SameStore s s'

/-- The columns are there, the index and its file are not, and the key is too long. -/
def KeyTooLong (tabName : TabName) (colNames : List String) (s : SmManager) : Prop :=
  ∃ tab cols, s.db.getTable tabName = .ok tab ∧ tab.isIndex colNames = false ∧ colNames.mapM tab.getCol = .ok cols ∧
    s.fs.disk.isFile (getIndexName tabName cols) = false ∧ ixMaxColLen < ixColTotLen cols

theorem sameStore_of_at {s s' : SmManager} (h : At s.memory s.fs.skeleton s') : SameStore s s' := by
  obtain ⟨hmem, hskel⟩ := h
  simp only [memory, Prod.mk.injEq] at hmem
  simp only [FileSys.Is, FileSys.skeleton, Skeleton.mk.injEq] at hskel
  exact ⟨hmem.1, hskel.2.2.2, hskel.1, hskel.2.1, hskel.2.2.1, hmem.2.1, hmem.2.2⟩

section statement
variable {env : DdlEnv} {fuel : Nat} {tabName : TabName} {colNames : List String} {s : SmManager}

theorem triple_getTable {E : Fault → SmManager → Prop} (hE : ∀ e, E e s) :
    Act.Triple (· = s) (getTable tabName) (fun tab t => s.db.getTable tabName = .ok tab ∧ t = s) E := by
  unfold getTable
  apply Act.Triple.get_bind
  apply triple_lookup
  rintro e t rfl
  exact hE e

theorem atomic_of_not_keyTooLong (hs : s.Consistent) (he : Admissible env s) (hlen : ¬KeyTooLong tabName colNames s) :
    Atomic env fuel tabName colNames s := by
  have hE : ∀ (e : Fault) (t : SmManager), ¬e.IsCheck → e.IsCheck → At s.memory s.fs.skeleton t :=
    fun e t h h' => absurd h' h
  have htriple : Act.Triple (· = s) (createIndex env fuel tabName colNames) (fun _ _ => True)
      fun e t => e.IsCheck → At s.memory s.fs.skeleton t := by
    unfold createIndex
    refine (triple_getTable fun e _ => ⟨rfl, rfl⟩).bind fun tab => Act.Triple.of_and fun htab => ?_
    split
    · refine Act.Triple.throw ?_
      rintro t rfl _
      exact ⟨rfl, rfl⟩
    · next hindex =>
      refine Act.Triple.bind (triple_lookup ?_) fun cols => Act.Triple.of_and fun hcols => ?_
      · rintro e t rfl _
        exact ⟨rfl, rfl⟩
      have hshort : s.fs.skeleton.isFile (getIndexName tabName cols) = false → ixColTotLen cols ≤ ixMaxColLen :=
        fun hfile => Int.not_lt.1 fun hlong => hlen ⟨tab, cols, htab, by simpa using hindex, hcols, hfile, hlong⟩
      have hcreate := triple_files (r := s.memory) (IxManager.triple_createIndex hs he.fd hshort)
      have hcreate : Act.Triple (· = s) (files (IxManager.createIndex tabName cols env.fd))
          (fun _ t => s.fs.skeleton.isFile (getIndexName tabName cols) = false ∧
            At s.memory (s.fs.skeleton.create (getIndexName tabName cols)) t)
          fun e t => e.IsCheck → At s.memory s.fs.skeleton t := by
        refine hcreate.conseq ?_ (fun _ t ht => ⟨ht.2.1, ht.1, ht.2.2⟩) fun e t ht hcheck => ⟨ht.1, ht.2 hcheck⟩
        rintro t rfl
        exact ⟨rfl, rfl⟩
      refine hcreate.bind fun _ => Act.Triple.of_and fun hfile => ?_
      have hclosed := hs.closed_of_absent hfile
      have hopen := triple_files (r := s.memory) (@IxManager.triple_openIndex
        (s.fs.skeleton.create (getIndexName tabName cols)) tabName cols env.fd' (fun e _ => ¬e.IsCheck)
        (Function.update_self ..) hclosed fun _ _ h => h)
      refine (hopen.conseq (fun _ => id) (fun _ _ => id) fun e t h => hE e t h.2).bind fun hdr => ?_
      refine (Act.Triple.get fun t ht => ht).bind fun t => ?_
      split
      · exact Act.Triple.throw fun t _ => hE _ t id
      · next fh _ =>
        refine Act.Triple.bind (triple_check ?_) fun rid => Act.Triple.of_and fun hrid => ?_
        · intro e t h _
          exact hE e t (RmFile.scanNext_error (by decide) h)
        let ih : IxIndexHandle (IxKey cols) :=
          .opened (IxFile.created hdr (t.fs.disk.fd2pageno env.fd')) env.answers
        have hcalm : ih.Calm := he.answers
        refine (triple_indexRows hs he.fd' hfile fuel rid ih (RmFile.placed_of_scanNext hrid)
          (RmFile.nonneg_of_scanNext (by decide) hrid) hcalm).bind fun ih => ?_
        intro t _
        trivial
  intro e t hrun hcheck
  exact sameStore_of_at (htriple.error rfl hrun hcheck)

/-- A key that is too long leaves the file of the index, open under the descriptor. -/
theorem run_createIndex_keyTooLong (env : DdlEnv) (fuel : Nat) (hs : s.Consistent) (hlong : KeyTooLong tabName colNames s) :
    ∃ e s', (createIndex env fuel tabName colNames).run s = (.error e, s') ∧ e.IsCheck ∧
      s'.fs.disk.isFile ≠ s.fs.disk.isFile := by
  obtain ⟨tab, cols, htab, hindex, hcols, hfile, hlen⟩ := hlong
  have hnone : s.fs.disk.files (getIndexName tabName cols) = none := by simpa [DiskManager.isFile] using hfile
  obtain ⟨t, ht, hshow, hpath⟩ := FileSys.leads_createFile hnone
  have hclosed : s.fs.disk.path2fd (getIndexName tabName cols) = none := Skeleton.Sound.closed_of_absent hs hfile
  obtain ⟨u, hu, hshow⟩ := FileSys.leads_openFile env.fd hshow (hpath ▸ hclosed)
  have hthrow : (IxManager.createIndex tabName cols env.fd).run s.fs =
      (.error (.thrown (.invalidColLength (ixColTotLen cols))), u) := by
    unfold IxManager.createIndex
    rw [Act.run_bind_of_ok ht, Act.run_bind_of_ok hu]
    dsimp only
    rw [if_pos hlen]
    rfl
  refine ⟨.thrown (.invalidColLength (ixColTotLen cols)), { s with fs := u }, ?_, trivial, ?_⟩
  · have hget : (getTable tabName).run s = (.ok tab, s) := by
      unfold getTable
      rw [Act.run_bind_of_ok (Act.run_get s), htab]
      rfl
    have hlookup : (lookup (colNames.mapM tab.getCol)).run s = (.ok cols, s) := by
      rw [hcols]
      rfl
    unfold createIndex
    rw [Act.run_bind_of_ok hget, hindex]
    dsimp only
    rw [if_neg Bool.false_ne_true, Act.run_bind_of_ok hlookup, Act.run_bind, run_files hthrow]
  · intro heq
    obtain ⟨-, file, hsome, -⟩ := hshow
    have htrue : u.disk.isFile (getIndexName tabName cols) = true := by rw [DiskManager.isFile, hsome]; rfl
    rw [congrFun heq, hfile] at htrue
    cases htrue

/-- **A CREATE INDEX that fails changes nothing, exactly unless it fails because the key is too long.** -/
theorem createIndex_atomic_iff (hs : s.Consistent) (he : Admissible env s) :
    Atomic env fuel tabName colNames s ↔ ¬KeyTooLong tabName colNames s := by
  constructor
  · intro h hlong
    obtain ⟨e, s', hrun, hcheck, hne⟩ := run_createIndex_keyTooLong env fuel hs hlong
    exact hne (h e s' hrun hcheck).isFile
  · exact atomic_of_not_keyTooLong hs he

/-- CREATE TABLE keeps the open files existing. -/
theorem consistent_createTable {colDefs : List ColDef} {s' : SmManager} (hs : s.Consistent)
    (h : (createTable env tabName colDefs).run s = (.ok (), s')) : s'.Consistent := by
  have hcreate : ∀ n, Act.Triple (FileSys.Is s.fs.skeleton) (RmManager.createFile tabName n env.fd)
      (fun _ t => t.skeleton.Sound ∧ t.skeleton.isFile tabName = true ∧ t.skeleton.path2fd tabName = none)
      fun _ _ => True := by
    intro n
    unfold RmManager.createFile
    split
    · exact Act.Triple.throw fun _ _ => trivial
    · refine (FileSys.triple_createFile fun _ _ _ => trivial).bind fun _ => Act.Triple.of_and fun hfile => ?_
      have hnew : (s.fs.skeleton.create tabName).isFile tabName = true := Function.update_self ..
      have hsound := (Skeleton.Sound.create hs tabName).opened env.fd hnew
      refine (FileSys.triple_openFile hnew (hs.closed_of_absent hfile)).bind fun _ => ?_
      refine (FileSys.triple_writePage hsound fun _ _ _ => trivial).bind fun _ => ?_
      refine (FileSys.triple_closeFile (Function.update_self ..)).conseq (fun _ => id) ?_ fun _ _ => id
      rintro _ t ht
      rw [ht]
      exact ⟨hsound.closed, hnew, Function.update_self ..⟩
  have hopen : Act.Triple
      (fun t => t.skeleton.Sound ∧ t.skeleton.isFile tabName = true ∧ t.skeleton.path2fd tabName = none)
      (RmManager.openFile tabName env.fd') (fun _ t => t.skeleton.Sound) fun _ _ => True := by
    refine Act.Triple.of_eq fun t ⟨hsound, hfile, hclosed⟩ => ?_
    refine Act.Triple.conseq (P := FileSys.Is t.skeleton) ?_ (fun u hu => hu ▸ rfl) (fun _ _ => id) fun _ _ => id
    unfold RmManager.openFile
    refine (FileSys.triple_openFile hfile hclosed).bind fun _ => ?_
    refine (FileSys.triple_readPage fun _ _ _ => trivial).bind fun buf => ?_
    split
    · exact Act.Triple.throw fun _ _ => trivial
    · refine (FileSys.triple_setFd2pageno _).bind fun _ => Act.Triple.pure fun u hu => ?_
      rw [hu]
      exact hsound.opened _ hfile
  unfold createTable at h
  obtain ⟨_, s₁, h₁, h⟩ := Act.run_bind_eq_ok.1 h
  cases h₁
  split at h
  · cases h
  · obtain ⟨_, s₂, h₂, h⟩ := Act.run_bind_eq_ok.1 h
    obtain ⟨fs₂, hfs₂, rfl⟩ := run_files_eq h₂
    obtain ⟨_, s₃, h₃, h⟩ := Act.run_bind_eq_ok.1 h
    cases h₃
    obtain ⟨hdr, s₄, h₄, h⟩ := Act.run_bind_eq_ok.1 h
    obtain ⟨fs₄, hfs₄, rfl⟩ := run_files_eq h₄
    have hsound := hopen.ok ((hcreate _).ok rfl hfs₂) hfs₄
    obtain rfl : _ = s' := congrArg Prod.snd h
    exact ⟨hsound.fd2path, hsound.path2fd⟩

end statement

/-! ## A key that is too long -/

theorem consistent_emptyDb : emptyDb.Consistent := ⟨nofun, nofun⟩

/-- After `CREATE TABLE t (a CHAR(300));` -/
def wideDb : SmManager := ((createTable quietEnv "t" (planFields [("a", .char 300)])).run emptyDb).2

theorem consistent_wideDb : wideDb.Consistent :=
  consistent_createTable consistent_emptyDb (Act.run_eq_of_fst (by decide +kernel))

/-- The next `open` returns the descriptor 4. -/
def nextEnv : DdlEnv := ⟨4, 4, fun _ => [], fun _ => [], []⟩

theorem admissible_wideDb : Admissible nextEnv wideDb := ⟨by decide +kernel, by decide +kernel, nofun⟩

theorem createIndex_atomic_iff_wideDb :
    Atomic nextEnv 9 "t" ["a"] wideDb ↔ ¬KeyTooLong "t" ["a"] wideDb :=
  createIndex_atomic_iff consistent_wideDb admissible_wideDb

/-- `CREATE INDEX t (a, a);` has a key of 600 bytes. -/
theorem keyTooLong_wideDb : KeyTooLong "t" ["a", "a"] wideDb :=
  ⟨⟨"t", [⟨"t", "a", .string, 300, 0⟩], []⟩, [⟨"t", "a", .string, 300, 0⟩, ⟨"t", "a", .string, 300, 0⟩],
    by decide +kernel⟩

theorem not_atomic_keyTooLong : ¬∀ (env : DdlEnv) (fuel : Nat) (tabName : TabName) (colNames : List String)
    (s : SmManager), s.Consistent → Admissible env s → Atomic env fuel tabName colNames s := by
  intro h
  obtain ⟨e, s', hrun, hcheck, hne⟩ := run_createIndex_keyTooLong nextEnv 9 consistent_wideDb keyTooLong_wideDb
  exact hne (h _ _ _ _ _ consistent_wideDb admissible_wideDb e s' hrun hcheck).isFile

end SmManager

end Rmdb
