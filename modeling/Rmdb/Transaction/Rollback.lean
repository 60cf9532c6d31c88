import Rmdb.Execution.Statements

/-!
# Abort

- `rollbackWrite_local`: one turn of the loop in `TransactionManager::abort` undoes the last write, in the heap file and
  in every index;
- `rollback_spec`: the whole loop, over any write set whose records describe how the tables came to be;
- `unlockAll_spec`: the loop that releases the locks;
- `abort_restores`: whatever statements a transaction has run, `abort` leaves the tables and the indexes as they were when
  it began.
-/

namespace Rmdb

open Lib Lib.Prog

section rollback
variable {H : Type} {ops : HeapOps H} {V : HeapMap ops} {G : Prop} {s s' : Store H} {x x' : Txn} {t : TabName}
  {tab : TabMeta} {m : RowMap} {ws : List WriteRecord} {w : WriteRecord} {ans : IxAnswers}

variable (ans) in
/-- One turn of the loop. -/
theorem rollbackWrite_local (hdb : s.db w.tabName = some tab)
    (hnames : (tab.indexes.map (IndexMeta.fileOf w.tabName)).Nodup) (hG : G → ∀ h, V.Sound h → V.Good h)
    (hfits : w.Fits V (s.fhs w.tabName)) {R : Rows} (hR : R w.tabName = m) (ha : w.Applicable R)
    (hd : tab.DistinctIn (Function.update m w.rid w.image)) :
    Triple (Store.handle ops false ans) (Local V G s x w.tabName tab m (fun _ => m) []) (rollbackWrite w)
      (fun _ => Local V G s x w.tabName tab (Function.update m w.rid w.image) (fun _ => Function.update m w.rid w.image) [])
      (fun _ _ => False) := by
  subst hR
  cases w with
  | insertTuple t rid =>
    obtain ⟨b, hb⟩ := Option.ne_none_iff_exists'.1 ha
    refine Triple.bind (getTable_triple hdb) fun tab' => Triple.of_and fun htab => ?_
    subst htab
    refine Triple.bind (getRecord_some hb) fun data => Triple.of_and fun hdata => ?_
    subst hdata
    exact Triple.bind (deleteEntries hnames hb) fun _ => deleteRecord_triple hb
  | deleteTuple t rid record =>
    refine Triple.bind (getTable_triple hdb) fun tab' => Triple.of_and fun htab => ?_
    subst htab
    refine Triple.bind (insertRecordAt_triple ha hfits.room (hfits.size record rfl) hG) fun _ => ?_
    exact insertEntries hnames ha hd
  | updateTuple t rid record =>
    obtain ⟨b, hb⟩ := Option.ne_none_iff_exists'.1 ha
    refine Triple.bind (getTable_triple hdb) fun tab' => Triple.of_and fun htab => ?_
    subst htab
    refine Triple.bind (getRecord_some hb) fun data => Triple.of_and fun hdata => ?_
    subst hdata
    refine Triple.bind (deleteEntries hnames hb) fun _ => ?_
    refine Triple.bind (updateRecord_triple hb (hfits.size record rfl)) fun _ => ?_
    have hnone : Function.update (R t) rid none rid = none := Function.update_self ..
    refine (insertEntries hnames hnone (b := record) ?_).mono (fun _ h => h) (fun _ σ hl => ?_) fun _ _ h => h
    · simpa [WriteRecord.rid, WriteRecord.image, WriteRecord.tabName] using hd
    · simpa [WriteRecord.rid, WriteRecord.image, WriteRecord.tabName] using hl

/-- What the loop over the write set `ws` leaves. -/
structure RolledBack (V : HeapMap ops) (G : Prop) (s : Store H) (x : Txn) (ws : List WriteRecord) (s' : Store H)
    (x' : Txn) : Prop extends Store.SameRest s s' where
  ok : s'.Ok V G
  owner : x'.owner = x.owner
  rows : s'.rows V.toHeapView = undoAll ws (s.rows V.toHeapView)
  fits_mono : ∀ w : WriteRecord, w.Fits V (s.fhs w.tabName) → w.Fits V (s'.fhs w.tabName)
  ihs : ∀ name, (∀ t tab, s.db t = some tab → ∀ index ∈ tab.indexes, index.fileOf t ≠ name) → s'.ihs name = s.ihs name

theorem RolledBack.nil (h : s.Ok V G) : RolledBack V G s x [] s x where
  toSameRest := .refl s
  ok := h
  owner := rfl
  rows := rfl
  fits_mono _ hw := hw
  ihs _ _ := rfl

/-- One turn, and then the rest. -/
theorem RolledBack.cons {s₁ : Store H} {x₁ : Txn} (htab : s.db w.tabName = some tab)
    (hl : Local V G s x w.tabName tab (Function.update (V.view (s.fhs w.tabName)) w.rid w.image)
      (fun _ => Function.update (V.view (s.fhs w.tabName)) w.rid w.image) [] (s₁, x₁))
    (h : RolledBack V G s₁ { x₁ with writeSet := ws } ws s' x') : RolledBack V G s x (w :: ws) s' x' where
  toSameRest := hl.toSameRest.trans h.toSameRest
  ok := h.ok
  owner := h.owner.trans hl.owner
  rows := by
    rw [h.rows, hl.rows]
    rfl
  fits_mono w' hw' := h.fits_mono w' (hl.fits_mono hw')
  ihs name hname := (h.ihs name fun t tab htab => hname t tab (hl.db ▸ htab)).trans
    (hl.ihs name (hname w.tabName tab htab))

variable (ans) in
/-- The loop over the write set never raises an error. -/
theorem rollback_spec (h : s.Ok V G) (hG : G → ∀ h, V.Sound h → V.Good h) (hu : Undoable ws (s.rows V.toHeapView))
    (hp : Passes (Distinct s.db) ws (s.rows V.toHeapView))
    (hfits : ∀ w ∈ ws, (s.db w.tabName).isSome ∧ w.Fits V (s.fhs w.tabName)) :
    ∃ s' x', s.rollback ops ans ws x = (.ok (), s', x') ∧ RolledBack V G s x ws s' x' := by
  induction ws generalizing s x with
  | nil => exact ⟨s, x, rfl, .nil h⟩
  | cons w ws ih =>
    obtain ⟨hsome, hfit⟩ := hfits w List.mem_cons_self
    obtain ⟨tab, htab⟩ := Option.isSome_iff_exists.1 hsome
    have hdist : tab.DistinctIn (Function.update (V.view (s.fhs w.tabName)) w.rid w.image) := by
      have := hp.1 w.tabName tab htab
      simpa [WriteRecord.undo, Store.rows] using this
    have hturn := rollbackWrite_local (x := x) ans htab (h.names _ _ htab) hG hfit rfl hu.1 hdist (s, x)
      (h.local htab)
    unfold Store.rollback
    cases hrun : (rollbackWrite w).run (Store.handle ops false ans) (s, x) with
    | mk res σ =>
      obtain ⟨s₁, x₁⟩ := σ
      rw [hrun] at hturn
      cases res with
      | error e => exact hturn.elim
      | ok _ =>
        have hl := hturn
        have hrows : s₁.rows V.toHeapView = w.undo (s.rows V.toHeapView) := hl.rows
        obtain ⟨s', x', heq, hrb⟩ := ih (s := s₁) (x := { x₁ with writeSet := ws }) (hl.ok h htab) (hrows ▸ hu.2)
          (by rw [hrows, hl.db]; exact hp.2)
          fun w' hw' => by
            obtain ⟨hs, hf⟩ := hfits w' (List.mem_cons_of_mem _ hw')
            exact ⟨by rw [hl.db]; exact hs, hl.fits_mono hf⟩
        exact ⟨s', x', heq, .cons htab hl hrb⟩

/-! ## Releasing the locks -/

/-- What the loop over `ids` leaves. -/
structure Released (s : Store H) (x : Txn) (ids : List LockDataId) (s' : Store H) (x' : Txn) : Prop where
  eq : s' = { s with lockMgr := s'.lockMgr }
  writeSet : x'.writeSet = x.writeSet
  txnId : x'.owner.txnId = x.owner.txnId
  wf : s'.lockMgr.Wf
  others : ∀ t, t ≠ x.owner.txnId → ∀ i, s'.lockMgr.heldMode t i = s.lockMgr.heldMode t i
  released : ∀ i, i ∈ ids ∨ s.lockMgr.heldMode x.owner.txnId i = none → s'.lockMgr.heldMode x.owner.txnId i = none

theorem unlockAll_spec (hwf : s.lockMgr.Wf) (ids : List LockDataId) :
    Released s x ids (Store.unlockAll ids s x).1 (Store.unlockAll ids s x).2 := by
  induction ids generalizing s x with
  | nil => exact ⟨rfl, rfl, rfl, hwf, fun _ _ _ => rfl, fun i hi => hi.resolve_left List.not_mem_nil⟩
  | cons id ids ih =>
    have hun := LockManager.unlock_spec s.lockMgr x.owner id
    have hrest := ih (s := { s with lockMgr := (s.lockMgr.unlock x.owner id).2.2 })
      (x := { x with owner := (s.lockMgr.unlock x.owner id).2.1 }) (hun.wf hwf)
    refine ⟨hrest.eq, hrest.writeSet, hrest.txnId.trans hun.txnId, hrest.wf, fun t ht i => ?_, fun i hi => ?_⟩
    · exact (hrest.others t (by rw [hun.txnId]; exact ht) i).trans (hun.same t i (.inl ht))
    · have hback := hrest.released i
      simp only [hun.txnId] at hback
      apply hback
      by_cases he : i = id
      · exact .inr (he ▸ hun.released hwf)
      · rw [hun.same _ i (.inr he)]
        rcases hi with hi | hi
        · exact .inl (List.mem_of_ne_of_mem he hi)
        · exact .inr hi

/-- At its end a transaction holds no lock, if its lock set listed all it held. -/
theorem finish_spec (hwf : s.lockMgr.Wf)
    (hlisted : ∀ i, s.lockMgr.heldMode x.owner.txnId i ≠ none → i ∈ x.owner.lockSet) (tid : Int)
    (final : TransactionState) : ∃ x' lm, s.finish tid x final = { s with lockMgr := lm }.setTxn tid x' ∧ lm.Wf ∧
      (∀ t, t ≠ x.owner.txnId → ∀ i, lm.heldMode t i = s.lockMgr.heldMode t i) ∧
      (∀ i, lm.heldMode x.owner.txnId i = none) ∧ x'.writeSet = [] ∧ x'.owner.lockSet = [] ∧
      x'.owner.txnId = x.owner.txnId ∧ x'.owner.state = final := by
  have hrel := unlockAll_spec (x := x) hwf x.owner.lockSet
  refine ⟨_, _, congrArg (Store.setTxn · tid _) hrel.eq, hrel.wf, hrel.others, fun i => ?_, rfl, rfl, hrel.txnId, rfl⟩
  apply hrel.released
  by_cases hi : s.lockMgr.heldMode x.owner.txnId i = none
  · exact .inr hi
  · exact .inl (hlisted i hi)

/-! ## A transaction from its begin to its abort -/

/-- What the transaction `x`, which began in `s₀`, has done so far. -/
structure Began (V : HeapMap ops) (s₀ s : Store H) (x : Txn) : Prop where
  ok : s.Ok V True
  db : s.db = s₀.db
  unwinds : Unwinds s₀.db x.writeSet (s.rows V.toHeapView) (s₀.rows V.toHeapView)
  fits : ∀ w ∈ x.writeSet, (s₀.db w.tabName).isSome ∧ w.Fits V (s.fhs w.tabName)
  slot : ∀ t ρ, V.Slot (s₀.fhs t) ρ → V.Slot (s.fhs t) ρ
  ihs : ∀ name, (∀ t tab, s₀.db t = some tab → ∀ index ∈ tab.indexes, index.fileOf t ≠ name) →
    s.ihs name = s₀.ihs name
  wf : s.lockMgr.Wf
  txnId : x.owner.txnId = s₀.nextTxnId
  listed : ∀ i, s.lockMgr.heldMode x.owner.txnId i ≠ none → i ∈ x.owner.lockSet

variable {s₀ : Store H}

/-- One more statement. -/
theorem Began.effect (h : Began V s₀ s x) (he : Effect V s x t s' x' ws) : Began V s₀ s' x' where
  ok := he.ok
  db := he.db.trans h.db
  unwinds := by
    rw [he.writeSet]
    exact (h.db ▸ he.unwinds).append h.unwinds
  fits w hw := by
    rw [he.writeSet] at hw
    rcases List.mem_append.1 hw with hw | hw
    · obtain ⟨ht, hs, hf⟩ := he.fits w hw
      exact ⟨by rw [ht, ← h.db]; exact hs, hf⟩
    · exact ⟨(h.fits w hw).1, he.fits_mono w (h.fits w hw).2⟩
  slot t ρ hρ := he.slot t ρ (h.slot t ρ hρ)
  ihs name hname := (he.ihs name fun tab htab => hname _ tab (h.db ▸ htab)).trans (h.ihs name hname)
  wf := he.grew.wf h.wf
  txnId := he.grew.txnId.trans h.txnId
  listed i hi := he.grew.listed h.listed i (he.grew.txnId ▸ hi)

theorem Store.Ok.of_eq (h : s.Ok V G) (hdb : s'.db = s.db) (hfhs : s'.fhs = s.fhs) (hihs : s'.ihs = s.ihs) :
    s'.Ok V G where
  sound := by
    rw [hdb, hfhs]
    exact h.sound
  good := by
    rw [hdb, hfhs]
    exact h.good
  ix t tab htab index hi := by
    obtain ⟨ix, hix, hm⟩ := h.ix t tab (hdb ▸ htab) index hi
    exact ⟨ix, hihs ▸ hix, hfhs ▸ hm⟩
  names := by
    rw [hdb]
    exact h.names
  disjoint := by
    rw [hdb]
    exact h.disjoint

/-- Fewer files need to be good. -/
theorem Store.Ok.mono {G' : Prop} (h : s.Ok V G) (hG : G' → G) : s.Ok V G' :=
  ⟨h.sound, fun t tab htab hg => h.good t tab htab (hG hg), h.ix, h.names, h.disjoint⟩

theorem Began.of_eq {x₀ : Txn} (h : Began V s₀ s x₀) (hdb : s'.db = s.db) (hfhs : s'.fhs = s.fhs) (hihs : s'.ihs = s.ihs)
    (hlm : s'.lockMgr = s.lockMgr) (hw : x'.writeSet = x₀.writeSet) (ho : x'.owner = x₀.owner) :
    Began V s₀ s' x' where
  ok := h.ok.of_eq hdb hfhs hihs
  db := hdb.trans h.db
  unwinds := by
    have hrows : s'.rows V.toHeapView = s.rows V.toHeapView := by
      unfold Store.rows
      rw [hfhs]
    rw [hrows, hw]
    exact h.unwinds
  fits := by
    rw [hfhs, hw]
    exact h.fits
  slot := by
    rw [hfhs]
    exact h.slot
  ihs name hname := (congrFun hihs name).trans (h.ihs name hname)
  wf := hlm ▸ h.wf
  txnId := ho ▸ h.txnId
  listed := by
    rw [hlm, ho]
    exact h.listed

theorem began_beginTxn (h : s₀.Ok V True) (hwf : s₀.lockMgr.Wf)
    (hfree : ∀ i, s₀.lockMgr.heldMode s₀.nextTxnId i = none) :
    ∃ x, s₀.beginTxn.txns s₀.nextTxnId = some x ∧ Began V s₀ s₀.beginTxn x := by
  refine ⟨_, Function.update_self .., ?_⟩
  exact ⟨h.of_eq rfl rfl rfl, rfl, Unwinds.nil _ _, fun _ hw => absurd hw List.not_mem_nil, fun _ _ hρ => hρ,
    fun _ _ => rfl, hwf, rfl, fun i hi => absurd (hfree i) hi⟩

variable (ans) in
theorem Began.execAll (ds : List Dml) (hds : ∀ d ∈ ds, d.InSlots V.toHeapView s₀) {tid : Int}
    (hx : s.txns tid = some x) (h : Began V s₀ s x) : ∃ x', (s.execAll ops ans tid ds).txns tid = some x' ∧
      Began V s₀ (s.execAll ops ans tid ds) x' := by
  induction ds generalizing s x with
  | nil => exact ⟨x, hx, h⟩
  | cons d ds ih =>
    have hds' : ∀ d ∈ ds, d.InSlots V.toHeapView s₀ := fun d hd => hds d (List.mem_cons_of_mem _ hd)
    unfold Store.execAll Store.exec
    rw [hx]
    simp only
    split
    · exact ih hds' hx h
    · cases hrun : d.prog.run (Store.handle ops true ans) (s, x) with
      | mk res σ =>
        obtain ⟨s₁, x₁⟩ := σ
        have hd : d.InSlots V.toHeapView s := by
          have := hds d List.mem_cons_self
          cases d with
          | insert t values => trivial
          | delete t rids => exact fun rid hr => h.slot t rid (this rid hr)
          | update t sets rids => exact fun rid hr => h.slot t rid (this rid hr)
        obtain ⟨ws, he⟩ := d.effect h.ok hd hrun
        exact ih hds' (x := x₁) (Function.update_self ..) ((h.effect he).of_eq rfl rfl rfl rfl rfl rfl)

/-- The indexes are determined by the tables. -/
theorem ihs_eq_of_rows (h₀ : s₀.Ok V True) (h : s.Ok V G) (hdb : s.db = s₀.db)
    (hrows : s.rows V.toHeapView = s₀.rows V.toHeapView)
    (hihs : ∀ name, (∀ t tab, s₀.db t = some tab → ∀ index ∈ tab.indexes, index.fileOf t ≠ name) →
      s.ihs name = s₀.ihs name) : s.ihs = s₀.ihs := by
  funext name
  by_cases hlive : ∀ t tab, s₀.db t = some tab → ∀ index ∈ tab.indexes, index.fileOf t ≠ name
  · exact hihs name hlive
  · push Not at hlive
    obtain ⟨t, tab, htab, index, hi, rfl⟩ := hlive
    obtain ⟨ix₀, hix₀, hm₀⟩ := h₀.ix t tab htab index hi
    obtain ⟨ix, hix, hm⟩ := h.ix t tab (hdb ▸ htab) index hi
    rw [show V.view (s.fhs t) = V.view (s₀.fhs t) from congrFun hrows t] at hm
    rw [hix, hix₀, hm.unique hm₀]

variable (ans) in
/-- Roll-back of everything a transaction has done, and the release of its locks. -/
theorem Began.abort {tid : Int} (h₀ : s₀.Ok V True) (hx : s.txns tid = some x) (h : Began V s₀ s x) :
    (s.abort ops ans tid).1 = .ok () ∧ (s.abort ops ans tid).2.rows V.toHeapView = s₀.rows V.toHeapView ∧
      (s.abort ops ans tid).2.ihs = s₀.ihs ∧
      ∃ x', (s.abort ops ans tid).2.txns tid = some x' ∧ x'.writeSet = [] ∧ x'.owner.lockSet = [] ∧
        ∀ i, (s.abort ops ans tid).2.lockMgr.heldMode s₀.nextTxnId i = none := by
  obtain ⟨s₁, x₁, hlog, h₁⟩ : ∃ s₁ x₁, s.logEnd x .abort = (s₁, x₁) ∧ Began V s₀ s₁ x₁ :=
    ⟨_, _, rfl, h.of_eq rfl rfl rfl rfl rfl rfl⟩
  obtain ⟨s₂, x₂, hroll, hrb⟩ := rollback_spec (x := x₁) ans (G := ∀ h, V.Sound h → V.Good h)
    (h₁.ok.mono fun _ => trivial) id h₁.unwinds.undoable (h₁.db ▸ h₁.unwinds.passes) (h₁.db ▸ h₁.fits)
  have hrows : s₂.rows V.toHeapView = s₀.rows V.toHeapView := hrb.rows.trans h₁.unwinds.eq
  have hihs : s₂.ihs = s₀.ihs := by
    refine ihs_eq_of_rows h₀ hrb.ok (hrb.db.trans h₁.db) hrows fun name hname => ?_
    exact (hrb.ihs name (h₁.db ▸ hname)).trans (h₁.ihs name hname)
  have hid : x₂.owner.txnId = s₀.nextTxnId := by rw [hrb.owner, h₁.txnId]
  obtain ⟨x₃, lm, hfin, -, -, hheld, hw, hset, -⟩ := finish_spec (s := s₂) (x := x₂) (by rw [hrb.lockMgr]; exact h₁.wf)
    (by rw [hrb.lockMgr, hrb.owner]; exact h₁.listed) tid .aborted
  have heq : s.abort ops ans tid = (.ok (), s₂.finish tid x₂ .aborted) := by
    simp only [Store.abort, hx, hlog, hroll]
  rw [heq, hfin]
  refine ⟨rfl, hrows, hihs, x₃, Function.update_self .., hw, hset, fun i => ?_⟩
  rw [← hid]
  exact hheld i

end rollback

/-- Whatever statements a transaction has run, `abort` leaves every table and every index as they were when it began,
its write set empty and none of its locks. -/
theorem abort_restores (s₀ : Store RmFile) (hok : s₀.Ok RmFile.heapMap True) (hwf : s₀.lockMgr.Wf)
    (hfree : ∀ i, s₀.lockMgr.heldMode s₀.nextTxnId i = none) (ans : IxAnswers) (ds : List Dml)
    (hds : ∀ d ∈ ds, d.InSlots RmFile.heapView s₀) :
    let s := s₀.beginTxn.execAll RmFile.heapOps ans s₀.nextTxnId ds
    let r := s.abort RmFile.heapOps ans s₀.nextTxnId
    r.1 = .ok () ∧ (∀ t, (r.2.fhs t).view = (s₀.fhs t).view) ∧ r.2.ihs = s₀.ihs ∧
      ∃ x, r.2.txns s₀.nextTxnId = some x ∧ x.writeSet = [] ∧ x.owner.lockSet = [] ∧
        ∀ i, r.2.lockMgr.heldMode s₀.nextTxnId i = none := by
  obtain ⟨x, hx, h⟩ := began_beginTxn hok hwf hfree
  obtain ⟨x', hx', h'⟩ := h.execAll ans ds hds hx
  obtain ⟨hres, hrows, hihs, hend⟩ := h'.abort ans hok hx'
  exact ⟨hres, fun t => congrFun hrows t, hihs, hend⟩

def columnA : ColMeta := ⟨"t", "a", .int, 4, 0⟩

def indexOnA : IndexMeta := ⟨"t", 4, 1, [columnA]⟩

/-- A table `t` with an `int` column `a` and an index on it. -/
def indexedTable : TabMeta := { name := "t", cols := [columnA], indexes := [indexOnA] }

def emptyStore : Store RmFile where
  logMgr := .start []
  fhs t := RmFile.newFile t 4
  fd _ := 3
  db t := if t = "t" then some indexedTable else none
  ihs name := if name = "t_a.idx" then some fun _ => none else none
  isFile name := name == "t_a.idx"
  lockMgr := ⟨fun _ => none⟩
  txns _ := none
  nextTxnId := 0

theorem emptyStore_ok : emptyStore.Ok RmFile.heapMap True := by
  have hdb : ∀ t tab, emptyStore.db t = some tab → t = "t" ∧ tab = indexedTable := by
    intro t tab h
    unfold emptyStore at h
    by_cases ht : t = "t" <;> simp_all
  have hgood : ∀ t, RmFile.heapView.Good (emptyStore.fhs t) := fun t => RmFile.newFile_good t (by decide) (by decide)
  refine ⟨fun t _ _ => RmFile.heapMap.sound_of_good (hgood t), fun t _ _ _ => hgood t, ?_, ?_, ?_⟩
  · intro t tab htab index hi
    obtain ⟨rfl, rfl⟩ := hdb t tab htab
    obtain rfl : index = indexOnA := List.mem_singleton.1 hi
    have hname : indexOnA.fileOf "t" = "t_a.idx" := by decide
    refine ⟨fun _ => none, by rw [hname]; rfl, fun k r => ?_⟩
    have hview : RmFile.heapMap.view (emptyStore.fhs "t") r = none := RmFile.newFile_view "t" 4 r
    simp [hview]
  · intro t tab htab
    obtain ⟨rfl, rfl⟩ := hdb t tab htab
    decide
  · intro t tab t' tab' htab htab' _ _ _ _ _
    rw [(hdb t tab htab).1, (hdb t' tab' htab').1]

/-- A row is inserted, updated and deleted, and another one inserted. -/
def insertUpdateDelete : List Dml :=
  let int n : Value := ⟨.int n, none⟩
  [.insert "t" [int 5], .update "t" [⟨⟨"t", "a"⟩, int 7⟩] [⟨1, 0⟩], .delete "t" [⟨1, 0⟩], .insert "t" [int 9]]

theorem abort_restores_insertUpdateDelete :
    let s := emptyStore.beginTxn.execAll RmFile.heapOps (fun _ => .error .halt) emptyStore.nextTxnId insertUpdateDelete
    let r := s.abort RmFile.heapOps (fun _ => .error .halt) emptyStore.nextTxnId
    (s.fhs "t").view ⟨2, 0⟩ = some [9, 0, 0, 0] ∧ (r.2.fhs "t").view ⟨2, 0⟩ = none := by
  refine ⟨by decide +kernel, ?_⟩
  have hslot : RmFile.InSlots (emptyStore.fhs "t") ⟨1, 0⟩ := ⟨by decide, by decide, by decide⟩
  have hds : ∀ d ∈ insertUpdateDelete, d.InSlots RmFile.heapView emptyStore := by
    intro d hd
    simp only [insertUpdateDelete, List.mem_cons, List.not_mem_nil, or_false] at hd
    rcases hd with rfl | rfl | rfl | rfl
    · trivial
    · exact fun rid hr => List.mem_singleton.1 hr ▸ hslot
    · exact fun rid hr => List.mem_singleton.1 hr ▸ hslot
    · trivial
  obtain ⟨-, hview, -⟩ := abort_restores emptyStore emptyStore_ok (fun _ => .nil) (fun _ => rfl)
    (fun _ => .error .halt) insertUpdateDelete hds
  rw [hview "t"]
  exact RmFile.newFile_view "t" 4 ⟨2, 0⟩

end Rmdb
