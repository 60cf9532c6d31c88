import Rmdb.Execution.Keys
import Rmdb.Execution.Store
import Rmdb.Transaction.Undo

/-!
# What a statement does to a table and its indexes

- `Local`: the state in the middle of a statement on one table. The heap file holds `m`, each index mirrors a table of
  its own, and the write set has grown by `ws`; nothing else has changed;
- one lemma for each call, and from them the two loops over the indexes, `deleteEntries` and `insertEntries`;
- `Settled`: between two rows every index mirrors the heap file, and undoing the new writes leads back to the start. The
  row loops of the three executors keep it, whether they end or raise an error.
-/

namespace Rmdb

open Lib Lib.Prog

/-- The file of an index. -/
def IndexMeta.fileOf (tabName : TabName) (index : IndexMeta) : String := getIndexName tabName index.cols

/-- The open index mirrors `m`. -/
def Store.HasIx {H : Type} (s : Store H) (tabName : TabName) (m : RowMap) (index : IndexMeta) : Prop :=
  ∃ ix, s.ihs (index.fileOf tabName) = some ix ∧ Mirrors (makeKey index.cols) m ix

def Store.rows {H : Type} (V : HeapView H) (s : Store H) : Rows := fun t => V.view (s.fhs t)

/-- The parts of a store that no call on a table touches. -/
structure Store.SameRest {H : Type} (s s' : Store H) : Prop where
  db : s'.db = s.db
  fd : s'.fd = s.fd
  isFile : s'.isFile = s.isFile
  txns : s'.txns = s.txns
  nextTxnId : s'.nextTxnId = s.nextTxnId
  lockMgr : s'.lockMgr = s.lockMgr

theorem Store.SameRest.refl {H : Type} (s : Store H) : s.SameRest s := ⟨rfl, rfl, rfl, rfl, rfl, rfl⟩

/-- A write record of a table that its roll-back can use. -/
structure WriteRecord.Fits {H : Type} {ops : HeapOps H} (V : HeapMap ops) (w : WriteRecord) (h : H) : Prop where
  room : V.Room h w.rid
  size : ∀ b ∈ w.image, b.length = ops.size h

section statement
variable {H : Type} {ops : HeapOps H} (V : HeapMap ops) (G : Prop) (s₀ : Store H) (x₀ : Txn) (t : TabName) (tab : TabMeta)

/-- The state in the middle of a statement on the table `t` that has started in `s₀`. `G` is what must hold for the heap
file to be good. -/
structure Local (m : RowMap) (P : IndexMeta → RowMap) (ws : List WriteRecord) (σ : Store H × Txn) : Prop extends
    Store.SameRest s₀ σ.1 where
  owner : σ.2.owner = x₀.owner
  writeSet : σ.2.writeSet = ws ++ x₀.writeSet
  fhs : ∀ t', t' ≠ t → σ.1.fhs t' = s₀.fhs t'
  ihs : ∀ name, (∀ index ∈ tab.indexes, index.fileOf t ≠ name) → σ.1.ihs name = s₀.ihs name
  sound : V.Sound (σ.1.fhs t)
  good : G → V.Good (σ.1.fhs t)
  view : V.view (σ.1.fhs t) = m
  size : ops.size (σ.1.fhs t) = ops.size (s₀.fhs t)
  slot : ∀ ρ, V.Slot (s₀.fhs t) ρ → V.Slot (σ.1.fhs t) ρ
  room : ∀ ρ, V.Room (s₀.fhs t) ρ → V.Room (σ.1.fhs t) ρ
  fits : ∀ w ∈ ws, w.tabName = t ∧ w.Fits V (σ.1.fhs t)
  ix : ∀ index ∈ tab.indexes, σ.1.HasIx t (P index) index

variable {V G s₀ x₀ t tab}
variable {m : RowMap} {P : IndexMeta → RowMap} {ws : List WriteRecord} {σ : Store H × Txn} {rid : Rid} {b buf : Bytes}
  {lg : Bool} {ans : IxAnswers} {index : IndexMeta} {E : Exn → Store H × Txn → Prop}

/-! ## Calls on the heap file -/

/-- What `putFile` leaves after a write that has succeeded. -/
theorem Store.putFile_ok {α : Type} (s : Store H) (x : Txn) (t : TabName) (a : α) (h : H) (ctx : Option Context) :
    ∃ s' x', s.putFile x t (.ok (a, h, ctx)) = (.ok a, s', x') ∧ s.SameRest s' ∧ s'.ihs = s.ihs ∧
      s'.fhs = Function.update s.fhs t h ∧ x'.owner = x.owner ∧ x'.writeSet = x.writeSet := by
  cases ctx with
  | none => exact ⟨_, _, rfl, ⟨rfl, rfl, rfl, rfl, rfl, rfl⟩, rfl, rfl, rfl, rfl⟩
  | some ctx => exact ⟨_, _, rfl, ⟨rfl, rfl, rfl, rfl, rfl, rfl⟩, rfl, rfl, rfl, rfl⟩

theorem Store.SameRest.trans {s s' s'' : Store H} (h : s.SameRest s') (h' : s'.SameRest s'') : s.SameRest s'' :=
  ⟨h'.db.trans h.db, h'.fd.trans h.fd, h'.isFile.trans h.isFile, h'.txns.trans h.txns,
    h'.nextTxnId.trans h.nextTxnId, h'.lockMgr.trans h.lockMgr⟩

/-- A write to the heap file. -/
theorem Local.put {s s' : Store H} {x x' : Txn} {h : H} {v : Option Bytes} (hl : Local V G s₀ x₀ t tab m P ws (s, x))
    (hput : V.Put ops (s.fhs t) h rid v) (hgood : G → V.Good h) (hrest : s.SameRest s') (hihs : s'.ihs = s.ihs)
    (hfhs : s'.fhs = Function.update s.fhs t h) (ho : x'.owner = x.owner) (hw : x'.writeSet = x.writeSet) :
    Local V G s₀ x₀ t tab (Function.update m rid v) P ws (s', x') where
  toSameRest := hl.toSameRest.trans hrest
  owner := ho.trans hl.owner
  writeSet := hw.trans hl.writeSet
  fhs t' ht := by
    show s'.fhs t' = _
    rw [hfhs, Function.update_of_ne ht]
    exact hl.fhs t' ht
  ihs name hname := by
    show s'.ihs name = _
    rw [hihs]
    exact hl.ihs name hname
  sound := by simpa [hfhs] using hput.sound
  good hG := by simpa [hfhs] using hgood hG
  view := by
    have := hput.view
    rw [show V.view (s.fhs t) = m from hl.view] at this
    simpa [hfhs] using this
  size := by
    have := hput.size.trans hl.size
    simpa [hfhs] using this
  slot ρ hρ := by
    have := hput.slot ρ (hl.slot ρ hρ)
    simpa [hfhs] using this
  room ρ hρ := by
    have := hput.room ρ (hl.room ρ hρ)
    simpa [hfhs] using this
  fits w hw := by
    obtain ⟨ht, hroom, hsize⟩ := hl.fits w hw
    have hr := hput.room _ hroom
    have hs : ∀ b ∈ w.image, b.length = ops.size h := fun b hb => (hsize b hb).trans hput.size.symm
    exact ⟨ht, ⟨by simpa [hfhs] using hr, by simpa [hfhs] using hs⟩⟩
  ix index hi := by
    obtain ⟨ix, hix, hm⟩ := hl.ix index hi
    exact ⟨ix, by simpa [hihs] using hix, hm⟩

theorem getRecord_some (hb : m rid = some b) : Triple (Store.handle ops lg ans) (Local V G s₀ x₀ t tab m P ws)
    (Exec.getRecord t rid) (fun a σ => a = b ∧ Local V G s₀ x₀ t tab m P ws σ) E := by
  apply Triple.perform_ok
  rintro ⟨s, x⟩ hl
  have hok : ops.getRecord (s.fhs t) rid = .ok b := V.getRecord_some hl.sound (by rw [hl.view]; exact hb)
  exact ⟨b, (s, x), by simp only [Store.handle, hok]; rfl, rfl, hl⟩

/-- `get_record` of a slot without a record changes nothing. -/
theorem getRecord_triple (hslot : V.Slot (s₀.fhs t) rid) :
    Triple (Store.handle ops lg ans) (Local V G s₀ x₀ t tab m P ws) (Exec.getRecord t rid)
      (fun b σ => m rid = some b ∧ Local V G s₀ x₀ t tab m P ws σ) (fun _ => Local V G s₀ x₀ t tab m P ws) := by
  cases hb : m rid with
  | some b =>
    refine (getRecord_some hb).mono (fun _ h => h) (fun a σ h => ?_) (fun _ _ h => h)
    exact ⟨by rw [h.1], h.2⟩
  | none =>
    apply Triple.perform
    rintro ⟨s, x⟩ hl
    obtain ⟨e, he⟩ := V.getRecord_none hl.sound (hl.slot rid hslot) (by rw [hl.view]; exact hb)
    simp only [Store.handle, show ops.getRecord (s.fhs t) rid = .error e from he]
    exact hl

theorem insertRecord_triple (hG : G) (hsize : buf.length = ops.size (s₀.fhs t)) :
    Triple (Store.handle ops lg ans) (Local V G s₀ x₀ t tab m P ws) (Exec.insertRecord t buf)
      (fun rid σ => m rid = none ∧ V.Room (σ.1.fhs t) rid ∧
        Local V G s₀ x₀ t tab (Function.update m rid (some buf)) P ws σ) E := by
  apply Triple.perform_ok
  rintro ⟨s, x⟩ hl
  obtain ⟨rid, h, ctx, hok, hnone, hgood, hput⟩ := V.insertRecord (hl.good hG) (hsize.trans hl.size.symm) (s.context x lg)
  obtain ⟨s', x', heq, hrest, hihs, hfhs, ho, hw⟩ := s.putFile_ok x t rid h ctx
  have hcall : Store.handle ops lg ans (.insertRecord t buf) (s, x) = (.ok rid, s', x') :=
    (congrArg (s.putFile x t) hok).trans heq
  have hl' := hl.put hput (fun _ => hgood) hrest hihs hfhs ho hw
  have hsome : V.view (s'.fhs t) rid = some buf := by
    rw [show V.view (s'.fhs t) = _ from hl'.view, Function.update_self]
  exact ⟨rid, (s', x'), hcall, by rw [← hl.view]; exact hnone, V.room_of_some hl'.sound hsome, hl'⟩

theorem deleteRecord_triple (hb : m rid = some b) :
    Triple (Store.handle ops lg ans) (Local V G s₀ x₀ t tab m P ws) (Exec.deleteRecord t rid)
      (fun _ => Local V G s₀ x₀ t tab (Function.update m rid none) P ws) E := by
  apply Triple.perform_ok
  rintro ⟨s, x⟩ hl
  obtain ⟨h, ctx, hok, hgood, hput⟩ := V.deleteRecord hl.sound (by rw [hl.view]; exact hb) (s.context x lg)
  obtain ⟨s', x', heq, hrest, hihs, hfhs, ho, hw⟩ := s.putFile_ok x t () h ctx
  have hcall : Store.handle ops lg ans (.deleteRecord t rid) (s, x) = (.ok (), s', x') :=
    (congrArg (fun r : Except RMDBError (H × Option Context) => s.putFile x t (r.map ((), ·))) hok).trans heq
  refine ⟨(), (s', x'), hcall, ?_⟩
  exact hl.put hput (fun hG => hgood (hl.good hG)) hrest hihs hfhs ho hw

theorem updateRecord_triple (hb : m rid = some b) (hsize : buf.length = ops.size (s₀.fhs t)) :
    Triple (Store.handle ops lg ans) (Local V G s₀ x₀ t tab m P ws) (Exec.updateRecord t rid buf)
      (fun _ => Local V G s₀ x₀ t tab (Function.update m rid (some buf)) P ws) E := by
  apply Triple.perform_ok
  rintro ⟨s, x⟩ hl
  obtain ⟨h, ctx, hok, hgood, hput⟩ := V.updateRecord hl.sound (by rw [hl.view]; exact hb) (hsize.trans hl.size.symm)
    (s.context x lg)
  obtain ⟨s', x', heq, hrest, hihs, hfhs, ho, hw⟩ := s.putFile_ok x t () h ctx
  have hcall : Store.handle ops lg ans (.updateRecord t rid buf) (s, x) = (.ok (), s', x') :=
    (congrArg (fun r : Except RMDBError (H × Option Context) => s.putFile x t (r.map ((), ·))) hok).trans heq
  refine ⟨(), (s', x'), hcall, ?_⟩
  exact hl.put hput (fun hG => hgood (hl.good hG)) hrest hihs hfhs ho hw

/-- A positional insert leaves a good file only where every sound file is good. -/
theorem insertRecordAt_triple (hnone : m rid = none) (hroom : V.Room (s₀.fhs t) rid)
    (hsize : buf.length = ops.size (s₀.fhs t)) (hG : G → ∀ h, V.Sound h → V.Good h) :
    Triple (Store.handle ops lg ans) (Local V G s₀ x₀ t tab m P ws) (Exec.insertRecordAt t rid buf)
      (fun _ => Local V G s₀ x₀ t tab (Function.update m rid (some buf)) P ws) E := by
  apply Triple.perform_ok
  rintro ⟨s, x⟩ hl
  obtain ⟨h, hok, hput⟩ := V.insertRecordAt hl.sound (hl.room rid hroom) (by rw [hl.view]; exact hnone)
    (hsize.trans hl.size.symm)
  obtain ⟨s', x', heq, hrest, hihs, hfhs, ho, hw⟩ := s.putFile_ok x t () h none
  have hcall : Store.handle ops lg ans (.insertRecordAt t rid buf) (s, x) = (.ok (), s', x') :=
    (congrArg (fun r : Except RMDBError H => s.putFile x t (r.map ((), ·, none))) hok).trans heq
  refine ⟨(), (s', x'), hcall, ?_⟩
  exact hl.put hput (fun hg => hG hg h hput.sound) hrest hihs hfhs ho hw

/-! ## Other calls -/

theorem getTable_triple (hdb : s₀.db t = some tab) : Triple (Store.handle ops lg ans) (Local V G s₀ x₀ t tab m P ws)
    (Exec.getTable t) (fun a σ => a = tab ∧ Local V G s₀ x₀ t tab m P ws σ) E := by
  apply Triple.perform_ok
  rintro ⟨s, x⟩ hl
  have hs : s.db t = some tab := by rw [show s.db = s₀.db from hl.db, hdb]
  exact ⟨tab, (s, x), by simp only [Store.handle, hs], rfl, hl⟩

theorem check_triple {α : Type} {Q : Store H × Txn → Prop} {r : Except RMDBError α} {a : α} (hr : r = .ok a) :
    Triple (Store.handle ops lg ans) Q (Exec.check r) (fun a' σ => a' = a ∧ Q σ) E := by
  subst hr
  exact Triple.ret fun _ hq => ⟨rfl, hq⟩

/-- A write record that fits enters the write set. -/
theorem appendWriteRecord_triple {w : WriteRecord} {Q : Store H × Txn → Prop}
    (hw : ∀ σ, Q σ → Local V G s₀ x₀ t tab m P ws σ ∧ w.tabName = t ∧ w.Fits V (σ.1.fhs t)) :
    Triple (Store.handle ops lg ans) Q (Exec.appendWriteRecord w)
      (fun _ => Local V G s₀ x₀ t tab m P (w :: ws)) E := by
  apply Triple.perform_ok
  rintro ⟨s, x⟩ hq
  obtain ⟨hl, ht, hf⟩ := hw (s, x) hq
  refine ⟨(), _, rfl, { hl with writeSet := congrArg (w :: ·) hl.writeSet, fits := fun w' hw' => ?_ }⟩
  rcases List.mem_cons.1 hw' with rfl | hw'
  · exact ⟨ht, hf⟩
  · exact hl.fits w' hw'

/-! ## Calls on the indexes -/

section names
variable (hnames : (tab.indexes.map (IndexMeta.fileOf t)).Nodup) (hi : index ∈ tab.indexes)
include hnames hi

/-- A call on one index leaves the others alone. -/
theorem Local.setIx {s : Store H} {x : Txn} {ix : IxMap} {m' : RowMap} (hl : Local V G s₀ x₀ t tab m P ws (s, x))
    (hm : Mirrors (makeKey index.cols) m' ix) :
    Local V G s₀ x₀ t tab m (Function.update P index m') ws
      ({ s with ihs := Function.update s.ihs (index.fileOf t) (some ix) }, x) :=
  { hl with
    ihs := fun name hname => by
      have hne : name ≠ index.fileOf t := fun he => hname index hi he.symm
      show Function.update s.ihs (index.fileOf t) (some ix) name = _
      rw [Function.update_of_ne hne]
      exact hl.ihs name hname
    ix := fun index' hi' => by
      by_cases he : index' = index
      · subst he
        exact ⟨ix, by simp, by simpa using hm⟩
      · obtain ⟨ix', hix', hm'⟩ := hl.ix index' hi'
        have hne : index'.fileOf t ≠ index.fileOf t := fun heq =>
          he (List.inj_on_of_nodup_map hnames hi' hi heq)
        refine ⟨ix', ?_, by simpa [Function.update_of_ne he] using hm'⟩
        show Function.update s.ihs (index.fileOf t) (some ix) (index'.fileOf t) = _
        rw [Function.update_of_ne hne]
        exact hix' }

theorem deleteEntry_triple (hb : P index rid = some b) :
    Triple (Store.handle ops lg ans) (Local V G s₀ x₀ t tab m P ws) (Exec.deleteEntry t index (makeKey index.cols b))
      (fun _ => Local V G s₀ x₀ t tab m (Function.update P index (Function.update (P index) rid none)) ws) E := by
  apply Triple.perform
  rintro ⟨s, x⟩ hl
  obtain ⟨ix, hix, hm⟩ := hl.ix index hi
  have hix : s.ihs (getIndexName t index.cols) = some ix := hix
  simp only [Store.handle, hix, IxCall.perform]
  exact hl.setIx hnames hi (hm.erase hb)

theorem insertEntry_triple (hnone : P index rid = none)
    (hd : KeysDistinct (makeKey index.cols) (Function.update (P index) rid (some b))) :
    Triple (Store.handle ops lg ans) (Local V G s₀ x₀ t tab m P ws)
      (Exec.insertEntry t index (makeKey index.cols b) rid)
      (fun _ => Local V G s₀ x₀ t tab m (Function.update P index (Function.update (P index) rid (some b))) ws) E := by
  apply Triple.perform
  rintro ⟨s, x⟩ hl
  obtain ⟨ix, hix, hm⟩ := hl.ix index hi
  have hix : s.ihs (getIndexName t index.cols) = some ix := hix
  have hfree := hm.eq_none_of_keysDistinct hnone hd
  simp only [Store.handle, hix, IxCall.perform, hfree, if_true]
  exact hl.setIx hnames hi (hm.insert hnone hfree)

end names

/-- Only what the indexes of the table mirror matters. -/
theorem Local.congr {P' : IndexMeta → RowMap} (hl : Local V G s₀ x₀ t tab m P ws σ)
    (h : ∀ index ∈ tab.indexes, P' index = P index) : Local V G s₀ x₀ t tab m P' ws σ :=
  { hl with ix := fun index hi => by rw [h index hi]; exact hl.ix index hi }

/-- A loop over the indexes that turns the table each of them mirrors from `m₁` into `m₂`. -/
theorem forM_indexes {m₁ m₂ : RowMap} {f : IndexMeta → Exec PUnit} (hnodup : tab.indexes.Nodup)
    (hf : ∀ index ∈ tab.indexes, ∀ P, P index = m₁ → Triple (Store.handle ops lg ans) (Local V G s₀ x₀ t tab m P ws)
      (f index) (fun _ => Local V G s₀ x₀ t tab m (Function.update P index m₂) ws) E) :
    Triple (Store.handle ops lg ans) (Local V G s₀ x₀ t tab m (fun _ => m₁) ws) (tab.indexes.forM f)
      (fun _ => Local V G s₀ x₀ t tab m (fun _ => m₂) ws) E := by
  refine (Triple.forM (E := E) (I := fun done rest σ => done ++ rest = tab.indexes ∧
    Local V G s₀ x₀ t tab m (fun i => if i ∈ done then m₂ else m₁) ws σ)
    (fun done index rest => Triple.of_and fun hsplit => ?_) tab.indexes []).mono (fun σ hl => ⟨rfl, ?_⟩)
    (fun _ σ hl => ?_) fun _ _ h => h
  · have hi : index ∈ tab.indexes := by simp [← hsplit]
    have hnew : index ∉ done := fun hmem =>
      (List.nodup_append.1 (hsplit ▸ hnodup)).2.2 index hmem index List.mem_cons_self rfl
    refine (hf index hi _ (by simp [hnew])).mono (fun _ h => h) (fun _ σ hl => ⟨by simpa using hsplit, ?_⟩)
      fun _ _ h => h
    refine hl.congr fun index' _ => ?_
    by_cases he : index' = index
    · simp [he]
    · simp [he]
  · exact hl.congr fun _ _ => by simp
  · exact hl.2.congr fun index hi => by simp [hi]

section loops
variable (hnames : (tab.indexes.map (IndexMeta.fileOf t)).Nodup)
include hnames

/-- The key of a record leaves every index. -/
theorem deleteEntries {m' : RowMap} (hb : m' rid = some b) :
    Triple (Store.handle ops lg ans) (Local V G s₀ x₀ t tab m (fun _ => m') ws)
      (tab.indexes.forM fun index => do
        let _ ← Exec.deleteEntry t index (makeKey index.cols b))
      (fun _ => Local V G s₀ x₀ t tab m (fun _ => Function.update m' rid none) ws) E := by
  refine forM_indexes (List.Nodup.of_map _ hnames) fun index hi P hP => ?_
  subst hP
  exact Triple.bind (deleteEntry_triple hnames hi hb) fun _ => Triple.ret fun _ hl => hl

/-- The key of a record enters every index. -/
theorem insertEntries {m' : RowMap} (hnone : m' rid = none)
    (hd : tab.DistinctIn (Function.update m' rid (some b))) :
    Triple (Store.handle ops lg ans) (Local V G s₀ x₀ t tab m (fun _ => m') ws)
      (tab.indexes.forM fun index => Exec.insertEntry t index (makeKey index.cols b) rid)
      (fun _ => Local V G s₀ x₀ t tab m (fun _ => Function.update m' rid (some b)) ws) E := by
  refine forM_indexes (List.Nodup.of_map _ hnames) fun index hi P hP => ?_
  subst hP
  exact insertEntry_triple hnames hi hnone (hd index hi)

end loops

/-! ## Rows -/

/-- A record of the table makes a write record fit. -/
theorem Local.fits_of_some {w : WriteRecord} (hl : Local V G s₀ x₀ t tab m P ws σ) (hb : m w.rid = some b)
    (himage : ∀ c ∈ w.image, c = b) : w.Fits V (σ.1.fhs t) := by
  have hview : V.view (σ.1.fhs t) w.rid = some b := by rw [hl.view, hb]
  exact ⟨V.room_of_some hl.sound hview, fun c hc => himage c hc ▸ V.sized hl.sound hview⟩

theorem Local.length_eq (hl : Local V G s₀ x₀ t tab m P ws σ) (hb : m rid = some b) :
    b.length = ops.size (s₀.fhs t) := by
  rw [← hl.size]
  exact V.sized hl.sound (by rw [hl.view]; exact hb)

section rows
variable (hnames : (tab.indexes.map (IndexMeta.fileOf t)).Nodup)
include hnames

theorem deleteRow_triple {ex : DeleteExecutor} (htab : ex.tab = tab) (hname : ex.tabName = t)
    (hslot : V.Slot (s₀.fhs t) rid) :
    Triple (Store.handle ops lg ans) (Local V G s₀ x₀ t tab m (fun _ => m) ws) (ex.deleteRow rid)
      (fun _ σ => ∃ b, m rid = some b ∧ Local V G s₀ x₀ t tab (Function.update m rid none)
        (fun _ => Function.update m rid none) (.deleteTuple t rid b :: ws) σ)
      (fun _ => Local V G s₀ x₀ t tab m (fun _ => m) ws) := by
  subst htab hname
  refine Triple.bind (getRecord_triple hslot) fun b => Triple.of_and fun hb => ?_
  refine Triple.bind (appendWriteRecord_triple (w := .deleteTuple ex.tabName rid b) fun σ
    (hl : Local V G s₀ x₀ ex.tabName ex.tab m (fun _ => m) ws σ) => ⟨hl, rfl, hl.fits_of_some hb fun c hc => ?_⟩) fun _ => ?_
  · simpa [WriteRecord.image, eq_comm] using hc
  refine Triple.bind (deleteEntries hnames hb) fun _ => ?_
  refine (deleteRecord_triple hb).mono (fun _ h => h) (fun _ σ hl => ⟨b, hb, hl⟩) fun _ _ h => h

theorem updateRow_triple {ex : UpdateExecutor} {f : Bytes → Bytes} (htab : ex.tab = tab) (hname : ex.tabName = t)
    (hsets : ∀ rec, UpdateExecutor.applySets ex.tab ex.setClauses rec = .ok (f rec))
    (hlen : ∀ rec, (f rec).length = rec.length) (hslot : V.Slot (s₀.fhs t) rid)
    (hd : ∀ b, m rid = some b → tab.DistinctIn (Function.update m rid (some (f b)))) :
    Triple (Store.handle ops lg ans) (Local V G s₀ x₀ t tab m (fun _ => m) ws) (ex.updateRow rid)
      (fun _ σ => ∃ b, m rid = some b ∧ Local V G s₀ x₀ t tab (Function.update m rid (some (f b)))
        (fun _ => Function.update m rid (some (f b))) (.updateTuple t rid b :: ws) σ)
      (fun _ => Local V G s₀ x₀ t tab m (fun _ => m) ws) := by
  subst htab hname
  refine Triple.bind (getRecord_triple hslot) fun b => Triple.of_and fun hb => ?_
  refine Triple.bind (appendWriteRecord_triple (w := .updateTuple ex.tabName rid b) fun σ
    (hl : Local V G s₀ x₀ ex.tabName ex.tab m (fun _ => m) ws σ) => ⟨hl, rfl, hl.fits_of_some hb fun c hc => ?_⟩) fun _ => ?_
  · simpa [WriteRecord.image, eq_comm] using hc
  refine Triple.bind (deleteEntries hnames hb) fun _ => ?_
  refine Triple.bind (check_triple (hsets b)) fun new => Triple.of_and fun hnew => ?_
  subst hnew
  refine Triple.of_imp (fun σ hl => (hlen b).trans (hl.length_eq hb)) fun hsize => ?_
  refine Triple.bind (updateRecord_triple hb hsize) fun _ => ?_
  have hnone : Function.update m rid none rid = none := Function.update_self ..
  refine (insertEntries hnames hnone (b := f b) (by simpa using hd b hb)).mono (fun _ h => h) (fun _ σ hl => ⟨b, hb, ?_⟩) fun _ _ h => h
  simpa using hl

end rows

end statement

end Rmdb
