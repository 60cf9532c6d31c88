import Rmdb.Transaction.Rollback

/-!
# The indexes of a running server

- `Store.Op`: what happens to a server: statements of any number of transactions, commits, aborts and CREATE INDEX, in any
  order;
- `buildIndex_spec`: CREATE INDEX either finds two records with one key or builds an index that mirrors the table;
- `Store.Inv`: every index mirrors its table, and the write set of each transaction can be undone under the exclusive
  locks that it holds. Each operation keeps it, an abort if no version of the tables that it passes through has two
  records with one key (`CanRollBack`);
- `indexesMirror_of_runOk`: so in every run whose aborts can roll back.
-/

namespace Rmdb

open Lib

namespace Store

inductive Op
  | begin
  | exec (tid : Int) (d : Dml)
  | commit (tid : Int)
  | abort (tid : Int)
  | createIndex (tabName : TabName) (colNames : List String)

variable {H : Type}

def step (ops : HeapOps H) (scan : H → List Rid) (ans : IxAnswers) (s : Store H) : Op → Store H
  | .begin => s.beginTxn
  | .exec tid d => (s.exec ops ans tid d).2
  | .commit tid => s.commit tid
  | .abort tid => (s.abort ops ans tid).2
  | .createIndex t cols => (s.createIndex ops scan t cols).2

def run (ops : HeapOps H) (scan : H → List Rid) (ans : IxAnswers) : List Op → Store H → Store H
  | [], s => s
  | op :: acts, s => run ops scan ans acts (s.step ops scan ans op)

/-- Every index has exactly the keys of the records of its table with their rids, and no two records share a key. -/
def IndexesMirror (V : HeapView H) (s : Store H) : Prop :=
  ∀ t tab, s.db t = some tab → ∀ index ∈ tab.indexes,
    s.HasIx t (V.view (s.fhs t)) index ∧ KeysDistinct (makeKey index.cols) (V.view (s.fhs t))

/-- In no version of the tables that the roll-back of the transaction passes through do two records share a key of an
index. -/
def CanRollBack (V : HeapView H) (s : Store H) (tid : Int) : Prop :=
  ∀ x, s.txns tid = some x → Passes (Distinct s.db) x.writeSet (s.rows V)

def RunOk (V : HeapView H) (ops : HeapOps H) (scan : H → List Rid) (ans : IxAnswers) : List Op → Store H → Prop
  | [], _ => True
  | op :: acts, s => (∀ tid, op = .abort tid → s.CanRollBack V tid) ∧ RunOk V ops scan ans acts (s.step ops scan ans op)

/-- The server has just opened its tables; every index mirrors its table. -/
structure Started (V : HeapView H) (s : Store H) : Prop where
  sound : ∀ t, V.Sound (s.fhs t)
  ix : ∀ t tab, s.db t = some tab → ∀ index ∈ tab.indexes, s.HasIx t (V.view (s.fhs t)) index
  names : ∀ t tab, s.db t = some tab → (tab.indexes.map (IndexMeta.fileOf t)).Nodup
  disjoint : ∀ t tab t' tab', s.db t = some tab → s.db t' = some tab' → ∀ index ∈ tab.indexes, ∀ index' ∈ tab'.indexes,
    index.fileOf t = index'.fileOf t' → t = t'
  isFile : ∀ t tab, s.db t = some tab → ∀ index ∈ tab.indexes, s.isFile (index.fileOf t) = true
  txns : ∀ tid, s.txns tid = none
  lockMgr : ∀ id, s.lockMgr.lockTable id = none

end Store

/-- The heap file is a map from rid to record, and `scan` delivers the rids of its records, each once. -/
structure HeapMap.IsMap {H : Type} {ops : HeapOps H} (V : HeapMap ops) (scan : H → List Rid) : Prop where
  good : ∀ h, V.Sound h → V.Good h
  slot : ∀ h rid, V.Slot h rid
  nodup : ∀ h, V.Sound h → (scan h).Nodup
  mem : ∀ h, V.Sound h → ∀ rid, rid ∈ scan h ↔ V.view h rid ≠ none

section
variable {H : Type} {ops : HeapOps H} {V : HeapMap ops} {scan : H → List Rid} {s s' : Store H} {x x' : Txn} {t : TabName}
  {tab : TabMeta} {ans : IxAnswers}

/-! ## CREATE INDEX -/

/-- The records at some rids. -/
def restrict (m : RowMap) (rids : List Rid) : RowMap := fun r => if r ∈ rids then m r else none

/-- The loop over the records, with `done` behind it. -/
theorem buildIndex_spec {h : H} (hs : V.Sound h) {cols : List ColMeta} {rids done : List Rid} {ix : IxMap}
    (hview : ∀ r ∈ rids, V.view h r ≠ none) (hnodup : rids.Nodup) (hdisj : ∀ r ∈ rids, r ∉ done)
    (hm : Mirrors (makeKey cols) (restrict (V.view h) done) ix) :
    Store.buildIndex ops h cols rids ix = .ok none ∨
      ∃ ix', Store.buildIndex ops h cols rids ix = .ok (some ix') ∧
        ∀ done', (∀ r, r ∈ done' ↔ r ∈ done ∨ r ∈ rids) → Mirrors (makeKey cols) (restrict (V.view h) done') ix' := by
  induction rids generalizing done ix with
  | nil =>
    refine .inr ⟨ix, rfl, fun done' hdone' => ?_⟩
    rw [show restrict (V.view h) done' = restrict (V.view h) done by
      funext r
      simp [restrict, hdone']]
    exact hm
  | cons rid rids ih =>
    obtain ⟨b, hb⟩ := Option.ne_none_iff_exists'.1 (hview rid List.mem_cons_self)
    obtain ⟨hrid, hnodup⟩ := List.nodup_cons.1 hnodup
    have hnew : rid ∉ done := hdisj rid List.mem_cons_self
    unfold Store.buildIndex
    rw [V.getRecord_some hs hb]
    simp only [bind, Except.bind]
    by_cases hk : (ix (makeKey cols b)).isSome
    · exact .inl (by simp [hk, pure, Except.pure])
    · rw [if_neg hk]
      have hnone : ix (makeKey cols b) = none := by simpa using hk
      have hout : restrict (V.view h) done rid = none := if_neg hnew
      have hstep := hm.insert hout hnone
      have heq : Function.update (restrict (V.view h) done) rid (some b) = restrict (V.view h) (rid :: done) := by
        funext r
        by_cases hr : r = rid
        · simp [hr, restrict, hb]
        · simp [hr, restrict]
      rw [heq] at hstep
      have hdisj' : ∀ r ∈ rids, r ∉ rid :: done := fun r hr hmem => by
        rcases List.mem_cons.1 hmem with rfl | hmem
        · exact hrid hr
        · exact hdisj r (List.mem_cons_of_mem _ hr) hmem
      rcases ih (fun r hr => hview r (List.mem_cons_of_mem _ hr)) hnodup hdisj' hstep with hdup | ⟨ix', hok, hall⟩
      · exact .inl hdup
      · refine .inr ⟨ix', hok, fun done' hdone' => hall done' fun r => ?_⟩
        simp only [hdone', List.mem_cons, or_assoc, or_left_comm]

/-- CREATE INDEX leaves the store as it was but for a file, or adds an index under a new name that mirrors its table. -/
inductive Indexed (V : HeapMap ops) (s : Store H) (t : TabName) : Store H → Prop
  | same (isFile : String → Bool) (hfile : ∀ name, s.isFile name = true → isFile name = true) :
      Indexed V s t { s with isFile := isFile }
  | added (tab : TabMeta) (index : IndexMeta) (ix : IxMap) (htab : s.db t = some tab)
      (hnew : s.isFile (index.fileOf t) = false) (hm : Mirrors (makeKey index.cols) (V.view (s.fhs t)) ix) :
      Indexed V s t { s with
        db := Function.update s.db t (some { tab with indexes := tab.indexes ++ [index] })
        ihs := Function.update s.ihs (index.fileOf t) (some ix)
        isFile := Function.update s.isFile (index.fileOf t) true }

theorem createIndex_spec (hmap : V.IsMap scan) (h : s.Ok V True) (t : TabName) (cols : List String) :
    Indexed V s t (s.createIndex ops scan t cols).2 := by
  have hsame : Indexed V s t s := .same s.isFile fun _ h => h
  unfold Store.createIndex
  cases htab : s.db t with
  | none => exact hsame
  | some tab =>
    simp only
    split
    · exact hsame
    · cases hcols : cols.mapM tab.getCol with
      | error e => exact hsame
      | ok cs =>
        simp only
        split
        · exact hsame
        · next hfile =>
          have hmono : ∀ name, s.isFile name = true →
              Function.update s.isFile (getIndexName t cs) true name = true := by
            intro name hname
            by_cases he : name = getIndexName t cs
            · simp [he]
            · simp [he, hname]
          split
          · exact .same _ hmono
          · have hsound := h.sound t tab htab
            have hempty : Mirrors (makeKey cs) (restrict (V.view (s.fhs t)) []) fun _ => none := by
              intro k r
              simp [restrict]
            rcases buildIndex_spec hsound (fun r hr => (hmap.mem _ hsound r).1 hr) (hmap.nodup _ hsound)
              (fun _ _ => List.not_mem_nil) hempty with hdup | ⟨ix, hok, hall⟩
            · rw [hdup]
              exact hsame
            · rw [hok]
              have hfull : restrict (V.view (s.fhs t)) (scan (s.fhs t)) = V.view (s.fhs t) := by
                funext r
                unfold restrict
                split
                · rfl
                · next hr =>
                  have := mt (hmap.mem _ hsound r).2 hr
                  exact (not_not.1 this).symm
              have hm := hall (scan (s.fhs t)) (by simp)
              rw [hfull] at hm
              exact .added tab ⟨t, colTotLen cs, cs.length, cs⟩ ix htab (Bool.eq_false_of_not_eq_true hfile) hm

/-! ## The invariant -/

/-- The write set of a transaction can be undone, under the exclusive locks that it holds. -/
structure TxnInv (V : HeapMap ops) (s : Store H) (tid : Int) (x : Txn) : Prop where
  txnId : x.owner.txnId = tid
  listed : ∀ i, s.lockMgr.heldMode tid i ≠ none → i ∈ x.owner.lockSet
  undoable : Undoable x.writeSet (s.rows V.toHeapView)
  fits : ∀ w ∈ x.writeSet, (s.db w.tabName).isSome ∧ w.Fits V (s.fhs w.tabName)
  locked : ∀ w ∈ x.writeSet, s.lockMgr.heldMode tid (.table (s.fd w.tabName)) = some .exlucsive

structure Store.Inv (V : HeapMap ops) (s : Store H) : Prop where
  ok : s.Ok V True
  isFile : ∀ t tab, s.db t = some tab → ∀ index ∈ tab.indexes, s.isFile (index.fileOf t) = true
  wf : s.lockMgr.Wf
  txn : ∀ tid x, s.txns tid = some x → TxnInv V s tid x
  fresh : ∀ tid, s.nextTxnId ≤ tid → s.txns tid = none ∧ ∀ i, s.lockMgr.heldMode tid i = none

theorem Store.Inv.indexesMirror (h : s.Inv V) : s.IndexesMirror V.toHeapView := fun t tab htab index hi =>
  ⟨h.ok.ix t tab htab index hi, h.ok.distinct t tab htab index hi⟩

theorem Store.Started.inv (hmap : V.IsMap scan) (h : s.Started V.toHeapView) : s.Inv V where
  ok := ⟨fun t _ _ => h.sound t, fun t _ _ _ => hmap.good _ (h.sound t), h.ix, h.names, h.disjoint⟩
  isFile := h.isFile
  wf id := by
    have : s.lockMgr.queue id = [] := by simp [LockManager.queue, h.lockMgr id]
    rw [this]
    exact .nil
  txn tid x hx := by
    rw [h.txns tid] at hx
    cases hx
  fresh tid _ := ⟨h.txns tid, fun i => by simp [LockManager.heldMode, LockManager.queue, h.lockMgr i, LockManager.heldRequest]⟩

/-- Two transactions do not hold the exclusive lock on one item. -/
theorem LockManager.Wf.exclusive_unique {lm : LockManager} (h : lm.Wf) {a b : Int} {id : LockDataId}
    (ha : lm.heldMode a id = some .exlucsive) (hb : lm.heldMode b id = some .exlucsive) : a = b := by
  by_contra hne
  obtain ⟨r, hr, hra⟩ := Option.map_eq_some_iff.1 ha
  obtain ⟨r', hr', hrb⟩ := Option.map_eq_some_iff.1 hb
  obtain ⟨hm, hid⟩ := heldRequest_eq_some hr
  obtain ⟨hm', hid'⟩ := heldRequest_eq_some hr'
  have hc := (h id).compatible hm hm' (by rw [hid, hid']; exact hne)
  rw [hra, hrb] at hc
  cases hc

/-- A transaction does not notice work on tables that it does not hold exclusively. -/
theorem TxnInv.of_other {other : Int} (h : TxnInv V s other x) (hdb : ∀ t, (s.db t).isSome → (s'.db t).isSome)
    (hfd : s'.fd = s.fd) (hheld : ∀ i, s'.lockMgr.heldMode other i = s.lockMgr.heldMode other i)
    (hfits : ∀ w : WriteRecord, w.Fits V (s.fhs w.tabName) → w.Fits V (s'.fhs w.tabName))
    (hrows : ∀ t, s.lockMgr.heldMode other (.table (s.fd t)) = some .exlucsive →
      s'.rows V.toHeapView t = s.rows V.toHeapView t) : TxnInv V s' other x where
  txnId := h.txnId
  listed i hi := h.listed i (by rwa [← hheld i])
  undoable := h.undoable.congr fun w hw => hrows _ (h.locked w hw)
  fits w hw := ⟨hdb _ (h.fits w hw).1, hfits w (h.fits w hw).2⟩
  locked w hw := by
    rw [hfd, hheld]
    exact h.locked w hw

/-! ## Each operation keeps it -/

theorem Store.Inv.beginTxn (h : s.Inv V) : s.beginTxn.Inv V where
  ok := h.ok.of_eq rfl rfl rfl
  isFile := h.isFile
  wf := h.wf
  txn tid x hx := by
    have hx : Function.update s.txns s.nextTxnId _ tid = some x := hx
    by_cases ht : tid = s.nextTxnId
    · subst ht
      rw [Function.update_self] at hx
      cases hx
      exact ⟨rfl, fun i hi => absurd ((h.fresh _ le_rfl).2 i) hi, trivial, fun _ hw => absurd hw List.not_mem_nil,
        fun _ hw => absurd hw List.not_mem_nil⟩
    · rw [Function.update_of_ne ht] at hx
      have ht := h.txn tid x hx
      exact ⟨ht.txnId, ht.listed, ht.undoable, ht.fits, ht.locked⟩
  fresh tid ht := by
    have ht : s.nextTxnId + 1 ≤ tid := ht
    refine ⟨?_, (h.fresh tid (by omega)).2⟩
    show Function.update s.txns s.nextTxnId _ tid = none
    rw [Function.update_of_ne (by omega)]
    exact (h.fresh tid (by omega)).1

theorem Store.Inv.exec (hmap : V.IsMap scan) (h : s.Inv V) (tid : Int) (d : Dml) : (s.exec ops ans tid d).2.Inv V := by
  unfold Store.exec
  cases hx : s.txns tid with
  | none => exact h
  | some x =>
    simp only
    split
    · exact h
    · cases hrun : d.prog.run (Store.handle ops true ans) (s, x) with
      | mk res σ =>
        obtain ⟨s₁, x₁⟩ := σ
        have hd : d.InSlots V.toHeapView s := by
          cases d with
          | insert t values => trivial
          | delete t rids => exact fun rid _ => hmap.slot _ rid
          | update t sets rids => exact fun rid _ => hmap.slot _ rid
        obtain ⟨ws, he⟩ := d.effect h.ok hd hrun
        have ht := h.txn tid x hx
        have hlt : tid < s.nextTxnId := by
          by_contra hge
          rw [(h.fresh tid (by omega)).1] at hx
          cases hx
        have hid := ht.txnId
        refine ⟨he.ok.of_eq rfl rfl rfl, fun t tab htab => ?_, he.grew.wf h.wf, fun other x' hx' => ?_, fun other hge => ?_⟩
        · show ∀ index ∈ tab.indexes, s₁.isFile _ = true
          rw [he.isFile]
          exact h.isFile t tab (he.db ▸ htab)
        · have hx' : Function.update s₁.txns tid (some x₁) other = some x' := hx'
          by_cases hother : other = tid
          · subst hother
            rw [Function.update_self] at hx'
            cases hx'
            refine ⟨he.grew.txnId.trans hid, ?_, ?_, fun w hw => ?_, fun w hw => ?_⟩
            · have := he.grew.listed
              rw [hid] at this
              exact this ht.listed
            · rw [he.writeSet]
              exact he.unwinds.undoable.append (he.unwinds.eq.symm ▸ ht.undoable)
            · rw [he.writeSet] at hw
              show (s₁.db _).isSome ∧ w.Fits V (s₁.fhs _)
              rw [he.db]
              rcases List.mem_append.1 hw with hw | hw
              · obtain ⟨htn, hsome, hf⟩ := he.fits w hw
                exact ⟨htn ▸ hsome, hf⟩
              · exact ⟨(ht.fits w hw).1, he.fits_mono w (ht.fits w hw).2⟩
            · rw [he.writeSet] at hw
              show s₁.lockMgr.heldMode other (.table (s₁.fd _)) = _
              rw [he.fd]
              rcases List.mem_append.1 hw with hw | hw
              · rcases he.locked with hlock | ⟨-, hnil⟩
                · rw [(he.fits w hw).1, ← hid]
                  exact hlock
                · rw [hnil] at hw
                  exact absurd hw List.not_mem_nil
              · have := he.grew.exclusive (.table (s.fd w.tabName))
                rw [hid] at this
                exact this (ht.locked w hw)
          · rw [Function.update_of_ne hother, he.txns] at hx'
            have hto := h.txn other x' hx'
            have hheld : ∀ i, s₁.lockMgr.heldMode other i = s.lockMgr.heldMode other i :=
              he.grew.others other (by rw [hid]; exact hother)
            refine hto.of_other (fun t => ?_) he.fd hheld (fun w => he.fits_mono w) fun t hxo => ?_
            · show (s.db t).isSome → (s₁.db t).isSome
              rw [he.db]
              exact id
            -- the table that has changed is not one that the other transaction holds exclusively
            · by_cases htn : t = d.tabName
              · rcases he.locked with hlock | ⟨hrows, -⟩
                · rw [← hheld, htn] at hxo
                  rw [hid] at hlock
                  exact absurd ((he.grew.wf h.wf).exclusive_unique hxo hlock) hother
                · exact congrFun hrows t
              · exact he.rows t htn
        · have hge : s₁.nextTxnId ≤ other := hge
          rw [he.nextTxnId] at hge
          have hne : other ≠ tid := by omega
          refine ⟨?_, fun i => ?_⟩
          · show Function.update s₁.txns tid (some x₁) other = none
            rw [Function.update_of_ne hne, he.txns]
            exact (h.fresh other hge).1
          · show s₁.lockMgr.heldMode other i = none
            rw [he.grew.others other (by rw [hid]; exact hne)]
            exact (h.fresh other hge).2 i

/-- The end of a transaction: its locks are gone, and its write set. -/
theorem Store.Inv.finish {tid : Int} {final : TransactionState} (hok : s'.Ok V True) (h : s.Inv V)
    (hx : s.txns tid = some x) (hrest : s.SameRest s') (howner : x'.owner = x.owner)
    (hfits : ∀ w : WriteRecord, w.Fits V (s.fhs w.tabName) → w.Fits V (s'.fhs w.tabName))
    (hrows : ∀ t, s'.rows V.toHeapView t = s.rows V.toHeapView t ∨
      s.lockMgr.heldMode tid (.table (s.fd t)) = some .exlucsive) : (s'.finish tid x' final).Inv V := by
  have ht := h.txn tid x hx
  have hid : x'.owner.txnId = tid := howner ▸ ht.txnId
  obtain ⟨x₁, lm, heq, hwf, hothers, hnone, hw, -, hid₁, -⟩ := finish_spec (s := s') (x := x') (by rw [hrest.lockMgr]; exact h.wf)
    (by rw [hrest.lockMgr, howner, ht.txnId]; exact ht.listed) tid final
  rw [hid] at hothers hnone
  rw [heq]
  refine ⟨hok.of_eq rfl rfl rfl, fun t tab htab => ?_, hwf, fun other xo hxo => ?_, fun other hge => ?_⟩
  · show ∀ index ∈ tab.indexes, s'.isFile _ = true
    rw [hrest.isFile]
    exact h.isFile t tab (hrest.db ▸ htab)
  · have hxo : Function.update s'.txns tid (some x₁) other = some xo := hxo
    by_cases hother : other = tid
    · subst hother
      rw [Function.update_self] at hxo
      cases hxo
      refine ⟨hid₁.trans hid, fun i hi => absurd (hnone i) hi, by rw [hw]; trivial, ?_, ?_⟩
      · rw [hw]
        exact fun _ hmem => absurd hmem List.not_mem_nil
      · rw [hw]
        exact fun _ hmem => absurd hmem List.not_mem_nil
    · rw [Function.update_of_ne hother, hrest.txns] at hxo
      have hheld : ∀ i, lm.heldMode other i = s.lockMgr.heldMode other i := fun i => by
        rw [hothers other hother, hrest.lockMgr]
      refine (h.txn other xo hxo).of_other (fun t => ?_) hrest.fd hheld hfits fun t hxt => ?_
      · show (s.db t).isSome → (s'.db t).isSome
        rw [hrest.db]
        exact id
      · rcases hrows t with heq | hlock
        · exact heq
        · exact absurd (h.wf.exclusive_unique hxt hlock) hother
  · have hge : s'.nextTxnId ≤ other := hge
    rw [hrest.nextTxnId] at hge
    have hfresh := h.fresh other hge
    have hne : other ≠ tid := by
      rintro rfl
      rw [hfresh.1] at hx
      cases hx
    refine ⟨?_, fun i => ?_⟩
    · show Function.update s'.txns tid (some x₁) other = none
      rw [Function.update_of_ne hne, hrest.txns]
      exact hfresh.1
    · show lm.heldMode other i = none
      rw [hothers other hne, hrest.lockMgr]
      exact hfresh.2 i

theorem undoAll_of_notMem {ws : List WriteRecord} {R : Rows} (h : ∀ w ∈ ws, w.tabName ≠ t) : undoAll ws R t = R t := by
  induction ws generalizing R with
  | nil => rfl
  | cons w ws ih =>
    refine (ih fun w' hw' => h w' (List.mem_cons_of_mem _ hw')).trans ?_
    exact Function.update_of_ne (h w List.mem_cons_self).symm _ _

theorem Store.Inv.commit (h : s.Inv V) (tid : Int) : (s.commit tid).Inv V := by
  unfold Store.commit
  cases hx : s.txns tid with
  | none => exact h
  | some x =>
    exact Store.Inv.finish (h.ok.of_eq rfl rfl rfl) h hx ⟨rfl, rfl, rfl, rfl, rfl, rfl⟩ rfl (fun _ hw => hw)
      fun _ => .inl rfl

theorem Store.Inv.abort (hmap : V.IsMap scan) (h : s.Inv V) {tid : Int} (hroll : s.CanRollBack V.toHeapView tid) :
    (s.abort ops ans tid).2.Inv V := by
  cases hx : s.txns tid with
  | none =>
    unfold Store.abort
    rw [hx]
    exact h
  | some x =>
    have ht := h.txn tid x hx
    obtain ⟨s₁, x₁, hlog, hs₁, hx₁⟩ : ∃ s₁ x₁, s.logEnd x .abort = (s₁, x₁) ∧
        (s.SameRest s₁ ∧ s₁.fhs = s.fhs ∧ s₁.ihs = s.ihs) ∧ x₁.owner = x.owner ∧ x₁.writeSet = x.writeSet :=
      ⟨_, _, rfl, ⟨⟨rfl, rfl, rfl, rfl, rfl, rfl⟩, rfl, rfl⟩, rfl, rfl⟩
    obtain ⟨hrest, hfhs, hihs⟩ := hs₁
    have hrows₁ : s₁.rows V.toHeapView = s.rows V.toHeapView := by
      unfold Store.rows
      rw [hfhs]
    have hu : Undoable x₁.writeSet (s₁.rows V.toHeapView) := by rw [hrows₁, hx₁.2]; exact ht.undoable
    have hp : Passes (Distinct s₁.db) x₁.writeSet (s₁.rows V.toHeapView) := by
      rw [hrows₁, hx₁.2, hrest.db]
      exact hroll x hx
    have hf : ∀ w ∈ x₁.writeSet, (s₁.db w.tabName).isSome ∧ w.Fits V (s₁.fhs w.tabName) := by
      rw [hx₁.2, hrest.db, hfhs]
      exact ht.fits
    obtain ⟨s₂, x₂, hrun, hrb⟩ := rollback_spec (x := x₁) ans (h.ok.of_eq hrest.db hfhs hihs)
      (fun _ => hmap.good) hu hp hf
    have heq : (s.abort ops ans tid).2 = s₂.finish tid x₂ .aborted := by
      simp only [Store.abort, hx, hlog, hrun]
    rw [heq]
    refine Store.Inv.finish hrb.ok h hx (hrest.trans hrb.toSameRest) (hrb.owner.trans hx₁.1) (fun w hw => ?_) fun t => ?_
    · exact hrb.fits_mono w (by rw [hfhs]; exact hw)
    · rw [hrb.rows, hrows₁, hx₁.2]
      by_cases hmem : ∃ w ∈ x.writeSet, w.tabName = t
      · obtain ⟨w, hw, rfl⟩ := hmem
        exact .inr (ht.locked w hw)
      · push Not at hmem
        exact .inl (undoAll_of_notMem hmem)

/-- The new index has a file of its own, so the other indexes stay. -/
theorem Store.Inv.indexed (h : s.Inv V) (hix : Indexed V s t s') : s'.Inv V := by
  cases hix with
  | same isFile hfile =>
    refine ⟨h.ok.of_eq rfl rfl rfl, fun t tab htab index hi => hfile _ (h.isFile t tab htab index hi), h.wf,
      fun tid x hx => ?_, h.fresh⟩
    have ht := h.txn tid x hx
    exact ⟨ht.txnId, ht.listed, ht.undoable, ht.fits, ht.locked⟩
  | added tab index ix htab hnew hm =>
    -- a table of the new catalogue is an old one, with the new index if it is `t`
    have hold : ∀ t' tab', Function.update s.db t (some { tab with indexes := tab.indexes ++ [index] }) t' = some tab' →
        ∃ tab₀, s.db t' = some tab₀ ∧ ∀ index' ∈ tab'.indexes, index' ∈ tab₀.indexes ∨ t' = t ∧ index' = index := by
      intro t' tab' htab'
      by_cases ht : t' = t
      · subst ht
        rw [Function.update_self] at htab'
        cases htab'
        exact ⟨tab, htab, fun i hi => (List.mem_append.1 hi).imp_right fun hi => ⟨rfl, List.mem_singleton.1 hi⟩⟩
      · rw [Function.update_of_ne ht] at htab'
        exact ⟨tab', htab', fun _ hi => .inl hi⟩
    have hne : ∀ t' tab', s.db t' = some tab' → ∀ index' ∈ tab'.indexes, index'.fileOf t' ≠ index.fileOf t := by
      intro t' tab' htab' index' hi he
      have := h.isFile t' tab' htab' index' hi
      rw [he, hnew] at this
      cases this
    refine ⟨⟨fun t' tab' htab' => ?_, fun t' tab' htab' => ?_, fun t' tab' htab' index' hi => ?_, fun t' tab' htab' => ?_,
      fun t₁ tab₁ t₂ tab₂ h₁ h₂ i₁ hi₁ i₂ hi₂ he => ?_⟩, fun t' tab' htab' index' hi => ?_, h.wf, fun tid x hx => ?_, h.fresh⟩
    · obtain ⟨tab₀, htab₀, -⟩ := hold t' tab' htab'
      exact h.ok.sound t' tab₀ htab₀
    · obtain ⟨tab₀, htab₀, -⟩ := hold t' tab' htab'
      exact h.ok.good t' tab₀ htab₀
    · obtain ⟨tab₀, htab₀, hmem⟩ := hold t' tab' htab'
      rcases hmem index' hi with hi₀ | ⟨rfl, rfl⟩
      · obtain ⟨ix', hix', hm'⟩ := h.ok.ix t' tab₀ htab₀ index' hi₀
        refine ⟨ix', ?_, hm'⟩
        show Function.update s.ihs (index.fileOf t) (some ix) (index'.fileOf t') = _
        rw [Function.update_of_ne (hne t' tab₀ htab₀ index' hi₀)]
        exact hix'
      · exact ⟨ix, Function.update_self .., hm⟩
    · by_cases ht : t' = t
      · subst ht
        have htab' : Function.update s.db t' (some { tab with indexes := tab.indexes ++ [index] }) t' = some tab' := htab'
        rw [Function.update_self] at htab'
        cases htab'
        rw [List.map_append, List.nodup_append]
        refine ⟨h.ok.names t' tab htab, List.nodup_singleton _, fun a ha b hb he => ?_⟩
        obtain ⟨index', hi', rfl⟩ := List.mem_map.1 ha
        exact hne t' tab htab index' hi' (he.trans (List.mem_singleton.1 hb))
      · have htab' : Function.update s.db t (some { tab with indexes := tab.indexes ++ [index] }) t' = some tab' := htab'
        rw [Function.update_of_ne ht] at htab'
        exact h.ok.names t' tab' htab'
    · obtain ⟨tab₁', htab₁, hmem₁⟩ := hold t₁ tab₁ h₁
      obtain ⟨tab₂', htab₂, hmem₂⟩ := hold t₂ tab₂ h₂
      rcases hmem₁ i₁ hi₁ with hi₁ | ⟨rfl, rfl⟩
      · rcases hmem₂ i₂ hi₂ with hi₂ | ⟨rfl, rfl⟩
        · exact h.ok.disjoint t₁ tab₁' t₂ tab₂' htab₁ htab₂ i₁ hi₁ i₂ hi₂ he
        · exact absurd he (hne t₁ tab₁' htab₁ i₁ hi₁)
      · rcases hmem₂ i₂ hi₂ with hi₂ | ⟨rfl, -⟩
        · exact absurd he.symm (hne t₂ tab₂' htab₂ i₂ hi₂)
        · rfl
    · show Function.update s.isFile (index.fileOf t) true (index'.fileOf t') = true
      obtain ⟨tab₀, htab₀, hmem⟩ := hold t' tab' htab'
      rcases hmem index' hi with hi₀ | ⟨rfl, rfl⟩
      · rw [Function.update_of_ne (hne t' tab₀ htab₀ index' hi₀)]
        exact h.isFile t' tab₀ htab₀ index' hi₀
      · exact Function.update_self ..
    · have ht := h.txn tid x hx
      refine ⟨ht.txnId, ht.listed, ht.undoable, fun w hw => ⟨?_, (ht.fits w hw).2⟩, ht.locked⟩
      show (Function.update s.db t _ w.tabName).isSome
      by_cases hwt : w.tabName = t
      · simp [hwt]
      · rw [Function.update_of_ne hwt]
        exact (ht.fits w hw).1

/-- One operation. -/
theorem Store.Inv.step (hmap : V.IsMap scan) (h : s.Inv V) (op : Op)
    (hok : ∀ tid, op = .abort tid → s.CanRollBack V.toHeapView tid) : (s.step ops scan ans op).Inv V := by
  cases op with
  | begin => exact h.beginTxn
  | exec tid d => exact h.exec hmap tid d
  | commit tid => exact h.commit tid
  | abort tid => exact h.abort hmap (hok tid rfl)
  | createIndex t cols => exact h.indexed (createIndex_spec hmap h.ok t cols)

theorem Store.Inv.run (hmap : V.IsMap scan) (acts : List Op) (h : s.Inv V)
    (hok : RunOk V.toHeapView ops scan ans acts s) : (Store.run ops scan ans acts s).Inv V := by
  induction acts generalizing s with
  | nil => exact h
  | cons op acts ih => exact ih (h.step hmap op hok.1) hok.2

end

/-- A table of records of 4 bytes on one endless page; a new record takes the next slot. -/
structure MapFile where
  recs : Rid → Option Bytes
  next : Nat

namespace MapFile

def put (h : MapFile) (rid : Rid) (v : Option Bytes) : MapFile := { h with recs := Function.update h.recs rid v }

def heapOps : HeapOps MapFile where
  fileHdr _ := RmFileHdr.create 4
  fetchPageHandle _ pageNo := .error (.pageNotExist "" pageNo)
  getRecord h rid :=
    match h.recs rid with
    | some b => .ok b
    | none => .error (.recordNotFound rid.pageNo rid.slotNo)
  insertRecord h buf ctx := .ok (⟨1, h.next⟩, { h.put ⟨1, h.next⟩ (some buf) with next := h.next + 1 }, ctx)
  insertRecordAt h rid buf := .ok (h.put rid (some buf))
  deleteRecord h rid ctx := .ok (h.put rid none, ctx)
  updateRecord h rid buf ctx := .ok (h.put rid (some buf), ctx)

/-- A slot that has been used. -/
def Used (h : MapFile) (rid : Rid) : Prop := rid.pageNo = 1 ∧ 0 ≤ rid.slotNo ∧ rid.slotNo < h.next

def Sound (h : MapFile) : Prop := ∀ rid b, h.recs rid = some b → h.Used rid ∧ b.length = 4

theorem Sound.put {h : MapFile} (hs : h.Sound) {rid : Rid} {v : Option Bytes} (hu : h.Used rid)
    (hv : ∀ b ∈ v, b.length = 4) : (h.put rid v).Sound := by
  intro ρ b hb
  have hb : Function.update h.recs rid v ρ = some b := hb
  by_cases hρ : ρ = rid
  · subst hρ
    rw [Function.update_self] at hb
    exact ⟨hu, hv b hb⟩
  · rw [Function.update_of_ne hρ] at hb
    exact hs ρ b hb

def heapMap : HeapMap heapOps where
  view := recs
  Sound := Sound
  Good := Sound
  Slot _ _ := True
  Room := Used
  sound_of_good h := h
  sized h hb := (h _ _ hb).2
  room_of_some h hb := (h _ _ hb).1
  getRecord_some _ hb := by simp [heapOps, hb]
  getRecord_none {h rid} _ _ hb := ⟨.recordNotFound rid.pageNo rid.slotNo, by simp [heapOps, hb]⟩
  insertRecord {h buf} hs hlen ctx := by
    have hfree : h.recs ⟨1, h.next⟩ = none := by
      by_contra hne
      obtain ⟨b, hb⟩ := Option.ne_none_iff_exists'.1 hne
      exact absurd (hs _ b hb).1.2.2 (lt_irrefl _)
    let h' : MapFile := { h with next := h.next + 1 }
    have hs' : h'.Sound := fun ρ b hb => by
      obtain ⟨⟨h1, h0, hlt⟩, hb⟩ := hs ρ b hb
      exact ⟨⟨h1, h0, by show ρ.slotNo < ((h.next + 1 : Nat) : Int); omega⟩, hb⟩
    have hused : h'.Used ⟨1, h.next⟩ := ⟨rfl, Int.natCast_nonneg _, by show (h.next : Int) < ((h.next + 1 : Nat) : Int); omega⟩
    have hsound := hs'.put (v := some buf) hused (by rintro b ⟨⟩; exact hlen)
    exact ⟨_, _, _, rfl, hfree, hsound, ⟨hsound, rfl, rfl, fun _ h => h,
      fun ρ hρ => ⟨hρ.1, hρ.2.1, by have := hρ.2.2; show ρ.slotNo < ((h.next + 1 : Nat) : Int); omega⟩⟩⟩
  deleteRecord {h rid b} hs hb ctx := by
    have hsound := hs.put (v := none) (hs rid b hb).1 (by simp)
    exact ⟨_, _, rfl, fun _ => hsound, ⟨hsound, rfl, rfl, fun _ h => h, fun _ h => h⟩⟩
  updateRecord {h rid b buf} hs hb hlen ctx := by
    have hsound := hs.put (v := some buf) (hs rid b hb).1 (by rintro b ⟨⟩; exact hlen)
    exact ⟨_, _, rfl, fun _ => hsound, ⟨hsound, rfl, rfl, fun _ h => h, fun _ h => h⟩⟩
  insertRecordAt {h rid buf} hs hroom _ hlen := by
    have hsound := hs.put (v := some buf) hroom (by rintro b ⟨⟩; exact hlen)
    exact ⟨_, rfl, ⟨hsound, rfl, rfl, fun _ h => h, fun _ h => h⟩⟩

def scan (h : MapFile) : List Rid :=
  ((List.range h.next).map fun i : Nat => (⟨1, i⟩ : Rid)).filter fun rid => (h.recs rid).isSome

theorem isMap : heapMap.IsMap scan where
  good _ h := h
  slot _ _ := trivial
  nodup h _ := by
    refine List.Nodup.filter _ (List.nodup_range.map fun i j hij => ?_)
    have : (i : Int) = j := congrArg Rid.slotNo hij
    exact_mod_cast this
  mem h hs rid := by
    unfold scan
    simp only [List.mem_filter, List.mem_map, List.mem_range, Option.isSome_iff_ne_none]
    refine ⟨fun hr => hr.2, fun hne => ⟨?_, hne⟩⟩
    obtain ⟨b, hb⟩ := Option.ne_none_iff_exists'.1 hne
    obtain ⟨h1, h0, hlt⟩ := (hs rid b hb).1
    refine ⟨rid.slotNo.toNat, by omega, ?_⟩
    cases rid
    simp_all

end MapFile

/-- A table `t` with a column `a`, still without index. -/
def unindexedStore : Store MapFile where
  logMgr := .start []
  fhs _ := ⟨fun _ => none, 0⟩
  fd _ := 3
  db t := if t = "t" then some { indexedTable with indexes := [] } else none
  ihs _ := none
  isFile _ := false
  lockMgr := ⟨fun _ => none⟩
  txns _ := none
  nextTxnId := 0

theorem unindexedStore_started : unindexedStore.Started MapFile.heapMap.toHeapView := by
  have hnone : ∀ t tab, unindexedStore.db t = some tab → tab.indexes = [] := by
    intro t tab h
    have h : (if t = "t" then some { indexedTable with indexes := [] } else none) = some tab := h
    split at h
    · cases h
      rfl
    · cases h
  refine ⟨fun _ _ _ h => (Option.some_ne_none _ h.symm).elim, fun t tab h => ?_, fun t tab h => ?_, fun t tab _ _ h _ => ?_, fun t tab h => ?_,
    fun _ => rfl, fun _ => rfl⟩
  all_goals
    rw [hnone t tab h]
    simp

def insertA (n : Int) : Dml := .insert "t" [⟨.int n, none⟩]

/-- A transaction inserts two rows with one key and commits; the next one deletes one of them, an index is created, and
it aborts. -/
def lateIndex : List Store.Op :=
  [.begin, .exec 0 (insertA 5), .exec 0 (insertA 5), .commit 0, .begin, .exec 1 (.delete "t" [⟨1, 1⟩]),
    .createIndex "t" ["a"], .abort 1]

/-- An index is created between the statements of a transaction, one of which violates it. -/
def earlyIndex : List Store.Op :=
  [.begin, .exec 0 (insertA 5), .createIndex "t" ["a"], .exec 0 (.update "t" [⟨⟨"t", "a"⟩, ⟨.int 7, none⟩⟩] [⟨1, 0⟩]),
    .exec 0 (insertA 7), .commit 0, .begin, .abort 1]

theorem earlyIndex_runOk : Store.RunOk MapFile.heapMap.toHeapView MapFile.heapOps MapFile.scan (fun _ => .error .halt)
    earlyIndex unindexedStore := by
  simp only [earlyIndex, Store.RunOk, reduceCtorEq, false_implies, implies_true, true_and, and_true, Store.Op.abort.injEq]
  rintro tid rfl x hx
  have hw : x.writeSet = [] := by
    have hset : (((Store.run MapFile.heapOps MapFile.scan (fun _ => .error .halt) (earlyIndex.take 7)
        unindexedStore).txns 1).map (·.writeSet)) = some [] := by decide +kernel
    have hx' : ((Store.run MapFile.heapOps MapFile.scan (fun _ => .error .halt) (earlyIndex.take 7)
        unindexedStore).txns 1) = some x := hx
    rw [hx'] at hset
    exact Option.some.inj hset
  rw [hw]
  trivial

end Rmdb
