import Rmdb.Execution.Mirror

/-!
# What a statement does

- `Settled`: between two rows of a statement every index mirrors the heap file, and undoing the new writes leads back to
  the start;
- `next` of each executor keeps it, row by row, and leaves it also when it raises an error;
- `Ran`: what a whole statement has done, its lock calls included (`Dml.ran`).
-/

namespace Rmdb

open Lib Lib.Prog

section executors
variable {H : Type} {ops : HeapOps H} (V : HeapMap ops) (s₀ : Store H) (x₀ : Txn) (t : TabName) (tab : TabMeta)

/-- The table between two rows of a statement that has started in `s₀`. -/
def Settled (m : RowMap) (σ : Store H × Txn) : Prop :=
  ∃ ws, Local V True s₀ x₀ t tab m (fun _ => m) ws σ ∧
    Unwinds s₀.db ws (Function.update (s₀.rows V.toHeapView) t m) (s₀.rows V.toHeapView)

variable {V s₀ x₀ t tab} {m m' : RowMap} {ws : List WriteRecord} {w : WriteRecord} {σ : Store H × Txn} {ans : IxAnswers}
  {lg : Bool} {G : Prop}

/-- Indexes that mirror the table have distinct keys. -/
theorem Local.distinctIn (hl : Local V G s₀ x₀ t tab m (fun _ => m) ws σ) : tab.DistinctIn m := by
  intro index hi
  obtain ⟨ix, -, hm⟩ := hl.ix index hi
  exact hm.keysDistinct

theorem distinct_update {db : TabName → Option TabMeta} {R : Rows} (hd : Distinct db R) (hdb : db t = some tab)
    (hm : tab.DistinctIn m) : Distinct db (Function.update R t m) := by
  intro t' tab' htab'
  by_cases ht : t' = t
  · subst ht
    rw [hdb] at htab'
    cases htab'
    simpa using hm
  · simpa [Function.update_of_ne ht] using hd t' tab' htab'

/-- A write to one slot is undone by what its record keeps. -/
theorem undo_update {R : Rows} {v : Option Bytes} (ht : w.tabName = t) (himage : w.image = m w.rid) :
    w.undo (Function.update R t (Function.update m w.rid v)) = Function.update R t m := by
  subst ht
  simp [WriteRecord.undo, himage]

/-- One more row: its write record undoes it. -/
theorem Settled.write {v : Option Bytes} (hdb : s₀.db t = some tab) (hd : Distinct s₀.db (s₀.rows V.toHeapView))
    (hm : tab.DistinctIn m) (hu : Unwinds s₀.db ws (Function.update (s₀.rows V.toHeapView) t m) (s₀.rows V.toHeapView))
    (ht : w.tabName = t) (himage : w.image = m w.rid)
    (ha : w.Applicable (Function.update (s₀.rows V.toHeapView) t (Function.update m w.rid v)))
    (hl : Local V True s₀ x₀ t tab (Function.update m w.rid v) (fun _ => Function.update m w.rid v) (w :: ws) σ) :
    Settled V s₀ x₀ t tab (Function.update m w.rid v) σ :=
  ⟨w :: ws, hl, Unwinds.cons ha (undo_update ht himage) (distinct_update hd hdb hm) hu⟩

section rows
variable (hdb : s₀.db t = some tab) (hd : Distinct s₀.db (s₀.rows V.toHeapView))
  (hnames : (tab.indexes.map (IndexMeta.fileOf t)).Nodup)
include hdb hd hnames

/-! ## DELETE -/

theorem DeleteExecutor.deleteRow_settled {ex : DeleteExecutor} (htab : ex.tab = tab) (hname : ex.tabName = t) {rid : Rid}
    (hslot : V.Slot (s₀.fhs t) rid) :
    Triple (Store.handle ops lg ans) (Settled V s₀ x₀ t tab m) (ex.deleteRow rid)
      (fun _ σ => ∃ m, Settled V s₀ x₀ t tab m σ) (fun _ σ => ∃ m, Settled V s₀ x₀ t tab m σ) := by
  refine Triple.of_exists fun ws => ?_
  intro σ hσ
  obtain ⟨hl, hu⟩ := hσ
  refine ((deleteRow_triple hnames htab hname hslot).mono (fun _ h => h) (fun _ σ hl' => ?_) fun _ σ hl' => ?_) σ hl
  · obtain ⟨b, hb, hl'⟩ := hl'
    exact ⟨_, Settled.write (w := .deleteTuple t rid b) hdb hd hl.distinctIn hu rfl hb.symm (by
      simp [WriteRecord.Applicable, WriteRecord.rid]) hl'⟩
  · exact ⟨m, ws, hl', hu⟩

theorem DeleteExecutor.rows_settled {ex : DeleteExecutor} (htab : ex.tab = tab) (hname : ex.tabName = t)
    (hslot : ∀ rid ∈ ex.rids, V.Slot (s₀.fhs t) rid) :
    Triple (Store.handle ops lg ans) (fun σ => ∃ m, Settled V s₀ x₀ t tab m σ) (ex.rids.forM ex.deleteRow)
      (fun _ σ => ∃ m, Settled V s₀ x₀ t tab m σ) (fun _ σ => ∃ m, Settled V s₀ x₀ t tab m σ) := by
  refine (Triple.forM_facts (φ := fun _ => True) (P := fun σ => ∃ m, Settled V s₀ x₀ t tab m σ) fun rid hr =>
    Triple.of_exists fun m => ?_).mono (fun _ h => h) (fun _ _ h => h.2) fun _ _ h => h
  exact (deleteRow_settled hdb hd hnames htab hname (hslot rid hr)).mono (fun _ h => h) (fun _ _ h => ⟨trivial, h⟩)
    fun _ _ h => h

/-! ## UPDATE -/

/-- The loop that updates the rows, after the check of every index. -/
theorem UpdateExecutor.rows_settled (ex : UpdateExecutor) {ov : Nat → Option UInt8} (htab : ex.tab = tab)
    (hname : ex.tabName = t) (hslot : ∀ rid ∈ ex.rids, V.Slot (s₀.fhs t) rid)
    (hsets : ∀ rec, applySets ex.tab ex.setClauses rec = .ok (overwrite ov rec))
    (hok : ∀ index ∈ tab.indexes, RidsOk (makeKey index.cols) (overwrite ov) m ex.rids [] ex.rids)
    (hsize : ∀ r b, m r = some b → b.length = ops.size (s₀.fhs t)) :
    Triple (Store.handle ops lg ans) (Settled V s₀ x₀ t tab m) (ex.rids.forM ex.updateRow)
      (fun _ σ => ∃ m, Settled V s₀ x₀ t tab m σ) (fun _ σ => ∃ m, Settled V s₀ x₀ t tab m σ) := by
  refine (Triple.forM (E := fun _ σ => ∃ m, Settled V s₀ x₀ t tab m σ)
    (I := fun done rest σ => done ++ rest = ex.rids ∧ Settled V s₀ x₀ t tab (updated (overwrite ov) m done) σ)
    (fun done rid rest => Triple.of_and fun hsplit => Triple.of_exists fun ws => ?_) ex.rids []).mono
    (fun _ h => ⟨rfl, h⟩) (fun _ σ h => ⟨_, h.2⟩) fun _ _ h => h
  intro σ hσ
  obtain ⟨hl, hu⟩ := hσ
  have hr : rid ∈ ex.rids := by simp [← hsplit]
  have hstep : ∀ b, updated (overwrite ov) m done rid = some b →
      tab.DistinctIn (Function.update (updated (overwrite ov) m done) rid (some (overwrite ov b))) :=
    fun b hb index hi => (hok index hi).keysDistinct_step hsplit.symm hsize (hl.distinctIn index hi) hb
  refine ((updateRow_triple hnames htab hname hsets (length_overwrite ov) (hslot rid hr) hstep).mono (fun _ h => h)
    (fun _ σ hl' => ?_) fun _ σ hl' => ?_) σ hl
  · obtain ⟨b, hb, hl'⟩ := hl'
    refine ⟨by simpa using hsplit, ?_⟩
    rw [updated_append, hb]
    exact Settled.write (w := .updateTuple t rid b) hdb hd hl.distinctIn hu rfl hb.symm (by
      simp [WriteRecord.Applicable, WriteRecord.rid]) hl'
  · exact ⟨_, ws, hl', hu⟩

omit hdb hd hnames in
theorem getValue_triple {P : IndexMeta → RowMap} {index : IndexMeta} (hi : index ∈ tab.indexes) (key : Bytes)
    {E : Exn → Store H × Txn → Prop} :
    Triple (Store.handle ops lg ans) (Local V G s₀ x₀ t tab m P ws) (Exec.getValue t index key)
      (fun found σ => (∀ r, found = some r ↔ ∃ b, P index r = some b ∧ makeKey index.cols b = key) ∧
        Local V G s₀ x₀ t tab m P ws σ) E := by
  apply Triple.perform_ok
  rintro ⟨s, x⟩ hl
  obtain ⟨ix, hix, hm⟩ := hl.ix index hi
  have hcall : Store.handle ops lg ans (.index t index (.getValue key)) (s, x) =
      (.ok (ix key), { s with ihs := Function.update s.ihs (index.fileOf t) (some ix) }, x) := by
    have hix : s.ihs (getIndexName t index.cols) = some ix := hix
    simp only [Store.handle, hix, IxCall.perform]
    rfl
  rw [← hix, Function.update_eq_self] at hcall
  exact ⟨ix key, (s, x), hcall, hm key, hl⟩

omit hdb hd hnames in
/-- The check of one index. -/
theorem UpdateExecutor.checkIndex_triple (ex : UpdateExecutor) {index : IndexMeta} {f : Bytes → Bytes}
    (hname : ex.tabName = t) (hi : index ∈ tab.indexes)
    (hsets : ∀ rec, applySets ex.tab ex.setClauses rec = .ok (f rec)) {rids : List Rid}
    (hslot : ∀ rid ∈ rids, V.Slot (s₀.fhs t) rid) (seen : List Bytes) :
    Triple (Store.handle ops lg ans) (Local V G s₀ x₀ t tab m (fun _ => m) ws) (ex.checkIndex index seen rids)
      (fun _ σ => RidsOk (makeKey index.cols) f m ex.rids seen rids ∧ Local V G s₀ x₀ t tab m (fun _ => m) ws σ)
      (fun _ => Local V G s₀ x₀ t tab m (fun _ => m) ws) := by
  subst hname
  induction rids generalizing seen with
  | nil => exact Triple.ret fun _ hl => ⟨trivial, hl⟩
  | cons rid rids ih =>
    unfold checkIndex
    refine Triple.bind (getRecord_triple (hslot rid List.mem_cons_self)) fun b => Triple.of_and fun hb => ?_
    refine Triple.bind (check_triple (hsets b)) fun new => Triple.of_and fun hnew => ?_
    subst hnew
    simp only
    split
    · exact Triple.throw fun _ hl => hl
    · next hseen =>
      refine Triple.bind (getValue_triple hi (makeKey index.cols (f b))) fun found => Triple.of_and fun hfound => ?_
      have hrest : (∀ r c, m r = some c → makeKey index.cols c = makeKey index.cols (f b) → r ∈ ex.rids) →
          Triple (Store.handle ops lg ans) (Local V G s₀ x₀ ex.tabName tab m (fun _ => m) ws)
            (ex.checkIndex index (makeKey index.cols (f b) :: seen) rids)
            (fun _ σ => RidsOk (makeKey index.cols) f m ex.rids seen (rid :: rids) ∧
              Local V G s₀ x₀ ex.tabName tab m (fun _ => m) ws σ)
            (fun _ => Local V G s₀ x₀ ex.tabName tab m (fun _ => m) ws) := fun hall =>
        (ih _ fun r hr => hslot r (List.mem_cons_of_mem _ hr)).mono (fun _ h => h)
          (fun _ σ h => ⟨⟨b, hb, hseen, hall, h.1⟩, h.2⟩) fun _ _ h => h
      cases found with
      | none =>
        refine hrest fun r c hc hk => ?_
        exact absurd ((hfound r).2 ⟨c, hc, hk⟩) (by simp)
      | some r =>
        simp only
        split
        · exact Triple.throw fun _ hl => hl
        · next hr =>
          refine hrest fun r' c hc hk => ?_
          rw [Option.some.inj ((hfound r').2 ⟨c, hc, hk⟩)] at hr
          exact not_not.1 hr

end rows

end executors

/-! ## Statements -/

/-- Every table has a sound heap file, which each of its indexes mirrors, and no two indexes share a file. `G` is what
must hold for the heap files to be good. -/
structure Store.Ok {H : Type} {ops : HeapOps H} (V : HeapMap ops) (G : Prop) (s : Store H) : Prop where
  sound : ∀ t tab, s.db t = some tab → V.Sound (s.fhs t)
  good : ∀ t tab, s.db t = some tab → G → V.Good (s.fhs t)
  ix : ∀ t tab, s.db t = some tab → ∀ index ∈ tab.indexes, s.HasIx t (V.view (s.fhs t)) index
  names : ∀ t tab, s.db t = some tab → (tab.indexes.map (IndexMeta.fileOf t)).Nodup
  disjoint : ∀ t tab t' tab', s.db t = some tab → s.db t' = some tab' → ∀ index ∈ tab.indexes, ∀ index' ∈ tab'.indexes,
    index.fileOf t = index'.fileOf t' → t = t'

section statements
variable {H : Type} {ops : HeapOps H} (V : HeapMap ops) (s : Store H) (x : Txn) (t : TabName)

/-- Some lock calls have been made. -/
def Locked (σ : Store H × Txn) : Prop := ∃ lm owner, σ = ({ s with lockMgr := lm }, { x with owner := owner }) ∧
  LockManager.Grew s.lockMgr x.owner lm owner

/-- The exclusive lock on the table is held. -/
def HoldsX (σ : Store H × Txn) : Prop := σ.1.lockMgr.heldMode x.owner.txnId (.table (s.fd t)) = some .exlucsive

/-- What a statement on the table `t` has done: some lock calls, and under the exclusive lock some rows. -/
def Ran (σ : Store H × Txn) : Prop := ∃ s₁ x₁, Locked s x (s₁, x₁) ∧
  (σ = (s₁, x₁) ∨ HoldsX s x t (s₁, x₁) ∧ ∃ tab m, s.db t = some tab ∧ Settled V s₁ x₁ t tab m σ)

variable {V s x t} {σ : Store H × Txn} {ans : IxAnswers} {tab : TabMeta} {G : Prop}

theorem Store.Ok.distinct (h : s.Ok V G) : Distinct s.db (s.rows V.toHeapView) := by
  intro t tab htab index hi
  obtain ⟨ix, -, hm⟩ := h.ix t tab htab index hi
  exact hm.keysDistinct

/-- The state in which the rows of a statement begin. -/
theorem Store.Ok.local (h : s.Ok V G) (htab : s.db t = some tab) :
    Local V G s x t tab (V.view (s.fhs t)) (fun _ => V.view (s.fhs t)) [] (s, x) where
  toSameRest := .refl s
  owner := rfl
  writeSet := rfl
  fhs _ _ := rfl
  ihs _ _ := rfl
  sound := h.sound t tab htab
  good := h.good t tab htab
  view := rfl
  size := rfl
  slot _ hρ := hρ
  room _ hρ := hρ
  fits _ hw := absurd hw List.not_mem_nil
  ix := h.ix t tab htab

theorem Store.Ok.settled (h : s.Ok V True) (htab : s.db t = some tab) :
    Settled V s x t tab (V.view (s.fhs t)) (s, x) := by
  refine ⟨[], h.local htab, ?_⟩
  rw [show Function.update (s.rows V.toHeapView) t (V.view (s.fhs t)) = s.rows V.toHeapView from
    Function.update_eq_self t _]
  exact Unwinds.nil _ _

theorem Locked.ok {s₁ : Store H} {x₁ : Txn} (h : s.Ok V G) (hl : Locked s x (s₁, x₁)) : s₁.Ok V G := by
  obtain ⟨lm, owner, heq, -⟩ := hl
  cases heq
  exact ⟨h.sound, h.good, h.ix, h.names, h.disjoint⟩

theorem Locked.db {s₁ : Store H} {x₁ : Txn} (hl : Locked s x (s₁, x₁)) : s₁.db = s.db ∧ s₁.fhs = s.fhs := by
  obtain ⟨lm, owner, heq, -⟩ := hl
  cases heq
  exact ⟨rfl, rfl⟩

theorem Locked.ran (hl : Locked s x σ) : Ran V s x t σ := ⟨σ.1, σ.2, hl, .inl rfl⟩

theorem lockTable_locked (t : TabName) (mode : LockMode) (hl : Locked s x σ) :
    match σ.1.lockTable σ.2 t mode with
    | (.ok _, σ') => Locked s x σ' ∧ (mode = .exlucsive → HoldsX s x t σ')
    | (.error _, σ') => Locked s x σ' := by
  obtain ⟨lm, owner, rfl, hg⟩ := hl
  have hacq := LockManager.acquireLock_spec lm owner (.table (s.fd t)) mode
  have hg' := hg.trans hacq.grew
  unfold Store.lockTable
  cases hres : (lm.acquireLock owner (.table (s.fd t)) mode).1 with
  | error e =>
    simp only [hres]
    exact ⟨_, _, rfl, hg'⟩
  | ok b =>
    simp only [hres]
    refine ⟨⟨_, _, rfl, hg'⟩, fun hm => ?_⟩
    subst hm
    have hb : b = true := by
      rcases hacq.total with h | ⟨e, h⟩
      · rw [hres] at h
        exact Except.ok.inj h
      · rw [hres] at h
        cases h
    have hx := hacq.exclusive (by rw [hres, hb])
    rw [hg.txnId] at hx
    exact hx

section triples
variable {E : Exn → Store H × Txn → Prop} (hE : ∀ e σ, Locked s x σ → E e σ)
include hE

theorem lockShared_triple : Triple (Store.handle ops true ans) (Locked s x) (Exec.lockSharedOnTable t)
    (fun _ => Locked s x) E := by
  apply Triple.perform
  intro σ hl
  have h := lockTable_locked t .shared hl
  cases hres : σ.1.lockTable σ.2 t .shared with
  | mk r σ' =>
    rw [hres] at h
    have hcall : Store.handle ops true ans (.lockSharedOnTable t) σ = (r, σ') := hres
    rw [hcall]
    cases r with
    | ok a => exact h.1
    | error e => exact hE e σ' h

theorem lockExclusive_triple : Triple (Store.handle ops true ans) (Locked s x) (Exec.lockExclusiveOnTable t)
    (fun _ σ => Locked s x σ ∧ HoldsX s x t σ) E := by
  apply Triple.perform
  intro σ hl
  have h := lockTable_locked t .exlucsive hl
  cases hres : σ.1.lockTable σ.2 t .exlucsive with
  | mk r σ' =>
    rw [hres] at h
    have hcall : Store.handle ops true ans (.lockExclusiveOnTable t) σ = (r, σ') := hres
    rw [hcall]
    cases r with
    | ok a => exact ⟨h.1, h.2 rfl⟩
    | error e => exact hE e σ' h

theorem getTable_locked : Triple (Store.handle ops true ans) (Locked s x) (Exec.getTable t)
    (fun tab σ => s.db t = some tab ∧ Locked s x σ) E := by
  apply Triple.perform
  rintro ⟨s₁, x₁⟩ hl
  cases hdb : s.db t with
  | none =>
    have hcall : Store.handle ops true ans (.getTable t) (s₁, x₁) = (.error (.rmdb (.tableNotFound t)), s₁, x₁) := by
      simp only [Store.handle, hl.db.1, hdb]
    rw [hcall]
    exact hE _ _ hl
  | some tab =>
    have hcall : Store.handle ops true ans (.getTable t) (s₁, x₁) = (.ok tab, s₁, x₁) := by
      simp only [Store.handle, hl.db.1, hdb]
    rw [hcall]
    exact ⟨rfl, hl⟩

end triples

/-- What follows the exclusive lock, as rows of a statement. -/
theorem ran_of_rows {body : Exec Unit} (h : s.Ok V True) (htab : s.db t = some tab)
    (hbody : ∀ s₁ x₁, s₁.Ok V True → s₁.db t = some tab → s₁.fhs = s.fhs →
      Triple (Store.handle ops true ans) (Settled V s₁ x₁ t tab (V.view (s₁.fhs t))) body
        (fun _ σ => ∃ m, Settled V s₁ x₁ t tab m σ) (fun _ σ => ∃ m, Settled V s₁ x₁ t tab m σ)) :
    Triple (Store.handle ops true ans) (fun σ => Locked s x σ ∧ HoldsX s x t σ) body (fun _ => Ran V s x t)
      (fun _ => Ran V s x t) := by
  apply Triple.of_eq
  rintro ⟨s₁, x₁⟩ ⟨hl, hx⟩
  have hran : ∀ σ, (∃ m, Settled V s₁ x₁ t tab m σ) → Ran V s x t σ := fun σ ⟨m, hm⟩ =>
    ⟨s₁, x₁, hl, .inr ⟨hx, tab, m, htab, hm⟩⟩
  have hok := Locked.ok h hl
  have htab₁ : s₁.db t = some tab := by rw [hl.db.1, htab]
  refine (hbody s₁ x₁ hok htab₁ hl.db.2).mono (fun σ hσ => ?_) (fun _ => hran) fun _ => hran
  exact hσ ▸ hok.settled htab₁

theorem DeleteExecutor.next_ran {ex : DeleteExecutor} (h : s.Ok V True) (htab : s.db ex.tabName = some ex.tab)
    (hslot : ∀ rid ∈ ex.rids, V.Slot (s.fhs ex.tabName) rid) :
    Triple (Store.handle ops true ans) (Locked s x) ex.next (fun _ => Ran V s x ex.tabName)
      (fun _ => Ran V s x ex.tabName) := by
  refine Triple.bind (lockExclusive_triple fun _ _ hl => hl.ran) fun _ => ran_of_rows h htab fun s₁ x₁ h₁ htab₁ hfhs => ?_
  refine (rows_settled htab₁ h₁.distinct (h₁.names _ _ htab₁) rfl rfl fun rid hr => ?_).mono (fun _ hσ => ⟨_, hσ⟩)
    (fun _ _ hσ => hσ) fun _ _ hσ => hσ
  rw [hfhs]
  exact hslot rid hr

theorem UpdateExecutor.next_ran {ex : UpdateExecutor} (h : s.Ok V True) (htab : s.db ex.tabName = some ex.tab)
    (hslot : ∀ rid ∈ ex.rids, V.Slot (s.fhs ex.tabName) rid) :
    Triple (Store.handle ops true ans) (Locked s x) ex.next (fun _ => Ran V s x ex.tabName)
      (fun _ => Ran V s x ex.tabName) := by
  refine Triple.bind (lockExclusive_triple fun _ _ hl => hl.ran) fun _ => ran_of_rows h htab fun s₁ x₁ h₁ htab₁ hfhs => ?_
  have hslot₁ : ∀ rid ∈ ex.rids, V.Slot (s₁.fhs ex.tabName) rid := by
    rw [hfhs]
    exact hslot
  cases hprep : prepare ex.tab ex.setClauses with
  | error e => exact Triple.throw fun _ hσ => ⟨_, hσ⟩
  | ok sets =>
    obtain ⟨ov, hov⟩ := applySets_eq (prepare_ok hprep)
    refine Triple.bind (check_triple rfl) fun sets' => Triple.of_and fun hsets => ?_
    subst hsets
    refine Triple.of_exists fun ws => ?_
    intro σ hσ
    obtain ⟨hl, hu⟩ := hσ
    have hsettled : ∀ σ, Local V True s₁ x₁ ex.tabName ex.tab (V.view (s₁.fhs ex.tabName))
        (fun _ => V.view (s₁.fhs ex.tabName)) ws σ → Settled V s₁ x₁ ex.tabName ex.tab (V.view (s₁.fhs ex.tabName)) σ :=
      fun σ hl => ⟨ws, hl, hu⟩
    refine Triple.bind (Triple.forM_facts (φ := fun index => RidsOk (makeKey index.cols) (overwrite ov)
      (V.view (s₁.fhs ex.tabName)) ex.rids [] ex.rids) fun index hi => ?_) (fun _ => Triple.of_and fun hok => ?_) σ hl
    · exact (checkIndex_triple { ex with setClauses := sets' } rfl hi hov hslot₁ []).mono (fun _ h => h) (fun _ _ h => h)
        fun _ σ h => ⟨_, hsettled σ h⟩
    · exact (rows_settled htab₁ h₁.distinct (h₁.names _ _ htab₁) { ex with setClauses := sets' } rfl rfl hslot₁ hov hok
        fun r b hb => hl.length_eq hb).mono hsettled (fun _ _ h => h) fun _ _ h => h

theorem InsertExecutor.next_ran {ex : InsertExecutor} (h : s.Ok V True) (htab : s.db ex.tabName = some ex.tab) :
    Triple (Store.handle ops true ans) (Locked s x) ex.next (fun _ => Ran V s x ex.tabName)
      (fun _ => Ran V s x ex.tabName) := by
  refine Triple.bind (lockExclusive_triple fun _ _ hl => hl.ran) fun _ => ran_of_rows h htab fun s₁ x₁ h₁ htab₁ hfhs => ?_
  refine Triple.of_exists fun ws => ?_
  intro σ hσ
  obtain ⟨hl, hu⟩ := hσ
  have hsettled : ∀ σ, Local V True s₁ x₁ ex.tabName ex.tab (V.view (s₁.fhs ex.tabName))
      (fun _ => V.view (s₁.fhs ex.tabName)) ws σ → ∃ m, Settled V s₁ x₁ ex.tabName ex.tab m σ :=
    fun σ hl => ⟨_, ws, hl, hu⟩
  refine Triple.bind (Q := fun hdr σ => hdr.recordSize.toNat = ops.size (s₁.fhs ex.tabName) ∧ Local V True s₁ x₁ ex.tabName
    ex.tab (V.view (s₁.fhs ex.tabName)) (fun _ => V.view (s₁.fhs ex.tabName)) ws σ) (Triple.perform_ok fun σ hl => ?_)
    (fun hdr => Triple.of_and fun hhdr => ?_) σ hl
  · exact ⟨_, σ, rfl, hl.size, hl⟩
  cases hfill : fill ex.tab.cols ex.values (List.replicate hdr.recordSize.toNat 0) with
  | error e => exact Triple.throw hsettled
  | ok data =>
    have hlen : data.length = ops.size (s₁.fhs ex.tabName) := by rw [length_fill hfill, List.length_replicate, hhdr]
    refine Triple.bind (check_triple (a := data) rfl) fun data' => Triple.of_and fun hdata => ?_
    rw [hdata]
    -- no row has the new key
    refine Triple.bind (Triple.forM_facts (φ := fun index => ∀ r c, V.view (s₁.fhs ex.tabName) r = some c →
      makeKey index.cols c ≠ makeKey index.cols data) fun index hi => ?_) fun _ => Triple.of_and fun hfree => ?_
    · refine Triple.bind (getValue_triple hi (makeKey index.cols data)) fun found => Triple.of_and fun hfound => ?_
      cases found with
      | some r => exact Triple.throw hsettled
      | none => exact Triple.ret fun σ hl => ⟨fun r c hc hk => by simpa using (hfound r).2 ⟨c, hc, hk⟩, hl⟩
    have hdist : ∀ rid, ex.tab.DistinctIn (Function.update (V.view (s₁.fhs ex.tabName)) rid (some data)) :=
      fun rid index hi => (hl.distinctIn index hi).update fun r c _ hc => hfree index hi r c hc
    refine Triple.bind (insertRecord_triple trivial hlen) fun rid => Triple.of_and fun hnone => ?_
    refine Triple.bind (appendWriteRecord_triple (w := .insertTuple ex.tabName rid) fun σ hσ =>
      ⟨hσ.2, rfl, hσ.1, fun c hc => by simp [WriteRecord.image] at hc⟩) fun _ => ?_
    refine (insertEntries (h₁.names _ _ htab₁) hnone (hdist rid)).mono (fun _ h => h) (fun _ σ hl' => ?_) fun _ _ h => h
    exact ⟨_, Settled.write (w := .insertTuple ex.tabName rid) htab₁ h₁.distinct hl.distinctIn hu rfl hnone.symm
      (by simp [WriteRecord.Applicable, WriteRecord.rid]) hl'⟩

/-- A statement whose rids name slots of its table. -/
def Dml.InSlots (V : HeapView H) (s : Store H) : Dml → Prop
  | .insert _ _ => True
  | .delete t rids | .update t _ rids => ∀ rid ∈ rids, V.Slot (s.fhs t) rid

def Dml.tabName : Dml → TabName
  | .insert t _ | .delete t _ | .update t _ _ => t

variable (ans) in
theorem Dml.ran (h : s.Ok V True) (d : Dml) (hd : d.InSlots V.toHeapView s) :
    Triple (Store.handle ops true ans) (Locked s x) d.prog (fun _ => Ran V s x d.tabName)
      (fun _ => Ran V s x d.tabName) := by
  have hnew : ∀ {α : Type} {t : TabName} {k : TabMeta → Exec α} {Q : α → Store H × Txn → Prop},
      (∀ tab, s.db t = some tab → Triple (Store.handle ops true ans) (Locked s x) (k tab) Q (fun _ => Ran V s x t)) →
      Triple (Store.handle ops true ans) (Locked s x) (Exec.getTable t >>= k) Q (fun _ => Ran V s x t) :=
    fun hk => Triple.bind (getTable_locked fun _ _ hl => hl.ran) fun tab => Triple.of_and (hk tab)
  cases d with
  | insert t values =>
    refine Triple.bind (Q := fun ex σ => (ex.tabName = t ∧ s.db t = some ex.tab) ∧ Locked s x σ) (hnew fun tab htab => ?_)
      fun ex => Triple.of_and fun hex => ?_
    · simp only
      split
      · exact Triple.throw fun _ hl => hl.ran
      · exact Triple.ret fun _ hl => ⟨⟨rfl, htab⟩, hl⟩
    · obtain ⟨rfl, htab⟩ := hex
      exact InsertExecutor.next_ran h htab
  | delete t rids =>
    refine Triple.bind (lockShared_triple fun _ _ hl => hl.ran) fun _ => ?_
    refine Triple.bind (Q := fun ex σ => (ex.tabName = t ∧ ex.rids = rids ∧ s.db t = some ex.tab) ∧ Locked s x σ)
      (hnew fun tab htab => Triple.ret fun _ hl => ⟨⟨rfl, rfl, htab⟩, hl⟩) fun ex => Triple.of_and fun hex => ?_
    obtain ⟨rfl, rfl, htab⟩ := hex
    exact DeleteExecutor.next_ran h htab hd
  | update t sets rids =>
    refine Triple.bind (lockShared_triple fun _ _ hl => hl.ran) fun _ => ?_
    refine Triple.bind (Q := fun ex σ => (ex.tabName = t ∧ ex.rids = rids ∧ s.db t = some ex.tab) ∧ Locked s x σ)
      (hnew fun tab htab => Triple.ret fun _ hl => ⟨⟨rfl, rfl, htab⟩, hl⟩) fun ex => Triple.of_and fun hex => ?_
    obtain ⟨rfl, rfl, htab⟩ := hex
    exact UpdateExecutor.next_ran h htab hd

/-! ## The effect of a statement -/

/-- After work on one table the store is sound again. -/
theorem Local.ok {s' : Store H} {x' : Txn} {m : RowMap} {ws : List WriteRecord} (h : s.Ok V G) (htab : s.db t = some tab)
    (hl : Local V G s x t tab m (fun _ => m) ws (s', x')) : s'.Ok V G where
  sound t' tab' htab' := by
    by_cases ht : t' = t
    · exact ht ▸ hl.sound
    · rw [show s'.fhs t' = s.fhs t' from hl.fhs t' ht]
      exact h.sound t' tab' (hl.db ▸ htab')
  good t' tab' htab' hG := by
    by_cases ht : t' = t
    · exact ht ▸ hl.good hG
    · rw [show s'.fhs t' = s.fhs t' from hl.fhs t' ht]
      exact h.good t' tab' (hl.db ▸ htab') hG
  ix t' tab' htab' index hi := by
    have hdb : s.db t' = some tab' := hl.db ▸ htab'
    by_cases ht : t' = t
    · subst ht
      rw [htab] at hdb
      cases hdb
      rw [show V.view (s'.fhs t') = m from hl.view]
      exact hl.ix index hi
    · rw [show s'.fhs t' = s.fhs t' from hl.fhs t' ht]
      obtain ⟨ix, hix, hm⟩ := h.ix t' tab' hdb index hi
      refine ⟨ix, (hl.ihs _ fun index' hi' he => ht ?_).trans hix, hm⟩
      exact (h.disjoint t tab t' tab' htab hdb index' hi' index hi he).symm
  names t' tab' htab' := h.names t' tab' (hl.db ▸ htab')
  disjoint t₁ tab₁ t₂ tab₂ h₁ h₂ := h.disjoint t₁ tab₁ t₂ tab₂ (hl.db ▸ h₁) (hl.db ▸ h₂)

theorem Local.rows {s' : Store H} {x' : Txn} {m : RowMap} {P : IndexMeta → RowMap} {ws : List WriteRecord}
    (hl : Local V G s x t tab m P ws (s', x')) :
    s'.rows V.toHeapView = Function.update (s.rows V.toHeapView) t m := by
  funext t'
  by_cases ht : t' = t
  · subst ht
    rw [Function.update_self]
    exact hl.view
  · rw [Function.update_of_ne ht]
    exact congrArg V.view (hl.fhs t' ht)

/-- Work on a table keeps the write records that fit it. -/
theorem Local.fits_mono {s' : Store H} {x' : Txn} {m : RowMap} {P : IndexMeta → RowMap} {ws : List WriteRecord}
    (hl : Local V G s x t tab m P ws (s', x')) {w : WriteRecord} (h : w.Fits V (s.fhs w.tabName)) :
    w.Fits V (s'.fhs w.tabName) := by
  by_cases ht : w.tabName = t
  · rw [ht] at h ⊢
    exact ⟨hl.room _ h.room, fun b hb => (h.size b hb).trans hl.size.symm⟩
  · rw [show s'.fhs w.tabName = s.fhs w.tabName from hl.fhs _ ht]
    exact h

/-- What a statement of the transaction `x` on the table `t` leaves. -/
structure Effect (V : HeapMap ops) (s : Store H) (x : Txn) (t : TabName) (s' : Store H) (x' : Txn)
    (ws : List WriteRecord) : Prop where
  ok : s'.Ok V True
  db : s'.db = s.db
  fd : s'.fd = s.fd
  isFile : s'.isFile = s.isFile
  txns : s'.txns = s.txns
  nextTxnId : s'.nextTxnId = s.nextTxnId
  grew : LockManager.Grew s.lockMgr x.owner s'.lockMgr x'.owner
  writeSet : x'.writeSet = ws ++ x.writeSet
  unwinds : Unwinds s.db ws (s'.rows V.toHeapView) (s.rows V.toHeapView)
  fits : ∀ w ∈ ws, w.tabName = t ∧ (s.db t).isSome ∧ w.Fits V (s'.fhs w.tabName)
  fits_mono : ∀ w : WriteRecord, w.Fits V (s.fhs w.tabName) → w.Fits V (s'.fhs w.tabName)
  slot : ∀ t' ρ, V.Slot (s.fhs t') ρ → V.Slot (s'.fhs t') ρ
  rows : ∀ t', t' ≠ t → s'.rows V.toHeapView t' = s.rows V.toHeapView t'
  /-- Without the exclusive lock nothing is written. -/
  locked : s'.lockMgr.heldMode x.owner.txnId (.table (s.fd t)) = some .exlucsive ∨
    s'.rows V.toHeapView = s.rows V.toHeapView ∧ ws = []
  ihs : ∀ name, (∀ tab, s.db t = some tab → ∀ index ∈ tab.indexes, index.fileOf t ≠ name) → s'.ihs name = s.ihs name

theorem Ran.effect {s' : Store H} {x' : Txn} (h : s.Ok V True) (hr : Ran V s x t (s', x')) :
    ∃ ws, Effect V s x t s' x' ws := by
  obtain ⟨s₁, x₁, hl, hr⟩ := hr
  have h₁ := Locked.ok h hl
  obtain ⟨lm, owner, heq, hg⟩ := hl
  cases heq
  rcases hr with heq | ⟨hx, tab, m, htab, ws, hl, hu⟩
  · cases heq
    exact ⟨[], h₁, rfl, rfl, rfl, rfl, rfl, hg, rfl, Unwinds.nil _ _, fun _ hw => absurd hw List.not_mem_nil,
      fun _ hw => hw, fun _ _ hρ => hρ, fun _ _ => rfl, .inr ⟨rfl, rfl⟩, fun _ _ => rfl⟩
  · refine ⟨ws, hl.ok h₁ htab, hl.db, hl.fd, hl.isFile, hl.txns, hl.nextTxnId, ?_, hl.writeSet, ?_, fun w hw => ?_,
      fun w hw => hl.fits_mono hw, fun t' ρ hρ => ?_, fun t' ht => ?_, .inl ?_, fun name hname => ?_⟩
    · rw [show s'.lockMgr = lm from hl.lockMgr, show x'.owner = owner from hl.owner]
      exact hg
    · rw [hl.rows]
      exact hu
    · obtain ⟨ht, hf⟩ := hl.fits w hw
      refine ⟨ht, by rw [htab]; rfl, ?_⟩
      rw [ht]
      exact hf
    · by_cases ht : t' = t
      · subst ht
        exact hl.slot ρ hρ
      · rw [show s'.fhs t' = s.fhs t' from hl.fhs t' ht]
        exact hρ
    · exact congrArg V.view (hl.fhs t' ht)
    · rw [show s'.lockMgr = lm from hl.lockMgr]
      exact hx
    · exact hl.ihs name (hname tab htab)

/-- A whole statement, from the state of its transaction. -/
theorem Dml.effect (h : s.Ok V True) (d : Dml) (hd : d.InSlots V.toHeapView s) {res : Except Exn Unit} {s' : Store H}
    {x' : Txn} (hrun : d.prog.run (Store.handle ops true ans) (s, x) = (res, s', x')) :
    ∃ ws, Effect V s x d.tabName s' x' ws := by
  have hran := Dml.ran (x := x) ans h d hd (s, x) ⟨s.lockMgr, x.owner, rfl, .refl _ _⟩
  rw [hrun] at hran
  cases res with
  | ok _ => exact Ran.effect h hran
  | error _ => exact Ran.effect h hran

end statements

end Rmdb
