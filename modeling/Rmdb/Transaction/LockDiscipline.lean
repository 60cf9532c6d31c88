import Rmdb.Transaction.Sessions

/-!
# Every access under a lock

- `lockFirst`: the discipline that a statement reads a table under a lock on it and writes it under the X lock, and
  keeps write records of tables under the X lock only;
- `wp_stmt`: every statement keeps it, from any locks it may hold already;
- `wp_rollbackWrite`: rolling back a write keeps it, where the X lock of the table is still held.
-/

namespace Rmdb

open Lib

/-- Which tables may be read (`false`) and written (`true`). -/
abbrev Locks := TabName → Bool → Prop

/-- The locks with those that a call adds. -/
def Locks.after (H : Locks) : Call → Locks
  | .lockSharedOnTable t => fun t' w => H t' w ∨ (t' = t ∧ w = false)
  | .lockExclusiveOnTable t => fun t' w => H t' w ∨ t' = t
  | _ => H

/-- What a call needs. -/
def Call.Allowed (c : Call) (H : Locks) : Prop :=
  (∀ t w, c.access = some (t, w) → H t w) ∧ ∀ w, c = .appendWriteRecord w → H w.tabName true

def lockFirst : Prog.Discipline Call.Resp Locks where
  pre := Call.Allowed
  post c H := H.after c

/-- The program accesses tables under locks only, starting with the locks `H`. -/
abbrev Guarded {α : Type} (p : Exec α) (Q : α → Locks → Prop) (H : Locks) : Prop := p.wp lockFirst Q H

namespace Exec

variable {H : Locks} {tabName : TabName} {rid : Rid} {index : IndexMeta} {key buf : Bytes} {iid : Iid}

theorem guarded_invoke {c : Call} {Q : c.Resp → Locks → Prop} (h : c.Allowed H) (hQ : ∀ r, Q r (H.after c)) :
    Guarded (invoke c) Q H :=
  ⟨h, hQ⟩

@[simp] theorem guarded_check {α : Type} {x : Except RMDBError α} {Q : α → Locks → Prop} :
    Guarded (check x) Q H ↔ ∀ a, x = .ok a → Q a H := by
  unfold Guarded check
  cases x <;> simp [Except.mapError]

@[simp] theorem guarded_raise {α : Type} {e : RMDBError} {Q : α → Locks → Prop} : Guarded (raise e) Q H := trivial

@[simp] theorem guarded_halt {α : Type} {Q : α → Locks → Prop} : Guarded (halt : Exec α) Q H := trivial

@[simp] theorem guarded_lockShared {Q : Unit → Locks → Prop} : Guarded (lockSharedOnTable tabName) Q H ↔
    Q () (H.after (.lockSharedOnTable tabName)) := by
  refine ⟨fun h => h.2 (), fun h => ⟨⟨by simp [Call.access], by simp⟩, fun _ => h⟩⟩

@[simp] theorem guarded_lockExclusive {Q : Unit → Locks → Prop} : Guarded (lockExclusiveOnTable tabName) Q H ↔
    Q () (H.after (.lockExclusiveOnTable tabName)) := by
  refine ⟨fun h => h.2 (), fun h => ⟨⟨by simp [Call.access], by simp⟩, fun _ => h⟩⟩

@[simp] theorem guarded_getTable {Q : TabMeta → Locks → Prop} : Guarded (getTable tabName) Q H ↔ ∀ tab, Q tab H := by
  refine ⟨fun h => h.2, fun h => ⟨⟨by simp [Call.access], by simp⟩, h⟩⟩

@[simp] theorem guarded_append {w : WriteRecord} {Q : Unit → Locks → Prop} :
    Guarded (appendWriteRecord w) Q H ↔ H w.tabName true ∧ Q () H := by
  refine ⟨fun h => ⟨h.1.2 w rfl, h.2 ()⟩, fun h => ⟨⟨by simp [Call.access], ?_⟩, fun _ => h.2⟩⟩
  rintro w' heq
  cases heq
  exact h.1

/-- A call that only reads. -/
theorem guarded_read {c : Call} {Q : c.Resp → Locks → Prop} {t : TabName} (hc : c.access = some (t, false))
    (hafter : H.after c = H) : Guarded (invoke c) Q H ↔ H t false ∧ ∀ r, Q r H := by
  refine ⟨fun h => ⟨h.1.1 t false hc, fun r => hafter ▸ h.2 r⟩, fun h => ⟨⟨?_, ?_⟩, fun r => ?_⟩⟩
  · intro t' w heq
    rw [hc] at heq
    cases heq
    exact h.1
  · rintro w rfl
    simp [Call.access] at hc
  · show Q r (H.after c)
    exact hafter.symm ▸ h.2 r

/-- A call that writes. -/
theorem guarded_write {c : Call} {Q : c.Resp → Locks → Prop} {t : TabName} (hc : c.access = some (t, true))
    (hafter : H.after c = H) : Guarded (invoke c) Q H ↔ H t true ∧ ∀ r, Q r H := by
  refine ⟨fun h => ⟨h.1.1 t true hc, fun r => hafter ▸ h.2 r⟩, fun h => ⟨⟨?_, ?_⟩, fun r => ?_⟩⟩
  · intro t' w heq
    rw [hc] at heq
    cases heq
    exact h.1
  · rintro w rfl
    simp [Call.access] at hc
  · show Q r (H.after c)
    exact hafter.symm ▸ h.2 r

@[simp] theorem guarded_fileHdr {Q : RmFileHdr → Locks → Prop} :
    Guarded (fileHdr tabName) Q H ↔ H tabName false ∧ ∀ r, Q r H := guarded_read rfl rfl

@[simp] theorem guarded_fetch {pageNo : Int} {Q : RmPage → Locks → Prop} :
    Guarded (fetchPageHandle tabName pageNo) Q H ↔ H tabName false ∧ ∀ r, Q r H := guarded_read rfl rfl

@[simp] theorem guarded_getRecord {Q : Bytes → Locks → Prop} :
    Guarded (getRecord tabName rid) Q H ↔ H tabName false ∧ ∀ r, Q r H := guarded_read rfl rfl

@[simp] theorem guarded_getValue {Q : Option Rid → Locks → Prop} :
    Guarded (getValue tabName index key) Q H ↔ H tabName false ∧ ∀ r, Q r H := guarded_read rfl rfl

@[simp] theorem guarded_lowerBound {Q : Iid → Locks → Prop} :
    Guarded (lowerBound tabName index key) Q H ↔ H tabName false ∧ ∀ r, Q r H := guarded_read rfl rfl

@[simp] theorem guarded_upperBound {Q : Iid → Locks → Prop} :
    Guarded (upperBound tabName index key) Q H ↔ H tabName false ∧ ∀ r, Q r H := guarded_read rfl rfl

@[simp] theorem guarded_ixScanNext {Q : Iid → Locks → Prop} :
    Guarded (ixScanNext tabName index iid) Q H ↔ H tabName false ∧ ∀ r, Q r H := guarded_read rfl rfl

@[simp] theorem guarded_getRid {Q : Rid → Locks → Prop} :
    Guarded (getRid tabName index iid) Q H ↔ H tabName false ∧ ∀ r, Q r H := guarded_read rfl rfl

@[simp] theorem guarded_insertRecord {Q : Rid → Locks → Prop} :
    Guarded (insertRecord tabName buf) Q H ↔ H tabName true ∧ ∀ r, Q r H := guarded_write rfl rfl

@[simp] theorem guarded_insertRecordAt {Q : Unit → Locks → Prop} :
    Guarded (insertRecordAt tabName rid buf) Q H ↔ H tabName true ∧ ∀ r, Q r H := guarded_write rfl rfl

@[simp] theorem guarded_deleteRecord {Q : Unit → Locks → Prop} :
    Guarded (deleteRecord tabName rid) Q H ↔ H tabName true ∧ ∀ r, Q r H := guarded_write rfl rfl

@[simp] theorem guarded_updateRecord {Q : Unit → Locks → Prop} :
    Guarded (updateRecord tabName rid buf) Q H ↔ H tabName true ∧ ∀ r, Q r H := guarded_write rfl rfl

@[simp] theorem guarded_insertEntry {Q : Unit → Locks → Prop} :
    Guarded (insertEntry tabName index key rid) Q H ↔ H tabName true ∧ ∀ r, Q r H := guarded_write rfl rfl

@[simp] theorem guarded_deleteEntry {Q : Bool → Locks → Prop} :
    Guarded (deleteEntry tabName index key) Q H ↔ H tabName true ∧ ∀ r, Q r H := guarded_write rfl rfl

/-- A loop whose body needs nothing but the locks it starts with. -/
theorem guarded_forM {ι : Type} {f : ι → Exec PUnit} {l : List ι} {Q : PUnit → Locks → Prop}
    (hf : ∀ x, Guarded (f x) (fun _ H' => H' = H) H) (hQ : Q ⟨⟩ H) : Guarded (l.forM f) Q H := by
  have h := Prog.wp_forM (d := lockFirst) (I := (· = H)) (l := l) (f := f) (h := H)
    (fun x _ h' hh => by rw [hh]; exact hf x) rfl
  exact Prog.wp_mono h fun _ _ heq => heq ▸ hQ

end Exec

open Exec

variable {H : Locks}

/-! ## Writing statements -/

theorem Locks.after_exclusive (H : Locks) (t : TabName) (w : Bool) : H.after (.lockExclusiveOnTable t) t w :=
  .inr rfl

theorem InsertExecutor.guarded_next (ex : InsertExecutor) : Guarded ex.next (fun _ _ => True) H := by
  unfold InsertExecutor.next
  have hX := H.after_exclusive ex.tabName
  simp only [Prog.wp_bind, guarded_lockExclusive, guarded_fileHdr, hX, true_and, guarded_check]
  intro hdr data _
  refine guarded_forM (fun index => ?_) ?_
  · simp only [Prog.wp_bind, guarded_getValue, hX, true_and]
    intro found
    split <;> simp
  · simp only [guarded_insertRecord, guarded_append, WriteRecord.tabName, hX, true_and]
    intro rid
    refine guarded_forM (fun index => ?_) trivial
    simp [hX]

theorem DeleteExecutor.guarded_deleteRow (ex : DeleteExecutor) (rid : Rid) (hX : ∀ w, H ex.tabName w) :
    Guarded (ex.deleteRow rid) (fun _ H' => H' = H) H := by
  unfold DeleteExecutor.deleteRow
  simp only [Prog.wp_bind, guarded_getRecord, guarded_append, WriteRecord.tabName, hX, true_and]
  intro data
  refine guarded_forM (fun index => ?_) ?_ <;> simp [hX]

theorem DeleteExecutor.guarded_next (ex : DeleteExecutor) : Guarded ex.next (fun _ _ => True) H := by
  unfold DeleteExecutor.next
  simp only [Prog.wp_bind, guarded_lockExclusive]
  exact guarded_forM (fun rid => ex.guarded_deleteRow rid (H.after_exclusive ex.tabName)) trivial

theorem UpdateExecutor.guarded_checkIndex (ex : UpdateExecutor) (index : IndexMeta) (hX : ∀ w, H ex.tabName w)
    (rids : List Rid) (seen : List Bytes) : Guarded (ex.checkIndex index seen rids) (fun _ H' => H' = H) H := by
  induction rids generalizing seen with
  | nil => rfl
  | cons rid rids ih =>
    unfold UpdateExecutor.checkIndex
    simp only [Prog.wp_bind, guarded_getRecord, hX, true_and, guarded_check]
    intro old data _
    have hrest : ∀ seen, Guarded (ex.checkIndex index seen rids) (fun _ H' => H' = H) H := ih
    split
    · simp
    · simp only [Prog.wp_bind, guarded_getValue, hX, true_and]
      intro found
      cases found with
      | none => exact hrest _
      | some r =>
        simp only
        split
        · simp
        · exact hrest _

theorem UpdateExecutor.guarded_updateRow (ex : UpdateExecutor) (rid : Rid) (hX : ∀ w, H ex.tabName w) :
    Guarded (ex.updateRow rid) (fun _ H' => H' = H) H := by
  unfold UpdateExecutor.updateRow
  simp only [Prog.wp_bind, guarded_getRecord, guarded_append, WriteRecord.tabName, hX, true_and]
  intro data
  refine guarded_forM (fun index => ?_) ?_
  · simp [hX]
  · simp only [guarded_check, guarded_updateRecord, hX, true_and]
    intro new _ _
    refine guarded_forM (fun index => ?_) rfl
    simp [hX]

theorem UpdateExecutor.guarded_next (ex : UpdateExecutor) : Guarded ex.next (fun _ _ => True) H := by
  unfold UpdateExecutor.next
  have hX := H.after_exclusive ex.tabName
  simp only [Prog.wp_bind, guarded_lockExclusive, guarded_check]
  intro sets _
  refine guarded_forM (fun index => ?_) ?_
  · exact UpdateExecutor.guarded_checkIndex { ex with setClauses := sets } index hX _ _
  · exact guarded_forM (fun rid => UpdateExecutor.guarded_updateRow { ex with setClauses := sets } rid hX) trivial

/-- Undoing a write to a table under the X lock. -/
theorem guarded_rollbackWrite (w : WriteRecord) (hX : ∀ b, H w.tabName b) :
    Guarded (rollbackWrite w) (fun _ _ => True) H := by
  cases w with
  | insertTuple t rid =>
    simp only [WriteRecord.tabName] at hX
    simp only [rollbackWrite, Prog.wp_bind, guarded_getTable, guarded_getRecord, hX, true_and]
    intro tab data
    refine guarded_forM (fun index => ?_) ?_ <;> simp [hX]
  | deleteTuple t rid record =>
    simp only [WriteRecord.tabName] at hX
    simp only [rollbackWrite, Prog.wp_bind, guarded_getTable, guarded_insertRecordAt, hX, true_and]
    intro tab _
    refine guarded_forM (fun index => ?_) trivial
    simp [hX]
  | updateTuple t rid record =>
    simp only [WriteRecord.tabName] at hX
    simp only [rollbackWrite, Prog.wp_bind, guarded_getTable, guarded_getRecord, hX, true_and]
    intro tab data
    refine guarded_forM (fun index => ?_) ?_
    · simp [hX]
    · simp only [guarded_updateRecord, hX, true_and]
      intro _
      refine guarded_forM (fun index => ?_) trivial
      simp [hX]

/-! ## Scans -/

section scans
variable {ex : ScanExecutor} {fuel : Nat}

theorem guarded_rmScanNext {t : TabName} (hS : H t false) (fuel : Nat) (rid : Rid) :
    Guarded (rmScanNext t fuel rid) (fun _ H' => H' = H) H := by
  induction fuel generalizing rid with
  | zero => trivial
  | succ fuel ih =>
    unfold rmScanNext
    simp only [Prog.wp_bind, guarded_fileHdr, hS, true_and]
    intro hdr
    split
    · simp only [Prog.wp_bind, guarded_fetch, hS, true_and]
      intro page
      split
      · rfl
      · exact ih _
    · rfl

/-- The scan has begun, on the table it was made for. -/
def Begun (ex₀ ex : ScanExecutor) : Prop := ex.scan.isSome = true ∧ ex.tabName = ex₀.tabName

theorem guarded_isEnd (hS : H ex.tabName false) : Guarded ex.isEnd (fun _ H' => H' = H) H := by
  unfold ScanExecutor.isEnd
  split <;> simp [hS]

theorem guarded_scanRid (hS : H ex.tabName false) : Guarded ex.scanRid (fun _ H' => H' = H) H := by
  unfold ScanExecutor.scanRid
  split <;> simp [hS]

theorem guarded_scanNext (hS : H ex.tabName false) :
    Guarded (ex.scanNext fuel) (fun ex' H' => H' = H ∧ Begun ex ex') H := by
  unfold ScanExecutor.scanNext
  split
  · simp only [Prog.wp_bind]
    exact Prog.wp_mono (guarded_rmScanNext hS fuel _) fun _ _ heq => ⟨heq, rfl, rfl⟩
  · simp only [Prog.wp_bind, guarded_ixScanNext, hS, true_and]
    exact fun _ => ⟨rfl, rfl, rfl⟩
  · trivial

theorem guarded_findNextValid (turns fuel : Nat) (ex : ScanExecutor) (hS : H ex.tabName false)
    (hsome : ex.scan.isSome = true) :
    Guarded (ex.findNextValid turns fuel) (fun ex' H' => H' = H ∧ Begun ex ex') H := by
  induction fuel generalizing ex with
  | zero => trivial
  | succ fuel ih =>
    unfold ScanExecutor.findNextValid
    simp only [Prog.wp_bind]
    refine Prog.wp_mono (guarded_isEnd hS) ?_
    rintro fin _ rfl
    cases fin with
    | true => exact ⟨rfl, hsome, rfl⟩
    | false =>
      simp only [Bool.false_eq_true, if_false, Prog.wp_bind]
      refine Prog.wp_mono (guarded_scanRid hS) ?_
      rintro rid H' rfl
      simp only [guarded_getRecord, guarded_check, hS, true_and]
      intro data ok _
      cases ok with
      | true => exact ⟨rfl, hsome, rfl⟩
      | false =>
        simp only [Bool.false_eq_true, if_false, Prog.wp_bind]
        refine Prog.wp_mono (guarded_scanNext (show H' { ex with rid := rid }.tabName false from hS)) ?_
        rintro ex' H'' ⟨rfl, hsome', htab⟩
        have hS' : H'' ex'.tabName false := htab.symm ▸ hS
        exact Prog.wp_mono (ih ex' hS' hsome') fun ex'' _ h => ⟨h.1, h.2.1, h.2.2.trans htab⟩

theorem guarded_start (hS : H ex.tabName false) :
    Guarded (ex.start fuel) (fun ex' H' => H' = H ∧ Begun ex ex') H := by
  unfold ScanExecutor.start
  split
  · simp only [Prog.wp_bind]
    exact Prog.wp_mono (guarded_rmScanNext hS fuel _) fun _ _ heq => ⟨heq, rfl, rfl⟩
  · simp only
    split <;> split <;> simp [hS, Begun]

/-- A scan that has begun is on a table under a lock. -/
def ScanOk (H : Locks) (ex : ScanExecutor) : Prop := ex.scan.isSome = true → H ex.tabName false

theorem guarded_beginTuple : Guarded (ex.beginTuple fuel)
    (fun ex' H' => (∀ t w, H t w → H' t w) ∧ ScanOk H' ex') H := by
  unfold ScanExecutor.beginTuple
  simp only [Prog.wp_bind, guarded_lockShared]
  have hS : H.after (.lockSharedOnTable ex.tabName) ex.tabName false := .inr ⟨rfl, rfl⟩
  refine Prog.wp_mono (guarded_start hS) ?_
  rintro ex' _ ⟨rfl, hsome, htab⟩
  refine Prog.wp_mono (guarded_findNextValid fuel fuel ex' (htab.symm ▸ hS) hsome) ?_
  rintro ex'' _ ⟨rfl, -, htab'⟩
  exact ⟨fun t w h => .inl h, fun _ => (htab'.trans htab).symm ▸ hS⟩

theorem guarded_nextTuple (hok : ScanOk H ex) :
    Guarded (ex.nextTuple fuel) (fun ex' H' => H' = H ∧ ScanOk H ex') H := by
  unfold ScanExecutor.nextTuple
  simp only [Prog.wp_bind]
  cases hscan : ex.scan with
  | none => simp [ScanExecutor.scanNext, hscan]
  | some scan =>
    have hS := hok (by rw [hscan]; rfl)
    refine Prog.wp_mono (guarded_scanNext hS) ?_
    rintro ex' H' ⟨rfl, hsome, htab⟩
    refine Prog.wp_mono (guarded_findNextValid fuel fuel ex' (htab.symm ▸ hS) hsome) ?_
    rintro ex'' H'' ⟨rfl, -, htab'⟩
    exact ⟨rfl, fun _ => (htab'.trans htab).symm ▸ hS⟩

theorem guarded_isEnd_of_ok (hok : ScanOk H ex) : Guarded ex.isEnd (fun _ H' => H' = H) H := by
  cases hscan : ex.scan with
  | none => simp [ScanExecutor.isEnd, hscan]
  | some scan => exact guarded_isEnd (hok (by rw [hscan]; rfl))

theorem guarded_next_of_ok (hok : ScanOk H ex) : Guarded ex.next (fun _ H' => H' = H) H := by
  unfold ScanExecutor.next
  split
  · next h => simp [hok h]
  · trivial

theorem guarded_collect (turns fuel : Nat) (ex : ScanExecutor) (rids : List Rid) (hok : ScanOk H ex) :
    Guarded (ex.collect turns fuel rids) (fun _ H' => H' = H) H := by
  induction fuel generalizing ex rids with
  | zero => trivial
  | succ fuel ih =>
    unfold ScanExecutor.collect
    simp only [Prog.wp_bind]
    refine Prog.wp_mono (guarded_isEnd_of_ok hok) ?_
    rintro fin _ rfl
    cases fin with
    | true => rfl
    | false =>
      simp only [Bool.false_eq_true, if_false, Prog.wp_bind]
      refine Prog.wp_mono (guarded_nextTuple hok) ?_
      rintro ex' _ ⟨rfl, hok'⟩
      exact ih ex' _ hok'

end scans

/-! ## Statements -/

theorem guarded_executor (plan : ScanPlan) : Guarded plan.executor (fun ex H' => H' = H ∧ ex.scan = none) H := by
  unfold ScanPlan.executor
  split
  · simp [ScanExecutor.newSeqScan]
  · simp only [ScanExecutor.newIndexScan, Prog.wp_bind, guarded_getTable, guarded_check]
    intro tab index _
    split <;> simp

theorem guarded_newScans (plans : List ScanPlan) :
    Guarded (newScans plans) (fun exs H' => H' = H ∧ ∀ ex ∈ exs, ex.scan = none) H := by
  induction plans with
  | nil => exact ⟨rfl, fun _ h => absurd h List.not_mem_nil⟩
  | cons plan plans ih =>
    unfold newScans
    simp only [Prog.wp_bind]
    refine Prog.wp_mono (guarded_executor plan) ?_
    rintro ex _ ⟨rfl, hex⟩
    refine Prog.wp_mono ih ?_
    rintro exs _ ⟨rfl, hexs⟩
    refine ⟨rfl, fun ex' h => ?_⟩
    rcases List.mem_cons.1 h with rfl | h
    · exact hex
    · exact hexs ex' h

theorem guarded_select (fuel : Nat) (driver : SelectDriver) (scans : Nat → ScanExecutor)
    (hok : ∀ i, ScanOk H (scans i)) : Guarded (driver.exec fuel scans) (fun _ _ => True) H := by
  induction driver generalizing scans H with
  | done => trivial
  | raise e => trivial
  | beginTuple i k ih =>
    unfold SelectDriver.exec
    simp only [Prog.wp_bind]
    refine Prog.wp_mono guarded_beginTuple fun ex' H' h => ih _ fun j => ?_
    by_cases hj : j = i
    · simpa [hj] using h.2
    · have hj' : ScanOk H' (scans j) := fun hs => h.1 _ _ (hok j hs)
      simpa [Function.update_of_ne hj] using hj'
  | nextTuple i k ih =>
    unfold SelectDriver.exec
    simp only [Prog.wp_bind]
    refine Prog.wp_mono (guarded_nextTuple (hok i)) ?_
    rintro ex' _ ⟨rfl, hex⟩
    refine ih _ fun j => ?_
    by_cases hj : j = i
    · simpa [hj] using hex
    · simpa [Function.update_of_ne hj] using hok j
  | isEnd i k ih =>
    unfold SelectDriver.exec
    simp only [Prog.wp_bind]
    refine Prog.wp_mono (guarded_isEnd_of_ok (hok i)) ?_
    rintro b _ rfl
    exact ih b scans hok
  | next i k ih =>
    unfold SelectDriver.exec
    simp only [Prog.wp_bind]
    refine Prog.wp_mono (guarded_next_of_ok (hok i)) ?_
    rintro data _ rfl
    exact ih data scans hok

theorem guarded_scanRids (fuel : Nat) (plan : ScanPlan) : Guarded (scanRids fuel plan) (fun _ _ => True) H := by
  unfold scanRids
  simp only [Prog.wp_bind]
  refine Prog.wp_mono (guarded_executor plan) fun ex _ _ => ?_
  refine Prog.wp_mono guarded_beginTuple fun ex' H' h => ?_
  exact Prog.wp_mono (guarded_collect fuel fuel ex' [] h.2) fun _ _ _ => trivial

/-- Every statement takes its locks before it touches a table. -/
theorem guarded_stmt (fuel : Nat) (stmt : Stmt) : Guarded (stmt.prog fuel) (fun _ _ => True) H := by
  cases stmt with
  | select plans driver =>
    simp only [Stmt.prog, Prog.wp_bind]
    refine Prog.wp_mono (guarded_newScans plans) ?_
    rintro exs _ ⟨rfl, hexs⟩
    refine guarded_select fuel driver _ fun i hs => ?_
    -- no scan has begun yet
    exfalso
    cases h : exs[i]? with
    | none => simp [h] at hs
    | some ex =>
      have hnone := hexs ex (List.mem_of_getElem? h)
      simp [h, hnone] at hs
  | insert t values =>
    simp only [Stmt.prog, InsertExecutor.new, Prog.wp_bind, guarded_getTable]
    intro tab
    split
    · simp
    · exact InsertExecutor.guarded_next _
  | update plan t sets =>
    simp only [Stmt.prog, UpdateExecutor.new, Prog.wp_bind, guarded_getTable]
    exact Prog.wp_mono (guarded_scanRids fuel plan) fun rids _ _ tab => UpdateExecutor.guarded_next _
  | delete plan t =>
    simp only [Stmt.prog, DeleteExecutor.new, Prog.wp_bind, guarded_getTable]
    exact Prog.wp_mono (guarded_scanRids fuel plan) fun rids _ _ tab => DeleteExecutor.guarded_next _

end Rmdb
