import Rmdb.Recovery.LogRecovery

/-!
# What redo and undo do to a heap file

- `RmFile.Extended`: extending a file shows in its page count only, since a new page has no record and lsn 0;
- `RmFile.Redone`: a redone record changes one slot, and only on a page older than the record;
- `RmFile.Undone`: an undone record changes one slot as `SlotWrite.undo` does.
-/

namespace Rmdb

open Lib

namespace RmFile

variable {f f' : RmFile} {rid : Rid} {lsn pageNo : Int} {r : Option Bytes} {v : Bytes}

/-! ## Extending the file -/

structure Extended (f f' : RmFile) (pageNo : Int) : Prop extends SameShape f f' where
  numPages : f'.fileHdr.numPages = max f.fileHdr.numPages (pageNo + 1)
  recordAt : ∀ ρ, f'.recordAt ρ = f.recordAt ρ
  lsnAt : ∀ p, f'.lsnAt p = f.lsnAt p
  ready : f'.Ready

/-- A new page is not seen. -/
theorem extend_step (hf : f.Ready) :
    let f' := f.grow.setPage f.fd2pageno (RmPage.fresh f.fileHdr.recordSize)
    (∀ ρ, f'.recordAt ρ = f.recordAt ρ) ∧ ∀ p, f'.lsnAt p = f.lsnAt p := by
  have hal := hf.alloc
  refine ⟨fun ρ => ?_, fun p => ?_⟩
  · rw [recordAt_grow hf]
    split
    · next h => rw [RmPage.record_fresh, recordAt_of_le (by omega)]
    · rfl
  · rw [lsnAt_grow hf]
    split
    · next h =>
      have hnot : ¬ p < f.fileHdr.numPages := by omega
      simp [RmFile.lsnAt, hnot, RmPage.fresh, RmPage.zero]
    · rfl

theorem extend_spec (k : Nat) (hf : f.Ready) (hk : pageNo - f.fileHdr.numPages + 1 ≤ k)
    (hk' : k = 0 ∨ pageNo - f.fileHdr.numPages + 1 = k) : f.Extended (extend pageNo k f) pageNo := by
  induction k generalizing f with
  | zero => exact ⟨⟨rfl, rfl, rfl⟩, by simp only [extend]; omega, fun _ => rfl, fun _ => rfl, hf⟩
  | succ k ih =>
    have hge : pageNo ≥ f.fileHdr.numPages := by omega
    have hready := ready_grow hf (RmPage.fresh f.fileHdr.recordSize)
    obtain ⟨hrec, hlsn⟩ := extend_step hf
    simp only [extend, hge, if_true, createNewPageHandle_eq]
    have h := ih hready (by simp only [setPage_fileHdr, grow_numPages]; omega)
      (by simp only [setPage_fileHdr, grow_numPages]; omega)
    refine ⟨⟨h.tabName, h.recordSize, h.perPage⟩, ?_, fun ρ => (h.recordAt ρ).trans (hrec ρ),
      fun p => (h.lsnAt p).trans (hlsn p), h.ready⟩
    rw [h.numPages]
    simp only [setPage_fileHdr, grow_numPages]
    omega

theorem extendTo_spec (hf : f.Ready) (pageNo : Int) : f.Extended (f.extendTo pageNo) pageNo :=
  extend_spec _ hf (by omega) (by omega)

/-! ## Redo -/

structure Redone (f f' : RmFile) (rid : Rid) (lsn : Int) (r : Option Bytes) : Prop extends SameShape f f' where
  numPages : f'.fileHdr.numPages = max f.fileHdr.numPages (rid.pageNo + 1)
  recordAt : ∀ ρ, f'.recordAt ρ = if ρ = rid ∧ f.lsnAt rid.pageNo < lsn then r else f.recordAt ρ
  lsnAt : ∀ p, 1 ≤ p → f'.lsnAt p = if p = rid.pageNo then max (f.lsnAt p) lsn else f.lsnAt p
  ready : f'.Ready

section range
variable (hf : f.Ready) (h1 : 1 ≤ rid.pageNo) (hlt : rid.pageNo < f.fileHdr.numPages)
include hf h1 hlt

theorem Ready.fetch : ∃ page, f.pages rid.pageNo = some page ∧ f.fetchPageHandle rid.pageNo = .ok page ∧
    page.pageLsn = f.lsnAt rid.pageNo ∧ ∀ s, page.record s = f.recordAt ⟨rid.pageNo, s⟩ := by
  obtain ⟨page, hp⟩ := hf.page _ h1 hlt
  have hfetch : f.fetchPageHandle rid.pageNo = .ok page := fetchPageHandle_eq_ok.2 ⟨by omega, hlt, hp⟩
  exact ⟨page, hp, hfetch, by simp [RmFile.lsnAt, hlt, hp], fun s => (recordAt_of_fetch rid h1 hfetch s).symm⟩

/-- A page as old as the record is left alone. -/
theorem redoOn_of_le (hle : lsn ≤ f.lsnAt rid.pageNo) (k : RmFile → Except RMDBError RmFile) (r : Option Bytes) :
    f.redoOn lsn rid.pageNo k = .ok f ∧ f.Redone f rid lsn r := by
  obtain ⟨page, hp, -, hlsn, -⟩ := hf.fetch h1 hlt
  have hnot : ¬ page.pageLsn < lsn := by omega
  refine ⟨by simp [redoOn, bpmFetch, hp, bind, Except.bind, hnot, pure, Except.pure], ⟨rfl, rfl, rfl⟩, by omega,
    fun ρ => by simp [hle], fun p _ => ?_, hf⟩
  split
  · next h => rw [h, max_eq_left hle]
  · rfl

/-- On an older page the change is made and the page gets the lsn. -/
theorem redoOn_of_lt (hlsn : f.lsnAt rid.pageNo < lsn) {k : RmFile → Except RMDBError RmFile} {f₁ : RmFile}
    (hk : k f = .ok f₁) (hw : f.Wrote f₁ rid (f.lsnAt rid.pageNo) r) :
    ∃ f', f.redoOn lsn rid.pageNo k = .ok f' ∧ f.Redone f' rid lsn r := by
  obtain ⟨page, hp, -, hpage, -⟩ := hf.fetch h1 hlt
  have hready := hw.ready hf
  have hnp := hw.numPages
  have hlt₁ : rid.pageNo < f₁.fileHdr.numPages := by omega
  obtain ⟨page₁, hp₁, hfetch₁, -, -⟩ := hready.fetch h1 hlt₁
  have hstamp := wrote_of_setPage rid h1 hfetch₁ ⟨rfl, rfl, rfl⟩ rfl rfl rfl
    (show ∀ s, (page₁.stamp lsn).record s = if s = rid.slotNo then f₁.recordAt rid else page₁.record s by
      intro s
      split
      · next h => rw [RmPage.record_stamp, h, ← recordAt_of_fetch rid h1 hfetch₁]
      · rfl)
  refine ⟨f₁.setPage rid.pageNo (page₁.stamp lsn), ?_, ⟨hw.tabName, hw.recordSize, hw.perPage⟩, ?_, fun ρ => ?_,
    fun p hp1 => ?_, hstamp.ready hready⟩
  · simp [redoOn, bpmFetch, hp, bind, Except.bind, hpage, hlsn, hk, stampPage, hp₁, Except.map]
  · rw [hstamp.numPages]
    omega
  · rw [hstamp.recordAt, hw.recordAt, hw.recordAt]
    by_cases hρ : ρ = rid <;> simp [hρ, hlsn]
  · rw [hstamp.lsnAt p hp1, hw.lsnAt p hp1]
    by_cases hpe : p = rid.pageNo
    · simp only [hpe, if_true, RmPage.stamp]
      omega
    · simp [hpe]

end range

theorem redoInsert_spec (hf : f.Ready) (h1 : 1 ≤ rid.pageNo) (hv : memcpy v f.fileHdr.recordSize = v)
    (hold : f.lsnAt rid.pageNo < lsn → f.recordAt rid = none) :
    ∃ f', f.redoInsert lsn rid v = .ok f' ∧ f.Redone f' rid lsn (some v) := by
  have hext := extendTo_spec hf rid.pageNo
  have hnp := hext.numPages
  have hlt : rid.pageNo < (f.extendTo rid.pageNo).fileHdr.numPages := by omega
  suffices h : ∃ f', (f.extendTo rid.pageNo).redoOn lsn rid.pageNo (·.insertRecordAt rid v) = .ok f' ∧
      (f.extendTo rid.pageNo).Redone f' rid lsn (some v) by
    obtain ⟨f', heq, hr⟩ := h
    refine ⟨f', heq, ⟨hr.tabName.trans hext.tabName, hr.recordSize.trans hext.recordSize,
      hr.perPage.trans hext.perPage⟩, by rw [hr.numPages]; omega, fun ρ => ?_, fun p hp => ?_, hr.ready⟩
    · rw [hr.recordAt, hext.lsnAt, hext.recordAt]
    · rw [hr.lsnAt p hp, hext.lsnAt]
  by_cases hle : lsn ≤ (f.extendTo rid.pageNo).lsnAt rid.pageNo
  · exact ⟨_, redoOn_of_le hext.ready h1 hlt hle _ _⟩
  · obtain ⟨page, hp, hfetch, hpl, hrec⟩ := hext.ready.fetch h1 hlt
    have hlsn : (f.extendTo rid.pageNo).lsnAt rid.pageNo < lsn := by omega
    have hclear : page.bitmap.isSet rid.slotNo = false := by
      rw [← page.record_eq_none, hrec, hext.recordAt]
      exact hold (by rw [← hext.lsnAt]; exact hlsn)
    obtain ⟨f₁, heq, hw⟩ := insertRecordAt_wrote rid h1 hfetch v hclear
    rw [hext.recordSize, hv, hpl] at hw
    exact redoOn_of_lt hext.ready h1 hlt hlsn heq hw

section range
variable (hf : f.Ready) (h1 : 1 ≤ rid.pageNo) (hlt : rid.pageNo < f.fileHdr.numPages)
include hf h1 hlt

theorem redoDelete_spec (hold : f.lsnAt rid.pageNo < lsn → f.recordAt rid ≠ none) :
    ∃ f', f.redoDelete lsn rid = .ok f' ∧ f.Redone f' rid lsn none := by
  by_cases hle : lsn ≤ f.lsnAt rid.pageNo
  · exact ⟨_, redoOn_of_le hf h1 hlt hle _ _⟩
  · obtain ⟨page, hp, hfetch, hpl, hrec⟩ := hf.fetch h1 hlt
    have hset : page.bitmap.isSet rid.slotNo = true := by
      by_contra hclear
      exact hold (by omega) ((hrec rid.slotNo).symm.trans ((page.record_eq_none _).2 (by simpa using hclear)))
    obtain ⟨f₁, heq, hw⟩ := deleteRecord_wrote rid h1 hfetch none hset
    rw [show stampLsn none page.pageLsn = f.lsnAt rid.pageNo from hpl] at hw
    exact redoOn_of_lt hf h1 hlt (by omega) (by simp [heq, Except.map, Except.toOption]) hw

theorem redoUpdate_spec (hv : memcpy v f.fileHdr.recordSize = v)
    (hold : f.lsnAt rid.pageNo < lsn → f.recordAt rid ≠ none) :
    ∃ f', f.redoUpdate lsn rid v = .ok f' ∧ f.Redone f' rid lsn (some v) := by
  by_cases hle : lsn ≤ f.lsnAt rid.pageNo
  · exact ⟨_, redoOn_of_le hf h1 hlt hle _ _⟩
  · obtain ⟨page, hp, hfetch, hpl, hrec⟩ := hf.fetch h1 hlt
    have hset : page.bitmap.isSet rid.slotNo = true := by
      by_contra hclear
      exact hold (by omega) ((hrec rid.slotNo).symm.trans ((page.record_eq_none _).2 (by simpa using hclear)))
    obtain ⟨f₁, heq, hw⟩ := updateRecord_wrote rid h1 hfetch v none hset
    rw [show stampLsn none page.pageLsn = f.lsnAt rid.pageNo from hpl, hv] at hw
    exact redoOn_of_lt hf h1 hlt (by omega) (by simp [heq, Except.map]) hw

end range

/-! ## Undo -/

/-- The file after one slot was set to `r`. -/
structure Undone (f f' : RmFile) (rid : Rid) (r : Option Bytes) : Prop extends SameShape f f' where
  numPages : f'.fileHdr.numPages = f.fileHdr.numPages
  recordAt : ∀ ρ, f'.recordAt ρ = if ρ = rid then r else f.recordAt ρ
  lsnAt : ∀ p, 1 ≤ p → f'.lsnAt p = f.lsnAt p
  ready : f'.Ready

section undo
variable (hf : f.Ready) (h1 : 1 ≤ rid.pageNo) (hlt : rid.pageNo < f.fileHdr.numPages)
include hf

theorem Undone.refl (hr : f.recordAt rid = r) : f.Undone f rid r where
  tabName := rfl
  recordSize := rfl
  perPage := rfl
  numPages := rfl
  recordAt ρ := by split <;> simp_all
  lsnAt _ _ := rfl
  ready := hf

include hlt in
theorem Undone.of_wrote (hw : f.Wrote f' rid (f.lsnAt rid.pageNo) r) : f.Undone f' rid r where
  tabName := hw.tabName
  recordSize := hw.recordSize
  perPage := hw.perPage
  numPages := by
    rw [hw.numPages]
    omega
  recordAt := hw.recordAt
  lsnAt p hp := by
    rw [hw.lsnAt p hp]
    split <;> simp_all
  ready := hw.ready hf

include h1 hlt

/-- `is_record` answers whether the slot holds a record. -/
theorem isRecord_eq : ∃ page, f.isRecord rid = .ok (f.recordAt rid).isSome ∧
    f.fetchPageHandle rid.pageNo = .ok page ∧ page.pageLsn = f.lsnAt rid.pageNo ∧
    page.bitmap.isSet rid.slotNo = (f.recordAt rid).isSome := by
  obtain ⟨page, -, hfetch, hlsn, hrec⟩ := hf.fetch h1 hlt
  have hset : page.bitmap.isSet rid.slotNo = (f.recordAt rid).isSome := by
    rw [show f.recordAt rid = page.record rid.slotNo from (hrec rid.slotNo).symm, RmPage.record]
    cases page.bitmap.isSet rid.slotNo <;> rfl
  exact ⟨page, by simp [isRecord, hfetch, Except.map, hset], hfetch, hlsn, hset⟩

theorem undoInsert_spec (v : Bytes) :
    ∃ f', f.undoInsert rid = .ok f' ∧ f.Undone f' rid ((SlotWrite.insert v).undo (f.recordAt rid)) := by
  obtain ⟨page, his, hfetch, hlsn, hset⟩ := isRecord_eq hf h1 hlt
  cases hr : f.recordAt rid with
  | none => exact ⟨f, by simp [undoInsert, his, hr, bind, Except.bind, pure, Except.pure], .refl hf hr⟩
  | some x =>
    obtain ⟨f₁, heq, hw⟩ := deleteRecord_wrote rid h1 hfetch none (by rw [hset, hr]; rfl)
    rw [show stampLsn none page.pageLsn = f.lsnAt rid.pageNo from hlsn] at hw
    exact ⟨f₁, by simp [undoInsert, his, hr, bind, Except.bind, heq, Except.map], .of_wrote hf hlt hw⟩

theorem undoDelete_spec (hv : memcpy v f.fileHdr.recordSize = v) :
    ∃ f', f.undoDelete rid v = .ok f' ∧ f.Undone f' rid ((SlotWrite.delete v).undo (f.recordAt rid)) := by
  obtain ⟨page, his, hfetch, hlsn, hset⟩ := isRecord_eq hf h1 hlt
  cases hr : f.recordAt rid with
  | none =>
    obtain ⟨f₁, heq, hw⟩ := insertRecordAt_wrote rid h1 hfetch v (by rw [hset, hr]; rfl)
    rw [hlsn, hv] at hw
    exact ⟨f₁, by simp [undoDelete, his, hr, bind, Except.bind, heq], .of_wrote hf hlt hw⟩
  | some x => exact ⟨f, by simp [undoDelete, his, hr, bind, Except.bind, pure, Except.pure], .refl hf hr⟩

theorem undoUpdate_spec (hv : memcpy v f.fileHdr.recordSize = v) (n : Bytes) :
    ∃ f', f.undoUpdate rid v = .ok f' ∧ f.Undone f' rid ((SlotWrite.update v n).undo (f.recordAt rid)) := by
  obtain ⟨page, his, hfetch, hlsn, hset⟩ := isRecord_eq hf h1 hlt
  cases hr : f.recordAt rid with
  | none => exact ⟨f, by simp [undoUpdate, his, hr, bind, Except.bind, pure, Except.pure], .refl hf hr⟩
  | some x =>
    obtain ⟨f₁, heq, hw⟩ := updateRecord_wrote rid h1 hfetch v none (by rw [hset, hr]; rfl)
    rw [show stampLsn none page.pageLsn = f.lsnAt rid.pageNo from hlsn, hv] at hw
    exact ⟨f₁, by simp [undoUpdate, his, hr, bind, Except.bind, heq, Except.map], .of_wrote hf hlt hw⟩

end undo

end RmFile

end Rmdb
