import Rmdb.Recovery.Writes

/-!
# The files on disk

- `OnDisk`: what a slot may hold on disk, given the lsn of its page there;
- `DiskInv`: every slot on disk is such, and the log records of a page on disk are durable (the write-ahead rule);
- every step within an incarnation keeps `DiskInv`.
-/

namespace Rmdb

open Lib SlotWrite

namespace Server

variable {s s' : Server} {t : TabName} {ρ : Rid} {tid lsn : Int} {c : Option Bytes}

/-- A slot on disk holds the state at its page's lsn, or the page has all the slot's records, whose transaction (if it
is not committed) is rolling back or over, and the slot is on its way back to the committed record. -/
def OnDisk (s : Server) (t : TabName) (ρ : Rid) (c : Option Bytes) (lsn : Int) : Prop :=
  (c = replay (upTo s.logMgr.stream lsn) t ρ ∧ ∀ o ∈ pend s.history t ρ, o.1.1 = s.epoch) ∨
    AllLe s.logMgr.stream t ρ lsn ∧
      (∀ o ∈ pend s.history t ρ, ∀ txn, s.live o.1 = some txn → txn.phase = .rollingBack) ∧
      (c = base s.history t ρ ∨ (∀ o ∈ pend s.history t ρ, o.1.1 = s.epoch) ∧
        c ∈ states (base s.history t ρ) ((pend s.history t ρ).map (·.2)))

structure DiskInv (s : Server) : Prop extends Fhs.SameShape s.fhs s.image where
  ready : s.image.Ready
  numPages : ∀ t, (s.image.file t).fileHdr.numPages ≤ (s.fhs.file t).fileHdr.numPages
  lsnFrom : ∀ t p, 1 ≤ p → s.image.lsnAt t p ≤ 0 ∨ ∃ r ∈ s.logMgr.disk, s.image.lsnAt t p = r.lsn
  durable : ∀ r ∈ s.logMgr.stream, ∀ t ρ w, r.body.target = some (t, ρ, w) →
    r.lsn ≤ s.image.lsnAt t ρ.pageNo → r ∈ s.logMgr.disk
  slot : ∀ t ∈ s.fhs.names, ∀ ρ, s.InRange t ρ → s.OnDisk t ρ (s.image.recordAt t ρ) (s.image.lsnAt t ρ.pageNo)

/-! ## Slots -/

theorem LiveInv.allLe (h : s.LiveInv) (t : TabName) (ρ : Rid) :
    AllLe s.logMgr.stream t ρ (s.fhs.lsnAt t ρ.pageNo) := by
  intro r hr hne
  obtain ⟨w, hw⟩ := Option.ne_none_iff_exists'.1 hne
  exact h.lsnDone r hr t ρ w (LogBody.writeOn_eq_some.1 hw)

/-- What a table holds may be written to disk. -/
theorem LiveInv.onDisk (h : s.LiveInv) (hl : s.LogInv) (ht : t ∈ s.fhs.names) (hρ : s.InRange t ρ) :
    s.OnDisk t ρ (s.fhs.recordAt t ρ) (s.fhs.lsnAt t ρ.pageNo) := by
  have hall := h.allLe t ρ
  rcases h.recordAt_cases hl ht hρ with ⟨hidle, heq⟩ | ⟨tid, txn, done, undone, htxn, -, -, howner, hpend, hs, heq⟩
  · refine .inr ⟨hall, fun o ho txn hlive => ?_, .inl heq⟩
    rw [hidle o ho] at hlive
    cases hlive
  · have hepoch : ∀ o ∈ pend s.history t ρ, o.1.1 = s.epoch := fun o ho => by rw [howner o ho]
    have hlive : ∀ o ∈ pend s.history t ρ, s.live o.1 = some txn := fun o ho => by
      rw [howner o ho, live, if_pos rfl, htxn]
    by_cases hback : txn.phase = .rollingBack
    · refine .inr ⟨hall, fun o ho txn' hlive' => ?_, .inr ⟨hepoch, ?_⟩⟩
      · rw [hlive o ho] at hlive'
        exact Option.some.inj hlive' ▸ hback
      · rw [heq, hpend]
        exact prefix_final_mem_states (List.prefix_append _ _)
    · refine .inl ⟨?_, hepoch⟩
      rw [replay, slotLog_upTo_of_allLe hall]
      exact h.recordAt_eq_final hl ht hρ fun o ho => ⟨txn, hlive o ho, hback⟩

theorem OnDisk.quiet (h : s.OnDisk t ρ c lsn) (hl' : s'.LogInv) (hf : Flushes s s')
    (htxn : ∀ tid txn', s'.txns tid = some txn' → txn'.phase.IsOpen →
      ∃ txn, s.txns tid = some txn ∧ (txn.phase = .rollingBack → txn'.phase = .rollingBack)) :
    s'.OnDisk t ρ c lsn := by
  unfold OnDisk at h ⊢
  rw [hf.stream, hf.history, hf.epoch]
  refine h.imp_right fun ⟨hall, hback, hc⟩ => ⟨hall, fun o ho txn' hlive' => ?_, hc⟩
  obtain ⟨hi, htxn', hopen⟩ := hl'.open_of_mem_pend (hf.history ▸ ho) hlive'
  obtain ⟨txn, hrun, hkeep⟩ := htxn _ _ htxn' hopen
  have he : o.1.1 = s.epoch := by rw [hi, hf.epoch]
  exact hkeep (hback o ho txn (by rw [live_of_epoch he, hrun]))

theorem OnDisk.logged {r : LogRecord} (h : s.OnDisk t ρ c lsn) (hl : s.LogInv) (hl' : s'.LogInv) (ha : Appends s s' r)
    (hr : r.body.target = none)
    (htxn : ∀ tid txn', s'.txns tid = some txn' → txn'.phase.IsOpen →
      (∃ txn, s.txns tid = some txn ∧ (txn.phase = .rollingBack → txn'.phase = .rollingBack)) ∨ s.nextTxnId ≤ tid)
    (hcommit : r.body = .commit → ∃ txn, s.txns r.logTid = some txn ∧ txn.phase = .growing) :
    s'.OnDisk t ρ c lsn := by
  have hnone : r.body.writeOn t ρ = none := by simp [LogBody.writeOn, hr]
  have hstream : slotLog (upTo s'.logMgr.stream lsn) t ρ = slotLog (upTo s.logMgr.stream lsn) t ρ := by
    rw [ha.stream, upTo, List.filter_append, slotLog_append, ← upTo]
    by_cases hle : r.lsn ≤ lsn <;> simp [hle, slotLog_single_of_none hnone]
  have hall : AllLe s.logMgr.stream t ρ lsn → AllLe s'.logMgr.stream t ρ lsn := by
    intro hall r' hr' hne
    rw [ha.stream] at hr'
    rcases List.mem_append.1 hr' with hr' | hr'
    · exact hall r' hr' hne
    · rw [List.mem_singleton.1 hr'] at hne
      exact absurd hnone hne
  rcases hl.pend_logged ha hr t ρ with ⟨hp, hb⟩ | ⟨hp, hc, howner, hb⟩
  · unfold OnDisk at h ⊢
    rw [replay, hstream, ← replay, hp, hb, ha.epoch]
    refine h.imp_right ?_
    rintro ⟨hle, hback, hc⟩
    refine ⟨hall hle, fun o ho txn' hlive' => ?_, hc⟩
    obtain ⟨hi, htxn', hopen⟩ := hl'.open_of_mem_pend (hp ▸ ho) hlive'
    have he : o.1.1 = s.epoch := by rw [hi, ha.epoch]
    rcases htxn _ _ htxn' hopen with ⟨txn, hrun, hkeep⟩ | hnew
    · exact hkeep (hback o ho txn (by rw [live_of_epoch he, hrun]))
    · exact absurd (show o.1 = (s.epoch, o.1.2) from Prod.ext he rfl) (hl.ne_of_mem_pend ho hnew)
  · -- all that was pending is committed now
    obtain ⟨txn, hrun, hgrow⟩ := hcommit hc
    rcases h with ⟨heq, -⟩ | ⟨hle, hback, hc'⟩
    · exact .inl ⟨by rw [heq, replay, replay, hstream], by simp [hp]⟩
    · have hnil : pend s.history t ρ = [] := by
        rw [List.eq_nil_iff_forall_not_mem]
        intro o ho
        have := hback o ho txn (by rw [howner o ho, live, if_pos rfl, hrun])
        rw [hgrow] at this
        cases this
      refine .inr ⟨hall hle, by simp [hp], .inl ?_⟩
      rw [hb, hnil]
      rcases hc' with hc' | ⟨-, hc'⟩
      · exact hc'
      · simpa [hnil, states] using hc'

section written
variable {txn : Transaction} {w : SlotWrite Bytes}

/-- A page on disk is older than the next record. -/
theorem DiskInv.lsnAt_lt (h : s.DiskInv) (hl : s.LogInv) (hpos : 0 < s.logMgr.globalLsn) {p : Int} (hp : 1 ≤ p) :
    s.image.lsnAt t p < s.logMgr.globalLsn := by
  rcases h.lsnFrom t p hp with hle | ⟨r, hr, heq⟩
  · omega
  · rw [heq]
    exact hl.wf.below r (List.mem_append_left _ hr)

theorem OnDisk.write {t' : TabName} {ρ' : Rid} (h : s.OnDisk t' ρ' c lsn) (hl : s.LogInv)
    (hw : Written s tid txn t ρ w s') (hone : ∀ o ∈ pend s.history t ρ, o.1 = (s.epoch, tid))
    (hlt : lsn < s.logMgr.globalLsn) : s'.OnDisk t' ρ' c lsn := by
  have ha := hw.appends hl
  have hnot : ¬ s.logMgr.globalLsn ≤ lsn := by omega
  have hstream : upTo s'.logMgr.stream lsn = upTo s.logMgr.stream lsn := by
    rw [ha.stream, upTo, List.filter_append]
    simp [hnot, upTo]
  by_cases hcase : t' = t ∧ ρ' = ρ
  · obtain ⟨rfl, rfl⟩ := hcase
    obtain ⟨hp, hb⟩ := hw.pend_self hl
    have hepoch : ∀ o ∈ pend s'.history t' ρ', o.1.1 = s'.epoch := by
      intro o ho
      rw [hp, List.mem_append, List.mem_singleton] at ho
      rw [ha.epoch]
      rcases ho with ho | rfl
      · rw [hone o ho]
      · rfl
    refine .inl ⟨?_, hepoch⟩
    rw [hstream]
    rcases h with ⟨heq, -⟩ | ⟨hall, hback, hc⟩
    · exact heq
    · -- nothing was pending, so the slot holds the end of its history
      have hnil : pend s.history t' ρ' = [] := by
        rw [List.eq_nil_iff_forall_not_mem]
        intro o ho
        have := hback o ho txn (by rw [hone o ho, live, if_pos rfl, hw.running])
        rw [hw.growing] at this
        cases this
      have hfinal := hl.ordered.final_eq t' ρ'
      rw [hl.history_map_snd, hnil] at hfinal
      rw [replay, slotLog_upTo_of_allLe hall, hfinal]
      rcases hc with hc | ⟨-, hc⟩
      · exact hc
      · simpa [hnil, states] using hc
  · obtain ⟨hp, hb⟩ := hw.pend_of_ne hl hcase
    unfold OnDisk at h ⊢
    rw [hstream, hp, hb, ha.epoch]
    refine h.imp_right ?_
    rintro ⟨hall, hback, hc⟩
    refine ⟨fun r hr hne => ?_, fun o ho txn' hlive' => ?_, hc⟩
    · obtain ⟨w', hw'⟩ := Option.ne_none_iff_exists'.1 hne
      rcases hw.mem_stream hl hr (LogBody.writeOn_eq_some.1 hw') with hr | ⟨he, -⟩
      · exact hall r hr hne
      · exact absurd he hcase
    · unfold live at hlive'
      split at hlive'
      · next he =>
        obtain ⟨txn₀, hrun, hphase, -⟩ := hw.txn_of hlive'
        rw [hphase]
        exact hback o ho txn₀ (by rw [live_of_epoch (by rw [he, ha.epoch]), hrun])
      · cases hlive'

end written

/-! ## Preservation -/

/-- Until a page is written back the files on disk are the same. -/
theorem image_eq (hdisk : s'.disk = s.disk) (hs : Fhs.SameShape s.fhs s'.fhs) : s'.image = s.image := by
  simp only [image, hdisk, hs.names]

/-- The log may be flushed and the tables may change; phases do not leave a roll-back. -/
theorem DiskInv.quiet (h : s.DiskInv) (hl' : s'.LogInv) (hf : Flushes s s') (hdisk : s'.disk = s.disk)
    (hpages : ∀ t, (s.fhs.file t).fileHdr.numPages ≤ (s'.fhs.file t).fileHdr.numPages)
    (htxn : ∀ tid txn', s'.txns tid = some txn' → txn'.phase.IsOpen →
      ∃ txn, s.txns tid = some txn ∧ (txn.phase = .rollingBack → txn'.phase = .rollingBack)) : s'.DiskInv := by
  have himage := image_eq hdisk hf.shape
  refine ⟨himage ▸ hf.shape.symm.trans h.toSameShape, himage ▸ h.ready, fun t => ?_, fun t p hp => ?_,
    fun r hr t ρ w ht hle => ?_, fun t ht ρ hρ => ?_⟩
  · rw [himage]
    exact (h.numPages t).trans (hpages t)
  · rw [himage]
    exact (h.lsnFrom t p hp).imp id fun ⟨r, hr, heq⟩ => ⟨r, hf.disk.subset hr, heq⟩
  · rw [hf.stream] at hr
    rw [himage] at hle
    exact hf.disk.subset (h.durable r hr t ρ w ht hle)
  · rw [hf.shape.names] at ht
    rw [himage]
    exact (h.slot t ht ρ (hf.toSameRun.inRange.1 hρ)).quiet hl' hf htxn

theorem DiskInv.logged {r : LogRecord} (h : s.DiskInv) (hl : s.LogInv) (hl' : s'.LogInv) (ha : Appends s s' r)
    (hr : r.body.target = none) (hdisk : s'.disk = s.disk) (hfhs : s'.fhs = s.fhs)
    (htxn : ∀ tid txn', s'.txns tid = some txn' → txn'.phase.IsOpen →
      (∃ txn, s.txns tid = some txn ∧ (txn.phase = .rollingBack → txn'.phase = .rollingBack)) ∨ s.nextTxnId ≤ tid)
    (hcommit : r.body = .commit → ∃ txn, s.txns r.logTid = some txn ∧ txn.phase = .growing) : s'.DiskInv := by
  have himage := image_eq hdisk ha.shape
  refine ⟨himage ▸ ha.shape.symm.trans h.toSameShape, himage ▸ h.ready, fun t => ?_, fun t p hp => ?_,
    fun r' hr' t ρ w ht hle => ?_, fun t ht ρ hρ => ?_⟩
  · rw [himage, hfhs]
    exact h.numPages t
  · rw [himage]
    exact (h.lsnFrom t p hp).imp id fun ⟨r', hr', heq⟩ => ⟨r', ha.disk.subset hr', heq⟩
  · rw [ha.stream] at hr'
    rw [himage] at hle
    rcases List.mem_append.1 hr' with hr' | hr'
    · exact ha.disk.subset (h.durable r' hr' t ρ w ht hle)
    · rw [List.mem_singleton.1 hr', hr] at ht
      cases ht
  · rw [hfhs] at ht
    rw [himage]
    exact (h.slot t ht ρ (ha.toSameRun.inRange.1 hρ)).logged hl hl' ha hr htxn hcommit

theorem DiskInv.write {txn : Transaction} {w : SlotWrite Bytes} (h : s.DiskInv) (hl : s.LogInv)
    (hw : Written s tid txn t ρ w s') (hone : ∀ o ∈ pend s.history t ρ, o.1 = (s.epoch, tid)) : s'.DiskInv := by
  have ha := hw.appends hl
  have hpos := (hl.started tid txn hw.running).positive
  have himage : s'.image = s.image := image_eq (by rw [hw.rest]; rfl) ha.shape
  refine ⟨himage ▸ ha.shape.symm.trans h.toSameShape, himage ▸ h.ready, fun t' => ?_, fun t' p hp => ?_,
    fun r hr t' ρ' w' ht' hle => ?_, fun t' ht' ρ' hρ' => ?_⟩
  · rw [himage]
    exact (h.numPages t').trans (hw.slot.numPages t')
  · rw [himage]
    exact (h.lsnFrom t' p hp).imp id fun ⟨r', hr', heq⟩ => ⟨r', ha.disk.subset hr', heq⟩
  · rw [himage] at hle
    rcases hw.mem_stream hl hr ht' with hr | ⟨⟨rfl, rfl⟩, hlsn⟩
    · exact ha.disk.subset (h.durable r hr t' ρ' w' ht' hle)
    · have hlt := h.lsnAt_lt (t := t') hl hpos hw.range.1
      omega
  · rw [hw.slot.names] at ht'
    rw [ha.toSameRun.inRange] at hρ'
    rw [himage]
    exact (h.slot t' ht' ρ' hρ').write hl hw hone (h.lsnAt_lt hl hpos hρ'.1)

/-! ## Writing a page back -/

section writeBack
variable {pageNo : Int}

theorem writeBack_eq (h : s.writeBack t pageNo = some s') : ∃ page, (s.fhs.file t).pages pageNo = some page ∧
    s'.image = s.image.set t ((s.image.file t).setPage pageNo page) ∧ s'.fhs = s.fhs ∧ s'.txns = s.txns ∧
    s'.xLock = s.xLock ∧ s'.nextTxnId = s.nextTxnId ∧ s'.older = s.older ∧ s'.epoch = s.epoch ∧
    (s'.logMgr = s.logMgr.flushLogToDisk ∨ page.pageLsn ≤ s.logMgr.persistLsn ∧ s'.logMgr = s.logMgr) := by
  unfold writeBack at h
  split at h
  · next page hp =>
    obtain rfl := Option.some.inj h
    refine ⟨page, hp, ?_, rfl, rfl, rfl, rfl, rfl, rfl, ?_⟩
    · simp only [image, Fhs.set]
      congr 1
      funext t'
      by_cases ht : t' = t
      · subst ht
        simp [RmFile.openFile, RmFile.setPage]
      · simp [Function.update_of_ne ht]
    · by_cases hlsn : page.pageLsn > s.logMgr.persistLsn
      · exact .inl (by simp [hlsn])
      · exact .inr ⟨by omega, by simp [hlsn]⟩
  · cases h

theorem writeBack_flushes (hl : s.LogInv) (h : s.writeBack t pageNo = some s') : Flushes s s' := by
  obtain ⟨page, -, -, hfhs, -, -, -, holder, hepoch, hlm⟩ := writeBack_eq h
  have hrun : SameRun s s' := ⟨holder, hepoch, by rw [hfhs]; exact ⟨rfl, fun _ => ⟨rfl, rfl, rfl⟩⟩⟩
  rcases hlm with hlm | ⟨-, hlm⟩
  · exact .of_flush hl hrun hlm
  · exact .of_eq hl hrun hlm

/-- A page on disk is as it was, or as the table has it; in that case all its records up to its lsn are durable. -/
theorem DiskInv.writeBack_view (h : s.DiskInv) (hl : s.LogInv) (hstep : s.writeBack t pageNo = some s')
    {t' : TabName} {q : Int} (hq : 1 ≤ q) :
    (s'.image.lsnAt t' q = s.image.lsnAt t' q ∧ ∀ σ, s'.image.recordAt t' ⟨q, σ⟩ = s.image.recordAt t' ⟨q, σ⟩) ∨
      s'.image.lsnAt t' q = s.fhs.lsnAt t' q ∧ (∀ σ, s'.image.recordAt t' ⟨q, σ⟩ = s.fhs.recordAt t' ⟨q, σ⟩) ∧
        ∀ r ∈ s.logMgr.stream, r.lsn ≤ s.fhs.lsnAt t' q → r ∈ s'.logMgr.disk := by
  obtain ⟨page, hp, himage, -, -, -, -, -, -, hlm⟩ := writeBack_eq hstep
  by_cases hcase : t' = t ∧ q = pageNo ∧ pageNo < (s.image.file t).fileHdr.numPages
  · obtain ⟨rfl, rfl, hlt⟩ := hcase
    have hlt' := hlt.trans_le (h.numPages t')
    have hlsn : s.fhs.lsnAt t' q = page.pageLsn := by simp [Fhs.lsnAt, RmFile.lsnAt, hlt', hp]
    refine .inr ⟨?_, fun σ => ?_, fun r hr hle => ?_⟩
    · rw [hlsn, himage]
      simp [Fhs.lsnAt, Fhs.set_file, RmFile.lsnAt, hlt]
    · rw [himage]
      simp [Fhs.recordAt, Fhs.set_file, RmFile.recordAt, hlt, hlt', hq, hp]
    · rw [hlsn] at hle
      rcases hlm with hlm | ⟨hpersist, hlm⟩
      · rw [hlm, LogManager.disk_flushLogToDisk]
        exact hr
      · rw [hlm]
        exact hl.wf.mem_disk hr (hle.trans hpersist)
  · refine .inl ⟨?_, fun σ => ?_⟩
    · rw [himage, Fhs.lsnAt, Fhs.set_file]
      split
      · next ht =>
        subst ht
        by_cases hqp : q = pageNo
        · have hnot : ¬ q < (s.image.file t').fileHdr.numPages := fun hlt => hcase ⟨rfl, hqp, hqp ▸ hlt⟩
          simp [RmFile.lsnAt, Fhs.lsnAt, hnot]
        · simp [RmFile.lsnAt, Fhs.lsnAt, Function.update_of_ne hqp]
      · rfl
    · rw [himage, Fhs.recordAt, Fhs.set_file]
      split
      · next ht =>
        subst ht
        by_cases hqp : q = pageNo
        · have hnot : ¬ q < (s.image.file t').fileHdr.numPages := fun hlt => hcase ⟨rfl, hqp, hqp ▸ hlt⟩
          simp [RmFile.recordAt, Fhs.recordAt, hnot]
        · simp [RmFile.recordAt, Fhs.recordAt, Function.update_of_ne hqp]
      · rfl

theorem LogInv.writeBack (hl : s.LogInv) (hstep : s.writeBack t pageNo = some s') : s'.LogInv := by
  obtain ⟨-, -, -, -, htxns, -, hid, -⟩ := writeBack_eq hstep
  have hf := writeBack_flushes hl hstep
  refine hl.same hf hid fun tid txn htxn => ?_
  rw [htxns] at htxn
  exact (hl.started tid txn htxn).same hf hid Iff.rfl id

theorem LiveInv.writeBack (h : s.LiveInv) (hl : s.LogInv) (hstep : s.writeBack t pageNo = some s') : s'.LiveInv := by
  obtain ⟨-, -, -, hfhs, htxns, hlock, -⟩ := writeBack_eq hstep
  refine h.quiet hl (writeBack_flushes hl hstep) hfhs (fun tid txn htxn hopen => ?_) (fun t tid _ hheld => ?_)
    fun tid txn htxn _ hnone => ?_
  · exact ⟨txn, htxns ▸ htxn, hopen, rfl, id⟩
  · rw [hlock]
    exact hheld
  · rw [htxns, htxn] at hnone
    cases hnone

theorem DiskInv.writeBack (h : s.DiskInv) (hl : s.LogInv) (hv : s.LiveInv) (hstep : s.writeBack t pageNo = some s') :
    s'.DiskInv := by
  obtain ⟨page, -, himage, hfhs, htxns, -⟩ := writeBack_eq hstep
  have hf := writeBack_flushes hl hstep
  have hl' := hl.writeBack hstep
  have htxn : ∀ tid txn', s'.txns tid = some txn' → txn'.phase.IsOpen →
      ∃ txn, s.txns tid = some txn ∧ (txn.phase = .rollingBack → txn'.phase = .rollingBack) :=
    fun tid txn' htxn' _ => ⟨txn', htxns ▸ htxn', id⟩
  have hfile : ∀ t', (s'.image.file t').SameShape (s.image.file t') ∧
      (s'.image.file t').fileHdr.numPages = (s.image.file t').fileHdr.numPages := by
    intro t'
    rw [himage, Fhs.set_file]
    split
    · next ht => exact ht ▸ ⟨⟨rfl, rfl, rfl⟩, rfl⟩
    · exact ⟨⟨rfl, rfl, rfl⟩, rfl⟩
  have hshape : Fhs.SameShape s'.image s.image := ⟨by rw [himage]; rfl, fun t' => (hfile t').1⟩
  refine ⟨(hfhs ▸ h.toSameShape).trans hshape.symm, fun t' ht' => ?_, fun t' => ?_, fun t' q hq => ?_,
    fun r hr t' ρ w htarget hle => ?_, fun t' ht' ρ hρ => ?_⟩
  · rw [himage, Fhs.set_names] at ht'
    rw [himage, Fhs.set_file]
    split
    · next he => exact RmFile.ready_setPage (he ▸ h.ready t' ht') _ _
    · exact h.ready t' ht'
  · rw [(hfile t').2, hfhs]
    exact h.numPages t'
  · rcases h.writeBack_view hl hstep hq with ⟨heq, -⟩ | ⟨heq, -, hdur⟩
    · rw [heq]
      exact (h.lsnFrom t' q hq).imp id fun ⟨r, hr, hlsn⟩ => ⟨r, hf.disk.subset hr, hlsn⟩
    · rw [heq]
      exact (hv.lsnFrom t' q hq).imp id fun ⟨r, hr, hlsn⟩ => ⟨r, hdur r hr hlsn.ge, hlsn⟩
  · rw [hf.stream] at hr
    obtain ⟨-, h1, -⟩ := (hl.valid r hr).valid _ _ _ htarget
    rcases h.writeBack_view hl hstep h1 with ⟨heq, -⟩ | ⟨heq, -, hdur⟩
    · exact hf.disk.subset (h.durable r hr t' ρ w htarget (heq ▸ hle))
    · exact hdur r hr (heq ▸ hle)
  · rw [hfhs] at ht'
    rw [hf.toSameRun.inRange] at hρ
    rcases h.writeBack_view hl hstep hρ.1 with ⟨heq, hrec⟩ | ⟨heq, hrec, -⟩
    · rw [heq, show s'.image.recordAt t' ρ = _ from hrec ρ.slotNo]
      exact (h.slot t' ht' ρ hρ).quiet hl' hf htxn
    · rw [heq, show s'.image.recordAt t' ρ = _ from hrec ρ.slotNo]
      exact (hv.onDisk hl ht' hρ).quiet hl' hf htxn

end writeBack

/-! ## Closing -/

/-- The server after `close_db` has written the log and every file. -/
def flushed (s : Server) : Server :=
  { s with
    logMgr := s.logMgr.flushLogToDisk
    disk := fun t => ⟨(s.fhs.file t).fileHdr, (s.fhs.file t).pages⟩ }

/-- A clean close is a crash with everything on disk. -/
theorem close_eq (s : Server) : s.close = s.flushed.crash 0 := by
  simp [close, crash, restart, durableLog, flushed, image, tag]

theorem flushed_durable (s : Server) : s.flushed.durable 0 = s.history := by
  have htag : s.flushed.tag = s.tag := rfl
  simp only [durable, htag, durableLog, List.take_zero, List.append_nil, history]
  rw [show s.flushed.logMgr.disk = s.logMgr.flushLogToDisk.disk from rfl, LogManager.disk_flushLogToDisk]

section flushed
variable (hl : s.LogInv)
include hl

theorem flushes_flushed : Flushes s s.flushed :=
  .of_flush hl ⟨rfl, rfl, ⟨rfl, fun _ => ⟨rfl, rfl, rfl⟩⟩⟩ rfl

theorem LogInv.flushed : s.flushed.LogInv :=
  hl.same (flushes_flushed hl) rfl fun tid txn htxn =>
    (hl.started tid txn htxn).same (flushes_flushed hl) rfl Iff.rfl id

theorem LiveInv.flushed (h : s.LiveInv) : s.flushed.LiveInv :=
  h.quiet hl (flushes_flushed hl) rfl (fun _ txn htxn hopen => ⟨txn, htxn, hopen, rfl, id⟩) (fun _ _ _ hheld => hheld)
    fun tid txn htxn _ hnone => by cases htxn.symm.trans hnone

theorem LiveInv.diskInv_flushed (hv : s.LiveInv) : s.flushed.DiskInv := by
  have hf := flushes_flushed hl
  have hlsn : ∀ t p, s.flushed.image.lsnAt t p = s.fhs.lsnAt t p := fun _ _ => rfl
  have hdisk : s.flushed.logMgr.disk = s.logMgr.stream := s.logMgr.disk_flushLogToDisk
  refine ⟨⟨rfl, fun t => ⟨(hv.tabName t).symm, rfl, rfl⟩⟩, fun t ht => ?_, fun t => le_rfl, fun t p hp => ?_,
    fun r hr t ρ w htarget hle => ?_, fun t ht ρ hρ => ?_⟩
  · obtain ⟨ps, hinv⟩ := hv.heap t ht
    exact ⟨⟨hinv.perPage, hinv.numPages, hinv.page⟩, rfl⟩
  · rw [hlsn, hdisk]
    exact hv.lsnFrom t p hp
  · rw [hf.stream] at hr
    rwa [hdisk]
  · exact (hv.onDisk hl ht hρ).quiet hl.flushed hf fun tid txn htxn _ => ⟨txn, htxn, id⟩

end flushed

end Server

end Rmdb
