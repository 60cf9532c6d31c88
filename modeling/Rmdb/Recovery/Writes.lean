import Rmdb.Recovery.HeapInvariant

/-!
# Writes and roll-backs

- `Written`: what a write of an executor does to the server, whichever of the three it is;
- `Rolled`: what one turn of the loop in `abort` does;
- both keep the tables in step with the log.
-/

namespace Rmdb

open Lib SlotWrite

theorem memcpy_memcpy (buf : Bytes) (size : Int) : memcpy (memcpy buf size) size = memcpy buf size := by
  rw [memcpy, memcpy, List.take_take, min_self]

/-- What is logged for a write. -/
def writeBody (t : TabName) (ρ : Rid) : SlotWrite Bytes → LogBody
  | .insert v => .insert v ρ t
  | .delete v => .delete v ρ t
  | .update o n => .update o n ρ t

@[simp] theorem writeBody_target (t : TabName) (ρ : Rid) (w : SlotWrite Bytes) :
    (writeBody t ρ w).target = some (t, ρ, w) := by
  cases w <;> rfl

/-! ## One slot of one table -/

/-- `fhs'` is `fhs` with one slot set to `v` and its page stamped with `lsn`. -/
structure Fhs.SlotSet (fhs fhs' : Fhs) (t : TabName) (ρ : Rid) (lsn : Int) (v : Option Bytes) : Prop extends
    Fhs.SameShape fhs fhs' where
  heap : ∀ t', (∃ ps, (fhs.file t').HeapInv ps) → ∃ ps, (fhs'.file t').HeapInv ps
  numPages : ∀ t', (fhs.file t').fileHdr.numPages ≤ (fhs'.file t').fileHdr.numPages
  page : ρ.pageNo < (fhs'.file t).fileHdr.numPages
  recordAt : ∀ t' ρ', fhs'.recordAt t' ρ' = if t' = t ∧ ρ' = ρ then v else fhs.recordAt t' ρ'
  lsnAt : ∀ t' p, 1 ≤ p → fhs'.lsnAt t' p = if t' = t ∧ p = ρ.pageNo then lsn else fhs.lsnAt t' p

section slotSet
variable {fhs fhs' : Fhs} {t t' : TabName} {ρ ρ' : Rid} {lsn : Int} {v : Option Bytes}

theorem Fhs.SlotSet.of_wrote {fh : RmFile} {ps : List Int} (hw : (fhs.file t).Wrote fh ρ lsn v)
    (hinv : fh.HeapInv ps) : fhs.SlotSet (fhs.set t fh) t ρ lsn v where
  names := rfl
  shape t' := by
    by_cases ht : t' = t
    · subst ht
      simpa [Fhs.set_file] using hw.toSameShape
    · simpa [Fhs.set_file, ht] using ⟨rfl, rfl, rfl⟩
  heap t' h := by
    rw [Fhs.set_file]
    split
    · exact ⟨ps, hinv⟩
    · exact h
  numPages t' := by
    rw [Fhs.set_file]
    split
    · next ht =>
      rw [hw.numPages, ht]
      exact le_max_left _ _
    · exact le_rfl
  page := by
    rw [Fhs.set_file, if_pos rfl, hw.numPages]
    omega
  recordAt t' ρ' := by
    by_cases ht : t' = t
    · subst ht
      simp [Fhs.recordAt, Fhs.set_file, hw.recordAt]
    · simp [Fhs.recordAt, Fhs.set_file, ht]
  lsnAt t' p hp := by
    by_cases ht : t' = t
    · subst ht
      simp [Fhs.lsnAt, Fhs.set_file, hw.lsnAt p hp]
    · simp [Fhs.lsnAt, Fhs.set_file, ht]

theorem Fhs.SlotSet.recordAt_of_ne (h : fhs.SlotSet fhs' t ρ lsn v) (hne : ¬ (t' = t ∧ ρ' = ρ)) :
    fhs'.recordAt t' ρ' = fhs.recordAt t' ρ' := by
  rw [h.recordAt, if_neg hne]

/-- Without a new stamp the page keeps its lsn. -/
theorem Fhs.SlotSet.lsnAt_same {p : Int} (h : fhs.SlotSet fhs' t ρ (fhs.lsnAt t ρ.pageNo) v) (hp : 1 ≤ p) :
    fhs'.lsnAt t' p = fhs.lsnAt t' p := by
  rw [h.lsnAt t' p hp]
  split
  · next he => rw [he.1, he.2]
  · rfl

theorem Fhs.SlotSet.recordAt_self (h : fhs.SlotSet fhs' t ρ lsn v) : fhs'.recordAt t ρ = v := by
  rw [h.recordAt, if_pos ⟨rfl, rfl⟩]

end slotSet

/-! ## The three writes -/

namespace RmFile

/-- A write to one slot that was logged under the context's next lsn. -/
structure Logged (f : RmFile) (c : Context) (f' : RmFile) (ctx' : Option Context) (ρ : Rid) (w : SlotWrite Bytes) :
    Prop where
  range : 1 ≤ ρ.pageNo ∧ 0 ≤ ρ.slotNo ∧ ρ.slotNo < f.fileHdr.numRecordsPerPage
  old : f.recordAt ρ = w.old
  fits : Fits f.fileHdr.recordSize w
  ctx : ctx' = appendLog (some c) (writeBody f.tabName ρ w)
  wrote : f.Wrote f' ρ c.logMgr.globalLsn w.new
  heap : ∃ ps, f'.HeapInv ps

variable {f f' : RmFile} {ps : List Int} {ρ : Rid} {buf v : Bytes} {t : TabName} {c : Context}
  {ctx' : Option Context} {wr : WriteRecord}

/-- A slot that `get_record` finds occupied. -/
theorem getRecord_ok (h1 : 1 ≤ ρ.pageNo) (h : f.getRecord ρ = .ok v) :
    ∃ page, f.fetchPageHandle ρ.pageNo = .ok page ∧ page.bitmap.isSet ρ.slotNo = true ∧
      v = memcpy (page.slots ρ.slotNo) f.fileHdr.recordSize ∧ f.recordAt ρ = some (page.slots ρ.slotNo) := by
  unfold getRecord at h
  cases hfetch : f.fetchPageHandle ρ.pageNo with
  | error e => simp [hfetch, bind, Except.bind] at h
  | ok page =>
    simp only [hfetch, bind, Except.bind, throw, throwThe, MonadExceptOf.throw, pure, Except.pure] at h
    split at h
    · next hset =>
      refine ⟨page, rfl, hset, (Except.ok.inj h).symm, ?_⟩
      rw [show f.recordAt ρ = page.record ρ.slotNo from recordAt_of_fetch ρ h1 hfetch ρ.slotNo]
      simp [RmPage.record, hset]
    · cases h

section write
variable (hinv : f.HeapInv ps)
include hinv

theorem insertWrite_spec (h : Server.insertWrite t buf f (some c) = .ok (f', ctx', wr)) :
    ∃ ρ w, (∃ r, f.insertRecord buf (some c) = .ok (ρ, r)) ∧ f.Logged c f' ctx' ρ w ∧ wr = backup t ρ w := by
  obtain ⟨ρ, f₁, ps', hins, hinv'⟩ := hinv.insertRecord buf (some c)
  simp only [Server.insertWrite, hins.eq, bind, Except.bind, pure, Except.pure, Except.ok.injEq, Prod.mk.injEq] at h
  obtain ⟨rfl, rfl, rfl⟩ := h
  obtain ⟨lsn, hw, hlsn⟩ := hins.wrote
  obtain rfl := hlsn c rfl
  refine ⟨ρ, .insert (memcpy buf f.fileHdr.recordSize), ⟨_, hins.eq⟩, ⟨⟨hins.page.1, hins.slot⟩, hins.empty, ?_, rfl, hw, ps', hinv'⟩,
    rfl⟩
  rintro v (hv | hv)
  · cases hv
  · cases hv
    exact memcpy_memcpy _ _

variable (hfit : ∀ v, f.recordAt ρ = some v → memcpy v f.fileHdr.recordSize = v)
  (hr : 1 ≤ ρ.pageNo ∧ 0 ≤ ρ.slotNo ∧ ρ.slotNo < f.fileHdr.numRecordsPerPage)
include hfit hr

theorem deleteWrite_spec (h : Server.deleteWrite t ρ f (some c) = .ok (f', ctx', wr)) :
    ∃ w, f.Logged c f' ctx' ρ w ∧ wr = backup t ρ w := by
  cases hget : f.getRecord ρ with
  | error e => simp [Server.deleteWrite, hget, bind, Except.bind] at h
  | ok v =>
    obtain ⟨page, hfetch, hset, hv, hrec⟩ := getRecord_ok hr.1 hget
    obtain ⟨f₁, heq, hw⟩ := deleteRecord_wrote ρ hr.1 hfetch (some c) hset
    obtain ⟨ps', hinv'⟩ := hinv.deleteRecord hr.1 hr.2 heq
    simp only [Server.deleteWrite, hget, heq, bind, Except.bind, pure, Except.pure, Except.ok.injEq,
      Prod.mk.injEq] at h
    obtain ⟨rfl, rfl, rfl⟩ := h
    have hsame : v = page.slots ρ.slotNo := hv.trans (hfit _ hrec)
    refine ⟨.delete v, ⟨hr, by rw [hrec, hsame]; rfl, ?_, by rw [← hv]; rfl, hw, ps', hinv'⟩, rfl⟩
    rintro v' (hv' | hv')
    · cases hv'
      rw [hv, memcpy_memcpy]
    · cases hv'

theorem updateWrite_spec (h : Server.updateWrite t ρ buf f (some c) = .ok (f', ctx', wr)) :
    ∃ w, f.Logged c f' ctx' ρ w ∧ wr = backup t ρ w := by
  cases hget : f.getRecord ρ with
  | error e => simp [Server.updateWrite, hget, bind, Except.bind] at h
  | ok v =>
    obtain ⟨page, hfetch, hset, hv, hrec⟩ := getRecord_ok hr.1 hget
    obtain ⟨f₁, heq, hw⟩ := updateRecord_wrote ρ hr.1 hfetch buf (some c) hset
    have hinv' := hinv.updateRecord hr.1 heq
    simp only [Server.updateWrite, hget, heq, bind, Except.bind, pure, Except.pure, Except.ok.injEq,
      Prod.mk.injEq] at h
    obtain ⟨rfl, rfl, rfl⟩ := h
    have hsame : v = page.slots ρ.slotNo := hv.trans (hfit _ hrec)
    refine ⟨.update v (memcpy buf f.fileHdr.recordSize), ⟨hr, by rw [hrec, hsame]; rfl, ?_, by rw [← hv]; rfl, hw, ps,
      hinv'⟩, rfl⟩
    rintro v' (hv' | hv')
    · cases hv'
      rw [hv, memcpy_memcpy]
    · cases hv'
      exact memcpy_memcpy _ _

end write

end RmFile

/-! ## Steps of the server -/

namespace Server

variable {s s' : Server} {tid prevLsn : Int} {txn : Transaction} {t : TabName} {ρ : Rid} {w : SlotWrite Bytes}
  {ws : List WriteRecord} {op : HeapWrite}

/-- A write by a transaction that holds the X lock of the table. -/
structure Written (s : Server) (tid : Int) (txn : Transaction) (t : TabName) (ρ : Rid) (w : SlotWrite Bytes)
    (s' : Server) : Prop where
  running : s.txns tid = some txn
  growing : txn.phase = .growing
  name : t ∈ s.fhs.names
  lock : s.xLock t = some tid
  range : s.InRange t ρ
  old : s.fhs.recordAt t ρ = w.old
  fits : Fits (s.fhs.file t).fileHdr.recordSize w
  logMgr : s'.logMgr = (s.logMgr.addLogToBuffer tid txn.prevLsn (writeBody t ρ w)).2
  slot : s.fhs.SlotSet s'.fhs t ρ s.logMgr.globalLsn w.new
  rest : s' = { s with logMgr := s'.logMgr, fhs := s'.fhs }.setTxn tid
    ⟨s.logMgr.globalLsn, backup t ρ w :: txn.writeSet, .growing⟩

/-- One turn of the loop in `abort`, which takes back the last write of the transaction. -/
structure Rolled (s : Server) (tid prevLsn : Int) (ws : List WriteRecord) (t : TabName) (ρ : Rid)
    (w : SlotWrite Bytes) (s' : Server) : Prop where
  running : s.txns tid = some ⟨prevLsn, backup t ρ w :: ws, .rollingBack⟩
  last : ∃ done undone, s.SlotState tid ⟨prevLsn, backup t ρ w :: ws, .rollingBack⟩ t ρ (done ++ [w]) undone ∧
    w.old = final (base s.history t ρ) done
  slot : s.fhs.SlotSet s'.fhs t ρ (s.fhs.lsnAt t ρ.pageNo) w.old
  rest : s' = { s with fhs := s'.fhs }.setTxn tid ⟨prevLsn, ws, .rollingBack⟩

theorem Written.appends (h : Written s tid txn t ρ w s') (hl : s.LogInv) :
    Appends s s' ⟨s.logMgr.globalLsn, tid, txn.prevLsn, writeBody t ρ w⟩ := by
  refine .of_addLog hl ⟨?_, ?_, h.slot.toSameShape⟩ h.logMgr
  · rw [h.rest]
    rfl
  · rw [h.rest]
    rfl

theorem write_written {p : Rid → Prop}
    (hspec : t ∈ s.fhs.names → ∀ c f' ctx' wr, op (s.fhs.file t) (some c) = .ok (f', ctx', wr) →
      ∃ ρ w, p ρ ∧ (s.fhs.file t).Logged c f' ctx' ρ w ∧ wr = backup t ρ w)
    (hname : ∀ t, (s.fhs.file t).tabName = t) (h : s.write tid t op = some s') :
    ∃ txn ρ w, p ρ ∧ Written s tid txn t ρ w s' := by
  cases htxn : s.txns tid with
  | none => simp [write, htxn] at h
  | some txn =>
    simp only [write, htxn] at h
    split at h
    · next hcond =>
      obtain ⟨hgrow, ht, hlock⟩ := hcond
      split at h
      · next f' c' wr hop =>
        obtain ⟨ρ, w, hp, hlog, rfl⟩ := hspec ht _ _ _ _ hop
        obtain ⟨ps, hinv⟩ := hlog.heap
        have hctx := hlog.ctx
        rw [hname t] at hctx
        simp only [appendLog, Option.map_some, Option.some.injEq] at hctx
        subst hctx
        obtain rfl := Option.some.inj h
        exact ⟨txn, ρ, w, hp, htxn, hgrow, ht, hlock, hlog.range, hlog.old, hlog.fits, rfl, .of_wrote hlog.wrote hinv,
          by rw [hgrow]; rfl⟩
      · cases h
    · cases h

/-- The pending writes to a slot of a locked table are those of the transaction that holds the lock, if their owner is
running. -/
theorem LiveInv.owner (h : s.LiveInv) (hl : s.LogInv) (hlock : s.xLock t = some tid)
    (hrun : ∀ o ∈ pend s.history t ρ, s.live o.1 ≠ none) : ∀ o ∈ pend s.history t ρ, o.1 = (s.epoch, tid) := by
  rcases hl.pend_cases t ρ with hall | ⟨tid', txn, htxn, hopen, hne, howner, hown⟩
  · exact fun o ho => absurd (hall o ho) (hrun o ho)
  · obtain ⟨done, undone, hs⟩ := h.slot tid' txn htxn hopen t ρ
    have hheld := (hs.held (by rw [← hs.own, hown]; simpa using hne)).1
    obtain rfl : tid = tid' := Option.some.inj (hlock.symm.trans hheld)
    exact howner

theorem LogInv.write (h : s.LogInv) (hlive : s.LiveInv) (hw : Written s tid txn t ρ w s')
    (hone : ∀ o ∈ pend s.history t ρ, o.1 = (s.epoch, tid)) : s'.LogInv := by
  have ha := hw.appends h
  have hstart := h.started tid txn hw.running
  have hnext : s'.nextTxnId = s.nextTxnId := by rw [hw.rest]; rfl
  have hopen : txn.phase.IsOpen := by simp [Phase.IsOpen, hw.growing]
  have hfinal : w.old = final none (slotLog s.logMgr.stream t ρ) := by
    rw [← hw.old]
    refine hlive.recordAt_eq_final h hw.name hw.range fun o ho => ⟨txn, ?_, by simp [hw.growing]⟩
    rw [hone o ho, live, if_pos rfl, hw.running]
  refine h.concat ha ⟨fun t' ρ' w' ht' => ?_⟩ (fun _ => hstart.positive) (fun t' ρ' w' ht' => ?_) ?_
    ⟨hnext.ge, hnext ▸ hstart.id⟩ (fun _ => hstart.begun) (hstart.unended hw.growing) fun tid' txn' htxn' => ?_
  · simp only [writeBody_target, Option.some.injEq, Prod.mk.injEq] at ht'
    obtain ⟨rfl, rfl, rfl⟩ := ht'
    exact ⟨hw.name, hw.range.1, hw.range.2, hw.fits⟩
  · simp only [writeBody_target, Option.some.injEq, Prod.mk.injEq] at ht'
    obtain ⟨rfl, rfl, rfl⟩ := ht'
    exact hfinal
  · exact h.ordered.concat_write (x := (s.epoch, _)) (writeBody_target t ρ w) ((h.open_iff hw.running).1 hopen) hone
  · have hbody : writeBody t ρ w ≠ .commit := by cases w <;> simp [writeBody]
    have hend : ¬ Ends (s.epoch, ⟨s.logMgr.globalLsn, tid, txn.prevLsn, writeBody t ρ w⟩) := by
      cases w <;> simp [Ends, writeBody]
    rw [hw.rest] at htxn'
    by_cases htid : tid' = tid
    · subst htid
      simp only [setTxn, Function.update_self, Option.some.injEq] at htxn'
      exact hstart.concat h ha hnext.ge (by simp [← htxn', hw.growing, hbody]) fun _ => ⟨hw.growing, fun _ => hend⟩
    · simp only [setTxn, Function.update_of_ne htid] at htxn'
      exact (h.started tid' txn' htxn').concat h ha hnext.ge (by simp [hbody]) fun hg => ⟨hg, fun _ => hend⟩

/-- The slots that a step does not write are as they were. -/
theorem SlotState.frame {done undone : List (SlotWrite Bytes)} {t' : TabName} {ρ' : Rid} {lsn : Int} {txn' : Transaction}
    {v : Option Bytes}
    (h : s.SlotState tid txn t' ρ' done undone) (hslot : s.fhs.SlotSet s'.fhs t ρ lsn v) (hne : ¬ (t' = t ∧ ρ' = ρ))
    (hown : s'.own tid t' ρ' = s.own tid t' ρ') (hbase : base s'.history t' ρ' = base s.history t' ρ')
    (hws : txn'.writeSet.filter (·.on t' ρ') = txn.writeSet.filter (·.on t' ρ')) (hphase : txn'.phase = txn.phase)
    (hlock : s'.xLock = s.xLock) : s'.SlotState tid txn' t' ρ' done undone where
  own := hown.trans h.own
  writeSet := hws.trans h.writeSet
  back hne := hphase.trans (h.back hne)
  held hd := by
    rw [hlock, hslot.recordAt_of_ne hne, hbase]
    exact h.held hd

section written
variable (hw : Written s tid txn t ρ w s')
include hw

theorem Written.isOpen : txn.phase.IsOpen := by simp [Phase.IsOpen, hw.growing]

theorem Written.xLock : s'.xLock = s.xLock := by
  rw [hw.rest]
  rfl

theorem Written.txns : s'.txns = Function.update s.txns tid
    (some ⟨s.logMgr.globalLsn, backup t ρ w :: txn.writeSet, .growing⟩) := by
  rw [hw.rest]
  rfl

/-- A transaction before the write; only the writer's write set has changed. -/
theorem Written.txn_of {tid' : Int} {txn' : Transaction} (h : s'.txns tid' = some txn') :
    ∃ txn₀, s.txns tid' = some txn₀ ∧ txn'.phase = txn₀.phase ∧
      txn'.writeSet = if tid' = tid then backup t ρ w :: txn₀.writeSet else txn₀.writeSet := by
  rw [hw.txns] at h
  by_cases htid : tid' = tid
  · subst htid
    simp only [Function.update_self, Option.some.injEq] at h
    exact ⟨txn, hw.running, by rw [← h, hw.growing], by simp [← h]⟩
  · rw [Function.update_of_ne htid] at h
    exact ⟨txn', h, rfl, by simp [htid]⟩

variable (hl : s.LogInv)
include hl

theorem Written.live_none (i : Instance) : s'.live i = none ↔ s.live i = none := by
  simp only [live, (hw.appends hl).epoch, hw.txns]
  split
  · by_cases hi : i.2 = tid
    · simp [hi, hw.running]
    · simp [Function.update_of_ne hi]
  · rfl

theorem Written.pend_self : pend s'.history t ρ = pend s.history t ρ ++ [((s.epoch, tid), w)] ∧
    base s'.history t ρ = base s.history t ρ := by
  rw [(hw.appends hl).history hl]
  exact pend_concat_write (x := (s.epoch, _)) (writeBody_target t ρ w) ((hl.open_iff hw.running).1 hw.isOpen)

theorem Written.pend_of_ne {t' : TabName} {ρ' : Rid} (hne : ¬ (t' = t ∧ ρ' = ρ)) :
    pend s'.history t' ρ' = pend s.history t' ρ' ∧ base s'.history t' ρ' = base s.history t' ρ' := by
  rw [(hw.appends hl).history hl]
  refine pend_concat_of_none (LogBody.writeOn_eq_none (writeBody_target t ρ w) fun he => hne ⟨he.1.symm, he.2.symm⟩) ?_
  exact target_ne_commit (x := (s.epoch, _)) (writeBody_target t ρ w)

theorem Written.mem_stream {r : LogRecord} {t' : TabName} {ρ' : Rid} {w' : SlotWrite Bytes}
    (hr : r ∈ s'.logMgr.stream) (ht : r.body.target = some (t', ρ', w')) :
    r ∈ s.logMgr.stream ∨ (t' = t ∧ ρ' = ρ) ∧ r.lsn = s.logMgr.globalLsn := by
  rw [(hw.appends hl).stream] at hr
  rcases List.mem_append.1 hr with hr | hr
  · exact .inl hr
  · rw [List.mem_singleton.1 hr] at ht ⊢
    simp only [writeBody_target, Option.some.injEq, Prod.mk.injEq] at ht
    exact .inr ⟨⟨ht.1.symm, ht.2.1.symm⟩, rfl⟩

variable (h : s.LiveInv) (hone : ∀ o ∈ pend s.history t ρ, o.1 = (s.epoch, tid))
include h hone

/-- Every slot is still as the transactions' write sets say. -/
theorem Written.slotState {tid' : Int} {txn' : Transaction} (htxn' : s'.txns tid' = some txn')
    (hopen' : txn'.phase.IsOpen) (t' : TabName) (ρ' : Rid) :
    ∃ done undone, s'.SlotState tid' txn' t' ρ' done undone := by
  have hepoch := (hw.appends hl).epoch
  obtain ⟨txn₀, htxn₀, hphase, hws⟩ := hw.txn_of htxn'
  obtain ⟨done, undone, hs⟩ := h.slot tid' txn₀ htxn₀ (hphase ▸ hopen') t' ρ'
  by_cases hcase : t' = t ∧ ρ' = ρ
  · obtain ⟨rfl, rfl⟩ := hcase
    obtain ⟨hpend, -⟩ := hw.pend_self hl
    by_cases htid : tid' = tid
    · subst htid
      obtain rfl : txn = txn₀ := Option.some.inj (hw.running.symm.trans htxn₀)
      obtain rfl : undone = [] := by
        by_contra hne
        have := hs.back hne
        simp [hw.growing] at this
      refine ⟨done ++ [w], [], ?_, ?_, by simp, fun _ => ⟨hw.xLock ▸ hw.lock, ?_⟩⟩
      · have hold := hs.own
        rw [own] at hold
        simp [own, hpend, hepoch, hold]
      · rw [hws, if_pos rfl]
        simp [hs.writeSet]
      · rw [hw.slot.recordAt_self, final_concat]
    · -- another transaction has no writes to the slot
      have hnone : s.own tid' t' ρ' = [] := own_eq_nil fun o ho => by
        rw [hone o ho]
        simp [Ne.symm htid]
      have hnone' : s'.own tid' t' ρ' = [] := own_eq_nil fun o ho => by
        rw [hpend, List.mem_append, List.mem_singleton] at ho
        rw [hepoch]
        rcases ho with ho | rfl
        · rw [hone o ho]
          simp [Ne.symm htid]
        · simp [Ne.symm htid]
      obtain ⟨rfl, rfl⟩ := List.append_eq_nil_iff.1 (hs.own.symm.trans hnone)
      refine ⟨[], [], by simpa using hnone', ?_, by simp, by simp⟩
      rw [hws, if_neg htid]
      exact hs.writeSet
  · obtain ⟨hpend, hbase⟩ := hw.pend_of_ne hl hcase
    refine ⟨done, undone, hs.frame hw.slot hcase ?_ hbase ?_ hphase hw.xLock⟩
    · simp only [own, hpend, hepoch]
    · rw [hws]
      split
      · rw [List.filter_cons_of_neg]
        simp only [backup_on, Bool.and_eq_true, beq_iff_eq]
        exact fun he => hcase ⟨he.1.symm, he.2.symm⟩
      · rfl

theorem LiveInv.write : s'.LiveInv where
  tabName t' := (hw.slot.shape t').tabName.trans (h.tabName t')
  heap t' ht' := by
    rw [hw.slot.names] at ht'
    exact hw.slot.heap t' (h.heap t' ht')
  pages r hr t' ρ' w' ht' := by
    rcases hw.mem_stream hl hr ht' with hr | ⟨⟨rfl, rfl⟩, -⟩
    · exact (h.pages r hr t' ρ' w' ht').trans_le (hw.slot.numPages t')
    · exact hw.slot.page
  lsnDone r hr t' ρ' w' ht' := by
    rcases hw.mem_stream hl hr ht' with hr | ⟨⟨rfl, rfl⟩, hlsn⟩
    · obtain ⟨-, h1, -⟩ := (hl.valid r hr).valid _ _ _ ht'
      rw [hw.slot.lsnAt _ _ h1]
      split
      · exact (hl.wf.below r hr).le
      · exact h.lsnDone r hr t' ρ' w' ht'
    · rw [hw.slot.lsnAt _ _ hw.range.1, if_pos ⟨rfl, rfl⟩, hlsn]
  lsnFrom t' p hp := by
    rw [hw.slot.lsnAt _ _ hp, (hw.appends hl).stream]
    split
    · exact .inr ⟨_, List.mem_append_right _ (List.mem_singleton_self _), rfl⟩
    · exact (h.lsnFrom t' p hp).imp id fun ⟨r, hr, heq⟩ => ⟨r, by simp [hr], heq⟩
  slot tid' txn' htxn' hopen' t' ρ' := hw.slotState hl h hone htxn' hopen' t' ρ'
  idle t' ht' ρ' hρ' hidle := by
    rw [hw.slot.names] at ht'
    rw [(hw.appends hl).toSameRun.inRange] at hρ'
    by_cases hcase : t' = t ∧ ρ' = ρ
    · obtain ⟨rfl, rfl⟩ := hcase
      have := (hw.live_none hl _).1 (hidle ((s.epoch, tid), w) (by simp [hw.pend_self hl]))
      simp [live, hw.running] at this
    · obtain ⟨hpend, hbase⟩ := hw.pend_of_ne hl hcase
      rw [hw.slot.recordAt_of_ne hcase, hbase]
      exact h.idle t' ht' ρ' hρ' fun o ho => (hw.live_none hl _).1 (hidle o (hpend ▸ ho))

end written

/-- The write that a roll-back takes back next is the last one in its slot that is still there. -/
theorem LiveInv.last_write (h : s.LiveInv) (hl : s.LogInv) {wr : WriteRecord}
    (hrun : s.txns tid = some ⟨prevLsn, wr :: ws, .rollingBack⟩) : ∃ t ρ w done undone, wr = backup t ρ w ∧
      s.SlotState tid ⟨prevLsn, backup t ρ w :: ws, .rollingBack⟩ t ρ (done ++ [w]) undone ∧
      w.old = final (base s.history t ρ) done ∧ s.fhs.recordAt t ρ = w.new ∧
      ∃ r ∈ s.logMgr.stream, r.body.target = some (t, ρ, w) := by
  obtain ⟨t, ρ, hon⟩ : ∃ t ρ, wr.on t ρ = true := by
    cases wr with
    | insertTuple t ρ | deleteTuple t ρ v | updateTuple t ρ v => exact ⟨t, ρ, by simp [WriteRecord.on]⟩
  obtain ⟨done, undone, hs⟩ := h.slot tid _ hrun (by simp [Phase.IsOpen]) t ρ
  have hws := hs.writeSet
  rw [List.filter_cons_of_pos hon] at hws
  rcases List.eq_nil_or_concat done with rfl | ⟨done, w, rfl⟩
  · simp at hws
  rw [List.concat_eq_append] at hs hws
  rw [List.map_append, List.map_singleton, List.reverse_append, List.reverse_singleton, List.singleton_append,
    List.cons.injEq] at hws
  obtain ⟨rfl, -⟩ := hws
  have hne : done ++ [w] ++ undone ≠ [] := by simp
  -- its writes to the slot are all that is pending there
  obtain ⟨o, ho, rfl⟩ : ∃ o ∈ (pend s.history t ρ).filter (·.1 == (s.epoch, tid)), o.2 = w := by
    have hw : w ∈ s.own tid t ρ := by simp [hs.own]
    simpa [own] using hw
  simp only [List.mem_filter, beq_iff_eq] at ho
  have hown := hl.own_eq ho.1 ho.2
  have hlink := hl.ordered.linked_pend (hl.history_map_snd ▸ hl.linked t ρ)
  rw [← hown, hs.own, linked_append, linked_concat] at hlink
  obtain ⟨x, hx, htarget, -⟩ := mem_tagLog.1 (mem_pending.1 ho.1).1
  exact ⟨t, ρ, o.2, done, undone, rfl, hs, hlink.1.2, by rw [(hs.held hne).2, final_concat], x.2, hl.mem_stream hx,
    htarget⟩

/-- A roll-back of a delete that would make a page on the free-page chain full. -/
def Refills (s : Server) (tid : Int) : Prop :=
  ∃ prevLsn t ρ v ws, s.txns tid = some ⟨prevLsn, .deleteTuple t ρ v :: ws, .rollingBack⟩ ∧
    (s.fhs.file t).Refills (.insertAt ρ v)

theorem LiveInv.rolled (h : s.LiveInv) (hl : s.LogInv) (hno : ¬ s.Refills tid)
    (hstep : s.step (.rollback tid) = some s') : ∃ prevLsn ws t ρ w, Rolled s tid prevLsn ws t ρ w s' := by
  simp only [step] at hstep
  split at hstep
  · next prevLsn wr ws hrun =>
    obtain ⟨t, ρ, w, done, undone, rfl, hs, hold, hnew, r, hr, htarget⟩ := h.last_write hl hrun
    obtain ⟨ht, h1, hslot, hfits⟩ := (hl.valid r hr).valid _ _ _ htarget
    obtain ⟨ps, hinv⟩ := h.heap t ht
    have hlt := h.pages r hr t ρ w htarget
    obtain ⟨page, hp, hfetch, hlsn, hrec⟩ := hinv.toReady.fetch h1 hlt
    have hset : page.bitmap.isSet ρ.slotNo = w.new.isSome := by
      have : page.record ρ.slotNo = w.new := (hrec ρ.slotNo).trans hnew
      rw [← this, RmPage.record]
      cases page.bitmap.isSet ρ.slotNo <;> rfl
    suffices hroll : ∃ fh ps, rollbackRecord s.fhs (backup t ρ w) = .ok (s.fhs.set t fh) ∧
        (s.fhs.file t).Wrote fh ρ (s.fhs.lsnAt t ρ.pageNo) w.old ∧ fh.HeapInv ps by
      obtain ⟨fh, ps, heq, hw, hinv'⟩ := hroll
      rw [heq] at hstep
      obtain rfl := Option.some.inj hstep
      exact ⟨prevLsn, ws, t, ρ, w, hrun, ⟨done, undone, hs, hold⟩, .of_wrote hw hinv', rfl⟩
    rw [show s.fhs.lsnAt t ρ.pageNo = page.pageLsn from hlsn.symm]
    cases w with
    | insert v =>
      obtain ⟨fh, heq, hw⟩ := RmFile.deleteRecord_wrote ρ h1 hfetch none hset
      obtain ⟨ps', hinv'⟩ := hinv.deleteRecord h1 hslot heq
      refine ⟨fh, ps', ?_, hw, hinv'⟩
      simp [backup, rollbackRecord, RmFile.getRecord, hfetch, show page.bitmap.isSet ρ.slotNo = true from hset, heq,
        bind, Except.bind, pure, Except.pure]
    | delete v =>
      obtain ⟨fh, heq, hw⟩ := RmFile.insertRecordAt_wrote ρ h1 hfetch v hset
      rw [hfits v (.inl rfl)] at hw
      have hinv' := hinv.insertRecordAt h1 hslot heq fun hmem page' hp' hclear => by
        have hlt' := hinv.notFull _ hmem page' hp'
        have hne : page'.numRecords + 1 ≠ (s.fhs.file t).fileHdr.numRecordsPerPage := fun hfull =>
          hno ⟨prevLsn, t, ρ, v, ws, hrun, ⟨ps, hinv.chain, hmem⟩, hnew, page', hp', hfull⟩
        omega
      exact ⟨fh, ps, by simp [backup, rollbackRecord, heq, bind, Except.bind, pure, Except.pure], hw, hinv'⟩
    | update o n =>
      obtain ⟨fh, heq, hw⟩ := RmFile.updateRecord_wrote ρ h1 hfetch o none hset
      rw [hfits o (.inl rfl)] at hw
      refine ⟨fh, ps, ?_, hw, hinv.updateRecord h1 heq⟩
      simp [backup, rollbackRecord, RmFile.getRecord, hfetch, show page.bitmap.isSet ρ.slotNo = true from hset, heq,
        bind, Except.bind, pure, Except.pure]
  · cases hstep

section rolled
variable (hr : Rolled s tid prevLsn ws t ρ w s') (hl : s.LogInv)
include hr

theorem Rolled.txns : s'.txns = Function.update s.txns tid (some ⟨prevLsn, ws, .rollingBack⟩) := by
  rw [hr.rest]
  rfl

theorem Rolled.xLock : s'.xLock = s.xLock := by
  rw [hr.rest]
  rfl

/-- A transaction before the roll-back. -/
theorem Rolled.txn_of {tid' : Int} {txn' : Transaction} (h : s'.txns tid' = some txn') :
    ∃ txn₀, s.txns tid' = some txn₀ ∧ txn'.phase = txn₀.phase ∧
      txn₀.writeSet = if tid' = tid then backup t ρ w :: txn'.writeSet else txn'.writeSet := by
  rw [hr.txns] at h
  by_cases htid : tid' = tid
  · subst htid
    simp only [Function.update_self, Option.some.injEq] at h
    exact ⟨_, hr.running, by simp [← h], by simp [← h]⟩
  · rw [Function.update_of_ne htid] at h
    exact ⟨txn', h, rfl, by simp [htid]⟩

include hl

theorem Rolled.flushes : Flushes s s' := by
  refine .of_eq hl ⟨?_, ?_, hr.slot.toSameShape⟩ ?_
  · rw [hr.rest]
    rfl
  · rw [hr.rest]
    rfl
  · rw [hr.rest]
    rfl

theorem LogInv.rollback : s'.LogInv := by
  refine hl.same (hr.flushes hl) (by rw [hr.rest]; rfl) fun tid' txn' htxn' => ?_
  obtain ⟨txn₀, htxn₀, hphase, -⟩ := hr.txn_of htxn'
  exact (hl.started tid' txn₀ htxn₀).same (hr.flushes hl) (by rw [hr.rest]; rfl) (by rw [hphase])
    fun hg => hphase ▸ hg

/-- All that is pending in the slot is the transaction's. -/
theorem Rolled.owner : pend s.history t ρ ≠ [] ∧ ∀ o ∈ pend s.history t ρ, o.1 = (s.epoch, tid) := by
  obtain ⟨done, undone, hs, -⟩ := hr.last
  obtain ⟨o, ho, -⟩ : ∃ o ∈ (pend s.history t ρ).filter (·.1 == (s.epoch, tid)), o.2 = w := by
    have hw : w ∈ s.own tid t ρ := by simp [hs.own]
    simpa [own] using hw
  simp only [List.mem_filter, beq_iff_eq] at ho
  exact ⟨List.ne_nil_of_mem ho.1, fun x hx => by rw [← ho.2, (hl.ordered.self t ρ).one x hx o ho.1]⟩

theorem Rolled.slotState (h : s.LiveInv) {tid' : Int} {txn' : Transaction} (htxn' : s'.txns tid' = some txn')
    (hopen' : txn'.phase.IsOpen) (t' : TabName) (ρ' : Rid) :
    ∃ done undone, s'.SlotState tid' txn' t' ρ' done undone := by
  have hf := hr.flushes hl
  have hown : ∀ {tid t ρ}, s'.own tid t ρ = s.own tid t ρ := own_congr hf.history hf.epoch
  obtain ⟨txn₀, htxn₀, hphase, hws⟩ := hr.txn_of htxn'
  by_cases hcase : t' = t ∧ ρ' = ρ
  · obtain ⟨rfl, rfl⟩ := hcase
    by_cases htid : tid' = tid
    · subst htid
      obtain ⟨done, undone, hs, hold⟩ := hr.last
      obtain rfl := Option.some.inj (hr.running.symm.trans htxn₀)
      refine ⟨done, w :: undone, by rw [hown, hs.own]; simp, ?_, fun _ => hphase,
        fun _ => ⟨hr.xLock ▸ (hs.held (by simp)).1, ?_⟩⟩
      · have hwrites := hs.writeSet
        rw [hws, if_pos rfl] at hwrites
        simpa using hwrites
      · rw [hr.slot.recordAt_self, hf.history, hold]
    · -- another transaction has no writes to the slot
      obtain ⟨done, undone, hs⟩ := h.slot tid' txn₀ htxn₀ (hphase ▸ hopen') t' ρ'
      have hnone : s.own tid' t' ρ' = [] := own_eq_nil fun o ho => by
        rw [(hr.owner hl).2 o ho]
        simp [Ne.symm htid]
      obtain ⟨rfl, rfl⟩ := List.append_eq_nil_iff.1 (hs.own.symm.trans hnone)
      refine ⟨[], [], by simpa [hown] using hnone, ?_, by simp, by simp⟩
      rw [if_neg htid] at hws
      exact hws ▸ hs.writeSet
  · obtain ⟨done, undone, hs⟩ := h.slot tid' txn₀ htxn₀ (hphase ▸ hopen') t' ρ'
    refine ⟨done, undone, hs.frame hr.slot hcase hown (by rw [hf.history]) ?_ hphase hr.xLock⟩
    rw [hws]
    split
    · rw [List.filter_cons_of_neg]
      simp only [backup_on, Bool.and_eq_true, beq_iff_eq]
      exact fun he => hcase ⟨he.1.symm, he.2.symm⟩
    · rfl

theorem LiveInv.rollback (h : s.LiveInv) : s'.LiveInv where
  tabName t' := (hr.slot.shape t').tabName.trans (h.tabName t')
  heap t' ht' := by
    rw [hr.slot.names] at ht'
    exact hr.slot.heap t' (h.heap t' ht')
  pages r hmem t' ρ' w' ht' := by
    rw [(hr.flushes hl).stream] at hmem
    exact (h.pages r hmem t' ρ' w' ht').trans_le (hr.slot.numPages t')
  lsnDone r hmem t' ρ' w' ht' := by
    rw [(hr.flushes hl).stream] at hmem
    obtain ⟨-, h1, -⟩ := (hl.valid r hmem).valid _ _ _ ht'
    rw [hr.slot.lsnAt_same h1]
    exact h.lsnDone r hmem t' ρ' w' ht'
  lsnFrom t' p hp := by
    rw [hr.slot.lsnAt_same hp, (hr.flushes hl).stream]
    exact h.lsnFrom t' p hp
  slot tid' txn' htxn' hopen' t' ρ' := hr.slotState hl h htxn' hopen' t' ρ'
  idle t' ht' ρ' hρ' hidle := by
    have hf := hr.flushes hl
    rw [hr.slot.names] at ht'
    rw [hf.toSameRun.inRange] at hρ'
    rw [hf.history] at hidle ⊢
    have hlive : ∀ i, s'.live i = none → s.live i = none := by
      intro i
      simp only [live, hf.epoch, hr.txns]
      split
      · by_cases hi : i.2 = tid
        · simp [hi]
        · simp [Function.update_of_ne hi]
      · simp
    by_cases hcase : t' = t ∧ ρ' = ρ
    · obtain ⟨rfl, rfl⟩ := hcase
      obtain ⟨hne, howner⟩ := hr.owner hl
      obtain ⟨o, ho⟩ := List.exists_mem_of_ne_nil _ hne
      have := hlive _ (hidle o ho)
      simp [howner o ho, live, hr.running] at this
    · rw [hr.slot.recordAt_of_ne hcase]
      exact h.idle t' ht' ρ' hρ' fun o ho => hlive _ (hidle o ho)

end rolled

end Server

end Rmdb
