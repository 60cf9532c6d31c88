import Rmdb.Recovery.Restart

/-!
# Durability

- `StepOk`: the steps that the design of recovery can take back: no write to a slot that a transaction left without a
  COMMIT and without being there any more, no roll-back of a delete into a page on the free-page chain, no restart
  while a committed writer shares its id with a loser;
- `Sound.step` and `Sound.run`: along such steps the invariant holds;
- what recovery leaves in the tables follows for one incarnation and for any number of restarts.
-/

namespace Rmdb

open Lib SlotWrite

namespace Server

variable {s s' : Server} {t : TabName} {ρ : Rid} {tid : Int} {txn txn' : Transaction}
  {fhs₀ : Fhs}

/-! ## Steps -/

/-- Every transaction that wrote to the slot has committed or is still running. -/
def NoLosers (s : Server) (t : TabName) (ρ : Rid) : Prop :=
  ∀ x ∈ s.history, x.2.body.writeOn t ρ ≠ none → committed s.history (inst x) = true ∨ s.live (inst x) ≠ none

/-- What a step must not do. -/
def StepOk (s : Server) : Action → Prop
  | .insert _ t buf => ∀ ctx ρ r, (s.fhs.file t).insertRecord buf ctx = .ok (ρ, r) → s.NoLosers t ρ
  | .delete _ t ρ | .update _ t ρ _ => s.NoLosers t ρ
  | .rollback tid => ¬ s.Refills tid
  | .crash k => IdsOk (s.durable k)
  | .close => IdsOk s.history
  | _ => True

theorem NoLosers.live_of_pend (h : s.NoLosers t ρ) : ∀ o ∈ pend s.history t ρ, s.live o.1 ≠ none := by
  intro o ho
  obtain ⟨hmem, hc⟩ := mem_pending.1 ho
  obtain ⟨x, hx, htarget, hi⟩ := mem_tagLog.1 hmem
  rcases h x hx (by simp [LogBody.writeOn_of_target htarget]) with hcomm | hlive
  · rw [hi, hc] at hcomm
    cases hcomm
  · rwa [hi] at hlive

/-- A transaction goes on without writing, and does not leave a roll-back. -/
structure Moves (txn txn' : Transaction) : Prop where
  writeSet : txn'.writeSet = txn.writeSet
  isOpen : txn'.phase.IsOpen ↔ txn.phase.IsOpen
  growing : txn'.phase = .growing → txn.phase = .growing
  back : txn.phase = .rollingBack → txn'.phase = .rollingBack

theorem Moves.refl (txn : Transaction) : Moves txn txn := ⟨rfl, Iff.rfl, id, id⟩

/-- Steps that only move transactions, flush the log, take locks, or end a transaction that has nothing to take back. -/
theorem Sound.quiet (h : s.Sound fhs₀) (hf : Flushes s s') (hfhs : s'.fhs = s.fhs) (hdisk : s'.disk = s.disk)
    (hid : s'.nextTxnId = s.nextTxnId)
    (htxn : ∀ tid txn', s'.txns tid = some txn' → ∃ txn, s.txns tid = some txn ∧ Moves txn txn')
    (hlock : ∀ t tid, s'.txns tid ≠ none → s.xLock t = some tid → s'.xLock t = some tid)
    (hgone : ∀ tid txn, s.txns tid = some txn → txn.phase.IsOpen → s'.txns tid = none → txn.writeSet = []) :
    s'.Sound fhs₀ := by
  have hlog : s'.LogInv := h.log.same hf hid fun tid txn' htxn' => by
    obtain ⟨txn, hrun, hm⟩ := htxn tid txn' htxn'
    exact (h.log.started tid txn hrun).same hf hid hm.isOpen hm.growing
  refine ⟨h.shape.trans hf.shape, hlog, h.live.quiet h.log hf hfhs (fun tid txn' htxn' hopen => ?_) hlock hgone,
    h.disk.quiet hlog hf hdisk (fun t => by rw [hfhs]) fun tid txn' htxn' _ => ?_⟩
  · obtain ⟨txn, hrun, hm⟩ := htxn tid txn' htxn'
    exact ⟨txn, hrun, hm.isOpen.1 hopen, hm.writeSet, hm.back⟩
  · obtain ⟨txn, hrun, hm⟩ := htxn tid txn' htxn'
    exact ⟨txn, hrun, hm.back⟩

theorem sameRun_of_fhs (holder : s'.older = s.older) (hepoch : s'.epoch = s.epoch) (hfhs : s'.fhs = s.fhs) :
    SameRun s s' :=
  ⟨holder, hepoch, by rw [hfhs]; exact ⟨rfl, fun _ => ⟨rfl, rfl, rfl⟩⟩⟩

theorem setTxn_eq_some {tid' : Int} : (s.setTxn tid txn).txns tid' = some txn' ↔
    tid' = tid ∧ txn = txn' ∨ tid' ≠ tid ∧ s.txns tid' = some txn' := by
  by_cases htid : tid' = tid
  · simp [setTxn, htid]
  · simp [setTxn, htid]

theorem setTxn_eq_none {tid' : Int} : (s.setTxn tid txn).txns tid' = none ↔ tid' ≠ tid ∧ s.txns tid' = none := by
  by_cases htid : tid' = tid
  · simp [setTxn, htid]
  · simp [setTxn, htid]

theorem endTxn_txns {tid' : Int} : (s.endTxn tid).txns tid' = if tid' = tid then none else s.txns tid' := by
  by_cases htid : tid' = tid
  · simp [endTxn, htid]
  · simp [endTxn, htid]

theorem flushPhase_eq {p q : Phase} (h : s.flushPhase tid p q = some s') : ∃ txn, s.txns tid = some txn ∧ txn.phase = p ∧
    s' = { s with logMgr := s.logMgr.flushLogToDisk }.setTxn tid { txn with phase := q } := by
  cases hrun : s.txns tid with
  | none => simp [Server.flushPhase, hrun] at h
  | some txn =>
    simp only [Server.flushPhase, hrun] at h
    split at h
    · next hphase => exact ⟨txn, rfl, hphase, (Option.some.inj h).symm⟩
    · cases h

theorem logPhase_eq {p q : Phase} {body : LogBody} (h : s.logPhase tid p q body = some s') :
    ∃ txn, s.txns tid = some txn ∧ txn.phase = p ∧
      s' = { s with logMgr := (s.logMgr.addLogToBuffer tid txn.prevLsn body).2 }.setTxn tid
        ⟨s.logMgr.globalLsn, txn.writeSet, q⟩ := by
  cases hrun : s.txns tid with
  | none => simp [Server.logPhase, hrun] at h
  | some txn =>
    simp only [Server.logPhase, hrun, LogManager.addLogToBuffer_fst] at h
    split at h
    · next hphase => exact ⟨txn, rfl, hphase, (Option.some.inj h).symm⟩
    · cases h

theorem Sound.flushPhase {p q : Phase} (h : s.Sound fhs₀)
    (hpq : p = .commitLogged ∧ q = .commitFlushed ∨ p = .abortLogged ∧ q = .rollingBack)
    (hstep : s.flushPhase tid p q = some s') : s'.Sound fhs₀ := by
  obtain ⟨txn, hrun, hphase, rfl⟩ := flushPhase_eq hstep
  have hm : Moves txn { txn with phase := q } := by
    rcases hpq with ⟨rfl, rfl⟩ | ⟨rfl, rfl⟩ <;> exact ⟨rfl, by simp [Phase.IsOpen, hphase], by simp, by simp [hphase]⟩
  refine h.quiet (.of_flush h.log (sameRun_of_fhs rfl rfl rfl) rfl) rfl rfl rfl (fun tid' txn' htxn' => ?_)
    (fun _ _ _ hheld => hheld) fun tid' txn₀ hrun' _ hnone => ?_
  · rcases setTxn_eq_some.1 htxn' with ⟨rfl, rfl⟩ | ⟨-, hrun'⟩
    · exact ⟨txn, hrun, hm⟩
    · exact ⟨txn', hrun', .refl _⟩
  · cases (setTxn_eq_none.1 hnone).2.symm.trans hrun'

theorem Sound.endTxn (h : s.Sound fhs₀) (hrun : s.txns tid = some txn) (hdone : txn.phase.IsOpen → txn.writeSet = []) :
    (s.endTxn tid).Sound fhs₀ := by
  refine h.quiet (.of_eq h.log (sameRun_of_fhs rfl rfl rfl) rfl) rfl rfl rfl (fun tid' txn' htxn' => ?_)
    (fun t tid' hne' hheld => ?_) fun tid' txn' hrun' hopen hnone => ?_
  · rw [endTxn_txns] at htxn'
    split at htxn'
    · cases htxn'
    · exact ⟨txn', htxn', .refl _⟩
  · have htid : tid' ≠ tid := fun he => hne' (by rw [endTxn_txns, if_pos he])
    simp [Server.endTxn, hheld, htid]
  · rw [endTxn_txns] at hnone
    split at hnone
    · next htid =>
      subst htid
      obtain rfl := Option.some.inj (hrun.symm.trans hrun')
      exact hdone hopen
    · cases hnone.symm.trans hrun'

/-- `commit` and `abort` log their record. -/
theorem Sound.logPhase {q : Phase} {body : LogBody} (h : s.Sound fhs₀)
    (hq : body = .commit ∧ q = .commitLogged ∨ body = .abort ∧ q = .abortLogged)
    (hstep : s.logPhase tid .growing q body = some s') : s'.Sound fhs₀ := by
  obtain ⟨txn, hrun, hphase, hs'⟩ := logPhase_eq hstep
  have htarget : body.target = none := by rcases hq with ⟨rfl, -⟩ | ⟨rfl, -⟩ <;> rfl
  have ha : Appends s s' ⟨s.logMgr.globalLsn, tid, txn.prevLsn, body⟩ :=
    .of_addLog h.log (hs' ▸ sameRun_of_fhs rfl rfl rfl) (hs' ▸ rfl)
  have hstart := h.log.started tid txn hrun
  have htxns : ∀ tid' txn', s'.txns tid' = some txn' →
      (tid' = tid ∧ txn'.phase = q ∧ txn'.writeSet = txn.writeSet) ∨ tid' ≠ tid ∧ s.txns tid' = some txn' := by
    intro tid' txn' htxn'
    rw [hs'] at htxn'
    rcases setTxn_eq_some.1 htxn' with ⟨rfl, rfl⟩ | hrun'
    · exact .inl ⟨rfl, rfl, rfl⟩
    · exact .inr hrun'
  have hid : s'.nextTxnId = s.nextTxnId := hs' ▸ rfl
  have hlog : s'.LogInv := by
    refine h.log.concat ha ⟨fun t ρ w ht => ?_⟩ (fun hne => absurd htarget hne) (fun t ρ w ht => ?_)
      (h.log.ordered.concat_of_none htarget) ⟨hid.ge, hid ▸ hstart.id⟩ (fun hne => absurd htarget hne)
      (hstart.unended hphase) fun tid' txn' htxn' => ?_
    · rw [htarget] at ht
      cases ht
    · rw [htarget] at ht
      cases ht
    · rcases htxns tid' txn' htxn' with ⟨rfl, hq', -⟩ | ⟨htid, hrun'⟩
      · refine hstart.concat h.log ha hid.ge ?_ ?_
        · rcases hq with ⟨rfl, rfl⟩ | ⟨rfl, rfl⟩ <;> simp [hq', hphase, Phase.IsOpen]
        · rcases hq with ⟨rfl, rfl⟩ | ⟨rfl, rfl⟩ <;> simp [hq']
      · exact (h.log.started tid' txn' hrun').concat h.log ha hid.ge (by simp [Ne.symm htid])
          fun hg => ⟨hg, fun he => absurd he.symm htid⟩
  have hopen : ∀ tid' txn', s'.txns tid' = some txn' → txn'.phase.IsOpen → ∃ txn, s.txns tid' = some txn ∧
      txn.phase.IsOpen ∧ txn'.writeSet = txn.writeSet ∧ (txn.phase = .rollingBack → txn'.phase = .rollingBack) := by
    intro tid' txn' htxn' hopen
    rcases htxns tid' txn' htxn' with ⟨rfl, hq', hws⟩ | ⟨-, hrun'⟩
    · exact ⟨txn, hrun, by simp [hphase, Phase.IsOpen], hws, by simp [hphase]⟩
    · exact ⟨txn', hrun', hopen, rfl, id⟩
  refine ⟨h.shape.trans ha.shape, hlog, h.live.logged h.log ha htarget (hs' ▸ rfl) (hs' ▸ rfl)
    (fun tid' txn' htxn' ho => .inl (hopen tid' txn' htxn' ho)) (fun tid' hne => ?_) fun hc => ?_,
    h.disk.logged h.log hlog ha htarget (hs' ▸ rfl) (hs' ▸ rfl) (fun tid' txn' htxn' ho => ?_)
    fun _ => ⟨txn, hrun, hphase⟩⟩
  · rw [hs', Ne, setTxn_eq_none]
    exact fun hnone => hne hnone.2
  · refine ⟨txn, hrun, hphase, fun txn' htxn' => ?_⟩
    rcases htxns tid txn' htxn' with ⟨-, hq', -⟩ | ⟨hne, -⟩
    · rcases hq with ⟨-, rfl⟩ | ⟨rfl, -⟩
      · simp [hq', Phase.IsOpen]
      · cases hc
    · exact absurd rfl hne
  · obtain ⟨txn₀, hrun', -, -, hback⟩ := hopen tid' txn' htxn' ho
    exact .inl ⟨txn₀, hrun', hback⟩

theorem Sound.beginTxn (h : s.Sound fhs₀) : s.beginTxn.Sound fhs₀ := by
  have hnew : ∀ x ∈ s.history, inst x ≠ (s.epoch, s.nextTxnId) := fun x hx he => by
    have := h.log.ids x hx (Prod.mk.inj he).1
    have := (Prod.mk.inj he).2
    omega
  have hsame : SameRun s s.beginTxn := sameRun_of_fhs rfl rfl rfl
  have ha : Appends s s.beginTxn ⟨s.logMgr.globalLsn, s.nextTxnId, invalidLsn, .begin⟩ := .of_addLog h.log hsame rfl
  have hid : s.beginTxn.nextTxnId = s.nextTxnId + 1 := rfl
  have hpos := h.log.positive
  have htxns : ∀ {tid txn}, s.beginTxn.txns tid = some txn →
      (tid = s.nextTxnId ∧ txn.phase = .growing ∧ txn.writeSet = []) ∨
        tid ≠ s.nextTxnId ∧ s.txns tid = some txn := by
    intro tid txn htxn
    rcases setTxn_eq_some.1 htxn with ⟨rfl, rfl⟩ | hrun
    · exact .inl ⟨rfl, rfl, rfl⟩
    · exact .inr hrun
  have hhist := ha.history h.log
  have hlog : s.beginTxn.LogInv := by
    refine h.log.concat ha ⟨fun t ρ w ht => by cases ht⟩ (fun hne => absurd rfl hne) (fun t ρ w ht => by cases ht)
      (h.log.ordered.concat_of_none rfl) ⟨by omega, by simp only [hid]; omega⟩ (fun hne => absurd rfl hne)
      (fun x hx _ => hnew x hx) fun tid txn htxn => ?_
    rcases htxns htxn with ⟨rfl, hphase, -⟩ | ⟨hne, hrun⟩
    · refine ⟨by rw [ha.global]; omega, by omega, ⟨_, hhist ▸ List.mem_append_right _ (List.mem_singleton_self _), ?_⟩,
        ?_, fun _ x hx hend => ?_⟩
      · exact ⟨rfl, rfl, rfl⟩
      · rw [hhist, committed_concat_of_ne (by simp)]
        simp only [hphase, Phase.IsOpen, ne_eq, reduceCtorEq, not_false_eq_true, and_self, not_true_eq_false, iff_false]
        rw [committed_iff]
        rintro ⟨x, hx, hi, -⟩
        exact hnew x hx hi
      · rw [hhist] at hx
        rcases List.mem_append.1 hx with hx | hx
        · exact hnew x hx
        · rw [List.mem_singleton.1 hx] at hend
          simp [Ends] at hend
    · exact (h.log.started tid txn hrun).concat h.log ha (by omega) (by simp) fun hg => ⟨hg, fun _ => by simp [Ends]⟩
  refine ⟨h.shape.trans ha.shape, hlog, h.live.logged h.log ha rfl rfl rfl (fun tid txn htxn hopen => ?_) (fun tid hne => ?_) (by simp),
    h.disk.logged h.log hlog ha rfl rfl rfl (fun tid txn htxn _ => ?_) (by simp)⟩
  · rcases htxns htxn with ⟨rfl, -, hws⟩ | ⟨-, hrun⟩
    · exact .inr ⟨le_rfl, hws⟩
    · exact .inl ⟨txn, hrun, hopen, rfl, id⟩
  · exact fun hnone => hne (setTxn_eq_none.1 hnone).2
  · rcases htxns htxn with ⟨rfl, -⟩ | ⟨-, hrun⟩
    · exact .inr le_rfl
    · exact .inl ⟨txn, hrun, id⟩

theorem Sound.written {w : SlotWrite Bytes} (h : s.Sound fhs₀) (hno : s.NoLosers t ρ) (hw : Written s tid txn t ρ w s') :
    s'.Sound fhs₀ := by
  have hone := h.live.owner h.log hw.lock hno.live_of_pend
  exact ⟨h.shape.trans hw.slot.toSameShape, h.log.write h.live hw hone, h.live.write hw h.log hone, h.disk.write h.log hw hone⟩

theorem Sound.rollback (h : s.Sound fhs₀) (hno : ¬ s.Refills tid) (hstep : s.step (.rollback tid) = some s') :
    s'.Sound fhs₀ := by
  obtain ⟨prevLsn, ws, t, ρ, w, hr⟩ := h.live.rolled h.log hno hstep
  refine ⟨h.shape.trans hr.slot.toSameShape, h.log.rollback hr, LiveInv.rollback hr h.log h.live, h.disk.quiet (h.log.rollback hr) (hr.flushes h.log)
    (by rw [hr.rest]; rfl) hr.slot.numPages fun tid' txn' htxn' _ => ?_⟩
  obtain ⟨txn₀, hrun, hphase, -⟩ := hr.txn_of htxn'
  exact ⟨txn₀, hrun, fun hback => hphase.trans hback⟩

/-- The records in a log that recovery leaves behind, after a crash or a close. -/
def lastLog (s : Server) : Action → Option (List (Nat × LogRecord))
  | .crash k => some (s.durable k)
  | .close => some s.history
  | _ => none

/-- A restart succeeds, and the tables hold what is committed in the log it finds. -/
theorem Sound.restart {a : Action} {G : List (Nat × LogRecord)} (h : s.Sound fhs₀) (hok : s.StepOk a)
    (ha : s.lastLog a = some G) : ∃ s', s.step a = some s' ∧ s'.Sound fhs₀ ∧ s'.history = G ∧
      ∀ t ∈ s.fhs.names, ∀ ρ, s.InRange t ρ → s'.fhs.recordAt t ρ = committedRecord G t ρ := by
  cases a with
  | crash k =>
    obtain rfl := Option.some.inj ha
    obtain ⟨s', heq, hs'⟩ := h.crash hok
    exact ⟨s', by simp [step, heq, Except.toOption], hs'⟩
  | close =>
    obtain rfl := Option.some.inj ha
    have hf : s.flushed.Sound fhs₀ := ⟨h.shape, h.log.flushed, LiveInv.flushed h.log h.live, h.live.diskInv_flushed h.log⟩
    obtain ⟨s', heq, hs'⟩ := hf.crash (k := 0) (by rw [flushed_durable]; exact hok)
    rw [flushed_durable] at hs'
    exact ⟨s', by simp [step, close_eq, heq, Except.toOption], hs'⟩
  | _ => cases ha

/-- The writes of the executors. -/
def Action.isWrite : Action → Bool
  | .insert .. | .delete .. | .update .. => true
  | _ => false

theorem Sound.writes {a : Action} (h : s.Sound fhs₀) (ha : a.isWrite = true) (hstep : s.step a = some s') :
    ∃ tid txn t ρ w, Written s tid txn t ρ w s' ∧ (s.StepOk a → s.NoLosers t ρ) := by
  cases a with
  | insert tid t buf =>
    obtain ⟨txn, ρ, w, ⟨ctx, r, hr⟩, hw⟩ := write_written
      (p := fun ρ => ∃ ctx r, (s.fhs.file t).insertRecord buf ctx = .ok (ρ, r)) (fun ht c f' ctx' wr hop => by
        obtain ⟨ps, hinv⟩ := h.live.heap t ht
        obtain ⟨ρ, w, hr, hlog⟩ := RmFile.insertWrite_spec hinv hop
        exact ⟨ρ, w, ⟨_, hr⟩, hlog⟩) h.live.tabName hstep
    exact ⟨tid, txn, t, ρ, w, hw, fun hok => hok ctx ρ r hr⟩
  | delete tid t ρ =>
    simp only [Server.step] at hstep
    split at hstep
    · next hρ =>
      obtain ⟨txn, ρ, w, rfl, hw⟩ := write_written (p := (· = ρ)) (fun ht c f' ctx' wr hop => by
        obtain ⟨ps, hinv⟩ := h.live.heap t ht
        obtain ⟨w, hlog⟩ := RmFile.deleteWrite_spec hinv (fun v => h.live.memcpy_eq h.log ht hρ) hρ hop
        exact ⟨ρ, w, rfl, hlog⟩) h.live.tabName hstep
      exact ⟨tid, txn, t, ρ, w, hw, id⟩
    · cases hstep
  | update tid t ρ buf =>
    simp only [Server.step] at hstep
    split at hstep
    · next hρ =>
      obtain ⟨txn, ρ, w, rfl, hw⟩ := write_written (p := (· = ρ)) (fun ht c f' ctx' wr hop => by
        obtain ⟨ps, hinv⟩ := h.live.heap t ht
        obtain ⟨w, hlog⟩ := RmFile.updateWrite_spec hinv (fun v => h.live.memcpy_eq h.log ht hρ) hρ hop
        exact ⟨ρ, w, rfl, hlog⟩) h.live.tabName hstep
      exact ⟨tid, txn, t, ρ, w, hw, id⟩
    · cases hstep
  | _ => cases ha

/-- Every step that meets the condition keeps the invariant. -/
theorem Sound.step {a : Action} (h : s.Sound fhs₀) (hok : s.StepOk a) (hstep : s.step a = some s') : s'.Sound fhs₀ := by
  cases a with
  | «begin» => exact Option.some.inj hstep ▸ h.beginTxn
  | lock tid t =>
    simp only [Server.step] at hstep
    split at hstep
    · next txn hrun =>
      split at hstep
      · next hfree =>
        obtain rfl := Option.some.inj hstep
        refine h.quiet (.of_eq h.log (sameRun_of_fhs rfl rfl rfl) rfl) rfl rfl rfl (fun tid' txn' htxn' =>
          ⟨txn', htxn', .refl _⟩) (fun t' tid' _ hheld => ?_) fun tid' txn' htxn' _ hnone => by cases hnone.symm.trans htxn'
        by_cases ht : t' = t
        · subst ht
          rcases hfree.2 with hnone | hown
          · cases hnone.symm.trans hheld
          · simpa using hown.symm.trans hheld
        · simpa [Function.update_of_ne ht] using hheld
      · cases hstep
    · cases hstep
  | insert tid t buf | delete tid t ρ | update tid t ρ buf =>
    obtain ⟨tid', txn, t', ρ', w, hw, hno⟩ := h.writes rfl hstep
    exact h.written (hno hok) hw
  | logCommit tid => exact h.logPhase (.inl ⟨rfl, rfl⟩) hstep
  | flushCommit tid => exact h.flushPhase (.inl ⟨rfl, rfl⟩) hstep
  | endCommit tid =>
    simp only [Server.step] at hstep
    split at hstep
    · next hphase =>
      obtain ⟨txn, hrun, hphase⟩ := Option.map_eq_some_iff.1 hphase
      exact Option.some.inj hstep ▸ h.endTxn hrun fun hopen => absurd hphase hopen.2
    · cases hstep
  | logAbort tid => exact h.logPhase (.inr ⟨rfl, rfl⟩) hstep
  | flushAbort tid => exact h.flushPhase (.inr ⟨rfl, rfl⟩) hstep
  | rollback tid => exact h.rollback hok hstep
  | endAbort tid =>
    simp only [Server.step] at hstep
    split at hstep
    · next prevLsn hrun => exact Option.some.inj hstep ▸ h.endTxn hrun fun _ => rfl
    · cases hstep
  | flushLog =>
    exact Option.some.inj hstep ▸ h.quiet (.of_flush h.log (sameRun_of_fhs rfl rfl rfl) rfl) rfl rfl rfl
      (fun tid' txn' htxn' => ⟨txn', htxn', .refl _⟩) (fun _ _ _ hheld => hheld)
      fun tid' txn' htxn' _ hnone => by cases hnone.symm.trans htxn'
  | writeBack t p =>
    simp only [Server.step] at hstep
    split at hstep
    · exact ⟨h.shape.trans (writeBack_flushes h.log hstep).shape, h.log.writeBack hstep, h.live.writeBack h.log hstep, h.disk.writeBack h.log h.live hstep⟩
    · cases hstep
  | crash k | close =>
    obtain ⟨s₁, heq, hs₁, -⟩ := h.restart hok rfl
    exact Option.some.inj (heq.symm.trans hstep) ▸ hs₁

/-! ## New databases -/

/-- `RmManager::create_file` accepts record sizes from 1 to `RM_MAX_RECORD_SIZE`. -/
def SizesOk (names : List TabName) (recordSize : TabName → Int) : Prop :=
  ∀ t ∈ names, 1 ≤ recordSize t ∧ recordSize t ≤ rmMaxRecordSize

theorem Sound.init {names : List TabName} {recordSize : TabName → Int} (hsize : SizesOk names recordSize) :
    (init names recordSize).Sound (init names recordSize).fhs := by
  have hlog : (Server.init names recordSize).LogInv := by
    refine ⟨⟨.nil, by simp [Server.init, LogManager.start, LogManager.stream], by simp [Server.init, LogManager.start],
      (by decide : invalidLsn < 0), (by decide : invalidLsn < 0)⟩, List.prefix_refl _, by simp [Server.init], le_rfl, ?_, ?_, fun _ _ => trivial, ?_, ?_, ?_, ?_,
      ?_⟩
    · simp [Server.init, LogManager.start, LogManager.stream]
    · simp [Server.init, LogManager.start, LogManager.stream]
    · intro P hP t ρ
      obtain rfl := List.prefix_nil.1 hP
      exact .nil
    · intro tid txn htxn
      cases htxn
    · intro x hx
      cases hx
    · intro A x B hsplit
      cases A <;> cases hsplit
    · intro A x B hsplit
      cases A <;> cases hsplit
  have hlsn : ∀ t p, 1 ≤ p → (Server.init names recordSize).fhs.lsnAt t p = 0 := fun t p hp => by
    have hnot : ¬ p < 1 := by omega
    simp [Server.init, Fhs.lsnAt, RmFile.lsnAt, RmFile.openFile, RmFileHdr.create, hnot]
  have hlive : (Server.init names recordSize).LiveInv := by
    refine ⟨fun _ => rfl, fun t ht => ⟨[], ?_⟩, by simp [Server.init, LogManager.start, LogManager.stream],
      by simp [Server.init, LogManager.start, LogManager.stream], fun t p hp => .inl (hlsn t p hp).le, fun tid txn htxn => ?_,
      fun t ht ρ hρ _ => ?_⟩
    · have hsmall : ∀ p, 1 ≤ p → ¬ p < ((Server.init names recordSize).fhs.file t).fileHdr.numPages := fun p h1 hlt => by
        have : p < 1 := hlt
        omega
      exact ⟨⟨⟨RmFileHdr.create_perPage_pos (hsize t ht).1 (hsize t ht).2, le_rfl,
        fun p h1 hlt => absurd hlt (hsmall p h1)⟩, rfl⟩, fun p page h1 hlt => absurd hlt (hsmall p h1), .nil, by simp, by simp⟩
    · cases htxn
    · have hnot : ¬ ρ.pageNo < 1 := by
        have := hρ.1
        omega
      show (RmFile.openFile _ _ _).recordAt ρ = none
      simp [RmFile.recordAt, RmFile.openFile, RmFileHdr.create, hnot]
  refine ⟨⟨rfl, fun _ => ⟨rfl, rfl, rfl⟩⟩, hlog, hlive, ?_⟩
  have hdisk := hlive.diskInv_flushed hlog
  have hself : (Server.init names recordSize).flushed = Server.init names recordSize := by
    rfl
  rwa [hself] at hdisk

/-! ## Runs -/

def run (s : Server) : List Action → Option Server
  | [] => some s
  | a :: acts => (s.step a).bind (·.run acts)

def RunOk (s : Server) : List Action → Prop
  | [] => True
  | a :: acts => s.StepOk a ∧ ∀ s', s.step a = some s' → s'.RunOk acts

theorem Sound.run {acts : List Action} (h : s.Sound fhs₀) (hok : s.RunOk acts) (hrun : s.run acts = some s') :
    s'.Sound fhs₀ := by
  induction acts generalizing s with
  | nil => exact Option.some.inj hrun ▸ h
  | cons a acts ih =>
    obtain ⟨s₁, hstep, hrest⟩ := Option.bind_eq_some_iff.1 hrun
    exact ih (h.step hok.1 hstep) (hok.2 s₁ hstep) hrest

end Server

end Rmdb
