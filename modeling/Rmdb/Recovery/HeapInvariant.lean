import Rmdb.Recovery.LogInvariant

/-!
# The tables of a running server

- `SlotState`: a transaction that is not committed has done some of its pending writes to a slot and, in a roll-back,
  has taken the later ones back; its write set has the former;
- `LiveInv`: every slot is in such a state, or holds the committed record when no running transaction writes it;
- one lemma for each way a step changes the state.
-/

namespace Rmdb

open Lib SlotWrite

def WriteRecord.on (t : TabName) (ρ : Rid) : WriteRecord → Bool
  | .insertTuple t' ρ' | .deleteTuple t' ρ' _ | .updateTuple t' ρ' _ => t' == t && ρ' == ρ

/-- The write record that undoes a write. -/
def backup (t : TabName) (ρ : Rid) : SlotWrite Bytes → WriteRecord
  | .insert _ => .insertTuple t ρ
  | .delete v => .deleteTuple t ρ v
  | .update o _ => .updateTuple t ρ o

@[simp] theorem backup_on (t t' : TabName) (ρ ρ' : Rid) (w : SlotWrite Bytes) :
    (backup t ρ w).on t' ρ' = (t == t' && ρ == ρ') := by
  cases w <;> rfl

namespace Server

/-- The running transaction behind an instance. -/
def live (s : Server) (i : Instance) : Option Transaction := if i.1 = s.epoch then s.txns i.2 else none

theorem live_of_epoch {s : Server} {i : Instance} (h : i.1 = s.epoch) : s.live i = s.txns i.2 := if_pos h

/-- A transaction's own pending writes to a slot. -/
def own (s : Server) (tid : Int) (t : TabName) (ρ : Rid) : List (SlotWrite Bytes) :=
  ((pend s.history t ρ).filter (·.1 == (s.epoch, tid))).map (·.2)

structure SlotState (s : Server) (tid : Int) (txn : Transaction) (t : TabName) (ρ : Rid)
    (done undone : List (SlotWrite Bytes)) : Prop where
  own : s.own tid t ρ = done ++ undone
  writeSet : txn.writeSet.filter (·.on t ρ) = (done.map (backup t ρ)).reverse
  back : undone ≠ [] → txn.phase = .rollingBack
  held : done ++ undone ≠ [] →
    s.xLock t = some tid ∧ s.fhs.recordAt t ρ = final (base s.history t ρ) done

structure LiveInv (s : Server) : Prop where
  tabName : ∀ t, (s.fhs.file t).tabName = t
  heap : ∀ t ∈ s.fhs.names, ∃ ps, (s.fhs.file t).HeapInv ps
  pages : ∀ r ∈ s.logMgr.stream, ∀ t ρ w, r.body.target = some (t, ρ, w) →
    ρ.pageNo < (s.fhs.file t).fileHdr.numPages
  lsnDone : ∀ r ∈ s.logMgr.stream, ∀ t ρ w, r.body.target = some (t, ρ, w) → r.lsn ≤ s.fhs.lsnAt t ρ.pageNo
  lsnFrom : ∀ t p, 1 ≤ p → s.fhs.lsnAt t p ≤ 0 ∨ ∃ r ∈ s.logMgr.stream, s.fhs.lsnAt t p = r.lsn
  slot : ∀ tid txn, s.txns tid = some txn → txn.phase.IsOpen → ∀ t ρ,
    ∃ done undone, s.SlotState tid txn t ρ done undone
  idle : ∀ t ∈ s.fhs.names, ∀ ρ, s.InRange t ρ → (∀ o ∈ pend s.history t ρ, s.live o.1 = none) →
    s.fhs.recordAt t ρ = base s.history t ρ

variable {s s' : Server} {t : TabName} {ρ : Rid} {tid : Int} {txn : Transaction}

/-! ## One slot -/

theorem LogInv.open_iff (h : s.LogInv) (htxn : s.txns tid = some txn) :
    txn.phase.IsOpen ↔ committed s.history (s.epoch, tid) = false := by
  rw [← Bool.not_eq_true, (h.started tid txn htxn).committed, not_not]

/-- The owner of a pending write is not committed. -/
theorem LogInv.open_of_mem_pend (h : s.LogInv) {o : Instance × SlotWrite Bytes} (ho : o ∈ pend s.history t ρ)
    (htxn : s.live o.1 = some txn) : o.1 = (s.epoch, o.1.2) ∧ s.txns o.1.2 = some txn ∧ txn.phase.IsOpen := by
  unfold live at htxn
  split at htxn
  · next he =>
    have hi : o.1 = (s.epoch, o.1.2) := Prod.ext he rfl
    exact ⟨hi, htxn, (h.open_iff htxn).2 (hi ▸ (mem_pending.1 ho).2)⟩
  · cases htxn

/-- When one pending write of a slot is a transaction's own, all are. -/
theorem LogInv.own_eq (h : s.LogInv) {o : Instance × SlotWrite Bytes} (ho : o ∈ pend s.history t ρ)
    (hi : o.1 = (s.epoch, tid)) : s.own tid t ρ = (pend s.history t ρ).map (·.2) := by
  rw [own, List.filter_eq_self.2]
  intro x hx
  rw [beq_iff_eq, ← hi]
  exact (h.ordered.self t ρ).one x hx o ho

theorem own_eq_nil (hne : ∀ o ∈ pend s.history t ρ, o.1 ≠ (s.epoch, tid)) : s.own tid t ρ = [] := by
  rw [own, List.filter_eq_nil_iff.2, List.map_nil]
  intro x hx
  simpa using hne x hx

/-- A transaction id that is not in use yet has no writes in this incarnation. -/
theorem LogInv.ne_of_mem_pend (h : s.LogInv) {o : Instance × SlotWrite Bytes} (ho : o ∈ pend s.history t ρ)
    (hnew : s.nextTxnId ≤ tid) : o.1 ≠ (s.epoch, tid) := by
  obtain ⟨x, hx, -, hxi⟩ := mem_tagLog.1 (mem_pending.1 ho).1
  rw [← hxi]
  intro he
  have := h.ids x hx (Prod.mk.inj he).1
  have := (Prod.mk.inj he).2
  omega

/-- Either no running transaction has pending writes to the slot, or all of them are of one. -/
theorem LogInv.pend_cases (h : s.LogInv) (t : TabName) (ρ : Rid) :
    (∀ o ∈ pend s.history t ρ, s.live o.1 = none) ∨
    ∃ tid txn, s.txns tid = some txn ∧ txn.phase.IsOpen ∧ pend s.history t ρ ≠ [] ∧
      (∀ o ∈ pend s.history t ρ, o.1 = (s.epoch, tid)) ∧ s.own tid t ρ = (pend s.history t ρ).map (·.2) := by
  by_cases hall : ∀ o ∈ pend s.history t ρ, s.live o.1 = none
  · exact .inl hall
  · push Not at hall
    obtain ⟨o, ho, hlive⟩ := hall
    obtain ⟨txn, htxn⟩ := Option.ne_none_iff_exists'.1 hlive
    obtain ⟨hi, htxn, hopen⟩ := h.open_of_mem_pend ho htxn
    refine .inr ⟨o.1.2, txn, htxn, hopen, List.ne_nil_of_mem ho, fun x hx => ?_, h.own_eq ho hi⟩
    rw [← hi]
    exact (h.ordered.self t ρ).one x hx o ho

/-- What a slot holds: the committed record, or what a running transaction has made of it. -/
theorem LiveInv.recordAt_cases (h : s.LiveInv) (hl : s.LogInv) (ht : t ∈ s.fhs.names) (hρ : s.InRange t ρ) :
    (∀ o ∈ pend s.history t ρ, s.live o.1 = none) ∧ s.fhs.recordAt t ρ = base s.history t ρ ∨
    ∃ tid txn done undone, s.txns tid = some txn ∧ txn.phase.IsOpen ∧ pend s.history t ρ ≠ [] ∧
      (∀ o ∈ pend s.history t ρ, o.1 = (s.epoch, tid)) ∧ (pend s.history t ρ).map (·.2) = done ++ undone ∧
      s.SlotState tid txn t ρ done undone ∧ s.fhs.recordAt t ρ = final (base s.history t ρ) done := by
  rcases hl.pend_cases t ρ with hall | ⟨tid, txn, htxn, hopen, hne, howner, hown⟩
  · exact .inl ⟨hall, h.idle t ht ρ hρ hall⟩
  · obtain ⟨done, undone, hs⟩ := h.slot tid txn htxn hopen t ρ
    have hsplit := hown.symm.trans hs.own
    refine .inr ⟨tid, txn, done, undone, htxn, hopen, hne, howner, hsplit, hs, (hs.held ?_).2⟩
    rw [← hsplit]
    simpa using hne

/-- Without a roll-back under way the slot holds the end of its history. -/
theorem LiveInv.recordAt_eq_final (h : s.LiveInv) (hl : s.LogInv) (ht : t ∈ s.fhs.names) (hρ : s.InRange t ρ)
    (hgrow : ∀ o ∈ pend s.history t ρ, ∃ txn, s.live o.1 = some txn ∧ txn.phase ≠ .rollingBack) :
    s.fhs.recordAt t ρ = final none (slotLog s.logMgr.stream t ρ) := by
  rw [← hl.history_map_snd, hl.ordered.final_eq]
  rcases h.recordAt_cases hl ht hρ with ⟨hall, heq⟩ | ⟨tid, txn, done, undone, htxn, -, hne, howner, hsplit, hs, heq⟩
  · have hnil : pend s.history t ρ = [] := by
      rw [List.eq_nil_iff_forall_not_mem]
      intro o ho
      obtain ⟨txn, htxn, -⟩ := hgrow o ho
      rw [hall o ho] at htxn
      cases htxn
    rw [heq, hnil]
    rfl
  · obtain ⟨o, ho⟩ := List.exists_mem_of_ne_nil _ hne
    obtain ⟨txn', hlive, hphase⟩ := hgrow o ho
    have htxn' : some txn = some txn' := by
      rw [← hlive, howner o ho, live, if_pos rfl, htxn]
    have hundone : undone = [] := by
      by_contra hne'
      exact hphase (Option.some.inj htxn' ▸ hs.back hne')
    rw [heq, hsplit, hundone, List.append_nil]

/-- A slot always holds a state of its history. -/
theorem LiveInv.recordAt_prefix (h : s.LiveInv) (hl : s.LogInv) (ht : t ∈ s.fhs.names) (hρ : s.InRange t ρ) :
    ∃ vs, vs <+: slotLog s.logMgr.stream t ρ ∧ s.fhs.recordAt t ρ = final none vs := by
  have hsplit := (hl.ordered.self t ρ).split
  rw [tagLog_map_snd, hl.history_map_snd] at hsplit
  rcases h.recordAt_cases hl ht hρ with ⟨-, heq⟩ | ⟨tid, txn, done, undone, -, -, -, -, hpend, -, heq⟩
  · exact ⟨_, ⟨_, hsplit.symm⟩, heq⟩
  · refine ⟨settled (committed s.history) (tagLog s.history t ρ) ++ done, ⟨undone, ?_⟩, ?_⟩
    · rw [List.append_assoc, ← hpend]
      exact hsplit.symm
    · rw [final_append, heq]
      rfl

/-- The records of a table have its record size. -/
theorem LiveInv.memcpy_eq (h : s.LiveInv) (hl : s.LogInv) (ht : t ∈ s.fhs.names) (hρ : s.InRange t ρ) {v : Bytes}
    (hv : s.fhs.recordAt t ρ = some v) : memcpy v (s.fhs.file t).fileHdr.recordSize = v := by
  obtain ⟨vs, hvs, heq⟩ := h.recordAt_prefix hl ht hρ
  obtain ⟨w, hw, hnew⟩ := exists_of_final_eq_some (heq.symm.trans hv)
  obtain ⟨r, hr, hwrite⟩ := List.mem_filterMap.1 (hvs.subset hw)
  obtain ⟨-, -, -, hfits⟩ := (hl.valid r hr).valid _ _ _ (LogBody.writeOn_eq_some.1 hwrite)
  exact hfits v (.inr hnew)

/-! ## Steps that leave the tables alone -/

theorem SlotState.done_eq_nil {done undone : List (SlotWrite Bytes)} (h : s.SlotState tid txn t ρ done undone)
    (hw : txn.writeSet = []) : done = [] := by
  have := h.writeSet
  simpa [hw] using this.symm

theorem own_congr (hh : s'.history = s.history) (he : s'.epoch = s.epoch) : s'.own tid t ρ = s.own tid t ρ := by
  simp only [own, hh, he]

/-- No step within an incarnation changes which rids are in range. -/
theorem SameRun.inRange (h : SameRun s s') : s'.InRange t ρ ↔ s.InRange t ρ := by
  simp only [InRange, (h.shape.shape t).perPage]

/-- The log and the tables stay; transactions change their phase, or end with nothing left to take back. -/
theorem LiveInv.quiet (h : s.LiveInv) (hl : s.LogInv) (hf : Flushes s s') (hfhs : s'.fhs = s.fhs)
    (htxn : ∀ tid txn', s'.txns tid = some txn' → txn'.phase.IsOpen → ∃ txn, s.txns tid = some txn ∧
      txn.phase.IsOpen ∧ txn'.writeSet = txn.writeSet ∧ (txn.phase = .rollingBack → txn'.phase = .rollingBack))
    (hlock : ∀ t tid, s'.txns tid ≠ none → s.xLock t = some tid → s'.xLock t = some tid)
    (hgone : ∀ tid txn, s.txns tid = some txn → txn.phase.IsOpen → s'.txns tid = none → txn.writeSet = []) :
    s'.LiveInv where
  tabName := hfhs ▸ h.tabName
  heap := hfhs ▸ h.heap
  pages := by
    rw [hfhs, hf.stream]
    exact h.pages
  lsnDone := by
    rw [hfhs, hf.stream]
    exact h.lsnDone
  lsnFrom := by
    rw [hfhs, hf.stream]
    exact h.lsnFrom
  slot tid txn' htxn' hopen' t ρ := by
    obtain ⟨txn, htxn, hopen, hws, hback⟩ := htxn tid txn' htxn' hopen'
    obtain ⟨done, undone, hs⟩ := h.slot tid txn htxn hopen t ρ
    refine ⟨done, undone, (own_congr hf.history hf.epoch).trans hs.own, hws ▸ hs.writeSet,
      fun hne => hback (hs.back hne), fun hne => ?_⟩
    obtain ⟨hheld, hrec⟩ := hs.held hne
    rw [hfhs, hf.history]
    exact ⟨hlock t tid (by simp [htxn']) hheld, hrec⟩
  idle t ht ρ hρ hidle := by
    rw [hfhs, hf.history] at *
    rcases h.recordAt_cases hl ht (hf.toSameRun.inRange.1 hρ) with ⟨-, heq⟩ |
      ⟨tid, txn, done, undone, htxn, hopen, hne, howner, -, hs, heq⟩
    · exact heq
    · obtain ⟨o, ho⟩ := List.exists_mem_of_ne_nil _ hne
      have hnone := hidle o ho
      rw [howner o ho, live, if_pos hf.epoch.symm] at hnone
      rw [heq, hs.done_eq_nil (hgone tid txn htxn hopen hnone)]
      rfl

/-- The pending writes of a slot are as before, or a COMMIT has settled them all. -/
theorem LogInv.pend_logged {r : LogRecord} (hl : s.LogInv) (ha : Appends s s' r) (hr : r.body.target = none)
    (t : TabName) (ρ : Rid) :
    (pend s'.history t ρ = pend s.history t ρ ∧ base s'.history t ρ = base s.history t ρ) ∨
      pend s'.history t ρ = [] ∧ r.body = .commit ∧ (∀ o ∈ pend s.history t ρ, o.1 = (s.epoch, r.logTid)) ∧
        base s'.history t ρ = final (base s.history t ρ) ((pend s.history t ρ).map (·.2)) := by
  have hnone : r.body.writeOn t ρ = none := by simp [LogBody.writeOn, hr]
  rw [ha.history hl]
  by_cases hc : r.body = .commit
  · rcases pend_concat_commit (x := (s.epoch, r)) (t := t) (ρ := ρ) hl.ordered hc with ⟨h1, h2, h3⟩ | ⟨h1, h2, -⟩
    · exact .inr ⟨h1, hc, h2, h3⟩
    · exact .inl ⟨h1, h2⟩
  · exact .inl (pend_concat_of_none (x := (s.epoch, r)) hnone hc)

/-- A BEGIN, COMMIT or ABORT record is appended. -/
theorem LiveInv.logged {r : LogRecord} (h : s.LiveInv) (hl : s.LogInv) (ha : Appends s s' r)
    (hr : r.body.target = none) (hfhs : s'.fhs = s.fhs) (hlock : s'.xLock = s.xLock)
    (htxn : ∀ tid txn', s'.txns tid = some txn' → txn'.phase.IsOpen →
      (∃ txn, s.txns tid = some txn ∧ txn.phase.IsOpen ∧ txn'.writeSet = txn.writeSet ∧
        (txn.phase = .rollingBack → txn'.phase = .rollingBack)) ∨ s.nextTxnId ≤ tid ∧ txn'.writeSet = [])
    (hkeep : ∀ tid, s.txns tid ≠ none → s'.txns tid ≠ none)
    (hcommit : r.body = .commit → ∃ txn, s.txns r.logTid = some txn ∧ txn.phase = .growing ∧
      ∀ txn', s'.txns r.logTid = some txn' → ¬ txn'.phase.IsOpen) : s'.LiveInv := by
  have hstream : ∀ {t ρ w}, ∀ r' ∈ s'.logMgr.stream, r'.body.target = some (t, ρ, w) → r' ∈ s.logMgr.stream := by
    intro t ρ w r' hr' htarget
    rw [ha.stream] at hr'
    rcases List.mem_append.1 hr' with hr' | hr'
    · exact hr'
    · rw [List.mem_singleton.1 hr', hr] at htarget
      cases htarget
  have hpend := hl.pend_logged ha hr
  refine ⟨hfhs ▸ h.tabName, hfhs ▸ h.heap, fun r' hr' t ρ w ht => ?_, fun r' hr' t ρ w ht => ?_, fun t p hp => ?_,
    fun tid txn' htxn' hopen' t ρ => ?_, fun t ht ρ hρ hidle => ?_⟩
  · rw [hfhs]
    exact h.pages r' (hstream r' hr' ht) t ρ w ht
  · rw [hfhs]
    exact h.lsnDone r' (hstream r' hr' ht) t ρ w ht
  · rw [hfhs, ha.stream]
    exact (h.lsnFrom t p hp).imp id fun ⟨r', hr', heq⟩ => ⟨r', by simp [hr'], heq⟩
  · rcases htxn tid txn' htxn' hopen' with ⟨txn, htxn, hopen, hws, hback⟩ | ⟨hnew, hws⟩
    · obtain ⟨done, undone, hs⟩ := h.slot tid txn htxn hopen t ρ
      rcases hpend t ρ with ⟨hp, hb⟩ | ⟨hp, hc, howner, -⟩
      · refine ⟨done, undone, ?_, hws ▸ hs.writeSet, fun hne => hback (hs.back hne), fun hne => ?_⟩
        · rw [← hs.own]
          simp only [own, hp, ha.epoch]
        · rw [hlock, hfhs, hb]
          exact hs.held hne
      · -- another transaction committed: this one has no writes here
        obtain ⟨-, -, -, hclosed⟩ := hcommit hc
        have hne : tid ≠ r.logTid := fun he => hclosed txn' (he ▸ htxn') hopen'
        have hown : s.own tid t ρ = [] := own_eq_nil fun o ho he => by
          rw [howner o ho] at he
          exact hne (Prod.mk.inj he).2.symm
        obtain ⟨rfl, rfl⟩ := List.append_eq_nil_iff.1 (hs.own.symm.trans hown)
        exact ⟨[], [], by simp [own, hp], hws ▸ hs.writeSet, by simp, by simp⟩
    · -- a new transaction
      have hown : s'.own tid t ρ = [] := by
        refine own_eq_nil fun o ho => ?_
        rw [ha.epoch]
        rcases hpend t ρ with ⟨hp, -⟩ | ⟨hp, -⟩
        · exact hl.ne_of_mem_pend (hp ▸ ho) hnew
        · simp [hp] at ho
      exact ⟨[], [], hown, by simp [hws], by simp, by simp⟩
  · rw [hfhs] at ht ⊢
    rcases hpend t ρ with ⟨hp, hb⟩ | ⟨hp, hc, howner, hb⟩
    · rw [hb]
      rcases h.recordAt_cases hl ht (ha.toSameRun.inRange.1 hρ) with ⟨-, heq⟩ |
        ⟨tid, txn, done, undone, htxn, hopen, hne, howner, -, hs, heq⟩
      · exact heq
      · obtain ⟨o, ho⟩ := List.exists_mem_of_ne_nil _ hne
        have hnone := hidle o (hp ▸ ho)
        rw [howner o ho, live, if_pos ha.epoch.symm] at hnone
        exact absurd hnone (hkeep tid (by simp [htxn]))
    · obtain ⟨txn, htxn, hgrow, -⟩ := hcommit hc
      have hlive : ∀ o ∈ pend s.history t ρ, ∃ txn, s.live o.1 = some txn ∧ txn.phase ≠ .rollingBack := by
        intro o ho
        exact ⟨txn, by rw [howner o ho, live, if_pos rfl, htxn], by simp [hgrow]⟩
      rw [h.recordAt_eq_final hl ht (ha.toSameRun.inRange.1 hρ) hlive, hb, ← hl.ordered.final_eq, hl.history_map_snd]

end Server

end Rmdb
