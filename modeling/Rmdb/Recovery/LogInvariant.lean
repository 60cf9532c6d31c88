import Rmdb.Recovery.History

/-!
# The log of a running server

- `LogInv`: the log is ordered and linked, its records fit the tables, and every transaction of this incarnation has
  begun in it before it writes;
- `LogInv.concat` and `LogInv.same`: the two ways a step changes the log.
-/

namespace Rmdb

open Lib SlotWrite

/-- The transaction has not logged its COMMIT. -/
def Phase.IsOpen (p : Phase) : Prop := p ≠ .commitLogged ∧ p ≠ .commitFlushed

/-- A transaction's COMMIT or ABORT record. -/
def Ends (x : Nat × LogRecord) : Prop := x.2.body = .commit ∨ x.2.body = .abort

/-- Nothing of a transaction follows its COMMIT or ABORT. -/
def EndsLast (G : List (Nat × LogRecord)) : Prop := ∀ A x B, G = A ++ x :: B → Ends x → ∀ y ∈ B, inst y ≠ inst x

namespace Server

variable {s s' : Server}

/-! ## The tagged log -/

theorem tag_map_snd {log : List LogRecord} (h : s.older.map (·.2) <+: log) : (s.tag log).map (·.2) = log := by
  obtain ⟨rest, rfl⟩ := h
  simp [tag]

theorem tag_append {log rs : List LogRecord} (h : s.older.map (·.2) <+: log) :
    s.tag (log ++ rs) = s.tag log ++ rs.map (s.epoch, ·) := by
  obtain ⟨rest, rfl⟩ := h
  simp [tag, List.append_assoc]

theorem older_prefix_tag (log : List LogRecord) : s.older <+: s.tag log := List.prefix_append _ _

theorem mem_tag {log : List LogRecord} {x : Nat × LogRecord} (h : x ∈ s.tag log) : x ∈ s.older ∨ x.1 = s.epoch := by
  rcases List.mem_append.1 h with h | h
  · exact .inl h
  · obtain ⟨r, -, rfl⟩ := List.mem_map.1 h
    exact .inr rfl

/-! ## The invariant -/

/-- The transaction has begun, and it is ended in the log as its phase says. -/
structure Started (s : Server) (tid : Int) (txn : Transaction) : Prop where
  positive : 0 < s.logMgr.globalLsn
  id : tid < s.nextTxnId
  begun : ∃ x ∈ s.history, x.1 = s.epoch ∧ x.2.logTid = tid ∧ x.2.body = .begin
  committed : committed s.history (s.epoch, tid) = true ↔ ¬ txn.phase.IsOpen
  unended : txn.phase = .growing → ∀ x ∈ s.history, Ends x → inst x ≠ (s.epoch, tid)

structure LogInv (s : Server) : Prop where
  wf : s.logMgr.Wf
  older : s.older.map (·.2) <+: s.logMgr.disk
  tags : ∀ x ∈ s.older, x.1 < s.epoch
  positive : 0 ≤ s.logMgr.globalLsn
  dataLsn : ∀ r ∈ s.logMgr.stream, r.body.target ≠ none → 0 < r.lsn
  valid : ∀ r ∈ s.logMgr.stream, ValidFor s.fhs r
  linked : ∀ t ρ, Linked none (slotLog s.logMgr.stream t ρ)
  ordered : OrderedLog s.history
  started : ∀ tid txn, s.txns tid = some txn → s.Started tid txn
  ids : ∀ x ∈ s.history, x.1 = s.epoch → x.2.logTid < s.nextTxnId
  begun : ∀ A x B, s.history = A ++ x :: B → x.1 = s.epoch → x.2.body.target ≠ none →
    ∃ y ∈ A, y.1 = s.epoch ∧ y.2.logTid = x.2.logTid ∧ y.2.body = .begin
  ended : EndsLast s.history

namespace LogInv

theorem older_stream (h : s.LogInv) : s.older.map (·.2) <+: s.logMgr.stream :=
  h.older.trans (List.prefix_append _ _)

theorem history_map_snd (h : s.LogInv) : s.history.map (·.2) = s.logMgr.stream := tag_map_snd h.older_stream

theorem mem_stream (h : s.LogInv) {x : Nat × LogRecord} (hx : x ∈ s.history) : x.2 ∈ s.logMgr.stream := by
  rw [← h.history_map_snd]
  exact List.mem_map_of_mem hx

/-- A log that goes at least as far as `db.log` is a prefix of the history. -/
theorem tag_prefix (h : s.LogInv) {log : List LogRecord} (hd : s.logMgr.disk <+: log) (hl : log <+: s.logMgr.stream) :
    s.tag log <+: s.history := by
  obtain ⟨rest, hrest⟩ := hl
  rw [history, ← hrest, tag_append (h.older.trans hd)]
  exact List.prefix_append _ _

end LogInv

/-- The parts of the server that no step within an incarnation changes. -/
structure SameRun (s s' : Server) : Prop where
  older : s'.older = s.older
  epoch : s'.epoch = s.epoch
  shape : Fhs.SameShape s.fhs s'.fhs

/-- One record is appended. -/
structure Appends (s s' : Server) (r : LogRecord) : Prop extends SameRun s s' where
  wf : s'.logMgr.Wf
  stream : s'.logMgr.stream = s.logMgr.stream ++ [r]
  disk : s.logMgr.disk <+: s'.logMgr.disk
  global : s'.logMgr.globalLsn = s.logMgr.globalLsn + 1
  lsn : r.lsn = s.logMgr.globalLsn

/-- Records may become durable, and that is all. -/
structure Flushes (s s' : Server) : Prop extends SameRun s s' where
  wf : s'.logMgr.Wf
  stream : s'.logMgr.stream = s.logMgr.stream
  disk : s.logMgr.disk <+: s'.logMgr.disk
  global : s'.logMgr.globalLsn = s.logMgr.globalLsn

theorem Appends.of_addLog (h : s.LogInv) (hr : SameRun s s') {tid prevLsn : Int} {body : LogBody}
    (hlm : s'.logMgr = (s.logMgr.addLogToBuffer tid prevLsn body).2) :
    Appends s s' ⟨s.logMgr.globalLsn, tid, prevLsn, body⟩ where
  toSameRun := hr
  wf := hlm ▸ h.wf.addLogToBuffer
  stream := by rw [hlm, LogManager.stream_addLogToBuffer]
  disk := by
    obtain ⟨rs, hrs⟩ := s.logMgr.disk_addLogToBuffer tid prevLsn body
    exact ⟨rs, by rw [hlm, hrs]⟩
  global := by rw [hlm, LogManager.globalLsn_addLogToBuffer]
  lsn := rfl

theorem Appends.history {r : LogRecord} (ha : Appends s s' r) (h : s.LogInv) : s'.history = s.history ++ [(s.epoch, r)] := by
  have : s'.tag = s.tag := by
    funext log
    simp [tag, ha.older, ha.epoch]
  rw [Server.history, this, ha.stream, tag_append h.older_stream]
  rfl

theorem Flushes.of_flush (h : s.LogInv) (hr : SameRun s s') (hlm : s'.logMgr = s.logMgr.flushLogToDisk) :
    Flushes s s' where
  toSameRun := hr
  wf := hlm ▸ h.wf.flushLogToDisk
  stream := by rw [hlm, LogManager.stream_flushLogToDisk]
  disk := by
    obtain ⟨rs, hrs⟩ := s.logMgr.disk_flush_prefix
    exact ⟨rs, by rw [hlm, hrs]⟩
  global := by rw [hlm, LogManager.globalLsn_flushLogToDisk]

theorem Flushes.of_eq (h : s.LogInv) (hr : SameRun s s') (hlm : s'.logMgr = s.logMgr) : Flushes s s' where
  toSameRun := hr
  wf := hlm ▸ h.wf
  stream := by rw [hlm]
  disk := hlm ▸ List.prefix_refl _
  global := by rw [hlm]

theorem Flushes.history (hf : Flushes s s') : s'.history = s.history := by
  simp [Server.history, tag, hf.older, hf.epoch, hf.stream]

/-! ## Preservation -/

section started
variable {tid : Int} {txn txn' : Transaction}

theorem Started.same (h : s.Started tid txn) (hf : Flushes s s') (hid : s'.nextTxnId = s.nextTxnId)
    (hopen : txn'.phase.IsOpen ↔ txn.phase.IsOpen) (hgrow : txn'.phase = .growing → txn.phase = .growing) :
    s'.Started tid txn' where
  positive := hf.global ▸ h.positive
  id := hid ▸ h.id
  begun := by
    rw [hf.history, hf.epoch]
    exact h.begun
  committed := by
    rw [hf.history, hf.epoch, hopen]
    exact h.committed
  unended hg := by
    rw [hf.history, hf.epoch]
    exact h.unended (hgrow hg)

theorem Started.concat {r : LogRecord} (h : s.Started tid txn) (hl : s.LogInv) (ha : Appends s s' r)
    (hid : s.nextTxnId ≤ s'.nextTxnId)
    (hopen : txn'.phase.IsOpen ↔ txn.phase.IsOpen ∧ ¬ (r.logTid = tid ∧ r.body = .commit))
    (hgrow : txn'.phase = .growing → txn.phase = .growing ∧ (r.logTid = tid → ¬ Ends (s.epoch, r))) :
    s'.Started tid txn' where
  positive := by
    have := h.positive
    rw [ha.global]
    omega
  id := h.id.trans_le hid
  begun := by
    obtain ⟨x, hx, hb⟩ := h.begun
    rw [ha.history hl, ha.epoch]
    exact ⟨x, by simp [hx], hb⟩
  committed := by
    rw [ha.history hl, ha.epoch, hopen, committed_concat, h.committed, not_and_or, not_not]
    simp [inst, eq_comm]
  unended hg x hx hend := by
    rw [ha.history hl] at hx
    rw [ha.epoch]
    rcases List.mem_append.1 hx with hx | hx
    · exact h.unended (hgrow hg).1 x hx hend
    · rw [List.mem_singleton.1 hx] at hend ⊢
      exact fun he => (hgrow hg).2 (Prod.mk.inj he).2 hend

end started

theorem LogInv.same (h : s.LogInv) (hf : Flushes s s') (hid : s'.nextTxnId = s.nextTxnId)
    (hstarted : ∀ tid txn, s'.txns tid = some txn → s'.Started tid txn) : s'.LogInv where
  wf := hf.wf
  older := hf.older ▸ h.older.trans hf.disk
  tags := by
    rw [hf.older, hf.epoch]
    exact h.tags
  positive := hf.global ▸ h.positive
  dataLsn := hf.stream ▸ h.dataLsn
  valid r hr := (h.valid r (hf.stream ▸ hr)).congr hf.shape
  linked := hf.stream ▸ h.linked
  ordered := hf.history ▸ h.ordered
  started := hstarted
  ids := by
    rw [hf.history, hf.epoch, hid]
    exact h.ids
  begun := by
    rw [hf.history, hf.epoch]
    exact h.begun
  ended := by
    rw [hf.history]
    exact h.ended

theorem LogInv.concat {r : LogRecord} (h : s.LogInv) (ha : Appends s s' r) (hvalid : ValidFor s.fhs r)
    (hpos : r.body.target ≠ none → 0 < s.logMgr.globalLsn)
    (hlink : ∀ t ρ w, r.body.target = some (t, ρ, w) → w.old = final none (slotLog s.logMgr.stream t ρ))
    (hord : OrderedLog (s.history ++ [(s.epoch, r)])) (hid : s.nextTxnId ≤ s'.nextTxnId ∧ r.logTid < s'.nextTxnId)
    (hbegun : r.body.target ≠ none →
      ∃ y ∈ s.history, y.1 = s.epoch ∧ y.2.logTid = r.logTid ∧ y.2.body = .begin)
    (hend : ∀ x ∈ s.history, Ends x → inst x ≠ (s.epoch, r.logTid))
    (hstarted : ∀ tid txn, s'.txns tid = some txn → s'.Started tid txn) : s'.LogInv where
  wf := ha.wf
  older := ha.older ▸ h.older.trans ha.disk
  tags := by
    rw [ha.older, ha.epoch]
    exact h.tags
  positive := by
    have := h.positive
    rw [ha.global]
    omega
  dataLsn r' hr' hne := by
    rw [ha.stream] at hr'
    rcases List.mem_append.1 hr' with hr' | hr'
    · exact h.dataLsn r' hr' hne
    · rw [List.mem_singleton.1 hr'] at hne ⊢
      rw [ha.lsn]
      exact hpos hne
  valid r' hr' := by
    rw [ha.stream] at hr'
    refine ValidFor.congr ?_ ha.shape
    rcases List.mem_append.1 hr' with hr' | hr'
    · exact h.valid r' hr'
    · rwa [List.mem_singleton.1 hr']
  linked t ρ := by
    rw [ha.stream, slotLog_append]
    cases hw : r.body.writeOn t ρ with
    | none => simpa [slotLog_single_of_none hw] using h.linked t ρ
    | some w =>
      have ht := LogBody.writeOn_eq_some.1 hw
      rw [slotLog_single ht]
      exact linked_concat.2 ⟨h.linked t ρ, hlink t ρ w ht⟩
  ordered := ha.history h ▸ hord
  started := hstarted
  ids x hx hxe := by
    rw [ha.history h] at hx
    rw [ha.epoch] at hxe
    rcases List.mem_append.1 hx with hx | hx
    · exact (h.ids x hx hxe).trans_le hid.1
    · rw [List.mem_singleton.1 hx]
      exact hid.2
  begun A x B hsplit hxe hne := by
    rw [ha.history h] at hsplit
    rw [ha.epoch] at hxe ⊢
    rcases List.eq_nil_or_concat B with rfl | ⟨B, y, rfl⟩
    · obtain ⟨rfl, hx⟩ := List.append_inj' hsplit rfl
      obtain rfl : (s.epoch, r) = x := by simpa using hx
      exact hbegun hne
    · have hsplit' : s.history ++ [(s.epoch, r)] = (A ++ x :: B) ++ [y] := by simpa using hsplit
      obtain ⟨hhist, -⟩ := List.append_inj' hsplit' rfl
      exact h.begun A x B hhist hxe hne
  ended A x B hsplit hx y hy := by
    rw [ha.history h] at hsplit
    rcases List.eq_nil_or_concat B with rfl | ⟨B, z, rfl⟩
    · simp at hy
    · have hsplit' : s.history ++ [(s.epoch, r)] = (A ++ x :: B) ++ [z] := by simpa using hsplit
      obtain ⟨hhist, hz⟩ := List.append_inj' hsplit' rfl
      obtain rfl : (s.epoch, r) = z := by simpa using hz
      rw [List.concat_eq_append, List.mem_append, List.mem_singleton] at hy
      rcases hy with hy | rfl
      · exact h.ended A x B hhist hx y hy
      · exact (hend x (by simp [hhist]) hx).symm

end Server

end Rmdb
