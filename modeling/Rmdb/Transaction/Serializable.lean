import Rmdb.Transaction.Strictness

/-!
# Serializable runs

- `Inv.step`: every step of every session keeps the invariant of strict two-phase locking;
- `strict_of_run`: in every run, an access finds every conflicting transaction committed on disk or rolled back;
- `serializable_of_run`: and the committed transactions are conflict-equivalent to the serial order of their COMMIT
  records.
-/

namespace Rmdb

open Lib LockManager

namespace Sessions

variable {s s' : Sessions} {tid : Int} {se se' : Session}

/-! ## Steps of one transaction, seen by the others -/

/-- A step of transaction `tid`, with the accesses it made. -/
structure Frame (s s' : Sessions) (tid : Int) (l : List Access) : Prop where
  fd : s'.fd = s.fd
  base : s'.base = s.base
  same : ∀ t, t ≠ tid → ∀ id, s'.lockMgr.heldMode t id = s.lockMgr.heldMode t id
  stream : ∃ rs, s'.logMgr.stream = s.logMgr.stream ++ rs ∧ ∀ r ∈ rs, r.logTid = tid
  disk : ∃ rs, s'.logMgr.disk = s.logMgr.disk ++ rs
  sessions : ∀ t, t ≠ tid → s'.sessions t = s.sessions t
  history : s'.history = s.history ++ l
  accesses : ∀ a ∈ l, a.txnId = tid

section frame
variable {l : List Access} (hf : Frame s s' tid l) {t : Int} (ht : t ≠ tid)
include hf

theorem Frame.own_stream (hb : s.base ≤ s.logMgr.stream.length) :
    ∃ rs, s'.own s'.logMgr.stream = s.own s.logMgr.stream ++ rs ∧ ∀ r ∈ rs, r.logTid = tid := by
  obtain ⟨rs, hrs, htid⟩ := hf.stream
  refine ⟨rs, ?_, htid⟩
  unfold own
  rw [hf.base, hrs, List.drop_append_of_le_length hb]

theorem Frame.durable (h : s.CommitDurable t) : s'.CommitDurable t := by
  obtain ⟨r, hr, hcommit⟩ := h
  obtain ⟨rs, hrs⟩ := hf.disk
  refine ⟨r, ?_, hcommit⟩
  unfold own at hr ⊢
  rw [hf.base, hrs, List.drop_append]
  exact List.mem_append_left _ hr

theorem Frame.idxOf_lt (hb : s.base ≤ s.logMgr.stream.length) {t t' : Int}
    (h : (commitOrder (s.own s.logMgr.stream)).idxOf t < (commitOrder (s.own s.logMgr.stream)).idxOf t') :
    (commitOrder (s'.own s'.logMgr.stream)).idxOf t < (commitOrder (s'.own s'.logMgr.stream)).idxOf t' := by
  obtain ⟨rs, hrs, -⟩ := hf.own_stream hb
  obtain ⟨C, hC⟩ := commitOrder_append (s.own s.logMgr.stream) rs
  rw [hrs, hC]
  exact idxOf_append_lt h

include ht

theorem Frame.covers {tab : TabName} {w : Bool} : s'.Covers t tab w ↔ s.Covers t tab w := by
  unfold Covers
  rw [hf.fd, hf.same t ht]

theorem Frame.mem_commitOrder (hb : s.base ≤ s.logMgr.stream.length) :
    t ∈ commitOrder (s'.own s'.logMgr.stream) ↔ t ∈ commitOrder (s.own s.logMgr.stream) := by
  obtain ⟨rs, hrs, htid⟩ := hf.own_stream hb
  rw [Rmdb.mem_commitOrder, Rmdb.mem_commitOrder, hrs]
  constructor
  · rintro ⟨r, hr, hr1, hr2⟩
    rcases List.mem_append.1 hr with hr | hr
    · exact ⟨r, hr, hr1, hr2⟩
    · exact absurd (hr1.symm.trans (htid r hr)) ht
  · rintro ⟨r, hr, h⟩
    exact ⟨r, List.mem_append_left _ hr, h⟩

/-- The other transactions do not notice the step. -/
theorem SessionInv.frame (h : s.SessionInv t se) (hb : s.base ≤ s.logMgr.stream.length) : s'.SessionInv t se where
  txnId := h.txnId
  released hr := (h.released hr).imp_left hf.durable
  held hr a ha hat := by
    rw [hf.history] at ha
    rcases List.mem_append.1 ha with ha | ha
    · exact (hf.covers ht).2 (h.held hr a ha hat)
    · exact absurd (hat.symm.trans (hf.accesses a ha)) ht
  writes hr w hw := (hf.covers ht).2 (h.writes hr w hw)
  uncommitted hr hpc := fun hmem => h.uncommitted hr hpc ((hf.mem_commitOrder ht hb).1 hmem)
  logged hpc := (hf.mem_commitOrder ht hb).2 (h.logged hpc)
  working := h.working
  final := h.final
  guarded p hp := by
    obtain ⟨H, hH, hcov⟩ := h.guarded p hp
    exact ⟨H, hH, fun tab w hw => (hf.covers ht).2 (hcov tab w hw)⟩

end frame

/-- A step of one transaction keeps the invariant, if it does for that transaction. -/
theorem Inv.of_frame {l : List Access} (h : s.Inv) (hf : Frame s s' tid l) (hlocks : s'.lockMgr.Wf)
    (hse : s'.sessions tid = some se') (hown : s'.SessionInv tid se')
    (hnext : s.nextTxnId ≤ s'.nextTxnId ∧ tid < s'.nextTxnId) (hrolled : s.RolledBack tid → s'.RolledBack tid)
    (hnew : ∀ a ∈ s.history, ∀ b ∈ l, a.txnId ≠ tid → a.Conflict b → s'.Before a.txnId tid) : s'.Inv where
  locks := hlocks
  base := by
    obtain ⟨rs, hrs, -⟩ := hf.stream
    rw [hf.base, hrs, List.length_append]
    exact Nat.le_add_right_of_le h.base
  sessions t set hset := by
    by_cases ht : t = tid
    · rw [ht, hse] at hset
      cases hset
      rw [ht]
      exact hown
    · rw [hf.sessions t ht] at hset
      exact (h.sessions t set hset).frame hf ht h.base
  fresh t ht := by
    have hne : t ≠ tid := by omega
    have hfr := h.fresh t (by omega)
    exact ⟨(hf.sessions t hne).trans hfr.1, fun hmem => hfr.2 ((hf.mem_commitOrder hne h.base).1 hmem)⟩
  known a ha := by
    rw [hf.history] at ha
    by_cases hat : a.txnId = tid
    · exact ⟨se', hat ▸ hse⟩
    · rcases List.mem_append.1 ha with ha | ha
      · rw [hf.sessions _ hat]
        exact h.known a ha
      · exact absurd (hf.accesses a ha) hat
  order := by
    have hmono : ∀ t t', s.Before t t' → s'.Before t t' := by
      rintro t t' (⟨set, hset, hroll⟩ | hlt)
      · left
        by_cases ht : t = tid
        · rw [ht] at hset ⊢
          exact hrolled ⟨set, hset, hroll⟩
        · exact ⟨set, (hf.sessions t ht).trans hset, hroll⟩
      · exact .inr (hf.idxOf_lt h.base hlt)
    rw [hf.history]
    refine List.pairwise_append.2 ⟨h.order.imp fun {a b} hab hne hc => hmono _ _ (hab hne hc), ?_, ?_⟩
    · refine List.pairwise_of_forall_mem_list fun a ha b hb hne _ => ?_
      exact absurd ((hf.accesses a ha).trans (hf.accesses b hb).symm) hne
    · intro a ha b hb hne hc
      rw [hf.accesses b hb] at hne ⊢
      exact hnew a ha b hb hne hc

/-! ## The steps -/

/-- A step that changes only the thread of the transaction. -/
theorem Inv.of_thread (h : s.Inv) (hse : s.sessions tid = some se) (hown : s.SessionInv tid se')
    (hrolled : se.rolledBack = true → se'.rolledBack = true) : (s.setSession tid se').Inv := by
  have hf : Frame s (s.setSession tid se') tid [] :=
    ⟨rfl, rfl, fun _ _ _ => rfl, ⟨[], by simp [setSession], by simp⟩, ⟨[], by simp [setSession]⟩,
      fun t ht => by simp [setSession, ht], by simp [setSession], by simp⟩
  have hset : (s.setSession tid se').sessions tid = some se' := by simp [setSession]
  have hlt : tid < s.nextTxnId := by
    by_contra hge
    have hnone := (h.fresh tid (by omega)).1
    rw [hse] at hnone
    cases hnone
  refine h.of_frame hf h.locks hset ?_ ⟨le_refl _, hlt⟩ ?_ (by simp)
  · exact { hown with }
  · rintro ⟨set, heq, hr⟩
    rw [hse] at heq
    cases heq
    exact ⟨se', hset, hrolled hr⟩

theorem not_released_of_working (h : working se.pc = true) (he : ended se = false) : ¬ Released se := by
  rintro (hr | ⟨locks, final, hpc⟩)
  · rw [he] at hr
    cases hr
  · rw [hpc] at h
    cases h

/-- A thread at `pc` whose transaction is still on. -/
theorem SessionInv.at_pc (h : s.SessionInv tid se) (hnr : ¬ Released se) (hcl : se.pc ≠ .commitLogged) {pc : Pc}
    (hpc : pc ≠ .commitLogged) (hunl : ∀ locks final, pc ≠ .unlocking locks final)
    (hguard : ∀ p, pc = .stmt p ∨ pc = .undoing p →
      ∃ H : Locks, Guarded p (fun _ _ => True) H ∧ ∀ t w, H t w → s.Covers tid t w)
    {ws : List WriteRecord} (hws : ∀ w ∈ ws, w ∈ se.writeSet) :
    s.SessionInv tid { se with pc := pc, writeSet := ws } where
  txnId := h.txnId
  released hr := by
    rcases hr with hr | ⟨locks, final, hr⟩
    · exact absurd (.inl hr) hnr
    · exact absurd hr (hunl locks final)
  held _ := h.held hnr
  writes _ w hw := h.writes hnr w (hws w hw)
  uncommitted _ _ := h.uncommitted hnr hcl
  logged heq := absurd heq hpc
  working _ := by
    by_contra he
    exact hnr (.inl (Bool.eq_true_of_not_eq_false he))
  final locks final heq := absurd heq (hunl locks final)
  guarded := hguard

theorem not_released_of_idle (hi : idle se = true) (he : ended se = false) :
    ¬ Released se ∧ se.pc ≠ .commitLogged := by
  unfold idle at hi
  split at hi
  · next hpc =>
    refine ⟨?_, by simp [hpc]⟩
    rintro (hr | ⟨locks, final, heq⟩)
    · rw [he] at hr
      cases hr
    · rw [hpc] at heq
      cases heq
  · cases hi

/-- Appending a record of the transaction's own, with the locks as they are. -/
theorem Inv.of_logRecord (h : s.Inv) (hse : s.sessions tid = some se) {body : LogBody} {pc : Pc}
    (hown : (s.logRecord tid se body pc).SessionInv tid
      { se with prevLsn := (s.logMgr.addLogToBuffer tid se.prevLsn body).1, pc := pc }) :
    (s.logRecord tid se body pc).Inv := by
  have hf : Frame s (s.logRecord tid se body pc) tid [] :=
    ⟨rfl, rfl, fun _ _ _ => rfl, ⟨[⟨s.logMgr.globalLsn, tid, se.prevLsn, body⟩], by simp [logRecord, setSession], by simp⟩,
      LogManager.disk_addLogToBuffer _ _ _ _, fun t ht => by simp [logRecord, setSession, ht],
      by simp [logRecord, setSession], by simp⟩
  have hlt : tid < s.nextTxnId := by
    by_contra hge
    have hnone := (h.fresh tid (by omega)).1
    rw [hse] at hnone
    cases hnone
  have hset : (s.logRecord tid se body pc).sessions tid =
      some { se with prevLsn := (s.logMgr.addLogToBuffer tid se.prevLsn body).1, pc := pc } := by
    simp [logRecord, setSession]
  refine h.of_frame hf h.locks hset hown ⟨le_refl _, hlt⟩ ?_ (by simp)
  rintro ⟨set, heq, hr⟩
  rw [hse] at heq
  cases heq
  exact ⟨_, hset, hr⟩

/-- A call of a program that keeps to its locks. -/
theorem Inv.execCall (h : s.Inv) (hse : s.sessions tid = some se) (logging : Bool) (answers : IxAnswers)
    {next : Exec Unit → Pc} (hnext : next = .stmt ∨ next = .undoing) {c : Call} {k : c.Resp → Exec Unit}
    (hpc : se.pc = next (.call c k)) : (s.execCall tid se logging answers next c k).Inv := by
  have hinv := h.sessions tid se hse
  have hpc' : se.pc = .stmt (.call c k) ∨ se.pc = .undoing (.call c k) := by
    rcases hnext with rfl | rfl
    · exact .inl hpc
    · exact .inr hpc
  have hwork : working se.pc = true := by rcases hpc' with hp | hp <;> rw [hp] <;> rfl
  have hnr := not_released_of_working hwork (hinv.working hwork)
  have hcl : se.pc ≠ .commitLogged := by rcases hpc' with hp | hp <;> rw [hp] <;> simp
  obtain ⟨H, ⟨hallow, hk⟩, hH⟩ := hinv.guarded _ hpc'
  have hcall : s.NextCall tid c := ⟨se, k, hse, hpc'⟩
  have hlt : tid < s.nextTxnId := by
    by_contra hge
    have hnone := (h.fresh tid (by omega)).1
    rw [hse] at hnone
    cases hnone
  have hp := perform_spec (s := s) hinv.txnId logging answers c
  obtain ⟨⟨res, se₁, s₁⟩, hres⟩ : ∃ r, s.perform se logging answers c = r := ⟨_, rfl⟩
  rw [hres] at hp
  obtain ⟨p, hpdef⟩ : ∃ p, p = resume k res := ⟨_, rfl⟩
  have hexec : s.execCall tid se logging answers next c k = (s₁.note tid c).setSession tid { se₁ with pc := next p } := by
    simp only [Sessions.execCall, hres, hpdef]
  rw [hexec]
  obtain ⟨rs, hrs, hdata⟩ := hp.stream
  -- the accesses of the call, and what they leave as it was
  obtain ⟨l, hl, hlmem⟩ : ∃ l, (s₁.note tid c).history = s.history ++ l ∧
      ∀ a ∈ l, ∃ t w, c.access = some (t, w) ∧ a = ⟨tid, t, w⟩ := by
    unfold note
    split
    · next t w hc =>
      refine ⟨[⟨tid, t, w⟩], by rw [← hp.history], fun a ha => ?_⟩
      exact ⟨t, w, hc, List.mem_singleton.1 ha⟩
    · exact ⟨[], by rw [hp.history, List.append_nil], by simp⟩
  have hnote : ∀ {β : Type} (f : Sessions → β), (∀ H, f { s₁ with history := H } = f s₁) →
      f (s₁.note tid c) = f s₁ := by
    intro β f hf
    unfold note
    split
    · exact hf _
    · rfl
  have hlog : (s₁.note tid c).logMgr = s₁.logMgr := hnote (·.logMgr) fun _ => rfl
  have hlm : (s₁.note tid c).lockMgr = s₁.lockMgr := hnote (·.lockMgr) fun _ => rfl
  have hfd : (s₁.note tid c).fd = s.fd := (hnote (·.fd) fun _ => rfl).trans hp.fd
  have hbase : (s₁.note tid c).base = s.base := (hnote (·.base) fun _ => rfl).trans hp.base
  have hsess : (s₁.note tid c).sessions = s.sessions := (hnote (·.sessions) fun _ => rfl).trans hp.sessions
  have hnx : (s₁.note tid c).nextTxnId = s.nextTxnId := (hnote (·.nextTxnId) fun _ => rfl).trans hp.nextTxnId
  have hf : Frame s ((s₁.note tid c).setSession tid { se₁ with pc := next p }) tid l := by
    refine ⟨hfd, hbase, fun t ht id => ?_, ⟨rs, ?_, fun r hr => (hdata r hr).1⟩, ?_, fun t ht => ?_, hl, ?_⟩
    · show (s₁.note tid c).lockMgr.heldMode t id = _
      rw [hlm]
      exact hp.same t ht id
    · show (s₁.note tid c).logMgr.stream = _
      rw [hlog]
      exact hrs
    · show ∃ rs, (s₁.note tid c).logMgr.disk = _
      rw [hlog]
      exact hp.disk
    · simp only [setSession, Function.update_of_ne ht, hsess]
    · intro a ha
      obtain ⟨t, w, -, rfl⟩ := hlmem a ha
      rfl
  have hcov : ∀ t w, s₁.Covers tid t w → ((s₁.note tid c).setSession tid { se₁ with pc := next p }).Covers tid t w := by
    rintro t w ⟨m, hm, hw⟩
    refine ⟨m, ?_, hw⟩
    show (s₁.note tid c).lockMgr.heldMode tid (.table ((s₁.note tid c).fd t)) = some m
    rw [hlm, hfd, ← hp.fd]
    exact hm
  have hset : ((s₁.note tid c).setSession tid { se₁ with pc := next p }).sessions tid =
      some { se₁ with pc := next p } := by simp [setSession]
  have hnone : tid ∉ commitOrder (s.own s.logMgr.stream) := hinv.uncommitted hnr hcl
  have hpcn : ∀ locks final, next p ≠ .unlocking locks final := by
    rcases hnext with rfl | rfl <;> simp
  have hclo : next p ≠ .commitLogged := by rcases hnext with rfl | rfl <;> simp
  have hend : ended { se₁ with pc := next p } = false := by
    show ended se₁ = false
    rw [hp.ended]
    exact hinv.working hwork
  have hwf : (s₁.note tid c).lockMgr.Wf := by
    rw [hlm]
    exact hp.locks h.locks
  have hlt' : tid < (s₁.note tid c).nextTxnId := by
    rw [hnx]
    exact hlt
  refine h.of_frame hf hwf hset ?_ ⟨le_of_eq hnx.symm, hlt'⟩ ?_ ?_
  · constructor
    · exact hp.txnId.trans hinv.txnId
    · rintro (hr | ⟨locks, final, hr⟩)
      · rw [hend] at hr
        cases hr
      · exact absurd hr (hpcn locks final)
    · intro _ a ha hat
      rw [hf.history] at ha
      rcases List.mem_append.1 ha with ha | ha
      · exact hcov _ _ (hp.mono _ _ (hinv.held hnr a ha hat))
      · obtain ⟨t, w, hc, rfl⟩ := hlmem a ha
        exact hcov _ _ (hp.mono _ _ (hcall.covers h hc))
    · intro _ w hw
      rcases hp.writes w hw with hw | rfl
      · exact hcov _ _ (hp.mono _ _ (hinv.writes hnr w hw))
      · exact hcov _ _ (hp.mono _ _ (hH _ _ (hallow.2 w rfl)))
    · intro _ _ hmem
      obtain ⟨r, hr, hr1, hr2⟩ := mem_commitOrder.1 hmem
      have hown : own ((s₁.note tid c).setSession tid { se₁ with pc := next p })
          ((s₁.note tid c).setSession tid { se₁ with pc := next p }).logMgr.stream =
          s.own s.logMgr.stream ++ rs := by
        show ((s₁.note tid c).logMgr.stream).drop (s₁.note tid c).base = _
        rw [hlog, hbase, hrs, List.drop_append_of_le_length h.base]
        rfl
      rw [hown] at hr
      rcases List.mem_append.1 hr with hr | hr
      · exact hnone (mem_commitOrder.2 ⟨r, hr, hr1, hr2⟩)
      · exact (hdata r hr).2 (by rw [hr2]; trivial)
    · exact fun heq => absurd heq hclo
    · exact fun _ => hend
    · exact fun locks final heq => absurd heq (hpcn locks final)
    · intro p' hp'
      have hpp : p' = p := by
        rcases hnext with rfl | rfl <;> rcases hp' with hp' | hp' <;> first | cases hp'; rfl | cases hp'
      subst hpp
      cases hr : res with
      | error e =>
        rw [hr] at hpdef
        rw [hpdef]
        exact ⟨fun _ _ => False, trivial, fun _ _ hfalse => hfalse.elim⟩
      | ok a =>
        rw [hr] at hpdef
        rw [hpdef]
        refine ⟨H.after c, hk a, fun t w hw => hcov _ _ ?_⟩
        exact hp.granted ⟨a, hr⟩ H hH t w hw
  · rintro ⟨set, heq, hr⟩
    rw [hse] at heq
    cases heq
    exact ⟨_, hset, hp.rolledBack.trans hr⟩
  · intro a ha b hb hne hconf
    obtain ⟨t, w, hc, rfl⟩ := hlmem b hb
    rcases h.strict hcall hc ha hne hconf with hd | ⟨set, hset', hr⟩
    · -- the earlier transaction is in the commit order, the one that makes the access is not
      right
      obtain ⟨r, hr, hr1, hr2⟩ := hd
      apply hf.idxOf_lt h.base
      rw [List.idxOf_of_notMem hnone]
      refine List.idxOf_lt_length_iff.2 (mem_commitOrder.2 ⟨r, ?_, hr1, hr2⟩)
      unfold own at hr ⊢
      unfold LogManager.stream
      rw [List.drop_append]
      exact List.mem_append_left _ hr
    · exact .inl ⟨set, (hf.sessions _ hne).trans hset', hr⟩

theorem Inv.exec (h : s.Inv) {answers : IxAnswers} (hstep : s.exec tid answers = some s') : s'.Inv := by
  cases hse : s.sessions tid with
  | none => simp [Sessions.exec, hse] at hstep
  | some se =>
    have hinv := h.sessions tid se hse
    simp only [Sessions.exec, hse, Option.bind_eq_bind, Option.bind_some] at hstep
    -- between two calls only the place of the thread changes, and the transaction is still on
    have hmove : ∀ (pc : Pc) (ws : List WriteRecord), working se.pc = true → pc ≠ .commitLogged →
        (∀ locks final, pc ≠ .unlocking locks final) → (∀ p, pc ≠ .stmt p ∧ pc ≠ .undoing p) →
        (∀ w ∈ ws, w ∈ se.writeSet) → (s.setSession tid { se with pc := pc, writeSet := ws }).Inv := by
      intro pc ws hwork hpc hunl hprog hws
      have hnr := not_released_of_working hwork (hinv.working hwork)
      have hcl : se.pc ≠ .commitLogged := fun heq => by simp [heq, Sessions.working] at hwork
      refine h.of_thread hse (hinv.at_pc hnr hcl hpc hunl (fun p hp => ?_) hws) fun hr => hr
      exact absurd hp (not_or.2 ⟨(hprog p).1, (hprog p).2⟩)
    split at hstep
    · next c k hpc =>
      cases hstep
      exact h.execCall hse true answers (.inl rfl) hpc
    · next a hpc =>
      cases hstep
      exact hmove .idle se.writeSet (by rw [hpc]; rfl) (by simp) (by simp) (by simp) fun _ hw => hw
    · next e hpc =>
      cases hstep
      exact hmove .idle se.writeSet (by rw [hpc]; rfl) (by simp) (by simp) (by simp) fun _ hw => hw
    · next e hpc =>
      cases hstep
      exact hmove .aborting se.writeSet (by rw [hpc]; rfl) (by simp) (by simp) (by simp) fun _ hw => hw
    · next c k hpc =>
      cases hstep
      exact h.execCall hse false answers (.inr rfl) hpc
    · next a hpc =>
      cases hstep
      exact hmove .rollback se.writeSet.tail (by rw [hpc]; rfl) (by simp) (by simp) (by simp)
        fun _ hw => List.mem_of_mem_tail hw
    · next e hpc =>
      cases hstep
      exact hmove .idle se.writeSet (by rw [hpc]; rfl) (by simp) (by simp) (by simp) fun _ hw => hw
    · cases hstep

theorem Inv.begin (h : s.Inv) : s.beginTxn.Inv := by
  have hfresh := h.fresh s.nextTxnId (le_refl _)
  have hf : Frame s s.beginTxn s.nextTxnId [] :=
    ⟨rfl, rfl, fun _ _ _ => rfl,
      ⟨[⟨s.logMgr.globalLsn, s.nextTxnId, invalidLsn, .begin⟩], by simp [beginTxn, setSession], by simp⟩,
      LogManager.disk_addLogToBuffer _ _ _ _, fun t ht => by simp [beginTxn, setSession, ht],
      by simp [beginTxn, setSession], by simp⟩
  have hset : s.beginTxn.sessions s.nextTxnId = some ⟨⟨s.nextTxnId, .default, []⟩, s.logMgr.globalLsn, [], .idle, false⟩ := by
    simp [beginTxn, setSession]
  have hnr : ¬ Released ⟨⟨s.nextTxnId, .default, []⟩, s.logMgr.globalLsn, [], .idle, false⟩ := by
    rintro (hr | ⟨locks, final, hr⟩) <;> cases hr
  refine h.of_frame hf h.locks hset ?_ (show s.nextTxnId ≤ s.nextTxnId + 1 ∧ s.nextTxnId < s.nextTxnId + 1 by omega) ?_
    (by simp)
  · constructor
    · rfl
    · exact fun hr => absurd hr hnr
    · -- no access is by a transaction that has only just begun
      intro _ a ha hat
      rw [hf.history, List.append_nil] at ha
      obtain ⟨set, hset⟩ := h.known a ha
      rw [hat, hfresh.1] at hset
      cases hset
    · simp
    · intro _ _ hmem
      obtain ⟨r, hr, hr1, hr2⟩ := mem_commitOrder.1 hmem
      have hown : own s.beginTxn s.beginTxn.logMgr.stream = s.own s.logMgr.stream ++
          [⟨s.logMgr.globalLsn, s.nextTxnId, invalidLsn, .begin⟩] := by
        show (s.logMgr.addLogToBuffer s.nextTxnId invalidLsn .begin).2.stream.drop s.base = _
        rw [LogManager.stream_addLogToBuffer, List.drop_append_of_le_length h.base]
        rfl
      rw [hown] at hr
      rcases List.mem_append.1 hr with hr | hr
      · exact hfresh.2 (mem_commitOrder.2 ⟨r, hr, hr1, hr2⟩)
      · rw [List.mem_singleton.1 hr] at hr2
        cases hr2
    · simp
    · simp [Sessions.working]
    · simp
    · simp
  · rintro ⟨set, hset', -⟩
    rw [hfresh.1] at hset'
    cases hset'

theorem Inv.start (h : s.Inv) (hse : s.sessions tid = some se) (hi : idle se = true) (he : ended se = false) (fuel : Nat)
    (stmt : Stmt) : (s.setSession tid { se with pc := .stmt (stmt.prog fuel) }).Inv := by
  obtain ⟨hnr, hcl⟩ := not_released_of_idle hi he
  refine h.of_thread hse ((h.sessions tid se hse).at_pc hnr hcl (by simp) (by simp) ?_ fun _ hw => hw) fun hr => hr
  rintro p (hp | hp)
  · cases hp
    exact ⟨fun _ _ => False, guarded_stmt fuel stmt, fun _ _ hfalse => hfalse.elim⟩
  · cases hp

/-- Logging a record leaves the transaction's locks as they are. -/
theorem SessionInv.of_logRecord (h : s.SessionInv tid se) {body : LogBody} {pc : Pc} (hb : s.base ≤ s.logMgr.stream.length)
    (hunl : ∀ locks final, pc ≠ .unlocking locks final) (hprog : ∀ p, pc ≠ .stmt p ∧ pc ≠ .undoing p)
    (hidle : ∀ locks final, se.pc ≠ .unlocking locks final) (hwork : Sessions.working pc = true → ended se = false)
    (hlogged : pc = .commitLogged → body = .commit)
    (hopen : pc ≠ .commitLogged → body ≠ .commit ∧ se.pc ≠ .commitLogged) :
    (s.logRecord tid se body pc).SessionInv tid
      { se with prevLsn := (s.logMgr.addLogToBuffer tid se.prevLsn body).1, pc := pc } := by
  have hown : own (s.logRecord tid se body pc) (s.logRecord tid se body pc).logMgr.stream =
      s.own s.logMgr.stream ++ [⟨s.logMgr.globalLsn, tid, se.prevLsn, body⟩] := by
    show (s.logMgr.addLogToBuffer tid se.prevLsn body).2.stream.drop s.base = _
    rw [LogManager.stream_addLogToBuffer, List.drop_append_of_le_length hb]
    rfl
  have hrel : ∀ {pc' : Pc} {lsn : Int}, (∀ locks final, pc' ≠ .unlocking locks final) →
      Released { se with prevLsn := lsn, pc := pc' } → Released se := by
    rintro pc' lsn hpc' (hr | ⟨locks, final, hr⟩)
    · exact .inl hr
    · exact absurd hr (hpc' locks final)
  have hnr : ∀ {pc' : Pc} {lsn : Int}, ¬ Released { se with prevLsn := lsn, pc := pc' } → ¬ Released se := by
    rintro pc' lsn hn (hr | ⟨locks, final, hr⟩)
    · exact hn (.inl hr)
    · exact hidle locks final hr
  constructor
  · exact h.txnId
  · intro hr
    refine (h.released (hrel hunl hr)).imp_left ?_
    rintro ⟨r, hr, hcommit⟩
    obtain ⟨rs, hrs⟩ := s.logMgr.disk_addLogToBuffer tid se.prevLsn body
    refine ⟨r, ?_, hcommit⟩
    show r ∈ (s.logMgr.addLogToBuffer tid se.prevLsn body).2.disk.drop s.base
    rw [hrs, List.drop_append]
    exact List.mem_append_left _ hr
  · exact fun hn => h.held (hnr hn)
  · exact fun hn => h.writes (hnr hn)
  · intro hn hpc hmem
    obtain ⟨r, hr, hr1, hr2⟩ := mem_commitOrder.1 hmem
    rw [hown] at hr
    rcases List.mem_append.1 hr with hr | hr
    · exact h.uncommitted (hnr hn) (hopen hpc).2 (mem_commitOrder.2 ⟨r, hr, hr1, hr2⟩)
    · rw [List.mem_singleton.1 hr] at hr2
      exact (hopen hpc).1 hr2
  · intro hpc
    rw [hown]
    exact mem_commitOrder.2 ⟨_, List.mem_append_right _ (List.mem_singleton_self _), rfl, hlogged hpc⟩
  · exact hwork
  · exact fun locks final heq => absurd heq (hunl locks final)
  · exact fun p hp => absurd hp (not_or.2 ⟨(hprog p).1, (hprog p).2⟩)

/-- A flush by the thread that moves on to `pc`. -/
theorem Inv.of_flush (h : s.Inv) (hse : s.sessions tid = some se)
    (hown : (s.flush.setSession tid se').SessionInv tid se') (hrolled : se.rolledBack = true → se'.rolledBack = true) :
    (s.flush.setSession tid se').Inv := by
  have hf : Frame s (s.flush.setSession tid se') tid [] :=
    ⟨rfl, rfl, fun _ _ _ => rfl, ⟨[], by simp [Sessions.flush, setSession], by simp⟩, s.logMgr.disk_flush_prefix,
      fun t ht => by simp [Sessions.flush, setSession, ht], by simp [Sessions.flush, setSession], by simp⟩
  have hlt : tid < s.nextTxnId := by
    by_contra hge
    have hnone := (h.fresh tid (by omega)).1
    rw [hse] at hnone
    cases hnone
  have hset : (s.flush.setSession tid se').sessions tid = some se' := by simp [setSession]
  refine h.of_frame hf h.locks hset hown ⟨le_refl _, hlt⟩ ?_ (by simp)
  rintro ⟨set, heq, hr⟩
  rw [hse] at heq
  cases heq
  exact ⟨se', hset, hrolled hr⟩

theorem own_flush (s : Sessions) : s.flush.own s.flush.logMgr.stream = s.own s.logMgr.stream := by
  simp [Sessions.flush, own]

/-- After a flush the COMMIT records of the log are durable. -/
theorem durable_flush (h : tid ∈ commitOrder (s.own s.logMgr.stream)) : s.flush.CommitDurable tid := by
  obtain ⟨r, hr, hcommit⟩ := mem_commitOrder.1 h
  refine ⟨r, ?_, hcommit⟩
  show r ∈ s.logMgr.flushLogToDisk.disk.drop s.base
  rw [LogManager.disk_flushLogToDisk]
  exact hr

theorem SessionInv.flush (h : s.SessionInv tid se) : s.flush.SessionInv tid se := by
  have hown := s.own_flush
  refine { h with
    released := fun hr => (h.released hr).imp_left ?_
    uncommitted := fun hr hpc => by rw [hown]; exact h.uncommitted hr hpc
    logged := fun hpc => by rw [hown]; exact h.logged hpc }
  rintro ⟨r, hr, hcommit⟩
  obtain ⟨rs, hrs⟩ := s.logMgr.disk_flush_prefix
  refine ⟨r, ?_, hcommit⟩
  show r ∈ s.logMgr.flushLogToDisk.disk.drop s.base
  rw [hrs, List.drop_append]
  exact List.mem_append_left _ hr

theorem Inv.flush (h : s.Inv) : s.flush.Inv where
  locks := h.locks
  base := by
    show s.base ≤ s.logMgr.flushLogToDisk.stream.length
    rw [LogManager.stream_flushLogToDisk]
    exact h.base
  sessions t set hset := (h.sessions t set hset).flush
  fresh t ht := by
    rw [s.own_flush]
    exact h.fresh t ht
  known := h.known
  order := by
    refine h.order.imp fun {a b} hab hne hc => ?_
    unfold Before
    rw [s.own_flush]
    exact hab hne hc

/-- A transaction that only has its locks to release. -/
theorem SessionInv.of_unlocking {locks : List LockDataId} {final : TransactionState} (htid : se.owner.txnId = tid)
    (hpc : se.pc = .unlocking locks final) (hend : s.CommitDurable tid ∨ se.rolledBack = true)
    (hfinal : final = .committed ∨ final = .aborted) : s.SessionInv tid se := by
  have hrel : Released se := .inr ⟨locks, final, hpc⟩
  constructor
  · exact htid
  · exact fun _ => hend
  · exact fun hn => absurd hrel hn
  · exact fun hn => absurd hrel hn
  · exact fun hn => absurd hrel hn
  · intro heq
    rw [hpc] at heq
    cases heq
  · intro hw
    rw [hpc] at hw
    cases hw
  · intro locks' final' heq
    rw [hpc] at heq
    cases heq
    exact hfinal
  · intro p hp
    rw [hpc] at hp
    rcases hp with hp | hp <;> cases hp

theorem Inv.advance (h : s.Inv) (hstep : s.advance tid = some s') : s'.Inv := by
  cases hse : s.sessions tid with
  | none => simp [Sessions.advance, hse] at hstep
  | some se =>
    have hinv := h.sessions tid se hse
    simp only [Sessions.advance, hse, Option.bind_eq_bind, Option.bind_some] at hstep
    split at hstep
    · next hpc =>
      cases hstep
      refine h.of_flush hse ?_ fun hr => hr
      exact .of_unlocking hinv.txnId rfl (.inl (durable_flush (hinv.logged hpc))) (.inl rfl)
    · next hpc =>
      cases hstep
      have hnr := not_released_of_working (by rw [hpc]; rfl) (hinv.working (by rw [hpc]; rfl))
      have hroll : s.SessionInv tid { se with pc := .rollback } :=
        hinv.at_pc hnr (by simp [hpc]) (by simp) (by simp) (by simp) fun _ hw => hw
      refine h.of_flush hse ?_ fun hr => hr
      exact { hroll.flush with }
    · next hpc =>
      have hnr := not_released_of_working (by rw [hpc]; rfl) (hinv.working (by rw [hpc]; rfl))
      split at hstep
      · next w ws hws =>
        cases hstep
        refine h.of_thread hse ?_ fun hr => hr
        refine hinv.at_pc hnr (by simp [hpc]) (by simp) (by simp) (fun p hp => ?_) fun _ hw => hw
        have hp : p = rollbackWrite w := by
          rcases hp with hp | hp <;> cases hp
          rfl
        obtain ⟨m, hm, hX⟩ := hinv.writes hnr w (by rw [hws]; exact List.mem_cons_self)
        refine ⟨fun t _ => t = w.tabName, hp ▸ guarded_rollbackWrite w fun _ => rfl, ?_⟩
        rintro t b rfl
        refine ⟨m, hm, ?_⟩
        rw [covers_true hX]
        cases b <;> rfl
      · next hws =>
        cases hstep
        refine h.of_thread hse ?_ fun _ => rfl
        exact .of_unlocking hinv.txnId rfl (.inr rfl) (.inr rfl)
    · next id locks final hpc =>
      have hun := s.lockMgr.unlock_spec se.owner id
      obtain ⟨⟨ok, owner, lm⟩, hres⟩ : ∃ r, s.lockMgr.unlock se.owner id = r := ⟨_, rfl⟩
      rw [hres] at hun
      rw [hres] at hstep
      cases hstep
      have htid : owner.txnId = tid := hun.txnId.trans hinv.txnId
      have hf : Frame s ({ s with lockMgr := lm }.setSession tid
          { se with owner := owner, pc := .unlocking locks final }) tid [] :=
        ⟨rfl, rfl, fun t ht id' => hun.same t id' (.inl (hinv.txnId.symm ▸ ht)), ⟨[], by simp [setSession], by simp⟩,
          ⟨[], by simp [setSession]⟩, fun t ht => by simp [setSession, ht], by simp [setSession], by simp⟩
      have hlt : tid < s.nextTxnId := by
        by_contra hge
        have hnone := (h.fresh tid (by omega)).1
        rw [hse] at hnone
        cases hnone
      have hset : ({ s with lockMgr := lm }.setSession tid
          { se with owner := owner, pc := .unlocking locks final }).sessions tid =
          some { se with owner := owner, pc := .unlocking locks final } := by simp [setSession]
      refine h.of_frame hf (hun.wf h.locks) hset ?_ ⟨le_refl _, hlt⟩ ?_ (by simp)
      · have hend := hinv.released (.inr ⟨_, _, hpc⟩)
        exact .of_unlocking htid rfl hend (hinv.final _ _ hpc)
      · rintro ⟨set, heq, hr⟩
        rw [hse] at heq
        cases heq
        exact ⟨_, hset, hr⟩
    · next final hpc =>
      cases hstep
      have hend := hinv.released (.inr ⟨_, _, hpc⟩)
      have hended : ended { se with
          owner := { se.owner with state := final, lockSet := [] }, writeSet := [], pc := .idle } = true := by
        rcases hinv.final _ _ hpc with rfl | rfl <;> rfl
      refine h.of_thread hse ?_ fun hr => hr
      constructor
      · exact hinv.txnId
      · exact fun _ => hend
      · exact fun hn => absurd (.inl hended) hn
      · exact fun hn => absurd (.inl hended) hn
      · exact fun hn => absurd (.inl hended) hn
      · simp
      · simp [Sessions.working]
      · simp
      · simp
    · cases hstep

theorem idle_pc (hi : idle se = true) : se.pc = .idle := by
  unfold idle at hi
  split at hi
  · assumption
  · cases hi

theorem Inv.step (h : s.Inv) {a : Action} (hstep : s.step a = some s') : s'.Inv := by
  cases a with
  | «begin» =>
    cases hstep
    exact h.begin
  | start tid fuel stmt =>
    cases hse : s.sessions tid with
    | none => simp [Sessions.step, hse] at hstep
    | some se =>
      simp only [Sessions.step, hse, Option.bind_eq_bind, Option.bind_some] at hstep
      split at hstep
      · next hcond =>
        cases hstep
        simp only [Bool.and_eq_true, Bool.not_eq_true'] at hcond
        exact h.start hse hcond.1 hcond.2 fuel stmt
      · cases hstep
  | exec tid answers => exact h.exec hstep
  | commit tid =>
    cases hse : s.sessions tid with
    | none => simp [Sessions.step, hse] at hstep
    | some se =>
      simp only [Sessions.step, hse, Option.bind_eq_bind, Option.bind_some] at hstep
      split at hstep
      · next hcond =>
        cases hstep
        have hpc := idle_pc hcond
        refine h.of_logRecord hse ((h.sessions tid se hse).of_logRecord h.base ?_ ?_ ?_ ?_ ?_ ?_) <;>
          simp [hpc, Sessions.working]
      · cases hstep
  | abort tid =>
    cases hse : s.sessions tid with
    | none => simp [Sessions.step, hse] at hstep
    | some se =>
      have hinv := h.sessions tid se hse
      simp only [Sessions.step, hse, Option.bind_eq_bind, Option.bind_some] at hstep
      split at hstep
      · next hcond =>
        cases hstep
        have hpc : (se.pc = .idle ∨ se.pc = .aborting) ∧ ended se = false := by
          simp only [Bool.or_eq_true, Bool.and_eq_true, Bool.not_eq_true'] at hcond
          rcases hcond with hcond | hcond
          · exact ⟨.inl (idle_pc hcond.1), hcond.2⟩
          · unfold caughtAbort at hcond
            split at hcond
            · next hp => exact ⟨.inr hp, hinv.working (by rw [hp]; rfl)⟩
            · cases hcond
        refine h.of_logRecord hse (hinv.of_logRecord h.base (by simp) (by simp) ?_ (fun _ => hpc.2) (by simp) ?_)
        · intro locks final heq
          rcases hpc.1 with hp | hp <;> rw [hp] at heq <;> cases heq
        · intro _
          refine ⟨by simp, ?_⟩
          rcases hpc.1 with hp | hp <;> simp [hp]
      · cases hstep
  | advance tid => exact h.advance hstep
  | flushLog =>
    cases hstep
    exact h.flush

/-! ## Runs -/

theorem inv_init (lm : LogManager) (fhs : Fhs) (db : TabName → Option TabMeta) (fd : TabName → Int) :
    (init lm fhs db fd).Inv where
  locks _ := by simp [init, queue, QueueWf]
  base := le_refl _
  sessions _ _ h := by cases h
  fresh _ _ := ⟨rfl, by simp [init, own, commitOrder]⟩
  known _ h := absurd h List.not_mem_nil
  order := List.Pairwise.nil

theorem Inv.run (h : s.Inv) {as : List Action} (hrun : s.run as = some s') : s'.Inv := by
  induction as generalizing s with
  | nil =>
    cases hrun
    exact h
  | cons a as ih =>
    simp only [Sessions.run, Option.bind_eq_some_iff] at hrun
    obtain ⟨s₁, h₁, h₂⟩ := hrun
    exact ih (h.step h₁) h₂

/-- What `db.log` holds when `k` records of the buffer have reached it as well. -/
def durableLog (s : Sessions) (k : Nat) : List LogRecord := s.own (s.logMgr.disk ++ s.logMgr.buffer.take k)

/-- The transaction has committed, as far as a log shows: it has a COMMIT record and `abort` has not rolled it back. -/
def Committed (s : Sessions) (log : List LogRecord) (tid : Int) : Prop :=
  tid ∈ commitOrder log ∧ ¬ s.RolledBack tid

/-- The accesses of the committed transactions. -/
noncomputable def committedHistory (s : Sessions) (log : List LogRecord) : List Access :=
  open Classical in s.history.filter fun a => s.Committed log a.txnId

/-- Each access to a table waits for the transactions it conflicts with: their COMMIT records are on disk, or `abort`
has rolled back all their writes. -/
def Strict (s : Sessions) : Prop :=
  ∀ tid c t w, s.NextCall tid c → c.access = some (t, w) → ∀ a ∈ s.history, a.txnId ≠ tid → a.Conflict ⟨tid, t, w⟩ →
    s.CommitDurable a.txnId ∨ s.RolledBack a.txnId

/-- The committed transactions are conflict-equivalent to the serial order of their COMMIT records. -/
def Serializable (s : Sessions) (log : List LogRecord) : Prop :=
  ConflictEquiv (·.txnId) Access.Conflict (s.committedHistory log)
    (serial (·.txnId) (commitOrder log) (s.committedHistory log))

theorem Inv.serializable (h : s.Inv) (k : Nat) : s.Serializable (s.durableLog k) := by
  unfold Serializable
  refine conflictEquiv_serial (nodup_commitOrder _) (fun a ha => ?_) ?_
  · exact ((by simpa [committedHistory] using (List.mem_filter.1 ha).2 : s.Committed _ a.txnId)).1
  · unfold committedHistory
    refine List.pairwise_filter.2 (h.order.imp fun {a b} hab ha hb hne hc => ?_)
    have ha : s.Committed (s.durableLog k) a.txnId := by simpa using ha
    have hb : s.Committed (s.durableLog k) b.txnId := by simpa using hb
    rcases hab hne hc with hroll | hlt
    · exact absurd hroll ha.2
    · -- the durable log is a beginning of the whole log, and both transactions are in it
      obtain ⟨rs, hrs⟩ : ∃ rs, s.own s.logMgr.stream = s.durableLog k ++ rs := by
        refine ⟨(s.logMgr.buffer.drop k).drop (s.base - (s.logMgr.disk ++ s.logMgr.buffer.take k).length), ?_⟩
        unfold durableLog own LogManager.stream
        rw [← List.drop_append, List.append_assoc, List.take_append_drop]
      obtain ⟨C, hC⟩ := commitOrder_append (s.durableLog k) rs
      rw [hrs, hC, List.idxOf_append_of_mem ha.1, List.idxOf_append_of_mem hb.1] at hlt
      exact hlt

/-- Every interleaving of the sessions is strict, and its committed transactions are serializable in the order of
their COMMIT records, whatever part of the log buffer is durable. -/
theorem strict_and_serializable_of_run (lm : LogManager) (fhs : Fhs) (db : TabName → Option TabMeta)
    (fd : TabName → Int) (as : List Action) : ∀ s, (init lm fhs db fd).run as = some s →
      s.Strict ∧ ∀ k, s.Serializable (s.durableLog k) := by
  intro s hrun
  have h := (inv_init lm fhs db fd).run hrun
  exact ⟨fun tid c t w hcall hc a ha hne hconf => h.strict hcall hc ha hne hconf, h.serializable⟩

/-! ## A run -/

/-- One table of one INT column. -/
def oneTableFhs : Fhs :=
  { names := ["t"], file := fun t => RmFile.openFile t (RmFileHdr.create 4) fun _ => none }

def oneTableDb (t : TabName) : Option TabMeta :=
  if t = "t" then some ⟨"t", [⟨"t", "a", .int, 4, 0⟩], []⟩ else none

/-- No table has an index. -/
def noIndex : IxAnswers := fun _ => .error .halt

/-- Transaction 0 inserts a row and commits; transaction 1 is refused its lock and aborts; transaction 2 reads. -/
def insertThenRead : List Action :=
  [.begin, .begin, .start 0 3 (.insert "t" [⟨.int 7, none⟩])] ++ List.replicate 6 (.exec 0 noIndex) ++
    [.start 1 3 (.select [⟨"t", [], none⟩] (.beginTuple 0 .done))] ++ List.replicate 3 (.exec 1 noIndex) ++
    [.commit 0, .advance 0, .advance 0, .advance 0, .abort 1, .advance 1, .advance 1, .advance 1, .begin,
      .start 2 3 (.select [⟨"t", [], none⟩] (.beginTuple 0 .done))] ++ List.replicate 3 (.exec 2 noIndex)

def insertThenReadRun : Option Sessions :=
  (init (LogManager.start []) oneTableFhs oneTableDb fun _ => 3).run insertThenRead

theorem insertThenReadRun_history : insertThenReadRun.map (·.history) =
    some [⟨0, "t", false⟩, ⟨0, "t", true⟩, ⟨2, "t", false⟩] := by
  decide +kernel

theorem strict_and_serializable_of_run_insertThenRead : ∃ s, insertThenReadRun = some s ∧
    s.history = [⟨0, "t", false⟩, ⟨0, "t", true⟩, ⟨2, "t", false⟩] ∧
    s.Strict ∧ ∀ k, s.Serializable (s.durableLog k) := by
  obtain ⟨s, hs, hhist⟩ := Option.map_eq_some_iff.1 insertThenReadRun_history
  exact ⟨s, hs, hhist, strict_and_serializable_of_run (LogManager.start []) oneTableFhs oneTableDb (fun _ => 3)
    insertThenRead s hs⟩

end Sessions

end Rmdb
