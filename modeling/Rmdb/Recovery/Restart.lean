import Rmdb.Recovery.DiskInvariant

/-!
# A restart

- `IdsOk`: no transaction id of the log is shared by a committed writer and a transaction that is not committed;
- for such a log `analyze` takes none of the committed writers for a loser;
- `crash_spec`: recovery then succeeds, leaves the committed records, and the new server is in a good state again.
-/

namespace Rmdb

open Lib SlotWrite

/-! ## The log manager after analyze -/

namespace LogManager

variable {log : List LogRecord}

@[simp] theorem disk_afterAnalyze (lm : LogManager) : lm.afterAnalyze.disk = lm.disk := by
  unfold afterAnalyze
  split <;> rfl

@[simp] theorem buffer_afterAnalyze (lm : LogManager) : lm.afterAnalyze.buffer = lm.buffer := by
  unfold afterAnalyze
  split <;> rfl

theorem le_maxLsn (log : List LogRecord) : invalidLsn ≤ maxLsn log ∧ ∀ r ∈ log, r.lsn ≤ maxLsn log := by
  induction log using List.reverseRecOn with
  | nil => simp [maxLsn]
  | append_singleton log r ih =>
    have hstep : maxLsn (log ++ [r]) = if r.lsn > maxLsn log then r.lsn else maxLsn log := by simp [maxLsn]
    rw [hstep]
    refine ⟨by split <;> omega, fun r' hr' => ?_⟩
    rcases List.mem_append.1 hr' with hr' | hr'
    · have := ih.2 r' hr'
      split <;> omega
    · rw [List.mem_singleton.1 hr']
      split <;> omega

theorem globalLsn_afterAnalyze (log : List LogRecord) : (start log).afterAnalyze.globalLsn = maxLsn log + 1 := by
  unfold afterAnalyze
  split
  · rfl
  · next h => rw [show maxLsn log = invalidLsn by simpa [start] using h]; rfl

theorem persistLsn_afterAnalyze (log : List LogRecord) : (start log).afterAnalyze.persistLsn = maxLsn log := by
  unfold afterAnalyze
  split
  · rfl
  · next h => rw [show maxLsn log = invalidLsn by simpa [start] using h]; rfl

/-- New records get lsns beyond those of the log. -/
theorem wf_afterAnalyze (h : log.Pairwise (·.lsn < ·.lsn)) : (start log).afterAnalyze.Wf := by
  obtain ⟨hlow, hle⟩ := le_maxLsn log
  have hlast : (start log).afterAnalyze.lastLsnInBuffer = invalidLsn := by
    unfold afterAnalyze
    split <;> rfl
  have hstream : (start log).afterAnalyze.stream = log := by simp [stream, start]
  refine ⟨by rwa [hstream], fun r hr => ?_, by simp [start], ?_, ?_⟩
  · rw [hstream] at hr
    have := hle r hr
    rw [globalLsn_afterAnalyze]
    omega
  · rw [globalLsn_afterAnalyze, persistLsn_afterAnalyze]
    omega
  · rw [globalLsn_afterAnalyze, hlast]
    omega

theorem globalLsn_afterAnalyze_nonneg (log : List LogRecord) : 0 ≤ (start log).afterAnalyze.globalLsn := by
  have := (le_maxLsn log).1
  rw [globalLsn_afterAnalyze]
  simp only [invalidLsn] at this
  omega

end LogManager

/-! ## Which transactions are losers -/

section losers
variable {L : List LogRecord} {G P : List (Nat × LogRecord)} {tid : Int}

theorem analyze_concat (L : List LogRecord) (r : LogRecord) : analyze (L ++ [r]) = (analyze L).scan r := by
  simp [analyze]

theorem exists_of_aborted (h : (analyze L).aborted tid = true) : ∃ r ∈ L, r.logTid = tid ∧ r.body = .abort := by
  induction L using List.reverseRecOn with
  | nil => cases h
  | append_singleton L r ih =>
    rw [analyze_concat] at h
    by_cases hr : r.logTid = tid ∧ r.body = .abort
    · exact ⟨r, by simp, hr⟩
    · have hkeep : (analyze L).aborted tid = true := by
        revert h
        cases hb : r.body with
        | abort =>
          have hne : tid ≠ r.logTid := fun he => hr ⟨he.symm, hb⟩
          simp [TxnSets.scan, hb, Function.update_of_ne hne]
        | «begin» | commit =>
          simp only [TxnSets.scan, hb]
          exact id
        | insert | delete | update =>
          simp only [TxnSets.scan, hb]
          split <;> exact id
      obtain ⟨r', hr', hb⟩ := ih hkeep
      exact ⟨r', by simp [hr'], hb⟩

/-- An active transaction has a record with no COMMIT from there on. -/
theorem exists_of_active (h : (analyze L).active tid = true) : ∃ A r B, L = A ++ r :: B ∧ r.logTid = tid ∧
    ∀ r' ∈ r :: B, r'.logTid = tid → r'.body ≠ .commit := by
  induction L using List.reverseRecOn with
  | nil => cases h
  | append_singleton L r ih =>
    rw [analyze_concat] at h
    by_cases ht : tid = r.logTid
    · refine ⟨L, r, [], rfl, ht.symm, fun r' hr' _ hb => ?_⟩
      rw [List.mem_singleton.1 hr'] at hb
      simp [TxnSets.scan, hb, ht] at h
    · have hkeep : (analyze L).active tid = true := by
        revert h
        cases hb : r.body <;> simp only [TxnSets.scan, hb, Function.update_of_ne ht] <;>
          first | exact id | (split <;> simp [Function.update_of_ne ht])
      obtain ⟨A, r', B, rfl, ht', hB⟩ := ih hkeep
      refine ⟨A, r', B ++ [r], by simp, ht', fun r'' hr'' ht'' => ?_⟩
      rw [← List.cons_append, List.mem_append, List.mem_singleton] at hr''
      rcases hr'' with hr'' | rfl
      · exact hB r'' hr'' ht''
      · exact absurd ht''.symm ht

theorem EndsLast.of_prefix (h : EndsLast G) (hP : P <+: G) : EndsLast P := by
  obtain ⟨Q, rfl⟩ := hP
  intro A x B hsplit hx y hy
  exact h A x (B ++ Q) (by simp [hsplit]) hx y (by simp [hy])

/-- An id whose transactions have all committed is no loser. -/
theorem loser_eq_false (h : EndsLast G) (hall : ∀ y ∈ G, y.2.logTid = tid → committed G (inst y) = true) :
    (analyze (G.map (·.2))).loser tid = false := by
  rw [TxnSets.loser, Bool.or_eq_false_iff, ← Bool.not_eq_true, ← Bool.not_eq_true]
  constructor
  · intro hactive
    obtain ⟨A, r, B, hsplit, ht, hB⟩ := exists_of_active hactive
    obtain ⟨GA, G', rfl, rfl, hG'⟩ := List.map_eq_append_iff.1 hsplit
    obtain ⟨y, GB, rfl, rfl, rfl⟩ := List.map_eq_cons_iff.1 hG'
    obtain ⟨z, hz, hi, hc⟩ := committed_iff.1 (hall y (by simp) ht)
    have htz : z.2.logTid = tid := by rw [← ht]; exact (Prod.mk.inj hi).2
    rcases List.mem_append.1 hz with hz | hz
    · -- the COMMIT comes before this record
      obtain ⟨A₁, A₂, rfl⟩ := List.append_of_mem hz
      exact h A₁ z (A₂ ++ y :: GB) (by simp) (.inl hc) y (by simp) hi.symm
    · rw [← List.map_cons] at hB
      exact hB z.2 (List.mem_map_of_mem hz) htz hc
  · intro haborted
    obtain ⟨r, hr, ht, hb⟩ := exists_of_aborted haborted
    obtain ⟨y, hy, rfl⟩ := List.mem_map.1 hr
    obtain ⟨z, hz, hi, hc⟩ := committed_iff.1 (hall y hy ht)
    have hne : z ≠ y := by
      rintro rfl
      rw [hc] at hb
      cases hb
    obtain ⟨A, B, rfl⟩ := List.append_of_mem hy
    rcases List.mem_append.1 hz with hz | hz
    · obtain ⟨A₁, A₂, rfl⟩ := List.append_of_mem hz
      exact h A₁ z (A₂ ++ y :: B) (by simp) (.inl hc) y (by simp) hi.symm
    · exact h A y B rfl (.inr hb) z ((List.mem_cons.1 hz).resolve_left hne) hi

end losers

/-- An id under which a transaction wrote and committed has no transaction that did not commit. -/
def IdsOk (G : List (Nat × LogRecord)) : Prop :=
  ∀ x ∈ G, x.2.body.target ≠ none → committed G (inst x) = true →
    ∀ y ∈ G, y.2.logTid = x.2.logTid → committed G (inst y) = true

namespace Server

variable {s s' : Server} {t : TabName} {ρ : Rid} {tid : Int} {k : Nat}

/-! ## The durable log -/

theorem durableLog_prefix (s : Server) (k : Nat) : s.durableLog k <+: s.logMgr.stream :=
  (List.prefix_append_right_inj _).2 (List.take_prefix _ _)

theorem LogInv.durable_prefix (h : s.LogInv) (k : Nat) : s.durable k <+: s.history :=
  h.tag_prefix (List.prefix_append _ _) (s.durableLog_prefix k)

theorem LogInv.older_durable (h : s.LogInv) (k : Nat) : s.older.map (·.2) <+: s.durableLog k :=
  h.older.trans (List.prefix_append _ _)

theorem LogInv.durable_map_snd (h : s.LogInv) (k : Nat) : (s.durable k).map (·.2) = s.durableLog k :=
  tag_map_snd (h.older_durable k)

theorem LogInv.linked_durable (h : s.LogInv) (k : Nat) (t : TabName) (ρ : Rid) :
    Linked none (slotLog (s.durableLog k) t ρ) := by
  have hlink := h.linked t ρ
  obtain ⟨Q, hQ⟩ := s.durableLog_prefix k
  rw [← hQ, slotLog_append, linked_append] at hlink
  exact hlink.1

/-- Once a record of this incarnation has been appended, all later ones are of it. -/
theorem LogInv.epoch_of_after (h : s.LogInv) {log : List LogRecord} {A B : List (Nat × LogRecord)}
    {x z : Nat × LogRecord} (hsplit : s.tag log = A ++ x :: B) (hx : x.1 = s.epoch) (hz : z ∈ B) : z.1 = s.epoch := by
  rw [tag, List.append_eq_append_iff] at hsplit
  rcases hsplit with ⟨C, rfl, hC⟩ | ⟨C, hA, hC⟩
  · have : z ∈ (log.drop s.older.length).map (s.epoch, ·) := by simp [hC, hz]
    obtain ⟨r, -, rfl⟩ := List.mem_map.1 this
    rfl
  · rcases List.append_eq_cons_iff.1 hC.symm with ⟨-, hC⟩ | ⟨C', rfl, -⟩
    · have : z ∈ (log.drop s.older.length).map (s.epoch, ·) := by simp [hC, hz]
      obtain ⟨r, -, rfl⟩ := List.mem_map.1 this
      rfl
    · have := h.tags x (by simp_all)
      omega

/-- The pending writes of this incarnation are losers' writes. -/
theorem LogInv.loser_of_pend (h : s.LogInv) {o : Instance × SlotWrite Bytes} (ho : o ∈ pend (s.durable k) t ρ)
    (he : o.1.1 = s.epoch) : (analyze (s.durableLog k)).loser o.1.2 = true := by
  obtain ⟨hmem, hcomm⟩ := mem_pending.1 ho
  obtain ⟨x, hx, htarget, hi⟩ := mem_tagLog.1 hmem
  have hxe : x.1 = s.epoch := by rw [← he, ← hi]; rfl
  have hxt : x.2.logTid = o.1.2 := by rw [← hi]; rfl
  obtain ⟨A, B, hsplit⟩ := List.append_of_mem hx
  obtain ⟨Q, hQ⟩ := h.durable_prefix k
  obtain ⟨y, hy, hye, hyt, hyb⟩ := h.begun A x (B ++ Q) (by rw [← hQ, hsplit]; simp) hxe (by simp [htarget])
  obtain ⟨A₁, A₂, rfl⟩ := List.append_of_mem hy
  have hlog : s.durableLog k = A₁.map (·.2) ++ y.2 :: (A₂ ++ x :: B).map (·.2) := by
    rw [← h.durable_map_snd, hsplit]
    simp
  rw [hlog]
  refine loser_of_begun (hyt.trans hxt) hyb fun r hr ht hc => ?_
  obtain ⟨z, hz, rfl⟩ := List.mem_map.1 hr
  have hsplit' : s.durable k = A₁ ++ y :: (A₂ ++ x :: B) := by simp [hsplit]
  have hze : z.1 = s.epoch := h.epoch_of_after hsplit' hye hz
  have : committed (s.durable k) o.1 = true := by
    refine committed_iff.2 ⟨z, hsplit' ▸ List.mem_append_right _ (List.mem_cons_of_mem _ hz), ?_, hc⟩
    exact Prod.ext (hze.trans he.symm) ht
  rw [hcomm] at this
  cases this

/-- What is not durable is of this incarnation. -/
theorem LogInv.history_eq (h : s.LogInv) (k : Nat) : ∃ Q, s.logMgr.stream = s.durableLog k ++ Q ∧
    s.history = s.durable k ++ Q.map (s.epoch, ·) := by
  obtain ⟨Q, hQ⟩ := s.durableLog_prefix k
  refine ⟨Q, hQ.symm, ?_⟩
  rw [history, durable, ← hQ, tag_append (h.older_durable k)]

theorem LogInv.epoch_of_committed (h : s.LogInv) {i : Instance} (hc : committed s.history i = true)
    (hd : committed (s.durable k) i = false) : i.1 = s.epoch := by
  obtain ⟨Q, -, hQ⟩ := h.history_eq k
  rw [hQ, committed_append, hd, Bool.false_or] at hc
  obtain ⟨x, hx, rfl, -⟩ := committed_iff.1 hc
  obtain ⟨r, -, rfl⟩ := List.mem_map.1 hx
  rfl

theorem LogInv.epoch_of_pend (h : s.LogInv) (hall : ∀ o ∈ pend s.history t ρ, o.1.1 = s.epoch) :
    ∀ o ∈ pend (s.durable k) t ρ, o.1.1 = s.epoch := by
  intro o ho
  obtain ⟨hmem, hd⟩ := mem_pending.1 ho
  by_cases hc : committed s.history o.1 = true
  · exact h.epoch_of_committed hc hd
  · obtain ⟨Q, -, hQ⟩ := h.history_eq k
    refine hall o (mem_pending.2 ⟨?_, by simpa using hc⟩)
    rw [hQ, tagLog_append]
    exact List.mem_append_left _ hmem

/-- The losers' writes, with their transactions. -/
theorem loserLog_eq (a : TxnSets) (G : List (Nat × LogRecord)) (t : TabName) (ρ : Rid) :
    loserLog a (G.map (·.2)) t ρ = ((tagLog G t ρ).filter fun o => a.loser o.1.2).map (·.2) := by
  induction G with
  | nil => rfl
  | cons x G ih =>
    simp only [loserLog, slotLog, tagLog, List.map_cons, List.filter_cons, List.filterMap_cons] at ih ⊢
    cases hw : x.2.body.writeOn t ρ <;> by_cases hx : a.loser x.2.logTid = true <;> simp [hw, hx, inst, ih]

/-! ## One slot -/

section slot
variable {c c' : Option Bytes} {lsn : Int}

/-- Up to the lsn of its page a slot's writes are durable. -/
def Covered (s : Server) (k : Nat) (t : TabName) (ρ : Rid) (lsn : Int) : Prop :=
  ∀ Q, s.logMgr.stream = s.durableLog k ++ Q → ∀ r ∈ Q, r.body.writeOn t ρ ≠ none → lsn < r.lsn

theorem DiskInv.covered (h : s.DiskInv) (hl : s.LogInv) (k : Nat) (t : TabName) (ρ : Rid) :
    s.Covered k t ρ (s.image.lsnAt t ρ.pageNo) := by
  intro Q hQ r hr hne
  obtain ⟨w, hw⟩ := Option.ne_none_iff_exists'.1 hne
  by_contra hle
  have hdisk := h.durable r (by simp [hQ, hr]) t ρ w (LogBody.writeOn_eq_some.1 hw) (by omega)
  have hsorted := hl.wf.sorted
  rw [hQ, List.pairwise_append] at hsorted
  have := hsorted.2.2 r (List.mem_append_left _ hdisk) r hr
  omega

theorem Covered.replay_eq (h : s.Covered k t ρ lsn) :
    replay (upTo s.logMgr.stream lsn) t ρ = replay (upTo (s.durableLog k) lsn) t ρ := by
  obtain ⟨Q, hQ⟩ := s.durableLog_prefix k
  have hnil : slotLog (upTo Q lsn) t ρ = [] := by
    rw [slotLog_eq_nil]
    intro r hr
    simp only [upTo, List.mem_filter, decide_eq_true_eq] at hr
    by_contra hne
    have := h Q hQ.symm r hr.1 hne
    omega
  rw [← hQ, replay, upTo, List.filter_append, slotLog_append, ← upTo, ← upTo, hnil, List.append_nil, replay]

theorem Covered.tagLog_eq (h : s.Covered k t ρ lsn) (hl : s.LogInv) (hall : AllLe s.logMgr.stream t ρ lsn) :
    tagLog s.history t ρ = tagLog (s.durable k) t ρ := by
  obtain ⟨Q, hQ, hhist⟩ := hl.history_eq k
  rw [hhist, tagLog_append, List.append_right_eq_self]
  simp only [tagLog, List.filterMap_eq_nil_iff, List.mem_map, forall_exists_index, and_imp,
    forall_apply_eq_imp_iff₂, Option.map_eq_none_iff]
  intro r hr
  by_contra hne
  have hlt := h Q hQ r hr hne
  have hle := hall r (by simp [hQ, hr]) hne
  omega

/-- Whatever the slot holds on disk, redo and undo lead to the committed record. -/
theorem OnDisk.recovered (h : s.OnDisk t ρ c lsn) (hl : s.LogInv) (hcov : s.Covered k t ρ lsn)
    (hids : IdsOk (s.durable k))
    (hc' : AllLe (s.durableLog k) t ρ lsn ∧ c' = c ∨
      ¬ AllLe (s.durableLog k) t ρ lsn ∧ c' = replay (s.durableLog k) t ρ) :
    undoAll (loserLog (analyze (s.durableLog k)) (s.durableLog k) t ρ) c' = base (s.durable k) t ρ := by
  have hord := (hl.ordered.of_prefix (hl.durable_prefix k)).self t ρ
  have hsplit := hord.split
  have hlog : loserLog (analyze (s.durableLog k)) (s.durableLog k) t ρ =
      ((tagLog (s.durable k) t ρ).filter fun o => (analyze (s.durableLog k)).loser o.1.2).map (·.2) := by
    rw [← hl.durable_map_snd, loserLog_eq]
  rw [tagLog_map_snd, hl.durable_map_snd] at hsplit
  rw [hlog]
  refine hord.undoAll_losers (fun i => (analyze (s.durableLog k)).loser i.2) ?_ (fun o ho hco => ?_) ?_
  · rw [tagLog_map_snd, hl.durable_map_snd]
    exact hl.linked_durable k t ρ
  · obtain ⟨x, hx, htarget, hi⟩ := mem_tagLog.1 ho
    rw [← hl.durable_map_snd]
    refine loser_eq_false (hl.ended.of_prefix (hl.durable_prefix k)) fun y hy hyt => ?_
    exact hids x hx (by simp [htarget]) (hi ▸ hco) y hy (hyt.trans (by rw [← hi]; rfl))
  have hlose : (∀ o ∈ pend (s.durable k) t ρ, o.1.1 = s.epoch) →
      ∀ o ∈ pend (s.durable k) t ρ, (analyze (s.durableLog k)).loser o.1.2 = true :=
    fun he o ho => hl.loser_of_pend ho (he o ho)
  have hfinal : replay (s.durableLog k) t ρ = final (base (s.durable k) t ρ) ((pend (s.durable k) t ρ).map (·.2)) := by
    rw [replay, hsplit, final_append]
    rfl
  rcases h with ⟨heq, hepoch⟩ | ⟨hall, -, hc⟩
  · -- the page holds the state at its lsn: after redo the slot is at the end of the durable log
    refine .inl ⟨hlose (hl.epoch_of_pend hepoch), ?_⟩
    have hend : c' = replay (s.durableLog k) t ρ := by
      rcases hc' with ⟨hle, rfl⟩ | ⟨-, rfl⟩
      · rw [heq, hcov.replay_eq, replay, slotLog_upTo_of_allLe hle, replay]
      · rfl
    rw [hend, hfinal]
    exact final_mem_states
  · -- the page has all the slot's records: redo leaves it alone
    have htag := hcov.tagLog_eq hl hall
    have hle : AllLe (s.durableLog k) t ρ lsn := fun r hr hne => hall r ((s.durableLog_prefix k).subset hr) hne
    obtain rfl : c' = c := (hc'.resolve_right fun hn => hn.1 hle).2
    have hp : pend s.history t ρ = pending (committed s.history) (tagLog (s.durable k) t ρ) := by rw [pend, htag]
    have hb : base s.history t ρ = final none (settled (committed s.history) (tagLog (s.durable k) t ρ)) := by
      rw [base, htag]
    have hepoch : (∀ o ∈ pend s.history t ρ, o.1.1 = s.epoch) →
        ∀ o ∈ pend (s.durable k) t ρ, (analyze (s.durableLog k)).loser o.1.2 = true :=
      fun he => hlose (hl.epoch_of_pend he)
    obtain ⟨-, ⟨hnil, hcomm⟩ | ⟨hpe, hs⟩⟩ := hord.mono fun o ho => committed_mono (hl.durable_prefix k) ho
    · -- the slot's transaction has committed, but its COMMIT is not durable
      have hset := settled_of_pending_nil hnil
      rw [← hp] at hnil
      have hbase : c' = base s.history t ρ := by
        rcases hc with hc | ⟨-, hc⟩
        · exact hc
        · simpa [hnil, states] using hc
      refine .inl ⟨hepoch (by simp [hnil]), ?_⟩
      rw [hbase, hb, hset, tagLog_map_snd, hl.durable_map_snd, ← replay, hfinal]
      exact final_mem_states
    · rw [hp, hpe] at hc hepoch
      rw [hb, hs] at hc
      rcases hc with hc | ⟨he, hc⟩
      · exact .inr hc
      · exact .inl ⟨hepoch he, hc⟩

end slot

/-! ## The whole restart -/

/-- The invariant of a server over tables of the shape of `fhs₀`. -/
structure Sound (fhs₀ : Fhs) (s : Server) : Prop where
  shape : Fhs.SameShape fhs₀ s.fhs
  log : s.LogInv
  live : s.LiveInv
  disk : s.DiskInv

/-- The server after recovery from a log. -/
def restarted (s : Server) (log : List LogRecord) (fhs : Fhs) : Server where
  logMgr := (LogManager.start log).afterAnalyze
  fhs := fhs
  disk := fun t => ⟨(fhs.file t).fileHdr, (fhs.file t).pages⟩
  txns := fun _ => none
  nextTxnId := 0
  xLock := fun _ => none
  epoch := s.epoch + 1
  older := s.tag log

section restarted
variable {fhs₀ fhs : Fhs} (h : s.Sound fhs₀)

@[simp] theorem restarted_stream (log : List LogRecord) : (s.restarted log fhs).logMgr.stream = log := by
  simp [restarted, LogManager.stream, LogManager.start]

/-- Its files on disk are those it has open. -/
theorem flushed_restarted (log : List LogRecord) : (s.restarted log fhs).flushed = s.restarted log fhs := by
  have hempty : (s.restarted log fhs).logMgr.flushLogToDisk = (s.restarted log fhs).logMgr := by
    have : (s.restarted log fhs).logMgr.offset = 0 := by
      rw [LogManager.offset_eq_zero]
      simp [restarted, LogManager.start]
    rw [LogManager.flushLogToDisk, if_neg (by omega)]
  simp only [flushed, hempty]
  rfl

include h

theorem restarted_history : (s.restarted (s.durableLog k) fhs).history = s.durable k := by
  have hlen : (s.tag (s.durableLog k)).length = (s.durableLog k).length := by
    rw [← List.length_map (·.2), tag_map_snd (h.log.older_durable k)]
  rw [history, restarted_stream]
  show s.tag (s.durableLog k) ++ _ = s.tag (s.durableLog k)
  rw [show (s.restarted (s.durableLog k) fhs).older.length = (s.durableLog k).length from hlen]
  simp

theorem LogInv.restarted (hs : Fhs.SameShape s.fhs fhs) : (s.restarted (s.durableLog k) fhs).LogInv := by
  have hl := h.log
  have hsub := (s.durableLog_prefix k).subset
  have hsorted := hl.wf.sorted.sublist (s.durableLog_prefix k).sublist
  have hstream : (s.restarted (s.durableLog k) fhs).logMgr.stream = s.durableLog k := restarted_stream _
  have hhist : (s.restarted (s.durableLog k) fhs).history = s.durable k := restarted_history h
  have hold : ∀ x ∈ s.durable k, x.1 < s.epoch + 1 := fun x hx => by
    rcases mem_tag hx with hx | hx
    · have := hl.tags x hx
      omega
    · omega
  refine ⟨LogManager.wf_afterAnalyze hsorted, ?_, hold, LogManager.globalLsn_afterAnalyze_nonneg _, fun r hr => ?_,
    fun r hr => ?_, fun t ρ => ?_, ?_, fun tid txn htxn => ?_, fun x hx he => ?_, fun A x B hsplit he => ?_, ?_⟩
  · show (s.tag (s.durableLog k)).map (·.2) <+: _
    rw [tag_map_snd (hl.older_durable k)]
    exact (LogManager.disk_afterAnalyze _).symm ▸ List.prefix_refl _
  · rw [hstream] at hr
    exact hl.dataLsn r (hsub hr)
  · rw [hstream] at hr
    exact (hl.valid r (hsub hr)).congr hs
  · rw [hstream]
    exact hl.linked_durable k t ρ
  · rw [hhist]
    exact hl.ordered.of_prefix (hl.durable_prefix k)
  · cases htxn
  · rw [hhist] at hx
    exact absurd he (hold x hx).ne
  · rw [hhist] at hsplit
    exact absurd he (hold x (by simp [hsplit])).ne
  · rw [hhist]
    exact hl.ended.of_prefix (hl.durable_prefix k)

theorem LiveInv.restarted (hr : Recovered s.image (s.durableLog k) fhs)
    (hrec : ∀ t ∈ s.fhs.names, ∀ ρ, s.InRange t ρ → fhs.recordAt t ρ = base (s.durable k) t ρ) :
    (s.restarted (s.durableLog k) fhs).LiveInv := by
  have hs := h.disk.toSameShape.trans hr.toSameShape
  have hstream : (s.restarted (s.durableLog k) fhs).logMgr.stream = s.durableLog k := restarted_stream _
  have hhist : (s.restarted (s.durableLog k) fhs).history = s.durable k := restarted_history h
  refine ⟨fun t => (hr.shape t).tabName, fun t ht => ?_, ?_, ?_, fun t p hp => ?_, fun tid txn htxn => ?_,
    fun t ht ρ hρ _ => ?_⟩
  · exact hr.inv t (hr.names ▸ ht)
  · rw [hstream]
    exact hr.pages
  · rw [hstream]
    exact hr.lsnDone
  · rw [hstream]
    rcases hr.lsnFrom t p hp with heq | hfrom
    · rw [show (s.restarted (s.durableLog k) fhs).fhs.lsnAt t p = s.image.lsnAt t p from heq]
      exact (h.disk.lsnFrom t p hp).imp id fun ⟨r, hr, heq⟩ => ⟨r, List.mem_append_left _ hr, heq⟩
    · exact .inr hfrom
  · cases htxn
  · rw [hhist]
    refine hrec t (hs.names ▸ ht) ρ ⟨hρ.1, hρ.2.1, ?_⟩
    rw [← (hs.shape t).perPage]
    exact hρ.2.2

end restarted

/-- A restart after a crash succeeds, leaves the committed records in the tables, and the invariant holds again. -/
theorem Sound.crash {fhs₀ : Fhs} (h : s.Sound fhs₀) (hids : IdsOk (s.durable k)) :
    ∃ s', s.crash k = .ok s' ∧ s'.Sound fhs₀ ∧ s'.history = s.durable k ∧
    ∀ t ∈ s.fhs.names, ∀ ρ, s.InRange t ρ → s'.fhs.recordAt t ρ = committedRecord (s.durable k) t ρ := by
  have hl := h.log
  have hsub := (s.durableLog_prefix k).subset
  have hrange : ∀ r ∈ s.durableLog k, ∀ t ρ w, r.body.target = some (t, ρ, w) → t ∈ s.fhs.names ∧ s.InRange t ρ := by
    intro r hr t ρ w ht
    obtain ⟨hn, h1, hslot, -⟩ := (hl.valid r (hsub hr)).valid t ρ w ht
    exact ⟨hn, h1, hslot⟩
  have hlog : LogOk s.image (s.durableLog k) := by
    exact ⟨hl.wf.sorted.sublist (s.durableLog_prefix k).sublist,
      fun r hr => (hl.valid r (hsub hr)).congr h.disk.toSameShape, hl.linked_durable k⟩
  obtain ⟨fhs, heq, hr, hrec⟩ := recover_spec hlog h.disk.ready (S := fun t ρ => t ∈ s.fhs.names ∧ s.InRange t ρ) hrange
    fun t ρ ⟨ht, hρ⟩ _ => by
      have hcov := h.disk.covered hl k t ρ
      rcases h.disk.slot t ht ρ hρ with ⟨hc, -⟩ | ⟨hall, -⟩
      · exact .inl (hc.trans hcov.replay_eq)
      · exact .inr fun r hr => hall r (hsub hr)
  have hbase : ∀ t ∈ s.fhs.names, ∀ ρ, s.InRange t ρ → fhs.recordAt t ρ = base (s.durable k) t ρ := by
    intro t ht ρ hρ
    obtain ⟨c, hc, hcases⟩ := hrec t ρ ⟨ht, hρ⟩ hρ.1
    rw [hc]
    exact (h.disk.slot t ht ρ hρ).recovered hl (h.disk.covered hl k t ρ) hids hcases
  have hlive := LiveInv.restarted h hr hbase
  have hshape := h.disk.toSameShape.trans hr.toSameShape
  have hloginv : (s.restarted (s.durableLog k) fhs).LogInv := LogInv.restarted h hshape
  have hdisk := hlive.diskInv_flushed hloginv
  rw [flushed_restarted] at hdisk
  refine ⟨s.restarted (s.durableLog k) fhs, ?_, ⟨h.shape.trans hshape, hloginv, hlive, hdisk⟩, restarted_history h,
    fun t ht ρ hρ => ?_⟩
  · simp only [Server.crash, restart, heq, Except.map]
    rfl
  · rw [← base_eq_committedRecord]
    exact hbase t ht ρ hρ

end Server

end Rmdb
