import Mathlib.Logic.Function.Basic
import Mathlib.Tactic.Common
import Rmdb.Transaction.Defs

/-!
# The lock manager

- `LockManager` with `acquireLock` and `unlock` of `lock_manager.cpp`; a lock conflict aborts the requester, nobody
  waits;
- `LockManager.Wf`: in every queue the requests are of different transactions and pairwise compatible;
- `heldMode`: the mode in which a transaction holds an item. A call changes it for its own transaction and item only,
  and a lock call that succeeds leaves a mode at least as strong as the one asked for.
-/

namespace Rmdb

inductive LockMode
  | shared | exlucsive | intentionShared | intentionExclusive | sIX
  deriving DecidableEq, Repr

inductive GroupLockMode
  | nonLock | is | ix | s | x | six
  deriving DecidableEq, Repr

structure LockRequest where
  txnId : Int
  lockMode : LockMode
  granted : Bool
  deriving DecidableEq, Repr

structure LockRequestQueue where
  requestQueue : List LockRequest
  groupLockMode : GroupLockMode
  deriving DecidableEq, Repr

structure LockManager where
  lockTable : LockDataId → Option LockRequestQueue

/-- What the lock manager reads and sets in a transaction. -/
structure LockOwner where
  txnId : Int
  state : TransactionState
  lockSet : List LockDataId

namespace LockManager

/-! ## The code -/

def isCompatible : LockMode → LockMode → Bool
  | .intentionShared, held => held != .exlucsive
  | .intentionExclusive, held => held == .intentionShared || held == .intentionExclusive
  | .shared, held => held == .intentionShared || held == .shared
  | .sIX, held => held == .intentionShared
  | .exlucsive, _ => false

def isStronger (held req : LockMode) : Bool :=
  held == .exlucsive || held == req ||
    match held with
    | .sIX => req == .shared || req == .intentionShared || req == .intentionExclusive
    | .shared => req == .intentionShared
    | .intentionExclusive => req == .intentionShared
    | _ => false

/-- `update_group_lock_mode`. -/
def groupMode (queue : List LockRequest) : GroupLockMode :=
  let has m := queue.any (·.lockMode == m)
  if has .exlucsive then .x
  else if has .sIX then .six
  else if has .shared then .s
  else if has .intentionExclusive then .ix
  else if has .intentionShared then .is
  else .nonLock

/-- The queue under an item, created empty where there is none. -/
def queue (lm : LockManager) (id : LockDataId) : List LockRequest :=
  ((lm.lockTable id).map (·.requestQueue)).getD []

/-- Store a queue with its group mode. -/
def setQueue (lm : LockManager) (id : LockDataId) (q : List LockRequest) : LockManager :=
  ⟨Function.update lm.lockTable id (some ⟨q, groupMode q⟩)⟩

/-- `lock_table_[lock_data_id]`. -/
def touch (lm : LockManager) (id : LockDataId) : LockManager :=
  match lm.lockTable id with
  | some _ => lm
  | none => ⟨Function.update lm.lockTable id (some ⟨[], .nonLock⟩)⟩

/-- The transaction's first request in a queue. -/
def heldRequest (q : List LockRequest) (txnId : Int) : Option LockRequest := q.find? (·.txnId = txnId)

/-- `held_req->lock_mode_ = lock_mode`. -/
def upgrade (txnId : Int) (mode : LockMode) : List LockRequest → List LockRequest
  | [] => []
  | r :: q => if r.txnId = txnId then { r with lockMode := mode } :: q else r :: upgrade txnId mode q

/-- No other transaction's request stands in the way. -/
def grantable (q : List LockRequest) (txnId : Int) (mode : LockMode) : Bool :=
  q.all fun r => r.txnId == txnId || isCompatible mode r.lockMode

/-- `acquire_lock`. -/
def acquireLock (lm : LockManager) (txn : LockOwner) (id : LockDataId) (mode : LockMode) :
    Except TransactionAbortException Bool × LockOwner × LockManager :=
  if txn.state = .shrinking then (.error ⟨txn.txnId, .lockOnShirinking⟩, txn, lm)
  else
    let txn := if txn.state = .default then { txn with state := .growing } else txn
    let lm := lm.touch id
    let q := lm.queue id
    match heldRequest q txn.txnId with
    | some held =>
      if isStronger held.lockMode mode then (.ok true, txn, lm)
      else if grantable q txn.txnId mode then (.ok true, txn, lm.setQueue id (upgrade txn.txnId mode q))
      else (.error ⟨txn.txnId, .deadlockPrevention⟩, txn, lm)
    | none =>
      if grantable q txn.txnId mode then
        (.ok true, { txn with lockSet := txn.lockSet.insert id }, lm.setQueue id (q ++ [⟨txn.txnId, mode, true⟩]))
      else (.error ⟨txn.txnId, .deadlockPrevention⟩, txn, lm)

/-- `unlock`. -/
def unlock (lm : LockManager) (txn : LockOwner) (id : LockDataId) : Bool × LockOwner × LockManager :=
  let txn := if txn.state = .committed ∨ txn.state = .aborted then txn else { txn with state := .shrinking }
  match lm.lockTable id with
  | none => (false, txn, lm)
  | some queue =>
    match heldRequest queue.requestQueue txn.txnId with
    | none => (false, txn, lm)
    | some _ =>
      let q := queue.requestQueue.eraseP (·.txnId = txn.txnId)
      let lm := if q = [] then ⟨Function.update lm.lockTable id none⟩ else lm.setQueue id q
      (true, { txn with lockSet := txn.lockSet.erase id }, lm)

/-! ## Compatible queues -/

theorem isCompatible_comm (a b : LockMode) : isCompatible a b = isCompatible b a := by
  cases a <;> cases b <;> rfl

/-- Nothing is granted beside an exclusive lock. -/
theorem isCompatible_exlucsive (m : LockMode) : isCompatible m .exlucsive = false := by
  cases m <;> rfl

def QueueWf (q : List LockRequest) : Prop :=
  q.Pairwise fun a b => a.txnId ≠ b.txnId ∧ isCompatible a.lockMode b.lockMode = true

def Wf (lm : LockManager) : Prop := ∀ id, QueueWf (lm.queue id)

/-- The mode in which a transaction holds an item. -/
def heldMode (lm : LockManager) (txnId : Int) (id : LockDataId) : Option LockMode :=
  (heldRequest (lm.queue id) txnId).map (·.lockMode)

section queue
variable {q : List LockRequest} {txnId other : Int} {mode m : LockMode} {r : LockRequest}

theorem heldRequest_eq_some (h : heldRequest q txnId = some r) : r ∈ q ∧ r.txnId = txnId :=
  ⟨List.mem_of_find?_eq_some h, by simpa using List.find?_some h⟩

theorem heldRequest_eq_none : heldRequest q txnId = none ↔ ∀ r ∈ q, r.txnId ≠ txnId := by simp [heldRequest]

theorem grantable_iff :
    grantable q txnId mode = true ↔ ∀ r ∈ q, r.txnId ≠ txnId → isCompatible mode r.lockMode = true := by
  simp only [grantable, List.all_eq_true, Bool.or_eq_true, beq_iff_eq]
  exact forall₂_congr fun r _ => or_iff_not_imp_left

/-- Two different transactions hold compatible modes. -/
theorem QueueWf.compatible (h : QueueWf q) {a b : LockRequest} (ha : a ∈ q) (hb : b ∈ q)
    (hne : a.txnId ≠ b.txnId) : isCompatible a.lockMode b.lockMode = true := by
  induction q with
  | nil => exact absurd ha List.not_mem_nil
  | cons r q ih =>
    obtain ⟨hr, hq⟩ := List.pairwise_cons.1 h
    rcases List.mem_cons.1 ha with rfl | ha'
    · rcases List.mem_cons.1 hb with rfl | hb'
      · exact absurd rfl hne
      · exact (hr b hb').2
    · rcases List.mem_cons.1 hb with rfl | hb'
      · rw [isCompatible_comm]
        exact (hr a ha').2
      · exact ih hq ha' hb'

theorem QueueWf.append (h : QueueWf q) (hnone : heldRequest q txnId = none) (hg : grantable q txnId mode = true)
    (granted : Bool) : QueueWf (q ++ [⟨txnId, mode, granted⟩]) := by
  have hne := heldRequest_eq_none.1 hnone
  refine List.pairwise_append.2 ⟨h, List.pairwise_singleton _ _, fun r hr r' hr' => ?_⟩
  rw [List.mem_singleton.1 hr']
  refine ⟨hne r hr, ?_⟩
  rw [isCompatible_comm]
  exact grantable_iff.1 hg r hr (hne r hr)

theorem mem_upgrade (h : r ∈ upgrade txnId mode q) :
    r ∈ q ∨ ∃ r₀ ∈ q, r₀.txnId = txnId ∧ r = { r₀ with lockMode := mode } := by
  induction q with
  | nil => exact absurd h List.not_mem_nil
  | cons a q ih =>
    unfold upgrade at h
    split at h
    · next ha =>
      rcases List.mem_cons.1 h with rfl | h
      · exact .inr ⟨a, List.mem_cons_self, ha, rfl⟩
      · exact .inl (List.mem_cons_of_mem _ h)
    · rcases List.mem_cons.1 h with rfl | h
      · exact .inl List.mem_cons_self
      · rcases ih h with h | ⟨r₀, h, h'⟩
        · exact .inl (List.mem_cons_of_mem _ h)
        · exact .inr ⟨r₀, List.mem_cons_of_mem _ h, h'⟩

theorem QueueWf.upgrade (h : QueueWf q) (hg : grantable q txnId mode = true) :
    QueueWf (LockManager.upgrade txnId mode q) := by
  induction q with
  | nil => exact List.Pairwise.nil
  | cons a q ih =>
    obtain ⟨ha, hq⟩ := List.pairwise_cons.1 h
    have hgrant := grantable_iff.1 hg
    unfold LockManager.upgrade
    split
    · next heq =>
      refine List.pairwise_cons.2 ⟨fun b hb => ⟨(ha b hb).1, ?_⟩, hq⟩
      exact hgrant b (List.mem_cons_of_mem _ hb) (heq ▸ (ha b hb).1.symm)
    · next hne =>
      have hg' : grantable q txnId mode = true :=
        grantable_iff.2 fun r hr => hgrant r (List.mem_cons_of_mem _ hr)
      refine List.pairwise_cons.2 ⟨fun b hb => ?_, ih hq hg'⟩
      rcases mem_upgrade hb with hb | ⟨r₀, hr₀, hid, rfl⟩
      · exact ha b hb
      · refine ⟨(ha r₀ hr₀).1, ?_⟩
        rw [isCompatible_comm]
        exact hgrant a List.mem_cons_self hne

theorem heldRequest_upgrade :
    heldRequest (upgrade txnId mode q) other =
      if other = txnId then (heldRequest q txnId).map ({ · with lockMode := mode }) else heldRequest q other := by
  induction q with
  | nil => simp [heldRequest, upgrade]
  | cons a q ih =>
    unfold upgrade
    by_cases ha : a.txnId = txnId
    · by_cases ho : other = txnId
      · simp [heldRequest, ha, ho]
      · have hne : ¬ txnId = other := fun h => ho h.symm
        simp [heldRequest, ha, ho, hne]
    · by_cases hao : a.txnId = other
      · have hne : other ≠ txnId := fun h => ha (hao.trans h)
        simp [heldRequest, hao, hne]
      · have hl : heldRequest (a :: upgrade txnId mode q) other = heldRequest (upgrade txnId mode q) other := by
          simp [heldRequest, hao]
        have hr : heldRequest (a :: q) other = heldRequest q other := by simp [heldRequest, hao]
        have ht : heldRequest (a :: q) txnId = heldRequest q txnId := by simp [heldRequest, ha]
        rw [if_neg ha, hl, ih, hr, ht]

theorem heldRequest_eraseP (h : other ≠ txnId) :
    heldRequest (q.eraseP (·.txnId = txnId)) other = heldRequest q other := by
  induction q with
  | nil => rfl
  | cons a q ih =>
    by_cases ha : a.txnId = txnId
    · have hne : ¬ txnId = other := fun heq => h heq.symm
      simp [heldRequest, ha, hne]
    · by_cases hao : a.txnId = other
      · simp [heldRequest, hao, h]
      · rw [List.eraseP_cons_of_neg (by simpa using ha)]
        simpa [heldRequest, hao] using ih

end queue

/-! ## What a call does -/

section calls
variable {lm : LockManager} {txn : LockOwner} {id id' : LockDataId} {mode : LockMode} {q : List LockRequest}

theorem queue_setQueue : (lm.setQueue id q).queue id' = if id' = id then q else lm.queue id' := by
  by_cases h : id' = id <;> simp [queue, setQueue, h]

@[simp] theorem queue_touch : (lm.touch id).queue id' = lm.queue id' := by
  unfold touch
  split
  · rfl
  · next hn =>
    by_cases h : id' = id
    · simp [queue, h, hn]
    · simp [queue, h]

theorem Wf.setQueue (h : lm.Wf) (hq : QueueWf q) : (lm.setQueue id q).Wf := by
  intro id'
  rw [queue_setQueue]
  split
  · exact hq
  · exact h id'

/-- `lm'` holds for every other transaction and item what `lm` holds. -/
def SameFor (lm lm' : LockManager) (txnId : Int) (id : LockDataId) : Prop :=
  ∀ t i, (t ≠ txnId ∨ i ≠ id) → lm'.heldMode t i = lm.heldMode t i

theorem sameFor_setQueue {txnId : Int} (h : ∀ t, t ≠ txnId → heldRequest q t = heldRequest (lm.queue id) t) :
    lm.SameFor (lm.setQueue id q) txnId id := by
  intro t i hti
  unfold heldMode
  rw [queue_setQueue]
  split
  · next hi => rw [h t (hti.resolve_right fun hne => hne hi), hi]
  · rfl

/-- The result of `acquire_lock`. -/
structure Acquired (lm : LockManager) (txn : LockOwner) (id : LockDataId) (mode : LockMode)
    (res : Except TransactionAbortException Bool × LockOwner × LockManager) : Prop where
  wf : lm.Wf → res.2.2.Wf
  same : lm.SameFor res.2.2 txn.txnId id
  txnId : res.2.1.txnId = txn.txnId
  /-- The transaction keeps a stronger lock or gets the mode it asked for, and the item is in its lock set. -/
  granted : res.1 = .ok true →
    ((lm.heldMode txn.txnId id = res.2.2.heldMode txn.txnId id ∧
        ∃ m, lm.heldMode txn.txnId id = some m ∧ isStronger m mode = true) ∨
      ((∀ m, lm.heldMode txn.txnId id = some m → isStronger m mode = false) ∧
        res.2.2.heldMode txn.txnId id = some mode))
  refused : (∃ e, res.1 = .error e) → res.2.2.heldMode txn.txnId id = lm.heldMode txn.txnId id
  total : res.1 = .ok true ∨ ∃ e, res.1 = .error e
  state : res.2.1.state = txn.state ∨ txn.state = .default ∧ res.2.1.state = .growing
  lockSet : ∀ i, i ∈ txn.lockSet → i ∈ res.2.1.lockSet
  listed : (lm.heldMode txn.txnId id ≠ none → id ∈ txn.lockSet) → res.2.2.heldMode txn.txnId id ≠ none →
    id ∈ res.2.1.lockSet

variable (lm txn id mode) in
theorem acquireLock_spec : Acquired lm txn id mode (lm.acquireLock txn id mode) := by
  have hsame : ∀ t, lm.SameFor (lm.touch id) t id := fun t t' i _ => by simp [heldMode]
  have hmode : ∀ t, (lm.touch id).heldMode t id = lm.heldMode t id := fun t => by simp [heldMode]
  have hwf : lm.Wf → (lm.touch id).Wf := fun h i => by simpa using h i
  unfold acquireLock
  split
  · exact ⟨fun h => h, fun _ _ _ => rfl, rfl, fun h => by simp at h, fun _ => rfl, .inr ⟨_, rfl⟩, .inl rfl,
      fun _ h => h, fun h => h⟩
  · next hsh =>
    obtain ⟨txn', htxn'⟩ : ∃ t, t = if txn.state = .default then { txn with state := .growing } else txn := ⟨_, rfl⟩
    have hid : txn'.txnId = txn.txnId := by rw [htxn']; split <;> rfl
    have hset : txn'.lockSet = txn.lockSet := by rw [htxn']; split <;> rfl
    have hstate : txn'.state = txn.state ∨ txn.state = .default ∧ txn'.state = .growing := by
      rw [htxn']
      split
      · next h => exact .inr ⟨h, rfl⟩
      · exact .inl rfl
    simp only [← htxn', hid, queue_touch]
    have herr : Acquired lm txn id mode (.error ⟨txn.txnId, .deadlockPrevention⟩, txn', lm.touch id) :=
      ⟨hwf, hsame _, hid, fun h => by simp at h, fun _ => hmode _, .inr ⟨_, rfl⟩, hstate, fun i h => hset ▸ h,
        fun h hne => hset ▸ h (hmode _ ▸ hne)⟩
    cases hheld : heldRequest (lm.queue id) txn.txnId with
    | some held =>
      have hm : lm.heldMode txn.txnId id = some held.lockMode := by simp [heldMode, hheld]
      simp only
      split
      · next hst =>
        exact ⟨hwf, hsame _, hid, fun _ => .inl ⟨(hmode _).symm, _, hm, hst⟩, fun h => by simp at h, .inl rfl, hstate,
          fun i h => hset ▸ h, fun h hne => hset ▸ h (hmode _ ▸ hne)⟩
      · split
        · next hst hg =>
          have hup : ((lm.touch id).setQueue id (upgrade txn.txnId mode (lm.queue id))).heldMode txn.txnId id =
              some mode := by
            simp [heldMode, queue_setQueue, heldRequest_upgrade, hheld]
          have hweak : ∀ m, lm.heldMode txn.txnId id = some m → isStronger m mode = false := by
            rintro m hm'
            rw [hm] at hm'
            cases hm'
            simpa using hst
          refine ⟨fun h => (hwf h).setQueue ((h id).upgrade hg), fun t i hti => ?_, hid, fun _ => .inr ⟨hweak, hup⟩,
            fun h => by simp at h, .inl rfl, hstate, fun i h => hset ▸ h, fun h _ => hset ▸ h (by simp [hm])⟩
          rw [← hsame txn.txnId t i hti]
          refine sameFor_setQueue (fun t ht => ?_) t i hti
          simp [heldRequest_upgrade, ht]
        · exact herr
    | none =>
      simp only
      split
      · next hg =>
        have hnew : ((lm.touch id).setQueue id (lm.queue id ++ [⟨txn.txnId, mode, true⟩])).heldMode txn.txnId id =
            some mode := by
          have := hheld
          unfold heldRequest at this
          simp [heldMode, queue_setQueue, heldRequest, List.find?_append, this]
        have hweak : ∀ m, lm.heldMode txn.txnId id = some m → isStronger m mode = false := by
          simp [heldMode, hheld]
        refine ⟨fun h => (hwf h).setQueue ((h id).append hheld hg true), fun t i hti => ?_, rfl,
          fun _ => .inr ⟨hweak, hnew⟩, fun h => by simp at h, .inl rfl, hstate, fun i h => ?_, fun _ _ => ?_⟩
        · rw [← hsame txn.txnId t i hti]
          refine sameFor_setQueue (fun t ht => ?_) t i hti
          have hne : ¬ txn.txnId = t := fun h => ht h.symm
          simp [heldRequest, List.find?_append, hne]
        · exact List.mem_insert_of_mem (hset ▸ h)
        · exact List.mem_insert_self
      · exact herr

/-- What any number of lock calls of one transaction does. -/
structure Grew (lm : LockManager) (txn : LockOwner) (lm' : LockManager) (txn' : LockOwner) : Prop where
  wf : lm.Wf → lm'.Wf
  others : ∀ t, t ≠ txn.txnId → ∀ i, lm'.heldMode t i = lm.heldMode t i
  txnId : txn'.txnId = txn.txnId
  exclusive : ∀ i, lm.heldMode txn.txnId i = some .exlucsive → lm'.heldMode txn.txnId i = some .exlucsive
  listed : (∀ i, lm.heldMode txn.txnId i ≠ none → i ∈ txn.lockSet) →
    ∀ i, lm'.heldMode txn.txnId i ≠ none → i ∈ txn'.lockSet

theorem Grew.refl (lm : LockManager) (txn : LockOwner) : Grew lm txn lm txn :=
  ⟨fun h => h, fun _ _ _ => rfl, rfl, fun _ h => h, fun h => h⟩

theorem Grew.trans {lm' lm'' : LockManager} {txn' txn'' : LockOwner} (h : Grew lm txn lm' txn')
    (h' : Grew lm' txn' lm'' txn'') : Grew lm txn lm'' txn'' where
  wf hwf := h'.wf (h.wf hwf)
  others t ht i := (h'.others t (h.txnId ▸ ht) i).trans (h.others t ht i)
  txnId := h'.txnId.trans h.txnId
  exclusive i hi := h.txnId ▸ h'.exclusive i (h.txnId ▸ h.exclusive i hi)
  listed hl i hi := by
    refine h'.listed ?_ i (h.txnId ▸ hi)
    rw [h.txnId]
    exact h.listed hl

theorem Acquired.grew {res : Except TransactionAbortException Bool × LockOwner × LockManager}
    (h : Acquired lm txn id mode res) : Grew lm txn res.2.2 res.2.1 where
  wf := h.wf
  others t ht i := h.same t i (.inl ht)
  txnId := h.txnId
  exclusive i hi := by
    by_cases he : i = id
    · subst he
      rcases h.total with hok | herr
      · rcases h.granted hok with ⟨heq, -⟩ | ⟨hweak, -⟩
        · exact heq ▸ hi
        · -- nothing is stronger than the exclusive mode
          exact absurd (hweak _ hi) (by simp [isStronger])
      · exact h.refused herr ▸ hi
    · exact (h.same _ i (.inr he)).trans hi
  listed hl i hi := by
    by_cases he : i = id
    · subst he
      exact h.listed (hl i) hi
    · exact h.lockSet i (hl i (by rwa [← h.same _ i (.inr he)]))

/-- An exclusive lock that is granted is held in that mode. -/
theorem Acquired.exclusive {res : Except TransactionAbortException Bool × LockOwner × LockManager}
    (h : Acquired lm txn id .exlucsive res) (hok : res.1 = .ok true) :
    res.2.2.heldMode txn.txnId id = some .exlucsive := by
  rcases h.granted hok with ⟨heq, m, hm, hst⟩ | ⟨-, hm⟩
  · rw [← heq, hm]
    cases m <;> simp_all [isStronger]
  · exact hm

theorem QueueWf.eraseP (h : QueueWf q) (t : Int) : QueueWf (q.eraseP (·.txnId = t)) :=
  h.sublist List.eraseP_sublist

/-- The result of `unlock`. -/
structure Unlocked (lm : LockManager) (txn : LockOwner) (id : LockDataId) (res : Bool × LockOwner × LockManager) :
    Prop where
  wf : lm.Wf → res.2.2.Wf
  same : lm.SameFor res.2.2 txn.txnId id
  txnId : res.2.1.txnId = txn.txnId
  released : lm.Wf → res.2.2.heldMode txn.txnId id = none

variable (lm txn id) in
theorem unlock_spec : Unlocked lm txn id (lm.unlock txn id) := by
  obtain ⟨txn', htxn'⟩ : ∃ t, t = if txn.state = .committed ∨ txn.state = .aborted then txn
    else { txn with state := .shrinking } := ⟨_, rfl⟩
  have hid : txn'.txnId = txn.txnId := by rw [htxn']; split <;> rfl
  unfold unlock
  simp only [← htxn', hid]
  split
  · next hn => exact ⟨fun h => h, fun _ _ _ => rfl, hid, fun _ => by simp [heldMode, queue, hn, heldRequest]⟩
  · next queue hq =>
    have hqueue : lm.queue id = queue.requestQueue := by simp [LockManager.queue, hq]
    split
    · next hn => exact ⟨fun h => h, fun _ _ _ => rfl, hid, fun _ => by simp [heldMode, hqueue, hn]⟩
    · next r hr =>
      obtain ⟨q', hq'⟩ : ∃ q', q' = queue.requestQueue.eraseP (·.txnId = txn.txnId) := ⟨_, rfl⟩
      obtain ⟨lm', hlm'⟩ : ∃ l, l = if q' = [] then (⟨Function.update lm.lockTable id none⟩ : LockManager)
        else lm.setQueue id q' := ⟨_, rfl⟩
      have hqueue' : ∀ i, lm'.queue i = if i = id then q' else lm.queue i := by
        intro i
        rw [hlm']
        split
        · next hnil => by_cases h : i = id <;> simp [LockManager.queue, h, hnil]
        · exact queue_setQueue
      simp only [← hq', ← hlm']
      refine ⟨fun h i => ?_, fun t i hti => ?_, rfl, fun h => ?_⟩
      · rw [hqueue']
        split
        · exact hq' ▸ hqueue ▸ (h id).eraseP _
        · exact h i
      · unfold heldMode
        rw [hqueue']
        split
        · next hi =>
          have ht : t ≠ txn.txnId := hti.resolve_right fun hne => hne hi
          rw [hq', heldRequest_eraseP ht, ← hqueue, hi]
        · rfl
      · unfold heldMode
        rw [hqueue', if_pos rfl, Option.map_eq_none_iff, heldRequest_eq_none]
        intro r' hr'
        -- a second request of the transaction would not be pairwise distinct from the erased one
        have hwf : QueueWf queue.requestQueue := hqueue ▸ h id
        obtain ⟨a, l₁, l₂, hl₁, ha, heq, herase⟩ := List.exists_of_eraseP (p := (·.txnId = txn.txnId))
          (heldRequest_eq_some hr).1 (by simpa using (heldRequest_eq_some hr).2)
        rw [hq', herase] at hr'
        rw [heq] at hwf
        have hpw := List.pairwise_append.1 hwf
        rcases List.mem_append.1 hr' with hm | hm
        · simpa using hl₁ r' hm
        · have hne := ((List.pairwise_cons.1 hpw.2.1).1 r' hm).1
          have ha : a.txnId = txn.txnId := by simpa using ha
          exact fun heq => hne (ha.trans heq.symm)

end calls

end LockManager

end Rmdb
