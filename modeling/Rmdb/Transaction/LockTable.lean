import Mathlib.Data.List.Induction
import Mathlib.Data.List.Nodup
import Rmdb.Transaction.LockManager

/-!
# The lock table over runs

- `LockCall`: the calls of the lock manager and of `commit` and `abort`, by any number of transactions;
- `LockTable`: the lock manager with the transactions it was called for. `granted` is a ghost field: the modes that an
  item was locked in since it was last unlocked;
- `AcquireResult` and `UnlockResult`: what a call can do;
- `LockTable.Inv`: the queues and the lock sets agree, in every state of a run (`run_queues`);
- `run_protects_iff`: a transaction keeps the protection of every mode granted to it exactly in those runs where none
  that holds SHARED asks for INTENTION_EXCLUSIVE or the other way round.
-/

namespace Rmdb

namespace LockManager

/-! ## The public functions -/

section api
variable (lm : LockManager) (txn : LockOwner)

def lockSharedOnRecord (rid : Rid) (tabFd : Int) := lm.acquireLock txn (.record tabFd rid) .shared

def lockExclusiveOnRecord (rid : Rid) (tabFd : Int) := lm.acquireLock txn (.record tabFd rid) .exlucsive

def lockSharedOnTable (tabFd : Int) := lm.acquireLock txn (.table tabFd) .shared

def lockExclusiveOnTable (tabFd : Int) := lm.acquireLock txn (.table tabFd) .exlucsive

def lockISOnTable (tabFd : Int) := lm.acquireLock txn (.table tabFd) .intentionShared

def lockIXOnTable (tabFd : Int) := lm.acquireLock txn (.table tabFd) .intentionExclusive

end api

/-! ## What a call can do -/

section results
variable (lm : LockManager) (txn : LockOwner) (id : LockDataId) (mode : LockMode)

/-- The results of `acquire_lock`. A refusal leaves the lock table as it is: the queue is not new. -/
inductive AcquireResult : Except TransactionAbortException Bool × LockOwner × LockManager → Prop
  | refused (e : TransactionAbortException) (txn' : LockOwner) (hid : txn'.txnId = txn.txnId)
      (hset : txn'.lockSet = txn.lockSet)
      (why : txn.state = .shrinking ∨ grantable (lm.queue id) txn.txnId mode = false) :
      AcquireResult (.error e, txn', lm)
  | kept (txn' : LockOwner) (hstate : txn.state ≠ .shrinking) (hid : txn'.txnId = txn.txnId)
      (hset : txn'.lockSet = txn.lockSet) (held : LockMode) (hheld : lm.heldMode txn.txnId id = some held) (hst : isStronger held mode = true) :
      AcquireResult (.ok true, txn', lm)
  | upgraded (txn' : LockOwner) (hstate : txn.state ≠ .shrinking) (hid : txn'.txnId = txn.txnId)
      (hset : txn'.lockSet = txn.lockSet) (held : LockMode) (hheld : lm.heldMode txn.txnId id = some held) (hst : isStronger held mode = false)
      (hg : grantable (lm.queue id) txn.txnId mode = true) :
      AcquireResult (.ok true, txn', lm.setQueue id (upgrade txn.txnId mode (lm.queue id)))
  | appended (txn' : LockOwner) (hstate : txn.state ≠ .shrinking) (hid : txn'.txnId = txn.txnId)
      (hset : txn'.lockSet = txn.lockSet.insert id) (hnone : lm.heldMode txn.txnId id = none) (hg : grantable (lm.queue id) txn.txnId mode = true) :
      AcquireResult (.ok true, txn', lm.setQueue id (lm.queue id ++ [⟨txn.txnId, mode, true⟩]))

variable {lm id} in
theorem touch_eq (h : lm.queue id ≠ []) : lm.touch id = lm := by
  unfold touch
  split
  · rfl
  · next hn => exact absurd (by simp [queue, hn]) h

variable {lm id} in
theorem setQueue_touch (q : List LockRequest) : (lm.touch id).setQueue id q = lm.setQueue id q := by
  unfold touch
  split
  · rfl
  · simp only [setQueue, Function.update_idem]

theorem acquireLock_result : AcquireResult lm txn id mode (lm.acquireLock txn id mode) := by
  unfold acquireLock
  split
  · next hs => exact .refused _ _ rfl rfl (.inl hs)
  · next hs =>
    obtain ⟨txn', htxn'⟩ : ∃ t, t = if txn.state = .default then { txn with state := .growing } else txn := ⟨_, rfl⟩
    have hid : txn'.txnId = txn.txnId := by rw [htxn']; split <;> rfl
    have hset : txn'.lockSet = txn.lockSet := by rw [htxn']; split <;> rfl
    simp only [← htxn', hid, queue_touch, setQueue_touch]
    -- a refusal has a request in its way
    have hrefused (hg : ¬grantable (lm.queue id) txn.txnId mode = true) :
        AcquireResult lm txn id mode (.error ⟨txn.txnId, .deadlockPrevention⟩, txn', lm.touch id) := by
      rw [touch_eq]
      · exact .refused _ _ hid hset (.inr (by simpa using hg))
      · rintro hnil
        simp [hnil, grantable] at hg
    cases hheld : heldRequest (lm.queue id) txn.txnId with
    | some held =>
      have hmode : lm.heldMode txn.txnId id = some held.lockMode := by simp [heldMode, hheld]
      simp only
      split
      · next hst =>
        rw [touch_eq (List.ne_nil_of_mem (heldRequest_eq_some hheld).1)]
        exact .kept _ hs hid hset _ hmode hst
      · next hst =>
        split
        · next hg => exact .upgraded _ hs hid hset _ hmode (by simpa using hst) hg
        · next hg => exact hrefused hg
    | none =>
      simp only
      split
      · next hg => exact .appended _ hs rfl (by rw [hset]) (by simp [heldMode, hheld]) hg
      · next hg => exact hrefused hg

/-- The results of `unlock`. -/
inductive UnlockResult : Bool × LockOwner × LockManager → Prop
  | absent (txn' : LockOwner) (hid : txn'.txnId = txn.txnId) (hset : txn'.lockSet = txn.lockSet)
      (hnone : lm.heldMode txn.txnId id = none) : UnlockResult (false, txn', lm)
  | erased (txn' : LockOwner) (lm' : LockManager) (hid : txn'.txnId = txn.txnId)
      (hset : txn'.lockSet = txn.lockSet.erase id)
      (hlm' : lm' = if (lm.queue id).eraseP (·.txnId = txn.txnId) = [] then ⟨Function.update lm.lockTable id none⟩
        else lm.setQueue id ((lm.queue id).eraseP (·.txnId = txn.txnId))) : UnlockResult (true, txn', lm')

theorem unlock_result : UnlockResult lm txn id (lm.unlock txn id) := by
  obtain ⟨txn', htxn'⟩ : ∃ t, t = if txn.state = .committed ∨ txn.state = .aborted then txn
    else { txn with state := .shrinking } := ⟨_, rfl⟩
  have hid : txn'.txnId = txn.txnId := by rw [htxn']; split <;> rfl
  have hset : txn'.lockSet = txn.lockSet := by rw [htxn']; split <;> rfl
  unfold unlock
  simp only [← htxn', hid]
  split
  · next hn => exact .absent _ hid hset (by simp [heldMode, queue, hn, heldRequest])
  · next Q hQ =>
    have hqueue : lm.queue id = Q.requestQueue := by simp [queue, hQ]
    split
    · next hn => exact .absent _ hid hset (by simp [heldMode, hqueue, hn])
    · exact .erased _ _ rfl (by rw [hset]) (by rw [hqueue])

end results

/-! ## The modes after a call -/

section modes
variable {lm : LockManager} {id i : LockDataId} {txnId t : Int} {mode : LockMode}

theorem heldMode_setQueue {q : List LockRequest} : (lm.setQueue id q).heldMode t i =
    if i = id then (heldRequest q t).map (·.lockMode) else lm.heldMode t i := by
  unfold heldMode
  rw [queue_setQueue]
  split <;> rfl

theorem heldMode_upgraded {held : LockMode} (h : lm.heldMode txnId id = some held) :
    (lm.setQueue id (upgrade txnId mode (lm.queue id))).heldMode t i =
      if t = txnId ∧ i = id then some mode else lm.heldMode t i := by
  rw [heldMode_setQueue]
  by_cases hi : i = id
  · subst hi
    obtain ⟨r, hr, -⟩ := Option.map_eq_some_iff.1 h
    by_cases ht : t = txnId
    · simp [heldRequest_upgrade, ht, hr]
    · simp [heldRequest_upgrade, ht, heldMode]
  · simp [hi]

theorem heldMode_appended {granted : Bool} (h : lm.heldMode txnId id = none) :
    (lm.setQueue id (lm.queue id ++ [⟨txnId, mode, granted⟩])).heldMode t i =
      if t = txnId ∧ i = id then some mode else lm.heldMode t i := by
  rw [heldMode_setQueue]
  by_cases hi : i = id
  · subst hi
    have hnone := Option.map_eq_none_iff.1 h
    unfold heldRequest at hnone
    by_cases ht : t = txnId
    · simp [heldRequest, List.find?_append, ht, hnone]
    · have hne : ¬txnId = t := fun h => ht h.symm
      simp [heldRequest, List.find?_append, ht, hne, heldMode]
  · simp [hi]

/-- Erasing the request of a transaction erases nothing else. -/
theorem heldRequest_eraseP_self {q : List LockRequest} (h : QueueWf q) :
    heldRequest (q.eraseP (·.txnId = txnId)) txnId = none := by
  rw [heldRequest_eq_none]
  intro r hr
  induction q with
  | nil => cases hr
  | cons a q ih =>
    obtain ⟨ha, hq⟩ := List.pairwise_cons.1 h
    by_cases hat : a.txnId = txnId
    · rw [List.eraseP_cons_of_pos (by simpa using hat)] at hr
      exact fun hrt => (ha r hr).1 (hat.trans hrt.symm)
    · rw [List.eraseP_cons_of_neg (by simpa using hat)] at hr
      rcases List.mem_cons.1 hr with rfl | hr
      · exact hat
      · exact ih hq hr

theorem heldMode_erased (hwf : lm.Wf) {lm' : LockManager}
    (hlm' : lm' = if (lm.queue id).eraseP (·.txnId = txnId) = [] then ⟨Function.update lm.lockTable id none⟩
      else lm.setQueue id ((lm.queue id).eraseP (·.txnId = txnId))) :
    lm'.heldMode t i = if t = txnId ∧ i = id then none else lm.heldMode t i := by
  have hqueue : lm'.queue i = if i = id then (lm.queue id).eraseP (·.txnId = txnId) else lm.queue i := by
    rw [hlm']
    split
    · next hnil =>
      by_cases h : i = id
      · rw [if_pos h, hnil, h]
        simp [queue]
      · simp [queue, h]
    · exact queue_setQueue
  unfold heldMode
  rw [hqueue]
  by_cases hi : i = id
  · subst hi
    by_cases ht : t = txnId
    · simp [ht, heldRequest_eraseP_self (hwf i)]
    · simp [ht, heldRequest_eraseP]
  · simp [hi]

end modes

/-! ## Queues -/

/-- The mode of a queue with a single request. -/
def asGroup : LockMode → GroupLockMode
  | .shared => .s
  | .exlucsive => .x
  | .intentionShared => .is
  | .intentionExclusive => .ix
  | .sIX => .six

/-- The group mode is the strongest mode among the requests. -/
def Strongest (Q : LockRequestQueue) : Prop :=
  ∃ r ∈ Q.requestQueue, Q.groupLockMode = asGroup r.lockMode ∧
    ∀ r' ∈ Q.requestQueue, isStronger r.lockMode r'.lockMode = true

/-- What holds of a queue in the table. -/
structure QueueOk (Q : LockRequestQueue) : Prop where
  wf : QueueWf Q.requestQueue
  nonempty : Q.requestQueue ≠ []
  group : Q.groupLockMode = groupMode Q.requestQueue

theorem isStronger_refl (m : LockMode) : isStronger m m = true := by cases m <;> rfl

theorem isStronger_trans {a b c : LockMode} (h : isStronger a b = true) (h' : isStronger b c = true) :
    isStronger a c = true := by
  revert h h'
  cases a <;> cases b <;> cases c <;> decide

/-- What is compatible with a mode is compatible with the weaker ones. -/
theorem isCompatible_of_isStronger {held req m : LockMode} (h : isStronger held req = true)
    (hc : isCompatible m held = true) : isCompatible m req = true := by
  revert h hc
  cases held <;> cases req <;> cases m <;> decide

section queues
variable {q : List LockRequest} {txnId : Int} {mode : LockMode}

theorem QueueWf.nodup (h : QueueWf q) : (q.map (·.txnId)).Nodup := by
  rw [List.Nodup, List.pairwise_map]
  exact h.imp fun hab => hab.1

theorem length_upgrade : (upgrade txnId mode q).length = q.length := by
  induction q with
  | nil => rfl
  | cons r q ih =>
    unfold upgrade
    split
    · rfl
    · rw [List.length_cons, ih, List.length_cons]

/-- One of two compatible modes is stronger than the other. -/
theorem isStronger_total {a b : LockMode} (h : isCompatible a b = true) :
    isStronger a b = true ∨ isStronger b a = true := by
  revert h
  cases a <;> cases b <;> decide

/-- Some request of a well-formed queue is as strong as all of them. -/
theorem QueueWf.exists_strongest (h : QueueWf q) (hne : q ≠ []) :
    ∃ r ∈ q, ∀ r' ∈ q, isStronger r.lockMode r'.lockMode = true := by
  induction q with
  | nil => exact absurd rfl hne
  | cons a q ih =>
    obtain ⟨ha, hq⟩ := List.pairwise_cons.1 h
    by_cases hnil : q = []
    · exact ⟨a, List.mem_cons_self, by simp [hnil, isStronger_refl]⟩
    · obtain ⟨r, hr, hall⟩ := ih hq hnil
      rcases isStronger_total (ha r hr).2 with har | hra
      · refine ⟨a, List.mem_cons_self, fun r' hr' => ?_⟩
        rcases List.mem_cons.1 hr' with rfl | hr'
        · exact isStronger_refl _
        · exact isStronger_trans har (hall r' hr')
      · refine ⟨r, List.mem_cons_of_mem _ hr, fun r' hr' => ?_⟩
        rcases List.mem_cons.1 hr' with rfl | hr'
        · exact hra
        · exact hall r' hr'

/-- The group mode is that of a request as strong as all of them. -/
theorem groupMode_eq {r : LockRequest} (hr : r ∈ q) (hall : ∀ r' ∈ q, isStronger r.lockMode r'.lockMode = true) :
    groupMode q = asGroup r.lockMode := by
  have hhas (m : LockMode) : q.any (·.lockMode == m) = true → isStronger r.lockMode m = true := by
    intro hm
    obtain ⟨r', hr', he⟩ := List.any_eq_true.1 hm
    rw [← eq_of_beq he]
    exact hall r' hr'
  have hself : q.any (·.lockMode == r.lockMode) = true := List.any_eq_true.2 ⟨r, hr, by simp⟩
  have hno (m : LockMode) (h : isStronger r.lockMode m = false) : q.any (·.lockMode == m) = false := by
    rw [Bool.eq_false_iff]
    intro hm
    rw [hhas m hm] at h
    cases h
  unfold groupMode
  cases hmode : r.lockMode <;> rw [hmode] at hself hno
  case exlucsive => simp only [hself, asGroup, if_true]
  case sIX => simp [hself, hno .exlucsive rfl, asGroup]
  case shared => simp [hself, hno .exlucsive rfl, hno .sIX rfl, asGroup]
  case intentionExclusive => simp [hself, hno .exlucsive rfl, hno .sIX rfl, hno .shared rfl, asGroup]
  case intentionShared =>
    simp [hself, hno .exlucsive rfl, hno .sIX rfl, hno .shared rfl, hno .intentionExclusive rfl, asGroup]

theorem QueueOk.strongest {Q : LockRequestQueue} (h : QueueOk Q) : Strongest Q := by
  obtain ⟨r, hr, hall⟩ := h.wf.exists_strongest h.nonempty
  exact ⟨r, hr, h.group.trans (groupMode_eq hr hall), hall⟩

end queues

end LockManager

/-! ## Runs -/

/-- The calls of a transaction. `commit` and `abort` may raise an error before they come to the locks. -/
inductive LockCall
  | lockSharedOnRecord (tid : Int) (rid : Rid) (tabFd : Int)
  | lockExclusiveOnRecord (tid : Int) (rid : Rid) (tabFd : Int)
  | lockSharedOnTable (tid : Int) (tabFd : Int)
  | lockExclusiveOnTable (tid : Int) (tabFd : Int)
  | lockISOnTable (tid : Int) (tabFd : Int)
  | lockIXOnTable (tid : Int) (tabFd : Int)
  | unlock (tid : Int) (lockDataId : LockDataId)
  | commit (tid : Int) (returns : Bool)
  | abort (tid : Int) (returns : Bool)

/-- The lock manager and the transactions. `granted` are the modes granted since the item was last unlocked. -/
structure LockTable where
  lockMgr : LockManager
  txns : Int → LockOwner
  granted : Int × LockDataId → List LockMode

namespace LockTable

open LockManager

/-- No lock is held and no transaction has made a call. -/
def init : LockTable := ⟨⟨fun _ => none⟩, fun tid => ⟨tid, .default, []⟩, fun _ => []⟩

/-- A lock call of a transaction on an item, with the mode it asks for and its result. -/
def locked (s : LockTable) (tid : Int) (id : LockDataId) (mode : LockMode)
    (res : Except TransactionAbortException Bool × LockOwner × LockManager) : LockTable where
  lockMgr := res.2.2
  txns := Function.update s.txns tid res.2.1
  granted :=
    match res.1 with
    | .ok true => Function.update s.granted (tid, id) (mode :: s.granted (tid, id))
    | _ => s.granted

/-- `unlock`. -/
def unlock (s : LockTable) (tid : Int) (id : LockDataId) : LockTable :=
  let (_, owner, lm) := s.lockMgr.unlock (s.txns tid) id
  ⟨lm, Function.update s.txns tid owner, Function.update s.granted (tid, id) []⟩

/-- What `commit` and `abort` end with: unlock a copy of the lock set, clear it and set the state. -/
def release (s : LockTable) (tid : Int) (final : TransactionState) : LockTable :=
  let s := (s.txns tid).lockSet.foldl (fun s id => s.unlock tid id) s
  { s with txns := Function.update s.txns tid { s.txns tid with lockSet := [], state := final } }

def step (s : LockTable) : LockCall → LockTable
  | .lockSharedOnRecord tid rid fd =>
    s.locked tid (.record fd rid) .shared (s.lockMgr.lockSharedOnRecord (s.txns tid) rid fd)
  | .lockExclusiveOnRecord tid rid fd =>
    s.locked tid (.record fd rid) .exlucsive (s.lockMgr.lockExclusiveOnRecord (s.txns tid) rid fd)
  | .lockSharedOnTable tid fd => s.locked tid (.table fd) .shared (s.lockMgr.lockSharedOnTable (s.txns tid) fd)
  | .lockExclusiveOnTable tid fd =>
    s.locked tid (.table fd) .exlucsive (s.lockMgr.lockExclusiveOnTable (s.txns tid) fd)
  | .lockISOnTable tid fd => s.locked tid (.table fd) .intentionShared (s.lockMgr.lockISOnTable (s.txns tid) fd)
  | .lockIXOnTable tid fd => s.locked tid (.table fd) .intentionExclusive (s.lockMgr.lockIXOnTable (s.txns tid) fd)
  | .unlock tid id => s.unlock tid id
  | .commit tid returns => if returns then s.release tid .committed else s
  | .abort tid returns => if returns then s.release tid .aborted else s

def run (s : LockTable) (calls : List LockCall) : LockTable := calls.foldl step s

/-- The transaction, the item and the mode of a lock call. -/
def request : LockCall → Option (Int × LockDataId × LockMode)
  | .lockSharedOnRecord tid rid fd => some (tid, .record fd rid, .shared)
  | .lockExclusiveOnRecord tid rid fd => some (tid, .record fd rid, .exlucsive)
  | .lockSharedOnTable tid fd => some (tid, .table fd, .shared)
  | .lockExclusiveOnTable tid fd => some (tid, .table fd, .exlucsive)
  | .lockISOnTable tid fd => some (tid, .table fd, .intentionShared)
  | .lockIXOnTable tid fd => some (tid, .table fd, .intentionExclusive)
  | _ => none

/-- The transaction whose `commit` or `abort` this is, if it comes back. -/
def ending : LockCall → Option Int
  | .commit tid true | .abort tid true => some tid
  | _ => none

theorem run_append (s : LockTable) (as bs : List LockCall) : s.run (as ++ bs) = (s.run as).run bs :=
  List.foldl_append

/-- What a step is: a lock call, an unlock, the release of all locks, or nothing. -/
theorem step_cases (s : LockTable) (c : LockCall) :
    (∃ tid id mode, request c = some (tid, id, mode) ∧ ending c = none ∧
      s.step c = s.locked tid id mode (s.lockMgr.acquireLock (s.txns tid) id mode)) ∨
    (request c = none ∧ ((∃ tid id, ending c = none ∧ s.step c = s.unlock tid id) ∨
      (∃ tid final, ending c = some tid ∧ s.step c = s.release tid final) ∨ ending c = none ∧ s.step c = s)) := by
  cases c
  case unlock tid id => exact .inr ⟨rfl, .inl ⟨tid, id, rfl, rfl⟩⟩
  case commit tid returns =>
    cases returns
    · exact .inr ⟨rfl, .inr (.inr ⟨rfl, rfl⟩)⟩
    · exact .inr ⟨rfl, .inr (.inl ⟨tid, _, rfl, rfl⟩)⟩
  case abort tid returns =>
    cases returns
    · exact .inr ⟨rfl, .inr (.inr ⟨rfl, rfl⟩)⟩
    · exact .inr ⟨rfl, .inr (.inl ⟨tid, _, rfl, rfl⟩)⟩
  all_goals
    exact .inl ⟨_, _, _, rfl, rfl, rfl⟩

/-! ## The invariant -/

/-- The mode in which a transaction holds an item. -/
abbrev mode (s : LockTable) (tid : Int) (id : LockDataId) : Option LockMode := s.lockMgr.heldMode tid id

/-- The queues are in order, and each transaction holds what is in its lock set. -/
structure Inv (s : LockTable) : Prop where
  queue : ∀ id Q, s.lockMgr.lockTable id = some Q → QueueOk Q
  txnId : ∀ tid, (s.txns tid).txnId = tid
  listed : ∀ tid id, id ∈ (s.txns tid).lockSet ↔ s.mode tid id ≠ none
  nodup : ∀ tid, (s.txns tid).lockSet.Nodup
  /-- The recorded mode was granted, and what was granted is recorded. -/
  recorded : ∀ tid id m, s.mode tid id = some m → m ∈ s.granted (tid, id)
  held : ∀ tid id, s.granted (tid, id) ≠ [] → s.mode tid id ≠ none

theorem inv_init : init.Inv where
  queue _ _ h := by cases h
  txnId _ := rfl
  listed _ _ := by simp [init, mode, heldMode, LockManager.queue, heldRequest]
  nodup _ := List.nodup_nil
  recorded _ _ _ h := by simp [init, mode, heldMode, LockManager.queue, heldRequest] at h
  held _ _ h := absurd rfl h

section step
variable {s : LockTable} {tid : Int} {id : LockDataId} {m : LockMode}

theorem Inv.wf (h : s.Inv) : s.lockMgr.Wf := by
  intro id
  unfold LockManager.queue
  cases hq : s.lockMgr.lockTable id with
  | none => exact List.Pairwise.nil
  | some Q => exact (h.queue id Q hq).wf

/-- A queue is replaced by one in order. -/
theorem Inv.queue_setQueue (h : s.Inv) {q : List LockRequest} (hwf : QueueWf q) (hne : q ≠ []) :
    ∀ i Q, (s.lockMgr.setQueue id q).lockTable i = some Q → QueueOk Q := by
  intro i Q hQ
  by_cases hi : i = id
  · subst hi
    simp only [setQueue, Function.update_self, Option.some.injEq] at hQ
    subst hQ
    exact ⟨hwf, hne, rfl⟩
  · simp only [setQueue, Function.update_of_ne hi] at hQ
    exact h.queue i Q hQ

/-- A lock call that is granted keeps the invariant. -/
theorem Inv.grant (h : s.Inv) {owner : LockOwner} {lm : LockManager} (hid : owner.txnId = tid)
    (hset : ∀ i, i ∈ owner.lockSet ↔ i ∈ (s.txns tid).lockSet ∨ i = id) (hnodup : owner.lockSet.Nodup)
    (hqueue : ∀ i Q, lm.lockTable i = some Q → QueueOk Q)
    (hself : ∃ held, lm.heldMode tid id = some held ∧ (held = m ∨ s.mode tid id = some held))
    (hother : ∀ t i, ¬(t = tid ∧ i = id) → lm.heldMode t i = s.mode t i) :
    Inv ⟨lm, Function.update s.txns tid owner, Function.update s.granted (tid, id) (m :: s.granted (tid, id))⟩ := by
  obtain ⟨held, hheld, hwhich⟩ := hself
  refine ⟨hqueue, fun t => ?_, fun t i => ?_, fun t => ?_, fun t i m' hm' => ?_, fun t i hne => ?_⟩
  · by_cases ht : t = tid
    · simp [ht, hid]
    · simp [ht, h.txnId]
  · by_cases ht : t = tid
    · subst ht
      simp only [Function.update_self, hset, mode]
      by_cases hi : i = id
      · simp [hi, hheld]
      · rw [hother t i (fun hh => hi hh.2), h.listed]
        simp [hi]
    · simp only [Function.update_of_ne ht, mode]
      rw [hother t i (fun hh => ht hh.1), h.listed]
  · by_cases ht : t = tid
    · simpa [ht] using hnodup
    · simpa [ht] using h.nodup t
  · by_cases hti : t = tid ∧ i = id
    · obtain ⟨rfl, rfl⟩ := hti
      simp only [mode, hheld, Option.some.injEq] at hm'
      subst hm'
      simp only [Function.update_self]
      rcases hwhich with rfl | hold
      · exact List.mem_cons_self
      · exact List.mem_cons_of_mem _ (h.recorded _ _ _ hold)
    · have hne : (t, i) ≠ (tid, id) := fun heq => hti (Prod.mk.inj heq)
      simp only [mode, hother t i hti] at hm'
      simp only [Function.update_of_ne hne]
      exact h.recorded t i m' hm'
  · by_cases hti : t = tid ∧ i = id
    · obtain ⟨rfl, rfl⟩ := hti
      simp [mode, hheld]
    · have hti' : (t, i) ≠ (tid, id) := fun heq => hti (Prod.mk.inj heq)
      simp only [Function.update_of_ne hti'] at hne
      simp only [mode, hother t i hti]
      exact h.held t i hne

/-- A lock call that is refused keeps the invariant. -/
theorem Inv.refuse (h : s.Inv) {owner : LockOwner} (hid : owner.txnId = tid)
    (hset : owner.lockSet = (s.txns tid).lockSet) : Inv ⟨s.lockMgr, Function.update s.txns tid owner, s.granted⟩ := by
  refine ⟨h.queue, fun t => ?_, fun t i => ?_, fun t => ?_, h.recorded, h.held⟩
  · by_cases ht : t = tid
    · simp [ht, hid]
    · simp [ht, h.txnId]
  · by_cases ht : t = tid
    · rw [ht]
      simpa [hset] using h.listed tid i
    · simpa [ht] using h.listed t i
  · by_cases ht : t = tid
    · simpa [ht, hset] using h.nodup tid
    · simpa [ht] using h.nodup t

variable (tid id m) in
/-- **A lock call keeps the invariant.** -/
theorem Inv.locked (h : s.Inv) : (s.locked tid id m (s.lockMgr.acquireLock (s.txns tid) id m)).Inv := by
  have hresult := s.lockMgr.acquireLock_result (s.txns tid) id m
  have htid := h.txnId tid
  generalize s.lockMgr.acquireLock (s.txns tid) id m = res at hresult
  cases hresult with
  | refused e owner hid hset why => exact h.refuse (hid.trans htid) hset
  | kept owner _ hid hset held hheld hst =>
    rw [htid] at hheld
    refine h.grant (hid.trans htid) (fun i => ?_) (hset ▸ h.nodup tid) h.queue ⟨held, hheld, .inr hheld⟩ fun _ _ _ => rfl
    have hin : id ∈ (s.txns tid).lockSet := (h.listed tid id).2 (by simp [mode, hheld])
    rw [hset]
    exact ⟨.inl, fun hi => hi.elim (fun hi => hi) fun hi => hi ▸ hin⟩
  | upgraded owner _ hid hset held hheld hst hg =>
    rw [htid] at hheld hg
    have hin : id ∈ (s.txns tid).lockSet := (h.listed tid id).2 (by simp [mode, hheld])
    have hne : upgrade tid m (s.lockMgr.queue id) ≠ [] := by
      obtain ⟨r, hr, -⟩ := Option.map_eq_some_iff.1 hheld
      have hpos := List.length_pos_of_mem (heldRequest_eq_some hr).1
      apply List.ne_nil_of_length_pos
      rwa [length_upgrade]
    rw [htid]
    refine h.grant (hid.trans htid) (fun i => ?_) (hset ▸ h.nodup tid) (h.queue_setQueue ((h.wf id).upgrade hg) hne)
      ⟨m, by simp [heldMode_upgraded hheld], .inl rfl⟩ fun t i hti => by simp [heldMode_upgraded hheld, hti]
    rw [hset]
    exact ⟨.inl, fun hi => hi.elim (fun hi => hi) fun hi => hi ▸ hin⟩
  | appended owner _ hid hset hnone hg =>
    rw [htid] at hnone hg
    have hwf := (h.wf id).append (Option.map_eq_none_iff.1 hnone) hg true
    rw [htid]
    refine h.grant (hid.trans htid) (fun i => ?_) (hset ▸ (h.nodup tid).insert) (h.queue_setQueue hwf (by simp))
      ⟨m, by simp [heldMode_appended hnone], .inl rfl⟩ fun t i hti => by simp [heldMode_appended hnone, hti]
    rw [hset, List.mem_insert_iff, or_comm]

/-- A release of one item keeps the invariant. -/
theorem Inv.drop (h : s.Inv) {owner : LockOwner} {lm : LockManager} (hid : owner.txnId = tid)
    (hset : owner.lockSet = (s.txns tid).lockSet.erase id)
    (hqueue : ∀ i Q, lm.lockTable i = some Q → QueueOk Q)
    (hmode : ∀ t i, lm.heldMode t i = if t = tid ∧ i = id then none else s.mode t i) :
    Inv ⟨lm, Function.update s.txns tid owner, Function.update s.granted (tid, id) []⟩ := by
  refine ⟨hqueue, fun t => ?_, fun t i => ?_, fun t => ?_, fun t i m' hm' => ?_, fun t i hne => ?_⟩
  · by_cases ht : t = tid
    · simp [ht, hid]
    · simp [ht, h.txnId]
  · by_cases ht : t = tid
    · subst ht
      simp only [Function.update_self, hset, mode, hmode, (h.nodup t).mem_erase_iff, h.listed]
      by_cases hi : i = id <;> simp [hi]
    · simp only [Function.update_of_ne ht, mode, hmode, h.listed]
      simp [ht]
  · by_cases ht : t = tid
    · simpa [ht, hset] using (h.nodup tid).erase id
    · simpa [ht] using h.nodup t
  · by_cases hti : t = tid ∧ i = id
    · simp [mode, hmode, hti] at hm'
    · have hne : (t, i) ≠ (tid, id) := fun heq => hti (Prod.mk.inj heq)
      simp only [mode, hmode, if_neg hti] at hm'
      simp only [Function.update_of_ne hne]
      exact h.recorded t i m' hm'
  · by_cases hti : t = tid ∧ i = id
    · simp [hti] at hne
    · have hti' : (t, i) ≠ (tid, id) := fun heq => hti (Prod.mk.inj heq)
      simp only [Function.update_of_ne hti'] at hne
      simp only [mode, hmode, if_neg hti]
      exact h.held t i hne

/-- A queue without one of its requests, or without the item, is in order. -/
theorem Inv.queue_erase (h : s.Inv) {lm : LockManager}
    (hlm : lm = if (s.lockMgr.queue id).eraseP (·.txnId = tid) = [] then ⟨Function.update s.lockMgr.lockTable id none⟩
      else s.lockMgr.setQueue id ((s.lockMgr.queue id).eraseP (·.txnId = tid))) :
    ∀ i Q, lm.lockTable i = some Q → QueueOk Q := by
  intro i Q hQ
  rw [hlm] at hQ
  split at hQ
  · by_cases hi : i = id
    · simp [hi] at hQ
    · simp only [Function.update_of_ne hi] at hQ
      exact h.queue i Q hQ
  · next hne => exact h.queue_setQueue ((h.wf id).eraseP tid) hne i Q hQ

variable (tid id) in
/-- **`unlock` keeps the invariant**; the item is released and no longer in the lock set. -/
theorem Inv.unlock (h : s.Inv) : (s.unlock tid id).Inv ∧
    ((s.unlock tid id).txns tid).lockSet = (s.txns tid).lockSet.erase id ∧
    ∀ t i, (s.unlock tid id).mode t i = if t = tid ∧ i = id then none else s.mode t i := by
  have hresult := s.lockMgr.unlock_result (s.txns tid) id
  have htid := h.txnId tid
  unfold LockTable.unlock
  generalize s.lockMgr.unlock (s.txns tid) id = res at hresult
  cases hresult with
  | absent owner hid hset hnone =>
    rw [htid] at hnone
    have hout : id ∉ (s.txns tid).lockSet := fun hin => (h.listed tid id).1 hin hnone
    have hset' : owner.lockSet = (s.txns tid).lockSet.erase id := by rw [hset, List.erase_of_not_mem hout]
    have hmode : ∀ t i, s.mode t i = if t = tid ∧ i = id then none else s.mode t i := by
      intro t i
      split
      · next hti =>
        rw [hti.1, hti.2]
        exact hnone
      · rfl
    exact ⟨h.drop (hid.trans htid) hset' h.queue hmode, by simpa using hset', hmode⟩
  | erased owner lm hid hset hlm =>
    rw [htid] at hlm
    have hmode : ∀ t i, lm.heldMode t i = if t = tid ∧ i = id then none else s.mode t i := fun _ _ =>
      heldMode_erased h.wf hlm
    exact ⟨h.drop (hid.trans htid) hset (h.queue_erase hlm) hmode, by simpa using hset, hmode⟩

/-- The loop over the copied lock set. -/
theorem Inv.unlockAll (h : s.Inv) (tid : Int) (ids : List LockDataId) :
    (ids.foldl (fun s id => s.unlock tid id) s).Inv ∧
    ∀ t i, (ids.foldl (fun s id => s.unlock tid id) s).mode t i =
      if t = tid ∧ i ∈ ids then none else s.mode t i := by
  induction ids generalizing s with
  | nil => exact ⟨h, fun t i => by simp⟩
  | cons id ids ih =>
    obtain ⟨hinv, -, hmode⟩ := h.unlock tid id
    obtain ⟨hinv', hrest⟩ := ih hinv
    refine ⟨hinv', fun t i => ?_⟩
    rw [List.foldl_cons, hrest, hmode]
    by_cases ht : t = tid <;> by_cases hi : i = id <;> simp [ht, hi]

variable (tid) in
/-- **`commit` and `abort` keep the invariant**; they release the locks of the transaction. -/
theorem Inv.release (h : s.Inv) (final : TransactionState) :
    (s.release tid final).Inv ∧ ∀ t i, (s.release tid final).mode t i = if t = tid then none else s.mode t i := by
  obtain ⟨hinv, hmode⟩ := h.unlockAll tid (s.txns tid).lockSet
  obtain ⟨s', hs'⟩ : ∃ s', s' = (s.txns tid).lockSet.foldl (fun s id => s.unlock tid id) s := ⟨_, rfl⟩
  rw [← hs'] at hinv hmode
  have hmode' : ∀ t i, s'.mode t i = if t = tid then none else s.mode t i := by
    intro t i
    rw [hmode]
    by_cases ht : t = tid
    · subst ht
      by_cases hi : i ∈ (s.txns t).lockSet
      · simp [hi]
      · have hnone : s.mode t i = none := not_not.1 fun hne => hi ((h.listed t i).2 hne)
        simp [hi, hnone]
    · simp [ht]
  have hnil : (s'.txns tid).lockSet = [] := by
    rw [List.eq_nil_iff_forall_not_mem]
    intro i hi
    exact (hinv.listed tid i).1 hi (by simp [hmode'])
  simp only [LockTable.release, ← hs']
  exact ⟨hinv.refuse (hinv.txnId tid) hnil.symm, hmode'⟩

/-- Every call keeps the invariant. -/
theorem Inv.step (h : s.Inv) (c : LockCall) : (s.step c).Inv := by
  rcases s.step_cases c with ⟨tid, id, m, -, -, he⟩ | ⟨-, ⟨tid, id, -, he⟩ | ⟨tid, final, -, he⟩ | ⟨-, he⟩⟩ <;> rw [he]
  · exact h.locked tid id m
  · exact (h.unlock tid id).1
  · exact (h.release tid final).1
  · exact h

theorem inv_run (calls : List LockCall) : (init.run calls).Inv := by
  induction calls using List.reverseRecOn with
  | nil => exact inv_init
  | append_singleton calls c ih =>
    rw [run_append]
    exact ih.step c

/-- A lock call changes the mode of its own transaction and item only. -/
theorem locked_mode (h : s.Inv) {t : Int} {i : LockDataId} (hti : ¬(t = tid ∧ i = id)) :
    (s.locked tid id m (s.lockMgr.acquireLock (s.txns tid) id m)).mode t i = s.mode t i := by
  have hsame := (acquireLock_spec s.lockMgr (s.txns tid) id m).same t i
  rw [h.txnId] at hsame
  exact hsame (not_and_or.1 hti)

/-- A transaction that holds nothing holds nothing until it makes a lock call. -/
theorem Inv.idle_step (h : s.Inv) {c : LockCall} (hc : ∀ id m, request c ≠ some (tid, id, m))
    (hnone : ∀ i, s.mode tid i = none) : ∀ i, (s.step c).mode tid i = none := by
  intro i
  rcases s.step_cases c with ⟨t, id, m, hreq, -, he⟩ | ⟨-, ⟨t, id, -, he⟩ | ⟨t, final, -, he⟩ | ⟨-, he⟩⟩ <;> rw [he]
  · have ht : ¬tid = t := fun ht => hc id m (ht ▸ hreq)
    rw [locked_mode h fun hti => ht hti.1]
    exact hnone i
  · rw [(h.unlock t id).2.2, hnone]
    simp
  · rw [(h.release t final).2, hnone]
    simp
  · exact hnone i

theorem Inv.idle_run (h : s.Inv) {calls : List LockCall} (hc : ∀ c ∈ calls, ∀ id m, request c ≠ some (tid, id, m))
    (hnone : ∀ i, s.mode tid i = none) : ∀ i, (s.run calls).mode tid i = none := by
  induction calls generalizing s with
  | nil => exact hnone
  | cons c calls ih =>
    exact ih (h.step c) (fun c' hc' => hc c' (List.mem_cons_of_mem _ hc')) (h.idle_step (hc c List.mem_cons_self) hnone)

end step

theorem mode_ne_none {s : LockTable} {tid : Int} {id : LockDataId} :
    s.mode tid id ≠ none ↔ ∃ r ∈ s.lockMgr.queue id, r.txnId = tid := by
  simp only [mode, heldMode, ne_eq, Option.map_eq_none_iff, heldRequest_eq_none, not_forall, not_not, exists_prop]

/-- **The lock table**, after every call of every run: the requests in a queue are of different transactions and
compatible, no queue is empty and its group mode is the strongest, a transaction has a request in the queues of its lock
set and no others, and after `commit` and `abort` it has none until it asks for a lock again. -/
theorem run_queues (calls : List LockCall) :
    (∀ id Q, (init.run calls).lockMgr.lockTable id = some Q →
      (∀ r ∈ Q.requestQueue, ∀ r' ∈ Q.requestQueue, r.txnId ≠ r'.txnId →
        isCompatible r.lockMode r'.lockMode = true) ∧
      (Q.requestQueue.map (·.txnId)).Nodup ∧ Q.requestQueue ≠ [] ∧ Strongest Q) ∧
    (∀ tid id, (∃ r ∈ (init.run calls).lockMgr.queue id, r.txnId = tid) ↔
      id ∈ ((init.run calls).txns tid).lockSet) ∧
    ∀ pre c post tid, calls = pre ++ c :: post → ending c = some tid →
      (∀ c' ∈ post, ∀ id m, request c' ≠ some (tid, id, m)) →
      ∀ id, ∀ r ∈ (init.run calls).lockMgr.queue id, r.txnId ≠ tid := by
  have hinv := inv_run calls
  refine ⟨fun id Q hQ => ?_, fun tid id => ?_, fun pre c post tid hsplit hend hpost id r hr => ?_⟩
  · have hok := hinv.queue id Q hQ
    exact ⟨fun r hr r' hr' => hok.wf.compatible hr hr', hok.wf.nodup, hok.nonempty, hok.strongest⟩
  · rw [hinv.listed, mode_ne_none]
  · have hpre := inv_run pre
    have hnone : ∀ i, ((init.run pre).step c).mode tid i = none := by
      intro i
      rcases (init.run pre).step_cases c with ⟨t, id, m, -, hno, -⟩ | ⟨-, ⟨t, id, hno, -⟩ | ⟨t, final, he, hstep⟩ | ⟨hno, -⟩⟩
      · rw [hno] at hend; cases hend
      · rw [hno] at hend; cases hend
      · rw [he, Option.some.injEq] at hend
        rw [hstep, (hpre.release t final).2, if_pos hend.symm]
      · rw [hno] at hend; cases hend
    have hidle := (hpre.step c).idle_run hpost hnone id
    have hrun : init.run calls = ((init.run pre).step c).run post := by
      rw [hsplit, run_append]
      rfl
    rw [hrun] at hr
    exact fun heq => mode_ne_none.2 ⟨r, hr, heq⟩ hidle

/-! ## Protection -/

/-- Each recorded mode is at least as strong as all that was granted. -/
def Covers (s : LockTable) : Prop :=
  ∀ tid id m, m ∈ s.granted (tid, id) → ∃ held, s.mode tid id = some held ∧ isStronger held m = true

/-- No other transaction is granted a mode that is incompatible with one that was granted. -/
def Protects (s : LockTable) : Prop :=
  ∀ tid id m, m ∈ s.granted (tid, id) → ∀ txn : LockOwner, txn.txnId ≠ tid → ∀ req,
    (s.lockMgr.acquireLock txn id req).1 = .ok true → isCompatible req m = true

/-- Neither mode is stronger than the other. -/
def Incomparable (held req : LockMode) : Prop :=
  held = .shared ∧ req = .intentionExclusive ∨ held = .intentionExclusive ∧ req = .shared

/-- The call replaces SHARED by INTENTION_EXCLUSIVE or the other way round, and no other transaction is in its way. -/
def Drops (s : LockTable) (c : LockCall) : Prop :=
  ∃ tid id req held, request c = some (tid, id, req) ∧ s.mode tid id = some held ∧ Incomparable held req ∧
    (s.txns tid).state ≠ .shrinking ∧ grantable (s.lockMgr.queue id) tid req = true

/-- A mode that a public function asks for and that is not covered by the mode held replaces a weaker one, except for
the two that are incomparable. -/
theorem isStronger_of_upgrade {held req : LockMode} (hst : isStronger held req = false) (hreq : req ≠ .sIX)
    (hinc : ¬Incomparable held req) : isStronger req held = true := by
  unfold Incomparable at hinc
  revert hst hreq hinc
  cases held <;> cases req <;> decide

theorem Incomparable.not_isStronger {held req : LockMode} (h : Incomparable held req) :
    isStronger held req = false ∧ isStronger req held = false ∧ isCompatible req held = false ∧
      isCompatible req req = true := by
  rcases h with ⟨rfl, rfl⟩ | ⟨rfl, rfl⟩ <;> decide

theorem request_mode {c : LockCall} {tid : Int} {id : LockDataId} {m : LockMode} (h : request c = some (tid, id, m)) :
    m ≠ .sIX := by
  cases c <;> simp only [request, Option.some.injEq, Prod.mk.injEq, reduceCtorEq] at h <;>
    (rw [← h.2.2]; decide)

section protection
variable {s : LockTable}

/-- **Where the recorded modes cover what was granted, the grants are protected.** -/
theorem Covers.protects (hc : s.Covers) (h : s.Inv) : s.Protects := by
  intro tid id m hm txn hne req hok
  obtain ⟨held, hheld, hst⟩ := hc tid id m hm
  obtain ⟨r, hr, rfl⟩ := Option.map_eq_some_iff.1 hheld
  obtain ⟨hmem, htid⟩ := heldRequest_eq_some hr
  have hgrant (hg : grantable (s.lockMgr.queue id) txn.txnId req = true) : isCompatible req m = true :=
    isCompatible_of_isStronger hst (grantable_iff.1 hg r hmem (htid ▸ hne.symm))
  have hresult := s.lockMgr.acquireLock_result txn id req
  generalize s.lockMgr.acquireLock txn id req = res at hresult hok
  cases hresult with
  | refused => cases hok
  | kept txn' _ hid hset other hother hstronger =>
    -- the mode held by the other transaction is compatible, and so is the weaker one it asks for
    obtain ⟨r', hr', rfl⟩ := Option.map_eq_some_iff.1 hother
    obtain ⟨hmem', htid'⟩ := heldRequest_eq_some hr'
    have hcompat := (h.wf id).compatible hmem hmem' (by rw [htid, htid']; exact hne.symm)
    have hweak := isCompatible_of_isStronger hstronger hcompat
    rw [isCompatible_comm] at hweak
    exact isCompatible_of_isStronger hst hweak
  | upgraded _ _ _ _ _ _ _ hg => exact hgrant hg
  | appended _ _ _ _ _ hg => exact hgrant hg

/-- A lock call that is granted keeps what was granted covered if its mode is covered and the mode held before is. -/
theorem Covers.grant (hc : s.Covers) {tid : Int} {id : LockDataId} {req held : LockMode} {owner : LockOwner}
    {lm : LockManager} (hheld : lm.heldMode tid id = some held) (hreq : isStronger held req = true)
    (hold : ∀ m ∈ s.granted (tid, id), isStronger held m = true)
    (hother : ∀ t i, ¬(t = tid ∧ i = id) → lm.heldMode t i = s.mode t i) :
    Covers ⟨lm, Function.update s.txns tid owner, Function.update s.granted (tid, id) (req :: s.granted (tid, id))⟩ := by
  intro t i m hm
  by_cases hti : t = tid ∧ i = id
  · obtain ⟨rfl, rfl⟩ := hti
    simp only [Function.update_self] at hm
    refine ⟨held, hheld, ?_⟩
    rcases List.mem_cons.1 hm with rfl | hm
    · exact hreq
    · exact hold m hm
  · have hne : (t, i) ≠ (tid, id) := fun heq => hti (Prod.mk.inj heq)
    simp only [Function.update_of_ne hne] at hm
    simp only [mode, hother t i hti]
    exact hc t i m hm

/-- A lock call that drops nothing keeps what was granted covered. -/
theorem Covers.locked (hc : s.Covers) (h : s.Inv) {tid : Int} {id : LockDataId} {req : LockMode} (hreq : req ≠ .sIX)
    (hinc : ∀ held, s.mode tid id = some held → (s.txns tid).state ≠ .shrinking →
      grantable (s.lockMgr.queue id) tid req = true → ¬Incomparable held req) :
    (s.locked tid id req (s.lockMgr.acquireLock (s.txns tid) id req)).Covers := by
  have hresult := s.lockMgr.acquireLock_result (s.txns tid) id req
  have htid := h.txnId tid
  have hcovered (held : LockMode) (hheld : s.mode tid id = some held) :
      ∀ m ∈ s.granted (tid, id), isStronger held m = true := by
    intro m hm
    obtain ⟨held', hheld', hst⟩ := hc tid id m hm
    rw [hheld, Option.some.injEq] at hheld'
    rwa [hheld']
  generalize s.lockMgr.acquireLock (s.txns tid) id req = res at hresult
  cases hresult with
  | refused => exact hc
  | kept owner _ hid hset held hheld hst =>
    rw [htid] at hheld
    exact hc.grant hheld hst (hcovered held hheld) fun _ _ _ => rfl
  | upgraded owner hstate hid hset held hheld hst hg =>
    rw [htid] at hheld hg
    have hup := isStronger_of_upgrade hst hreq (hinc held hheld hstate hg)
    rw [htid]
    refine hc.grant (by simp [heldMode_upgraded hheld]) (isStronger_refl req) (fun m hm => ?_)
      fun t i hti => by simp [heldMode_upgraded hheld, hti]
    exact isStronger_trans hup (hcovered held hheld m hm)
  | appended owner _ hid hset hnone hg =>
    rw [htid] at hnone
    have hnil : s.granted (tid, id) = [] := not_not.1 fun hne => h.held tid id hne hnone
    rw [htid]
    exact hc.grant (by simp [heldMode_appended hnone]) (isStronger_refl req) (by simp [hnil])
      fun t i hti => by simp [heldMode_appended hnone, hti]

/-- `unlock` takes the grants of the item with it. -/
theorem Covers.unlock (hc : s.Covers) (h : s.Inv) (tid : Int) (id : LockDataId) : (s.unlock tid id).Covers := by
  intro t i m hm
  rw [(h.unlock tid id).2.2]
  by_cases hti : t = tid ∧ i = id
  · simp [LockTable.unlock, hti] at hm
  · have hne : (t, i) ≠ (tid, id) := fun heq => hti (Prod.mk.inj heq)
    simp only [LockTable.unlock, Function.update_of_ne hne] at hm
    rw [if_neg hti]
    exact hc t i m hm

theorem Covers.unlockAll (hc : s.Covers) (h : s.Inv) (tid : Int) (ids : List LockDataId) :
    (ids.foldl (fun s id => s.unlock tid id) s).Covers := by
  induction ids generalizing s with
  | nil => exact hc
  | cons id ids ih => exact ih (hc.unlock h tid id) (h.unlock tid id).1

/-- **A call that drops nothing keeps what was granted covered.** -/
theorem Covers.step (hc : s.Covers) (h : s.Inv) {c : LockCall} (hd : ¬s.Drops c) : (s.step c).Covers := by
  rcases s.step_cases c with ⟨tid, id, m, hreq, -, he⟩ | ⟨-, ⟨tid, id, -, he⟩ | ⟨tid, final, -, he⟩ | ⟨-, he⟩⟩ <;> rw [he]
  · exact hc.locked h (request_mode hreq) fun held hheld hstate hg hinc =>
      hd ⟨tid, id, m, held, hreq, hheld, hinc, hstate, hg⟩
  · exact hc.unlock h tid id
  · exact hc.unlockAll h tid (s.txns tid).lockSet
  · exact hc

/-- After a call that drops a mode, the mode asked for is recorded and both were granted. -/
theorem Drops.step (h : s.Inv) {c : LockCall} (hd : s.Drops c) : ∃ tid id req held,
    Incomparable held req ∧ held ∈ (s.step c).granted (tid, id) ∧ (s.step c).mode tid id = some req ∧
      grantable ((s.step c).lockMgr.queue id) tid req = true := by
  obtain ⟨tid, id, req, held, hreq, hheld, hinc, hstate, hg⟩ := hd
  refine ⟨tid, id, req, held, hinc, ?_⟩
  have hstep : s.step c = s.locked tid id req (s.lockMgr.acquireLock (s.txns tid) id req) := by
    cases c <;> simp only [request, Option.some.injEq, Prod.mk.injEq, reduceCtorEq] at hreq <;>
      (obtain ⟨rfl, rfl, rfl⟩ := hreq; rfl)
  have hresult := s.lockMgr.acquireLock_result (s.txns tid) id req
  have htid := h.txnId tid
  have hrecorded := h.recorded tid id held hheld
  rw [hstep]
  generalize s.lockMgr.acquireLock (s.txns tid) id req = res at hresult
  cases hresult with
  | refused e owner hid hset why =>
    rcases why with why | why
    · exact absurd why hstate
    · rw [htid, hg] at why
      cases why
  | kept owner _ hid hset held' hheld' hst =>
    rw [htid] at hheld'
    have heq : held = held' := Option.some.inj (hheld.symm.trans hheld')
    rw [← heq, hinc.not_isStronger.1] at hst
    cases hst
  | upgraded owner _ hid hset held' hheld' hst hg' =>
    rw [htid] at hheld'
    refine ⟨?_, ?_, ?_⟩
    · simpa [LockTable.locked] using .inr hrecorded
    · simp [LockTable.locked, htid, mode, heldMode_upgraded hheld']
    · rw [grantable_iff] at hg ⊢
      simp only [LockTable.locked, htid, queue_setQueue, if_true]
      intro r hr hne
      rcases mem_upgrade hr with hr | ⟨r₀, -, hr₀, rfl⟩
      · exact hg r hr hne
      · exact absurd hr₀ hne
  | appended owner _ hid hset hnone hg' =>
    rw [htid] at hnone
    cases hheld.symm.trans hnone

/-- Some transaction has no request in a queue. -/
theorem exists_lt (q : List LockRequest) : ∃ t : Int, ∀ r ∈ q, r.txnId < t := by
  induction q with
  | nil => exact ⟨0, by simp⟩
  | cons a q ih =>
    obtain ⟨t, ht⟩ := ih
    refine ⟨max t (a.txnId + 1), fun r hr => ?_⟩
    rcases List.mem_cons.1 hr with rfl | hr
    · omega
    · have := ht r hr
      omega

/-- **A call that drops a mode leaves it uncovered and unprotected**: a new transaction is granted the mode asked for. -/
theorem Drops.broken (h : s.Inv) {c : LockCall} (hd : s.Drops c) : ¬(s.step c).Covers ∧ ¬(s.step c).Protects := by
  obtain ⟨tid, id, req, held, hinc, hmem, hmode, hg⟩ := hd.step h
  obtain ⟨-, hst, hcompat, hself⟩ := hinc.not_isStronger
  constructor
  · intro hc
    obtain ⟨held', hheld', hst'⟩ := hc tid id held hmem
    rw [hmode, Option.some.injEq] at hheld'
    rw [← hheld', hst] at hst'
    cases hst'
  · intro hp
    obtain ⟨t, ht⟩ := exists_lt ((s.step c).lockMgr.queue id)
    obtain ⟨r, hr, hmode'⟩ := Option.map_eq_some_iff.1 hmode
    obtain ⟨hin, htid⟩ := heldRequest_eq_some hr
    have hne : t ≠ tid := by
      have := ht r hin
      omega
    have hgrant : grantable ((s.step c).lockMgr.queue id) t req = true := by
      rw [grantable_iff] at hg ⊢
      intro r' hr' _
      by_cases ht' : r'.txnId = tid
      · have hsame : r' = r :=
          List.inj_on_of_nodup_map ((h.step c).wf id).nodup hr' hin (ht'.trans htid.symm)
        rw [hsame, hmode']
        exact hself
      · exact hg r' hr' ht'
    have hbad := hp tid id held hmem ⟨t, .default, []⟩ hne req ?_
    · rw [hcompat] at hbad
      cases hbad
    · have hresult := (s.step c).lockMgr.acquireLock_result ⟨t, .default, []⟩ id req
      generalize (s.step c).lockMgr.acquireLock ⟨t, .default, []⟩ id req = res at hresult
      cases hresult with
      | refused e owner hid hset why =>
        rcases why with why | why
        · cases why
        · rw [hgrant] at why
          cases why
      | _ => rfl

end protection

/-- No call of the run drops a mode. -/
def KeepsModes (calls : List LockCall) : Prop :=
  ∀ pre c post, calls = pre ++ c :: post → ¬(init.run pre).Drops c

theorem covers_run {calls : List LockCall} (h : KeepsModes calls) : (init.run calls).Covers := by
  induction calls using List.reverseRecOn with
  | nil =>
    intro tid id m hm
    cases hm
  | append_singleton calls c ih =>
    have hpre : KeepsModes calls := fun pre c' post he => h pre c' (post ++ [c]) (by simp [he])
    rw [run_append]
    exact (ih hpre).step (inv_run calls) (h calls c [] rfl)

/-- **Which runs never weaken protection**: in every state of a run each recorded mode covers all that was granted, and
so no other transaction is granted an incompatible mode, exactly if no call replaces one of the two incomparable modes
by the other. -/
theorem run_protects_iff (calls : List LockCall) :
    ((∀ n, (init.run (calls.take n)).Covers) ↔ KeepsModes calls) ∧
    ((∀ n, (init.run (calls.take n)).Protects) ↔ KeepsModes calls) := by
  have hcovers (hk : KeepsModes calls) (n : Nat) : (init.run (calls.take n)).Covers := by
    refine covers_run fun pre c post he => hk pre c (post ++ calls.drop n) ?_
    calc
      calls = calls.take n ++ calls.drop n := (List.take_append_drop n calls).symm
      _ = pre ++ c :: (post ++ calls.drop n) := by rw [he, List.append_assoc, List.cons_append]
  have hbroken (hk : ¬KeepsModes calls) :
      ∃ n, ¬(init.run (calls.take n)).Covers ∧ ¬(init.run (calls.take n)).Protects := by
    simp only [KeepsModes, not_forall, not_not] at hk
    obtain ⟨pre, c, post, he, hd⟩ := hk
    refine ⟨(pre ++ [c]).length, ?_⟩
    have htake : calls.take (pre ++ [c]).length = pre ++ [c] := by
      have hsplit : calls = (pre ++ [c]) ++ post := by rw [he, List.append_assoc, List.singleton_append]
      rw [hsplit, List.take_left]
    rw [htake, run_append]
    exact hd.broken (inv_run pre)
  constructor
  · refine ⟨fun hall => ?_, hcovers⟩
    by_contra hk
    obtain ⟨n, hn, -⟩ := hbroken hk
    exact hn (hall n)
  · refine ⟨fun hall => ?_, fun hk n => (hcovers hk n).protects (inv_run _)⟩
    by_contra hk
    obtain ⟨n, -, hn⟩ := hbroken hk
    exact hn (hall n)

/-- **A granted SHARED lock is dropped**: the transaction asks for INTENTION_EXCLUSIVE too, and another one gets the
same. -/
theorem not_protects_sharedThenIX : (¬∀ calls, (init.run calls).Covers) ∧ ¬∀ calls, (init.run calls).Protects := by
  constructor
  · intro h
    obtain ⟨held, hheld, hst⟩ := h [.lockSharedOnTable 1 3, .lockIXOnTable 1 3] 1 (.table 3) .shared (by decide)
    have hmode : (init.run [.lockSharedOnTable 1 3, .lockIXOnTable 1 3]).mode 1 (.table 3) =
        some .intentionExclusive := by decide
    rw [hmode, Option.some.injEq] at hheld
    rw [← hheld] at hst
    cases hst
  · intro h
    have hbad := h [.lockSharedOnTable 1 3, .lockIXOnTable 1 3] 1 (.table 3) .shared (by decide) ⟨2, .default, []⟩
      (by decide) .intentionExclusive rfl
    cases hbad

end LockTable

end Rmdb
