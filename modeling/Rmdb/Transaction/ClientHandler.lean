import Rmdb.Transaction.TwoPhase

/-!
# Client handlers

- `Handlers`: the threads of `client_handler` over the sessions of one server, with the `txn_mode_` of each transaction;
- `Handlers.step`: one atomic step of one thread. `SetTransaction`, the dispatch of a request, the `catch` blocks and
  the automatic commit at the end of the loop follow `rmdb.cpp`; statements, `commit` and `abort` are those of
  `Sessions`. Writes of `db.log` succeed;
- `Handlers.stepOk`: the steps behind which no transaction ends twice;
- `terminal_of_meets`: in every run of such steps COMMITTED and ABORTED are final, locks are taken before any is
  released, and each transaction has at most one COMMIT or ABORT record.
-/

namespace Rmdb

open Lib LockManager

/-- What a client asks for. `other` takes no lock and does not end a transaction: it is not parsed or not accepted by
the analyzer, or is one of the utility and definition statements. -/
inductive Request
  | begin | commit | rollback | abort
  | stmt (fuel : Nat) (stmt : Stmt)
  | other

/-- Where the thread of a client is in the loop of `client_handler`. -/
inductive ClientPc
  | waiting
  /-- Behind `SetTransaction`. -/
  | received (r : Request)
  | running
  /-- In the `commit` or `abort` of the client's statement. -/
  | committing
  | aborting
  /-- At the start of the handler of `TransactionAbortException`, and in its `abort`. -/
  | caught
  | handling
  /-- Behind the answer, before the automatic commit, and in it. -/
  | finishing
  | autoCommitting
  | closed

structure Client where
  txnId : Int
  pc : ClientPc

structure Handlers where
  server : Sessions
  /-- `txn_mode_`: the transaction was opened by a BEGIN statement. -/
  txnMode : Int → Bool
  clients : Int → Client
  /-- The process runs. -/
  alive : Bool

namespace Handlers

/-- No client has sent anything. -/
def init (lm : LogManager) (fhs : Fhs) (db : TabName → Option TabMeta) (fd : TabName → Int) : Handlers where
  server := Sessions.init lm fhs db fd
  txnMode := fun _ => false
  clients := fun _ => ⟨invalidTxnId, .waiting⟩
  alive := true

def setClient (h : Handlers) (c : Int) (cl : Client) : Handlers := { h with clients := Function.update h.clients c cl }

def txnId (h : Handlers) (c : Int) : Int := (h.clients c).txnId

/-- The thread goes on at another place. -/
def goto (h : Handlers) (c : Int) (pc : ClientPc) : Handlers := h.setClient c ⟨h.txnId c, pc⟩

/-- The client has no transaction, or its transaction is over. -/
def needsTxn (h : Handlers) (c : Int) : Bool :=
  match h.server.sessions (h.txnId c) with
  | none => true
  | some se => Sessions.ended se

/-- `SetTransaction`. -/
def setTransaction (h : Handlers) (c : Int) (pc : ClientPc) : Handlers :=
  if h.needsTxn c then
    { h with
      server := h.server.beginTxn
      txnMode := Function.update h.txnMode h.server.nextTxnId false }.setClient c ⟨h.server.nextTxnId, pc⟩
  else h.goto c pc

/-- A step of the session, after which the thread is at a place that depends on where the session is. -/
def drive (h : Handlers) (c : Int) (a : Sessions.Action) (next : Pc → ClientPc) : Option Handlers := do
  let server ← h.server.step a
  let se ← server.sessions (h.txnId c)
  return { h with server := server }.goto c (next se.pc)

/-- The next step of `abort`: in the body of its loop that of the program there. -/
def abortStep (h : Handlers) (c : Int) (answers : IxAnswers) : Option Sessions.Action := do
  let se ← h.server.sessions (h.txnId c)
  match se.pc with
  | .undoing _ => return .exec (h.txnId c) answers
  | _ => return .advance (h.txnId c)

/-- Behind a call that is done when its session is idle. -/
def whenIdle (done busy : ClientPc) : Pc → ClientPc
  | .idle => done
  | _ => busy

/-- The next step of a thread. -/
def work (h : Handlers) (c : Int) (answers : IxAnswers) : Option Handlers :=
  let tid := h.txnId c
  match (h.clients c).pc with
  | .received .begin => some ({ h with txnMode := Function.update h.txnMode tid true }.goto c .finishing)
  | .received .commit => h.drive c (.commit tid) fun _ => .committing
  | .received .rollback | .received .abort => h.drive c (.abort tid) fun _ => .aborting
  | .received (.stmt fuel stmt) => h.drive c (.start tid fuel stmt) fun _ => .running
  | .received .other => some (h.goto c .finishing)
  | .running =>
    h.drive c (.exec tid answers) fun
      | .idle => .finishing
      | .aborting => .caught
      | _ => .running
  | .committing => h.drive c (.advance tid) (whenIdle .finishing .committing)
  | .aborting => do h.drive c (← h.abortStep c answers) (whenIdle .finishing .aborting)
  | .caught => h.drive c (.abort tid) fun _ => .handling
  | .handling => do
    let h' ← h.drive c (← h.abortStep c answers) (whenIdle .finishing .handling)
    let se ← h'.server.sessions tid
    -- an error that leaves `abort` leaves the `catch` block as well
    return match se.pc with
    | .idle => { h' with alive := Sessions.ended se }
    | _ => h'
  | .finishing =>
    if h.txnMode tid then some (h.goto c .waiting) else h.drive c (.commit tid) fun _ => .autoCommitting
  | .autoCommitting => h.drive c (.advance tid) (whenIdle .waiting .autoCommitting)
  | .waiting | .closed => none

inductive Action
  /-- `read` returns a request. -/
  | request (c : Int) (r : Request)
  | work (c : Int) (answers : IxAnswers)
  /-- `read` or `write` finds that the client has gone. -/
  | disconnect (c : Int)
  /-- The buffer pool flushes the log before it writes a page. -/
  | flushLog

def step (h : Handlers) (a : Action) : Option Handlers :=
  if h.alive then
    match a with
    | .request c r =>
      match (h.clients c).pc with
      | .waiting => some (h.setTransaction c (.received r))
      | _ => none
    | .work c answers => h.work c answers
    | .disconnect c =>
      match (h.clients c).pc with
      | .waiting | .finishing => some (h.goto c .closed)
      | _ => none
    | .flushLog => some { h with server := h.server.flush }
  else none

def run (h : Handlers) : List Action → Option Handlers
  | [] => some h
  | a :: as => (h.step a).bind (·.run as)

/-! ## Which steps end a transaction once -/

/-- A lock was refused. -/
def refused : Pc → Bool
  | .stmt (.throw (.abort _)) => true
  | _ => false

/-- A write could not be rolled back. -/
def undoFailed : Pc → Bool
  | .undoing (.throw _) => true
  | _ => false

/-- The place of the client's session satisfies `p`. -/
def sessionAt (h : Handlers) (c : Int) (p : Pc → Bool) : Bool :=
  (h.server.sessions (h.txnId c)).any fun se => p se.pc

/-- The step is not one of these: a COMMIT, ROLLBACK or ABORT statement outside of a block that BEGIN opened, a refused
lock outside of such a block, and an error in the rollback of a ROLLBACK or ABORT statement. -/
def stepOk (h : Handlers) : Action → Bool
  | .work c _ =>
    match (h.clients c).pc with
    | .received .commit | .received .rollback | .received .abort => h.txnMode (h.txnId c)
    | .running => !h.sessionAt c refused || h.txnMode (h.txnId c)
    | .aborting => !h.sessionAt c undoFailed
    | _ => true
  | _ => true

/-- Every step of the run is of that kind. -/
def Meets : Handlers → List Action → Prop
  | _, [] => True
  | h, a :: as => h.stepOk a = true ∧ ∀ h' ∈ h.step a, Meets h' as

instance decidableMeets : (h : Handlers) → (as : List Action) → Decidable (h.Meets as)
  | _, [] => isTrue trivial
  | h, a :: as =>
    have := fun h' => decidableMeets h' as
    inferInstanceAs (Decidable (h.stepOk a = true ∧ ∀ h' ∈ h.step a, Meets h' as))

/-! ## The invariant -/

/-- In `commit`, behind its record, and in `abort`. -/
def Committing (pc : Pc) : Prop := pc = .commitLogged ∨ ∃ locks, pc = .unlocking locks .committed

def Aborting (pc : Pc) : Prop :=
  pc = .abortLogged ∨ pc = .rollback ∨ (∃ p, pc = .undoing p) ∨ ∃ locks, pc = .unlocking locks .aborted

/-- The session of a thread, where the thread is: its place, whether the transaction is over, and how many COMMIT and
ABORT records it has. -/
def Fits (mode : Bool) (se : Session) (n : Nat) : ClientPc → Prop
  | .waiting => se.pc = .idle ∧ (Sessions.ended se = false ∧ n = 0 ∨ Sessions.ended se = true)
  | .received _ => se.pc = .idle ∧ Sessions.ended se = false ∧ n = 0
  | .running => (∃ p, se.pc = .stmt p) ∧ Sessions.ended se = false ∧ n = 0
  | .caught => se.pc = .aborting ∧ Sessions.ended se = false ∧ n = 0 ∧ mode = true
  | .committing => Committing se.pc ∧ Sessions.ended se = false ∧ mode = true
  | .autoCommitting => Committing se.pc ∧ Sessions.ended se = false
  | .aborting | .handling => Aborting se.pc ∧ Sessions.ended se = false ∧ mode = true
  | .finishing => se.pc = .idle ∧ (Sessions.ended se = false ∧ n = 0 ∨ Sessions.ended se = true ∧ mode = true)
  | .closed => True

/-- A thread without a transaction has not received anything; otherwise its session fits it. -/
def Thread (h : Handlers) (c : Int) : Prop :=
  h.txnId c = invalidTxnId ∧ ((h.clients c).pc = .waiting ∨ (h.clients c).pc = .closed) ∨
    ∃ se, h.server.sessions (h.txnId c) = some se ∧
      Fits (h.txnMode (h.txnId c)) se (h.server.endRecords (h.txnId c)) (h.clients c).pc

structure Inv (h : Handlers) : Prop where
  server : h.server.Inv
  next : 0 ≤ h.server.nextTxnId
  invalid : h.server.sessions invalidTxnId = none
  records : ∀ tid, h.server.endRecords tid ≤ 1
  fresh : ∀ tid, h.server.nextTxnId ≤ tid → h.server.endRecords tid = 0
  /-- Two threads are never in one transaction. -/
  distinct : ∀ c c', c ≠ c' → h.txnId c = h.txnId c' → h.txnId c = invalidTxnId
  thread : h.alive = true → ∀ c, h.Thread c

theorem inv_init (lm : LogManager) (fhs : Fhs) (db : TabName → Option TabMeta) (fd : TabName → Int) :
    (init lm fhs db fd).Inv where
  server := Sessions.inv_init lm fhs db fd
  next := Int.le_refl 0
  invalid := rfl
  records tid := by simp [init, Sessions.init, Sessions.endRecords, Sessions.own]
  fresh tid _ := by simp [init, Sessions.init, Sessions.endRecords, Sessions.own]
  distinct _ _ _ _ := rfl
  thread _ _ := .inl ⟨rfl, .inl rfl⟩

section step
variable {h h' : Handlers} {c : Int}

theorem Thread.session (hc : h.Thread c) {pc : ClientPc} (hpc : (h.clients c).pc = pc) (hne : pc ≠ .waiting)
    (hne' : pc ≠ .closed) : ∃ se, h.server.sessions (h.txnId c) = some se ∧
      Fits (h.txnMode (h.txnId c)) se (h.server.endRecords (h.txnId c)) pc := by
  rcases hc with ⟨-, hp | hp⟩ | hc
  · exact absurd (hpc.symm.trans hp) hne
  · exact absurd (hpc.symm.trans hp) hne'
  · rwa [hpc] at hc

theorem drive_eq {a : Sessions.Action} {next : Pc → ClientPc} (hd : h.drive c a next = some h') :
    ∃ server se, h.server.step a = some server ∧ server.sessions (h.txnId c) = some se ∧
      h' = { h with server := server }.goto c (next se.pc) := by
  simp only [drive, Option.bind_eq_bind, Option.bind_eq_some_iff, Option.pure_def, Option.some.injEq] at hd
  obtain ⟨server, hserver, se, hse, he⟩ := hd
  exact ⟨server, se, hserver, hse, he.symm⟩

@[simp] theorem goto_txnId (pc : ClientPc) (c' : Int) : (h.goto c pc).txnId c' = h.txnId c' := by
  by_cases hc : c' = c <;> simp [goto, setClient, txnId, hc]

theorem goto_pc (pc : ClientPc) (c' : Int) :
    ((h.goto c pc).clients c').pc = if c' = c then pc else (h.clients c').pc := by
  by_cases hc : c' = c <;> simp [goto, setClient, hc]

/-- A thread goes on, and with it perhaps the session of its transaction. -/
theorem Inv.moved (hi : h.Inv) (halive : h.alive = true) {server : Sessions} {txnMode : Int → Bool} {alive : Bool}
    {se se' : Session} {rs : List LogRecord} {pc : ClientPc} (hinv : server.Inv)
    (hm : Sessions.Moved h.server server (h.txnId c) se se' rs)
    (hmode : ∀ t, t ≠ h.txnId c → txnMode t = h.txnMode t) (hn : server.endRecords (h.txnId c) ≤ 1)
    (hfit : alive = true → Fits (txnMode (h.txnId c)) se' (server.endRecords (h.txnId c)) pc) :
    Inv ({ h with server := server, txnMode := txnMode, alive := alive }.goto c pc) := by
  have hold := hm.pre
  have hlt : h.txnId c < h.server.nextTxnId := by
    by_contra hge
    rw [(hi.server.fresh _ (by omega)).1] at hold
    cases hold
  have hvalid : h.txnId c ≠ invalidTxnId := by
    intro heq
    rw [heq, hi.invalid] at hold
    cases hold
  refine ⟨hinv, hm.next ▸ hi.next, ?_, fun t => ?_, fun t ht => ?_, fun c₁ c₂ hne heq => ?_, fun ha c' => ?_⟩
  · exact (hm.others _ hvalid.symm).trans hi.invalid
  · by_cases ht : t = h.txnId c
    · rw [ht]
      exact hn
    · exact (hm.endRecords_of_ne hi.server.base ht) ▸ hi.records t
  · have ht' : h.server.nextTxnId ≤ t := hm.next ▸ ht
    exact (hm.endRecords_of_ne hi.server.base (by omega)).trans (hi.fresh t ht')
  · rw [goto_txnId] at heq ⊢
    rw [goto_txnId] at heq
    exact hi.distinct c₁ c₂ hne heq
  · by_cases hc : c' = c
    · subst hc
      right
      refine ⟨se', ?_, ?_⟩
      · rw [goto_txnId]
        exact hm.post
      · rw [goto_txnId, goto_pc, if_pos rfl]
        exact hfit ha
    · unfold Thread
      rw [goto_txnId, goto_pc, if_neg hc]
      rcases hi.thread halive c' with hnone | ⟨se₁, hse₁, hfit₁⟩
      · exact .inl hnone
      · have hne : h.txnId c' ≠ h.txnId c := fun heq => hvalid (hi.distinct c c' (fun h => hc h.symm) heq.symm)
        refine .inr ⟨se₁, (hm.others _ hne).trans hse₁, ?_⟩
        change Fits (txnMode (h.txnId c')) se₁ (server.endRecords (h.txnId c')) _
        rw [hmode _ hne, hm.endRecords_of_ne hi.server.base hne]
        exact hfit₁

/-- A thread goes on while its session stays. -/
theorem Inv.stays (hi : h.Inv) (halive : h.alive = true) {txnMode : Int → Bool} {pc : ClientPc}
    (hmode : ∀ t, t ≠ h.txnId c → txnMode t = h.txnMode t) (hvalid : h.txnId c ≠ invalidTxnId ∨ pc = .closed)
    (hfit : ∀ se, h.server.sessions (h.txnId c) = some se →
      Fits (txnMode (h.txnId c)) se (h.server.endRecords (h.txnId c)) pc) :
    Inv ({ h with txnMode := txnMode }.goto c pc) := by
  refine ⟨hi.server, hi.next, hi.invalid, hi.records, hi.fresh, fun c₁ c₂ hne heq => ?_, fun _ c' => ?_⟩
  · rw [goto_txnId] at heq ⊢
    rw [goto_txnId] at heq
    exact hi.distinct c₁ c₂ hne heq
  · unfold Thread
    rw [goto_txnId, goto_pc]
    by_cases hc : c' = c
    · subst hc
      rw [if_pos rfl]
      rcases hi.thread halive c' with ⟨hnone, -⟩ | ⟨se, hse, -⟩
      · exact .inl ⟨hnone, .inr (hvalid.resolve_left fun hne => hne hnone)⟩
      · exact .inr ⟨se, hse, hfit se hse⟩
    · rw [if_neg hc]
      rcases hi.thread halive c' with hnone | ⟨se₁, hse₁, hfit₁⟩
      · exact .inl hnone
      · have hne : h.txnId c' ≠ h.txnId c := by
          intro heq
          have hinv := hi.distinct c' c hc heq
          rw [hinv, hi.invalid] at hse₁
          cases hse₁
        refine .inr ⟨se₁, hse₁, ?_⟩
        change Fits (txnMode (h.txnId c')) se₁ _ _
        rw [hmode _ hne]
        exact hfit₁

/-- **`SetTransaction`** leaves the thread in a transaction that is not over. -/
theorem Inv.setTransaction (hi : h.Inv) (halive : h.alive = true) (hpc : (h.clients c).pc = .waiting) (r : Request) :
    (h.setTransaction c (.received r)).Inv := by
  unfold Handlers.setTransaction
  split
  · next hneeds =>
    obtain ⟨tid, htid⟩ : ∃ tid, tid = h.server.nextTxnId := ⟨_, rfl⟩
    have hnext := hi.next
    have hne : tid ≠ invalidTxnId := by
      unfold invalidTxnId
      omega
    have hend := Sessions.endRecords_beginTxn hi.server.base
    have hnone : h.server.sessions tid = none := (hi.server.fresh tid (by omega)).1
    -- no thread is in the new transaction
    have hother : ∀ c', h.txnId c' ≠ tid := by
      intro c' heq
      rcases hi.thread halive c' with ⟨hinv, -⟩ | ⟨se, hse, -⟩
      · exact hne (heq.symm.trans hinv)
      · rw [heq, hnone] at hse
        cases hse
    simp only [← htid]
    refine ⟨hi.server.begin, ?_, ?_, fun t => (hend t) ▸ hi.records t, fun t ht => ?_, ?_, fun _ c' => ?_⟩
    · change 0 ≤ h.server.nextTxnId + 1
      omega
    · change h.server.beginTxn.sessions _ = none
      rw [Sessions.sessions_beginTxn, if_neg (htid ▸ hne.symm)]
      exact hi.invalid
    · change h.server.nextTxnId + 1 ≤ t at ht
      exact (hend t).trans (hi.fresh t (by omega))
    · intro c₁ c₂ h₁₂ heq
      by_cases h₁ : c₁ = c <;> by_cases h₂ : c₂ = c <;> simp [setClient, txnId, h₁, h₂] at heq ⊢
      · exact absurd (h₁.trans h₂.symm) h₁₂
      · exact absurd heq.symm (hother c₂)
      · exact absurd heq (hother c₁)
      · exact hi.distinct c₁ c₂ h₁₂ heq
    · unfold Thread
      by_cases hc : c' = c
      · subst hc
        refine .inr ⟨⟨⟨tid, .default, []⟩, h.server.logMgr.globalLsn, [], .idle, false⟩, ?_, ?_⟩
        · simp [setClient, txnId, Sessions.sessions_beginTxn, htid]
        · have hzero := (hend tid).trans (hi.fresh tid (by omega))
          simp [setClient, txnId, Fits, Sessions.ended, hzero]
      · rcases hi.thread halive c' with hinv | ⟨se, hse, hfit⟩
        · exact .inl (by simpa [setClient, txnId, hc] using hinv)
        · have hother' : (h.clients c').txnId ≠ tid := hother c'
          refine .inr ⟨se, ?_, ?_⟩
          · simpa [setClient, txnId, hc, Sessions.sessions_beginTxn, ← htid, hother'] using hse
          · simpa [setClient, txnId, hc, hend, hother'] using hfit
  · next hneeds =>
    have hne : h.txnId c ≠ invalidTxnId := by
      intro heq
      simp [needsTxn, heq, hi.invalid] at hneeds
    have hfit : ∀ se, h.server.sessions (h.txnId c) = some se →
        Fits (h.txnMode (h.txnId c)) se (h.server.endRecords (h.txnId c)) (.received r) := ?_
    · exact hi.stays halive (fun _ _ => rfl) (.inl hne) hfit
    intro se hse
    simp only [needsTxn, hse, Bool.not_eq_true] at hneeds
    rcases hi.thread halive c with ⟨hnone, -⟩ | ⟨se₁, hse₁, hfit⟩
    · exact absurd hnone hne
    · rw [hse] at hse₁
      cases hse₁
      rw [hpc] at hfit
      refine ⟨hfit.1, hneeds, ?_⟩
      rcases hfit.2 with hopen | hended
      · exact hopen.2
      · rw [hneeds] at hended
        cases hended

/-- What is over stays as it is. -/
def Final (h h' : Handlers) : Prop :=
  ∀ t se, h.server.sessions t = some se → Sessions.ended se = true →
    ∃ se', h'.server.sessions t = some se' ∧ se'.owner.state = se.owner.state

theorem Final.refl (h : Handlers) : Final h h := fun _ se hse _ => ⟨se, hse, rfl⟩

/-- A session that is not over moves. -/
theorem Final.moved {server : Sessions} {tid : Int} {se se' : Session} {rs : List LogRecord}
    (hm : Sessions.Moved h.server server tid se se' rs) (hopen : Sessions.ended se = false)
    (hserver : h'.server = server) : Final h h' := by
  intro t se₁ hse₁ hended
  rw [hserver]
  by_cases ht : t = tid
  · subst ht
    rw [hm.pre, Option.some.injEq] at hse₁
    rw [← hse₁, hopen] at hended
    cases hended
  · exact ⟨se₁, (hm.others t ht).trans hse₁, rfl⟩

theorem Inv.final_setTransaction (hi : h.Inv) {pc : ClientPc} : Final h (h.setTransaction c pc) := by
  intro t se hse _
  unfold Handlers.setTransaction
  split
  · have hne : t ≠ h.server.nextTxnId := by
      rintro rfl
      rw [(hi.server.fresh _ (Int.le_refl _)).1] at hse
      cases hse
    refine ⟨se, ?_, rfl⟩
    change h.server.beginTxn.sessions t = some se
    rw [Sessions.sessions_beginTxn, if_neg hne]
    exact hse
  · exact ⟨se, hse, rfl⟩

/-- A step of the session with its record, for a thread whose transaction is not over. -/
theorem Inv.drive (hi : h.Inv) (halive : h.alive = true) {a : Sessions.Action} {next : Pc → ClientPc}
    (hd : h.drive c a next = some h')
    (hspec : ∀ server, h.server.step a = some server → ∃ se se' rs,
      Sessions.Moved h.server server (h.txnId c) se se' rs ∧ Sessions.ended se = false ∧
      server.endRecords (h.txnId c) ≤ 1 ∧
      Fits (h.txnMode (h.txnId c)) se' (server.endRecords (h.txnId c)) (next se'.pc)) : h'.Inv ∧ Final h h' := by
  obtain ⟨server, se', hstep, hse', rfl⟩ := drive_eq hd
  obtain ⟨se, se₁, rs, hm, hopen, hn, hfit⟩ := hspec server hstep
  have heq : se₁ = se' := Option.some.inj (hm.post.symm.trans hse')
  subst heq
  have hmoved : Inv ({ h with server := server, txnMode := h.txnMode, alive := h.alive }.goto c (next se₁.pc)) :=
    hi.moved halive (hi.server.step hstep) hm (fun _ _ => rfl) hn fun _ => hfit
  exact ⟨hmoved, .moved hm hopen rfl⟩

/-! ## The steps of a thread -/

section pcs
variable {server server' : Sessions} {tid : Int} {done busy : ClientPc} {pc : Pc}

theorem whenIdle_of_committing (hp : Committing pc) : whenIdle done busy pc = busy := by
  rcases hp with rfl | ⟨locks, rfl⟩ <;> rfl

theorem whenIdle_of_aborting (hp : Aborting pc) : whenIdle done busy pc = busy := by
  rcases hp with rfl | rfl | ⟨p, rfl⟩ | ⟨locks, rfl⟩ <;> rfl

theorem ended_of_final {se : Session} {final : TransactionState} (h : se.owner.state = final)
    (hf : final = .committed ∨ final = .aborted) : Sessions.ended se = true := by
  unfold Sessions.ended
  rcases hf with rfl | rfl <;> rw [h] <;> rfl

/-- A step of `commit` behind its record: it goes on, or the transaction is committed. -/
theorem committing_step (hstep : server.step (.advance tid) = some server') {se : Session}
    (hse : server.sessions tid = some se) (hp : Committing se.pc) (hopen : Sessions.ended se = false) :
    ∃ se', Sessions.Moved server server' tid se se' [] ∧
      (Committing se'.pc ∧ Sessions.ended se' = false ∨ se'.pc = .idle ∧ Sessions.ended se' = true) := by
  obtain ⟨se₀, se', hm, hpc, hfinal, hsame⟩ := Sessions.advance_moved hstep
  have heq : se = se₀ := Option.some.inj (hse.symm.trans hm.pre)
  subst heq
  refine ⟨se', hm, ?_⟩
  unfold Committing at hp ⊢
  generalize he : se.pc = pc at hpc hp hfinal hsame
  generalize he' : se'.pc = pc' at hpc
  cases hpc with
  | commit locks => exact .inl ⟨.inr ⟨locks, rfl⟩, (hsame (by simp)).trans hopen⟩
  | abort | undo | rolledBack => simp at hp
  | unlock id locks final =>
    have hcommitted : final = .committed := by simpa using hp
    exact .inl ⟨.inr ⟨locks, by rw [hcommitted]⟩, (hsame (by simp)).trans hopen⟩
  | finished final =>
    have hcommitted : final = .committed := by simpa using hp
    exact .inr ⟨rfl, ended_of_final (hfinal final rfl) (.inl hcommitted)⟩

/-- A step of `abort` behind its record: it goes on, the transaction is rolled back, or the rollback has failed. -/
theorem aborting_step (hi : h.Inv) {answers : IxAnswers} {a : Sessions.Action} (ha : h.abortStep c answers = some a)
    {se : Session} (hse : h.server.sessions (h.txnId c) = some se) (hstep : h.server.step a = some server')
    (hp : Aborting se.pc) (hopen : Sessions.ended se = false) :
    ∃ se' rs, Sessions.Moved h.server server' (h.txnId c) se se' rs ∧ (∀ r ∈ rs, ¬r.body.ends) ∧
      (Aborting se'.pc ∧ Sessions.ended se' = false ∨ se'.pc = .idle ∧ Sessions.ended se' = true ∨
        se'.pc = .idle ∧ Sessions.ended se' = false ∧ undoFailed se.pc = true) := by
  simp only [abortStep, hse, Option.bind_eq_bind, Option.bind_some, Option.pure_def] at ha
  split at ha
  · next p hpc =>
    cases ha
    obtain ⟨se₀, se', rs, hm, hends, hended, hexec⟩ := Sessions.exec_moved hi.server hstep
    have heq : se = se₀ := Option.some.inj (hse.symm.trans hm.pre)
    subst heq
    refine ⟨se', rs, hm, hends, ?_⟩
    rw [hended, hopen]
    unfold Aborting
    rw [hpc] at hexec ⊢
    generalize se'.pc = pc' at hexec
    cases hexec with
    | undo c k p => exact .inl ⟨.inr (.inr (.inl ⟨p, rfl⟩)), rfl⟩
    | undone a => exact .inl ⟨.inr (.inl rfl), rfl⟩
    | undoFailed e => exact .inr (.inr ⟨rfl, rfl, rfl⟩)
  · next hnot =>
    cases ha
    obtain ⟨se₀, se', hm, hpc, hfinal, hsame⟩ := Sessions.advance_moved hstep
    have heq : se = se₀ := Option.some.inj (hse.symm.trans hm.pre)
    subst heq
    refine ⟨se', [], hm, by simp, ?_⟩
    unfold Aborting at hp ⊢
    generalize he : se.pc = pc at hpc hp hfinal hsame
    generalize he' : se'.pc = pc' at hpc
    cases hpc with
    | commit locks => simp at hp
    | abort => exact .inl ⟨.inr (.inl rfl), (hsame (by simp)).trans hopen⟩
    | undo p => exact .inl ⟨.inr (.inr (.inl ⟨p, rfl⟩)), (hsame (by simp)).trans hopen⟩
    | rolledBack locks => exact .inl ⟨.inr (.inr (.inr ⟨locks, rfl⟩)), (hsame (by simp)).trans hopen⟩
    | unlock id locks final =>
      have haborted : final = .aborted := by simpa using hp
      exact .inl ⟨.inr (.inr (.inr ⟨locks, by rw [haborted]⟩)), (hsame (by simp)).trans hopen⟩
    | finished final =>
      have haborted : final = .aborted := by simpa using hp
      exact .inr (.inl ⟨rfl, ended_of_final (hfinal final rfl) (.inr haborted)⟩)

end pcs

/-- `commit` starts in a transaction without such a record. -/
theorem Inv.commit (hi : h.Inv) (halive : h.alive = true) {se : Session}
    (hse : h.server.sessions (h.txnId c) = some se) (hopen : Sessions.ended se = false)
    (hn : h.server.endRecords (h.txnId c) = 0) {pc : ClientPc}
    (hd : h.drive c (.commit (h.txnId c)) (fun _ => pc) = some h')
    (hfit : ∀ se' n, Committing se'.pc → Sessions.ended se' = false → Fits (h.txnMode (h.txnId c)) se' n pc) :
    h'.Inv ∧ Final h h' := by
  refine hi.drive halive hd fun server hstep => ?_
  obtain ⟨se₀, -, hm⟩ := Sessions.commit_moved hstep
  have heq : se = se₀ := Option.some.inj (hse.symm.trans hm.pre)
  subst heq
  have hone := hm.endRecords_of_ends hi.server.base trivial
  exact ⟨se, _, _, hm, hopen, by omega, hfit _ _ (.inl rfl) hopen⟩

/-- `abort` starts in a transaction without such a record. -/
theorem Inv.abort (hi : h.Inv) (halive : h.alive = true) {se : Session}
    (hse : h.server.sessions (h.txnId c) = some se) (hopen : Sessions.ended se = false)
    (hn : h.server.endRecords (h.txnId c) = 0) {pc : ClientPc}
    (hd : h.drive c (.abort (h.txnId c)) (fun _ => pc) = some h')
    (hfit : ∀ se' n, Aborting se'.pc → Sessions.ended se' = false → Fits (h.txnMode (h.txnId c)) se' n pc) :
    h'.Inv ∧ Final h h' := by
  refine hi.drive halive hd fun server hstep => ?_
  obtain ⟨se₀, -, hm⟩ := Sessions.abort_moved hstep
  have heq : se = se₀ := Option.some.inj (hse.symm.trans hm.pre)
  subst heq
  have hone := hm.endRecords_of_ends hi.server.base trivial
  exact ⟨se, _, _, hm, hopen, by omega, hfit _ _ (.inl rfl) hopen⟩

/-- The session of a thread that does something. -/
theorem Inv.session (hi : h.Inv) (halive : h.alive = true) {pc : ClientPc} (hpc : (h.clients c).pc = pc)
    (hne : pc ≠ .waiting) (hne' : pc ≠ .closed) : ∃ se, h.server.sessions (h.txnId c) = some se ∧
      Fits (h.txnMode (h.txnId c)) se (h.server.endRecords (h.txnId c)) pc ∧ h.txnId c ≠ invalidTxnId := by
  obtain ⟨se, hse, hfit⟩ := (hi.thread halive c).session hpc hne hne'
  refine ⟨se, hse, hfit, fun heq => ?_⟩
  rw [heq, hi.invalid] at hse
  cases hse

/-- The dispatch of a request. -/
theorem Inv.received (hi : h.Inv) (halive : h.alive = true) {r : Request} (hpc : (h.clients c).pc = .received r)
    {answers : IxAnswers} (hok : h.stepOk (.work c answers) = true) (hw : h.work c answers = some h') :
    h'.Inv ∧ Final h h' := by
  obtain ⟨se, hse, ⟨hidle, hopen, hn⟩, hvalid⟩ := hi.session halive hpc (by simp) (by simp)
  simp only [stepOk, hpc] at hok
  simp only [work, hpc] at hw
  have hfinishing (mode : Bool) : ∀ se', h.server.sessions (h.txnId c) = some se' →
      Fits mode se' (h.server.endRecords (h.txnId c)) .finishing := by
    intro se' hse'
    rw [hse, Option.some.injEq] at hse'
    exact hse' ▸ ⟨hidle, .inl ⟨hopen, hn⟩⟩
  cases r with
  | «begin» =>
    cases hw
    refine ⟨hi.stays halive (fun t ht => Function.update_of_ne ht _ _) (.inl hvalid) ?_, .refl h⟩
    exact hfinishing _
  | other =>
    cases hw
    have hstays : Inv ({ h with txnMode := h.txnMode }.goto c .finishing) :=
      hi.stays halive (fun _ _ => rfl) (.inl hvalid) (hfinishing _)
    exact ⟨hstays, .refl h⟩
  | commit => exact hi.commit halive hse hopen hn hw fun _ _ hp he => ⟨hp, he, hok⟩
  | rollback | abort => exact hi.abort halive hse hopen hn hw fun _ _ hp he => ⟨hp, he, hok⟩
  | stmt fuel stmt =>
    refine hi.drive halive hw fun server hstep => ?_
    obtain ⟨se₀, -, -, hm⟩ := Sessions.start_moved hstep
    have heq : se = se₀ := Option.some.inj (hse.symm.trans hm.pre)
    subst heq
    have hsame := hm.endRecords_of_not_ends hi.server.base (by simp)
    exact ⟨se, _, _, hm, hopen, by omega, ⟨_, rfl⟩, hopen, by omega⟩

/-- A step of a statement. -/
theorem Inv.running (hi : h.Inv) (halive : h.alive = true) (hpc : (h.clients c).pc = .running) {answers : IxAnswers}
    (hok : h.stepOk (.work c answers) = true) (hw : h.work c answers = some h') : h'.Inv ∧ Final h h' := by
  obtain ⟨se, hse, ⟨⟨p, hp⟩, hopen, hn⟩, hvalid⟩ := hi.session halive hpc (by simp) (by simp)
  simp only [stepOk, hpc, sessionAt, hse, Option.any_some] at hok
  simp only [work, hpc] at hw
  refine hi.drive halive hw fun server hstep => ?_
  obtain ⟨se₀, se', rs, hm, hends, hended, hexec⟩ := Sessions.exec_moved hi.server hstep
  have heq : se = se₀ := Option.some.inj (hse.symm.trans hm.pre)
  subst heq
  have hsame := hm.endRecords_of_not_ends hi.server.base hends
  have hopen' := hended.trans hopen
  refine ⟨se, se', rs, hm, hopen, by omega, ?_⟩
  rw [hp] at hexec hok
  generalize he : se'.pc = pc at hexec
  cases hexec with
  | call c k q => exact ⟨⟨q, he⟩, hopen', by omega⟩
  | done a => exact ⟨he, .inl ⟨hopen', by omega⟩⟩
  | failed e => exact ⟨he, .inl ⟨hopen', by omega⟩⟩
  | refused e => exact ⟨he, hopen', by omega, by simpa [refused] using hok⟩

/-- A step of `commit`. -/
theorem Inv.committing (hi : h.Inv) (halive : h.alive = true) {se : Session}
    (hse : h.server.sessions (h.txnId c) = some se) (hp : Committing se.pc) (hopen : Sessions.ended se = false)
    {done busy : ClientPc} (hd : h.drive c (.advance (h.txnId c)) (whenIdle done busy) = some h')
    (hbusy : ∀ se' n, Committing se'.pc → Sessions.ended se' = false → Fits (h.txnMode (h.txnId c)) se' n busy)
    (hdone : ∀ se' n, se'.pc = .idle → Sessions.ended se' = true → Fits (h.txnMode (h.txnId c)) se' n done) :
    h'.Inv ∧ Final h h' := by
  refine hi.drive halive hd fun server hstep => ?_
  obtain ⟨se', hm, hcase⟩ := committing_step hstep hse hp hopen
  have hsame := hm.endRecords_of_not_ends hi.server.base (by simp)
  have hle := hi.records (h.txnId c)
  refine ⟨se, se', _, hm, hopen, by omega, ?_⟩
  rcases hcase with ⟨hp', hopen'⟩ | ⟨hidle, hended⟩
  · rw [whenIdle_of_committing hp']
    exact hbusy se' _ hp' hopen'
  · rw [hidle]
    exact hdone se' _ hidle hended

/-- A step of a thread. -/
theorem Inv.work (hi : h.Inv) (halive : h.alive = true) {answers : IxAnswers}
    (hok : h.stepOk (.work c answers) = true) (hw : h.work c answers = some h') : h'.Inv ∧ Final h h' := by
  cases hpc : (h.clients c).pc with
  | waiting | closed => simp [Handlers.work, hpc] at hw
  | received r => exact hi.received halive hpc hok hw
  | running => exact hi.running halive hpc hok hw
  | caught =>
    obtain ⟨se, hse, ⟨-, hopen, hn, hmode⟩, -⟩ := hi.session halive hpc (by simp) (by simp)
    simp only [Handlers.work, hpc] at hw
    exact hi.abort halive hse hopen hn hw fun _ _ hp he => ⟨hp, he, hmode⟩
  | committing =>
    obtain ⟨se, hse, ⟨hp, hopen, hmode⟩, -⟩ := hi.session halive hpc (by simp) (by simp)
    simp only [Handlers.work, hpc] at hw
    exact hi.committing halive hse hp hopen hw (fun _ _ hp he => ⟨hp, he, hmode⟩)
      fun _ _ hidle he => ⟨hidle, .inr ⟨he, hmode⟩⟩
  | autoCommitting =>
    obtain ⟨se, hse, ⟨hp, hopen⟩, -⟩ := hi.session halive hpc (by simp) (by simp)
    simp only [Handlers.work, hpc] at hw
    exact hi.committing halive hse hp hopen hw (fun _ _ hp he => ⟨hp, he⟩) fun _ _ hidle he => ⟨hidle, .inr he⟩
  | finishing =>
    obtain ⟨se, hse, ⟨hidle, hcase⟩, hvalid⟩ := hi.session halive hpc (by simp) (by simp)
    simp only [Handlers.work, hpc] at hw
    split at hw
    · cases hw
      have hstays : Inv ({ h with txnMode := h.txnMode }.goto c .waiting) := by
        refine hi.stays halive (fun _ _ => rfl) (.inl hvalid) fun se' hse' => ?_
        rw [hse, Option.some.injEq] at hse'
        exact hse' ▸ ⟨hidle, hcase.imp_right fun he => he.1⟩
      exact ⟨hstays, .refl h⟩
    · next hmode =>
      have hopen := hcase.resolve_right fun he => hmode he.2
      exact hi.commit halive hse hopen.1 hopen.2 hw fun _ _ hp he => ⟨hp, he⟩
  | aborting =>
    obtain ⟨se, hse, ⟨hp, hopen, hmode⟩, -⟩ := hi.session halive hpc (by simp) (by simp)
    simp only [stepOk, hpc, sessionAt, hse, Option.any_some, Bool.not_eq_true'] at hok
    simp only [Handlers.work, hpc, Option.bind_eq_bind, Option.bind_eq_some_iff] at hw
    obtain ⟨a, ha, hd⟩ := hw
    refine hi.drive halive hd fun server hstep => ?_
    obtain ⟨se', rs, hm, hends, hcase⟩ := aborting_step hi ha hse hstep hp hopen
    have hsame := hm.endRecords_of_not_ends hi.server.base hends
    have hle := hi.records (h.txnId c)
    refine ⟨se, se', rs, hm, hopen, by omega, ?_⟩
    rcases hcase with ⟨hp', hopen'⟩ | ⟨hidle, hended⟩ | ⟨-, -, hfailed⟩
    · rw [whenIdle_of_aborting hp']
      exact ⟨hp', hopen', hmode⟩
    · rw [hidle]
      exact ⟨hidle, .inr ⟨hended, hmode⟩⟩
    · rw [hok] at hfailed
      cases hfailed
  | handling =>
    obtain ⟨se, hse, ⟨hp, hopen, hmode⟩, -⟩ := hi.session halive hpc (by simp) (by simp)
    simp only [Handlers.work, hpc, Option.bind_eq_bind, Option.bind_eq_some_iff] at hw
    obtain ⟨a, ha, h₁, hd, se', hse', he⟩ := hw
    obtain ⟨server, se₁, hstep, hse₁, rfl⟩ := drive_eq hd
    obtain ⟨se₂, rs, hm, hends, hcase⟩ := aborting_step hi ha hse hstep hp hopen
    have heq : se₂ = se₁ := Option.some.inj (hm.post.symm.trans hse₁)
    have heq' : se₁ = se' := Option.some.inj (hse₁.symm.trans hse')
    subst heq heq'
    have hsame := hm.endRecords_of_not_ends hi.server.base hends
    have hle := hi.records (h.txnId c)
    have hmoved (alive : Bool) (hfit : alive = true → Fits (h.txnMode (h.txnId c)) se₂ (server.endRecords (h.txnId c))
        (whenIdle .finishing .handling se₂.pc)) :
        Inv ({ h with server := server, txnMode := h.txnMode, alive := alive }.goto c
          (whenIdle .finishing .handling se₂.pc)) :=
      hi.moved halive (hi.server.step hstep) hm (fun _ _ => rfl) (by omega) hfit
    have hfinal : Final h ({ h with server := server }.goto c (whenIdle .finishing .handling se₂.pc)) :=
      .moved hm hopen rfl
    rcases hcase with ⟨hp', hopen'⟩ | ⟨hidle, hended⟩ | ⟨hidle, hopen', -⟩
    · have hbusy : h' = { h with server := server }.goto c (whenIdle .finishing .handling se₂.pc) := by
        rcases hp' with hp' | hp' | ⟨p, hp'⟩ | ⟨locks, hp'⟩ <;> rw [hp'] at he ⊢ <;>
          exact (Option.some.inj he).symm
      rw [hbusy]
      refine ⟨hmoved h.alive fun _ => ?_, hfinal⟩
      rw [whenIdle_of_aborting hp']
      exact ⟨hp', hopen', hmode⟩
    · rw [hidle] at he hmoved hfinal
      cases he
      refine ⟨hmoved (Sessions.ended se₂) fun _ => ⟨hidle, .inr ⟨hended, hmode⟩⟩, hfinal⟩
    · rw [hidle] at he hmoved hfinal
      cases he
      refine ⟨hmoved (Sessions.ended se₂) fun halive' => ?_, hfinal⟩
      rw [hopen'] at halive'
      cases halive'

/-- **A step that ends no transaction twice keeps the invariant**, and what is over stays as it is. -/
theorem Inv.step (hi : h.Inv) {a : Action} (hok : h.stepOk a = true) (hstep : h.step a = some h') :
    h'.Inv ∧ Final h h' := by
  unfold Handlers.step at hstep
  split at hstep
  · next halive =>
    cases a with
    | request c r =>
      simp only at hstep
      split at hstep
      · next hpc =>
        cases hstep
        exact ⟨hi.setTransaction halive hpc r, hi.final_setTransaction⟩
      · cases hstep
    | work c answers => exact hi.work halive hok hstep
    | disconnect c =>
      have hclosed : Inv ({ h with txnMode := h.txnMode }.goto c .closed) :=
        hi.stays halive (fun _ _ => rfl) (.inr rfl) fun _ _ => trivial
      simp only at hstep
      split at hstep <;> cases hstep <;> exact ⟨hclosed, .refl h⟩
    | flushLog =>
      cases hstep
      have hend (t : Int) : h.server.flush.endRecords t = h.server.endRecords t := by
        unfold Sessions.endRecords
        rw [Sessions.own_flush]
      refine ⟨⟨hi.server.flush, hi.next, hi.invalid, fun t => (hend t) ▸ hi.records t,
        fun t ht => (hend t).trans (hi.fresh t ht), hi.distinct, fun ha c => ?_⟩, fun _ se hse _ => ⟨se, hse, rfl⟩⟩
      refine (hi.thread ha c).imp_right ?_
      rintro ⟨se, hse, hfit⟩
      exact ⟨se, hse, by rwa [← hend] at hfit⟩
  · cases hstep

end step

/-! ## Runs -/

theorem drive_server {h h' : Handlers} {c : Int} {a : Sessions.Action} {next : Pc → ClientPc}
    (hd : h.drive c a next = some h') : ∃ b, h.server.step b = some h'.server := by
  obtain ⟨server, se, hstep, -, rfl⟩ := drive_eq hd
  exact ⟨a, hstep⟩

theorem work_server {h h' : Handlers} {c : Int} {answers : IxAnswers} (hw : h.work c answers = some h') :
    h'.server = h.server ∨ ∃ b, h.server.step b = some h'.server := by
  cases hpc : (h.clients c).pc with
  | waiting | closed => simp [work, hpc] at hw
  | received r =>
    simp only [work, hpc] at hw
    cases r with
    | «begin» | other =>
      cases hw
      exact .inl rfl
    | commit | rollback | abort | stmt => exact .inr (drive_server hw)
  | running | committing | caught | autoCommitting =>
    simp only [work, hpc] at hw
    exact .inr (drive_server hw)
  | finishing =>
    simp only [work, hpc] at hw
    split at hw
    · cases hw
      exact .inl rfl
    · exact .inr (drive_server hw)
  | aborting =>
    simp only [work, hpc, Option.bind_eq_bind, Option.bind_eq_some_iff] at hw
    obtain ⟨b, -, hd⟩ := hw
    exact .inr (drive_server hd)
  | handling =>
    simp only [work, hpc, Option.bind_eq_bind, Option.bind_eq_some_iff, Option.pure_def, Option.some.injEq] at hw
    obtain ⟨b, -, h₁, hd, se, -, he⟩ := hw
    have hserver : h'.server = h₁.server := by
      rw [← he]
      split <;> rfl
    rw [hserver]
    exact .inr (drive_server hd)

/-- **A step of a thread is one of the sessions**, or none. -/
theorem step_server {h h' : Handlers} {a : Action} (hstep : h.step a = some h') :
    h'.server = h.server ∨ ∃ b, h.server.step b = some h'.server := by
  unfold step at hstep
  split at hstep
  · cases a with
    | request c r =>
      simp only at hstep
      split at hstep
      · cases hstep
        unfold setTransaction
        split
        · exact .inr ⟨.begin, rfl⟩
        · exact .inl rfl
      · cases hstep
    | disconnect c =>
      simp only at hstep
      split at hstep <;> cases hstep <;> exact .inl rfl
    | flushLog =>
      cases hstep
      exact .inr ⟨.flushLog, rfl⟩
    | work c answers => exact work_server hstep
  · cases hstep

theorem run_append (as bs : List Action) (h : Handlers) : h.run (as ++ bs) = (h.run as).bind (·.run bs) := by
  induction as generalizing h with
  | nil => rfl
  | cons a as ih =>
    simp only [List.cons_append, run, Option.bind_assoc]
    congr 1
    funext h'
    exact ih h'

/-- The sessions of every run keep their invariant. -/
theorem server_run {h h' : Handlers} (hs : h.server.Inv) {as : List Action} (hrun : h.run as = some h') :
    h'.server.Inv := by
  induction as generalizing h with
  | nil =>
    cases hrun
    exact hs
  | cons a as ih =>
    obtain ⟨h₁, hstep, hrest⟩ := Option.bind_eq_some_iff.1 hrun
    refine ih ?_ hrest
    rcases step_server hstep with hsame | ⟨b, hb⟩
    · rw [hsame]
      exact hs
    · exact hs.step hb

/-- A transaction that is over, or about to be, stays so and acquires nothing. -/
theorem released_run {h h' : Handlers} (hs : h.server.Inv) {as : List Action} (hrun : h.run as = some h') {t : Int}
    (hrel : ∃ se, h.server.sessions t = some se ∧ Sessions.Released se) :
    ∃ se, h'.server.sessions t = some se ∧ Sessions.Released se := by
  induction as generalizing h with
  | nil =>
    cases hrun
    exact hrel
  | cons a as ih =>
    obtain ⟨h₁, hstep, hrest⟩ := Option.bind_eq_some_iff.1 hrun
    rcases step_server hstep with hsame | ⟨b, hb⟩
    · exact ih (hsame ▸ hs) hrest (hsame ▸ hrel)
    · obtain ⟨se, hse, hr⟩ := hrel
      exact ih (hs.step hb) hrest (Sessions.released_step hs hb hse hr)

theorem Final.trans {h₁ h₂ h₃ : Handlers} (h : Final h₁ h₂) (h' : Final h₂ h₃) : Final h₁ h₃ := by
  intro t se hse hended
  obtain ⟨se₂, hse₂, heq⟩ := h t se hse hended
  obtain ⟨se₃, hse₃, heq'⟩ := h' t se₂ hse₂ (by rwa [Sessions.ended_eq heq])
  exact ⟨se₃, hse₃, heq'.trans heq⟩

/-- **What a run keeps in which no transaction ends twice.** -/
theorem Inv.run {h h' : Handlers} (hi : h.Inv) {as : List Action} (hm : h.Meets as) (hrun : h.run as = some h') :
    h'.Inv ∧ Final h h' := by
  induction as generalizing h with
  | nil =>
    cases hrun
    exact ⟨hi, .refl _⟩
  | cons a as ih =>
    obtain ⟨h₁, hstep, hrest⟩ := Option.bind_eq_some_iff.1 hrun
    obtain ⟨hi₁, hf⟩ := hi.step hm.1 hstep
    obtain ⟨hi', hf'⟩ := ih hi₁ (hm.2 h₁ hstep) hrest
    exact ⟨hi', hf.trans hf'⟩

theorem Meets.append {as bs : List Action} {h h' : Handlers} (hm : h.Meets (as ++ bs)) (hrun : h.run as = some h') :
    h.Meets as ∧ h'.Meets bs := by
  induction as generalizing h with
  | nil =>
    cases hrun
    exact ⟨trivial, hm⟩
  | cons a as ih =>
    obtain ⟨h₁, hstep, hrest⟩ := Option.bind_eq_some_iff.1 hrun
    refine ⟨⟨hm.1, fun h₂ hh₂ => ?_⟩, (ih (hm.2 h₁ hstep) hrest).2⟩
    have heq : h₁ = h₂ := Option.some.inj (hstep.symm.trans hh₂)
    exact heq ▸ (ih (hm.2 h₁ hstep) hrest).1

/-! ## Terminal states -/

/-- The state of a transaction. -/
def stateOf (h : Handlers) (tid : Int) : Option TransactionState :=
  (h.server.sessions tid).map (·.owner.state)

/-- In the run, COMMITTED and ABORTED are final. -/
def Terminal (h : Handlers) (as : List Action) : Prop :=
  ∀ pre post h₁ h₂, as = pre ++ post → h.run pre = some h₁ → h₁.run post = some h₂ → ∀ tid,
    (h₁.stateOf tid = some .aborted → h₂.stateOf tid = some .aborted) ∧
    (h₁.stateOf tid = some .committed → h₂.stateOf tid = some .committed)

/-- In the run, no transaction acquires a lock after it has released one. -/
def TwoPhase (h : Handlers) (as : List Action) : Prop :=
  ∀ pre a mid b post h₁ h₂ h₃ h₄, as = pre ++ a :: (mid ++ b :: post) → h.run pre = some h₁ → h₁.step a = some h₂ →
    h₂.run mid = some h₃ → h₃.step b = some h₄ → ∀ tid, Sessions.Releases h₁.server h₂.server tid →
      ¬Sessions.Acquires h₃.server h₄.server tid

/-- In the run, no transaction has two COMMIT or ABORT records. -/
def EndsOnce (h : Handlers) (as : List Action) : Prop :=
  ∀ pre post h₁, as = pre ++ post → h.run pre = some h₁ → ∀ tid, h₁.server.endRecords tid ≤ 1

/-- Two phases hold in every run. -/
theorem twoPhase {h : Handlers} (hs : h.server.Inv) (as : List Action) : h.TwoPhase as := by
  intro pre a mid b post h₁ h₂ h₃ h₄ _ hpre ha hmid hb tid hrel
  have hs₁ := server_run hs hpre
  have hone (h h' : Handlers) (a : Action) (hstep : h.step a = some h') : h.run [a] = some h' := by
    simp [Handlers.run, hstep]
  have hs₂ := server_run hs₁ (hone _ _ _ ha)
  -- behind the release the transaction is over, or about to be
  have hover : ∃ se, h₂.server.sessions tid = some se ∧ Sessions.Released se := by
    rcases step_server ha with hsame | ⟨a', ha'⟩
    · obtain ⟨id, hheld, hnone⟩ := hrel
      rw [hsame] at hnone
      exact absurd hnone hheld
    · exact Sessions.released_of_releases hs₁ ha' hrel
  obtain ⟨se, hse, hr⟩ := released_run hs₂ hmid hover
  have hs₃ := server_run hs₂ hmid
  rcases step_server hb with hsame | ⟨b', hb'⟩
  · rintro ⟨id, -, hdiff⟩
    rw [hsame] at hdiff
    exact hdiff rfl
  · exact Sessions.not_acquires_of_released hs₃ hb' hse hr

/-- **Transaction states are terminal** in every run without a COMMIT, ROLLBACK or ABORT statement or a refused lock
outside of a BEGIN block and without a failed rollback: COMMITTED and ABORTED are final, no transaction acquires a lock
after it has released one, and none has two COMMIT or ABORT records. -/
theorem terminal_of_meets (lm : LogManager) (fhs : Fhs) (db : TabName → Option TabMeta) (fd : TabName → Int)
    (as : List Action) (hm : (init lm fhs db fd).Meets as) :
    (init lm fhs db fd).Terminal as ∧ (init lm fhs db fd).TwoPhase as ∧ (init lm fhs db fd).EndsOnce as := by
  have hinit := inv_init lm fhs db fd
  refine ⟨fun pre post h₁ h₂ he hpre hpost tid => ?_, twoPhase hinit.server as, fun pre post h₁ he hpre tid => ?_⟩
  · subst he
    obtain ⟨hm₁, hm₂⟩ := hm.append hpre
    obtain ⟨hi₁, -⟩ := hinit.run hm₁ hpre
    obtain ⟨-, hfinal⟩ := hi₁.run hm₂ hpost
    have hstays (final : TransactionState) (hf : final = .committed ∨ final = .aborted)
        (hstate : h₁.stateOf tid = some final) : h₂.stateOf tid = some final := by
      obtain ⟨se, hse, heq⟩ := Option.map_eq_some_iff.1 hstate
      obtain ⟨se', hse', heq'⟩ := hfinal tid se hse (ended_of_final heq hf)
      simp [stateOf, hse', heq', heq]
    exact ⟨hstays _ (.inr rfl), hstays _ (.inl rfl)⟩
  · subst he
    obtain ⟨hm₁, -⟩ := hm.append hpre
    exact (hinit.run hm₁ hpre).1.records tid

/-- A server with one table, and some steps of one thread. -/
def oneTable : Handlers := init (LogManager.start []) Sessions.oneTableFhs Sessions.oneTableDb fun _ => 3

def works (c : Int) (n : Nat) : List Action := List.replicate n (.work c Sessions.noIndex)

def insertRow : Request := .stmt 3 (.insert "t" [⟨.int 7, none⟩])

/-- BEGIN, an insert, and COMMIT. -/
def block : List Action :=
  [.request 1 .begin] ++ works 1 2 ++ [.request 1 insertRow] ++ works 1 8 ++ [.request 1 .commit] ++ works 1 5

theorem terminal_of_meets_block : (oneTable.run block).map (fun h => (h.stateOf 0, h.server.endRecords 0)) =
      some (some .committed, 1) ∧
    oneTable.Terminal block ∧ oneTable.TwoPhase block ∧ oneTable.EndsOnce block :=
  ⟨by decide +kernel, terminal_of_meets (LogManager.start []) Sessions.oneTableFhs Sessions.oneTableDb (fun _ => 3) block
    (by decide +kernel)⟩

/-- A block has locked the table, and a single statement of another client is refused. -/
def refusedStatement : List Action :=
  [.request 1 .begin] ++ works 1 2 ++ [.request 1 insertRow] ++ works 1 3 ++
    [.request 2 (.stmt 3 (.select [⟨"t", [], none⟩] (.beginTuple 0 .done)))] ++ works 2 8

/-- **The transaction that was aborted is committed**, behind the answer to the client, and has an ABORT record and a
COMMIT record. -/
theorem not_terminal_refusedStatement : (¬∀ as, oneTable.Terminal as) ∧ ¬∀ as, oneTable.EndsOnce as := by
  have haborted : (oneTable.run refusedStatement).map (·.stateOf 1) = some (some .aborted) := by decide +kernel
  have hcommitted : (oneTable.run (refusedStatement ++ works 2 3)).map
      (fun h => (h.stateOf 1, h.server.endRecords 1)) = some (some .committed, 2) := by decide +kernel
  obtain ⟨h₁, hrun₁, hstate₁⟩ := Option.map_eq_some_iff.1 haborted
  obtain ⟨h₂, hrun₂, heq₂⟩ := Option.map_eq_some_iff.1 hcommitted
  obtain ⟨hstate₂, hrecords⟩ := Prod.mk.inj heq₂
  constructor
  · intro hall
    have hpost : h₁.run (works 2 3) = some h₂ := by rwa [run_append, hrun₁] at hrun₂
    have hstays := (hall _ refusedStatement _ h₁ h₂ rfl hrun₁ hpost 1).1 hstate₁
    rw [hstate₂] at hstays
    cases hstays
  · intro hall
    have honce := hall _ _ [] h₂ (List.append_nil _).symm hrun₂ 1
    rw [hrecords] at honce
    exact absurd honce (by decide)

end Handlers

end Rmdb
