import Rmdb.Recovery.CrashRecovery

/-!
# Redo repeats history

- `Unaborted`: in a run without aborts every transaction in the log has committed or is still running;
- `CrashImage`: what a crash can leave of tables that were freshly created when the log was begun;
- `redo_of_unaborted`: redo leads from any two such images to the records that the log replays on empty pages.
-/

namespace Rmdb

open Lib SlotWrite

namespace Server

variable {names : List TabName} {recordSize : TabName → Int} {s s' : Server} {a : Action} {acts : List Action}
  {fhs₀ : Fhs} {tid : Int}

/-! ## Runs without aborts -/

/-- Neither a roll-back nor a restart. -/
def Action.isForward : Action → Bool
  | .logAbort _ | .crash _ | .close => false
  | _ => true

structure Unaborted (s : Server) : Prop where
  running : ∀ x ∈ s.history, committed s.history (inst x) = true ∨ s.live (inst x) ≠ none
  phase : ∀ tid txn, s.txns tid = some txn → txn.phase = .growing ∨ ¬ txn.phase.IsOpen

theorem Unaborted.noLosers (h : s.Unaborted) (t : TabName) (ρ : Rid) : s.NoLosers t ρ := fun x hx _ => h.running x hx

theorem Unaborted.stepOk (h : s.Unaborted) (ha : a.isForward = true) : s.StepOk a := by
  cases a with
  | insert tid t buf => exact fun _ _ _ _ => h.noLosers _ _
  | delete tid t ρ | update tid t ρ buf => exact h.noLosers _ _
  | rollback tid =>
    rintro ⟨prevLsn, t, ρ, v, ws, hrun, -⟩
    have := h.phase tid _ hrun
    simp [Phase.IsOpen] at this
  | crash k | close => cases ha
  | _ => trivial

/-- New records are of running transactions, and a transaction that is gone has committed. -/
theorem Unaborted.next (h : s.Unaborted) (hepoch : s'.epoch = s.epoch) (hpre : s.history <+: s'.history)
    (hnew : ∀ x ∈ s'.history, x ∈ s.history ∨ s'.live (inst x) ≠ none)
    (hgone : ∀ tid, s.txns tid ≠ none → s'.txns tid = none → committed s'.history (s.epoch, tid) = true)
    (hphase : ∀ tid txn', s'.txns tid = some txn' → txn'.phase = .growing ∨ ¬ txn'.phase.IsOpen) : s'.Unaborted := by
  refine ⟨fun x hx => ?_, hphase⟩
  rcases hnew x hx with hx | hlive
  · rcases h.running x hx with hc | hlive
    · exact .inl (committed_mono hpre hc)
    · by_cases hlive' : s'.live (inst x) = none
      · unfold live at hlive hlive'
        split at hlive
        · next he =>
          rw [if_pos (he.trans hepoch.symm)] at hlive'
          have := hgone _ hlive hlive'
          rw [← he] at this
          exact .inl this
        · exact absurd rfl hlive
      · exact .inr hlive'
  · exact .inr hlive

/-- One transaction moves on, and may append a record. -/
theorem Unaborted.set {txn' : Transaction} (h : s.Unaborted) (hepoch : s'.epoch = s.epoch)
    (htxns : s'.txns = Function.update s.txns tid (some txn')) (hphase : txn'.phase = .growing ∨ ¬ txn'.phase.IsOpen)
    (hhist : s'.history = s.history ∨ ∃ r, r.logTid = tid ∧ s'.history = s.history ++ [(s.epoch, r)]) :
    s'.Unaborted := by
  refine h.next hepoch ?_ (fun x hx => ?_) (fun tid' hne hnone => ?_) fun tid' txn₁ htxn₁ => ?_
  · rcases hhist with heq | ⟨r, -, heq⟩
    · exact heq ▸ List.prefix_refl _
    · exact heq ▸ List.prefix_append _ _
  · rcases hhist with heq | ⟨r, ht, heq⟩
    · exact .inl (heq ▸ hx)
    · rw [heq] at hx
      rcases List.mem_append.1 hx with hx | hx
      · exact .inl hx
      · refine .inr ?_
        rw [List.mem_singleton.1 hx, live_of_epoch hepoch.symm, htxns]
        simp [inst, ht]
  · rw [htxns] at hnone
    by_cases htid : tid' = tid
    · simp [htid] at hnone
    · rw [Function.update_of_ne htid] at hnone
      exact absurd hnone hne
  · rw [htxns] at htxn₁
    by_cases htid : tid' = tid
    · subst htid
      rw [Function.update_self, Option.some.injEq] at htxn₁
      exact htxn₁ ▸ hphase
    · rw [Function.update_of_ne htid] at htxn₁
      exact h.phase tid' txn₁ htxn₁

theorem Unaborted.same (h : s.Unaborted) (hf : Flushes s s') (htxns : s'.txns = s.txns) : s'.Unaborted := by
  refine h.next hf.epoch (hf.history ▸ List.prefix_refl _) (fun x hx => .inl (hf.history ▸ hx)) (fun tid' hne hnone => ?_)
    fun tid' txn' htxn' => h.phase tid' txn' (htxns ▸ htxn')
  exact absurd (htxns ▸ hnone) hne

theorem Unaborted.step (h : s.Unaborted) (hs : s.Sound fhs₀) (ha : a.isForward = true) (hstep : s.step a = some s') :
    s'.Unaborted := by
  have hl := hs.log
  have hopen : ∀ {tid prevLsn ws}, s.txns tid ≠ some ⟨prevLsn, ws, .rollingBack⟩ := fun {tid _ _} hrun => by
    have := h.phase tid _ hrun
    simp [Phase.IsOpen] at this
  cases a with
  | «begin» =>
    obtain rfl := Option.some.inj hstep
    have hsame : SameRun s s.beginTxn := sameRun_of_fhs rfl rfl rfl
    have happ : Appends s s.beginTxn ⟨s.logMgr.globalLsn, s.nextTxnId, invalidLsn, .begin⟩ := .of_addLog hl hsame rfl
    exact h.set rfl rfl (.inl rfl) (.inr ⟨_, rfl, happ.history hl⟩)
  | lock tid t =>
    simp only [Server.step] at hstep
    split at hstep
    · split at hstep
      · obtain rfl := Option.some.inj hstep
        exact h.same (.of_eq hl (sameRun_of_fhs rfl rfl rfl) rfl) rfl
      · cases hstep
    · cases hstep
  | insert tid t buf | delete tid t ρ | update tid t ρ buf =>
    obtain ⟨tid', txn, t', ρ', w, hw, -⟩ := hs.writes rfl hstep
    exact h.set (hw.appends hl).epoch hw.txns (.inl rfl) (.inr ⟨_, rfl, (hw.appends hl).history hl⟩)
  | logCommit tid =>
    obtain ⟨txn, hrun, hphase, heq⟩ := logPhase_eq hstep
    have happ : Appends s s' ⟨s.logMgr.globalLsn, tid, txn.prevLsn, .commit⟩ :=
      .of_addLog hl (heq ▸ sameRun_of_fhs rfl rfl rfl) (heq ▸ rfl)
    have htxns : s'.txns = Function.update s.txns tid (some ⟨s.logMgr.globalLsn, txn.writeSet, .commitLogged⟩) :=
      heq ▸ rfl
    exact h.set happ.epoch htxns (.inr (by simp [Phase.IsOpen])) (.inr ⟨_, rfl, happ.history hl⟩)
  | flushCommit tid =>
    obtain ⟨txn, hrun, hphase, heq⟩ := flushPhase_eq hstep
    have hf : Flushes s s' := .of_flush hl (heq ▸ sameRun_of_fhs rfl rfl rfl) (heq ▸ rfl)
    have htxns : s'.txns = Function.update s.txns tid (some { txn with phase := .commitFlushed }) := heq ▸ rfl
    exact h.set hf.epoch htxns (.inr (by simp [Phase.IsOpen])) (.inl hf.history)
  | endCommit tid =>
    simp only [Server.step] at hstep
    split at hstep
    · next hphase =>
      obtain ⟨txn, hrun, hphase⟩ := Option.map_eq_some_iff.1 hphase
      obtain rfl := Option.some.inj hstep
      have hf : Flushes s (s.endTxn tid) := .of_eq hl (sameRun_of_fhs rfl rfl rfl) rfl
      refine h.next rfl (hf.history ▸ List.prefix_refl _) (fun x hx => .inl (hf.history ▸ hx)) (fun tid' hne hnone => ?_)
        fun tid' txn' htxn' => ?_
      · rw [endTxn_txns] at hnone
        split at hnone
        · next htid =>
          rw [htid, hf.history, (hl.started tid txn hrun).committed]
          simp [Phase.IsOpen, hphase]
        · exact absurd hnone hne
      · rw [endTxn_txns] at htxn'
        split at htxn'
        · cases htxn'
        · exact h.phase tid' txn' htxn'
    · cases hstep
  | flushAbort tid =>
    obtain ⟨txn, hrun, hphase, -⟩ := flushPhase_eq hstep
    have := h.phase tid txn hrun
    simp [hphase, Phase.IsOpen] at this
  | rollback tid | endAbort tid =>
    simp only [Server.step] at hstep
    split at hstep
    · next hrun => exact absurd hrun hopen
    · cases hstep
  | flushLog =>
    obtain rfl := Option.some.inj hstep
    exact h.same (.of_flush hl (sameRun_of_fhs rfl rfl rfl) rfl) rfl
  | writeBack t p =>
    simp only [Server.step] at hstep
    split at hstep
    · obtain ⟨-, -, -, -, htxns, -⟩ := writeBack_eq hstep
      exact h.same (writeBack_flushes hl hstep) htxns
    · cases hstep
  | logAbort tid | crash k | close => cases ha

/-- A run without aborts never meets the slots that recovery cannot put right. -/
theorem Unaborted.run (h : s.Unaborted) (hs : s.Sound fhs₀) (hacts : ∀ a ∈ acts, a.isForward = true)
    (hrun : s.run acts = some s') : s'.Sound fhs₀ := by
  induction acts generalizing s with
  | nil => exact Option.some.inj hrun ▸ hs
  | cons a acts ih =>
    obtain ⟨s₁, hstep, hrest⟩ := Option.bind_eq_some_iff.1 hrun
    have ha := hacts a (by simp)
    exact ih (h.step hs ha hstep) (hs.step (h.stepOk ha) hstep) (fun a ha => hacts a (by simp [ha])) hrest

/-! ## Crash images -/

/-- The records of a log about one page. -/
def pageLog (L : List LogRecord) (t : TabName) (p : Int) : List LogRecord :=
  L.filter fun r => match r.body.target with
    | some (t', ρ, _) => t' == t && ρ.pageNo == p
    | none => false

/-- A page that holds the state after `P`, with the lsn of its last record. -/
structure PageAfter (P : List LogRecord) (t : TabName) (p : Int) (page : RmPage) : Prop where
  pageLsn : page.pageLsn = (P.getLast?.map (·.lsn)).getD 0
  record : ∀ s, page.record s = replay P t ⟨p, s⟩

/-- The files that a crash leaves: the headers as they were at open, and any pages that are the state after a prefix of
their own log records. -/
structure CrashImage (names : List TabName) (recordSize : TabName → Int) (L : List LogRecord) (fhs : Fhs) : Prop where
  tables : fhs.names = names
  file : ∀ t, fhs.file t = RmFile.openFile t (RmFileHdr.create (recordSize t)) (fhs.file t).pages
  page : ∀ t ∈ names, ∀ p page, 1 ≤ p → (fhs.file t).pages p = some page → ∃ P, P <+: pageLog L t p ∧ PageAfter P t p page

theorem CrashImage.redo {L : List LogRecord} {fhs : Fhs} (h : CrashImage names recordSize L fhs)
    (hsize : SizesOk names recordSize) (hL : LogOk (init names recordSize).fhs L)
    (hpos : ∀ r ∈ L, r.body.target ≠ none → 0 < r.lsn) :
    ∃ fhs', Rmdb.redo L fhs = .ok fhs' ∧ ∀ t ρ, 1 ≤ ρ.pageNo → fhs'.recordAt t ρ = replay L t ρ := by
  have hhdr : ∀ t, (fhs.file t).fileHdr = RmFileHdr.create (recordSize t) := fun t => by rw [h.file t]; rfl
  have hone : ∀ t, (fhs.file t).fileHdr.numPages = 1 := fun t => by rw [hhdr]; rfl
  have hshape : Fhs.SameShape (Server.init names recordSize).fhs fhs := by
    refine ⟨h.tables, fun t => ⟨?_, by rw [hhdr]; rfl, by rw [hhdr]; rfl⟩⟩
    rw [h.file t]
    rfl
  have hready : fhs.Ready := fun t ht => by
    obtain ⟨h1, hle⟩ := hsize t (h.tables ▸ ht)
    refine ⟨⟨by rw [hhdr]; exact RmFileHdr.create_perPage_pos h1 hle, (hone t).ge, fun p h1 hlt => ?_⟩, ?_⟩
    · rw [hone] at hlt
      omega
    · rw [h.file t]
      rfl
  have hlog : LogOk fhs L := ⟨hL.sorted, fun r hr => (hL.valid r hr).congr hshape, hL.linked⟩
  -- with one page in the header no page on disk is seen
  have hnot : ∀ t (ρ : Rid), 1 ≤ ρ.pageNo → ¬ ρ.pageNo < (fhs.file t).fileHdr.numPages := fun t ρ h1 => by
    rw [hone]
    omega
  have hrec : ∀ t ρ, 1 ≤ ρ.pageNo → fhs.recordAt t ρ = none := fun t ρ h1 => by
    simp [Fhs.recordAt, RmFile.recordAt, hnot t ρ h1]
  have hlsn : ∀ t (ρ : Rid), 1 ≤ ρ.pageNo → fhs.lsnAt t ρ.pageNo = 0 := fun t ρ h1 => by
    simp [Fhs.lsnAt, RmFile.lsnAt, hnot t ρ h1]
  have hlate : ∀ t ρ, ∀ r ∈ L, r.body.writeOn t ρ ≠ none → 0 < r.lsn := fun t ρ r hr hne => by
    obtain ⟨w, hw⟩ := Option.ne_none_iff_exists'.1 hne
    exact hpos r hr (by simp [LogBody.writeOn_eq_some.1 hw])
  obtain ⟨fhs', heq, -, hslot⟩ := redo_spec (S := fun _ _ => True) hlog hready (fun _ _ _ _ _ _ => trivial)
    fun t ρ _ h1 => .inl (by
      have hnone : AllLe [] t ρ 0 := by simp [AllLe]
      have hnil : slotLog (upTo L 0) t ρ = [] := slotLog_upTo hnone (hlate t ρ)
      rw [hrec t ρ h1, hlsn t ρ h1, replay, hnil]
      rfl)
  refine ⟨fhs', heq, fun t ρ h1 => ?_⟩
  rcases hslot t ρ trivial h1 with ⟨hall, hsame⟩ | ⟨-, hdone⟩
  · have hnil : slotLog L t ρ = [] := by
      rw [slotLog_eq_nil]
      intro r hr
      by_contra hne
      have hle := hall r hr hne
      have hlt := hlate t ρ r hr hne
      rw [hlsn t ρ h1] at hle
      omega
    rw [hsame, hrec t ρ h1, replay, hnil]
    rfl
  · exact hdone

/-- Redo leads from any two crash images of a run without aborts to the records of the whole durable log. -/
theorem redo_of_unaborted (hsize : SizesOk names recordSize) (hacts : ∀ a ∈ acts, a.isForward = true)
    (hrun : (init names recordSize).run acts = some s) (k : Nat) (fhs₁ fhs₂ : Fhs)
    (h₁ : CrashImage names recordSize (s.durableLog k) fhs₁) (h₂ : CrashImage names recordSize (s.durableLog k) fhs₂) :
    ∃ fhs₁' fhs₂', redo (s.durableLog k) fhs₁ = .ok fhs₁' ∧ redo (s.durableLog k) fhs₂ = .ok fhs₂' ∧
      ∀ t ρ, 1 ≤ ρ.pageNo → fhs₁'.recordAt t ρ = replay (s.durableLog k) t ρ ∧
        fhs₂'.recordAt t ρ = replay (s.durableLog k) t ρ := by
  have hstart : (init names recordSize).Unaborted := by
    refine ⟨fun x hx => ?_, fun tid txn htxn => ?_⟩
    · cases hx
    · cases htxn
  have hs := hstart.run (.init hsize) hacts hrun
  have hsub := (s.durableLog_prefix k).subset
  have hlog : LogOk (init names recordSize).fhs (s.durableLog k) :=
    ⟨hs.log.wf.sorted.sublist (s.durableLog_prefix k).sublist,
      fun r hr => (hs.log.valid r (hsub hr)).congr hs.shape.symm, hs.log.linked_durable k⟩
  have hpos : ∀ r ∈ s.durableLog k, r.body.target ≠ none → 0 < r.lsn := fun r hr => hs.log.dataLsn r (hsub hr)
  obtain ⟨fhs₁', heq₁, hrec₁⟩ := h₁.redo hsize hlog hpos
  obtain ⟨fhs₂', heq₂, hrec₂⟩ := h₂.redo hsize hlog hpos
  exact ⟨fhs₁', fhs₂', heq₁, heq₂, fun t ρ h1 => ⟨hrec₁ t ρ h1, hrec₂ t ρ h1⟩⟩

/-- The new table with the given data pages on disk. -/
def newTableWith (pages : Int → Option RmPage) : Fhs :=
  { names := ["t"], file := fun t => RmFile.openFile t (RmFileHdr.create 512) pages }

def insertedPage : RmPage := ((RmPage.fresh 512).fillSlot 512 0 (recordOf 1)).stamp 1

theorem insertedPage_after : PageAfter [⟨1, 0, 0, .insert (recordOf 1) ⟨1, 0⟩ "t"⟩] "t" 1 insertedPage where
  pageLsn := rfl
  record s := by
    rw [insertedPage, RmPage.record_stamp, RmPage.record_fillSlot, RmPage.record_fresh, replay]
    by_cases hs : s = 0
    · rw [if_pos hs, hs, slotLog_single rfl]
      exact congrArg some (List.take_of_length_le (List.length_replicate.le.trans (by decide)))
    · rw [if_neg hs, slotLog_single_of_none (by simp [LogBody.writeOn, LogBody.target, Ne.symm hs])]
      rfl

/-- No page was written back, or the page with the inserted record was. -/
theorem redo_of_unaborted_oneInsert : ∃ s fhs₁' fhs₂', newTable.run oneInsert = some s ∧
    redo (s.durableLog 0) (newTableWith fun _ => none) = .ok fhs₁' ∧
    redo (s.durableLog 0) (newTableWith fun p => if p = 1 then some insertedPage else none) = .ok fhs₂' ∧
    ∀ t ρ, 1 ≤ ρ.pageNo → fhs₁'.recordAt t ρ = replay (s.durableLog 0) t ρ ∧
      fhs₂'.recordAt t ρ = replay (s.durableLog 0) t ρ := by
  obtain ⟨s, hs⟩ := Option.isSome_iff_exists.1 (show (newTable.run oneInsert).isSome = true by decide +kernel)
  have hlog : (newTable.run oneInsert).map (fun s => pageLog (s.durableLog 0) "t" 1) =
      some [⟨1, 0, 0, .insert (recordOf 1) ⟨1, 0⟩ "t"⟩] := by decide +kernel
  rw [hs, Option.map_some, Option.some.injEq] at hlog
  have hnone : CrashImage ["t"] (fun _ => 512) (s.durableLog 0) (newTableWith fun _ => none) :=
    ⟨rfl, fun _ => rfl, fun t _ p page _ hp => by cases hp⟩
  have hpage : CrashImage ["t"] (fun _ => 512) (s.durableLog 0)
      (newTableWith fun p => if p = 1 then some insertedPage else none) := by
    refine ⟨rfl, fun _ => rfl, fun t ht p page _ hp => ?_⟩
    obtain rfl := List.mem_singleton.1 ht
    obtain ⟨rfl, rfl⟩ : p = 1 ∧ insertedPage = page := by simpa [newTableWith, RmFile.openFile] using hp
    exact ⟨_, hlog ▸ List.prefix_refl _, insertedPage_after⟩
  obtain ⟨fhs₁', fhs₂', h⟩ := redo_of_unaborted newTable_sizesOk (by decide) hs 0 _ _ hnone hpage
  exact ⟨s, fhs₁', fhs₂', hs, h⟩

end Server

end Rmdb
