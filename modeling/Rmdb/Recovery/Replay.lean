import Rmdb.Recovery.Effects

/-!
# What redo and undo do to the tables

- `redo_spec`: over files whose pages each hold the state at some lsn, redo replays the whole log;
- `undoLog_spec`: undo takes back the writes of the losers, slot by slot;
- `recover_spec`: all of `recover`, with the free lists rebuilt.
-/

namespace Rmdb

open Lib

/-! ## Lists of records -/

section log
variable {L L₁ L₂ : List LogRecord} {r : LogRecord} {t : TabName} {ρ : Rid} {w : SlotWrite Bytes}

theorem LogBody.writeOn_eq_some {b : LogBody} : b.writeOn t ρ = some w ↔ b.target = some (t, ρ, w) := by
  unfold LogBody.writeOn
  cases h : b.target with
  | none => simp
  | some x =>
    obtain ⟨t', rid', w'⟩ := x
    simp
    tauto

theorem LogBody.writeOn_of_target {b : LogBody} (h : b.target = some (t, ρ, w)) : b.writeOn t ρ = some w :=
  writeOn_eq_some.2 h

theorem LogBody.writeOn_eq_none {b : LogBody} {t' : TabName} {ρ' : Rid} (h : b.target = some (t', ρ', w))
    (hne : ¬ (t' = t ∧ ρ' = ρ)) : b.writeOn t ρ = none := by
  cases hb : b.writeOn t ρ with
  | none => rfl
  | some w' =>
    rw [writeOn_eq_some, h] at hb
    simp only [Option.some.injEq, Prod.mk.injEq] at hb
    exact absurd ⟨hb.1, hb.2.1⟩ hne

@[simp] theorem slotLog_nil : slotLog [] t ρ = [] := rfl

@[simp] theorem slotLog_append : slotLog (L₁ ++ L₂) t ρ = slotLog L₁ t ρ ++ slotLog L₂ t ρ := by simp [slotLog]

theorem slotLog_eq_nil : slotLog L t ρ = [] ↔ ∀ r ∈ L, r.body.writeOn t ρ = none := by simp [slotLog]

theorem slotLog_single (h : r.body.target = some (t, ρ, w)) : slotLog [r] t ρ = [w] := by
  simp [slotLog, LogBody.writeOn_of_target h]

theorem slotLog_single_of_none (h : r.body.writeOn t ρ = none) : slotLog [r] t ρ = [] := by simp [slotLog, h]

/-- The records up to an lsn. -/
def upTo (L : List LogRecord) (lsn : Int) : List LogRecord := L.filter (·.lsn ≤ lsn)

/-- Every write to the slot has an lsn up to the bound. -/
def AllLe (L : List LogRecord) (t : TabName) (ρ : Rid) (lsn : Int) : Prop :=
  ∀ r ∈ L, r.body.writeOn t ρ ≠ none → r.lsn ≤ lsn

/-- A bound between two halves of the log cuts the slot's writes there. -/
theorem slotLog_upTo {lsn : Int} (h₁ : AllLe L₁ t ρ lsn) (h₂ : ∀ r ∈ L₂, r.body.writeOn t ρ ≠ none → lsn < r.lsn) :
    slotLog (upTo (L₁ ++ L₂) lsn) t ρ = slotLog L₁ t ρ := by
  have hkeep : slotLog (upTo L₁ lsn) t ρ = slotLog L₁ t ρ := by
    simp only [slotLog, upTo, List.filterMap_filter]
    refine List.filterMap_congr fun r hr => ?_
    by_cases hle : r.lsn ≤ lsn
    · simp [hle]
    · have : r.body.writeOn t ρ = none := by
        by_contra hne
        exact hle (h₁ r hr hne)
      simp [this]
  have hdrop : slotLog (upTo L₂ lsn) t ρ = [] := by
    rw [slotLog_eq_nil]
    intro r hr
    simp only [upTo, List.mem_filter, decide_eq_true_eq] at hr
    by_contra hne
    have := h₂ r hr.1 hne
    omega
  rw [upTo, List.filter_append, slotLog_append, ← upTo, ← upTo, hkeep, hdrop, List.append_nil]

theorem slotLog_upTo_of_allLe {lsn : Int} (h : AllLe L t ρ lsn) : slotLog (upTo L lsn) t ρ = slotLog L t ρ := by
  have hnone : ∀ r ∈ ([] : List LogRecord), r.body.writeOn t ρ ≠ none → lsn < r.lsn := by simp
  simpa using slotLog_upTo h hnone

end log

/-! ## Redo -/

/-- The values of a write have the size of a record. -/
def Fits (recordSize : Int) (w : SlotWrite Bytes) : Prop :=
  ∀ v, w.old = some v ∨ w.new = some v → memcpy v recordSize = v

/-- The tables and rids of a log are those of the open files. -/
structure ValidFor (fhs : Fhs) (r : LogRecord) : Prop where
  valid : ∀ t rid w, r.body.target = some (t, rid, w) → t ∈ fhs.names ∧ 1 ≤ rid.pageNo ∧
    (0 ≤ rid.slotNo ∧ rid.slotNo < (fhs.file t).fileHdr.numRecordsPerPage) ∧ Fits (fhs.file t).fileHdr.recordSize w

/-- The files differ in their contents only. -/
structure Fhs.SameShape (fhs fhs' : Fhs) : Prop where
  names : fhs'.names = fhs.names
  shape : ∀ t, (fhs.file t).SameShape (fhs'.file t)

theorem Fhs.SameShape.symm {fhs fhs' : Fhs} (h : fhs.SameShape fhs') : fhs'.SameShape fhs :=
  ⟨h.names.symm, fun t => ⟨(h.shape t).tabName.symm, (h.shape t).recordSize.symm, (h.shape t).perPage.symm⟩⟩

theorem Fhs.SameShape.trans {fhs₁ fhs₂ fhs₃ : Fhs} (h : fhs₁.SameShape fhs₂) (h' : fhs₂.SameShape fhs₃) :
    fhs₁.SameShape fhs₃ where
  names := h'.names.trans h.names
  shape t := ⟨(h'.shape t).tabName.trans (h.shape t).tabName, (h'.shape t).recordSize.trans (h.shape t).recordSize,
    (h'.shape t).perPage.trans (h.shape t).perPage⟩

def Fhs.Ready (fhs : Fhs) : Prop := ∀ t ∈ fhs.names, (fhs.file t).Ready

def Fhs.lsnAt (fhs : Fhs) (t : TabName) (p : Int) : Int := (fhs.file t).lsnAt p

theorem Fhs.modify_eq {fhs : Fhs} {t : TabName} {k : RmFile → Except RMDBError RmFile} {fh : RmFile}
    (ht : t ∈ fhs.names) (hk : k (fhs.file t) = .ok fh) : fhs.modify t k = .ok (fhs.set t fh) := by
  simp [Fhs.modify, ht, hk, Except.map]

@[simp] theorem Fhs.set_names (fhs : Fhs) (t : TabName) (fh : RmFile) : (fhs.set t fh).names = fhs.names := rfl

theorem Fhs.set_file (fhs : Fhs) (t t' : TabName) (fh : RmFile) :
    (fhs.set t fh).file t' = if t' = t then fh else fhs.file t' := by
  by_cases h : t' = t <;> simp [Fhs.set, h]

section redo
variable {fhs fhs₀ fhs' : Fhs} {L L₁ L₂ : List LogRecord} {r : LogRecord} {t : TabName} {rid : Rid} {w : SlotWrite Bytes}

theorem redoRecord_spec (hready : fhs.Ready) (hvalid : ValidFor fhs r) (htarget : r.body.target = some (t, rid, w))
    (hpage : w.old ≠ none → rid.pageNo < (fhs.file t).fileHdr.numPages)
    (hold : fhs.lsnAt t rid.pageNo < r.lsn → fhs.recordAt t rid = w.old) :
    ∃ fh, redoRecord fhs r = .ok (fhs.set t fh) ∧ (fhs.file t).Redone fh rid r.lsn w.new := by
  obtain ⟨ht, h1, -, hfits⟩ := hvalid.valid _ _ _ htarget
  have hf := hready t ht
  cases hb : r.body with
  | «begin» | commit | abort => simp [hb, LogBody.target] at htarget
  | insert v rid' t' =>
    obtain ⟨rfl, rfl, rfl⟩ : t' = t ∧ rid' = rid ∧ SlotWrite.insert v = w := by simpa [hb, LogBody.target] using htarget
    obtain ⟨fh, heq, hr⟩ := RmFile.redoInsert_spec hf h1 (hfits v (.inr rfl)) hold
    exact ⟨fh, by simp only [redoRecord, hb]; exact Fhs.modify_eq ht heq, hr⟩
  | delete v rid' t' =>
    obtain ⟨rfl, rfl, rfl⟩ : t' = t ∧ rid' = rid ∧ SlotWrite.delete v = w := by simpa [hb, LogBody.target] using htarget
    obtain ⟨fh, heq, hr⟩ := RmFile.redoDelete_spec hf h1 (hpage (by simp [SlotWrite.old])) fun hlt => by
      rw [show (fhs.file t').recordAt rid' = _ from hold hlt]
      simp [SlotWrite.old]
    exact ⟨fh, by simp only [redoRecord, hb]; exact Fhs.modify_eq ht heq, hr⟩
  | update o n rid' t' =>
    obtain ⟨rfl, rfl, rfl⟩ : t' = t ∧ rid' = rid ∧ SlotWrite.update o n = w := by
      simpa [hb, LogBody.target] using htarget
    obtain ⟨fh, heq, hr⟩ := RmFile.redoUpdate_spec hf h1 (hpage (by simp [SlotWrite.old])) (hfits n (.inr rfl))
      fun hlt => by
        rw [show (fhs.file t').recordAt rid' = _ from hold hlt]
        simp [SlotWrite.old]
    exact ⟨fh, by simp only [redoRecord, hb]; exact Fhs.modify_eq ht heq, hr⟩

/-- What redo needs of the log. -/
structure LogOk (fhs : Fhs) (L : List LogRecord) : Prop where
  sorted : L.Pairwise (·.lsn < ·.lsn)
  valid : ∀ r ∈ L, ValidFor fhs r
  linked : ∀ t ρ, SlotWrite.Linked none (slotLog L t ρ)

/-- A slot holds the state at the lsn of its page, or the page is as new as all its writes. -/
def SlotImage (L : List LogRecord) (fhs : Fhs) (t : TabName) (ρ : Rid) : Prop :=
  fhs.recordAt t ρ = replay (upTo L (fhs.lsnAt t ρ.pageNo)) t ρ ∨ AllLe L t ρ (fhs.lsnAt t ρ.pageNo)

/-- A slot whose page had all its writes is untouched; otherwise it holds the state after `L'`. -/
def SlotRedone (fhs₀ : Fhs) (L : List LogRecord) (fhs : Fhs) (t : TabName) (ρ : Rid) (L' : List LogRecord) : Prop :=
  AllLe L t ρ (fhs₀.lsnAt t ρ.pageNo) ∧ fhs.recordAt t ρ = fhs₀.recordAt t ρ ∨
    ¬ AllLe L t ρ (fhs₀.lsnAt t ρ.pageNo) ∧ fhs.recordAt t ρ = replay L' t ρ

/-- The invariant of `redo`, started on `fhs₀`, when `L₁` is done. -/
structure RedoInv (fhs₀ : Fhs) (S : TabName → Rid → Prop) (L L₁ : List LogRecord) (fhs : Fhs) : Prop extends
    Fhs.SameShape fhs₀ fhs where
  ready : fhs.Ready
  numPages : ∀ t, (fhs₀.file t).fileHdr.numPages ≤ (fhs.file t).fileHdr.numPages
  pages : ∀ r ∈ L₁, ∀ t rid w, r.body.target = some (t, rid, w) → rid.pageNo < (fhs.file t).fileHdr.numPages
  lsnMono : ∀ t p, 1 ≤ p → fhs₀.lsnAt t p ≤ fhs.lsnAt t p
  lsnDone : ∀ r ∈ L₁, ∀ t rid w, r.body.target = some (t, rid, w) → r.lsn ≤ fhs.lsnAt t rid.pageNo
  lsnFrom : ∀ t p, 1 ≤ p → fhs.lsnAt t p = fhs₀.lsnAt t p ∨ ∃ r ∈ L₁, fhs.lsnAt t p = r.lsn
  slot : ∀ t ρ, S t ρ → 1 ≤ ρ.pageNo → SlotRedone fhs₀ L fhs t ρ (upTo L (fhs.lsnAt t ρ.pageNo))

variable {S : TabName → Rid → Prop}

/-- The view of the tables after one record. -/
theorem RmFile.Redone.view {fh : RmFile} {lsn : Int} {v : Option Bytes} (h : (fhs.file t).Redone fh rid lsn v)
    (t' : TabName) :
    (∀ ρ, (fhs.set t fh).recordAt t' ρ =
      if t' = t ∧ ρ = rid ∧ fhs.lsnAt t rid.pageNo < lsn then v else fhs.recordAt t' ρ) ∧
    ∀ p, 1 ≤ p → (fhs.set t fh).lsnAt t' p =
      if t' = t ∧ p = rid.pageNo then max (fhs.lsnAt t' p) lsn else fhs.lsnAt t' p := by
  by_cases ht : t' = t
  · subst ht
    refine ⟨fun ρ => ?_, fun p hp => ?_⟩
    · simp [Fhs.recordAt, Fhs.lsnAt, Fhs.set_file, h.recordAt]
    · simp [Fhs.lsnAt, Fhs.set_file, h.lsnAt p hp]
  · simp [Fhs.recordAt, Fhs.lsnAt, Fhs.set_file, ht]

theorem RedoInv.skip (h : RedoInv fhs₀ S L L₁ fhs) (htarget : r.body.target = none) :
    RedoInv fhs₀ S L (L₁ ++ [r]) fhs where
  names := h.names
  shape := h.shape
  ready := h.ready
  numPages := h.numPages
  lsnMono := h.lsnMono
  slot := h.slot
  pages r' hr' t rid w ht := by
    rcases List.mem_append.1 hr' with hr' | hr'
    · exact h.pages r' hr' t rid w ht
    · rw [List.mem_singleton.1 hr', htarget] at ht
      cases ht
  lsnDone r' hr' t rid w ht := by
    rcases List.mem_append.1 hr' with hr' | hr'
    · exact h.lsnDone r' hr' t rid w ht
    · rw [List.mem_singleton.1 hr', htarget] at ht
      cases ht
  lsnFrom t p hp := by
    rcases h.lsnFrom t p hp with heq | ⟨r', hr', heq⟩
    · exact .inl heq
    · exact .inr ⟨r', by simp [hr'], heq⟩

/-- The slot's writes up to the page's lsn are those already redone, while the page is older than the next record. -/
theorem RedoInv.slotLog_upTo (h : RedoInv fhs₀ S (L₁ ++ L₂) L₁ fhs) {ρ : Rid} {lsn : Int}
    (hle : fhs.lsnAt t ρ.pageNo ≤ lsn) (hlt : ∀ r ∈ L₂, r.body.writeOn t ρ ≠ none → lsn < r.lsn) :
    slotLog (upTo (L₁ ++ L₂) lsn) t ρ = slotLog L₁ t ρ := by
  refine Rmdb.slotLog_upTo (fun r hr hne => ?_) hlt
  obtain ⟨w, hw⟩ := Option.ne_none_iff_exists'.1 hne
  exact (h.lsnDone r hr t ρ w (LogBody.writeOn_eq_some.1 hw)).trans hle

/-- One record of the log. -/
theorem RedoInv.step (hL : LogOk fhs₀ (L₁ ++ r :: L₂)) (hS : ∀ t rid w, r.body.target = some (t, rid, w) → S t rid)
    (h : RedoInv fhs₀ S (L₁ ++ r :: L₂) L₁ fhs) :
    ∃ fhs', redoRecord fhs r = .ok fhs' ∧ RedoInv fhs₀ S (L₁ ++ r :: L₂) (L₁ ++ [r]) fhs' := by
  cases htarget : r.body.target with
  | none =>
    refine ⟨fhs, ?_, h.skip htarget⟩
    cases hb : r.body <;> simp [hb, LogBody.target] at htarget <;> simp [redoRecord, hb]
  | some x =>
    obtain ⟨t, rid, w⟩ := x
    have hvalid₀ := hL.valid r (by simp)
    have hvalid : ValidFor fhs r := by
      refine ⟨fun t rid w ht => ?_⟩
      have := hvalid₀.valid t rid w ht
      rwa [h.names, (h.shape t).perPage, (h.shape t).recordSize]
    obtain ⟨ht, h1, -⟩ := hvalid.valid t rid w htarget
    have hwrite : r.body.writeOn t rid = some w := LogBody.writeOn_of_target htarget
    -- later records have larger lsns
    have hsorted : ∀ r' ∈ r :: L₂, r.lsn ≤ r'.lsn := by
      have hp := (List.pairwise_append.1 hL.sorted).2.1
      intro r' hr'
      rcases List.mem_cons.1 hr' with rfl | hr'
      · exact le_rfl
      · exact (List.rel_of_pairwise_cons hp hr').le
    have hlater : ∀ r' ∈ L₂, r.lsn < r'.lsn := fun r' hr' =>
      List.rel_of_pairwise_cons (List.pairwise_append.1 hL.sorted).2.1 hr'
    have hlinked : w.old = SlotWrite.final none (slotLog L₁ t rid) := by
      have := hL.linked t rid
      rw [List.append_cons, slotLog_append, slotLog_append, slotLog_single htarget] at this
      exact (SlotWrite.linked_concat.1 (SlotWrite.linked_append.1 this).1).2
    have hpage : w.old ≠ none → rid.pageNo < (fhs.file t).fileHdr.numPages := by
      intro hne
      have hsome : slotLog L₁ t rid ≠ [] := fun hnil => hne (by rw [hlinked, hnil]; rfl)
      rw [Ne, slotLog_eq_nil] at hsome
      push Not at hsome
      obtain ⟨r', hr', hw'⟩ := hsome
      obtain ⟨w', hw'⟩ := Option.ne_none_iff_exists'.1 hw'
      exact h.pages r' hr' t rid w' (LogBody.writeOn_eq_some.1 hw')
    have hold : fhs.lsnAt t rid.pageNo < r.lsn → fhs.recordAt t rid = w.old := by
      intro hlt
      rcases h.slot t rid (hS _ _ _ htarget) h1 with ⟨hall, -⟩ | ⟨-, heq⟩
      · have h1' := hall r (by simp) (by simp [hwrite])
        have h2' := h.lsnMono t rid.pageNo h1
        omega
      · rw [heq, replay, h.slotLog_upTo le_rfl fun r' hr' _ => hlt.trans_le (hsorted r' hr'), hlinked]
    obtain ⟨fh, heq, hr⟩ := redoRecord_spec h.ready hvalid htarget hpage hold
    have hview := fun t' => hr.view t'
    refine ⟨_, heq, ⟨⟨h.names, fun t' => ?_⟩, fun t' ht' => ?_, fun t' => ?_, fun r' hr' t' rid' w' ht' => ?_,
      fun t' p hp => ?_, fun r' hr' t' rid' w' ht' => ?_, fun t' p hp => ?_, fun t' ρ hρ hρ1 => ?_⟩⟩
    · rw [Fhs.set_file]
      split
      · next he =>
        subst he
        exact ⟨hr.tabName.trans (h.shape t').tabName, hr.recordSize.trans (h.shape t').recordSize,
          hr.perPage.trans (h.shape t').perPage⟩
      · exact h.shape t'
    · rw [Fhs.set_file]
      split
      · exact hr.ready
      · exact h.ready t' ht'
    · rw [Fhs.set_file]
      have := h.numPages t'
      split
      · next he =>
        subst he
        rw [hr.numPages]
        omega
      · exact this
    · have hnp := hr.numPages
      rcases List.mem_append.1 hr' with hr' | hr'
      · have := h.pages r' hr' t' rid' w' ht'
        rw [Fhs.set_file]
        split
        · next he =>
          subst he
          omega
        · exact this
      · rw [List.mem_singleton.1 hr', htarget] at ht'
        obtain ⟨rfl, rfl, rfl⟩ : t = t' ∧ rid = rid' ∧ w = w' := by simpa using ht'
        rw [Fhs.set_file, if_pos rfl]
        omega
    · have := h.lsnMono t' p hp
      rw [(hview t').2 p hp]
      split <;> omega
    · rcases List.mem_append.1 hr' with hr' | hr'
      · have := h.lsnDone r' hr' t' rid' w' ht'
        rw [(hview t').2 _ ((hL.valid r' (by simp [hr'])).valid _ _ _ ht').2.1]
        split <;> omega
      · rw [List.mem_singleton.1 hr', htarget] at ht'
        obtain ⟨rfl, rfl, rfl⟩ : t = t' ∧ rid = rid' ∧ w = w' := by simpa using ht'
        rw [(hview t).2 _ h1, if_pos ⟨rfl, rfl⟩, List.mem_singleton.1 hr']
        omega
    · rw [(hview t').2 p hp]
      split
      · next he =>
        obtain ⟨rfl, rfl⟩ := he
        rcases le_total r.lsn (fhs.lsnAt t' rid.pageNo) with hle | hle
        · rw [max_eq_left hle]
          rcases h.lsnFrom t' rid.pageNo hp with heq | ⟨r', hr', heq⟩
          · exact .inl heq
          · exact .inr ⟨r', by simp [hr'], heq⟩
        · exact .inr ⟨r, by simp, by rw [max_eq_right hle]⟩
      · rcases h.lsnFrom t' p hp with heq | ⟨r', hr', heq⟩
        · exact .inl heq
        · exact .inr ⟨r', by simp [hr'], heq⟩
    · have hlsn := (hview t').2 _ hρ1
      have hrec := (hview t').1 ρ
      by_cases hold' : (t' = t ∧ ρ.pageNo = rid.pageNo) ∧ fhs.lsnAt t rid.pageNo < r.lsn
      · -- the page was older: it now has the record's lsn
        obtain ⟨⟨rfl, hpe⟩, hlt⟩ := hold'
        rw [if_pos ⟨rfl, hpe⟩, hpe, max_eq_right hlt.le] at hlsn
        have hdone : slotLog (upTo (L₁ ++ r :: L₂) r.lsn) t' ρ = slotLog (L₁ ++ [r]) t' ρ := by
          rw [List.append_cons]
          refine Rmdb.slotLog_upTo (fun r' hr' hne => ?_) fun r' hr' _ => hlater r' hr'
          rcases List.mem_append.1 hr' with hr' | hr'
          · obtain ⟨w', hw'⟩ := Option.ne_none_iff_exists'.1 hne
            have := h.lsnDone r' hr' t' ρ w' (LogBody.writeOn_eq_some.1 hw')
            rw [hpe] at this
            omega
          · rw [List.mem_singleton.1 hr']
        rw [hpe, hlsn]
        by_cases hρe : ρ = rid
        · right
          refine ⟨fun hall => ?_, ?_⟩
          · have h1' := hall r (by simp) (by simp [hρe, hwrite])
            have h2' := h.lsnMono t' ρ.pageNo hρ1
            rw [hpe] at h1' h2'
            omega
          · rw [hrec, if_pos ⟨rfl, hρe, hlt⟩, replay, hdone, slotLog_append, hρe, slotLog_single htarget,
              SlotWrite.final_concat]
        · have hrec' : (fhs.set t' fh).recordAt t' ρ = fhs.recordAt t' ρ := by rw [hrec, if_neg (by simp [hρe])]
          refine (h.slot t' ρ hρ hρ1).imp (fun ⟨hall, heq⟩ => ⟨hall, hrec'.trans heq⟩) fun ⟨hnot, heq⟩ => ⟨hnot, ?_⟩
          have hnone : r.body.writeOn t' ρ = none := LogBody.writeOn_eq_none htarget fun he => hρe he.2.symm
          rw [hrec', heq, replay, replay, hdone, slotLog_append, slotLog_single_of_none hnone, List.append_nil,
            h.slotLog_upTo le_rfl fun r' hr' _ => by rw [hpe]; exact hlt.trans_le (hsorted r' hr')]
      · have hlsn' : (fhs.set t fh).lsnAt t' ρ.pageNo = fhs.lsnAt t' ρ.pageNo := by
          rw [hlsn]
          split
          · next he =>
            obtain ⟨rfl, hpe⟩ := he
            have : ¬ fhs.lsnAt t' rid.pageNo < r.lsn := fun hlt => hold' ⟨⟨rfl, hpe⟩, hlt⟩
            rw [hpe]
            omega
          · rfl
        have hrec' : (fhs.set t fh).recordAt t' ρ = fhs.recordAt t' ρ := by
          rw [hrec, if_neg]
          rintro ⟨rfl, rfl, hlt⟩
          exact hold' ⟨⟨rfl, rfl⟩, hlt⟩
        rw [hlsn', SlotRedone, hrec']
        exact h.slot t' ρ hρ hρ1

theorem RedoInv.run (hL : LogOk fhs₀ L) (hS : ∀ r ∈ L, ∀ t rid w, r.body.target = some (t, rid, w) → S t rid)
    (hsplit : L = L₁ ++ L₂) (h : RedoInv fhs₀ S L L₁ fhs) :
    ∃ fhs', L₂.foldlM redoRecord fhs = .ok fhs' ∧ RedoInv fhs₀ S L L fhs' := by
  induction L₂ generalizing L₁ fhs with
  | nil => exact ⟨fhs, rfl, by rw [List.append_nil] at hsplit; rwa [← hsplit] at h⟩
  | cons r L₂ ih =>
    subst hsplit
    obtain ⟨fhs₁, heq, hinv⟩ := h.step hL (hS r (by simp))
    obtain ⟨fhs₂, heq', hinv'⟩ := ih (show L₁ ++ r :: L₂ = (L₁ ++ [r]) ++ L₂ by simp) hinv
    exact ⟨fhs₂, by simp only [List.foldlM_cons, heq, bind, Except.bind]; exact heq', hinv'⟩

/-- `redo` succeeds, and leaves in each slot what the whole log writes there, unless the page already had all of it. -/
theorem redo_spec (hL : LogOk fhs L) (hready : fhs.Ready)
    (hS : ∀ r ∈ L, ∀ t rid w, r.body.target = some (t, rid, w) → S t rid)
    (himage : ∀ t ρ, S t ρ → 1 ≤ ρ.pageNo → SlotImage L fhs t ρ) :
    ∃ fhs', redo L fhs = .ok fhs' ∧ RedoInv fhs S L L fhs' ∧
      ∀ t ρ, S t ρ → 1 ≤ ρ.pageNo → SlotRedone fhs L fhs' t ρ L := by
  have hstart : RedoInv fhs S L [] fhs :=
    { names := rfl
      shape := fun t => ⟨rfl, rfl, rfl⟩
      ready := hready
      numPages := fun t => le_rfl
      pages := by simp
      lsnMono := fun t p _ => le_rfl
      lsnDone := by simp
      lsnFrom := fun t p _ => .inl rfl
      slot := fun t ρ hρ h1 => by
        by_cases hall : AllLe L t ρ (fhs.lsnAt t ρ.pageNo)
        · exact .inl ⟨hall, rfl⟩
        · exact .inr ⟨hall, (himage t ρ hρ h1).resolve_right hall⟩ }
  obtain ⟨fhs', heq, hinv⟩ := hstart.run hL hS rfl
  refine ⟨fhs', heq, hinv, fun t ρ hρ h1 => ?_⟩
  have hall : AllLe L t ρ (fhs'.lsnAt t ρ.pageNo) := fun r hr hne => by
    obtain ⟨w, hw⟩ := Option.ne_none_iff_exists'.1 hne
    exact hinv.lsnDone r hr t ρ w (LogBody.writeOn_eq_some.1 hw)
  refine (hinv.slot t ρ hρ h1).imp id fun ⟨hnot, h⟩ => ⟨hnot, ?_⟩
  rw [h, replay, slotLog_upTo_of_allLe hall, replay]

end redo

/-! ## Undo -/

section undo
variable {fhs fhs' : Fhs} {L : List LogRecord} {r : LogRecord} {t : TabName} {rid : Rid} {w : SlotWrite Bytes}
  {a : TxnSets}

/-- The losers' writes to a slot. -/
def loserLog (a : TxnSets) (L : List LogRecord) (t : TabName) (ρ : Rid) : List (SlotWrite Bytes) :=
  slotLog (L.filter (a.loser ·.logTid)) t ρ

/-- Only the records change. -/
structure UndoneFrom (fhs fhs' : Fhs) : Prop extends Fhs.SameShape fhs fhs' where
  ready : fhs'.Ready
  numPages : ∀ t, (fhs'.file t).fileHdr.numPages = (fhs.file t).fileHdr.numPages
  lsnAt : ∀ t p, 1 ≤ p → fhs'.lsnAt t p = fhs.lsnAt t p

theorem UndoneFrom.refl (h : fhs.Ready) : UndoneFrom fhs fhs :=
  ⟨⟨rfl, fun _ => ⟨rfl, rfl, rfl⟩⟩, h, fun _ => rfl, fun _ _ _ => rfl⟩

theorem undoRecord_spec (hready : fhs.Ready) (hvalid : ValidFor fhs r)
    (hpages : ∀ t rid w, r.body.target = some (t, rid, w) → rid.pageNo < (fhs.file t).fileHdr.numPages) :
    ∃ fhs', undoRecord a fhs r = .ok fhs' ∧ UndoneFrom fhs fhs' ∧ ∀ t ρ, fhs'.recordAt t ρ =
      SlotWrite.undoAll (loserLog a [r] t ρ) (fhs.recordAt t ρ) := by
  by_cases hlose : a.loser r.logTid = true
  swap
  · refine ⟨fhs, by simp [undoRecord, hlose], .refl hready, fun t ρ => ?_⟩
    simp [loserLog, hlose, SlotWrite.undoAll]
  have hlog : ∀ t ρ, loserLog a [r] t ρ = slotLog [r] t ρ := fun t ρ => by simp [loserLog, hlose]
  simp only [hlog]
  cases htarget : r.body.target with
  | none =>
    refine ⟨fhs, ?_, .refl hready, fun t ρ => ?_⟩
    · cases hb : r.body <;> simp [hb, LogBody.target] at htarget <;> simp [undoRecord, hb]
    · rw [slotLog_single_of_none (by simp [LogBody.writeOn, htarget])]
      rfl
  | some x =>
    obtain ⟨t, rid, w⟩ := x
    obtain ⟨ht, h1, -, hfits⟩ := hvalid.valid _ _ _ htarget
    have hf := hready t ht
    have hlt := hpages t rid w htarget
    suffices h : ∃ fh, undoRecord a fhs r = .ok (fhs.set t fh) ∧
        (fhs.file t).Undone fh rid (w.undo (fhs.recordAt t rid)) by
      obtain ⟨fh, heq, hu⟩ := h
      refine ⟨_, heq, ⟨⟨rfl, fun t' => ?_⟩, fun t' ht' => ?_, fun t' => ?_, fun t' p hp => ?_⟩, fun t' ρ => ?_⟩
      · rw [Fhs.set_file]
        split
        · next he =>
          subst he
          exact hu.toSameShape
        · exact ⟨rfl, rfl, rfl⟩
      · rw [Fhs.set_file]
        split
        · exact hu.ready
        · exact hready t' ht'
      · rw [Fhs.set_file]
        split
        · next he => rw [he, hu.numPages]
        · rfl
      · rw [Fhs.lsnAt, Fhs.set_file]
        split
        · next he => rw [he, hu.lsnAt p hp, Fhs.lsnAt]
        · rfl
      · rw [Fhs.recordAt, Fhs.set_file]
        by_cases he : t' = t
        · subst he
          rw [if_pos rfl, hu.recordAt]
          by_cases hρ : ρ = rid
          · rw [if_pos hρ, hρ, slotLog_single htarget]
            rfl
          · rw [if_neg hρ, slotLog_single_of_none (LogBody.writeOn_eq_none htarget fun h => hρ h.2.symm)]
            rfl
        · rw [if_neg he, slotLog_single_of_none (LogBody.writeOn_eq_none htarget fun h => he h.1.symm)]
          rfl
    cases hb : r.body with
    | «begin» | commit | abort => simp [hb, LogBody.target] at htarget
    | insert v rid' t' =>
      obtain ⟨rfl, rfl, rfl⟩ : t' = t ∧ rid' = rid ∧ SlotWrite.insert v = w := by
        simpa [hb, LogBody.target] using htarget
      obtain ⟨fh, heq, hu⟩ := RmFile.undoInsert_spec hf h1 hlt v
      exact ⟨fh, by simp only [undoRecord, hlose, if_true, hb]; exact Fhs.modify_eq ht heq, hu⟩
    | delete v rid' t' =>
      obtain ⟨rfl, rfl, rfl⟩ : t' = t ∧ rid' = rid ∧ SlotWrite.delete v = w := by
        simpa [hb, LogBody.target] using htarget
      obtain ⟨fh, heq, hu⟩ := RmFile.undoDelete_spec hf h1 hlt (hfits v (.inl rfl))
      exact ⟨fh, by simp only [undoRecord, hlose, if_true, hb]; exact Fhs.modify_eq ht heq, hu⟩
    | update o n rid' t' =>
      obtain ⟨rfl, rfl, rfl⟩ : t' = t ∧ rid' = rid ∧ SlotWrite.update o n = w := by
        simpa [hb, LogBody.target] using htarget
      obtain ⟨fh, heq, hu⟩ := RmFile.undoUpdate_spec hf h1 hlt (hfits o (.inl rfl)) n
      exact ⟨fh, by simp only [undoRecord, hlose, if_true, hb]; exact Fhs.modify_eq ht heq, hu⟩

theorem UndoneFrom.trans {fhs₁ fhs₂ fhs₃ : Fhs} (h : UndoneFrom fhs₁ fhs₂) (h' : UndoneFrom fhs₂ fhs₃) :
    UndoneFrom fhs₁ fhs₃ where
  toSameShape := h.toSameShape.trans h'.toSameShape
  ready := h'.ready
  numPages t := (h'.numPages t).trans (h.numPages t)
  lsnAt t p hp := (h'.lsnAt t p hp).trans (h.lsnAt t p hp)

theorem ValidFor.congr (h : ValidFor fhs r) (hs : Fhs.SameShape fhs fhs') : ValidFor fhs' r := by
  refine ⟨fun t rid w ht => ?_⟩
  have := h.valid t rid w ht
  rwa [hs.names, (hs.shape t).perPage, (hs.shape t).recordSize]

theorem loserLog_concat (a : TxnSets) (L : List LogRecord) (r : LogRecord) (t : TabName) (ρ : Rid) :
    loserLog a (L ++ [r]) t ρ = loserLog a L t ρ ++ loserLog a [r] t ρ := by
  simp [loserLog]

/-- The undo loop takes back the losers' writes in every slot, by induction on the log from its end. -/
theorem undoLog_spec (hready : fhs.Ready) (hvalid : ∀ r ∈ L, ValidFor fhs r)
    (hpages : ∀ r ∈ L, ∀ t rid w, r.body.target = some (t, rid, w) → rid.pageNo < (fhs.file t).fileHdr.numPages) :
    ∃ fhs', undoLog a L fhs = .ok fhs' ∧ UndoneFrom fhs fhs' ∧ ∀ t ρ, fhs'.recordAt t ρ =
      SlotWrite.undoAll (loserLog a L t ρ) (fhs.recordAt t ρ) := by
  induction L using List.reverseRecOn generalizing fhs with
  | nil => exact ⟨fhs, rfl, .refl hready, fun _ _ => rfl⟩
  | append_singleton L r ih =>
    obtain ⟨fhs₁, heq, hu, hrec⟩ := undoRecord_spec (a := a) hready (hvalid r (by simp)) (hpages r (by simp))
    obtain ⟨fhs₂, heq', hu', hrec'⟩ := ih hu.ready (fun r' hr' => (hvalid r' (by simp [hr'])).congr hu.toSameShape)
      fun r' hr' t rid w ht => by
        rw [hu.numPages]
        exact hpages r' (by simp [hr']) t rid w ht
    refine ⟨fhs₂, ?_, hu.trans hu', fun t ρ => ?_⟩
    · simp only [undoLog, List.reverse_append, List.reverse_singleton, List.singleton_append, List.foldlM_cons, heq,
        bind, Except.bind]
      exact heq'
    · rw [hrec', hrec, loserLog_concat]
      simp [SlotWrite.undoAll]

end undo

/-! ## The free lists -/

section rebuild
variable {fhs fhs' : Fhs}

/-- The tables with their records untouched and the chains of `ts` rebuilt. -/
structure Rebuilt (fhs fhs' : Fhs) (ts : List TabName) : Prop where
  names : fhs'.names = fhs.names
  same : ∀ t, (fhs.file t).SameRecords (fhs'.file t)
  ready : fhs'.Ready
  inv : ∀ t ∈ ts, ∃ ps, (fhs'.file t).HeapInv ps

theorem Rebuilt.step {ts : List TabName} {t : TabName} (ht : t ∈ fhs.names) (h : Rebuilt fhs fhs' ts) :
    ∃ fhs'', fhs'.modify t (·.rebuildFreeList) = .ok fhs'' ∧ Rebuilt fhs fhs'' (ts ++ [t]) := by
  have ht' : t ∈ fhs'.names := by rwa [h.names]
  obtain ⟨fh, ps, heq, hinv, -, hsame⟩ := RmFile.rebuildFreeList_spec (h.ready t ht').toPresent
  refine ⟨_, Fhs.modify_eq ht' heq, ⟨h.names, fun t' => ?_, fun t' ht'' => ?_, fun t' hmem => ?_⟩⟩
  · rw [Fhs.set_file]
    split
    · next he => exact he ▸ (h.same t).trans hsame
    · exact h.same t'
  · rw [Fhs.set_file]
    split
    · exact hinv.toReady
    · exact h.ready t' ht''
  · rw [Fhs.set_file]
    split
    · exact ⟨ps, hinv⟩
    · next he =>
      rcases List.mem_append.1 hmem with hmem | hmem
      · exact h.inv t' hmem
      · exact absurd (List.mem_singleton.1 hmem) he

theorem rebuildFreeLists_spec (h : fhs.Ready) :
    ∃ fhs', rebuildFreeLists fhs = .ok fhs' ∧ Rebuilt fhs fhs' fhs.names := by
  suffices hrun : ∀ (ts us : List TabName) (fhs₁ : Fhs), us ++ ts = fhs.names → Rebuilt fhs fhs₁ us →
      ∃ fhs', ts.foldlM (fun fhs t => fhs.modify t (·.rebuildFreeList)) fhs₁ = .ok fhs' ∧
        Rebuilt fhs fhs' fhs.names from
    hrun fhs.names [] fhs rfl ⟨rfl, fun _ => .refl _, h, by simp⟩
  intro ts
  induction ts with
  | nil =>
    intro us fhs₁ hus hreb
    rw [List.append_nil] at hus
    exact ⟨fhs₁, rfl, hus ▸ hreb⟩
  | cons t ts ih =>
    intro us fhs₁ hus hreb
    obtain ⟨fhs₂, heq, hreb'⟩ := hreb.step (t := t) (by simp [← hus])
    obtain ⟨fhs₃, heq', hreb''⟩ := ih (us ++ [t]) fhs₂ (by simp [← hus]) hreb'
    exact ⟨fhs₃, by simp only [List.foldlM_cons, heq, bind, Except.bind]; exact heq', hreb''⟩

end rebuild

/-! ## All of recovery -/

/-- The state after recovery. -/
structure Recovered (fhs : Fhs) (L : List LogRecord) (fhs' : Fhs) : Prop extends Fhs.SameShape fhs fhs' where
  inv : ∀ t ∈ fhs.names, ∃ ps, (fhs'.file t).HeapInv ps
  numPages : ∀ t, (fhs.file t).fileHdr.numPages ≤ (fhs'.file t).fileHdr.numPages
  pages : ∀ r ∈ L, ∀ t rid w, r.body.target = some (t, rid, w) → rid.pageNo < (fhs'.file t).fileHdr.numPages
  lsnDone : ∀ r ∈ L, ∀ t rid w, r.body.target = some (t, rid, w) → r.lsn ≤ fhs'.lsnAt t rid.pageNo
  lsnFrom : ∀ t p, 1 ≤ p → fhs'.lsnAt t p = fhs.lsnAt t p ∨ ∃ r ∈ L, fhs'.lsnAt t p = r.lsn

/-- `recover` succeeds; each slot is brought to the end of its history, unless its page already had all of it, and then
the losers' writes are taken back. -/
theorem recover_spec {fhs : Fhs} {L : List LogRecord} {S : TabName → Rid → Prop} (hL : LogOk fhs L)
    (hready : fhs.Ready) (hS : ∀ r ∈ L, ∀ t rid w, r.body.target = some (t, rid, w) → S t rid)
    (himage : ∀ t ρ, S t ρ → 1 ≤ ρ.pageNo → SlotImage L fhs t ρ) :
    ∃ fhs', recover L fhs = .ok fhs' ∧ Recovered fhs L fhs' ∧ ∀ t ρ, S t ρ → 1 ≤ ρ.pageNo →
      ∃ c, fhs'.recordAt t ρ = SlotWrite.undoAll (loserLog (analyze L) L t ρ) c ∧
        (AllLe L t ρ (fhs.lsnAt t ρ.pageNo) ∧ c = fhs.recordAt t ρ ∨
          ¬ AllLe L t ρ (fhs.lsnAt t ρ.pageNo) ∧ c = replay L t ρ) := by
  obtain ⟨fhs₁, heq₁, hredo, hslot⟩ := redo_spec hL hready hS himage
  obtain ⟨fhs₂, heq₂, hundo, hrec⟩ := undoLog_spec (a := analyze L) hredo.ready
    (fun r hr => (hL.valid r hr).congr hredo.toSameShape) hredo.pages
  obtain ⟨fhs₃, heq₃, hreb⟩ := rebuildFreeLists_spec hundo.ready
  refine ⟨fhs₃, ?_, ⟨⟨?_, fun t => ?_⟩, fun t ht => ?_, fun t => ?_, fun r hr t rid w ht => ?_,
    fun r hr t rid w ht => ?_, fun t p hp => ?_⟩, fun t ρ hρ h1 => ?_⟩
  · simp only [recover, heq₁, bind, Except.bind, undo, heq₂, heq₃]
  · rw [hreb.names, hundo.names, hredo.names]
  · have hs := hreb.same t
    have hs₂ := hundo.shape t
    have hs₁ := hredo.shape t
    exact ⟨hs.tabName.trans (hs₂.tabName.trans hs₁.tabName), hs.recordSize.trans (hs₂.recordSize.trans hs₁.recordSize),
      hs.perPage.trans (hs₂.perPage.trans hs₁.perPage)⟩
  · exact hreb.inv t (by rwa [hundo.names, hredo.names])
  · rw [(hreb.same t).numPages, hundo.numPages]
    exact hredo.numPages t
  · rw [(hreb.same t).numPages, hundo.numPages]
    exact hredo.pages r hr t rid w ht
  · rw [Fhs.lsnAt, (hreb.same t).lsnAt, ← Fhs.lsnAt, hundo.lsnAt _ _ ((hL.valid r hr).valid _ _ _ ht).2.1]
    exact hredo.lsnDone r hr t rid w ht
  · rw [Fhs.lsnAt, (hreb.same t).lsnAt, ← Fhs.lsnAt, hundo.lsnAt _ _ hp]
    exact hredo.lsnFrom t p hp
  · refine ⟨fhs₁.recordAt t ρ, ?_, hslot t ρ hρ h1⟩
    rw [Fhs.recordAt, (hreb.same t).recordAt, ← Fhs.recordAt, hrec]

end Rmdb
