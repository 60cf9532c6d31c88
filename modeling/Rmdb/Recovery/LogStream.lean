import Rmdb.Recovery.LogCodec

/-!
# The stream of the log

- `LogFile.calls`: calls of `add_log_to_buffer` and `flush_log_to_disk` in any order whose writes all succeed, with the
  records that were appended;
- `Streams`: file and buffer together hold the serialized records, numbered one after the other by an `int`;
- `calls_complete`: nothing is lost or written twice, the buffer is never overrun, and a flush makes everything durable.
  The LSNs ascend until the `int` wraps.
-/

namespace Rmdb

open Lib

/-- A call of the log manager. -/
inductive LogCall
  | add (logTid prevLsn : Int) (body : LogBody)
  | flush

/-- The record fits the empty buffer. -/
def LogCall.Fits : LogCall → Prop
  | .add _ _ body => (body.totLen : Int) ≤ logBufferSize
  | .flush => True

instance (c : LogCall) : Decidable c.Fits := by
  cases c <;> simp only [LogCall.Fits] <;> infer_instance

/-- What is to be appended. -/
def LogCall.content : LogCall → Option (Int × Int × LogBody)
  | .add logTid prevLsn body => some (logTid, prevLsn, body)
  | .flush => none

def LogRecord.content (r : LogRecord) : Int × Int × LogBody := (r.logTid, r.prevLsn, r.body)

theorem toInt32_toInt32_add (v w : Int) : toInt32 (toInt32 v + w) = toInt32 (v + w) := by
  simp only [toInt32, BitVec.toInt_ofInt, Int.bmod_add_bmod]

namespace LogFile

/-- One call with a write that succeeds: the record that it appended, if any. -/
def call (lf : LogFile) : LogCall → Option LogRecord × LogFile
  | .add logTid prevLsn body =>
    match lf.addLogToBuffer logTid prevLsn body lf.buffer.length with
    | (.ok lsn, lf) => (some ⟨lsn, logTid, prevLsn, body⟩, lf)
    | (.error _, lf) => (none, lf)
  | .flush => (none, (lf.flushLogToDisk lf.buffer.length).2)

def calls (lf : LogFile) : List LogCall → List LogRecord × LogFile
  | [] => ([], lf)
  | c :: cs =>
    let (r, lf) := lf.call c
    let (rs, lf) := lf.calls cs
    (r.toList ++ rs, lf)

/-! ## One call -/

section call
variable {lf : LogFile} {logTid prevLsn : Int} {body : LogBody}

/-- A flush that succeeds moves the buffer into the file. -/
theorem flushLogToDisk_all (lf : LogFile) : ∃ persistLsn, lf.flushLogToDisk lf.buffer.length =
    (.ok (), { lf with dbLog := lf.dbLog ++ lf.buffer, buffer := [], persistLsn := persistLsn }) := by
  unfold flushLogToDisk
  split
  · refine ⟨lf.lastLsnInBuffer, ?_⟩
    rw [writeLog, if_neg (Nat.lt_irrefl _), List.take_length]
  · next h =>
    have hnil : lf.buffer = [] := List.eq_nil_of_length_eq_zero (by omega)
    refine ⟨lf.persistLsn, ?_⟩
    rw [hnil, List.append_nil, ← hnil]

/-- A record is appended, behind the buffer or behind the file with the old buffer. -/
theorem addLogToBuffer_all (hfit : (body.totLen : Int) ≤ logBufferSize) :
    ∃ lf', lf.addLogToBuffer logTid prevLsn body lf.buffer.length = (.ok lf.globalLsn, lf') ∧
      lf'.globalLsn = toInt32 (lf.globalLsn + 1) ∧
      lf'.dbLog ++ lf'.buffer = lf.dbLog ++ lf.buffer ++ LogRecord.serialize ⟨lf.globalLsn, logTid, prevLsn, body⟩ ∧
      (lf'.buffer.length : Int) ≤ logBufferSize := by
  have hlen := length_serialize ⟨lf.globalLsn, logTid, prevLsn, body⟩
  change _ = body.totLen at hlen
  unfold addLogToBuffer
  by_cases hfull : lf.isFull body.totLen = true
  · obtain ⟨persistLsn, hflush⟩ := flushLogToDisk_all lf
    rw [if_pos hfull, hflush]
    refine ⟨_, rfl, rfl, ?_, ?_⟩
    · rw [List.nil_append]
    · rw [List.nil_append, hlen]
      exact hfit
  · rw [if_neg hfull]
    refine ⟨_, rfl, rfl, ?_, ?_⟩
    · rw [List.append_assoc]
    · have hroom : ¬logBufferSize < (lf.buffer.length + body.totLen : Nat) := by simpa [isFull] using hfull
      rw [List.length_append, hlen]
      exact Int.not_lt.1 hroom

end call

/-! ## All calls -/

/-- The records `rs` were appended in order under the next LSNs, each once, and the buffer has not been overrun. -/
structure Appended (lf : LogFile) (rs : List LogRecord) (lf' : LogFile) : Prop where
  bytes : lf'.dbLog ++ lf'.buffer = lf.dbLog ++ lf.buffer ++ serializeAll rs
  room : (lf'.buffer.length : Int) ≤ logBufferSize
  globalLsn : lf'.globalLsn = toInt32 (lf.globalLsn + rs.length)
  lsn : ∀ i (h : i < rs.length), rs[i].lsn = toInt32 (lf.globalLsn + i)

theorem Appended.refl {lf : LogFile} (hroom : (lf.buffer.length : Int) ≤ logBufferSize) (hg : IsInt lf.globalLsn) :
    Appended lf [] lf where
  bytes := by rw [serializeAll, List.flatMap_nil, List.append_nil]
  room := hroom
  globalLsn := by rw [List.length_nil, Nat.cast_zero, add_zero, toInt32_of_isInt hg]
  lsn := nofun

theorem Appended.trans {lf lf' lf'' : LogFile} {rs rs' : List LogRecord} (h : Appended lf rs lf')
    (h' : Appended lf' rs' lf'') : Appended lf (rs ++ rs') lf'' where
  bytes := by rw [h'.bytes, h.bytes, serializeAll, serializeAll, serializeAll, List.flatMap_append, List.append_assoc]
  room := h'.room
  globalLsn := by
    rw [h'.globalLsn, h.globalLsn, toInt32_toInt32_add, List.length_append, Nat.cast_add, add_assoc]
  lsn := by
    intro i hi
    by_cases hlt : i < rs.length
    · rw [List.getElem_append_left hlt]
      exact h.lsn i hlt
    · rw [List.length_append] at hi
      rw [List.getElem_append_right (by omega), h'.lsn, h.globalLsn, toInt32_toInt32_add]
      congr 1
      omega

/-- What one call appends. -/
theorem appended_call {lf : LogFile} {c : LogCall} (hfit : c.Fits) (hg : IsInt lf.globalLsn) :
    Appended lf (lf.call c).1.toList (lf.call c).2 ∧ (lf.call c).1.map LogRecord.content = c.content := by
  cases c with
  | add logTid prevLsn body =>
    obtain ⟨lf', hadd, hglobal, hbytes, hroom'⟩ := @addLogToBuffer_all lf logTid prevLsn body hfit
    simp only [call, hadd]
    refine ⟨⟨?_, hroom', by simpa using hglobal, ?_⟩, rfl⟩
    · simpa [serializeAll] using hbytes
    · intro i hi
      have h0 : i = 0 := by simpa using hi
      subst h0
      simpa using (toInt32_of_isInt hg).symm
  | flush =>
    obtain ⟨persistLsn, hflush⟩ := flushLogToDisk_all lf
    simp only [call, hflush]
    refine ⟨⟨?_, ?_, ?_, ?_⟩, rfl⟩
    · simp [serializeAll]
    · exact Int.le_of_lt (show 0 < logBufferSize by decide)
    · simpa using (toInt32_of_isInt hg).symm
    · intro i hi
      cases hi

theorem isInt_toInt32 (v : Int) : IsInt (toInt32 v) := by
  have h := BitVec.toInt_lt (x := BitVec.ofInt 32 v)
  have h' := BitVec.le_toInt (x := BitVec.ofInt 32 v)
  exact ⟨h', h⟩

theorem appended_calls : ∀ {cs : List LogCall} {lf : LogFile}, (∀ c ∈ cs, c.Fits) →
    (lf.buffer.length : Int) ≤ logBufferSize → IsInt lf.globalLsn →
    Appended lf (lf.calls cs).1 (lf.calls cs).2 ∧ (lf.calls cs).1.map LogRecord.content = cs.filterMap LogCall.content
  | [], _, _, hroom, hg => ⟨Appended.refl hroom hg, rfl⟩
  | c :: cs, lf, hfit, hroom, hg => by
    obtain ⟨hcall, hcontent⟩ := appended_call (hfit c List.mem_cons_self) hg
    have hg' : IsInt (lf.call c).2.globalLsn := by
      rw [hcall.globalLsn]
      exact isInt_toInt32 _
    obtain ⟨hrest, hcontents⟩ := appended_calls (fun c' h => hfit c' (List.mem_cons_of_mem _ h)) hcall.room hg'
    refine ⟨hcall.trans hrest, ?_⟩
    simp only [calls, List.map_append, hcontents, List.filterMap_cons, ← hcontent]
    cases (lf.call c).1 <;> rfl

/-- The LSNs ascend while they fit the `int`. -/
theorem Appended.sorted {lf lf' : LogFile} {rs : List LogRecord} (h : Appended lf rs lf') (hg : IsInt lf.globalLsn)
    (hmax : lf.globalLsn + rs.length ≤ 2 ^ 31) : rs.Pairwise (·.lsn < ·.lsn) := by
  have hg := hg.1
  rw [List.pairwise_iff_getElem]
  intro i j hi hj hlt
  rw [h.lsn i hi, h.lsn j hj, toInt32_of_isInt ⟨by omega, by omega⟩, toInt32_of_isInt ⟨by omega, by omega⟩]
  omega

/-- **The log stream is complete and ordered.** From a log manager whose buffer is empty, after any calls: file and buffer
hold what the file held and then every record appended since, each once and in this order; the LSNs ascend up to the
largest `int`; the buffer is not overrun; a flush makes all of it durable. -/
theorem calls_complete {lf : LogFile} (hnew : lf.buffer = []) (hg : IsInt lf.globalLsn) {cs : List LogCall}
    (hfit : ∀ c ∈ cs, c.Fits) :
    (lf.calls cs).1.map LogRecord.content = cs.filterMap LogCall.content ∧
      (lf.calls cs).2.dbLog ++ (lf.calls cs).2.buffer = lf.dbLog ++ serializeAll (lf.calls cs).1 ∧
      (lf.globalLsn + (lf.calls cs).1.length ≤ 2 ^ 31 → (lf.calls cs).1.Pairwise (·.lsn < ·.lsn)) ∧
      ((lf.calls cs).2.buffer.length : Int) ≤ logBufferSize ∧
      ((lf.calls cs).2.call .flush).2.dbLog = lf.dbLog ++ serializeAll (lf.calls cs).1 := by
  have hroom : (lf.buffer.length : Int) ≤ logBufferSize := by
    rw [hnew]
    decide
  obtain ⟨happ, hcontent⟩ := appended_calls hfit hroom hg
  have hbytes := happ.bytes
  rw [hnew, List.append_nil] at hbytes
  refine ⟨hcontent, hbytes, happ.sorted hg, happ.room, ?_⟩
  obtain ⟨persistLsn, hflush⟩ := flushLogToDisk_all (lf.calls cs).2
  rw [call, hflush]
  exact hbytes

/-! ## A run -/

/-- A begin record, its flush and the commit record of a transaction. -/
def shortRun : List LogCall := [.add 1 (-1) .begin, .flush, .add 1 0 .commit]

theorem calls_complete_shortRun :
    ((start []).calls shortRun).1.map LogRecord.content = shortRun.filterMap LogCall.content ∧
      ((start []).calls shortRun).2.dbLog ++ ((start []).calls shortRun).2.buffer =
        [] ++ serializeAll ((start []).calls shortRun).1 ∧
      ((start []).globalLsn + ((start []).calls shortRun).1.length ≤ 2 ^ 31 →
        ((start []).calls shortRun).1.Pairwise (·.lsn < ·.lsn)) ∧
      (((start []).calls shortRun).2.buffer.length : Int) ≤ logBufferSize ∧
      (((start []).calls shortRun).2.call .flush).2.dbLog = [] ++ serializeAll ((start []).calls shortRun).1 := by
  apply calls_complete rfl
  · decide
  · decide

/-- The record with number 2147483648 gets the LSN -2147483648. -/
theorem not_sorted_wrapped : ¬∀ cs : List LogCall, (∀ c ∈ cs, c.Fits) →
    ((start []).calls cs).1.Pairwise (·.lsn < ·.lsn) := by
  intro h
  have hfit : ∀ c ∈ List.replicate (2 ^ 31 + 1) (LogCall.add 1 (-1) .begin), c.Fits := by
    intro c hc
    rw [(List.mem_replicate.1 hc).2]
    decide
  have hsorted := h _ hfit
  obtain ⟨happ, hcontent⟩ := @appended_calls _ (start []) hfit (by decide) (by decide)
  have hlen := congrArg List.length hcontent
  have hsome : LogCall.content (.add 1 (-1) .begin) = some (1, -1, .begin) := rfl
  rw [List.length_map, List.filterMap_replicate_of_some hsome, List.length_replicate] at hlen
  rw [List.pairwise_iff_getElem] at hsorted
  have hlt := hsorted 0 (2 ^ 31) (by omega) (by omega) (by decide)
  rw [happ.lsn, happ.lsn] at hlt
  exact absurd hlt (by decide)

end LogFile

end Rmdb
