import Mathlib.Tactic.Ring
import Rmdb.Common.Defs

/-!
# The write-ahead log

- `LogRecord`: the six record kinds of `log_manager.h` with the header they share; `LogRecord.totLen` is the
  `log_tot_len_` that the constructors compute;
- `LogManager`: the buffer and `db.log`, both as the records whose bytes they hold; `addLogToBuffer` and
  `flushLogToDisk` follow `log_manager.cpp`;
- `LogManager.stream`: everything appended so far, durable or not. Appending adds one record at its end and flushing
  does not change it.
-/

namespace Rmdb

/-- What follows the header of a log record, with the `log_type_`. -/
inductive LogBody
  | begin
  | commit
  | abort
  | insert (insertValue : Bytes) (rid : Rid) (tableName : TabName)
  | delete (deleteValue : Bytes) (rid : Rid) (tableName : TabName)
  | update (oldValue newValue : Bytes) (rid : Rid) (tableName : TabName)
  deriving DecidableEq

structure LogRecord where
  lsn : Int
  logTid : Int
  prevLsn : Int
  body : LogBody
  deriving DecidableEq

/-- A commit or abort record. -/
def LogBody.ends : LogBody → Prop
  | .commit | .abort => True
  | _ => False

instance (b : LogBody) : Decidable b.ends := by
  cases b <;> simp only [LogBody.ends] <;> infer_instance

/-- `LOG_HEADER_SIZE`: type, lsn, total length, transaction id, previous lsn. -/
def logHeaderSize : Nat := 24

/-- `log_tot_len_`: a value takes its `int` size, a rid two `int`s and a name its `size_t` size. -/
def LogBody.totLen : LogBody → Nat
  | .begin | .commit | .abort => logHeaderSize
  | .insert v _ t | .delete v _ t => logHeaderSize + 4 + v.length + 8 + (8 + t.utf8ByteSize)
  | .update o n _ t => logHeaderSize + (4 + o.length) + (4 + n.length) + 8 + (8 + t.utf8ByteSize)

def LogRecord.totLen (r : LogRecord) : Nat := r.body.totLen

/-- `LogManager`: `db.log` (`disk`) and the records in `log_buffer_`. -/
structure LogManager where
  globalLsn : Int
  persistLsn : Int
  lastLsnInBuffer : Int
  buffer : List LogRecord
  disk : List LogRecord

namespace LogManager

/-- The log manager of a new process over an existing `db.log`. -/
def start (disk : List LogRecord) : LogManager := ⟨0, invalidLsn, invalidLsn, [], disk⟩

/-- `log_buffer_.offset_`. -/
def offset (lm : LogManager) : Nat := (lm.buffer.map LogRecord.totLen).sum

/-- Write the buffer at the end of `db.log`. -/
def writeBuffer (lm : LogManager) : LogManager :=
  { lm with disk := lm.disk ++ lm.buffer, buffer := [], persistLsn := lm.lastLsnInBuffer }

/-- `flush_log_to_disk`. -/
def flushLogToDisk (lm : LogManager) : LogManager := if 0 < lm.offset then lm.writeBuffer else lm

/-- `add_log_to_buffer`: a full buffer is written first, then the record gets its lsn. -/
def addLogToBuffer (lm : LogManager) (tid : Int) (prevLsn : Int) (body : LogBody) : Int × LogManager :=
  let lm := if logBufferSize < (lm.offset + body.totLen : Nat) then lm.flushLogToDisk else lm
  let lsn := lm.globalLsn
  (lsn, { lm with
    globalLsn := lsn + 1
    lastLsnInBuffer := lsn
    buffer := lm.buffer ++ [⟨lsn, tid, prevLsn, body⟩] })

/-- Every record appended, in order. -/
def stream (lm : LogManager) : List LogRecord := lm.disk ++ lm.buffer

end LogManager

/-! ## Appending and flushing -/

theorem LogBody.totLen_pos (b : LogBody) : 0 < b.totLen := by
  cases b <;> simp only [LogBody.totLen, logHeaderSize] <;> omega

namespace LogManager

theorem offset_eq_zero {lm : LogManager} : lm.offset = 0 ↔ lm.buffer = [] := by
  cases h : lm.buffer with
  | nil => simp [offset, h]
  | cons r rs =>
    have := r.body.totLen_pos
    simp only [offset, h, List.map_cons, List.sum_cons, LogRecord.totLen, reduceCtorEq, iff_false]
    omega

@[simp] theorem stream_flushLogToDisk (lm : LogManager) : lm.flushLogToDisk.stream = lm.stream := by
  unfold flushLogToDisk
  split <;> simp [stream, writeBuffer]

@[simp] theorem buffer_flushLogToDisk (lm : LogManager) : lm.flushLogToDisk.buffer = [] := by
  unfold flushLogToDisk
  split
  · rfl
  · exact offset_eq_zero.1 (by omega)

@[simp] theorem globalLsn_flushLogToDisk (lm : LogManager) : lm.flushLogToDisk.globalLsn = lm.globalLsn := by
  unfold flushLogToDisk
  split <;> rfl

/-- After a flush `db.log` holds everything appended so far. -/
theorem disk_flushLogToDisk (lm : LogManager) : lm.flushLogToDisk.disk = lm.stream := by
  have h := stream_flushLogToDisk lm
  rwa [stream, buffer_flushLogToDisk, List.append_nil] at h

variable (lm : LogManager) (tid : Int) (prevLsn : Int) (body : LogBody)

@[simp] theorem addLogToBuffer_fst : (lm.addLogToBuffer tid prevLsn body).1 = lm.globalLsn := by
  unfold addLogToBuffer
  split <;> simp

@[simp] theorem globalLsn_addLogToBuffer :
    (lm.addLogToBuffer tid prevLsn body).2.globalLsn = lm.globalLsn + 1 := by
  unfold addLogToBuffer
  split <;> simp

@[simp] theorem lastLsn_addLogToBuffer :
    (lm.addLogToBuffer tid prevLsn body).2.lastLsnInBuffer = lm.globalLsn := by
  unfold addLogToBuffer
  split <;> simp

/-- One record is added at the end of the stream, under the next lsn. -/
@[simp] theorem stream_addLogToBuffer : (lm.addLogToBuffer tid prevLsn body).2.stream =
    lm.stream ++ [⟨lm.globalLsn, tid, prevLsn, body⟩] := by
  unfold addLogToBuffer
  split
  · have := stream_flushLogToDisk lm
    simp only [stream] at this ⊢
    simp [← this]
  · simp [stream]

/-- Appending makes no less durable. -/
theorem disk_addLogToBuffer : ∃ rs, (lm.addLogToBuffer tid prevLsn body).2.disk = lm.disk ++ rs := by
  unfold addLogToBuffer
  split
  · exact ⟨lm.buffer, by simp [disk_flushLogToDisk, stream]⟩
  · exact ⟨[], by simp⟩

theorem disk_flush_prefix : ∃ rs, lm.flushLogToDisk.disk = lm.disk ++ rs :=
  ⟨lm.buffer, by simp [disk_flushLogToDisk, stream]⟩

/-! ## The order of the lsns -/

/-- The lsns ascend, and those in the buffer are beyond `persist_lsn_`. -/
structure Wf (lm : LogManager) : Prop where
  sorted : lm.stream.Pairwise (·.lsn < ·.lsn)
  below : ∀ r ∈ lm.stream, r.lsn < lm.globalLsn
  buffered : ∀ r ∈ lm.buffer, lm.persistLsn < r.lsn ∧ r.lsn ≤ lm.lastLsnInBuffer
  persist : lm.persistLsn < lm.globalLsn
  last : lm.lastLsnInBuffer < lm.globalLsn

variable {lm tid prevLsn body}

theorem Wf.flushLogToDisk (h : lm.Wf) : lm.flushLogToDisk.Wf := by
  unfold LogManager.flushLogToDisk
  split
  · refine ⟨?_, ?_, by simp [writeBuffer], h.last, h.last⟩
    · simpa [stream, writeBuffer] using h.sorted
    · simpa [stream, writeBuffer] using h.below
  · exact h

theorem Wf.addLogToBuffer (h : lm.Wf) : (lm.addLogToBuffer tid prevLsn body).2.Wf := by
  have hstep : ∀ lm : LogManager, lm.Wf → Wf { lm with
      globalLsn := lm.globalLsn + 1
      lastLsnInBuffer := lm.globalLsn
      buffer := lm.buffer ++ [⟨lm.globalLsn, tid, prevLsn, body⟩] } := by
    intro lm h
    have hp := h.persist
    refine ⟨?_, ?_, ?_, by simp only; omega, by simp only; omega⟩
    · simp only [stream, ← List.append_assoc]
      refine List.pairwise_append.2 ⟨h.sorted, List.pairwise_singleton _ _, fun r hr r' hr' => ?_⟩
      rw [List.mem_singleton.1 hr']
      exact h.below r hr
    · intro r hr
      simp only [stream, ← List.append_assoc, List.mem_append, List.mem_singleton] at hr
      rcases hr with hr | rfl
      · have := h.below r (by simpa [stream] using hr)
        simp only
        omega
      · show lm.globalLsn < lm.globalLsn + 1
        omega
    · intro r hr
      rcases List.mem_append.1 hr with hr | hr
      · have h1 := h.buffered r hr
        have h2 := h.last
        simp only
        omega
      · rw [List.mem_singleton.1 hr]
        simp only
        omega
  unfold LogManager.addLogToBuffer
  split
  · exact hstep _ h.flushLogToDisk
  · exact hstep _ h

/-- A record up to `persist_lsn_` is in `db.log`. -/
theorem Wf.mem_disk (h : lm.Wf) {r : LogRecord} (hr : r ∈ lm.stream) (hle : r.lsn ≤ lm.persistLsn) : r ∈ lm.disk := by
  rcases List.mem_append.1 hr with hr | hr
  · exact hr
  · have := (h.buffered r hr).1
    omega

end LogManager

end Rmdb
