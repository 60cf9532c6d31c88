import Rmdb.Common.Value
import Rmdb.Lib.Frames
import Rmdb.Recovery.LogRecovery

/-!
# The bytes of `db.log`

- `LogRecord.serialize` and `LogRecord.deserialize`: the layout of `log_manager.h`;
- `nextRecord` and `readRecords`: the loop of `analyze` over the bytes of the file, with what stops it;
- `logFraming`: the loop reads back what was serialized;
- `LogFile`: `LogManager` with its buffer and `db.log` as bytes, over `write_log`, which may be cut short. Where no
  write is cut it does what `LogManager` does (`LogFile.Holds`).
-/

namespace Rmdb

open Lib Lib.Reader

/-! ## The layout -/

/-- A number as an `int` keeps its low 32 bits. -/
def toInt32 (v : Int) : Int := (BitVec.ofInt 32 v).toInt

/-- The `char`s of a table name. -/
def nameBytes (tabName : TabName) : Bytes := tabName.toByteArray.data.toList

/-- The table name with these `char`s. No table is named by other bytes than text: all of these are one name here. -/
def nameOf (bytes : Bytes) : TabName :=
  if h : bytes.toByteArray.IsValidUTF8 then String.fromUTF8 _ h else "\uFFFD"

/-- `LogType`. -/
def LogBody.logType : LogBody → Int
  | .update .. => 0
  | .insert .. => 1
  | .delete .. => 2
  | .begin => 3
  | .commit => 4
  | .abort => 5

/-- `size` and `data` of an `RmRecord`. -/
def rmRecordBytes (data : Bytes) : Bytes := intBytes data.length ++ data

def ridBytes (rid : Rid) : Bytes := intBytes rid.pageNo ++ intBytes rid.slotNo

/-- `table_name_size_` and `table_name_`. -/
def tableNameBytes (tabName : TabName) : Bytes := leBytes (nameBytes tabName).length 8 ++ nameBytes tabName

def LogBody.serialize : LogBody → Bytes
  | .begin | .commit | .abort => []
  | .insert v rid t | .delete v rid t => rmRecordBytes v ++ (ridBytes rid ++ tableNameBytes t)
  | .update o n rid t => rmRecordBytes o ++ (rmRecordBytes n ++ (ridBytes rid ++ tableNameBytes t))

/-- `serialize`: the header and what follows it. -/
def LogRecord.serialize (r : LogRecord) : Bytes :=
  intBytes r.body.logType ++ (intBytes r.lsn ++ (leBytes r.totLen 4 ++ (int64Bytes r.logTid ++
    (intBytes r.prevLsn ++ r.body.serialize))))

/-! ## Reading it back -/

namespace LogRecord

def int : Reader UInt8 Int := readInt <$> take 4

def int64 : Reader UInt8 Int := readInt64 <$> take 8

def unsigned (k : Nat) : Reader UInt8 Nat := leNat <$> take k

/-- `RmRecord::Deserialize`; there is no array of negative size. -/
def rmRecord : Reader UInt8 Bytes := do
  let size ← int
  if size < 0 then failure else take size.toNat

def rid : Reader UInt8 Rid := do
  let pageNo ← int
  let slotNo ← int
  return ⟨pageNo, slotNo⟩

def tableName : Reader UInt8 TabName := do
  let size ← unsigned 8
  let chars ← take size
  return nameOf chars

/-- The `deserialize` that the `switch` of `analyze` selects, behind the header; `none` for an unknown type. -/
def readBody (logType : Int) : Option (Reader UInt8 LogBody) :=
  if logType = 0 then some do
    let oldValue ← rmRecord
    let newValue ← rmRecord
    let rid ← rid
    let tableName ← tableName
    return .update oldValue newValue rid tableName
  else if logType = 1 then some do
    let insertValue ← rmRecord
    let rid ← rid
    let tableName ← tableName
    return .insert insertValue rid tableName
  else if logType = 2 then some do
    let deleteValue ← rmRecord
    let rid ← rid
    let tableName ← tableName
    return .delete deleteValue rid tableName
  else if logType = 3 then some (pure .begin)
  else if logType = 4 then some (pure .commit)
  else if logType = 5 then some (pure .abort)
  else none

/-- `deserialize`. -/
def deserialize (body : Reader UInt8 LogBody) : Reader UInt8 LogRecord := do
  let _logType ← int
  let lsn ← int
  let _logTotLen ← unsigned 4
  let logTid ← int64
  let prevLsn ← int
  let body ← body
  return ⟨lsn, logTid, prevLsn, body⟩

end LogRecord

/-- `log_tot_len` of the record at the start of the bytes. -/
def logTotLen (src : Bytes) : Nat := leNat ((src.drop 8).take 4)

/-- One round of the loop in `analyze`. `offset + (int)log_tot_len` beyond an `int` is undefined. -/
def nextRecord (allData : Bytes) (offset : Nat) : Frame LogRecord :=
  let src := allData.drop offset
  if src.length < logHeaderSize then .stop
  else if logTotLen src < logHeaderSize then .stop
  else if intMax < offset + toInt32 (logTotLen src) then .fault
  else if allData.length < offset + toInt32 (logTotLen src) then .stop
  else
    match LogRecord.readBody (readInt src) with
    | none => .skip (toInt32 (logTotLen src))
    | some body =>
      match (LogRecord.deserialize body).run src with
      | some (r, _) => .record r (toInt32 (logTotLen src))
      | none => .fault

/-- What one `read` returns at most. -/
def maxRead : Nat := 0x7ffff000

/-- The records that `analyze` decodes and the offset at which its loop ends; `none` when it does not come back.
`get_file_size` returns an `int`, and `read_log` asserts that one `read` returned everything. -/
def readRecords (dbLog : Bytes) : Option (List LogRecord × Int) :=
  let fileSize := toInt32 dbLog.length
  if fileSize ≤ 0 then some ([], 0)
  else if maxRead < fileSize then none
  else
    let allData := dbLog.take fileSize.toNat
    scan nextRecord allData (allData.length + 2) 0

/-! ## What was serialized is read back -/

/-- The value is one of an `int`. -/
def IsInt (v : Int) : Prop := -2 ^ 31 ≤ v ∧ v < 2 ^ 31

instance (v : Int) : Decidable (IsInt v) := inferInstanceAs (Decidable (_ ∧ _))

theorem toInt32_of_isInt {v : Int} (h : IsInt v) : toInt32 v = v := by
  rw [toInt32, BitVec.toInt_ofInt, Int.bmod_eq_of_le (by have := h.1; omega) (by have := h.2; omega)]

/-- The rids of a record have `int`s. -/
def LogBody.Typed : LogBody → Prop
  | .begin | .commit | .abort => True
  | .insert _ rid _ | .delete _ rid _ | .update _ _ rid _ => IsInt rid.pageNo ∧ IsInt rid.slotNo

instance : (b : LogBody) → Decidable b.Typed
  | .begin | .commit | .abort => inferInstanceAs (Decidable True)
  | .insert .. | .delete .. | .update .. => inferInstanceAs (Decidable (_ ∧ _))

/-- A record whose fields are values of their types, and which fits the empty buffer. -/
structure LogRecord.Valid (r : LogRecord) : Prop where
  lsn : IsInt r.lsn
  logTid : -2 ^ 63 ≤ r.logTid ∧ r.logTid < 2 ^ 63
  prevLsn : IsInt r.prevLsn
  body : r.body.Typed
  fits : (r.totLen : Int) ≤ logBufferSize

/-- A record whose fields are values of their types, whatever its length. -/
structure LogRecord.Typed (r : LogRecord) : Prop where
  lsn : IsInt r.lsn
  logTid : -2 ^ 63 ≤ r.logTid ∧ r.logTid < 2 ^ 63
  prevLsn : IsInt r.prevLsn
  body : r.body.Typed

theorem LogRecord.Valid.typed {r : LogRecord} (h : r.Valid) : r.Typed := ⟨h.lsn, h.logTid, h.prevLsn, h.body⟩

theorem LogRecord.Valid.totLen_le {r : LogRecord} (h : r.Valid) : (r.totLen : Int) ≤ intMax := by
  have hmax : logBufferSize ≤ intMax := by decide
  exact Int.le_trans h.fits hmax

theorem isInt_logType (b : LogBody) : IsInt b.logType := by
  cases b <;> constructor <;> simp [LogBody.logType]

theorem length_nameBytes (t : TabName) : (nameBytes t).length = t.utf8ByteSize := Array.length_toList

theorem nameOf_nameBytes (t : TabName) : nameOf (nameBytes t) = t := by
  have h : (nameBytes t).toByteArray = t.toByteArray := by
    apply ByteArray.ext
    rw [List.data_toByteArray, nameBytes, Array.toArray_toList]
  unfold nameOf
  split
  · exact String.toByteArray_inj.1 h
  · next hv =>
    rw [h] at hv
    exact absurd t.isValidUTF8 hv

/-- `log_tot_len_` is the number of bytes. -/
theorem length_serialize (r : LogRecord) : r.serialize.length = r.totLen := by
  have hb : r.body.serialize.length + logHeaderSize = r.body.totLen := by
    cases h : r.body <;>
      simp only [LogBody.serialize, LogBody.totLen, rmRecordBytes, ridBytes, tableNameBytes, List.length_append,
        length_intBytes, length_leBytes, length_nameBytes, List.length_nil] <;> omega
  simp only [LogRecord.serialize, List.length_append, length_intBytes, length_leBytes, length_int64Bytes,
    LogRecord.totLen, ← hb, logHeaderSize]
  omega

namespace LogRecord

theorem reads_int {v : Int} (h : IsInt v) : Reads int (intBytes v) v := by
  have hr := (reads_take (intBytes v)).map readInt
  rwa [length_intBytes, readInt_intBytes h.1 h.2] at hr

theorem reads_int64 {v : Int} (h : -2 ^ 63 ≤ v ∧ v < 2 ^ 63) : Reads int64 (int64Bytes v) v := by
  have hr := (reads_take (int64Bytes v)).map readInt64
  rwa [length_int64Bytes, readInt64_int64Bytes h.1 h.2] at hr

theorem reads_unsigned {n k : Nat} (h : n < 256 ^ k) : Reads (unsigned k) (leBytes n k) n := by
  have hr := (reads_take (leBytes n k)).map leNat
  rwa [length_leBytes, leNat_leBytes_of_lt h] at hr

theorem reads_rmRecord {v : Bytes} (h : v.length < 2 ^ 31) : Reads rmRecord (rmRecordBytes v) v := by
  refine (reads_int (v := v.length) ⟨by omega, by omega⟩).bind ?_
  rw [if_neg (by omega), Int.toNat_natCast]
  exact reads_take v

theorem reads_rid {r : Rid} (h : IsInt r.pageNo) (h' : IsInt r.slotNo) : Reads rid (ridBytes r) r := by
  refine (reads_int h).bind ?_
  exact (reads_int h').last (Rid.mk r.pageNo)

theorem reads_tableName {t : TabName} (h : t.utf8ByteSize < 2 ^ 31) : Reads tableName (tableNameBytes t) t := by
  have hlen := length_nameBytes t
  refine (reads_unsigned (n := (nameBytes t).length) (k := 8) (by omega)).bind ?_
  have hr := (reads_take (nameBytes t)).last nameOf
  rwa [nameOf_nameBytes] at hr

theorem reads_body {b : LogBody} (ht : b.Typed) (hl : (b.totLen : Int) ≤ intMax) :
    ∃ p, readBody b.logType = some p ∧ Reads p b.serialize b := by
  have hmax : intMax < 2 ^ 31 := by decide
  cases b with
  | «begin» => exact ⟨_, rfl, Reads.pure _⟩
  | commit => exact ⟨_, rfl, Reads.pure _⟩
  | abort => exact ⟨_, rfl, Reads.pure _⟩
  | insert v r t | delete v r t =>
    simp only [LogBody.totLen] at hl
    refine ⟨_, rfl, (reads_rmRecord (v := v) (by omega)).bind ?_⟩
    refine (reads_rid ht.1 ht.2).bind ?_
    exact (reads_tableName (by omega)).last _
  | update o n r t =>
    simp only [LogBody.totLen] at hl
    refine ⟨_, rfl, (reads_rmRecord (v := o) (by omega)).bind ?_⟩
    refine (reads_rmRecord (v := n) (by omega)).bind ?_
    refine (reads_rid ht.1 ht.2).bind ?_
    exact (reads_tableName (by omega)).last _

/-- **What was serialized is deserialized**, whatever follows it. -/
theorem reads_deserialize {r : LogRecord} (h : r.Typed) (hl : (r.totLen : Int) ≤ intMax) :
    ∃ p, readBody r.body.logType = some p ∧ Reads (deserialize p) r.serialize r := by
  obtain ⟨p, hp, hr⟩ := reads_body h.body hl
  have hlen : r.totLen < 256 ^ 4 := by
    have hmax : intMax < 2 ^ 31 := by decide
    omega
  refine ⟨p, hp, (reads_int (isInt_logType r.body)).bind ?_⟩
  refine (reads_int h.lsn).bind ?_
  refine (reads_unsigned hlen).bind ?_
  refine (reads_int64 h.logTid).bind ?_
  refine (reads_int h.prevLsn).bind ?_
  exact hr.last (LogRecord.mk r.lsn r.logTid r.prevLsn)

end LogRecord

theorem totLen_bounds {r : LogRecord} (hl : (r.totLen : Int) ≤ intMax) :
    logHeaderSize ≤ r.totLen ∧ toInt32 r.totLen = r.totLen := by
  have hmax : intMax < 2 ^ 31 := by decide
  refine ⟨?_, toInt32_of_isInt ⟨by omega, by omega⟩⟩
  cases hb : r.body <;> simp only [LogRecord.totLen, hb, LogBody.totLen] <;> omega

/-- `log_tot_len` is read from the first twelve bytes. -/
theorem logTotLen_append {p : Bytes} (q : Bytes) (h : logHeaderSize ≤ p.length) :
    logTotLen (p ++ q) = logTotLen p := by
  unfold logHeaderSize at h
  rw [logTotLen, logTotLen, List.drop_append_of_le_length (by omega),
    List.take_append_of_le_length (by rw [List.length_drop]; omega)]

theorem logTotLen_serialize {r : LogRecord} (hl : (r.totLen : Int) ≤ intMax) : logTotLen r.serialize = r.totLen := by
  have hmax : intMax < 2 ^ 31 := by decide
  rw [logTotLen, LogRecord.serialize, ← List.append_assoc, List.drop_left' (by simp), List.take_left' (by simp)]
  exact leNat_leBytes_of_lt (by omega)

theorem readInt_serialize (r : LogRecord) (rest : Bytes) : readInt (r.serialize ++ rest) = r.body.logType := by
  have h := isInt_logType r.body
  rw [← readInt_intBytes h.1 h.2, readInt, readInt, LogRecord.serialize, List.append_assoc,
    List.take_left' (by simp), List.take_of_length_le (by simp)]

/-- A whole record is decoded and stepped over. -/
theorem nextRecord_serialize (pre rest : Bytes) {r : LogRecord} (h : r.Typed)
    (hl : ((pre ++ r.serialize).length : Int) ≤ intMax) :
    nextRecord (pre ++ r.serialize ++ rest) pre.length = .record r r.serialize.length := by
  have hlen := length_serialize r
  rw [List.length_append, hlen] at hl
  have htotLen : (r.totLen : Int) ≤ intMax := by omega
  obtain ⟨hmin, hint⟩ := totLen_bounds htotLen
  obtain ⟨p, hp, hr⟩ := LogRecord.reads_deserialize h htotLen
  have hsrc : (pre ++ r.serialize ++ rest).drop pre.length = r.serialize ++ rest := by
    rw [List.append_assoc, List.drop_left]
  have htot : logTotLen (r.serialize ++ rest) = r.totLen := by
    rw [logTotLen_append rest (by omega), logTotLen_serialize htotLen]
  simp only [nextRecord, hsrc, htot, hint, readInt_serialize, hp, hr rest, hlen]
  rw [if_neg (by rw [List.length_append]; omega), if_neg (by omega), if_neg (by omega),
    if_neg (by simp only [List.length_append]; omega)]

/-- The loop stops where less than a record is left, unless that record would end beyond an `int`. -/
theorem nextRecord_torn (pre p q : Bytes) {r : LogRecord} (he : r.serialize = p ++ q) (hq : q ≠ [])
    (hl : p.length < logHeaderSize ∨ ((pre ++ r.serialize).length : Int) ≤ intMax) :
    nextRecord (pre ++ p) pre.length = .stop := by
  have hlen := length_serialize r
  have hpos := List.length_pos_iff.2 hq
  rw [List.length_append, hlen] at hl
  rw [he, List.length_append] at hlen
  simp only [nextRecord, List.drop_left]
  by_cases hp : p.length < logHeaderSize
  · rw [if_pos hp]
  · have hl := hl.resolve_left hp
    obtain ⟨hmin, hint⟩ := totLen_bounds (r := r) (by omega)
    have htot : logTotLen p = r.totLen := by
      rw [← logTotLen_append q (by omega), ← he, logTotLen_serialize (by omega)]
    rw [htot, hint, if_neg hp, if_neg (by omega), if_neg (by omega),
      if_pos (by rw [List.length_append]; omega)]

theorem le_intMax {n : Nat} (h : n ≤ maxRead) : (n : Int) ≤ intMax := by
  have hmax : (maxRead : Int) ≤ intMax := by decide
  omega

/-- **The layout of `db.log`**: up to what one `read` returns, the loop of `analyze` reads back its records. -/
def logFraming : Framing LogRecord UInt8 where
  encode := LogRecord.serialize
  next := nextRecord
  limit := maxRead
  Valid := LogRecord.Valid
  next_encode pre rest _ h hl := nextRecord_serialize pre rest h.typed (le_intMax hl)
  next_torn pre p q _ _ he hq hl := nextRecord_torn pre p q he hq (.inr (le_intMax hl))
  next_end data := by simp [nextRecord, logHeaderSize]

/-- **Whole records and then part of one are decoded to the whole records.** -/
theorem readRecords_encodeAll {rs : List LogRecord} {t : Bytes} (hv : ∀ r ∈ rs, r.Valid)
    (ht : logFraming.Torn (logFraming.encodeAll rs) t)
    (hl : (logFraming.encodeAll rs ++ t).length ≤ maxRead) :
    readRecords (logFraming.encodeAll rs ++ t) = some (rs, ((logFraming.encodeAll rs).length : Int)) := by
  have hlen : (logFraming.encodeAll rs).length ≤ maxRead := by
    rw [List.length_append] at hl
    omega
  have hmax : (maxRead : Int) < 2 ^ 31 := by decide
  have hcount := Framing.length_le_encodeAll (F := logFraming) hv hlen
  have hint := toInt32_of_isInt (v := (logFraming.encodeAll rs ++ t).length) ⟨by omega, by omega⟩
  have hscan := Framing.scan_encodeAll (F := logFraming) [] hv hlen ht
    (show rs.length < (logFraming.encodeAll rs ++ t).length + 2 by rw [List.length_append]; omega)
  simp only [List.nil_append, List.length_nil, Int.ofNat_zero] at hscan
  unfold readRecords
  simp only [hint]
  split
  · next h0 =>
    have hnil : logFraming.encodeAll rs ++ t = [] := List.eq_nil_of_length_eq_zero (by omega)
    obtain ⟨h1, rfl⟩ := List.append_eq_nil_iff.1 hnil
    rw [h1] at hcount ⊢
    rw [List.length_eq_zero_iff.1 (Nat.le_zero.1 hcount)]
    rfl
  · rw [if_neg (by omega), Int.toNat_natCast, List.take_length]
    exact hscan

/-! ## The log manager over the bytes -/

/-- `LogManager` with `log_buffer_` and `db.log` as they are. -/
structure LogFile where
  globalLsn : Int
  persistLsn : Int
  lastLsnInBuffer : Int
  buffer : Bytes
  dbLog : Bytes

namespace LogFile

/-- The log manager of a new process. -/
def start (dbLog : Bytes) : LogFile := ⟨0, invalidLsn, invalidLsn, [], dbLog⟩

/-- `write_log`: `n` bytes reach the end of the file, or all of them; fewer than all of them are an error. -/
def writeLog (dbLog logData : Bytes) (n : Nat) : Except RMDBError Unit × Bytes :=
  (if n < logData.length then .error .unix else .ok (), dbLog ++ logData.take n)

/-- `flush_log_to_disk`. -/
def flushLogToDisk (lf : LogFile) (n : Nat) : Except RMDBError Unit × LogFile :=
  if 0 < lf.buffer.length then
    match writeLog lf.dbLog lf.buffer n with
    | (.ok (), dbLog) =>
      (.ok (), { lf with dbLog := dbLog, buffer := [], persistLsn := lf.lastLsnInBuffer })
    | (.error e, dbLog) => (.error e, { lf with dbLog := dbLog })
  else (.ok (), lf)

/-- `is_full`. -/
def isFull (lf : LogFile) (appendSize : Nat) : Bool := logBufferSize < (lf.buffer.length + appendSize : Nat)

/-- `add_log_to_buffer`. When the write of a full buffer fails, the record gets no lsn. -/
def addLogToBuffer (lf : LogFile) (tid : Int) (prevLsn : Int) (body : LogBody) (n : Nat) :
    Except RMDBError Int × LogFile :=
  match if lf.isFull body.totLen then lf.flushLogToDisk n else (.ok (), lf) with
  | (.ok (), lf) =>
    let r : LogRecord := ⟨lf.globalLsn, tid, prevLsn, body⟩
    (.ok r.lsn, { lf with
      globalLsn := toInt32 (lf.globalLsn + 1)
      lastLsnInBuffer := r.lsn
      buffer := lf.buffer ++ r.serialize })
  | (.error e, lf) => (.error e, lf)

/-- `set_global_lsn` and `set_persist_lsn` at the end of `analyze`. -/
def afterAnalyze (lf : LogFile) (logRecords : List LogRecord) : LogFile :=
  if maxLsn logRecords ≠ invalidLsn then
    { lf with globalLsn := toInt32 (maxLsn logRecords + 1), persistLsn := maxLsn logRecords }
  else lf

/-- A new process after `analyze`; `none` when that does not come back. -/
def restart (lf : LogFile) : Option LogFile :=
  (readRecords lf.dbLog).map fun (logRecords, _) => (start lf.dbLog).afterAnalyze logRecords

/-! ## The records in the bytes -/

/-- The bytes are those of the records of `lm`. -/
structure Holds (lf : LogFile) (lm : LogManager) : Prop where
  globalLsn : lf.globalLsn = lm.globalLsn
  persistLsn : lf.persistLsn = lm.persistLsn
  lastLsn : lf.lastLsnInBuffer = lm.lastLsnInBuffer
  buffer : lf.buffer = logFraming.encodeAll lm.buffer
  dbLog : lf.dbLog = logFraming.encodeAll lm.disk

variable {lf : LogFile} {lm : LogManager} {n : Nat}

theorem length_encodeAll (rs : List LogRecord) :
    (logFraming.encodeAll rs).length = (rs.map LogRecord.totLen).sum := by
  induction rs with
  | nil => rfl
  | cons r rs ih =>
    rw [Framing.encodeAll_cons, List.length_append, ih, List.map_cons, List.sum_cons]
    exact congrArg (· + _) (length_serialize r)

theorem Holds.length_buffer (h : lf.Holds lm) : lf.buffer.length = lm.offset := by
  rw [h.buffer, length_encodeAll, LogManager.offset]

theorem Holds.start (rs : List LogRecord) : (start (logFraming.encodeAll rs)).Holds (.start rs) :=
  ⟨rfl, rfl, rfl, rfl, rfl⟩

/-- A write of the whole buffer. -/
theorem Holds.flushLogToDisk (h : lf.Holds lm) (hn : lf.buffer.length ≤ n) :
    (lf.flushLogToDisk n).1 = .ok () ∧ (lf.flushLogToDisk n).2.Holds lm.flushLogToDisk := by
  have hlen := h.length_buffer
  unfold LogFile.flushLogToDisk LogManager.flushLogToDisk
  by_cases h0 : 0 < lf.buffer.length
  · rw [if_pos h0, if_pos (hlen ▸ h0), writeLog, if_neg (by omega), List.take_of_length_le hn]
    refine ⟨rfl, h.globalLsn, h.lastLsn, h.lastLsn, rfl, ?_⟩
    simp [LogManager.writeBuffer, h.dbLog, h.buffer]
  · rw [if_neg h0, if_neg (hlen ▸ h0)]
    exact ⟨rfl, h⟩

/-- Where no write is cut, appending is `LogManager.addLogToBuffer`. -/
theorem Holds.addLogToBuffer (h : lf.Holds lm) (hn : lf.buffer.length ≤ n) (hl : IsInt (lm.globalLsn + 1))
    (tid prevLsn : Int) (body : LogBody) :
    (lf.addLogToBuffer tid prevLsn body n).1 = .ok (lm.addLogToBuffer tid prevLsn body).1 ∧
      (lf.addLogToBuffer tid prevLsn body n).2.Holds (lm.addLogToBuffer tid prevLsn body).2 := by
  have hput : ∀ {lf : LogFile} {lm : LogManager}, lf.Holds lm → IsInt (lm.globalLsn + 1) →
      Holds { lf with
        globalLsn := toInt32 (lf.globalLsn + 1)
        lastLsnInBuffer := lf.globalLsn
        buffer := lf.buffer ++ LogRecord.serialize ⟨lf.globalLsn, tid, prevLsn, body⟩ }
        { lm with
          globalLsn := lm.globalLsn + 1
          lastLsnInBuffer := lm.globalLsn
          buffer := lm.buffer ++ [⟨lm.globalLsn, tid, prevLsn, body⟩] } := by
    intro lf lm h hl
    refine ⟨by rw [h.globalLsn, toInt32_of_isInt hl], h.persistLsn, h.globalLsn, ?_, h.dbLog⟩
    simp [h.buffer, h.globalLsn, logFraming]
  obtain ⟨hok, hflush⟩ := h.flushLogToDisk hn
  have hlen := h.length_buffer
  unfold LogFile.addLogToBuffer LogManager.addLogToBuffer
  by_cases hf : lf.isFull body.totLen
  · have hf' : logBufferSize < (lm.offset + body.totLen : Nat) := by simpa [isFull, hlen] using hf
    rw [if_pos hf, if_pos hf', ← Prod.eta (lf.flushLogToDisk n), hok]
    exact ⟨congrArg _ hflush.globalLsn, hput hflush (by simpa using hl)⟩
  · have hf' : ¬logBufferSize < (lm.offset + body.totLen : Nat) := by simpa [isFull, hlen] using hf
    rw [if_neg hf, if_neg hf']
    exact ⟨congrArg _ h.globalLsn, hput h hl⟩

/-- **A restart reads back the records on the disk.** -/
theorem Holds.restart (h : lf.Holds lm) (hv : ∀ r ∈ lm.disk, r.Valid) (hl : lf.dbLog.length ≤ maxRead)
    (hmax : IsInt (maxLsn lm.disk + 1)) :
    ∃ lf', lf.restart = some lf' ∧ lf'.Holds (LogManager.start lm.disk).afterAnalyze := by
  have hread := readRecords_encodeAll hv (.inl rfl) (t := []) (by rwa [List.append_nil, ← h.dbLog])
  rw [List.append_nil, ← h.dbLog] at hread
  refine ⟨(LogFile.start lf.dbLog).afterAnalyze lm.disk, by rw [LogFile.restart, hread]; rfl, ?_⟩
  have hs := h.dbLog ▸ Holds.start lm.disk
  unfold LogFile.afterAnalyze LogManager.afterAnalyze
  by_cases hne : maxLsn lm.disk ≠ invalidLsn
  · rw [if_pos hne, if_pos (show maxLsn (LogManager.start lm.disk).disk ≠ invalidLsn from hne)]
    exact ⟨toInt32_of_isInt hmax, rfl, hs.lastLsn, hs.buffer, hs.dbLog⟩
  · rw [if_neg hne, if_neg (show ¬maxLsn (LogManager.start lm.disk).disk ≠ invalidLsn from hne)]
    exact hs

end LogFile

end Rmdb
