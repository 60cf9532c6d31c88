import Rmdb.Recovery.LogFile
import Rmdb.Recovery.Restart

/-!
# Log writes that are cut short

- `LogHistory`: `db.log` and the log manager over all incarnations, with the records in the buffer, the records whose
  write returned, and whether some write was cut inside a record;
- `LogHistory.Readable`: the next `analyze` decodes every record whose write returned, in the order of the lsns;
- nothing removes the part of a record that a cut write leaves, so that later records are appended to it and are lost.
  `LogHistory.readable_of_meets`: that is the only way, while `db.log` is no longer than what one `read` returns.
-/

namespace Rmdb

open Lib

/-- A record handed to `add_log_to_buffer`: its fields are values of their types, and it fits the empty buffer. -/
structure LogEntry where
  logTid : Int
  prevLsn : Int
  body : LogBody
  logTid_typed : -2 ^ 63 ≤ logTid ∧ logTid < 2 ^ 63
  prevLsn_typed : IsInt prevLsn
  body_typed : body.Typed
  fits : (body.totLen : Int) ≤ logBufferSize

def LogEntry.record (e : LogEntry) (lsn : Int) : LogRecord := ⟨lsn, e.logTid, e.prevLsn, e.body⟩

theorem LogEntry.valid (e : LogEntry) {lsn : Int} (h : IsInt lsn) : (e.record lsn).Valid :=
  ⟨h, e.logTid_typed, e.prevLsn_typed, e.body_typed, e.fits⟩

/-- What happens to the log. A write lets `n` bytes of the buffer reach `db.log`, or all of them; a crash inside a
write is such a write and then a restart. -/
inductive LogEvent
  | append (e : LogEntry) (n : Nat)
  | flush (n : Nat)
  | restart

structure LogHistory where
  log : LogFile
  /-- The records in the buffer. -/
  pending : List LogRecord
  /-- The records whose write returned, in this or an earlier incarnation. -/
  durable : List LogRecord
  /-- Some write was cut inside a record. -/
  torn : Bool

namespace LogHistory

def start : LogHistory := ⟨LogFile.start [], [], [], false⟩

/-- The first `n` bytes of the buffer are whole records. -/
def whole (h : LogHistory) (n : Nat) : Bool :=
  (List.range (h.pending.length + 1)).any fun k =>
    logFraming.encodeAll (h.pending.take k) == h.log.buffer.take n

/-- What is known after a write of `n` bytes has left `log`, and returned or not. -/
def written (h : LogHistory) (n : Nat) (returned : Bool) (log : LogFile) : LogHistory where
  log := log
  pending := if returned then [] else h.pending
  durable := if returned then h.durable ++ h.pending else h.durable
  torn := h.torn || !h.whole n

def step (h : LogHistory) : LogEvent → Option LogHistory
  | .flush n =>
    match h.log.flushLogToDisk n with
    | (.ok (), log) => some (h.written n true log)
    | (.error _, log) => some (h.written n false log)
  | .append e n =>
    match h.log.addLogToBuffer e.logTid e.prevLsn e.body n with
    | (.ok lsn, log) =>
      let h := if h.log.isFull e.body.totLen then h.written n true log else { h with log := log }
      some { h with pending := h.pending ++ [e.record lsn] }
    | (.error _, log) => some (h.written n false log)
  | .restart => h.log.restart.map fun log => { h with log := log, pending := [] }

def run (h : LogHistory) (es : List LogEvent) : Option LogHistory := es.foldlM step h

/-- **The next `analyze` decodes every record whose write returned**, and these are in the order of the lsns. -/
def Readable (h : LogHistory) : Prop :=
  (h.durable.Pairwise fun r r' => r.lsn < r'.lsn) ∧
    ∃ logRecords offset, readRecords h.log.dbLog = some (logRecords, offset) ∧ h.durable.Sublist logRecords

/-! ## The condition -/

/-- A byte is written only while no write was cut inside a record, and the buffer would still fit one `read`. -/
def WriteOk (h : LogHistory) (n : Nat) : Prop :=
  h.log.buffer.take n ≠ [] → h.torn = false ∧ h.log.dbLog.length + h.log.buffer.length ≤ maxRead

def Allows (h : LogHistory) : LogEvent → Prop
  | .flush n => h.WriteOk n
  | .append e n => h.log.isFull e.body.totLen = true → h.WriteOk n
  | .restart => True

instance (h : LogHistory) (n : Nat) : Decidable (h.WriteOk n) := inferInstanceAs (Decidable (_ → _))

instance (h : LogHistory) : (e : LogEvent) → Decidable (h.Allows e)
  | .flush n => inferInstanceAs (Decidable (h.WriteOk n))
  | .append _ n => inferInstanceAs (Decidable (_ → h.WriteOk n))
  | .restart => isTrue trivial

/-- Every step of the run is allowed where it is taken. -/
def Meets : LogHistory → List LogEvent → Prop
  | _, [] => True
  | h, e :: es => h.Allows e ∧ ∀ h' ∈ h.step e, Meets h' es

instance decidableMeets : (h : LogHistory) → (es : List LogEvent) → Decidable (h.Meets es)
  | _, [] => isTrue trivial
  | h, e :: es =>
    have := fun h' => decidableMeets h' es
    inferInstanceAs (Decidable (h.Allows e ∧ ∀ h' ∈ h.step e, Meets h' es))

end LogHistory

/-! ## What the calls of the log manager do -/

namespace LogFile

variable {lf : LogFile} {n : Nat}

/-- A whole write empties the buffer into the file. -/
theorem flushLogToDisk_ok (h : lf.buffer.length ≤ n) : ∃ p, lf.flushLogToDisk n =
    (.ok (), { lf with dbLog := lf.dbLog ++ lf.buffer, buffer := [], persistLsn := p }) := by
  unfold flushLogToDisk
  by_cases h0 : 0 < lf.buffer.length
  · rw [if_pos h0, writeLog, if_neg (by omega), List.take_of_length_le h]
    exact ⟨_, rfl⟩
  · have hnil : lf.buffer = [] := List.eq_nil_of_length_eq_zero (by omega)
    rw [if_neg h0, hnil, List.append_nil]
    exact ⟨lf.persistLsn, by rw [← hnil]⟩

/-- A short write adds what was written and leaves the buffer. -/
theorem flushLogToDisk_error (h : n < lf.buffer.length) : lf.flushLogToDisk n =
    (.error .unix, { lf with dbLog := lf.dbLog ++ lf.buffer.take n }) := by
  rw [flushLogToDisk, if_pos (by omega), writeLog, if_pos h]

/-- The record with the next lsn at the end of the buffer. -/
def put (lf : LogFile) (r : LogRecord) : LogFile :=
  { lf with
    globalLsn := toInt32 (lf.globalLsn + 1)
    lastLsnInBuffer := r.lsn
    buffer := lf.buffer ++ r.serialize }

variable {tid prevLsn : Int} {body : LogBody}

theorem addLogToBuffer_room (h : lf.isFull body.totLen = false) : lf.addLogToBuffer tid prevLsn body n =
    (.ok lf.globalLsn, lf.put ⟨lf.globalLsn, tid, prevLsn, body⟩) := by
  unfold addLogToBuffer
  rw [h]
  rfl

variable (tid prevLsn) in
theorem addLogToBuffer_ok {lf' : LogFile} (h : lf.isFull body.totLen = true)
    (hf : lf.flushLogToDisk n = (.ok (), lf')) :
    lf.addLogToBuffer tid prevLsn body n = (.ok lf'.globalLsn, lf'.put ⟨lf'.globalLsn, tid, prevLsn, body⟩) := by
  unfold addLogToBuffer
  rw [h, if_pos rfl, hf]
  rfl

theorem addLogToBuffer_error {lf' : LogFile} {err : RMDBError} (h : lf.isFull body.totLen = true)
    (hf : lf.flushLogToDisk n = (.error err, lf')) : lf.addLogToBuffer tid prevLsn body n = (.error err, lf') := by
  unfold addLogToBuffer
  rw [h, if_pos rfl, hf]

end LogFile

/-! ## The order of the lsns in the file -/

/-- The record at place `i` of the log has an lsn of at most `n + i`. -/
def Numbered : Nat → List LogRecord → Prop
  | _, [] => True
  | n, r :: rs => r.lsn ≤ n ∧ Numbered (n + 1) rs

theorem Numbered.mono {rs : List LogRecord} : ∀ {n m : Nat}, Numbered n rs → n ≤ m → Numbered m rs := by
  induction rs with
  | nil => intro n m _ _; trivial
  | cons r rs ih =>
    intro n m h hle
    exact ⟨h.1.trans (by omega), ih h.2 (by omega)⟩

theorem numbered_append {rs rs' : List LogRecord} : ∀ {n : Nat}, Numbered n (rs ++ rs') ↔
    Numbered n rs ∧ Numbered (n + rs.length) rs' := by
  induction rs with
  | nil => intro n; simp [Numbered]
  | cons r rs ih =>
    intro n
    have hlen : n + (r :: rs).length = n + 1 + rs.length := by rw [List.length_cons]; omega
    rw [List.cons_append, Numbered, Numbered, ih, hlen, and_assoc]

theorem Numbered.lt {rs : List LogRecord} : ∀ {n : Nat}, Numbered n rs → ∀ r ∈ rs, r.lsn < n + rs.length := by
  induction rs with
  | nil => intro n _ r hr; cases hr
  | cons r rs ih =>
    intro n h r' hr'
    rw [List.length_cons]
    rcases List.mem_cons.1 hr' with rfl | hr'
    · have := h.1
      omega
    · have := ih h.2 r' hr'
      omega

theorem maxLsn_le {rs : List LogRecord} {b : Int} (hb : invalidLsn ≤ b) (h : ∀ r ∈ rs, r.lsn ≤ b) : maxLsn rs ≤ b := by
  induction rs using List.reverseRecOn with
  | nil => exact hb
  | append_singleton rs r ih =>
    have h1 := ih fun r' hr' => h r' (List.mem_append_left _ hr')
    have h2 := h r (by simp)
    have hstep : maxLsn (rs ++ [r]) = if r.lsn > maxLsn rs then r.lsn else maxLsn rs := by simp [maxLsn]
    rw [hstep]
    split <;> omega

/-- A record takes at least its header. -/
theorem header_mul_le {rs : List LogRecord} (hv : ∀ r ∈ rs, r.Valid) :
    logHeaderSize * rs.length ≤ (logFraming.encodeAll rs).length := by
  induction rs with
  | nil => simp
  | cons r rs ih =>
    have h1 := ih fun r' hr' => hv r' (List.mem_cons_of_mem _ hr')
    have h2 := (totLen_bounds (hv r List.mem_cons_self).totLen_le).1
    have h3 : (logFraming.encode r).length = r.totLen := length_serialize r
    rw [Framing.encodeAll_cons, List.length_append, List.length_cons, h3, Nat.mul_succ]
    omega

/-! ## The invariant -/

namespace LogHistory

/-- `db.log` is the whole records `rs` and then what a cut write left. -/
structure Inv (h : LogHistory) (rs : List LogRecord) (t : Bytes) : Prop where
  dbLog : h.log.dbLog = logFraming.encodeAll rs ++ t
  tail : logFraming.Torn (logFraming.encodeAll rs) t
  notTorn : h.torn = false → t = []
  size : h.log.dbLog.length ≤ maxRead
  buffer : h.log.buffer = logFraming.encodeAll h.pending
  room : (h.log.buffer.length : Int) ≤ logBufferSize
  valid : ∀ r ∈ rs ++ h.pending, r.Valid
  durable : h.durable.Sublist rs
  sorted : (h.durable ++ h.pending).Pairwise (fun r r' => r.lsn < r'.lsn)
  below : ∀ r ∈ rs ++ h.pending, 0 ≤ r.lsn ∧ r.lsn < h.log.globalLsn
  numbered : Numbered 0 (rs ++ h.pending)
  next : 0 ≤ h.log.globalLsn ∧ h.log.globalLsn ≤ (rs ++ h.pending).length

variable {h : LogHistory} {rs : List LogRecord} {t : Bytes} {n : Nat}

theorem inv_start : start.Inv [] [] := by
  refine ⟨rfl, .inl rfl, fun _ => rfl, by decide, rfl, by decide, ?_, .refl _, .nil, ?_, trivial, by decide⟩ <;>
    simp [start]

/-- An lsn is given out only while it is an `int`. -/
theorem Inv.isInt (hi : h.Inv rs t) : IsInt h.log.globalLsn ∧ IsInt (h.log.globalLsn + 1) := by
  have h1 := header_mul_le fun r hr => hi.valid r (List.mem_append_left _ hr)
  have h2 := header_mul_le fun r hr => hi.valid r (List.mem_append_right rs hr)
  have hsize := hi.size
  have hroom := hi.room
  obtain ⟨hpos, hle⟩ := hi.next
  rw [hi.dbLog, List.length_append] at hsize
  rw [hi.buffer] at hroom
  rw [List.length_append] at hle
  simp only [logHeaderSize, maxRead, logBufferSize, pageSize] at h1 h2 hsize hroom
  exact ⟨⟨by omega, by omega⟩, ⟨by omega, by omega⟩⟩

theorem Inv.readable (hi : h.Inv rs t) : h.Readable := by
  have hread := readRecords_encodeAll (fun r hr => hi.valid r (List.mem_append_left _ hr)) hi.tail
    (hi.dbLog ▸ hi.size)
  exact ⟨(List.pairwise_append.1 hi.sorted).1, rs, _, by rw [hi.dbLog, hread], hi.durable⟩

/-! ## Writes -/

theorem Inv.pending_nil (hi : h.Inv rs t) (hb : h.log.buffer = []) : h.pending = [] := by
  have h1 := header_mul_le fun r hr => hi.valid r (List.mem_append_right rs hr)
  rw [← hi.buffer, hb] at h1
  simp only [logHeaderSize, List.length_nil] at h1
  exact List.eq_nil_of_length_eq_zero (by omega)

theorem whole_zero (h : LogHistory) (hn : h.log.buffer.take n = []) : h.whole n = true := by
  rw [whole, List.any_eq_true]
  exact ⟨0, by simp, by simp [hn]⟩

theorem Inv.whole_all (hi : h.Inv rs t) (hn : h.log.buffer.length ≤ n) : h.whole n = true := by
  rw [whole, List.any_eq_true]
  exact ⟨h.pending.length, by simp, by rw [List.take_length, List.take_of_length_le hn, hi.buffer]; simp⟩

/-- A write that returned. -/
theorem Inv.written_true (hi : h.Inv rs t) (hok : h.WriteOk n) (hn : h.log.buffer.length ≤ n) (p : Int) :
    ∃ rs' t', (h.written n true
      { h.log with dbLog := h.log.dbLog ++ h.log.buffer, buffer := [], persistLsn := p }).Inv rs' t' := by
  have htorn : (h.torn || !h.whole n) = h.torn := by simp [hi.whole_all hn]
  by_cases hb : h.log.buffer = []
  · have hp := hi.pending_nil hb
    have hsame : h.written n true
        { h.log with dbLog := h.log.dbLog ++ h.log.buffer, buffer := [], persistLsn := p } =
        { h with log := { h.log with persistLsn := p } } := by
      simp [written, htorn, hb, hp]
    rw [hsame]
    exact ⟨rs, t, hi.dbLog, hi.tail, hi.notTorn, hi.size, hi.buffer, hi.room, hi.valid, hi.durable, hi.sorted,
      hi.below, hi.numbered, hi.next⟩
  · obtain ⟨hnt, hsize⟩ := hok (by rwa [List.take_of_length_le hn])
    have ht := hi.notTorn hnt
    have hdb : h.log.dbLog ++ h.log.buffer = logFraming.encodeAll (rs ++ h.pending) ++ [] := by
      rw [hi.dbLog, hi.buffer, ht, List.append_nil, List.append_nil, Framing.encodeAll_append]
    have hnil : rs ++ h.pending ++ [] = rs ++ h.pending := List.append_nil _
    have hnil' : h.durable ++ h.pending ++ [] = h.durable ++ h.pending := List.append_nil _
    refine ⟨rs ++ h.pending, [], hdb, .inl rfl, fun _ => rfl, ?_, rfl, (by decide : (0 : Int) ≤ _), ?_,
      hi.durable.append (.refl _), ?_, ?_, ?_, ?_⟩
    · rwa [← List.length_append] at hsize
    · exact hnil.symm ▸ hi.valid
    · exact hnil'.symm ▸ hi.sorted
    · exact hnil.symm ▸ hi.below
    · exact hnil.symm ▸ hi.numbered
    · exact hnil.symm ▸ hi.next

/-- A write that put the records `as` and a part `t'` of the next one into the file, and did not return. -/
theorem Inv.written_false (hi : h.Inv rs []) {as as' : List LogRecord} {t' : Bytes} (hp : h.pending = as ++ as')
    (hw : h.log.buffer.take n = logFraming.encodeAll as ++ t')
    (ht : logFraming.Torn (logFraming.encodeAll (rs ++ as)) t') (hwhole : h.whole n = true → t' = [])
    (hsize : h.log.dbLog.length + h.log.buffer.length ≤ maxRead) :
    (h.written n false { h.log with dbLog := h.log.dbLog ++ h.log.buffer.take n }).Inv (rs ++ as) t' := by
  have hmem : ∀ r ∈ rs ++ as ++ h.pending, r ∈ rs ++ h.pending := by
    intro r hr
    rw [hp] at hr ⊢
    simp only [List.mem_append] at hr ⊢
    tauto
  refine ⟨?_, ht, fun h0 => ?_, ?_, hi.buffer, hi.room, fun r hr => hi.valid r (hmem r hr),
    hi.durable.trans (List.sublist_append_left _ _), hi.sorted, fun r hr => hi.below r (hmem r hr), ?_, ?_⟩
  · show h.log.dbLog ++ h.log.buffer.take n = _
    rw [hi.dbLog, hw, List.append_nil, Framing.encodeAll_append, List.append_assoc]
  · have h1 := Bool.or_eq_false_iff.1 h0
    exact hwhole (by simpa using h1.2)
  · show (h.log.dbLog ++ h.log.buffer.take n).length ≤ maxRead
    rw [List.length_append, List.length_take]
    omega
  · -- the records of the buffer stand further back than before
    have h0 := hi.numbered
    rw [numbered_append] at h0 ⊢
    have h1 := h0.2
    rw [hp, numbered_append] at h1
    exact ⟨numbered_append.2 ⟨h0.1, h1.1⟩, h0.2.mono (by rw [List.length_append]; omega)⟩
  · have h0 := hi.next
    refine ⟨h0.1, h0.2.trans ?_⟩
    simp only [written, List.length_append, Bool.false_eq_true, if_false]
    omega

/-- A write that did not return. -/
theorem Inv.written_error (hi : h.Inv rs t) (hok : h.WriteOk n) :
    ∃ rs' t', (h.written n false { h.log with dbLog := h.log.dbLog ++ h.log.buffer.take n }).Inv rs' t' := by
  by_cases hb : h.log.buffer.take n = []
  · have hsame : h.written n false { h.log with dbLog := h.log.dbLog ++ h.log.buffer.take n } = h := by
      simp [written, hb, whole_zero h hb]
    exact ⟨rs, t, by rwa [hsame]⟩
  · obtain ⟨hnt, hsize⟩ := hok hb
    obtain rfl := hi.notTorn hnt
    have hdb : logFraming.encodeAll rs = h.log.dbLog := by rw [hi.dbLog, List.append_nil]
    by_cases hw : h.whole n = true
    · rw [whole, List.any_eq_true] at hw
      obtain ⟨k, -, hk⟩ := hw
      exact ⟨_, _, hi.written_false (List.take_append_drop k h.pending).symm
        (by rw [List.append_nil]; exact (eq_of_beq hk).symm) (.inl rfl) (fun _ => rfl) hsize⟩
    · obtain ⟨as, as', t', hp, htake, ht⟩ := Framing.cut (F := logFraming) (logFraming.encodeAll rs)
        (fun r hr => hi.valid r (List.mem_append_right rs hr))
        (by rw [← hi.buffer]; exact (List.take_append_drop n h.log.buffer).symm)
        (by rw [List.length_append, hdb, ← hi.buffer]; exact hsize)
      rw [← Framing.encodeAll_append] at ht
      exact ⟨_, _, hi.written_false hp htake ht (fun h0 => absurd h0 hw) hsize⟩

/-! ## Steps and runs -/

/-- A record joins the buffer. -/
theorem Inv.put (hi : h.Inv rs t) (e : LogEntry)
    (hr : (h.log.buffer.length + e.body.totLen : Int) ≤ logBufferSize) :
    Inv { h with
      log := h.log.put (e.record h.log.globalLsn)
      pending := h.pending ++ [e.record h.log.globalLsn] } rs t := by
  obtain ⟨hint, hint'⟩ := hi.isInt
  have hlsn : (e.record h.log.globalLsn).lsn = h.log.globalLsn := rfl
  have hnext := hi.next
  have hmem : ∀ r ∈ h.durable ++ h.pending, r ∈ rs ++ h.pending := fun r hr =>
    (List.mem_append.1 hr).elim (fun hr => List.mem_append_left _ (hi.durable.subset hr)) (List.mem_append_right _)
  have hone : logFraming.encodeAll [e.record h.log.globalLsn] = (e.record h.log.globalLsn).serialize :=
    List.append_nil _
  have hglobal : (h.log.put (e.record h.log.globalLsn)).globalLsn = h.log.globalLsn + 1 := toInt32_of_isInt hint'
  refine ⟨hi.dbLog, hi.tail, hi.notTorn, hi.size, ?_, ?_, ?_, hi.durable, ?_, ?_, ?_, ?_⟩
  · show h.log.buffer ++ (e.record h.log.globalLsn).serialize = logFraming.encodeAll (h.pending ++ [_])
    rw [hi.buffer, Framing.encodeAll_append, hone]
  · show ((h.log.buffer ++ (e.record h.log.globalLsn).serialize).length : Int) ≤ logBufferSize
    rw [List.length_append, length_serialize, Int.natCast_add]
    exact hr
  · intro r hr
    rw [← List.append_assoc, List.mem_append, List.mem_singleton] at hr
    rcases hr with hr | rfl
    · exact hi.valid r hr
    · exact e.valid hint
  · show (h.durable ++ (h.pending ++ [_])).Pairwise _
    rw [← List.append_assoc]
    refine List.pairwise_append.2 ⟨hi.sorted, List.pairwise_singleton _ _, fun r hr r' hr' => ?_⟩
    rw [List.mem_singleton.1 hr', hlsn]
    exact (hi.below r (hmem r hr)).2
  · intro r hr
    show 0 ≤ r.lsn ∧ r.lsn < (h.log.put _).globalLsn
    rw [← List.append_assoc, List.mem_append, List.mem_singleton] at hr
    rw [hglobal]
    rcases hr with hr | rfl
    · have := hi.below r hr
      omega
    · rw [hlsn]
      omega
  · show Numbered 0 (rs ++ (h.pending ++ [_]))
    rw [← List.append_assoc, numbered_append]
    exact ⟨hi.numbered, by rw [hlsn]; omega, trivial⟩
  · show 0 ≤ (h.log.put _).globalLsn ∧ (h.log.put _).globalLsn ≤ (rs ++ (h.pending ++ [_])).length
    rw [hglobal, ← List.append_assoc, List.length_append, List.length_singleton]
    omega

/-- A restart finds the whole records, and its lsns go on behind them. -/
theorem Inv.restart (hi : h.Inv rs t) :
    ∃ log, h.log.restart = some log ∧ Inv { h with log := log, pending := [] } rs t := by
  have hread := readRecords_encodeAll (fun r hr => hi.valid r (List.mem_append_left _ hr)) hi.tail
    (hi.dbLog ▸ hi.size)
  rw [← hi.dbLog] at hread
  have hnum := (numbered_append.1 hi.numbered).1
  obtain ⟨hlow, hle⟩ := LogManager.le_maxLsn rs
  have hmax : maxLsn rs ≤ (rs.length : Int) - 1 := maxLsn_le (by simp only [invalidLsn]; omega) fun r hr => by
    have := hnum.lt r hr
    omega
  have hbelow : ∀ r ∈ rs, 0 ≤ r.lsn := fun r hr => (hi.below r (List.mem_append_left _ hr)).1
  have hlen := header_mul_le fun r hr => hi.valid r (List.mem_append_left _ hr)
  have hsize := hi.size
  rw [hi.dbLog, List.length_append] at hsize
  simp only [logHeaderSize, maxRead, invalidLsn] at hlen hsize hlow
  set log := (LogFile.start h.log.dbLog).afterAnalyze rs with hlog
  have hglobal : log.globalLsn = maxLsn rs + 1 := by
    rw [hlog, LogFile.afterAnalyze]
    split
    · exact toInt32_of_isInt ⟨by omega, by omega⟩
    · next hne =>
      rw [not_not.1 hne]
      rfl
  have hdb : log.dbLog = h.log.dbLog ∧ log.buffer = [] := by
    rw [hlog, LogFile.afterAnalyze]
    split <;> exact ⟨rfl, rfl⟩
  have hnil : rs ++ [] = rs := List.append_nil _
  refine ⟨log, by rw [LogFile.restart, hread]; rfl, hdb.1.trans hi.dbLog, hi.tail, hi.notTorn, ?_, hdb.2, ?_, ?_,
    hi.durable, ?_, ?_, ?_, ?_⟩
  · exact hdb.1 ▸ hi.size
  · show (log.buffer.length : Int) ≤ logBufferSize
    rw [hdb.2]
    decide
  · exact fun r hr => hi.valid r (List.mem_append_left _ (hnil ▸ hr))
  · exact (List.append_nil h.durable).symm ▸ (List.pairwise_append.1 hi.sorted).1
  · intro r hr
    have hr' : r ∈ rs := hnil ▸ hr
    show 0 ≤ r.lsn ∧ r.lsn < log.globalLsn
    have := hle r hr'
    exact ⟨hbelow r hr', by omega⟩
  · exact hnil.symm ▸ hnum
  · show 0 ≤ log.globalLsn ∧ log.globalLsn ≤ (rs ++ []).length
    rw [hglobal, hnil]
    omega

/-- **What one allowed step keeps.** -/
theorem Inv.step (hi : h.Inv rs t) {e : LogEvent} (hok : h.Allows e) :
    ∃ h' rs' t', h.step e = some h' ∧ h'.Inv rs' t' := by
  cases e with
  | flush n =>
    by_cases hn : h.log.buffer.length ≤ n
    · obtain ⟨p, hf⟩ := LogFile.flushLogToDisk_ok hn
      obtain ⟨rs', t', hi'⟩ := hi.written_true hok hn p
      exact ⟨_, rs', t', by rw [LogHistory.step, hf], hi'⟩
    · obtain ⟨rs', t', hi'⟩ := hi.written_error hok
      exact ⟨_, rs', t', by rw [LogHistory.step, LogFile.flushLogToDisk_error (by omega)], hi'⟩
  | append e n =>
    by_cases hfull : h.log.isFull e.body.totLen = true
    · by_cases hn : h.log.buffer.length ≤ n
      · obtain ⟨p, hf⟩ := LogFile.flushLogToDisk_ok hn
        obtain ⟨rs', t', hi'⟩ := hi.written_true (hok hfull) hn p
        have hput := hi'.put e (by simpa [written] using e.fits)
        have hstep := LogFile.addLogToBuffer_ok e.logTid e.prevLsn hfull hf
        exact ⟨_, rs', t', by simp only [LogHistory.step, hstep, hfull, if_true]; rfl, hput⟩
      · obtain ⟨rs', t', hi'⟩ := hi.written_error (hok hfull)
        have hf := LogFile.flushLogToDisk_error (show n < h.log.buffer.length by omega)
        exact ⟨_, rs', t', by rw [LogHistory.step, LogFile.addLogToBuffer_error hfull hf], hi'⟩
    · have hfull' := Bool.eq_false_iff.2 hfull
      have hroom : (h.log.buffer.length + e.body.totLen : Int) ≤ logBufferSize := by
        simpa [LogFile.isFull] using hfull'
      exact ⟨_, rs, t, by simp only [LogHistory.step, LogFile.addLogToBuffer_room hfull', hfull]; rfl,
        hi.put e hroom⟩
  | restart =>
    obtain ⟨log, hlog, hi'⟩ := hi.restart
    exact ⟨_, rs, t, by rw [LogHistory.step, hlog]; rfl, hi'⟩

/-- **What an allowed run keeps.** -/
theorem Inv.run {es : List LogEvent} : ∀ {h : LogHistory} {rs : List LogRecord} {t : Bytes}, h.Inv rs t →
    h.Meets es → ∃ h' rs' t', h.run es = some h' ∧ h'.Inv rs' t' := by
  induction es with
  | nil => exact fun hi _ => ⟨_, _, _, rfl, hi⟩
  | cons e es ih =>
    intro h rs t hi hm
    obtain ⟨h₁, rs₁, t₁, hstep, hi₁⟩ := hi.step hm.1
    obtain ⟨h', rs', t', hrun, hi'⟩ := ih hi₁ (hm.2 h₁ hstep)
    refine ⟨h', rs', t', ?_, hi'⟩
    rw [LogHistory.run, List.foldlM_cons, hstep]
    exact hrun

/-- **No durable record becomes unreadable** while nothing is written behind a record that was cut: in every such run
each restart comes back, and the next `analyze` decodes every record whose write returned. -/
theorem readable_of_meets (es : List LogEvent) (hm : start.Meets es) :
    ∃ h, start.run es = some h ∧ h.Readable := by
  obtain ⟨h, rs, t, hrun, hi⟩ := inv_start.run hm
  exact ⟨h, hrun, hi.readable⟩

/-- The record that `begin` appends, and the one of `commit`. -/
def beginEntry (tid : Int) (h : -2 ^ 63 ≤ tid ∧ tid < 2 ^ 63) : LogEntry :=
  ⟨tid, invalidLsn, .begin, h, by decide, trivial, by decide⟩

def commitEntry (tid : Int) (h : -2 ^ 63 ≤ tid ∧ tid < 2 ^ 63) : LogEntry :=
  ⟨tid, 0, .commit, h, by decide, trivial, by decide⟩

/-- A flush cut between two records, a crash, and the log of the next process. -/
def boundaryRun : List LogEvent :=
  [.append (beginEntry 1 (by decide)) 0, .append (commitEntry 1 (by decide)) 0, .flush 24, .restart,
    .append (beginEntry 2 (by decide)) 0, .append (commitEntry 2 (by decide)) 0, .flush 48, .restart]

theorem readable_of_meets_boundaryRun : start.Meets boundaryRun ∧ ∃ h, start.run boundaryRun = some h ∧ h.Readable :=
  ⟨by decide +kernel, readable_of_meets boundaryRun (by decide +kernel)⟩

/-- A flush cut after ten bytes, a crash, and a flush of the next process that returns. -/
def cutRun : List LogEvent :=
  [.append (beginEntry 1 (by decide)) 0, .flush 10, .restart, .append (beginEntry 2 (by decide)) 0, .flush 24]

/-- **A durable record becomes unreadable**: behind the ten bytes the loop of `analyze` finds no record. -/
theorem not_readable_cutRun : ¬∀ es h, start.run es = some h → h.Readable := by
  intro hall
  have hrun : (start.run cutRun).map (fun h => (h.durable.length, readRecords h.log.dbLog)) =
      some (1, some ([], 0)) := by decide +kernel
  obtain ⟨h, hh, hval⟩ := Option.map_eq_some_iff.1 hrun
  obtain ⟨-, rs, off, hread, hsub⟩ := hall cutRun h hh
  obtain ⟨hlen, hnil⟩ := Prod.mk.injEq .. ▸ hval
  rw [hnil] at hread
  cases hread
  rw [List.sublist_nil.1 hsub] at hlen
  cases hlen

end LogHistory

end Rmdb
