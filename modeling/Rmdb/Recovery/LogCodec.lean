import Rmdb.Recovery.LogFile

/-!
# Decoding the log

- `logCodec`: the loop of `analyze` on records of any length, as long as its offsets stay in an `int`;
- `analyzeBytes`: `analyze` over the bytes of `db.log`, with the transaction sets it ends with;
- `Bracketed`: every transaction begins with its begin record and ends with its commit or abort record. Then the active
  transactions are those that did not end (`active_iff`);
- `analyzeBytes_serialize`: whole records and then part of one give these records and these transactions, within one
  `read` and the offsets of an `int`.
-/

namespace Rmdb

open Lib

/-! ## The loop -/

theorem nextRecord_end (data : Bytes) : nextRecord data data.length = .stop := by
  simp [nextRecord, logHeaderSize]

/-- The loop of `analyze`, without the limit of `read`. -/
def logCodec : Framing LogRecord UInt8 where
  encode := LogRecord.serialize
  next := nextRecord
  limit := intMax.toNat
  Valid := LogRecord.Typed
  next_encode pre rest _ h hl := nextRecord_serialize pre rest h (Int.ofNat_le.2 hl)
  next_torn pre p q _ _ he hq hl := nextRecord_torn pre p q he hq (.inr (Int.ofNat_le.2 hl))
  next_end := nextRecord_end

/-- The bytes of the records. -/
def serializeAll (rs : List LogRecord) : Bytes := rs.flatMap LogRecord.serialize

/-- `analyze`: the records and the transaction sets. -/
def analyzeBytes (dbLog : Bytes) : Option (List LogRecord × TxnSets) :=
  (readRecords dbLog).map fun (logRecords, _) => (logRecords, analyze logRecords)

theorem length_le_serializeAll {rs : List LogRecord} : rs.length ≤ (serializeAll rs).length := by
  induction rs with
  | nil => simp
  | cons r rs ih =>
    have hpos := r.body.totLen_pos
    have hlen : r.serialize.length = r.body.totLen := length_serialize r
    simp only [serializeAll, List.flatMap_cons, List.length_append, List.length_cons] at ih ⊢
    omega

section decode

variable {rs : List LogRecord} {p : Bytes}

/-- Where `read` returns everything, the loop runs over the records and then is at what follows them. -/
theorem readRecords_append (hv : ∀ r ∈ rs, r.Typed) (hl : (serializeAll rs ++ p).length ≤ maxRead)
    (hne : serializeAll rs ++ p ≠ []) :
    ∃ fuel, readRecords (serializeAll rs ++ p) =
      (scan nextRecord (serializeAll rs ++ p) (fuel + 1) (serializeAll rs).length).map
        fun (bs, last) => (rs ++ bs, last) := by
  have hint := toInt32_of_isInt (v := (serializeAll rs ++ p).length) ⟨by omega, by simp only [maxRead] at hl; omega⟩
  have hpos := List.length_pos_iff.2 hne
  have hcount : rs.length ≤ (serializeAll rs).length := length_le_serializeAll
  have hlen : (serializeAll rs ++ p).length = (serializeAll rs).length + p.length := List.length_append
  refine ⟨(serializeAll rs ++ p).length + 1 - rs.length, ?_⟩
  have hfuel : (serializeAll rs ++ p).length + 2 =
      rs.length + ((serializeAll rs ++ p).length + 1 - rs.length + 1) := by
    omega
  have hlimit : ([] ++ logCodec.encodeAll rs).length ≤ logCodec.limit := by
    have hmax : maxRead ≤ intMax.toNat := by decide
    change (serializeAll rs).length ≤ intMax.toNat
    omega
  have hscan := Framing.scan_append [] p ((serializeAll rs ++ p).length + 1 - rs.length + 1) hv hlimit
  unfold readRecords
  simp only [hint]
  rw [if_neg (by omega), if_neg (by omega), Int.toNat_natCast, List.take_length, hfuel]
  exact hscan

/-- **Whole records and then a proper part of one are decoded to the whole records.** -/
theorem readRecords_serialize (hv : ∀ r ∈ rs, r.Typed) {r : LogRecord} {q : Bytes}
    (he : r.serialize = p ++ q) (hq : q ≠ []) (hl : (serializeAll rs ++ p).length ≤ maxRead)
    (hend : p.length < logHeaderSize ∨ ((serializeAll rs ++ r.serialize).length : Int) ≤ intMax) :
    readRecords (serializeAll rs ++ p) = some (rs, ((serializeAll rs).length : Int)) := by
  by_cases hne : serializeAll rs ++ p = []
  · have hcount : rs.length ≤ (serializeAll rs).length := length_le_serializeAll
    have hlen : (serializeAll rs ++ p).length = (serializeAll rs).length + p.length := List.length_append
    rw [hne, List.length_nil] at hlen
    have h0 : rs = [] := List.length_eq_zero_iff.1 (by omega)
    subst h0
    rw [hne]
    rfl
  · obtain ⟨fuel, h⟩ := readRecords_append hv hl hne
    have hstop := nextRecord_torn (serializeAll rs) p q he hq hend
    rw [h]
    simp only [scan, Int.toNat_natCast, hstop, if_neg (by omega : ¬((serializeAll rs).length : Int) < 0), Option.map_some,
      List.append_nil]

/-- Beyond what one `read` returns nothing is decoded. -/
theorem readRecords_long {data : Bytes} (h : maxRead < data.length) (h' : (data.length : Int) ≤ intMax) :
    readRecords data = none := by
  have hint := toInt32_of_isInt (v := data.length) ⟨by omega, by simp only [intMax] at h'; omega⟩
  unfold readRecords
  simp only [hint]
  rw [if_neg (by omega), if_pos (by omega)]

/-- A header whose record would end beyond an `int` is not recognised as the end. -/
theorem readRecords_overflow (hv : ∀ r ∈ rs, r.Typed) {r : LogRecord} {q : Bytes} (hr : (r.totLen : Int) ≤ intMax)
    (he : r.serialize = p ++ q) (hl : (serializeAll rs ++ p).length ≤ maxRead) (hp : logHeaderSize ≤ p.length)
    (hend : intMax < ((serializeAll rs ++ r.serialize).length : Int)) : readRecords (serializeAll rs ++ p) = none := by
  have hne : serializeAll rs ++ p ≠ [] := by
    intro h
    have hlen := congrArg List.length h
    rw [List.length_append, List.length_nil] at hlen
    simp only [logHeaderSize] at hp
    omega
  obtain ⟨fuel, h⟩ := readRecords_append hv hl hne
  obtain ⟨hmin, hint⟩ := totLen_bounds hr
  have htot : logTotLen p = r.totLen := by
    rw [← logTotLen_append q hp, ← he, logTotLen_serialize hr]
  have hfault : nextRecord (serializeAll rs ++ p) (serializeAll rs).length = .fault := by
    simp only [nextRecord, List.drop_left, htot, hint]
    rw [List.length_append, length_serialize r] at hend
    rw [if_neg (by omega), if_neg (by omega), if_pos (by omega)]
  rw [h]
  simp only [scan, Int.toNat_natCast, hfault, if_neg (by omega : ¬((serializeAll rs).length : Int) < 0), Option.map_none]

end decode

/-! ## The active transactions -/

/-- The first record of a transaction is its only begin record, and its commit or abort record is the last one. -/
def Bracketed (rs : List LogRecord) : Prop :=
  ∀ pre r post, rs = pre ++ r :: post →
    ((∀ r' ∈ pre, r'.logTid ≠ r.logTid) ↔ r.body = .begin) ∧ (r.body.ends → ∀ r' ∈ post, r'.logTid ≠ r.logTid)

theorem Bracketed.init {rs : List LogRecord} {r : LogRecord} (h : Bracketed (rs ++ [r])) : Bracketed rs := by
  intro pre r' post he
  have h' := h pre r' (post ++ [r]) (by rw [he]; simp)
  exact ⟨h'.1, fun hends x hx => h'.2 hends x (List.mem_append_left _ hx)⟩

/-- Some record of the transaction ends it. -/
def Ended (rs : List LogRecord) (tid : Int) : Prop := ∃ r ∈ rs, r.logTid = tid ∧ r.body.ends

theorem analyze_append (rs : List LogRecord) (r : LogRecord) : analyze (rs ++ [r]) = (analyze rs).scan r := by
  simp [analyze]

/-- The transactions known as committed or aborted are those that ended. -/
theorem ended_iff (tid : Int) : ∀ rs : List LogRecord,
    ((analyze rs).committed tid || (analyze rs).aborted tid) = true ↔ Ended rs tid := by
  intro rs
  induction rs using List.reverseRecOn with
  | nil => simp [analyze, TxnSets.empty, Ended]
  | append_singleton rs r ih =>
    have hsplit : Ended (rs ++ [r]) tid ↔ Ended rs tid ∨ (r.logTid = tid ∧ r.body.ends) := by
      simp only [Ended, List.mem_append, List.mem_singleton, or_and_right, exists_or, exists_eq_left]
    rw [analyze_append, hsplit, ← ih]
    cases hb : r.body <;> simp only [TxnSets.scan, hb, LogBody.ends, and_true, and_false, or_false]
    case commit | abort =>
      by_cases ht : r.logTid = tid
      · subst ht
        simp
      · simp [Function.update_of_ne (fun h : tid = r.logTid => ht h.symm), ht]
    all_goals
      split <;> rfl

/-- A transaction with a record has a begin record. -/
theorem Bracketed.begun (tid : Int) : ∀ {rs : List LogRecord}, Bracketed rs → (∃ r ∈ rs, r.logTid = tid) →
    ∃ r ∈ rs, r.logTid = tid ∧ r.body = .begin := by
  intro rs
  induction rs using List.reverseRecOn with
  | nil =>
    rintro - ⟨r, hr, -⟩
    cases hr
  | append_singleton rs r ih =>
    intro h hex
    by_cases hin : ∃ r' ∈ rs, r'.logTid = tid
    · obtain ⟨r', hr', h'⟩ := ih h.init hin
      exact ⟨r', List.mem_append_left _ hr', h'⟩
    · obtain ⟨r', hr', htid⟩ := hex
      rcases List.mem_append.1 hr' with hr' | hr'
      · exact absurd ⟨r', hr', htid⟩ hin
      · rw [List.mem_singleton.1 hr'] at htid
        refine ⟨r, by simp, htid, (h rs r [] rfl).1.1 fun x hx he => hin ⟨x, hx, he.trans htid⟩⟩

/-- **The active transactions** of a bracketed log: those with a begin record and no record that ends them. -/
theorem active_iff (tid : Int) : ∀ {rs : List LogRecord}, Bracketed rs →
    ((analyze rs).active tid = true ↔ (∃ r ∈ rs, r.logTid = tid ∧ r.body = .begin) ∧ ¬Ended rs tid) := by
  intro rs
  induction rs using List.reverseRecOn with
  | nil => simp [analyze, TxnSets.empty]
  | append_singleton rs r ih =>
    intro h
    have hr := h rs r [] rfl
    have ih := ih h.init
    have hbegun : (∃ r' ∈ rs ++ [r], r'.logTid = tid ∧ r'.body = .begin) ↔
        (∃ r' ∈ rs, r'.logTid = tid ∧ r'.body = .begin) ∨ (r.logTid = tid ∧ r.body = .begin) := by
      simp only [List.mem_append, List.mem_singleton, or_and_right, exists_or, exists_eq_left]
    have hended : Ended (rs ++ [r]) tid ↔ Ended rs tid ∨ (r.logTid = tid ∧ r.body.ends) := by
      simp only [Ended, List.mem_append, List.mem_singleton, or_and_right, exists_or, exists_eq_left]
    rw [analyze_append, hbegun, hended]
    by_cases ht : r.logTid = tid
    · -- no record of the transaction ended it before
      have hopen : ¬Ended rs tid := by
        rintro ⟨r', hr', htid, hends⟩
        obtain ⟨pre, post, hsplit⟩ := List.append_of_mem hr'
        have h' := h pre r' (post ++ [r]) (by rw [hsplit]; simp)
        exact h'.2 hends r (by simp) (ht.trans htid.symm)
      have hset : ((analyze rs).committed tid || (analyze rs).aborted tid) = false := by
        rw [← Bool.not_eq_true, ended_iff]
        exact hopen
      have hends : (Ended rs tid ∨ (r.logTid = tid ∧ r.body.ends)) ↔ r.body.ends := by
        rw [or_iff_right hopen, and_iff_right ht]
      rw [hends]
      cases hb : r.body
      case «begin» => simp [TxnSets.scan, hb, ht, LogBody.ends]
      case commit | abort => simp [TxnSets.scan, hb, ← ht, LogBody.ends]
      all_goals
        -- a record in the middle has the begin record before it
        have hbegin : ∃ r' ∈ rs, r'.logTid = tid ∧ r'.body = .begin := by
          refine h.init.begun tid ?_
          by_contra hnone
          have hfirst := hr.1.1 fun x hx he => hnone ⟨x, hx, he.trans ht⟩
          rw [hb] at hfirst
          cases hfirst
        rw [← ht] at hset
        simp only [TxnSets.scan, hb, hset, Bool.false_eq_true, if_false]
        simp [ht, hbegin, LogBody.ends]
    · have hne : tid ≠ r.logTid := fun he => ht he.symm
      have hsame : ((analyze rs).scan r).active tid = (analyze rs).active tid := by
        cases hb : r.body <;> simp only [TxnSets.scan, hb]
        case «begin» | commit | abort => exact Function.update_of_ne hne _ _
        all_goals
          split
          · rfl
          · exact Function.update_of_ne hne _ _
      rw [hsame, ih]
      simp [ht]

/-! ## Encoding and decoding -/

/-- **The decoder undoes the encoder**: each record has the length it states, and of whole records and a proper part of
one more the whole records are decoded, with the active transactions. -/
theorem analyzeBytes_serialize {rs : List LogRecord} {r : LogRecord} {p q : Bytes} (hv : ∀ r ∈ rs, r.Typed)
    (he : r.serialize = p ++ q) (hq : q ≠ []) (hl : (serializeAll rs ++ p).length ≤ maxRead)
    (hend : p.length < logHeaderSize ∨ ((serializeAll rs ++ r.serialize).length : Int) ≤ intMax) :
    (∀ r : LogRecord, r.serialize.length = r.totLen) ∧
    ∃ sets, analyzeBytes (serializeAll rs ++ p) = some (rs, sets) ∧
      (Bracketed rs → ∀ tid, sets.active tid = true ↔ (∃ r ∈ rs, r.logTid = tid ∧ r.body = .begin) ∧ ¬Ended rs tid) := by
  refine ⟨length_serialize, analyze rs, ?_, fun hb tid => active_iff tid hb⟩
  rw [analyzeBytes, readRecords_serialize hv he hq hl hend]
  rfl

/-- A begin record, and an insert record of five thousand bytes. -/
def shortRecord : LogRecord := ⟨0, 1, -1, .begin⟩

def longRecord : LogRecord := ⟨1, 1, -1, .insert (List.replicate 5000 0) ⟨1, 0⟩ "t"⟩

theorem shortRecord_typed : shortRecord.Typed := ⟨by decide, by decide, by decide, trivial⟩

theorem longRecord_typed : longRecord.Typed := ⟨by decide, by decide, by decide, by decide, by decide⟩

theorem totLen_longRecord : longRecord.totLen = 5045 := by
  have hname : "t".utf8ByteSize = 1 := by decide
  simp only [LogRecord.totLen, longRecord, LogBody.totLen, List.length_replicate, hname, logHeaderSize]

/-- A transaction that ended. -/
def endedLog : List LogRecord := [shortRecord, ⟨1, 1, 0, .commit⟩]

theorem analyzeBytes_serialize_endedLog :
    longRecord.serialize.length = longRecord.totLen ∧
    ∃ sets, analyzeBytes (serializeAll endedLog ++ longRecord.serialize.take 30) = some (endedLog, sets) ∧
      (Bracketed endedLog → (sets.active 1 = true ↔
        (∃ r ∈ endedLog, r.logTid = 1 ∧ r.body = .begin) ∧ ¬Ended endedLog 1)) := by
  have hlen := length_serialize longRecord
  rw [totLen_longRecord] at hlen
  have hended : (serializeAll endedLog).length = 48 := by decide +kernel
  have htake : (longRecord.serialize.take 30).length = 30 := by rw [List.length_take, hlen]; rfl
  have hv : ∀ r ∈ endedLog, r.Typed := by
    simp only [endedLog, List.mem_cons, List.not_mem_nil, or_false, forall_eq_or_imp, forall_eq]
    exact ⟨shortRecord_typed, by decide, by decide, by decide, trivial⟩
  have hdrop : longRecord.serialize.drop 30 ≠ [] := by
    apply List.ne_nil_of_length_pos
    rw [List.length_drop, hlen]
    decide
  obtain ⟨hserialize, sets, hsets, hactive⟩ := analyzeBytes_serialize hv
    (List.take_append_drop 30 longRecord.serialize).symm hdrop
    (by rw [List.length_append, hended, htake]; decide)
    (.inr (by rw [List.length_append, hended, hlen]; decide))
  exact ⟨hserialize longRecord, sets, hsets, fun h => hactive h 1⟩

theorem length_serializeAll_replicate (n : Nat) (r : LogRecord) :
    (serializeAll (List.replicate n r)).length = n * r.totLen := by
  induction n with
  | zero => simp [serializeAll]
  | succ n ih =>
    rw [serializeAll] at ih
    rw [List.replicate_succ, serializeAll, List.flatMap_cons, List.length_append, ih, length_serialize, Nat.succ_mul,
      Nat.add_comm]

/-- **One `read` and an `int` limit what is decoded**, and a transaction without a begin record is active: below 2^31
bytes the records are not always decoded, not even where one `read` returns all bytes, and the active transactions
are not always those with a begin record. -/
theorem not_analyzeBytes_serialize :
    (¬∀ (rs : List LogRecord) (r : LogRecord) (p q : Bytes), (∀ r ∈ rs, r.Typed) → r.Typed → r.serialize = p ++ q →
      q ≠ [] → (serializeAll rs ++ p).length < 2 ^ 31 →
      ∃ sets, analyzeBytes (serializeAll rs ++ p) = some (rs, sets)) ∧
    (¬∀ (rs : List LogRecord) (r : LogRecord) (p q : Bytes), (∀ r ∈ rs, r.Typed) → r.Typed → r.serialize = p ++ q →
      q ≠ [] → (serializeAll rs ++ p).length ≤ maxRead →
      ∃ sets, analyzeBytes (serializeAll rs ++ p) = some (rs, sets)) ∧
    ¬∀ (rs : List LogRecord) (sets : TxnSets), (∀ r ∈ rs, r.Typed) →
      (∀ pre r post, rs = pre ++ r :: post → (r.body = .begin → ∀ r' ∈ pre, r'.logTid ≠ r.logTid) ∧
        (r.body.ends → ∀ r' ∈ post, r'.logTid ≠ r.logTid)) →
      analyzeBytes (serializeAll rs) = some (rs, sets) →
      ∀ tid, sets.active tid = true ↔ (∃ r ∈ rs, r.logTid = tid ∧ r.body = .begin) ∧ ¬Ended rs tid := by
  have htyped (n : Nat) : ∀ r ∈ List.replicate n shortRecord, r.Typed := by
    intro r hr
    rw [(List.mem_replicate.1 hr).2]
    exact shortRecord_typed
  have hbegin : shortRecord.totLen = 24 := rfl
  refine ⟨?_, ?_, ?_⟩
  · intro h
    have hlen := length_serializeAll_replicate 89478485 shortRecord
    rw [hbegin] at hlen
    have hne : shortRecord.serialize ≠ [] := by decide +kernel
    obtain ⟨sets, hsets⟩ := h (List.replicate 89478485 shortRecord) shortRecord [] shortRecord.serialize
      (htyped _) shortRecord_typed rfl hne (by rw [List.append_nil, hlen]; decide)
    rw [List.append_nil, analyzeBytes,
      readRecords_long (by rw [hlen]; decide) (by rw [hlen]; decide)] at hsets
    cases hsets
  · intro h
    have hlen := length_serializeAll_replicate 89478312 shortRecord
    rw [hbegin] at hlen
    have hins := length_serialize longRecord
    rw [totLen_longRecord] at hins
    have htake : (longRecord.serialize.take 24).length = 24 := by rw [List.length_take, hins]; rfl
    have hdrop : longRecord.serialize.drop 24 ≠ [] := by
      apply List.ne_nil_of_length_pos
      rw [List.length_drop, hins]
      decide
    have he := (List.take_append_drop 24 longRecord.serialize).symm
    have hl : (serializeAll (List.replicate 89478312 shortRecord) ++ longRecord.serialize.take 24).length ≤ maxRead := by
      rw [List.length_append, hlen, htake]
      decide
    obtain ⟨sets, hsets⟩ := h _ longRecord _ _ (htyped _) longRecord_typed he hdrop hl
    have hnone := readRecords_overflow (htyped _) (by rw [totLen_longRecord]; decide) he hl
      (by rw [htake]; decide) (by rw [List.length_append, hlen, hins]; decide)
    rw [analyzeBytes, hnone] at hsets
    cases hsets
  · intro h
    let r : LogRecord := ⟨0, 1, -1, .insert [] ⟨1, 0⟩ "t"⟩
    have hread : analyzeBytes (serializeAll [r]) = some ([r], analyze [r]) := by
      have hr : readRecords (serializeAll [r]) = some ([r], 45) := by decide +kernel
      rw [analyzeBytes, hr]
      rfl
    have hbracket : ∀ pre r' post, [r] = pre ++ r' :: post → (r'.body = .begin → ∀ x ∈ pre, x.logTid ≠ r'.logTid) ∧
        (r'.body.ends → ∀ x ∈ post, x.logTid ≠ r'.logTid) := by
      intro pre r' post he
      have hone : pre = [] ∧ r' = r ∧ post = [] := by
        cases pre with
        | nil => simpa [eq_comm] using he
        | cons x pre => simp at he
      rw [hone.1, hone.2.2]
      simp
    have hactive := (h [r] (analyze [r]) (by simpa using (⟨by decide, by decide, by decide, by decide, by decide⟩ : r.Typed))
      hbracket hread 1).1 (by decide +kernel)
    obtain ⟨⟨r', hr', -, hb⟩, -⟩ := hactive
    rw [List.mem_singleton.1 hr'] at hb
    cases hb

end Rmdb
