import Rmdb.Recovery.LogFile

/-!
# The loop of `analyze` on any bytes

- `LoopTotal`: from every offset the loop goes on to a larger one, and what it reads of a record lies within the bytes
  that the record states, until it stops;
- `WellFramed`: the frames from an offset on, each with a length that an `int` can step over and inner lengths that stay
  inside it, up to a place at which the loop stops;
- `analyzeTotal_iff`: the first holds of a file exactly when the second does. Neither the inner lengths nor a length
  from 2^31 on are checked by the loop.
-/

namespace Rmdb

open Lib Lib.Reader LogRecord

/-! ## What a round reads -/

/-- The number of bytes that a round reads of a record: `deserialize` reads on from its first byte without a gap. `none`
where it reads beyond all bytes, or asks for an array of negative size. -/
def bytesRead (src : Bytes) : Option Nat :=
  match readBody (readInt src) with
  | none => some logHeaderSize
  | some body => ((deserialize body).run src).map fun (_, rest) => src.length - rest.length

/-- The loop takes what is at the offset for a record. -/
def Taken (allData : Bytes) (offset : Nat) : Prop :=
  logHeaderSize ≤ (allData.drop offset).length ∧ logHeaderSize ≤ logTotLen (allData.drop offset) ∧
    offset + toInt32 (logTotLen (allData.drop offset)) ≤ allData.length

instance (allData : Bytes) (offset : Nat) : Decidable (Taken allData offset) := inferInstanceAs (Decidable (_ ∧ _ ∧ _))

/-- The offsets that the loop comes to. -/
inductive Visits (allData : Bytes) : Int → Prop
  | start : Visits allData 0
  | next {offset : Int} : Visits allData offset → Taken allData offset.toNat →
      Visits allData (offset + toInt32 (logTotLen (allData.drop offset.toNat)))

structure LoopTotal (allData : Bytes) : Prop where
  returns : ∃ fuel, (scan nextRecord allData fuel 0).isSome = true
  nonneg : ∀ offset, Visits allData offset → 0 ≤ offset
  increases : ∀ offset, Visits allData offset → Taken allData offset.toNat →
    0 < toInt32 (logTotLen (allData.drop offset.toNat))
  inside : ∀ offset, Visits allData offset → Taken allData offset.toNat →
    ∃ n, bytesRead (allData.drop offset.toNat) = some n ∧ n ≤ logTotLen (allData.drop offset.toNat) ∧
      offset.toNat + logTotLen (allData.drop offset.toNat) ≤ allData.length

/-- The size in front of an `RmRecord`. -/
def valueSize (src : Bytes) (i : Nat) : Int := readInt (src.drop i)

/-- The size in front of a table name. -/
def nameSize (src : Bytes) (i : Nat) : Nat := leNat ((src.drop i).take 8)

/-- The inner lengths stay within `totLen`. -/
def Contained (src : Bytes) (totLen : Nat) : Prop :=
  if readInt src = 0 then
    0 ≤ valueSize src 24 ∧ 0 ≤ valueSize src (28 + (valueSize src 24).toNat) ∧
      48 + (valueSize src 24).toNat + (valueSize src (28 + (valueSize src 24).toNat)).toNat +
        nameSize src (40 + (valueSize src 24).toNat + (valueSize src (28 + (valueSize src 24).toNat)).toNat) ≤ totLen
  else if readInt src = 1 ∨ readInt src = 2 then
    0 ≤ valueSize src 24 ∧
      44 + (valueSize src 24).toNat + nameSize src (36 + (valueSize src 24).toNat) ≤ totLen
  else True

inductive WellFramed (allData : Bytes) : Nat → Prop
  /-- Less than a header is left, or the length is less than a header. -/
  | stop {offset : Nat} : (allData.drop offset).length < logHeaderSize ∨
      logTotLen (allData.drop offset) < logHeaderSize → WellFramed allData offset
  /-- The record does not end in the file, but its end is an `int`. -/
  | torn {offset : Nat} : allData.length < offset + logTotLen (allData.drop offset) →
      (offset + logTotLen (allData.drop offset) : Nat) ≤ intMax → WellFramed allData offset
  | record {offset : Nat} : logHeaderSize ≤ logTotLen (allData.drop offset) →
      offset + logTotLen (allData.drop offset) ≤ allData.length →
      Contained (allData.drop offset) (logTotLen (allData.drop offset)) →
      WellFramed allData (offset + logTotLen (allData.drop offset)) → WellFramed allData offset

/-! ## The fields -/

section fields
variable {src : Bytes} {i k : Nat}

theorem run_take_drop : (take k : Reader UInt8 Bytes).run (src.drop i) =
    if k ≤ (src.drop i).length then some ((src.drop i).take k, src.drop (i + k)) else none := by
  split
  · next h => rw [run_take h, List.drop_drop]
  · next h => exact if_neg h

theorem run_int_drop : int.run (src.drop i) =
    if i + 4 ≤ src.length then some (valueSize src i, src.drop (i + 4)) else none := by
  have hread : readInt ((src.drop i).take 4) = readInt (src.drop i) := by
    rw [readInt, readInt, List.take_take, Nat.min_self]
  rw [int, StateT.run_map, run_take_drop, List.length_drop]
  by_cases h : i + 4 ≤ src.length
  · rw [if_pos (by omega), if_pos h]
    simp only [Option.map_eq_map, Option.map_some, hread, valueSize]
  · rw [if_neg (by omega), if_neg h]
    rfl

theorem run_rmRecord_drop : rmRecord.run (src.drop i) =
    if 0 ≤ valueSize src i ∧ i + 4 + (valueSize src i).toNat ≤ src.length then
      some ((src.drop (i + 4)).take (valueSize src i).toNat, src.drop (i + 4 + (valueSize src i).toNat))
    else none := by
  unfold rmRecord
  rw [StateT.run_bind, run_int_drop]
  by_cases h4 : i + 4 ≤ src.length
  · rw [if_pos h4]
    simp only [Option.bind_eq_bind, Option.bind_some]
    by_cases h0 : valueSize src i < 0
    · rw [if_pos h0, if_neg (by omega)]
      rfl
    · rw [if_neg h0, run_take_drop, List.length_drop]
      by_cases hv : i + 4 + (valueSize src i).toNat ≤ src.length
      · rw [if_pos (by omega), if_pos ⟨by omega, hv⟩]
      · rw [if_neg (by omega), if_neg (by omega)]
  · rw [if_neg h4, if_neg (by omega)]
    rfl

theorem run_rid_drop : rid.run (src.drop i) =
    if i + 8 ≤ src.length then some (⟨valueSize src i, valueSize src (i + 4)⟩, src.drop (i + 8)) else none := by
  unfold rid
  rw [StateT.run_bind, run_int_drop]
  by_cases h4 : i + 4 ≤ src.length
  · rw [if_pos h4]
    simp only [Option.bind_eq_bind, Option.bind_some, StateT.run_bind, run_int_drop]
    by_cases h8 : i + 4 + 4 ≤ src.length
    · rw [if_pos h8, if_pos (by omega)]
      rfl
    · rw [if_neg h8, if_neg (by omega)]
      rfl
  · rw [if_neg h4, if_neg (by omega)]
    rfl

theorem run_tableName_drop : tableName.run (src.drop i) =
    if i + 8 + nameSize src i ≤ src.length then
      some (nameOf ((src.drop (i + 8)).take (nameSize src i)), src.drop (i + 8 + nameSize src i))
    else none := by
  unfold tableName unsigned
  simp only [StateT.run_bind, StateT.run_map, run_take_drop, List.length_drop]
  by_cases h8 : i + 8 ≤ src.length
  · rw [if_pos (by omega)]
    simp only [Option.map_eq_map, Option.map_some, Option.bind_eq_bind, Option.bind_some, run_take_drop, List.length_drop]
    change (if nameSize src i ≤ src.length - (i + 8) then _ else _ : Option _).bind _ = _
    by_cases hn : i + 8 + nameSize src i ≤ src.length
    · rw [if_pos (by omega), if_pos hn]
      rfl
    · rw [if_neg (by omega), if_neg hn]
      rfl
  · rw [if_neg (by omega), if_neg (by omega)]
    rfl

/-- Behind the header only the body counts. -/
theorem run_deserialize (body : Reader UInt8 LogBody) (h : logHeaderSize ≤ src.length) :
    ((deserialize body).run src).map Prod.snd = (body.run (src.drop logHeaderSize)).map Prod.snd := by
  unfold logHeaderSize at h ⊢
  have hhead : ∀ {γ : Type} (f : Int → Reader UInt8 γ) (i : Nat), i + 4 ≤ 24 →
      (int >>= f).run (src.drop i) = (f (valueSize src i)).run (src.drop (i + 4)) := by
    intro γ f i hi
    rw [StateT.run_bind, run_int_drop, if_pos (by omega)]
    rfl
  have htake : ∀ {γ δ : Type} (g : Bytes → γ) (f : γ → Reader UInt8 δ) (i k : Nat), i + k ≤ 24 →
      ((g <$> take k) >>= f).run (src.drop i) = (f (g ((src.drop i).take k))).run (src.drop (i + k)) := by
    intro γ δ g f i k hi
    rw [StateT.run_bind, StateT.run_map, run_take_drop, if_pos (by rw [List.length_drop]; omega)]
    rfl
  unfold deserialize unsigned int64
  change Option.map Prod.snd (StateT.run _ (src.drop 0)) = _
  rw [hhead _ 0 (by omega), hhead _ 4 (by omega), htake _ _ 8 4 (by omega),
    htake _ _ 12 8 (by omega), hhead _ 20 (by omega), StateT.run_bind]
  cases body.run (src.drop 24) with
  | none => rfl
  | some r => rfl

end fields

section reads
variable {src : Bytes} {totLen : Nat}

/-- Where the reader ends tells how much was read. -/
theorem bytesRead_of_body {body : Reader UInt8 LogBody} (h : logHeaderSize ≤ src.length)
    (hbody : readBody (readInt src) = some body) :
    bytesRead src = ((body.run (src.drop logHeaderSize)).map Prod.snd).map fun rest => src.length - rest.length := by
  rw [bytesRead, hbody, ← run_deserialize body h, Option.map_map]
  rfl

/-- A value, a rid and a table name. -/
theorem run_values {i : Nat} (f : Bytes → Rid → TabName → LogBody) :
    ((do
      let v ← rmRecord
      let rid ← rid
      let tableName ← tableName
      return f v rid tableName : Reader UInt8 LogBody).run (src.drop i)).map Prod.snd =
      if 0 ≤ valueSize src i ∧
          i + 20 + (valueSize src i).toNat + nameSize src (i + 12 + (valueSize src i).toNat) ≤ src.length then
        some (src.drop (i + 20 + (valueSize src i).toNat + nameSize src (i + 12 + (valueSize src i).toNat)))
      else none := by
  have hplace : i + 4 + (valueSize src i).toNat + 8 = i + 12 + (valueSize src i).toNat := by omega
  have hend : i + 12 + (valueSize src i).toNat + 8 = i + 20 + (valueSize src i).toNat := by omega
  simp only [StateT.run_bind, run_rmRecord_drop]
  by_cases hv : 0 ≤ valueSize src i ∧ i + 4 + (valueSize src i).toNat ≤ src.length
  · rw [if_pos hv]
    simp only [Option.bind_eq_bind, Option.bind_some, run_rid_drop, hplace]
    by_cases hr : i + 12 + (valueSize src i).toNat ≤ src.length
    · rw [if_pos hr]
      simp only [Option.bind_some, run_tableName_drop, hend]
      split
      · next hn =>
        rw [if_pos ⟨hv.1, hn⟩]
        rfl
      · next hn =>
        rw [if_neg fun h => hn h.2]
        rfl
    · rw [if_neg hr, if_neg (by omega)]
      rfl
  · rw [if_neg hv, if_neg (by omega)]
    rfl

/-- The number of bytes up to a place, if the reader gets there. -/
theorem exists_map_length {p : Prop} [Decidable p] {n : Nat} (hn : p → n ≤ src.length) :
    (∃ k, (if p then some (src.drop n) else none).map (fun rest => src.length - rest.length) = some k ∧ k ≤ totLen) ↔
      p ∧ n ≤ totLen := by
  by_cases hp : p
  · have hlen := hn hp
    simp only [hp, if_true, Option.map_some, Option.some.injEq, List.length_drop, true_and]
    constructor
    · rintro ⟨k, hk, hkle⟩
      omega
    · intro hnle
      exact ⟨_, rfl, by omega⟩
  · simp [hp]

/-- What a round reads stays within the record exactly when the inner lengths do. -/
theorem contained_iff (h : logHeaderSize ≤ src.length) (htot : logHeaderSize ≤ totLen) (hle : totLen ≤ src.length) :
    Contained src totLen ↔ ∃ n, bytesRead src = some n ∧ n ≤ totLen := by
  unfold Contained
  split
  · next htype =>
    have hbody : bytesRead src = (((do
        let oldValue ← rmRecord
        let newValue ← rmRecord
        let rid ← rid
        let tableName ← tableName
        return .update oldValue newValue rid tableName : Reader UInt8 LogBody).run (src.drop 24)).map Prod.snd).map
        fun rest => src.length - rest.length := bytesRead_of_body h (by rw [htype]; rfl)
    rw [hbody, StateT.run_bind, run_rmRecord_drop]
    by_cases ho : 0 ≤ valueSize src 24 ∧ 24 + 4 + (valueSize src 24).toNat ≤ src.length
    · rw [if_pos ho]
      have hplace : 24 + 4 + (valueSize src 24).toNat = 28 + (valueSize src 24).toNat := by omega
      have hname : 40 + (valueSize src 24).toNat = 28 + (valueSize src 24).toNat + 12 := by omega
      have hend : 48 + (valueSize src 24).toNat = 28 + (valueSize src 24).toNat + 20 := by omega
      rw [hplace, hname, hend]
      simp only [Option.bind_eq_bind, Option.bind_some]
      rw [run_values, exists_map_length fun h => h.2]
      omega
    · rw [if_neg ho]
      constructor
      · intro hc
        omega
      · rintro ⟨n, hn, -⟩
        cases hn
  · split
    · next htype =>
      have hvalues : bytesRead src = (if 0 ≤ valueSize src 24 ∧
          24 + 20 + (valueSize src 24).toNat + nameSize src (24 + 12 + (valueSize src 24).toNat) ≤ src.length then
        some (src.drop (24 + 20 + (valueSize src 24).toNat + nameSize src (24 + 12 + (valueSize src 24).toNat)))
        else none).map fun rest => src.length - rest.length := by
        rcases htype with htype | htype
        · rw [bytesRead_of_body h (by rw [htype]; rfl)]
          exact congrArg _ (run_values .insert)
        · rw [bytesRead_of_body h (by rw [htype]; rfl)]
          exact congrArg _ (run_values .delete)
      rw [hvalues, exists_map_length fun h => h.2]
      have h44 : 24 + 20 + (valueSize src 24).toNat = 44 + (valueSize src 24).toNat := by omega
      have h36 : 24 + 12 + (valueSize src 24).toNat = 36 + (valueSize src 24).toNat := by omega
      rw [h44, h36]
      omega
    · next h0 h12 =>
      refine ⟨fun _ => ⟨logHeaderSize, ?_, htot⟩, fun _ => trivial⟩
      have hpure : ∀ b : LogBody, readBody (readInt src) = some (pure b) → bytesRead src = some logHeaderSize := by
        intro b hb
        rw [bytesRead_of_body h hb, StateT.run_pure]
        simp only [Option.pure_def, Option.map_some, List.length_drop, Option.some.injEq]
        omega
      by_cases h3 : readInt src = 3
      · exact hpure .begin (by rw [h3]; rfl)
      · by_cases h4 : readInt src = 4
        · exact hpure .commit (by rw [h4]; rfl)
        · by_cases h5 : readInt src = 5
          · exact hpure .abort (by rw [h5]; rfl)
          · rw [bytesRead]
            simp only [readBody, h0, h3, h4, h5, not_or.1 h12, if_false]

end reads

/-! ## The rounds -/

section rounds
variable {allData : Bytes} {offset : Nat}

theorem logTotLen_lt (src : Bytes) : logTotLen src < 2 ^ 32 := by
  have h := leNat_lt ((src.drop 8).take 4)
  have hlen : ((src.drop 8).take 4).length ≤ 4 := List.length_take_le ..
  exact Nat.lt_of_lt_of_le h (Nat.pow_le_pow_right (by decide) hlen)

/-- A length from 2^31 on is a step back. -/
theorem toInt32_natCast {n : Nat} (h : n < 2 ^ 32) :
    toInt32 n = n ∧ n < 2 ^ 31 ∨ toInt32 n < 0 ∧ 2 ^ 31 ≤ n := by
  by_cases hlt : n < 2 ^ 31
  · exact .inl ⟨toInt32_of_isInt ⟨by omega, by omega⟩, hlt⟩
  · right
    refine ⟨?_, by omega⟩
    rw [toInt32, BitVec.toInt_ofInt, Int.bmod_def]
    omega

/-- A record that is taken is stepped over, unless reading it fails. -/
theorem nextRecord_taken (hmax : (allData.length : Int) ≤ intMax) (h : Taken allData offset) :
    nextRecord allData offset = .fault ∧ bytesRead (allData.drop offset) = none ∨
      (nextRecord allData offset = .skip (toInt32 (logTotLen (allData.drop offset))) ∨
        ∃ r, nextRecord allData offset = .record r (toInt32 (logTotLen (allData.drop offset)))) ∧
      ∃ n, bytesRead (allData.drop offset) = some n := by
  obtain ⟨hhead, htot, hend⟩ := h
  simp only [nextRecord, bytesRead]
  rw [if_neg (by omega), if_neg (by omega), if_neg (by omega), if_neg (by omega)]
  cases readBody (readInt (allData.drop offset)) with
  | none => exact .inr ⟨.inl rfl, _, rfl⟩
  | some body =>
    dsimp only
    cases (deserialize body).run (allData.drop offset) with
    | none => exact .inl ⟨rfl, rfl⟩
    | some r => exact .inr ⟨.inr ⟨r.1, rfl⟩, _, rfl⟩

/-- The loop goes on behind a record that is taken. -/
theorem isSome_scan_taken (hmax : (allData.length : Int) ≤ intMax) (h : Taken allData offset) (fuel : Nat) :
    (scan nextRecord allData (fuel + 1) offset).isSome = true ↔ (∃ n, bytesRead (allData.drop offset) = some n) ∧
      (scan nextRecord allData fuel (offset + toInt32 (logTotLen (allData.drop offset)))).isSome = true := by
  rw [scan, if_neg (by omega), Int.toNat_natCast]
  rcases nextRecord_taken hmax h with ⟨hnext, hread⟩ | ⟨hnext | ⟨r, hnext⟩, hread⟩
  · simp [hnext, hread]
  · simp only [hnext, hread, true_and]
  · simp only [hnext, hread, true_and, Option.isSome_map]

/-- A record that is taken in a well framed file is whole. -/
theorem WellFramed.of_taken (hmax : (allData.length : Int) ≤ intMax) (h : WellFramed allData offset)
    (ht : Taken allData offset) :
    toInt32 (logTotLen (allData.drop offset)) = logTotLen (allData.drop offset) ∧
      offset + logTotLen (allData.drop offset) ≤ allData.length ∧
      Contained (allData.drop offset) (logTotLen (allData.drop offset)) ∧
      WellFramed allData (offset + logTotLen (allData.drop offset)) := by
  have hint := toInt32_natCast (logTotLen_lt (allData.drop offset))
  have hbound : intMax < 2 ^ 31 := by decide
  obtain ⟨hhead, htot, hend⟩ := ht
  cases h with
  | stop hstop => omega
  | torn hlt hint => omega
  | record h24 hle hcont hnext => exact ⟨by omega, hle, hcont, hnext⟩

theorem isSome_scan_of_wellFramed (hmax : (allData.length : Int) ≤ intMax) (h : WellFramed allData offset) :
    ∃ fuel, (scan nextRecord allData fuel offset).isSome = true := by
  have hstops : ∀ {offset : Nat}, nextRecord allData offset = .stop →
      ∃ fuel, (scan nextRecord allData fuel offset).isSome = true := by
    intro offset h
    refine ⟨1, ?_⟩
    rw [scan, if_neg (by omega), Int.toNat_natCast, h]
    rfl
  induction h with
  | @stop offset hstop =>
    apply hstops
    simp only [nextRecord]
    by_cases hlen : (allData.drop offset).length < logHeaderSize
    · rw [if_pos hlen]
    · rw [if_neg hlen, if_pos (hstop.resolve_left hlen)]
  | @torn offset hlt hint =>
    apply hstops
    have htot : toInt32 (logTotLen (allData.drop offset)) = logTotLen (allData.drop offset) :=
      toInt32_of_isInt ⟨by omega, by have hbound : intMax < 2 ^ 31 := by decide
                                     omega⟩
    simp only [nextRecord, htot]
    split
    · rfl
    · split
      · rfl
      · rw [if_neg (by omega), if_pos (by omega)]
  | @record offset h24 hle hcont hnext ih =>
    obtain ⟨fuel, hfuel⟩ := ih
    have htot : toInt32 (logTotLen (allData.drop offset)) = logTotLen (allData.drop offset) :=
      toInt32_of_isInt ⟨by omega, by have hbound : intMax < 2 ^ 31 := by decide
                                     omega⟩
    have hlen : logTotLen (allData.drop offset) ≤ (allData.drop offset).length := by
      rw [List.length_drop]
      omega
    have ht : Taken allData offset := ⟨Nat.le_trans h24 hlen, h24, by rw [htot]; omega⟩
    obtain ⟨n, hn, -⟩ := (contained_iff ht.1 h24 hlen).1 hcont
    refine ⟨fuel + 1, (isSome_scan_taken hmax ht fuel).2 ⟨⟨n, hn⟩, ?_⟩⟩
    rwa [htot, ← Int.natCast_add]

theorem WellFramed.of_visits (hmax : (allData.length : Int) ≤ intMax) (h : WellFramed allData 0) {offset : Int} (hv : Visits allData offset) :
    ∃ o : Nat, offset = o ∧ WellFramed allData o := by
  induction hv with
  | start => exact ⟨0, rfl, h⟩
  | next hv ht ih =>
    obtain ⟨o, rfl, ho⟩ := ih
    rw [Int.toNat_natCast] at ht ⊢
    obtain ⟨hint, -, -, hnext⟩ := ho.of_taken hmax ht
    exact ⟨_, by rw [hint, Int.natCast_add], hnext⟩

end rounds

/-! ## The statement -/

section statement
variable {allData : Bytes}

/-- The loop comes back from every offset that it comes to. -/
theorem isSome_scan_of_visits (hmax : (allData.length : Int) ≤ intMax) (h : LoopTotal allData) {offset : Int}
    (hv : Visits allData offset) : ∃ fuel, (scan nextRecord allData fuel offset).isSome = true := by
  induction hv with
  | start => exact h.returns
  | @next offset hv ht ih =>
    obtain ⟨fuel, hfuel⟩ := ih
    have h0 := h.nonneg offset hv
    cases fuel with
    | zero => cases hfuel
    | succ fuel =>
      rw [← Int.toNat_of_nonneg h0, isSome_scan_taken hmax ht] at hfuel
      rw [Int.toNat_of_nonneg h0] at hfuel
      exact ⟨fuel, hfuel.2⟩

theorem wellFramed_of_visits (hmax : (allData.length : Int) ≤ intMax) (h : LoopTotal allData) (offset : Nat)
    (hv : Visits allData offset) : WellFramed allData offset := by
  have hint := toInt32_natCast (logTotLen_lt (allData.drop offset))
  have hbound : intMax < 2 ^ 31 := by decide
  by_cases hstop : (allData.drop offset).length < logHeaderSize ∨ logTotLen (allData.drop offset) < logHeaderSize
  · exact .stop hstop
  · obtain ⟨hhead, htot⟩ := not_or.1 hstop
    rw [Nat.not_lt] at hhead htot
    have hle : offset ≤ allData.length := by
      rw [List.length_drop] at hhead
      simp only [logHeaderSize] at hhead
      omega
    by_cases ht : Taken allData offset
    · obtain ⟨n, hn, hnle, hend⟩ := h.inside offset hv ht
      have hpos := h.increases offset hv ht
      rw [Int.toNat_natCast] at hn hnle hend hpos
      refine .record htot hend ((contained_iff hhead htot (by rw [List.length_drop]; omega)).2 ⟨n, hn, hnle⟩) ?_
      have hnext := hv.next ht
      rw [Int.toNat_natCast, (hint.resolve_right (by omega)).1, ← Int.natCast_add] at hnext
      exact wellFramed_of_visits hmax h _ hnext
    · have hlt : ¬offset + toInt32 (logTotLen (allData.drop offset)) ≤ allData.length := fun h => ht ⟨hhead, htot, h⟩
      obtain ⟨fuel, hfuel⟩ := isSome_scan_of_visits hmax h hv
      refine .torn (by omega) (Int.not_lt.1 fun hover => ?_)
      have hfault : nextRecord allData offset = .fault := by
        simp only [nextRecord]
        rw [if_neg (by omega), if_neg (by omega), if_pos (by omega)]
      cases fuel with
      | zero => cases hfuel
      | succ fuel =>
        rw [scan, if_neg (by omega), Int.toNat_natCast, hfault] at hfuel
        cases hfuel
  termination_by allData.length - offset
  decreasing_by
    simp only [logHeaderSize, List.length_drop] at hhead htot
    omega

theorem loopTotal_iff (hmax : (allData.length : Int) ≤ intMax) : LoopTotal allData ↔ WellFramed allData 0 := by
  constructor
  · intro h
    exact wellFramed_of_visits hmax h 0 .start
  · intro h
    exact {
      returns := isSome_scan_of_wellFramed hmax h
      nonneg := by
        intro offset hv
        obtain ⟨o, rfl, -⟩ := h.of_visits hmax hv
        exact Int.natCast_nonneg o
      increases := by
        intro offset hv ht
        obtain ⟨o, rfl, ho⟩ := h.of_visits hmax hv
        rw [Int.toNat_natCast] at ht ⊢
        rw [(ho.of_taken hmax ht).1]
        have htot := ht.2.1
        simp only [logHeaderSize] at htot
        omega
      inside := by
        intro offset hv ht
        obtain ⟨o, rfl, ho⟩ := h.of_visits hmax hv
        rw [Int.toNat_natCast] at ht ⊢
        obtain ⟨-, hle, hcont, -⟩ := ho.of_taken hmax ht
        obtain ⟨n, hn, hnle⟩ := (contained_iff ht.1 ht.2.1 (by rw [List.length_drop]; omega)).1 hcont
        exact ⟨n, hn, hnle, hle⟩ }

end statement

/-- `analyze` on any file. It does not come to the loop when `get_file_size` is not positive; `read_log` asserts that one
`read` returned everything. -/
def AnalyzeTotal (dbLog : Bytes) : Prop :=
  toInt32 dbLog.length ≤ 0 ∨
    toInt32 dbLog.length ≤ maxRead ∧ LoopTotal (dbLog.take (toInt32 dbLog.length).toNat)

/-- **Log analysis comes back, goes forward and stays within each record exactly on well framed files** of the size that
one `read` returns. -/
theorem analyzeTotal_iff (dbLog : Bytes) : AnalyzeTotal dbLog ↔
    toInt32 dbLog.length ≤ 0 ∨
      toInt32 dbLog.length ≤ maxRead ∧ WellFramed (dbLog.take (toInt32 dbLog.length).toNat) 0 := by
  have hbound : (maxRead : Int) ≤ intMax := by decide
  refine or_congr_right (and_congr_right fun hle => loopTotal_iff ?_)
  have hlen : (dbLog.take (toInt32 dbLog.length).toNat).length ≤ (toInt32 dbLog.length).toNat := List.length_take_le ..
  have hzero : (0 : Int) ≤ intMax := by decide
  omega

/-- A begin record and then one with the length 4294967272, which is -24 as an `int`. -/
def endlessLog : Bytes :=
  LogRecord.serialize ⟨0, 1, -1, .begin⟩ ++
    (intBytes 3 ++ intBytes 1 ++ leBytes 4294967272 4 ++ int64Bytes 2 ++ intBytes (-1))

/-- An insert record of 28 bytes whose value is said to have 1000. -/
def longValueLog : Bytes := intBytes 1 ++ intBytes 0 ++ leBytes 28 4 ++ int64Bytes 1 ++ intBytes (-1) ++ intBytes 1000

theorem not_analyzeTotal : ¬AnalyzeTotal endlessLog ∧ ¬AnalyzeTotal longValueLog := by
  constructor
  · rintro (h | ⟨-, h⟩)
    · exact absurd h (by decide)
    · have hfirst : Visits (endlessLog.take (toInt32 endlessLog.length).toNat) 24 := Visits.start.next (by decide)
      exact absurd (h.increases 24 hfirst (by decide)) (by decide)
  · rintro (h | ⟨-, h⟩)
    · exact absurd h (by decide)
    · obtain ⟨n, hn, -⟩ := h.inside 0 .start (by decide)
      have hnone : bytesRead ((longValueLog.take (toInt32 longValueLog.length).toNat).drop (0 : Int).toNat) = none := by
        decide +kernel
      cases hnone.symm.trans hn

end Rmdb
