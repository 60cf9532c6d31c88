import Rmdb.Recovery.Server

/-!
# Tagged logs

- what appending one record does to the committed transactions and to the writes of a slot;
- `base` and `pend`: the settled part of a slot's history as a state, and the writes of the transaction that is not
  committed;
- `loser_of_begun`: `analyze` finds the transactions of the last incarnation that have no COMMIT.
-/

namespace Rmdb

open Lib SlotWrite

section log
variable {G P Q : List (Nat × LogRecord)} {x : Nat × LogRecord} {t : TabName} {ρ : Rid} {i : Instance}
  {w : SlotWrite Bytes}

theorem committed_iff : committed G i = true ↔ ∃ x ∈ G, inst x = i ∧ x.2.body = .commit := by
  simp [committed]

theorem committed_append : committed (G ++ P) i = (committed G i || committed P i) := by simp [committed]

theorem committed_mono (h : P <+: G) (hi : committed P i = true) : committed G i = true := by
  obtain ⟨Q, rfl⟩ := h
  rw [committed_append, hi]
  rfl

theorem committed_concat : committed (G ++ [x]) i = true ↔ committed G i = true ∨ i = inst x ∧ x.2.body = .commit := by
  rw [committed_append, Bool.or_eq_true]
  simp only [committed, List.any_cons, List.any_nil, Bool.or_false, Bool.and_eq_true, beq_iff_eq]
  rw [eq_comm (a := inst x)]

theorem committed_concat_of_ne (h : x.2.body ≠ .commit) : committed (G ++ [x]) i = committed G i := by
  simp [committed, h]

theorem committed_concat_commit (h : x.2.body = .commit) :
    committed (G ++ [x]) i = true ↔ committed G i = true ∨ i = inst x := by
  simp [committed_concat, h]

@[simp] theorem tagLog_append : tagLog (G ++ P) t ρ = tagLog G t ρ ++ tagLog P t ρ := by simp [tagLog]

theorem tagLog_single (h : x.2.body.target = some (t, ρ, w)) : tagLog [x] t ρ = [(inst x, w)] := by
  simp [tagLog, LogBody.writeOn_of_target h]

theorem tagLog_single_of_none (h : x.2.body.writeOn t ρ = none) : tagLog [x] t ρ = [] := by simp [tagLog, h]

/-- Without the tags the slot's history is that of the plain log. -/
theorem tagLog_map_snd : (tagLog G t ρ).map (·.2) = slotLog (G.map (·.2)) t ρ := by
  simp only [tagLog, slotLog, List.map_filterMap, List.filterMap_map, Option.map_map]
  refine List.filterMap_congr fun x _ => ?_
  cases h : x.2.body.writeOn t ρ <;> simp [h]

theorem mem_tagLog {o : Instance × SlotWrite Bytes} :
    o ∈ tagLog G t ρ ↔ ∃ x ∈ G, x.2.body.target = some (t, ρ, o.2) ∧ inst x = o.1 := by
  simp only [tagLog, List.mem_filterMap, Option.map_eq_some_iff, LogBody.writeOn_eq_some]
  constructor
  · rintro ⟨x, hx, w, hw, rfl⟩
    exact ⟨x, hx, hw, rfl⟩
  · rintro ⟨x, hx, hw, hi⟩
    exact ⟨x, hx, o.2, hw, Prod.ext hi rfl⟩

theorem target_ne_commit (h : x.2.body.target = some (t, ρ, w)) : x.2.body ≠ .commit := by
  rintro hb
  simp [hb, LogBody.target] at h

/-! ## Settled state and pending writes -/

/-- The writes of transactions without a COMMIT. -/
def pend (G : List (Nat × LogRecord)) (t : TabName) (ρ : Rid) : List (Instance × SlotWrite Bytes) :=
  pending (committed G) (tagLog G t ρ)

/-- The state that the committed transactions left in a slot. -/
def base (G : List (Nat × LogRecord)) (t : TabName) (ρ : Rid) : Option Bytes :=
  final none (settled (committed G) (tagLog G t ρ))

theorem base_eq_committedRecord : base G t ρ = committedRecord G t ρ := by
  simp only [base, committedRecord, replay, settled, tagLog, slotLog, List.filterMap_map, List.filter_filterMap]
  congr 1
  rw [List.map_filterMap, List.filterMap_filter]
  refine List.filterMap_congr fun x _ => ?_
  cases h : x.2.body.writeOn t ρ with
  | none => simp [h]
  | some w => by_cases hc : committed G (inst x) = true <;> simp [h, hc]

/-- In every prefix of the log the pending writes of a slot come last and have one owner. -/
def OrderedLog (G : List (Nat × LogRecord)) : Prop :=
  ∀ P, P <+: G → ∀ t ρ, Ordered (committed P) (tagLog P t ρ)

theorem OrderedLog.self (h : OrderedLog G) (t : TabName) (ρ : Rid) : Ordered (committed G) (tagLog G t ρ) :=
  h G (List.prefix_refl G) t ρ

theorem OrderedLog.of_prefix (h : OrderedLog G) (hP : P <+: G) : OrderedLog P := fun Q hQ => h Q (hQ.trans hP)

theorem OrderedLog.concat (h : OrderedLog G) (hx : ∀ t ρ, Ordered (committed (G ++ [x])) (tagLog (G ++ [x]) t ρ)) :
    OrderedLog (G ++ [x]) := by
  intro P hP t ρ
  rcases List.prefix_concat_iff.1 hP with rfl | hP
  · exact hx t ρ
  · exact h P hP t ρ

/-- The whole history of a slot ends in the settled state followed by the pending writes. -/
theorem OrderedLog.final_eq (h : OrderedLog G) (t : TabName) (ρ : Rid) :
    final none (slotLog (G.map (·.2)) t ρ) = final (base G t ρ) ((pend G t ρ).map (·.2)) := by
  rw [← tagLog_map_snd, (h.self t ρ).split, final_append]
  rfl

theorem OrderedLog.linked_pend (h : OrderedLog G) (hl : Linked none (slotLog (G.map (·.2)) t ρ)) :
    Linked (base G t ρ) ((pend G t ρ).map (·.2)) := by
  rw [← tagLog_map_snd, (h.self t ρ).split] at hl
  exact (linked_append.1 hl).2

/-! ## Appending a record -/

/-- A record that neither writes the slot nor commits. -/
theorem pend_concat_of_none (h : x.2.body.writeOn t ρ = none) (hc : x.2.body ≠ .commit) :
    pend (G ++ [x]) t ρ = pend G t ρ ∧ base (G ++ [x]) t ρ = base G t ρ := by
  have hcomm : committed (G ++ [x]) = committed G := funext fun i => committed_concat_of_ne hc
  simp [pend, base, hcomm, tagLog_single_of_none h]

/-- A write to the slot by a transaction that is not committed. -/
theorem pend_concat_write (h : x.2.body.target = some (t, ρ, w)) (hi : committed G (inst x) = false) :
    pend (G ++ [x]) t ρ = pend G t ρ ++ [(inst x, w)] ∧ base (G ++ [x]) t ρ = base G t ρ := by
  have hcomm : committed (G ++ [x]) = committed G := funext fun i => committed_concat_of_ne (target_ne_commit h)
  simp only [pend, base, hcomm, tagLog_append, tagLog_single h]
  exact ⟨pending_concat hi, by rw [settled_concat hi]⟩

/-- A COMMIT settles the pending writes of its transaction, and leaves those of another one. -/
theorem pend_concat_commit (h : OrderedLog G) (hc : x.2.body = .commit) :
    pend (G ++ [x]) t ρ = [] ∧ (∀ o ∈ pend G t ρ, o.1 = inst x) ∧
        base (G ++ [x]) t ρ = final (base G t ρ) ((pend G t ρ).map (·.2)) ∨
      pend (G ++ [x]) t ρ = pend G t ρ ∧ base (G ++ [x]) t ρ = base G t ρ ∧ ∀ o ∈ pend G t ρ, o.1 ≠ inst x := by
  have hnone : x.2.body.writeOn t ρ = none := by simp [hc, LogBody.writeOn, LogBody.target]
  have htag : tagLog (G ++ [x]) t ρ = tagLog G t ρ := by simp [tagLog_single_of_none hnone]
  obtain ⟨-, ⟨hnil, hall⟩ | ⟨hp, hs, hne⟩⟩ :=
    (h.self t ρ).settle fun o => committed_concat_commit hc
  · refine .inl ⟨by rw [pend, htag, hnil], hall, ?_⟩
    rw [base, htag, settled_of_pending_nil hnil, tagLog_map_snd, h.final_eq]
  · exact .inr ⟨by rw [pend, htag, hp]; rfl, by rw [base, htag, hs]; rfl, hne⟩

theorem OrderedLog.concat_of_none (h : OrderedLog G) (hx : x.2.body.target = none) : OrderedLog (G ++ [x]) := by
  refine h.concat fun t ρ => ?_
  have hnone : x.2.body.writeOn t ρ = none := by simp [LogBody.writeOn, hx]
  rw [tagLog_append, tagLog_single_of_none hnone, List.append_nil]
  by_cases hc : x.2.body = .commit
  · exact ((h.self t ρ).settle fun o => committed_concat_commit hc).1
  · exact (h.self t ρ).congr fun o _ => committed_concat_of_ne hc

theorem OrderedLog.concat_write (h : OrderedLog G) (hx : x.2.body.target = some (t, ρ, w))
    (hi : committed G (inst x) = false) (hone : ∀ o ∈ pend G t ρ, o.1 = inst x) : OrderedLog (G ++ [x]) := by
  refine h.concat fun t' ρ' => ?_
  have hcomm : committed (G ++ [x]) = committed G := funext fun i => committed_concat_of_ne (target_ne_commit hx)
  rw [hcomm, tagLog_append]
  by_cases hs : t = t' ∧ ρ = ρ'
  · obtain ⟨rfl, rfl⟩ := hs
    rw [tagLog_single hx]
    exact (h.self t ρ).concat hi hone
  · rw [tagLog_single_of_none (LogBody.writeOn_eq_none hx hs), List.append_nil]
    exact h.self t' ρ'

end log

/-! ## Losers -/

section losers
variable {L : List LogRecord} {r : LogRecord} {tid : Int}

theorem TxnSets.loser_scan {a : TxnSets} (h : a.loser tid = true) (hr : r.logTid = tid → r.body ≠ .commit) :
    (a.scan r).loser tid = true := by
  by_cases ht : tid = r.logTid
  · subst ht
    have hc := hr rfl
    cases hb : r.body <;> simp_all [scan, loser] <;> split <;> simp_all
  · cases hb : r.body <;> simp_all [scan, loser, Function.update_of_ne] <;> split <;>
      simp_all [Function.update_of_ne]

/-- A transaction that has begun and has no COMMIT since is a loser. -/
theorem loser_of_begun {L₁ L₂ : List LogRecord} (hr : r.logTid = tid) (hb : r.body = .begin)
    (hL : ∀ r' ∈ L₂, r'.logTid = tid → r'.body ≠ .commit) : (analyze (L₁ ++ r :: L₂)).loser tid = true := by
  have hstart : ((analyze L₁).scan r).loser tid = true := by simp [TxnSets.scan, hb, TxnSets.loser, hr]
  simp only [analyze, List.foldl_append, List.foldl_cons] at hstart ⊢
  generalize TxnSets.scan (List.foldl TxnSets.scan TxnSets.empty L₁) r = a at hstart
  induction L₂ generalizing a with
  | nil => exact hstart
  | cons r' L₂ ih =>
    exact ih (fun r'' hr'' => hL r'' (by simp [hr''])) _ (TxnSets.loser_scan hstart (hL r' (by simp)))

end losers

end Rmdb
