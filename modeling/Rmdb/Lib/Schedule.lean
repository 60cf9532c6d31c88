import Mathlib.Data.List.Nodup
import Mathlib.Tactic.Common

/-!
# Conflict equivalence of schedules

- `ConflictEquiv`: two schedules that swaps of neighbouring operations of different transactions, which do not
  conflict, turn into each other;
- `serial C H`: the operations of `H`, one transaction after the other in the order `C`;
- `conflictEquiv_serial`: a schedule whose conflicts all follow `C` is conflict-equivalent to `serial C H`.
-/

namespace Rmdb.Lib

section
variable {Op T : Type*} (txn : Op → T) (conflict : Op → Op → Prop)

inductive ConflictEquiv : List Op → List Op → Prop
  | refl (l : List Op) : ConflictEquiv l l
  | swap (l l' : List Op) (a b : Op) : txn a ≠ txn b → ¬ conflict a b →
      ConflictEquiv (l ++ a :: b :: l') (l ++ b :: a :: l')
  | trans {l₁ l₂ l₃ : List Op} : ConflictEquiv l₁ l₂ → ConflictEquiv l₂ l₃ → ConflictEquiv l₁ l₃

/-- The operations of one transaction after the other. -/
def serial [DecidableEq T] (C : List T) (H : List Op) : List Op := C.flatMap fun t => H.filter (txn · = t)

variable {txn conflict} {H l l' : List Op} {C : List T}

theorem ConflictEquiv.append_left (h : ConflictEquiv txn conflict l l') (p : List Op) :
    ConflictEquiv txn conflict (p ++ l) (p ++ l') := by
  induction h with
  | refl l => exact .refl _
  | swap l l' a b hne hnc =>
    rw [← List.append_assoc, ← List.append_assoc]
    exact .swap _ _ _ _ hne hnc
  | trans _ _ ih₁ ih₂ => exact ih₁.trans ih₂

/-- An operation moves behind operations it does not conflict with. -/
theorem ConflictEquiv.move (a : Op) (l l' : List Op) (h : ∀ b ∈ l, txn a ≠ txn b ∧ ¬ conflict a b) :
    ConflictEquiv txn conflict (a :: l ++ l') (l ++ a :: l') := by
  induction l with
  | nil => exact .refl _
  | cons b l ih =>
    have hb := h b List.mem_cons_self
    refine .trans (.swap [] (l ++ l') a b hb.1 hb.2) ?_
    exact (ih fun c hc => h c (List.mem_cons_of_mem _ hc)).append_left [b]

/-- The operations that nothing before them conflicts with can be moved to the front. -/
theorem ConflictEquiv.partition (p : Op → Bool)
    (h : H.Pairwise fun a b => p b = true → p a = false → txn a ≠ txn b ∧ ¬ conflict a b) :
    ConflictEquiv txn conflict H (H.filter p ++ H.filter (! p ·)) := by
  induction H with
  | nil => exact .refl _
  | cons a H ih =>
    have ⟨hhead, htail⟩ := List.pairwise_cons.1 h
    have ih := (ih htail).append_left [a]
    cases ha : p a with
    | true => simpa [ha] using ih
    | false =>
      refine .trans ih ?_
      have hmove := ConflictEquiv.move a (H.filter p) (H.filter (! p ·)) fun b hb =>
        have hb := List.mem_filter.1 hb
        hhead b hb.1 hb.2 ha
      simpa [ha] using hmove

variable [DecidableEq T]

theorem serial_cons_of_notMem {t : T} (h : t ∉ C) : serial txn C (H.filter (txn · ≠ t)) = serial txn C H := by
  unfold serial
  refine List.flatMap_congr fun t' ht' => ?_
  rw [List.filter_filter]
  refine List.filter_congr fun a _ => ?_
  have hne : t' ≠ t := fun heq => h (heq ▸ ht')
  by_cases hat : txn a = t'
  · simp [hat, hne]
  · simp [hat]

/-- A schedule in which the earlier transaction of each conflict comes first in `C`. -/
theorem conflictEquiv_serial (hnd : C.Nodup) (hmem : ∀ a ∈ H, txn a ∈ C)
    (hord : H.Pairwise fun a b => txn a ≠ txn b → conflict a b → C.idxOf (txn a) < C.idxOf (txn b)) :
    ConflictEquiv txn conflict H (serial txn C H) := by
  induction C generalizing H with
  | nil =>
    have hnil : H = [] := List.eq_nil_iff_forall_not_mem.2 fun a ha => by simpa using hmem a ha
    rw [hnil]
    exact .refl _
  | cons t C ih =>
    obtain ⟨hnot, hnd⟩ := List.nodup_cons.1 hnd
    -- nothing before an operation of the first transaction conflicts with it
    have hfirst : H.Pairwise fun a b => decide (txn b = t) = true → decide (txn a = t) = false →
        txn a ≠ txn b ∧ ¬ conflict a b := by
      refine hord.imp fun {a b} hab hb ha => ?_
      have hb : txn b = t := by simpa using hb
      have ha : txn a ≠ t := by simpa using ha
      have hne : txn a ≠ txn b := fun heq => ha (heq.trans hb)
      refine ⟨hne, fun hc => ?_⟩
      have hlt := hab hne hc
      rw [hb, List.idxOf_cons_self] at hlt
      exact absurd hlt (Nat.not_lt_zero _)
    have hfront := ConflictEquiv.partition _ hfirst
    have hrest : ConflictEquiv txn conflict (H.filter (txn · ≠ t)) (serial txn C (H.filter (txn · ≠ t))) := by
      apply ih hnd
      · intro a ha
        have ha := List.mem_filter.1 ha
        exact (List.mem_cons.1 (hmem a ha.1)).resolve_left (by simpa using ha.2)
      · refine List.pairwise_filter.2 (hord.imp fun {a b} hab ha hb hne hc => ?_)
        have ha : txn a ≠ t := by simpa using ha
        have hb : txn b ≠ t := by simpa using hb
        have hlt := hab hne hc
        rw [List.idxOf_cons_ne _ (Ne.symm ha), List.idxOf_cons_ne _ (Ne.symm hb)] at hlt
        exact Nat.lt_of_succ_lt_succ hlt
    rw [serial_cons_of_notMem hnot] at hrest
    refine .trans hfront ?_
    have happ := hrest.append_left (H.filter (txn · = t))
    simpa [serial] using happ

end

end Rmdb.Lib
