import Mathlib.Data.List.Basic
import Mathlib.Tactic.Common

/-!
# Lists cut by a predicate

- `Cut P l i`: the first `i` elements of `l` are those with `P`. In a sorted list every lower part is such a cut;
- `Cut.le_iff` and `Cut.filter`: two cuts of a list, and what lies between them.
-/

namespace Rmdb.Lib

variable {α : Type*} {P Q : α → Prop} {l : List α} {i j : Nat}

/-- The first `i` elements have the property, and the others do not. -/
structure Cut (P : α → Prop) (l : List α) (i : Nat) : Prop where
  le : i ≤ l.length
  below : ∀ a ∈ l.take i, P a
  above : ∀ a ∈ l.drop i, ¬P a

namespace Cut

theorem of_append {S R : List α} (hS : ∀ a ∈ S, P a) (hR : ∀ a ∈ R, ¬P a) : Cut P (S ++ R) S.length where
  le := by simp
  below := by simpa using hS
  above := by simpa using hR

theorem congr (h : Cut P l i) (hPQ : ∀ a, P a ↔ Q a) : Cut Q l i where
  le := h.le
  below a ha := (hPQ a).1 (h.below a ha)
  above a ha hQ := h.above a ha ((hPQ a).2 hQ)

/-- A cut of a list of images. -/
theorem of_map {β : Type*} {g : β → α} {m : List β} (h : Cut P (m.map g) i) : Cut (fun b => P (g b)) m i where
  le := by simpa using h.le
  below b hb := h.below (g b) (by rw [← List.map_take]; exact List.mem_map_of_mem hb)
  above b hb := h.above (g b) (by rw [← List.map_drop]; exact List.mem_map_of_mem hb)

/-- One cut is below another when the one property gives the other. -/
theorem le_iff (hP : Cut P l i) (hQ : Cut Q l j) : i ≤ j ↔ ∀ a ∈ l, P a → Q a := by
  constructor
  · intro hle a ha hPa
    rw [← List.take_append_drop i l, List.mem_append] at ha
    rcases ha with ha | ha
    · exact hQ.below a ((List.take_prefix_take_left hle).subset ha)
    · exact absurd hPa (hP.above a ha)
  · intro h
    by_contra hlt
    have hji : j < i := Nat.lt_of_not_le hlt
    have hjl : j < l.length := Nat.lt_of_lt_of_le hji hP.le
    have htake : l[j] ∈ l.take i := List.mem_take_iff_getElem.2 ⟨j, by omega, rfl⟩
    have hdrop : l[j] ∈ l.drop j := by
      rw [List.drop_eq_getElem_cons hjl]
      exact List.mem_cons_self
    exact hQ.above _ hdrop (h _ (List.getElem_mem hjl) (hP.below _ htake))

/-- An element between two cuts. -/
theorem mem_between {a : α} (hP : Cut P l i) (hQ : Cut Q l j) (hle : i ≤ j) (ha : a ∈ l) (hPa : ¬P a) (hQa : Q a) :
    a ∈ (l.drop i).take (j - i) := by
  have hdrop : a ∈ l.drop i := by
    rw [← List.take_append_drop i l, List.mem_append] at ha
    exact ha.resolve_left fun h => hPa (hP.below a h)
  rw [← List.take_append_drop (j - i) (l.drop i), List.mem_append, List.drop_drop, Nat.add_sub_cancel' hle] at hdrop
  exact hdrop.resolve_right fun h => hQ.above a h hQa

/-- What lies between two cuts. -/
theorem filter [DecidablePred P] [DecidablePred Q] (hP : Cut P l i) (hQ : Cut Q l j) (hle : i ≤ j) :
    l.filter (fun a => ¬P a ∧ Q a) = (l.drop i).take (j - i) := by
  have hsplit : l = l.take i ++ ((l.drop i).take (j - i) ++ l.drop j) := by
    have hdrop : (l.drop i).drop (j - i) = l.drop j := by rw [List.drop_drop, Nat.add_sub_cancel' hle]
    rw [← hdrop, List.take_append_drop, List.take_append_drop]
  have hmid : (l.drop i).take (j - i) = (l.take j).drop i := by rw [List.drop_take]
  have h1 : (l.take i).filter (fun a => ¬P a ∧ Q a) = [] :=
    List.filter_eq_nil_iff.2 fun a ha => by simp [hP.below a ha]
  have h2 : ((l.drop i).take (j - i)).filter (fun a => ¬P a ∧ Q a) = (l.drop i).take (j - i) := by
    refine List.filter_eq_self.2 fun a ha => ?_
    have hQa : Q a := hQ.below a ((List.drop_sublist i _).subset (hmid ▸ ha))
    simp [hP.above a (List.take_subset _ _ ha), hQa]
  have h3 : (l.drop j).filter (fun a => ¬P a ∧ Q a) = [] :=
    List.filter_eq_nil_iff.2 fun a ha => by simp [hQ.above a ha]
  conv_lhs => rw [hsplit]
  rw [List.filter_append, List.filter_append, h1, h2, h3, List.nil_append, List.append_nil]

end Cut

end Rmdb.Lib
