import Mathlib.Data.List.Nodup
import Mathlib.Logic.Function.Basic

/-!
# Linked chains

- `Chain next nil a as`: following the partial successor `next` from `a` visits exactly `as` and then reaches `nil`.
  The derivation is finite, so a chain never runs into a cycle (`Chain.nodup`).
- a chain is determined by its first element, and a successor function that agrees on its elements has the same one.
-/

namespace Rmdb.Lib

variable {α : Type*} {next : α → Option α} {nil : α}

inductive Chain (next : α → Option α) (nil : α) : α → List α → Prop
  | nil : Chain next nil nil []
  | cons {a b : α} {as : List α} (hne : a ≠ nil) (hnext : next a = some b) (h : Chain next nil b as) :
      Chain next nil a (a :: as)

namespace Chain

theorem eq_nil {as : List α} (h : Chain next nil nil as) : as = [] := by
  cases h with
  | nil => rfl
  | cons hne => exact absurd rfl hne

/-- The first element determines the chain. -/
theorem unique {a : α} {as bs : List α} (h : Chain next nil a as) (h' : Chain next nil a bs) : as = bs := by
  induction h generalizing bs with
  | nil => exact h'.eq_nil.symm
  | cons hne hnext _ ih =>
    cases h' with
    | nil => exact absurd rfl hne
    | cons _ hnext' h' =>
      cases hnext.symm.trans hnext'
      rw [ih h']

theorem nil_notMem {a : α} {as : List α} (h : Chain next nil a as) : nil ∉ as := by
  induction h with
  | nil => simp
  | cons hne _ _ ih => simpa using ⟨hne.symm, ih⟩

/-- From every element of a chain the rest of it is a chain. -/
theorem suffix {a b : α} {as : List α} (h : Chain next nil a as) (hb : b ∈ as) :
    ∃ bs, Chain next nil b bs ∧ bs.length ≤ as.length := by
  induction h with
  | nil => cases hb
  | @cons a c as hne hnext h ih =>
    rcases List.mem_cons.1 hb with rfl | hb
    · exact ⟨_, .cons hne hnext h, Nat.le_refl _⟩
    · obtain ⟨bs, hbs, hl⟩ := ih hb
      exact ⟨bs, hbs, Nat.le_succ_of_le hl⟩

/-- A chain visits no element twice. -/
theorem nodup {a : α} {as : List α} (h : Chain next nil a as) : as.Nodup := by
  induction h with
  | nil => exact List.nodup_nil
  | @cons a b as hne hnext h ih =>
    refine List.nodup_cons.2 ⟨fun ha => ?_, ih⟩
    obtain ⟨bs, hbs, hl⟩ := h.suffix ha
    have := (Chain.cons hne hnext h).unique hbs
    subst this
    exact absurd hl (by simp)

/-- Only the successors of the elements matter. -/
theorem congr {next' : α → Option α} {a : α} {as : List α} (h : Chain next nil a as)
    (heq : ∀ b ∈ as, next' b = next b) : Chain next' nil a as := by
  induction h with
  | nil => exact .nil
  | cons hne hnext _ ih =>
    refine .cons hne ((heq _ (by simp)).trans hnext) (ih fun b hb => heq b (by simp [hb]))

theorem of_cons {a b : α} {as : List α} (h : Chain next nil a (b :: as)) :
    a = b ∧ a ≠ nil ∧ ∃ c, next a = some c ∧ Chain next nil c as := by
  cases h with
  | cons hne hnext h => exact ⟨rfl, hne, _, hnext, h⟩

/-- A first element that is not the end has a successor, and the rest is a chain from there. -/
theorem tail {a : α} {as : List α} (h : Chain next nil a as) (hne : a ≠ nil) :
    ∃ b bs, as = a :: bs ∧ next a = some b ∧ Chain next nil b bs := by
  cases h with
  | nil => exact absurd rfl hne
  | cons _ hnext h => exact ⟨_, _, rfl, hnext, h⟩

end Chain

end Rmdb.Lib
