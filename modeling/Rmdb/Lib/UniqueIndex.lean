import Mathlib.Data.List.Basic
import Mathlib.Logic.Function.Basic
import Mathlib.Tactic.Common

/-!
# Unique indexes

- `Mirrors key m ix`: the index `ix` has exactly the key of each row of the table `m`, with the row's place;
- an index is determined by its table (`Mirrors.unique`), and no two rows of the table have one key
  (`Mirrors.keysDistinct`);
- `Mirrors.erase` and `Mirrors.insert`: a row leaves or enters the table and the index.
-/

namespace Rmdb.Lib

variable {ρ β κ : Type} {key : β → κ} {m : ρ → Option β} {ix ix' : κ → Option ρ} {r : ρ} {b : β}

/-- The index has a key exactly for the place of the row with that key. -/
def Mirrors (key : β → κ) (m : ρ → Option β) (ix : κ → Option ρ) : Prop :=
  ∀ k r, ix k = some r ↔ ∃ b, m r = some b ∧ key b = k

/-- No two rows have one key. -/
def KeysDistinct (key : β → κ) (m : ρ → Option β) : Prop :=
  ∀ r r' a b, m r = some a → m r' = some b → key a = key b → r = r'

namespace Mirrors

theorem unique (h : Mirrors key m ix) (h' : Mirrors key m ix') : ix = ix' := by
  funext k
  apply Option.ext
  intro r
  rw [h k r, h' k r]

theorem keysDistinct (h : Mirrors key m ix) : KeysDistinct key m := by
  intro r r' a b ha hb hk
  have hr := (h (key b) r).2 ⟨a, ha, hk⟩
  have hr' := (h (key b) r').2 ⟨b, hb, rfl⟩
  exact Option.some.inj (hr.symm.trans hr')

theorem eq_none_iff (h : Mirrors key m ix) (k : κ) : ix k = none ↔ ∀ r b, m r = some b → key b ≠ k := by
  rw [Option.eq_none_iff_forall_ne_some]
  constructor
  · intro hn r b hb hk
    exact hn r ((h k r).2 ⟨b, hb, hk⟩)
  · intro hn r hr
    obtain ⟨b, hb, hk⟩ := (h k r).1 hr
    exact hn r b hb hk

theorem apply_key (h : Mirrors key m ix) (hb : m r = some b) : ix (key b) = some r := (h _ r).2 ⟨b, hb, rfl⟩

variable [DecidableEq ρ] [DecidableEq κ]

/-- A row leaves the table and its key the index. -/
theorem erase (h : Mirrors key m ix) (hb : m r = some b) :
    Mirrors key (Function.update m r none) (Function.update ix (key b) none) := by
  intro k r'
  by_cases hr : r' = r
  · subst hr
    by_cases hk : k = key b
    · simp [hk]
    · have hne : ix k ≠ some r' := fun hix => by
        obtain ⟨a, ha, hak⟩ := (h k r').1 hix
        rw [hb] at ha
        cases ha
        exact hk hak.symm
      simp [hk, hne]
  · by_cases hk : k = key b
    · have hnone : ∀ a, m r' = some a → key a ≠ key b := fun a ha hab => hr (h.keysDistinct r' r a b ha hb hab)
      simp only [hk, Function.update_self, reduceCtorEq, Function.update_of_ne hr, false_iff, not_exists, not_and]
      exact hnone
    · simp only [Function.update_of_ne hk, Function.update_of_ne hr]
      exact h k r'

/-- A row with a new key enters the table at a free place and its key the index. -/
theorem insert (h : Mirrors key m ix) (hr : m r = none) (hk : ix (key b) = none) :
    Mirrors key (Function.update m r (some b)) (Function.update ix (key b) (some r)) := by
  have hfree := (h.eq_none_iff (key b)).1 hk
  intro k r'
  by_cases hr' : r' = r
  · subst hr'
    by_cases hkk : k = key b
    · simp [hkk]
    · have hne : ix k ≠ some r' := fun hix => by
        obtain ⟨a, ha, -⟩ := (h k r').1 hix
        rw [hr] at ha
        cases ha
      simp [hkk, hne, Ne.symm hkk]
  · by_cases hkk : k = key b
    · simp only [hkk, Function.update_self, Option.some.injEq, Function.update_of_ne hr', Ne.symm hr', false_iff,
        not_exists, not_and]
      exact hfree r'
    · simp only [Function.update_of_ne hkk, Function.update_of_ne hr']
      exact h k r'

end Mirrors

/-- A row whose key no other row has enters the table, or replaces the row at its place. -/
theorem KeysDistinct.update [DecidableEq ρ] (h : KeysDistinct key m)
    (hb : ∀ r' a, r' ≠ r → m r' = some a → key a ≠ key b) : KeysDistinct key (Function.update m r (some b)) := by
  intro r₁ r₂ a₁ a₂ h₁ h₂ hk
  by_cases hr₁ : r₁ = r
  · by_cases hr₂ : r₂ = r
    · rw [hr₁, hr₂]
    · subst hr₁
      rw [Function.update_self] at h₁
      rw [Function.update_of_ne hr₂] at h₂
      cases h₁
      exact absurd hk.symm (hb r₂ a₂ hr₂ h₂)
  · by_cases hr₂ : r₂ = r
    · subst hr₂
      rw [Function.update_self] at h₂
      rw [Function.update_of_ne hr₁] at h₁
      cases h₂
      exact absurd hk (hb r₁ a₁ hr₁ h₁)
    · rw [Function.update_of_ne hr₁] at h₁
      rw [Function.update_of_ne hr₂] at h₂
      exact h r₁ r₂ a₁ a₂ h₁ h₂ hk

/-- With distinct keys after the row has entered, its key is new to the index. -/
theorem Mirrors.eq_none_of_keysDistinct [DecidableEq ρ] (h : Mirrors key m ix) (hr : m r = none)
    (hd : KeysDistinct key (Function.update m r (some b))) : ix (key b) = none := by
  refine (h.eq_none_iff _).2 fun r' a ha hk => ?_
  have hne : r' ≠ r := fun he => by simp [he, hr] at ha
  exact hne (hd r' r a b (by simp [Function.update_of_ne hne, ha]) (by simp) hk)

end Rmdb.Lib
