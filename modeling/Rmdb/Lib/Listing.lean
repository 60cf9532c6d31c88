import Mathlib.Data.List.Nodup
import Mathlib.Logic.Function.Basic
import Mathlib.Tactic.Common

/-!
# Lists of the entries of a map

- `Lists l m`: the pairs of `l` are the entries of the map `m`;
- `Lists.insert` and `Lists.erase`: a new entry anywhere in the list, and an entry taken out of a list without repeated
  keys.
-/

namespace Rmdb.Lib

variable {κ β : Type*} {l S T : List (κ × β)} {m : κ → Option β} {k : κ} {b : β}

/-- The list has exactly the entries of the map. -/
def Lists (l : List (κ × β)) (m : κ → Option β) : Prop := ∀ k b, (k, b) ∈ l ↔ m k = some b

theorem lists_nil : Lists ([] : List (κ × β)) fun _ => none := fun k b => by simp

namespace Lists

theorem isSome_iff (h : Lists l m) : (m k).isSome = true ↔ ∃ b, (k, b) ∈ l := by
  rw [Option.isSome_iff_exists]
  exact exists_congr fun b => (h k b).symm

theorem eq_none_iff (h : Lists l m) : m k = none ↔ ¬∃ b, (k, b) ∈ l := by
  rw [← h.isSome_iff, Option.not_isSome_iff_eq_none]

variable [DecidableEq κ]

theorem insert (h : Lists (S ++ T) m) (hk : ¬∃ b, (k, b) ∈ S ++ T) :
    Lists (S ++ (k, b) :: T) (Function.update m k (some b)) := by
  intro k' b'
  by_cases hkk : k' = k
  · subst hkk
    have hS : (k', b') ∉ S := fun hm => hk ⟨b', List.mem_append_left _ hm⟩
    have hT : (k', b') ∉ T := fun hm => hk ⟨b', List.mem_append_right _ hm⟩
    simp [hS, hT, eq_comm]
  · rw [Function.update_of_ne hkk, ← h k' b']
    simp [hkk]

theorem erase (h : Lists (S ++ (k, b) :: T) m) (hn : ((S ++ (k, b) :: T).map Prod.fst).Nodup) :
    Lists (S ++ T) (Function.update m k none) := by
  rw [List.map_append, List.map_cons, List.nodup_middle, List.nodup_cons, ← List.map_append] at hn
  intro k' b'
  by_cases hkk : k' = k
  · subst hkk
    have hm : (k', b') ∉ S ++ T := fun hm => hn.1 (List.mem_map.2 ⟨_, hm, rfl⟩)
    rw [Function.update_self]
    exact iff_of_false hm (by simp)
  · rw [Function.update_of_ne hkk, ← h k' b']
    simp [hkk]

end Lists

end Rmdb.Lib
