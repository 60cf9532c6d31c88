import Mathlib.Data.List.Chain
import Mathlib.Data.List.Nodup
import Mathlib.Tactic.Common

/-!
# Doubly linked lists

`DoublyLinked next prev l`: each element of `l` has the following one as its successor and is the predecessor of it. The
first element may occur again as the last one, which closes the list to a ring.

- `DoublyLinked.insert`: a new element between two neighbours;
- `DoublyLinked.erase`: an element taken out.
-/

namespace Rmdb.Lib

variable {α : Type*} {next prev next' prev' : α → α}

abbrev DoublyLinked (next prev : α → α) (l : List α) : Prop := l.IsChain fun a b => next a = b ∧ prev b = a

namespace DoublyLinked

/-- Only the successors of all but the last element matter, and the predecessors of all but the first. -/
theorem congr : ∀ {l : List α}, DoublyLinked next prev l → (∀ a ∈ l.dropLast, next' a = next a) →
    (∀ b ∈ l.tail, prev' b = prev b) → DoublyLinked next' prev' l
  | [], _, _, _ => .nil
  | [a], _, _, _ => .singleton a
  | a :: b :: l, h, hn, hp => by
    rw [DoublyLinked, List.isChain_cons_cons] at h ⊢
    refine ⟨⟨(hn a (by simp)).trans h.1.1, (hp b (by simp)).trans h.1.2⟩, congr h.2 (fun c hc => hn c ?_) fun c hc =>
      hp c ?_⟩
    · rw [List.dropLast_cons_of_ne_nil (by simp)]
      exact List.mem_cons_of_mem a hc
    · exact List.mem_cons_of_mem b hc

theorem append_cons_cons {L R : List α} {a b : α} : DoublyLinked next prev (L ++ a :: b :: R) ↔
    DoublyLinked next prev (L ++ [a]) ∧ (next a = b ∧ prev b = a) ∧ DoublyLinked next prev (b :: R) :=
  List.isChain_append_cons_cons

variable {L R : List α} {a b x : α}

theorem insert (h : DoublyLinked next prev (L ++ a :: b :: R))
    (hL : ∀ c ∈ L, next' c = next c) (hL' : ∀ c ∈ (L ++ [a]).tail, prev' c = prev c) (ha : next' a = x)
    (hx : next' x = b) (hx' : prev' x = a) (hb : prev' b = x) (hR : ∀ c ∈ (b :: R).dropLast, next' c = next c)
    (hR' : ∀ c ∈ R, prev' c = prev c) : DoublyLinked next' prev' (L ++ a :: x :: b :: R) := by
  obtain ⟨h1, -, h2⟩ := append_cons_cons.1 h
  refine append_cons_cons.2 ⟨h1.congr (fun c hc => hL c (by simpa using hc)) hL', ⟨ha, hx'⟩, ?_⟩
  rw [DoublyLinked, List.isChain_cons_cons]
  exact ⟨⟨hx, hb⟩, h2.congr hR hR'⟩

theorem erase (h : DoublyLinked next prev (L ++ a :: x :: b :: R))
    (hL : ∀ c ∈ L, next' c = next c) (hL' : ∀ c ∈ (L ++ [a]).tail, prev' c = prev c) (ha : next' a = b)
    (hb : prev' b = a) (hR : ∀ c ∈ (b :: R).dropLast, next' c = next c) (hR' : ∀ c ∈ R, prev' c = prev c) :
    DoublyLinked next' prev' (L ++ a :: b :: R) := by
  obtain ⟨h1, -, h2⟩ := append_cons_cons.1 h
  rw [DoublyLinked, List.isChain_cons_cons] at h2
  exact append_cons_cons.2 ⟨h1.congr (fun c hc => hL c (by simpa using hc)) hL', ⟨ha, hb⟩, congr h2.2 hR hR'⟩

end DoublyLinked

end Rmdb.Lib
