import Mathlib.Order.Compare
import Mathlib.Tactic.Common
import Mathlib.Tactic.Ring
import Rmdb.Common.Defs

/-!
# The nodes of an index

- `IxNode`: a node page seen through its handle, with the pairs of its two arrays as one list;
- the searches and array operations of `IxNodeHandle`. `ix_compare` is the order of the key type.
-/

namespace Rmdb

def ixNoPage : Int := -1
def ixLeafHeaderPage : Int := 1
def ixInitRootPage : Int := 2
def ixInitNumPages : Int := 3

/-- `IxPageHdr` and the `num_key` pairs behind it. -/
structure IxNode (κ : Type) where
  parent : Int
  isLeaf : Bool
  prevLeaf : Int
  nextLeaf : Int
  pairs : List (κ × Rid)
  deriving DecidableEq

/-- The binary search of `lower_bound` and `upper_bound` on `[left, right)`; the first argument bounds its rounds. -/
def bisect (goRight : Nat → Bool) : Nat → Nat → Nat → Nat
  | 0, left, _ => left
  | rounds + 1, left, right =>
    if left < right then
      let mid := (left + right) / 2
      if goRight mid then bisect goRight rounds (mid + 1) right else bisect goRight rounds left mid
    else left

namespace IxNode

variable {κ : Type}

/-- A page after `reset_memory`. -/
def blank : IxNode κ := ⟨0, false, 0, 0, []⟩

/-- `get_size`. -/
def size (n : IxNode κ) : Nat := n.pairs.length

/-- The page number that `value_at` reads from a pair. -/
def child (e : κ × Rid) : Int := e.2.pageNo

/-- The numbers of the children, left to right. -/
def children (n : IxNode κ) : List Int := n.pairs.map child

/-- `get_key(0)`. -/
def firstKey (n : IxNode κ) : Option κ := n.pairs.head?.map Prod.fst

variable [Ord κ]

/-- The first position whose key is not below `target`. -/
def lowerBound (n : IxNode κ) (target : κ) : Nat :=
  bisect (fun mid => n.pairs[mid]?.any fun e => compare e.1 target == .lt) n.size 0 n.size

/-- The first position from 1 on whose key is above `target`. -/
def upperBound (n : IxNode κ) (target : κ) : Nat :=
  bisect (fun mid => n.pairs[mid]?.any fun e => compare e.1 target != .gt) n.size 1 n.size

/-- The key at `pos` is `key`. -/
def keyIs (n : IxNode κ) (pos : Nat) (key : κ) : Bool := n.pairs[pos]?.any fun e => compare e.1 key == .eq

/-- `leaf_lookup`. -/
def leafLookup (n : IxNode κ) (key : κ) : Option Rid :=
  let pos := n.lowerBound key
  if n.keyIs pos key then n.pairs[pos]?.map Prod.snd else none

/-- `internal_lookup`; `none` when the slot holds no pair. -/
def internalLookup (n : IxNode κ) (key : κ) : Option Int := n.pairs[n.upperBound key - 1]?.map child

/-- `find_child`; `none` when the assertion fails. -/
def findChild (n : IxNode κ) (pageNo : Int) : Option Nat := n.pairs.findIdx? fun e => child e = pageNo

end IxNode

/-! ## What the searches find -/

/-- The search finds where a condition that holds up to some position stops holding. -/
theorem bisect_eq {g : Nat → Bool} {r : Nat} : ∀ {rounds left right : Nat},
    (∀ i, left ≤ i → i < right → (g i = true ↔ i < r)) → left ≤ r → r ≤ right → right - left ≤ rounds →
      bisect g rounds left right = r
  | 0, left, right, _, hl, hr, hn => by
    rw [bisect]
    omega
  | rounds + 1, left, right, hg, hl, hr, hn => by
    rw [bisect]
    split
    case isTrue hlt =>
      have hm := hg ((left + right) / 2) (by omega) (by omega)
      by_cases hgo : g ((left + right) / 2) = true
      · rw [if_pos hgo]
        have hlt := hm.1 hgo
        exact bisect_eq (fun i hi hi' => hg i (by omega) hi') (by omega) hr (by omega)
      · rw [if_neg hgo]
        have hge : ¬(left + right) / 2 < r := fun h => hgo (hm.2 h)
        exact bisect_eq (fun i hi hi' => hg i hi (by omega)) hl (by omega) (by omega)
    case isFalse hlt => omega

namespace IxNode

/-- `find_child` finds the first entry of the child. -/
theorem findChild_eq {κ : Type} {n : IxNode κ} {X Y : List (κ × Rid)} {e : κ × Rid} {c : Int}
    (h : n.pairs = X ++ e :: Y) (he : child e = c) (hX : ∀ x ∈ X, child x ≠ c) : n.findChild c = some X.length := by
  have hnone : X.findIdx? (fun x => decide (child x = c)) = none := by
    rw [List.findIdx?_eq_none_iff]
    exact fun x hx => by simpa using hX x hx
  rw [findChild, h, List.findIdx?_append]
  simp [hnone, List.findIdx?_cons, he]

variable {κ : Type} [LinearOrder κ] {n : IxNode κ} {k : κ} {X Y : List (κ × Rid)} {e : κ × Rid}

/-- The keys of a node are in order, the first one apart. -/
def Sorted (n : IxNode κ) : Prop := (n.pairs.tail.map Prod.fst).Pairwise (· < ·)

theorem lowerBound_eq (hp : n.pairs = X ++ Y) (hX : ∀ e ∈ X, e.1 < k) (hY : ∀ e ∈ Y, k ≤ e.1) :
    n.lowerBound k = X.length := by
  refine bisect_eq (fun i _ hi => ?_) (Nat.zero_le _) (by simp [size, hp]) (by simp)
  rw [size, hp] at hi
  rw [hp, List.getElem?_eq_getElem hi, Option.any_some, beq_iff_eq, compare_lt_iff_lt]
  by_cases hlt : i < X.length
  · simp only [List.getElem_append_left hlt, hlt, iff_true]
    exact hX _ (List.getElem_mem hlt)
  · simp only [List.getElem_append_right (Nat.le_of_not_lt hlt), hlt, iff_false, not_lt]
    exact hY _ (List.getElem_mem _)

theorem upperBound_eq (hp : n.pairs = X ++ e :: Y) (hX : X = [] ∨ e.1 ≤ k) (hs : n.Sorted)
    (hY : ∀ e ∈ Y, k < e.1) : n.upperBound k = X.length + 1 := by
  refine bisect_eq (fun i hi1 hi => ?_) (by omega) (by simp [size, hp]) (by simp)
  have hp' : n.pairs = (X ++ [e]) ++ Y := by simp [hp]
  rw [size, hp'] at hi
  rw [hp', List.getElem?_eq_getElem hi, Option.any_some, bne_iff_ne, ne_eq, compare_gt_iff_gt, not_lt]
  by_cases hlt : i < (X ++ [e]).length
  · simp only [List.getElem_append_left hlt]
    have hlt' : i < X.length + 1 := by simpa using hlt
    simp only [hlt', iff_true]
    -- position `i` is in the tail, at or before `e`
    cases X with
    | nil => simp at hlt'; omega
    | cons x X =>
      have hek : e.1 ≤ k := by simpa using hX
      obtain ⟨j, rfl⟩ : ∃ j, i = j + 1 := ⟨i - 1, by omega⟩
      simp only [List.cons_append, List.getElem_cons_succ]
      rw [Sorted, hp, List.cons_append, List.tail_cons, List.map_append, List.pairwise_append] at hs
      have hj : j < (X ++ [e]).length := by simpa using hlt
      rcases List.mem_append.1 (List.getElem_mem hj) with hm | hm
      · exact (le_of_lt (hs.2.2 _ (List.mem_map_of_mem hm) e.1 (by simp))).trans hek
      · rw [List.mem_singleton.1 hm]
        exact hek
  · simp only [List.getElem_append_right (Nat.le_of_not_lt hlt)]
    have hlt' : ¬i < X.length + 1 := by simpa using hlt
    simp only [hlt', iff_false, not_le]
    exact hY _ (List.getElem_mem _)

/-- The pairs below a key and those that are not. -/
theorem exists_split (hs : (n.pairs.map Prod.fst).Pairwise (· < ·)) (k : κ) : ∃ X Y, n.pairs = X ++ Y ∧
    (∀ e ∈ X, e.1 < k) ∧ ∀ e ∈ Y, k ≤ e.1 := by
  generalize n.pairs = l at hs
  induction l with
  | nil => exact ⟨[], [], rfl, by simp, by simp⟩
  | cons a l ih =>
    obtain ⟨hal, hs⟩ := List.pairwise_cons.1 hs
    by_cases ha : a.1 < k
    · obtain ⟨X, Y, rfl, hX, hY⟩ := ih hs
      exact ⟨a :: X, Y, rfl, List.forall_mem_cons.2 ⟨ha, hX⟩, hY⟩
    · have hka : k ≤ a.1 := not_lt.1 ha
      refine ⟨[], a :: l, rfl, by simp, List.forall_mem_cons.2 ⟨hka, fun e he => ?_⟩⟩
      exact hka.trans (le_of_lt (hal _ (List.mem_map_of_mem he)))

/-- The last pair of a non-empty list whose key is not above `k`, or the first pair. -/
theorem exists_upper {l : List (κ × Rid)} {a : κ × Rid} (hs : (l.map Prod.fst).Pairwise (· < ·)) (k : κ) :
    ∃ X e Y, a :: l = X ++ e :: Y ∧ (X = [] ∨ e.1 ≤ k) ∧ ∀ y ∈ Y, k < y.1 := by
  induction l generalizing a with
  | nil => exact ⟨[], a, [], rfl, .inl rfl, by simp⟩
  | cons b l ih =>
    obtain ⟨hbl, hs⟩ := List.pairwise_cons.1 hs
    by_cases hb : b.1 ≤ k
    · obtain ⟨X, e, Y, hp, hX, hY⟩ := ih (a := b) hs
      refine ⟨a :: X, e, Y, by rw [hp]; rfl, .inr ?_, hY⟩
      rcases hX with rfl | hX
      · cases hp
        exact hb
      · exact hX
    · have hkb : k < b.1 := not_le.1 hb
      refine ⟨[], a, b :: l, rfl, .inl rfl, List.forall_mem_cons.2 ⟨hkb, fun y hy => ?_⟩⟩
      exact lt_trans hkb (hbl _ (List.mem_map_of_mem hy))

/-- The entry that a search takes in an inner node. -/
theorem exists_internalLookup (hs : n.Sorted) (hne : n.pairs ≠ []) (k : κ) : ∃ X e Y, n.pairs = X ++ e :: Y ∧
    (X = [] ∨ e.1 ≤ k) ∧ (∀ y ∈ Y, k < y.1) ∧ n.internalLookup k = some (child e) := by
  obtain ⟨a, l, hl⟩ := List.exists_cons_of_ne_nil hne
  have hs' := hs
  rw [Sorted, hl, List.tail_cons] at hs'
  obtain ⟨X, e, Y, hp, hX, hY⟩ := exists_upper (a := a) hs' k
  refine ⟨X, e, Y, hl.trans hp, hX, hY, ?_⟩
  rw [internalLookup, upperBound_eq (hl.trans hp) hX hs hY, hl, hp]
  simp

/-- A key of the node is at the first position that is not below it. -/
theorem mem_iff_head (hs : (n.pairs.map Prod.fst).Pairwise (· < ·)) (hp : n.pairs = X ++ Y) (hX : ∀ e ∈ X, e.1 < k)
    (hY : ∀ e ∈ Y, k ≤ e.1) (r : Rid) : (k, r) ∈ n.pairs ↔ Y.head? = some (k, r) := by
  rw [hp, List.mem_append]
  constructor
  · rintro (hm | hm)
    · exact absurd (hX _ hm) (lt_irrefl k)
    · cases Y with
      | nil => cases hm
      | cons e Y =>
        rcases List.mem_cons.1 hm with rfl | hm
        · rfl
        · rw [hp, List.map_append, List.pairwise_append] at hs
          have hlt := (List.pairwise_cons.1 hs.2.1).1 k (List.mem_map_of_mem (f := Prod.fst) hm)
          exact absurd (lt_of_lt_of_le hlt (hY e (by simp))) (lt_irrefl _)
  · intro hh
    exact .inr (List.mem_of_mem_head? hh)

theorem keyIs_iff (hs : (n.pairs.map Prod.fst).Pairwise (· < ·)) (hp : n.pairs = X ++ Y) (hX : ∀ e ∈ X, e.1 < k)
    (hY : ∀ e ∈ Y, k ≤ e.1) : n.keyIs X.length k = true ↔ ∃ r, (k, r) ∈ n.pairs := by
  have hm := mem_iff_head hs hp hX hY
  rw [keyIs, hp] at *
  cases Y with
  | nil => simpa using hm
  | cons e Y =>
    simp only [List.getElem?_append_right (Nat.le_refl _), Nat.sub_self, List.getElem?_cons_zero, Option.any_some,
      beq_iff_eq, compare_eq_iff_eq, hm, List.head?_cons, Option.some.injEq]
    constructor
    · rintro rfl
      exact ⟨e.2, rfl⟩
    · rintro ⟨r, rfl⟩
      rfl

/-- `leaf_lookup` finds the rid of a key of the leaf. -/
theorem leafLookup_iff (hs : (n.pairs.map Prod.fst).Pairwise (· < ·)) (r : Rid) :
    n.leafLookup k = some r ↔ (k, r) ∈ n.pairs := by
  obtain ⟨X, Y, hp, hX, hY⟩ := exists_split hs k
  have hm := mem_iff_head hs hp hX hY
  have hk := keyIs_iff hs hp hX hY
  have hget : n.pairs[X.length]? = Y.head? := by rw [hp]; cases Y <;> simp
  rw [leafLookup, lowerBound_eq hp hX hY, hget]
  by_cases hex : ∃ r, (k, r) ∈ n.pairs
  · obtain ⟨r', hr'⟩ := hex
    have hh := (hm r').1 hr'
    rw [if_pos (hk.2 ⟨r', hr'⟩), hm, hh]
    simp
  · rw [if_neg fun h => hex (hk.1 h)]
    simpa using fun h => hex ⟨r, h⟩

end IxNode

end Rmdb
