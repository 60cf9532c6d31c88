import Mathlib.Data.List.Basic

/-!
# Comparators and stable sorting

- `Ordered`: a three-way comparator that is a total preorder on the values with a property; the sign of a number that
  the values carry is one, and so are the reverse of a comparator and a lexicographic list of them;
- `keepBest`: the value that a loop keeps which takes a better one when it sees one (`foldl_keepBest`);
- `stableSort` and `IsStableSort`: sorting by a comparator, and that it is stable when the comparator is ordered
  (`stableSort_spec`).
-/

namespace Rmdb.Lib

variable {α : Type}

/-! ## Comparators -/

/-- On the values with `P` the comparator is a total preorder. -/
structure Ordered (P : α → Prop) (cmp : α → α → Int) : Prop where
  flip : ∀ a b, P a → P b → (cmp a b < 0 ↔ 0 < cmp b a)
  trans : ∀ a b c, P a → P b → P c → cmp a b ≤ 0 → cmp b c ≤ 0 → cmp a c ≤ 0

namespace Ordered

variable {P : α → Prop} {cmp cmp' : α → α → Int}

theorem zero_iff (h : Ordered P cmp) {a b : α} (ha : P a) (hb : P b) : cmp a b = 0 ↔ cmp b a = 0 := by
  have h1 := h.flip a b ha hb
  have h2 := h.flip b a hb ha
  omega

theorem total (h : Ordered P cmp) {a b : α} (ha : P a) (hb : P b) : cmp a b ≤ 0 ∨ cmp b a ≤ 0 := by
  have h1 := h.flip a b ha hb
  omega

/-- Equivalent values compare alike with a third one. -/
theorem lt_of_lt_of_eq (h : Ordered P cmp) {a b c : α} (ha : P a) (hb : P b) (hc : P c) (hab : cmp a b < 0)
    (hbc : cmp b c = 0) : cmp a c < 0 := by
  have h1 := h.trans a b c ha hb hc
  have h2 := h.trans b c a hb hc ha
  have h3 := h.flip a b ha hb
  have h4 := h.zero_iff ha hc
  omega

theorem lt_of_eq_of_lt (h : Ordered P cmp) {a b c : α} (ha : P a) (hb : P b) (hc : P c) (hab : cmp a b = 0)
    (hbc : cmp b c < 0) : cmp a c < 0 := by
  have h1 := h.trans a b c ha hb hc
  have h2 := h.trans c a b hc ha hb
  have h3 := h.flip b c hb hc
  have h4 := h.zero_iff ha hc
  omega

theorem eq_of_eq_of_eq (h : Ordered P cmp) {a b c : α} (ha : P a) (hb : P b) (hc : P c) (hab : cmp a b = 0)
    (hbc : cmp b c = 0) : cmp a c = 0 := by
  have h1 := h.trans a b c ha hb hc
  have h2 := h.trans c b a hc hb ha
  have h3 := h.zero_iff ha hb
  have h4 := h.zero_iff hb hc
  have h5 := h.flip a c ha hc
  omega

/-- The other direction. -/
theorem neg (h : Ordered P cmp) : Ordered P fun a b => -cmp a b where
  flip a b ha hb := by
    have := h.flip b a hb ha
    omega
  trans a b c ha hb hc h1 h2 := by
    have h3 := h.trans c b a hc hb ha
    have h4 := h.flip a b ha hb
    have h5 := h.flip b c hb hc
    have h6 := h.flip a c ha hc
    omega

theorem comap {β : Type} (h : Ordered P cmp) (f : β → α) : Ordered (fun b => P (f b)) fun a b => cmp (f a) (f b) :=
  ⟨fun _ _ ha hb => h.flip _ _ ha hb, fun _ _ _ ha hb hc => h.trans _ _ _ ha hb hc⟩

theorem mono {Q : α → Prop} (h : Ordered P cmp) (hq : ∀ a, Q a → P a) : Ordered Q cmp :=
  ⟨fun _ _ ha hb => h.flip _ _ (hq _ ha) (hq _ hb), fun _ _ _ ha hb hc => h.trans _ _ _ (hq _ ha) (hq _ hb) (hq _ hc)⟩

end Ordered

/-- A comparator that gives the sign of a comparison of numbers. -/
theorem ordered_of_key {P : α → Prop} {cmp : α → α → Int} (key : α → Int)
    (h : ∀ a b, P a → P b → cmp a b = if key a < key b then -1 else if key b < key a then 1 else 0) :
    Ordered P cmp where
  flip a b ha hb := by
    rw [h a b ha hb, h b a hb ha]
    grind
  trans a b c ha hb hc h1 h2 := by
    rw [h a b ha hb] at h1
    rw [h b c hb hc] at h2
    rw [h a c ha hc]
    grind

/-- The first comparator that tells the values apart. -/
def lexCompare : List (α → α → Int) → α → α → Int
  | [], _, _ => 0
  | cmp :: cmps, a, b => if cmp a b ≠ 0 then cmp a b else lexCompare cmps a b

theorem ordered_lexCompare {P : α → Prop} (cmps : List (α → α → Int)) (h : ∀ cmp ∈ cmps, Ordered P cmp) :
    Ordered P (lexCompare cmps) := by
  induction cmps with
  | nil => exact ⟨fun _ _ _ _ => by simp [lexCompare], fun _ _ _ _ _ _ _ _ => by simp [lexCompare]⟩
  | cons cmp cmps ih =>
    have h1 := h cmp List.mem_cons_self
    have h2 := ih fun cmp' hc => h cmp' (List.mem_cons_of_mem _ hc)
    constructor
    · intro a b ha hb
      have hz := h1.zero_iff ha hb
      have hf := h1.flip a b ha hb
      have hf' := h2.flip a b ha hb
      simp only [lexCompare]
      split <;> split <;> omega
    · intro a b c ha hb hc hab hbc
      simp only [lexCompare] at hab hbc ⊢
      by_cases e1 : cmp a b = 0 <;> by_cases e2 : cmp b c = 0
      · have e3 := h1.eq_of_eq_of_eq ha hb hc e1 e2
        simp only [e1, e2, e3, ne_eq, not_true_eq_false, if_false] at hab hbc ⊢
        exact h2.trans a b c ha hb hc hab hbc
      · rw [if_pos e2] at hbc
        have e3 := h1.lt_of_eq_of_lt ha hb hc e1 (by omega)
        rw [if_pos (by omega)]
        omega
      · rw [if_pos e1] at hab
        have e3 := h1.lt_of_lt_of_eq ha hb hc (by omega) e2
        rw [if_pos (by omega)]
        omega
      · rw [if_pos e1] at hab
        rw [if_pos e2] at hbc
        have e3 := h1.trans a b c ha hb hc hab hbc
        have e4 : cmp a c ≠ 0 := fun e => by
          have e5 := h1.lt_of_eq_of_lt (a := c) (b := a) (c := b) hc ha hb ((h1.zero_iff ha hc).1 e) (by omega)
          have e6 := h1.flip c b hc hb
          omega
        rwa [if_pos e4]

/-! ## The best value -/

/-- The value that is kept, behind another one. -/
def keepBest (better : α → α → Bool) : Option α → α → Option α
  | none, b => some b
  | some a, b => if better b a then some b else some a

theorem foldl_keepBest_some {better : α → α → Bool} (hirr : ∀ a, better a a = false)
    (htrans : ∀ a b c, better a b = true → better b c = true → better a c = true) : ∀ (l : List α) (a : α),
    ∃ m ∈ a :: l, l.foldl (keepBest better) (some a) = some m ∧ (m = a ∨ better m a = true) ∧
      ∀ b ∈ a :: l, better b m = false
  | [], a => ⟨a, List.mem_cons_self, rfl, .inl rfl, fun b hb => by
      obtain rfl := List.mem_singleton.1 hb
      exact hirr _⟩
  | b :: l, a => by
    by_cases hb : better b a = true
    · obtain ⟨m, hm, hfold, hbest, hall⟩ := foldl_keepBest_some hirr htrans l b
      have hma : better m a = true := by
        rcases hbest with rfl | hmb
        · exact hb
        · exact htrans m b a hmb hb
      refine ⟨m, List.mem_cons_of_mem _ hm, ?_, .inr hma, List.forall_mem_cons.2 ⟨?_, hall⟩⟩
      · rw [List.foldl_cons, keepBest, if_pos hb, hfold]
      · by_contra ham
        have hself := htrans a m a (eq_true_of_ne_false ham) hma
        rw [hirr] at hself
        cases hself
    · obtain ⟨m, hm, hfold, hbest, hall⟩ := foldl_keepBest_some hirr htrans l a
      refine ⟨m, ?_, ?_, hbest, ?_⟩
      · rcases List.mem_cons.1 hm with rfl | hm
        · exact List.mem_cons_self
        · exact List.mem_cons_of_mem _ (List.mem_cons_of_mem _ hm)
      · rw [List.foldl_cons, keepBest, if_neg hb, hfold]
      · have hbm : better b m = false := by
          rcases hbest with rfl | hma
          · exact eq_false_of_ne_true hb
          · by_contra hbm
            exact hb (htrans b m a (eq_true_of_ne_false hbm) hma)
        obtain ⟨ham, hl⟩ := List.forall_mem_cons.1 hall
        exact List.forall_mem_cons.2 ⟨ham, List.forall_mem_cons.2 ⟨hbm, hl⟩⟩

/-- **What is kept is a value that no other one is better than**, also where not all values can be compared. -/
theorem foldl_keepBest {better : α → α → Bool} (hirr : ∀ a, better a a = false)
    (htrans : ∀ a b c, better a b = true → better b c = true → better a c = true) {l : List α} (h : l ≠ []) :
    ∃ m ∈ l, l.foldl (keepBest better) none = some m ∧ ∀ b ∈ l, better b m = false := by
  cases l with
  | nil => exact absurd rfl h
  | cons a l =>
    obtain ⟨m, hm, hfold, -, hall⟩ := foldl_keepBest_some hirr htrans l a
    exact ⟨m, hm, hfold, hall⟩

/-! ## Stable sorting -/

/-- Sorted by the comparator, with values that compare equal in the order in which they came. -/
structure IsStableSort (cmp : α → α → Int) (xs ys : List α) : Prop where
  perm : ys.Perm xs
  sorted : ys.Pairwise fun a b => cmp a b ≤ 0
  stable : ∀ zs : List α, zs.Sublist xs → (zs.Pairwise fun a b => cmp a b = 0) → zs.Sublist ys

/-- `std::stable_sort` with `cmp a b < 0` as its comparison. -/
def stableSort (cmp : α → α → Int) (xs : List α) : List α := xs.mergeSort fun a b => decide (¬cmp b a < 0)

/-- **The sort is stable**, by a comparator that is ordered on the values. -/
theorem stableSort_spec {P : α → Prop} {cmp : α → α → Int} (h : Ordered P cmp) {xs : List α} (hx : ∀ a ∈ xs, P a) :
    IsStableSort cmp xs (stableSort cmp xs) := by
  -- over the values with the property the comparison is transitive and total
  let le : {a // P a} → {a // P a} → Bool := fun a b => decide (¬cmp b.1 a.1 < 0)
  have hle : ∀ a b : {a // P a}, le a b = true ↔ cmp a.1 b.1 ≤ 0 := by
    intro a b
    have := h.flip b.1 a.1 b.2 a.2
    simp only [le, decide_eq_true_eq]
    omega
  have htrans : ∀ a b c, le a b → le b c → le a c := fun a b c hab hbc =>
    (hle a c).2 (h.trans _ _ _ a.2 b.2 c.2 ((hle a b).1 hab) ((hle b c).1 hbc))
  have htotal : ∀ a b, (le a b || le b a) = true := fun a b => by
    rw [Bool.or_eq_true, hle, hle]
    exact h.total a.2 b.2
  obtain ⟨xs, rfl⟩ : ∃ xs' : List {a // P a}, xs = xs'.map Subtype.val :=
    ⟨xs.attachWith P hx, by simp⟩
  have hmap : stableSort cmp (xs.map Subtype.val) = (xs.mergeSort le).map Subtype.val :=
    (List.map_mergeSort (r := le) (f := Subtype.val) fun _ _ _ _ => rfl).symm
  refine ⟨List.mergeSort_perm _ _, ?_, fun zs hz hp => ?_⟩
  · rw [hmap, List.pairwise_map]
    exact (List.pairwise_mergeSort htrans htotal xs).imp fun hab => (hle _ _).1 hab
  · rw [hmap]
    obtain ⟨zs, hz', rfl⟩ := List.sublist_map_iff.1 hz
    refine (List.sublist_mergeSort htrans htotal ?_ hz').map _
    exact (List.pairwise_map.1 hp).imp fun hab => (hle _ _).2 (Int.le_of_eq hab)

theorem stableSort_perm (cmp : α → α → Int) (xs : List α) : (stableSort cmp xs).Perm xs := List.mergeSort_perm _ _

end Rmdb.Lib
