import Mathlib.Data.List.Perm.Basic
import Mathlib.Logic.Function.Basic

/-!
# Trees of joins

- `combos`: all ways to choose one row of each relation of a list; the order of the list only permutes them
  (`combos_perm`), and a condition on one relation can be taken before the others are chosen (`combos_filter`);
- `JoinTree`: relations joined under conditions, with `Placed` for trees whose conditions speak about relations below
  them;
- `eval_eq`: whatever its shape, such a tree gives the combinations that satisfy all of its conditions.
-/

namespace Rmdb.Lib

theorem all_congr_of_mem {α : Type} {p q : α → Bool} : ∀ {as : List α}, (∀ a ∈ as, p a = q a) → as.all p = as.all q
  | [], _ => rfl
  | a :: as, h => by
    rw [List.all_cons, List.all_cons, h a List.mem_cons_self,
      all_congr_of_mem fun b hb => h b (List.mem_cons_of_mem _ hb)]

variable {ι κ ρ : Type}

/-! ## Combinations -/

section combos

variable [DecidableEq ι]
variable (rows : ι → List ρ) (base : ι → ρ)

/-- One row for each of these relations, and the base row for all others. -/
def combos : List ι → List (ι → ρ)
  | [] => [base]
  | i :: is => (rows i).flatMap fun r => (combos is).map fun e => Function.update e i r

/-- Two nested loops in either order. -/
theorem flatMap_comm_perm {α β γ : Type} (f : α → β → List γ) (as : List α) (bs : List β) :
    (as.flatMap fun a => bs.flatMap (f a)).Perm (bs.flatMap fun b => as.flatMap (f · b)) := by
  induction as with
  | nil => simp
  | cons a as ih =>
    simp only [List.flatMap_cons]
    exact (ih.append_left _).trans (List.flatMap_append_perm bs (f a) fun b => as.flatMap (f · b))

/-- **The order of the relations does not matter.** -/
theorem combos_perm {is js : List ι} (h : is.Perm js) (hn : is.Nodup) :
    (combos rows base is).Perm (combos rows base js) := by
  induction h with
  | nil => exact List.Perm.refl _
  | cons i h ih =>
    exact List.Perm.flatMap_left _ fun r _ => (ih (List.nodup_cons.1 hn).2).map _
  | swap i j is =>
    have hne : j ≠ i := fun he => (List.nodup_cons.1 hn).1 (by simp [he])
    have key : ∀ i j, combos rows base (i :: j :: is) = (rows i).flatMap fun r => (rows j).flatMap fun s =>
        (combos rows base is).map fun e => Function.update (Function.update e j s) i r := by
      intro i j
      simp only [combos, List.map_flatMap, List.map_map, Function.comp_def]
    have hcomm : ∀ (e : ι → ρ) (r s : ρ),
        Function.update (Function.update e j s) i r = Function.update (Function.update e i r) j s :=
      fun e r s => Function.update_comm hne s r e
    rw [key, key]
    simp only [hcomm]
    exact flatMap_comm_perm _ (rows j) (rows i)
  | trans h h' ih ih' => exact (ih hn).trans (ih' (h.nodup_iff.1 hn))

theorem mem_combos {e : ι → ρ} : ∀ {is : List ι}, e ∈ combos rows base is → ∀ i ∈ is, e i ∈ rows i
  | j :: is, he, i, hi => by
    obtain ⟨r, hr, he⟩ := List.mem_flatMap.1 he
    obtain ⟨e', he', rfl⟩ := List.mem_map.1 he
    by_cases hij : i = j
    · subst hij
      rwa [Function.update_self]
    · rw [Function.update_of_ne hij]
      exact mem_combos he' i ((List.mem_cons.1 hi).resolve_left hij)

/-- A relation without rows leaves no combination. -/
theorem combos_eq_nil {is : List ι} {i : ι} (hi : i ∈ is) (hrows : rows i = []) : combos rows base is = [] := by
  rw [List.eq_nil_iff_forall_not_mem]
  intro e he
  have h := mem_combos rows base he i hi
  rw [hrows] at h
  cases h

/-- **A condition on one relation can be taken first.** -/
theorem combos_filter (p : ι → ρ → Bool) : ∀ {is : List ι}, is.Nodup →
    combos (fun i => (rows i).filter (p i)) base is = (combos rows base is).filter fun e => is.all fun i => p i (e i)
  | [], _ => rfl
  | i :: is, hn => by
    obtain ⟨hi, hn⟩ := List.nodup_cons.1 hn
    rw [combos, combos_filter p hn, combos, List.filter_flatMap]
    induction rows i with
    | nil => rfl
    | cons r rs ih =>
      have hrest : ∀ e, (is.all fun j => p j (Function.update e i r j)) = is.all fun j => p j (e j) := by
        intro e
        refine all_congr_of_mem fun j hj => ?_
        have hne : j ≠ i := fun he => hi (he ▸ hj)
        rw [Function.update_of_ne hne]
      rw [List.flatMap_cons, ← ih, List.filter_map]
      cases hp : p i r <;> simp [hp, Function.comp_def, hrest]

end combos

/-! ## Two parts of a combination -/

section overlay

variable [DecidableEq ι]

/-- The rows of these relations from the first, all others from the second. -/
def overlay (is : List ι) (e e' : ι → ρ) : ι → ρ := fun i => if i ∈ is then e i else e' i

theorem overlay_of_mem {is : List ι} {i : ι} (h : i ∈ is) (e e' : ι → ρ) : overlay is e e' i = e i := if_pos h

theorem overlay_of_notMem {is : List ι} {i : ι} (h : i ∉ is) (e e' : ι → ρ) : overlay is e e' i = e' i := if_neg h

/-- The combinations of two lists are those of the one with those of the other. -/
theorem combos_append (rows : ι → List ρ) (base : ι → ρ) (js : List ι) : ∀ is : List ι,
    combos rows base (is ++ js) = (combos rows base is).flatMap fun e => (combos rows base js).map (overlay is e)
  | [] => by
    have h : overlay ([] : List ι) base = id := by
      funext e i
      exact overlay_of_notMem List.not_mem_nil _ _
    simp [combos, h]
  | i :: is => by
    have h : ∀ (e e' : ι → ρ) (r : ρ),
        Function.update (overlay is e e') i r = overlay (i :: is) (Function.update e i r) e' := by
      intro e e' r
      funext j
      by_cases hj : j = i
      · subst hj
        rw [Function.update_self, overlay_of_mem List.mem_cons_self, Function.update_self]
      · rw [Function.update_of_ne hj]
        by_cases hm : j ∈ is
        · rw [overlay_of_mem hm, overlay_of_mem (List.mem_cons_of_mem _ hm), Function.update_of_ne hj]
        · rw [overlay_of_notMem hm, overlay_of_notMem (by simp [hj, hm])]
    simp only [List.cons_append, combos, combos_append rows base js is, List.map_flatMap, List.flatMap_assoc,
      List.flatMap_map, List.map_map, Function.comp_def, h]

end overlay

/-! ## Trees -/

/-- Relations, joined two by two under conditions. -/
inductive JoinTree (ι κ : Type)
  | leaf (i : ι)
  | join (left right : JoinTree ι κ) (conds : List κ)

namespace JoinTree

/-- The relations, from left to right. -/
def leaves : JoinTree ι κ → List ι
  | leaf i => [i]
  | join left right _ => left.leaves ++ right.leaves

/-- The conditions of all joins. -/
def conds : JoinTree ι κ → List κ
  | leaf _ => []
  | join left right cs => left.conds ++ right.conds ++ cs

/-- Every condition speaks about relations below its join. -/
def Placed (vars : κ → List ι) : JoinTree ι κ → Prop
  | leaf _ => True
  | join left right cs => left.Placed vars ∧ right.Placed vars ∧ ∀ c ∈ cs, ∀ i ∈ vars c, i ∈ left.leaves ++ right.leaves

variable {vars : κ → List ι}

theorem vars_mem_leaves : ∀ {t : JoinTree ι κ}, t.Placed vars → ∀ c ∈ t.conds, ∀ i ∈ vars c, i ∈ t.leaves
  | join left right cs, ⟨hl, hr, hcs⟩, c, hc, i, hi => by
    rw [conds, List.mem_append, List.mem_append] at hc
    rw [leaves, List.mem_append]
    rcases hc with (hc | hc) | hc
    · exact .inl (vars_mem_leaves hl c hc i hi)
    · exact .inr (vars_mem_leaves hr c hc i hi)
    · exact List.mem_append.1 (hcs c hc i hi)

variable [DecidableEq ι] (rows : ι → List ρ) (base : ι → ρ) (sat : κ → (ι → ρ) → Bool)

/-- The combinations a tree gives: at a join, of each pair from below those that satisfy its conditions. -/
def eval : JoinTree ι κ → List (ι → ρ)
  | leaf i => (rows i).map (Function.update base i)
  | join left right cs =>
    (eval left).flatMap fun e => ((eval right).map (overlay left.leaves e)).filter fun e => cs.all (sat · e)

theorem mem_eval {e : ι → ρ} : ∀ {t : JoinTree ι κ}, e ∈ t.eval rows base sat → ∀ i ∈ t.leaves, e i ∈ rows i
  | leaf i, he, j, hj => by
    obtain ⟨r, hr, rfl⟩ := List.mem_map.1 he
    rw [List.mem_singleton.1 hj, Function.update_self]
    exact hr
  | join left right cs, he, i, hi => by
    obtain ⟨l, hl, he⟩ := List.mem_flatMap.1 he
    obtain ⟨r, hr, rfl⟩ := List.mem_map.1 (List.mem_of_mem_filter he)
    by_cases hm : i ∈ left.leaves
    · rw [overlay_of_mem hm]
      exact mem_eval hl i hm
    · rw [overlay_of_notMem hm]
      exact mem_eval hr i ((List.mem_append.1 hi).resolve_left hm)

/-- **The shape of a tree does not matter**: it gives the combinations that satisfy all of its conditions. -/
theorem eval_eq (hsat : ∀ c e e', (∀ i ∈ vars c, e i = e' i) → sat c e = sat c e') : ∀ {t : JoinTree ι κ},
    t.leaves.Nodup → t.Placed vars →
    t.eval rows base sat = (combos rows base t.leaves).filter fun e => t.conds.all (sat · e)
  | leaf i, _, _ => by
    simp [eval, leaves, conds, combos, List.map_eq_flatMap]
  | join left right cs, hn, ⟨hl, hr, _⟩ => by
    obtain ⟨hnl, hnr, hdisj⟩ := List.nodup_append.1 hn
    have hleft : ∀ c ∈ left.conds, ∀ e e', sat c (overlay left.leaves e e') = sat c e := by
      intro c hc e e'
      apply hsat
      intro i hi
      exact overlay_of_mem (vars_mem_leaves hl c hc i hi) e e'
    have hright : ∀ c ∈ right.conds, ∀ e e', sat c (overlay left.leaves e e') = sat c e' := by
      intro c hc e e'
      apply hsat
      intro i hi
      exact overlay_of_notMem (fun hm => hdisj i hm i (vars_mem_leaves hr c hc i hi) rfl) e e'
    have hall : ∀ e e', ((left.join right cs).conds.all (sat · (overlay left.leaves e e'))) =
        (left.conds.all (sat · e) && (right.conds.all (sat · e') && cs.all (sat · (overlay left.leaves e e')))) := by
      intro e e'
      rw [conds, List.all_append, List.all_append, Bool.and_assoc]
      congr 1
      · exact all_congr_of_mem fun c hc => hleft c hc e e'
      · congr 1
        exact all_congr_of_mem fun c hc => hright c hc e e'
    rw [eval, eval_eq hsat hnl hl, eval_eq hsat hnr hr, leaves, combos_append, List.filter_flatMap]
    induction combos rows base left.leaves with
    | nil => rfl
    | cons e es ih =>
      rw [List.flatMap_cons, ← ih, List.filter_map]
      simp only [Function.comp_def, hall]
      cases hp : left.conds.all (sat · e)
      · simp [hp]
      · simp [hp, List.filter_map, Function.comp_def, Bool.and_comm]

end JoinTree

end Rmdb.Lib
