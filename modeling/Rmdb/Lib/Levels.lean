import Mathlib.Data.List.Lattice
import Mathlib.Data.List.Nodup
import Mathlib.Data.List.Pairwise
import Mathlib.Order.Defs.LinearOrder
import Mathlib.Tactic.Common
import Mathlib.Tactic.Ring

/-!
# Search trees, level by level

A tree of pages is the list of its levels, each the list of its nodes from left to right. A node has entries; an entry of
an inner node has a key and a child.

- `Linked`: the entries of one level, in order, have the nodes of the level below as children, the children name their
  parent, and each key but the leftmost is the first key of its child. How the entries are grouped into nodes does not
  matter (`Linked.regroup`), and the children of a node may be exchanged for others (`Linked.replace`);
- `Tower`: the levels above a given one, up to a single node;
- `Route`: the node of a level that a search for a key has to take. `Linked.route` is one step of the search, and on a
  sorted level the entries of the other nodes are below or above the key (`Route.below`, `Route.above`).
-/

namespace Rmdb.Lib

variable {ι ε κ : Type*}

/-- The element of a concatenation lies in one of the lists. -/
theorem flatMap_eq_append_cons {f : ι → List ε} {es es' : List ε} {e : ε} : ∀ {l : List ι},
    l.flatMap f = es ++ e :: es' → ∃ A p B X Y, l = A ++ p :: B ∧ f p = X ++ e :: Y ∧ es = A.flatMap f ++ X ∧
      es' = Y ++ B.flatMap f
  | [], h => by simp at h
  | p :: l, h => by
    rw [List.flatMap_cons] at h
    rcases List.append_eq_append_iff.1 h with ⟨as, rfl, hl⟩ | ⟨bs, hp, hl⟩
    · obtain ⟨A, p', B, X, Y, rfl, hp', rfl, rfl⟩ := flatMap_eq_append_cons hl
      exact ⟨p :: A, p', B, X, Y, rfl, hp', by simp, rfl⟩
    · cases bs with
      | nil =>
        -- the element is the first of the rest
        have hl : l.flatMap f = [] ++ e :: es' := hl.symm
        obtain ⟨A, p', B, X, Y, rfl, hp', hX, rfl⟩ := flatMap_eq_append_cons hl
        obtain ⟨hA, rfl⟩ := List.append_eq_nil_iff.1 hX.symm
        exact ⟨p :: A, p', B, [], Y, rfl, hp', by simp [hA, hp], rfl⟩
      | cons b bs =>
        obtain ⟨rfl, rfl⟩ := List.cons.inj hl
        exact ⟨[], p, l, es, bs, rfl, hp, by simp, rfl⟩

section levels
variable (key : ε → κ) (child : ε → ι) (entries : ι → List ε) (parent : ι → ι)

/-- The key of a node's first entry. -/
def firstKey (p : ι) : Option κ := (entries p).head?.map key

structure Linked (up low : List ι) : Prop where
  children : (up.flatMap entries).map child = low
  parent : ∀ p ∈ up, ∀ e ∈ entries p, parent (child e) = p
  keys : ∀ e ∈ (up.flatMap entries).tail, firstKey key entries (child e) = some (key e)

/-- The levels above `low`. `ok` holds of their nodes (its flag is set for the top one), `top` of the single node of the
highest level. -/
def Tower (ok : Bool → ι → Prop) (top : ι → Prop) : List ι → List (List ι) → Prop
  | low, [] => ∃ r, low = [r] ∧ top r
  | low, up :: ups => Linked key child entries parent up low ∧ (∀ p ∈ up, ok ups.isEmpty p) ∧ Tower ok top up ups

end levels

variable {key : ε → κ} {child : ε → ι} {entries entries' : ι → List ε} {parent parent' : ι → ι}
  {ok ok' : Bool → ι → Prop} {top top' : ι → Prop} {up low : List ι} {ups : List (List ι)}

theorem firstKey_congr {p : ι} (h : entries' p = entries p) : firstKey key entries' p = firstKey key entries p := by
  rw [firstKey, firstKey, h]

/-- Where no child occurs twice, only one node has an entry of it. -/
theorem eq_of_child_eq {l : List ι} (h : ((l.flatMap entries).map child).Nodup) {p q : ι} (hp : p ∈ l) (hq : q ∈ l)
    {x y : ε} (hx : x ∈ entries p) (hy : y ∈ entries q) (hxy : child x = child y) : p = q := by
  rw [List.map_flatMap, List.nodup_flatMap] at h
  have : Std.Symm (Function.onFun List.Disjoint fun a => (entries a).map child) :=
    ⟨fun _ _ h => List.Disjoint.symm h⟩
  by_contra hne
  refine h.2.forall hp hq hne (List.mem_map_of_mem hx) ?_
  rw [hxy]
  exact List.mem_map_of_mem hy

namespace Linked

/-- The entry of a child, in its node. -/
theorem find {A B : List ι} {c : ι} (h : Linked key child entries parent up (A ++ c :: B)) :
    ∃ A' p B' X e Y, up = A' ++ p :: B' ∧ entries p = X ++ e :: Y ∧ child e = c ∧
      A = (A'.flatMap entries ++ X).map child ∧ B = (Y ++ B'.flatMap entries).map child ∧ parent c = p := by
  obtain ⟨es, es', hE, hes, hes'⟩ := List.map_eq_append_iff.1 h.children
  obtain ⟨e, es', rfl, rfl, rfl⟩ := List.map_eq_cons_iff.1 hes'
  obtain ⟨A', p, B', X, Y, rfl, hp, rfl, rfl⟩ := flatMap_eq_append_cons hE
  exact ⟨A', p, B', X, e, Y, rfl, hp, rfl, hes.symm, rfl, h.parent p (by simp) e (by simp [hp])⟩

/-- Only the entries of the upper level count, and what the lower level shows of itself. -/
theorem congr (h : Linked key child entries parent up low) (he : ∀ p ∈ up, entries' p = entries p)
    (hf : ∀ c ∈ low.tail, firstKey key entries' c = firstKey key entries c) (hp : ∀ c ∈ low, parent' c = parent c) :
    Linked key child entries' parent' up low := by
  have hE : up.flatMap entries' = up.flatMap entries := List.flatMap_congr he
  refine ⟨hE ▸ h.children, fun p hup e hep => ?_, fun e hmem => ?_⟩
  · rw [he p hup] at hep
    have hc : child e ∈ low := h.children ▸ List.mem_map_of_mem (List.mem_flatMap_of_mem hup hep)
    rw [hp _ hc, h.parent p hup e hep]
  · rw [hE] at hmem
    rw [hf _ (by rw [← h.children, ← List.map_tail]; exact List.mem_map_of_mem hmem), h.keys e hmem]

/-- The same entries in other nodes: the children have to name the new ones. -/
theorem regroup {up' : List ι} (h : Linked key child entries parent up low)
    (hE : up'.flatMap entries' = up.flatMap entries)
    (hp : ∀ p ∈ up', ∀ e ∈ entries' p, parent' (child e) = p)
    (hf : ∀ c ∈ low.tail, firstKey key entries' c = firstKey key entries c) :
    Linked key child entries' parent' up' low := by
  refine ⟨hE ▸ h.children, hp, fun e hmem => ?_⟩
  rw [hE] at hmem
  rw [hf _ (by rw [← h.children, ← List.map_tail]; exact List.mem_map_of_mem hmem), h.keys e hmem]

/-- Other children in the place of consecutive ones of a node. -/
theorem replace {A' B' A B : List ι} {P : ι} {X Y E E' : List ε} {e e' : ε}
    (h : Linked key child entries parent (A' ++ P :: B') (A ++ (e :: E).map child ++ B))
    (hP : entries P = X ++ e :: E ++ Y) (hA : A = (A'.flatMap entries ++ X).map child)
    (hB : B = (Y ++ B'.flatMap entries).map child) (hP' : entries' P = X ++ e' :: E' ++ Y)
    (hother : ∀ r ∈ A' ++ B', entries' r = entries r)
    (hf : ∀ c ∈ A ++ B, firstKey key entries' c = firstKey key entries c)
    (hhead : A ≠ [] → firstKey key entries' (child e') = some (key e'))
    (hE' : ∀ x ∈ E', firstKey key entries' (child x) = some (key x)) (hnew : ∀ x ∈ e' :: E', parent' (child x) = P)
    (hp : ∀ c ∈ A ++ B, parent' c = parent c) :
    Linked key child entries' parent' (A' ++ P :: B') (A ++ (e' :: E').map child ++ B) := by
  have hEA : A'.flatMap entries' = A'.flatMap entries := List.flatMap_congr fun r hr => hother r (by simp [hr])
  have hEB : B'.flatMap entries' = B'.flatMap entries := List.flatMap_congr fun r hr => hother r (by simp [hr])
  have hold : (A' ++ P :: B').flatMap entries = (A'.flatMap entries ++ X) ++ e :: E ++ (Y ++ B'.flatMap entries) := by
    simp [hP]
  have hall : (A' ++ P :: B').flatMap entries' = (A'.flatMap entries ++ X) ++ e' :: E' ++ (Y ++ B'.flatMap entries) := by
    simp [hEA, hEB, hP']
  have hmem : ∀ x, x ∈ A'.flatMap entries ++ X ∨ x ∈ Y ++ B'.flatMap entries → child x ∈ A ++ B := by
    intro x hx
    rw [hA, hB, ← List.map_append]
    exact List.mem_map_of_mem (List.mem_append.2 hx)
  have hkeep : ∀ r ∈ A' ++ P :: B', ∀ x ∈ entries r, child x ∈ A ++ B → parent' (child x) = r := by
    intro r hr x hx hc
    rw [hp _ hc, h.parent r hr x hx]
  refine ⟨?_, fun r hr x hx => ?_, fun x hx => ?_⟩
  · rw [hall, hA, hB]
    simp
  · rcases List.mem_append.1 hr with hr' | hr'
    · have hxr : x ∈ entries r := hother r (by simp [hr']) ▸ hx
      exact hkeep r hr x hxr (hmem x (.inl (List.mem_append_left _ (List.mem_flatMap_of_mem hr' hxr))))
    · rcases List.mem_cons.1 hr' with rfl | hr''
      · rw [hP'] at hx
        rcases List.mem_append.1 hx with hx | hx
        · rcases List.mem_append.1 hx with hx | hx
          · exact hkeep r hr x (by simp [hP, hx]) (hmem x (.inl (List.mem_append_right _ hx)))
          · exact hnew x hx
        · exact hkeep r hr x (by simp [hP, hx]) (hmem x (.inr (List.mem_append_left _ hx)))
      · have hxr : x ∈ entries r := hother r (by simp [hr'']) ▸ hx
        exact hkeep r hr x hxr (hmem x (.inr (List.mem_append_right _ (List.mem_flatMap_of_mem hr'' hxr))))
  · -- an old entry of the tail was in the tail before
    have holdkey : x ∈ ((A' ++ P :: B').flatMap entries).tail → child x ∈ A ++ B →
        firstKey key entries' (child x) = some (key x) := by
      intro hx hc
      rw [hf _ hc, h.keys x hx]
    rw [hall] at hx
    rw [hold] at holdkey
    cases hS : A'.flatMap entries ++ X with
    | nil =>
      rw [hS] at hx holdkey
      simp only [List.nil_append, List.cons_append, List.tail_cons, List.mem_append] at hx holdkey
      rcases hx with hx | hx
      · exact hE' x hx
      · exact holdkey (.inr hx) (by simpa using hmem x (.inr (List.mem_append.2 hx)))
    | cons a S =>
      have hne : A ≠ [] := by simp [hA, hS]
      rw [hS] at hx holdkey
      simp only [List.cons_append, List.tail_cons, List.mem_append, List.mem_cons] at hx holdkey
      rcases hx with (hx | rfl | hx) | hx
      · exact holdkey (.inl (.inl hx)) (by simpa using hmem x (.inl (by simp [hS, hx])))
      · exact hhead hne
      · exact hE' x hx
      · exact holdkey (.inr hx) (by simpa using hmem x (.inr (List.mem_append.2 hx)))

/-- A new child to the right of an old one. -/
theorem insert {A' B' A B : List ι} {P p q : ι} {X Y : List ε} {e n : ε}
    (h : Linked key child entries parent (A' ++ P :: B') (A ++ p :: B)) (hP : entries P = X ++ e :: Y)
    (hA : A = (A'.flatMap entries ++ X).map child) (hB : B = (Y ++ B'.flatMap entries).map child)
    (he : child e = p) (hn : child n = q) (hP' : entries' P = X ++ e :: n :: Y)
    (hother : ∀ r ∈ A' ++ B', entries' r = entries r) (hqp : parent' q = P)
    (hf : ∀ c ∈ A ++ p :: B, firstKey key entries' c = firstKey key entries c)
    (hfq : firstKey key entries' q = some (key n)) (hp : ∀ c ∈ A ++ p :: B, parent' c = parent c) :
    Linked key child entries' parent' (A' ++ P :: B') (A ++ p :: q :: B) := by
  subst he hn
  have hold : ∀ c ∈ A ++ B, c ∈ A ++ child e :: B := by simp only [List.mem_append, List.mem_cons]; tauto
  suffices hh : Linked key child entries' parent' (A' ++ P :: B') (A ++ [e, n].map child ++ B) by simpa using hh
  refine replace (E := []) (e := e) (by simpa using h) (by simpa using hP) hA hB (by simpa using hP') hother
    (fun c hc => hf c (hold c hc)) (fun hne => ?_) (by simpa using hfq) (fun x hx => ?_) fun c hc => hp c (hold c hc)
  · rw [hf _ (by simp)]
    refine h.keys e ?_
    have hE : (A' ++ P :: B').flatMap entries = (A'.flatMap entries ++ X) ++ e :: (Y ++ B'.flatMap entries) := by
      simp [hP]
    rw [hE]
    cases hS : A'.flatMap entries ++ X with
    | nil => simp [hA, hS] at hne
    | cons a S => simp
  · rcases List.mem_cons.1 hx with rfl | hx
    · rw [hp _ (by simp), h.parent P (by simp) x (by simp [hP])]
    · rw [List.mem_singleton.1 hx, hqp]

end Linked

namespace Tower

/-- Nothing changes above a level when its nodes keep their parents and all but the leftmost their first keys. -/
theorem congr {low : List ι} {ups : List (List ι)} (h : Tower key child entries parent ok top low ups)
    (he : ∀ p ∈ ups.flatten, entries' p = entries p)
    (hf : ∀ c ∈ low.tail, firstKey key entries' c = firstKey key entries c)
    (hp : ∀ c ∈ low ++ ups.flatten, parent' c = parent c)
    (hok : ∀ b, ∀ p ∈ ups.flatten, ok b p → ok' b p) (htop : ∀ p ∈ low ++ ups.flatten, top p → top' p) :
    Tower key child entries' parent' ok' top' low ups := by
  induction ups generalizing low with
  | nil =>
    obtain ⟨r, rfl, hr⟩ := h
    exact ⟨r, rfl, htop r (by simp) hr⟩
  | cons up ups ih =>
    obtain ⟨hl, hk, ht⟩ := h
    refine ⟨?_, fun p hup => ?_, ?_⟩
    · exact hl.congr (fun p hup => he p (by simp [hup])) hf fun c hc => hp c (by simp [hc])
    · exact hok _ p (by simp [hup]) (hk p hup)
    · refine ih ht (fun p hpm => he p ?_) (fun c hc => firstKey_congr (he c ?_)) (fun c hc => hp c ?_)
        (fun b p hpm => hok b p ?_) fun p hpm => htop p ?_
      · exact List.mem_append_right _ hpm
      · exact List.mem_append_left _ (List.mem_of_mem_tail hc)
      · exact List.mem_append_right _ hc
      · exact List.mem_append_right _ hpm
      · exact List.mem_append_right _ hpm

end Tower

/-! ## Search -/

/-- The first keys of nodes are among all their keys. -/
theorem sublist_of_firstKeys : ∀ {es : List ε}, (∀ e ∈ es, firstKey key entries (child e) = some (key e)) →
    (es.map key).Sublist (((es.map child).flatMap entries).map key)
  | [], _ => List.Sublist.refl _
  | e :: es, h => by
    have he := h e (by simp)
    simp only [firstKey, Option.map_eq_some_iff, List.head?_eq_some_iff] at he
    obtain ⟨x, ⟨xs, hx⟩, hkey⟩ := he
    have ih := sublist_of_firstKeys fun e' he' => h e' (List.mem_cons_of_mem e he')
    simp only [List.map_cons, List.flatMap_cons, hx, List.cons_append, List.map_append, hkey]
    exact (ih.trans (List.sublist_append_right _ _)).cons_cons _

section search
variable [LinearOrder κ]

/-- The keys of a level ascend, its leftmost one apart. -/
def Ascending (key : ε → κ) (entries : ι → List ε) (level : List ι) : Prop :=
  ((level.flatMap entries).tail.map key).Pairwise (· < ·)

/-- The node of a level that a search for `k` takes: the last one whose first key is not above `k`, or the first. -/
def Route (key : ε → κ) (entries : ι → List ε) (k : κ) (level : List ι) (p : ι) : Prop :=
  ∃ A B, level = A ++ p :: B ∧ (A = [] ∨ ∃ x, firstKey key entries p = some x ∧ x ≤ k) ∧
    ∀ b ∈ B, ∃ x, firstKey key entries b = some x ∧ k < x

/-- A level above an ascending one ascends. -/
theorem Linked.ascending (h : Linked key child entries parent up low) (hs : Ascending key entries low)
    (hne : ∀ p ∈ low, entries p ≠ []) : Ascending key entries up := by
  have hsub := sublist_of_firstKeys h.keys
  rw [List.map_tail (f := child), h.children] at hsub
  refine List.Pairwise.sublist (hsub.trans ?_) hs
  cases low with
  | nil => simp
  | cons c low =>
    cases hc : entries c with
    | nil => exact absurd hc (hne c (by simp))
    | cons e es => simp [hc]

/-- The nodes to the right of the route hold larger keys only. -/
theorem Route.above {B : List ι} {k : κ} (hs : ((B.flatMap entries).map key).Pairwise (· < ·))
    (hB : ∀ b ∈ B, ∃ x, firstKey key entries b = some x ∧ k < x) {y : ε} (hy : y ∈ B.flatMap entries) : k < key y := by
  obtain ⟨b, hb, hyb⟩ := List.mem_flatMap.1 hy
  obtain ⟨x, hx, hkx⟩ := hB b hb
  have hsb : ((entries b).map key).Pairwise (· < ·) :=
    hs.sublist ((List.sublist_flatten_of_mem (List.mem_map_of_mem hb)).map key)
  simp only [firstKey, Option.map_eq_some_iff, List.head?_eq_some_iff] at hx
  obtain ⟨z, ⟨zs, hz⟩, rfl⟩ := hx
  rw [hz] at hsb hyb
  rcases List.mem_cons.1 hyb with rfl | hyz
  · exact hkx
  · exact lt_trans hkx ((List.pairwise_cons.1 hsb).1 _ (List.mem_map_of_mem hyz))

/-- The nodes to the left of the route hold smaller keys only. -/
theorem Route.below {A B : List ι} {p : ι} {k : κ} (hs : (((A ++ p :: B).flatMap entries).map key).Pairwise (· < ·))
    (hA : A = [] ∨ ∃ x, firstKey key entries p = some x ∧ x ≤ k) {y : ε} (hy : y ∈ A.flatMap entries) :
    key y < k := by
  rcases hA with rfl | ⟨x, hx, hxk⟩
  · simp at hy
  · simp only [firstKey, Option.map_eq_some_iff, List.head?_eq_some_iff] at hx
    obtain ⟨z, ⟨zs, hz⟩, rfl⟩ := hx
    rw [List.flatMap_append, List.map_append, List.pairwise_append] at hs
    exact lt_of_lt_of_le (hs.2.2 _ (List.mem_map_of_mem hy) _ (by simp [hz])) hxk

/-- One step of the search: the entry that the node on the route chooses leads to the route of the level below. -/
theorem Linked.route {p : ι} {k : κ} {X Y : List ε} {e : ε} (h : Linked key child entries parent up low)
    (hs : Ascending key entries up) (hr : Route key entries k up p) (hp : entries p = X ++ e :: Y)
    (hX : X = [] ∨ key e ≤ k) (hY : ∀ y ∈ Y, k < key y) : Route key entries k low (child e) := by
  obtain ⟨A, B, rfl, hA, hB⟩ := hr
  have hE : (A ++ p :: B).flatMap entries = (A.flatMap entries ++ X) ++ e :: (Y ++ B.flatMap entries) := by simp [hp]
  -- everything behind the entry is in the tail
  have htail : ∀ y ∈ Y ++ B.flatMap entries, y ∈ ((A ++ p :: B).flatMap entries).tail := by
    intro y hy
    rw [hE]
    cases A.flatMap entries ++ X with
    | nil => simpa using hy
    | cons a L => exact List.mem_append_right _ (List.mem_cons_of_mem e hy)
  have hsB : ((B.flatMap entries).map key).Pairwise (· < ·) := by
    refine List.Pairwise.sublist (List.Sublist.map key ?_) hs
    rw [hE]
    cases A.flatMap entries ++ X with
    | nil => simp
    | cons a L =>
      rw [List.cons_append, List.tail_cons]
      exact (((List.sublist_append_right Y _).cons e).trans (List.sublist_append_right L _))
  refine ⟨(A.flatMap entries ++ X).map child, (Y ++ B.flatMap entries).map child, ?_, ?_, ?_⟩
  · rw [← h.children, hE]
    simp
  · by_cases hnil : A.flatMap entries ++ X = []
    · exact .inl (by simp [hnil])
    · refine .inr ⟨key e, h.keys e ?_, ?_⟩
      · rw [hE]
        cases hL : A.flatMap entries ++ X with
        | nil => exact absurd hL hnil
        | cons a L => simp
      · rcases hX with rfl | hX
        · rcases hA with rfl | ⟨x, hx, hxk⟩
          · simp at hnil
          · have : firstKey key entries p = some (key e) := by simp [firstKey, hp]
            cases this.symm.trans hx
            exact hxk
        · exact hX
  · intro b hb
    obtain ⟨y, hy, rfl⟩ := List.mem_map.1 hb
    refine ⟨key y, h.keys y (htail y hy), ?_⟩
    rcases List.mem_append.1 hy with hy | hy
    · exact hY y hy
    · exact Route.above hsB hB hy

end search

end Rmdb.Lib
