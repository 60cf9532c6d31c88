import Rmdb.Index.Effects
import Rmdb.Lib.DoublyLinked
import Rmdb.Lib.Levels

/-!
# The tree in an index file

- `Above`: the levels above a given one, with what each inner node keeps (`InnerOk`) and what the header says of the
  root (`Root`);
- `Tree`: the invariant of an index. The leaves are in order and linked in both directions through the leaf header page,
  their keys ascend, all nodes are as full as they have to be, and the header names the ends and the number of pages.
-/

namespace Rmdb

open Lib

namespace IxFile

variable {κ : Type} (f : IxFile κ)

/-- What an inner node keeps; the root may be less full. -/
def InnerOk (isRoot : Bool) (p : Int) : Prop :=
  f.isLeaf p = false ∧ (f.pairs p).length ≤ f.fileHdr.btreeOrder ∧
    (if isRoot then 2 else f.minSize) ≤ (f.pairs p).length

def Root (p : Int) : Prop := f.fileHdr.rootPage = p ∧ f.parent p = ixNoPage

/-- The levels above `low`. -/
abbrev Above (low : List Int) (ups : List (List Int)) : Prop :=
  Tower Prod.fst IxNode.child f.pairs f.parent f.InnerOk f.Root low ups

/-- The first key of a node. -/
abbrev first (p : Int) : Option κ := firstKey Prod.fst f.pairs p

/-- A page of the tree: it exists, is no header page and is not allocated again. -/
def Live (p : Int) : Prop := f.Has p ∧ ixInitRootPage ≤ p ∧ p < f.nextPage

/-- What a leaf keeps; the only leaf may be less full. -/
def LeafOk (isRoot : Bool) (p : Int) : Prop :=
  f.isLeaf p = true ∧ (f.pairs p).length ≤ f.fileHdr.btreeOrder ∧ (isRoot = false → f.minSize ≤ (f.pairs p).length)

/-- The entries of the leaves in order. -/
def entries (leaves : List Int) : List (κ × Rid) := leaves.flatMap f.pairs

/-- The pages `leaves` and `ups` are the levels of a search tree. -/
structure Tree [LinearOrder κ] (leaves : List Int) (ups : List (List Int)) : Prop where
  order : 3 ≤ f.fileHdr.btreeOrder
  above : f.Above leaves ups
  nodup : (leaves ++ ups.flatten).Nodup
  live : ∀ p ∈ leaves ++ ups.flatten, f.Live p
  header : f.Has ixLeafHeaderPage
  leafOk : ∀ p ∈ leaves, f.LeafOk ups.isEmpty p
  chain : DoublyLinked f.nextLeaf f.prevLeaf (ixLeafHeaderPage :: leaves ++ [ixLeafHeaderPage])
  firstLeaf : leaves.head? = some f.fileHdr.firstLeaf
  lastLeaf : leaves.getLast? = some f.fileHdr.lastLeaf
  sorted : ((f.entries leaves).map Prod.fst).Pairwise (· < ·)
  numPages : f.fileHdr.numPages = 2 + ((leaves ++ ups.flatten).length : Int)

/-! ## What the levels give -/

section facts
variable {f} {low up : List Int} {ups : List (List Int)} {p : Int}

theorem InnerOk.ne_nil (hord : 3 ≤ f.fileHdr.btreeOrder) {b : Bool} (h : f.InnerOk b p) : f.pairs p ≠ [] := by
  have := h.2.2
  intro hnil
  rw [hnil, minSize, maxSize] at this
  split at this <;> simp at this
  omega

/-- A node of a level that is not the top one has a parent that is a page of the tree. -/
theorem Above.parent_mem (h : f.Above low (up :: ups)) (hp : p ∈ low) : f.parent p ∈ up := by
  obtain ⟨A, B, rfl⟩ := List.append_of_mem hp
  obtain ⟨A', P, B', -, -, -, rfl, -, -, -, -, hP⟩ := h.1.find
  simp [hP]

theorem Above.root_mem (h : f.Above low ups) : f.fileHdr.rootPage ∈ low ++ ups.flatten := by
  induction ups generalizing low with
  | nil =>
    obtain ⟨r, rfl, hr⟩ := h
    simp [hr.1]
  | cons up ups ih => exact List.mem_append_right _ (ih h.2.2)

/-- The top level has a single node. -/
theorem Above.eq_of_nil {a b : Int} (h : f.Above low []) (ha : a ∈ low) (hb : b ∈ low) : a = b := by
  obtain ⟨r, rfl, -⟩ := h
  exact (List.mem_singleton.1 ha).trans (List.mem_singleton.1 hb).symm

/-- A level of two nodes is not the top. -/
theorem Above.ne_nil {a b : Int} {A B : List Int} (h : f.Above (A ++ a :: b :: B) ups) : ups ≠ [] := by
  rintro rfl
  obtain ⟨r, hr, -⟩ := h
  have := congrArg List.length hr
  simp at this
  omega

end facts

end IxFile

/-! ## Search -/

namespace IxIndexHandle

variable {κ : Type} [LinearOrder κ] {f : IxFile κ} {leaves low : List Int} {ups : List (List Int)} {k : κ}

/-- From the root the search comes to the route of any level. -/
theorem leadsTo_descend (hord : 3 ≤ f.fileHdr.btreeOrder) (h : f.Above low ups)
    (hhas : ∀ p ∈ low ++ ups.flatten, f.Has p)
    (hlow : ups ≠ [] → Ascending Prod.fst f.pairs low ∧ ∀ p ∈ low, f.pairs p ≠ []) :
    ∃ p, Route Prod.fst f.pairs k low p ∧ ∀ fuel a f', LeadsTo (descend k fuel p) f a f' →
      LeadsTo (descend k (fuel + ups.length) f.fileHdr.rootPage) f a f' := by
  induction ups generalizing low with
  | nil =>
    obtain ⟨r, rfl, hr⟩ := h
    refine ⟨r, ⟨[], [], rfl, .inl rfl, by simp⟩, fun fuel a f' hd => ?_⟩
    rw [hr.1]
    exact hd
  | cons up ups ih =>
    obtain ⟨hasc, hne⟩ := hlow (by simp)
    have hupne : ∀ p ∈ up, f.pairs p ≠ [] := fun p hp => (h.2.1 p hp).ne_nil hord
    have hupasc := h.1.ascending hasc hne
    obtain ⟨P, hP, hd⟩ := ih h.2.2 (fun p hp => hhas p (List.mem_append_right _ hp)) fun _ => ⟨hupasc, hupne⟩
    have hPup : P ∈ up := by
      obtain ⟨A, B, rfl, -⟩ := hP
      simp
    have hs : (f.node P).Sorted := by
      obtain ⟨A, B, rfl, -⟩ := hP
      refine List.Pairwise.sublist (List.Sublist.map _ ?_) hupasc
      rw [List.flatMap_append, List.flatMap_cons]
      cases hA : A.flatMap f.pairs with
      | nil => exact (List.sublist_append_left _ _).tail
      | cons a L =>
        exact ((List.tail_sublist _).trans (List.sublist_append_left _ _)).trans (List.sublist_append_right L _)
    obtain ⟨X, e, Y, hp, hX, hY, hlook⟩ := IxNode.exists_internalLookup hs (hupne P hPup) k
    have hr := h.1.route hupasc hP hp hX hY
    refine ⟨IxNode.child e, hr, fun fuel a f' hc => ?_⟩
    rw [List.length_cons, ← Nat.add_assoc, Nat.add_right_comm]
    refine hd (fuel + 1) a f' (Act.Leads.bind leadsTo_getNode ?_)
    rw [if_neg (by simp [(h.2.1 P hPup).1]), hlook]
    have hchild : f.Has (IxNode.child e) := by
      obtain ⟨A, B, rfl, -⟩ := hr
      exact hhas _ (by simp)
    exact leadsTo_unpinPage (Act.Leads.bind (leadsTo_fetchNode hchild) hc)

end IxIndexHandle

namespace IxFile.Tree

open IxIndexHandle

variable {κ : Type} [LinearOrder κ] {f : IxFile κ} {leaves : List Int} {ups : List (List Int)} {k : κ} {fuel : Nat}

theorem two_le_minSize (h : f.Tree leaves ups) : 2 ≤ f.minSize := by
  have := h.order
  simp only [minSize, maxSize]
  omega

theorem leaf_ne_nil (h : f.Tree leaves ups) (hne : ups ≠ []) {p : Int} (hp : p ∈ leaves) : f.pairs p ≠ [] := by
  have hle := (h.leafOk p hp).2.2 (by simpa using hne)
  have := h.two_le_minSize
  exact List.ne_nil_of_length_pos (by omega)

theorem ascending (h : f.Tree leaves ups) : Ascending Prod.fst f.pairs leaves :=
  List.Pairwise.sublist ((List.tail_sublist _).map _) h.sorted

/-- `find_leaf_page` returns the leaf on the route of the key. -/
theorem leadsTo_findLeafPage (h : f.Tree leaves ups) (hfuel : ups.length < fuel) :
    ∃ p, Route Prod.fst f.pairs k leaves p ∧ LeadsTo (findLeafPage fuel k) f p f := by
  obtain ⟨p, hr, hd⟩ := leadsTo_descend (k := k) h.order h.above (fun p hp => (h.live p hp).1)
    fun hne => ⟨h.ascending, fun p hp => h.leaf_ne_nil hne hp⟩
  have hp : p ∈ leaves := by
    obtain ⟨A, B, rfl, -⟩ := hr
    simp
  refine ⟨p, hr, Act.Leads.get_bind fun s hs => ?_⟩
  rw [hs.1]
  refine Act.Leads.bind (leadsTo_fetchNode (h.live _ h.above.root_mem).1) ?_
  obtain ⟨n, rfl⟩ : ∃ n, fuel = n + 1 + ups.length := ⟨fuel - ups.length - 1, by omega⟩
  refine hd _ _ _ (Act.Leads.bind leadsTo_getNode ?_)
  rw [if_pos (by simp [(h.leafOk p hp).1])]
  exact Act.Leads.pure

/-- The entries are those of the leaf on the route, between smaller and larger ones. -/
theorem entries_route {p : Int} (h : f.Tree leaves ups) (hr : Route Prod.fst f.pairs k leaves p) :
    ∃ A B, leaves = A ++ p :: B ∧ f.entries leaves = f.entries A ++ f.pairs p ++ f.entries B ∧
      (∀ e ∈ f.entries A, e.1 < k) ∧ (∀ e ∈ f.entries B, k < e.1) ∧
      (A = [] ∨ ∃ x, f.first p = some x ∧ x ≤ k) := by
  obtain ⟨A, B, rfl, hA, hB⟩ := hr
  have hs := h.sorted
  have hE : f.entries (A ++ p :: B) = f.entries A ++ f.pairs p ++ f.entries B := by simp [entries]
  refine ⟨A, B, rfl, hE, fun e he => Route.below hs hA he, fun e he => Route.above ?_ hB he, hA⟩
  rw [hE, List.map_append] at hs
  exact (List.pairwise_append.1 hs).2.1

end IxFile.Tree

end Rmdb
