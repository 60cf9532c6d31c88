import Rmdb.Index.MaintainParent

/-!
# Deletion of an entry

- `unlink`: what `erase_leaf` writes;
- `Ground`: what a tree keeps apart from the levels above the leaves. A leaf that lost an entry is filled up or taken
  up by a neighbour (`Ground.coalesce`);
- `Tree.deleteEntry`: `delete_entry` takes the entry of the key out, and changes nothing when there is none.
-/

namespace Rmdb

open Lib

/-! ## Leaves that are taken up -/

namespace IxFile

variable {κ : Type} (f : IxFile κ)

/-- The neighbours of the leaf `p` linked with each other. -/
def unlink (p : Int) : IxFile κ := (f.withNext (f.prevLeaf p) (f.nextLeaf p)).withPrev (f.nextLeaf p) (f.prevLeaf p)

/-- A leaf that takes up its sibling `p`, their parent, and the header. -/
def absorbLeaf (q p P : Int) (M E : List (κ × Rid)) (hdr : IxFileHdr) : IxFile κ :=
  ((((f.setPairs q M).unlink p).setHdr hdr).setPairs P E).release

section absorbLeaf
variable {f} {q p P : Int} {M E : List (κ × Rid)} {hdr : IxFileHdr}

@[simp] theorem pairs_unlink : (f.unlink p).pairs = f.pairs := by simp [unlink]
@[simp] theorem parent_unlink : (f.unlink p).parent = f.parent := by simp [unlink]
@[simp] theorem isLeaf_unlink : (f.unlink p).isLeaf = f.isLeaf := by simp [unlink]
@[simp] theorem fileHdr_unlink : (f.unlink p).fileHdr = f.fileHdr := rfl
@[simp] theorem nextPage_unlink : (f.unlink p).nextPage = f.nextPage := rfl

theorem has_unlink {r : Int} (h : f.Has r) : (f.unlink p).Has r := by simp [unlink, has_setNode, h]

theorem nextLeaf_unlink : (f.unlink p).nextLeaf = Function.update f.nextLeaf (f.prevLeaf p) (f.nextLeaf p) := by
  simp [unlink]

theorem prevLeaf_unlink : (f.unlink p).prevLeaf = Function.update f.prevLeaf (f.nextLeaf p) (f.prevLeaf p) := by
  simp [unlink]

theorem pairs_absorbLeaf : (f.absorbLeaf q p P M E hdr).pairs = Function.update (Function.update f.pairs q M) P E := by
  simp [absorbLeaf, release]

theorem nextLeaf_absorbLeaf : (f.absorbLeaf q p P M E hdr).nextLeaf =
    Function.update f.nextLeaf (f.prevLeaf p) (f.nextLeaf p) := by
  simp [absorbLeaf, release, nextLeaf_unlink]

theorem prevLeaf_absorbLeaf : (f.absorbLeaf q p P M E hdr).prevLeaf =
    Function.update f.prevLeaf (f.nextLeaf p) (f.prevLeaf p) := by
  simp [absorbLeaf, release, prevLeaf_unlink]

@[simp] theorem fileHdr_absorbLeaf : (f.absorbLeaf q p P M E hdr).fileHdr = { hdr with numPages := hdr.numPages - 1 } :=
  rfl

@[simp] theorem isLeaf_absorbLeaf : (f.absorbLeaf q p P M E hdr).isLeaf = f.isLeaf := by simp [absorbLeaf, release]

theorem has_absorbLeaf {r : Int} (h : f.Has r) : (f.absorbLeaf q p P M E hdr).Has r := by
  have : (f.setPairs q M).Has r := (f.has_setNode _ _).2 (.inr h)
  simp [absorbLeaf, release, has_setHdr, has_setNode, has_unlink this]

theorem edited_absorbLeaf (hord : hdr.btreeOrder = f.fileHdr.btreeOrder) (hroot : hdr.rootPage = f.fileHdr.rootPage) :
    f.Edited (f.absorbLeaf q p P M E hdr) q [] where
  parent r := by simp [absorbLeaf, release]
  isLeaf := isLeaf_absorbLeaf
  has _ hr := has_absorbLeaf hr
  nextPage := rfl
  order := hord
  rootPage := hroot

end absorbLeaf

end IxFile

namespace IxIndexHandle

variable {κ : Type} {f : IxFile κ} {p n P : Int} {m e e' : κ × Rid} {X Y M : List (κ × Rid)}

theorem leadsTo_eraseLeaf (hleaf : f.isLeaf p = true) (hprev : f.Has (f.prevLeaf p)) (hnext : f.Has (f.nextLeaf p))
    (hne : f.prevLeaf p ≠ p) : LeadsTo (eraseLeaf p) f () (f.unlink p) := by
  refine Act.Leads.bind leadsTo_getNode ?_
  rw [if_pos (by simpa using hleaf)]
  refine Act.Leads.bind (leadsTo_fetchNode hprev) (Act.Leads.bind leadsTo_modifyNode (leadsTo_unpinPage
    (Act.Leads.bind leadsTo_getNode ?_)))
  have hne' : p ≠ (f.node p).prevLeaf := hne.symm
  rw [IxFile.node_setNode_of_ne _ _ _ hne']
  refine Act.Leads.bind (leadsTo_fetchNode ?_) (Act.Leads.bind leadsTo_modifyNode (leadsTo_unpinPage Act.Leads.pure))
  exact (f.has_setNode _ _).2 (.inr hnext)

section mergeInto
variable (hleaf : f.isLeaf n = true) (hpleaf : f.isLeaf p = true) (hPn : P ≠ n) (hlen : M.length ≤ f.maxSize)
  (hprev : f.Has (f.prevLeaf p)) (hnext : f.Has (f.nextLeaf p)) (hne : f.prevLeaf p ≠ p)
include hleaf hpleaf hPn hlen hprev hnext hne

omit hleaf hPn in
/-- The neighbour has the pairs, and the chain of the leaves goes past the leaf. -/
theorem leadsTo_takeLeaf {X Y : List (κ × Rid)} {i : Nat} {g : IxFileHdr → IxFileHdr} {x : IxM κ Unit} {f' : IxFile κ}
    (hn : f.pairs n = X ++ Y) (hi : i = X.length) (hM : X ++ f.pairs p ++ Y = M)
    (hx : LeadsTo x (((f.setPairs n M).unlink p).setHdr (g f.fileHdr)) () f') : LeadsTo (do
      insertPairs n i (f.pairs p)
      (do
        eraseLeaf p
        modifyHdr g)
      x) f () f' := by
  refine Act.Leads.bind (leadsTo_putPairs hn hi hM hlen) (Act.Leads.bind (Act.Leads.bind (leadsTo_eraseLeaf ?_ ?_ ?_ ?_)
    leadsTo_modifyHdr) hx)
  · simpa using hpleaf
  · simp [IxFile.has_setNode, hprev]
  · simp [IxFile.has_setNode, hnext]
  · simpa using hne

/-- A leaf goes to the front of its right neighbour. -/
theorem leadsTo_mergeLeaf_right (hM : f.pairs p ++ f.pairs n = M) (hm : M.head? = some m)
    (hP : f.pairs P = e :: e' :: Y) : LeadsTo (mergeInto n p P 0) f () (f.absorbLeaf n p P M ((m.1, e'.2) :: Y)
      (if f.fileHdr.firstLeaf = p then { f.fileHdr with firstLeaf := n } else f.fileHdr)) := by
  have hfirst : M[0]? = some m := by rw [← List.head?_eq_getElem?, hm]
  refine Act.Leads.bind leadsTo_getNode (Act.Leads.bind leadsTo_getNode ?_)
  rw [if_pos rfl, if_pos (by simpa using hleaf)]
  refine leadsTo_takeLeaf hpleaf hlen hprev hnext hne (X := []) rfl rfl hM ?_
  refine Act.Leads.bind (leadsTo_dropPair (X := []) (e := e) (Y := e' :: Y) (by simp [hPn, hP]) rfl) ?_
  refine Act.Leads.bind (leadsTo_pairAt (e := m) (by simpa [hPn.symm] using hfirst)) ?_
  refine Act.Leads.bind (leadsTo_putKey (X := []) (e := e') (Y := Y) (by simp) rfl) ?_
  convert leadsTo_releaseNodeHandle using 1
  simp [IxFile.absorbLeaf, IxFile.setPairs, IxFile.setNode_setNode]

/-- A leaf goes to the end of its left neighbour. -/
theorem leadsTo_mergeLeaf_left (hM : f.pairs n ++ f.pairs p = M) (hP : f.pairs P = X ++ e :: e' :: Y) :
    LeadsTo (mergeInto n p P (X.length + 1)) f () (f.absorbLeaf n p P M (X ++ e :: Y)
      (if f.fileHdr.lastLeaf = p then { f.fileHdr with lastLeaf := n } else f.fileHdr)) := by
  refine Act.Leads.bind leadsTo_getNode (Act.Leads.bind leadsTo_getNode ?_)
  rw [if_neg (Nat.succ_ne_zero _), if_pos (by simpa using hleaf)]
  refine leadsTo_takeLeaf hpleaf hlen hprev hnext hne (X := f.pairs n) (Y := []) (by simp) rfl
    (by simpa using hM) ?_
  refine Act.Leads.bind (leadsTo_dropPair (i := X.length + 1) (X := X ++ [e]) (e := e') (Y := Y) (by simp [hPn, hP])
    (by simp)) ?_
  convert leadsTo_releaseNodeHandle using 1
  simp [IxFile.absorbLeaf]

end mergeInto

end IxIndexHandle

/-! ## Leaves under the levels -/

namespace IxFile

variable {κ : Type} [LinearOrder κ]

/-- What a tree keeps apart from the levels above the leaves and the fill of the leaves. -/
structure Ground (f : IxFile κ) (leaves : List Int) (ups : List (List Int)) : Prop where
  order : 3 ≤ f.fileHdr.btreeOrder
  nodup : (leaves ++ ups.flatten).Nodup
  live : ∀ p ∈ leaves ++ ups.flatten, f.Live p
  header : f.Has ixLeafHeaderPage
  leaf : ∀ p ∈ leaves, f.isLeaf p = true ∧ (f.pairs p).length ≤ f.fileHdr.btreeOrder
  chain : DoublyLinked f.nextLeaf f.prevLeaf (ixLeafHeaderPage :: leaves ++ [ixLeafHeaderPage])
  firstLeaf : leaves.head? = some f.fileHdr.firstLeaf
  lastLeaf : leaves.getLast? = some f.fileHdr.lastLeaf
  sorted : ((f.entries leaves).map Prod.fst).Pairwise (· < ·)
  numPages : f.fileHdr.numPages = 2 + ((leaves ++ ups.flatten).length : Int)

variable {f f' : IxFile κ} {leaves A B : List Int} {ups ups' : List (List Int)} {p : Int} {l : List (κ × Rid)}

theorem Tree.ground (h : f.Tree leaves ups) : f.Ground leaves ups where
  order := h.order
  nodup := h.nodup
  live := h.live
  header := h.header
  leaf p hp := ⟨(h.leafOk p hp).1, (h.leafOk p hp).2.1⟩
  chain := h.chain
  firstLeaf := h.firstLeaf
  lastLeaf := h.lastLeaf
  sorted := h.sorted
  numPages := h.numPages

theorem Ground.tree (h : f.Ground leaves ups) (ha : f.Above leaves ups)
    (hmin : ups ≠ [] → ∀ p ∈ leaves, f.minSize ≤ (f.pairs p).length) : f.Tree leaves ups where
  order := h.order
  above := ha
  nodup := h.nodup
  live := h.live
  header := h.header
  leafOk p hp := ⟨(h.leaf p hp).1, (h.leaf p hp).2, fun hne => hmin (by simpa using hne) p hp⟩
  chain := h.chain
  firstLeaf := h.firstLeaf
  lastLeaf := h.lastLeaf
  sorted := h.sorted
  numPages := h.numPages

/-- The leaf header is none of the nodes. -/
theorem Ground.header_notMem (h : f.Ground leaves ups) : ixLeafHeaderPage ∉ leaves ++ ups.flatten := fun hm => by
  have := (h.live _ hm).2.1
  simp [ixInitRootPage, ixLeafHeaderPage] at this

/-- Nothing of it is in the levels above. -/
theorem Ground.shrunk (h : f.Ground leaves ups) (hs : f.Shrunk f' leaves ups ups') :
    f'.Ground leaves ups' ∧ f'.entries leaves = f.entries leaves := by
  have hsame : ∀ r, r ∈ leaves ∨ r = ixLeafHeaderPage → f.SameNode f' r := by
    rintro r hr
    refine hs.same r fun hu => ?_
    rcases hr with hr | rfl
    · exact (List.nodup_append.1 h.nodup).2.2 r hr r hu rfl
    · exact h.header_notMem (List.mem_append_right _ hu)
  have hE : f'.entries leaves = f.entries leaves := List.flatMap_congr fun r hr => (hsame r (.inl hr)).pairs
  have hring : ∀ r ∈ ixLeafHeaderPage :: leaves, f.SameNode f' r := fun r hr => hsame r (by simpa [or_comm] using hr)
  refine ⟨⟨by rw [hs.order]; exact h.order, h.nodup.sublist (hs.sublist.append_left _), fun r hr => ?_,
    hs.has _ h.header, fun r hr => ?_, h.chain.congr (fun r hr => ?_) fun r hr => ?_, by rw [hs.firstLeaf, h.firstLeaf],
    by rw [hs.lastLeaf, h.lastLeaf], by rw [hE]; exact h.sorted, ?_⟩, hE⟩
  · obtain ⟨h1, h2, h3⟩ := h.live r ((hs.sublist.append_left _).subset hr)
    exact ⟨hs.has r h1, h2, by rw [hs.nextPage]; exact h3⟩
  · rw [(hsame r (.inl hr)).isLeaf, (hsame r (.inl hr)).pairs, hs.order]
    exact h.leaf r hr
  · rw [List.dropLast_concat] at hr
    exact (hring r hr).nextLeaf
  · refine (hring r ?_).prevLeaf
    rw [List.cons_append, List.tail_cons] at hr
    simpa [or_comm] using hr
  · have h1 := hs.numPages
    have h2 := h.numPages
    simp only [List.length_append, Int.natCast_add] at h2 ⊢
    omega

/-- A leaf with other pairs. -/
theorem Ground.setPairs (h : f.Ground (A ++ p :: B) ups) (hle : l.length ≤ f.fileHdr.btreeOrder)
    (hs : ((f.entries A ++ l ++ f.entries B).map Prod.fst).Pairwise (· < ·)) :
    (f.setPairs p l).Ground (A ++ p :: B) ups ∧
      (f.setPairs p l).entries (A ++ p :: B) = f.entries A ++ l ++ f.entries B := by
  have hpairs : (f.setPairs p l).pairs = Function.update f.pairs p l := by simp
  have hnd := (List.nodup_append.1 h.nodup).1
  have hE : (f.setPairs p l).entries (A ++ p :: B) = f.entries A ++ l ++ f.entries B := by
    have hA : A.flatMap (Function.update f.pairs p l) = A.flatMap f.pairs :=
      List.flatMap_congr fun r hr => Function.update_of_ne (by grind [List.nodup_append]) _ _
    have hB : B.flatMap (Function.update f.pairs p l) = B.flatMap f.pairs :=
      List.flatMap_congr fun r hr => Function.update_of_ne (by grind [List.nodup_append, List.nodup_cons]) _ _
    simp [entries, hA, hB]
  refine ⟨⟨h.order, h.nodup, fun r hr => ?_, ?_, fun r hr => ?_, by simpa using h.chain, h.firstLeaf, h.lastLeaf,
    by rw [hE]; exact hs, h.numPages⟩, hE⟩
  · exact ⟨(f.has_setNode _ _).2 (.inr (h.live r hr).1), (h.live r hr).2⟩
  · exact (f.has_setNode _ _).2 (.inr h.header)
  · have hok := h.leaf r hr
    by_cases hrp : r = p
    · subst hrp
      exact ⟨by simpa using hok.1, by simpa using hle⟩
    · simpa [hrp] using hok

/-- The chain of the leaves can go past a leaf. -/
theorem Ground.past (h : f.Ground (A ++ p :: B) ups) :
    f.Has (f.prevLeaf p) ∧ f.Has (f.nextLeaf p) ∧ f.prevLeaf p ≠ p ∧
      DoublyLinked (Function.update f.nextLeaf (f.prevLeaf p) (f.nextLeaf p))
        (Function.update f.prevLeaf (f.nextLeaf p) (f.prevLeaf p)) (ixLeafHeaderPage :: (A ++ B) ++ [ixLeafHeaderPage]) := by
  have hhead : ixLeafHeaderPage ∉ A ++ p :: B := fun hm => h.header_notMem (List.mem_append_left _ hm)
  have hnd := (List.nodup_append.1 h.nodup).1
  have hring : ∀ r, r = ixLeafHeaderPage ∨ r ∈ A ++ p :: B → f.Has r := by
    rintro r (rfl | hr)
    · exact h.header
    · exact (h.live r (List.mem_append_left _ hr)).1
  obtain ⟨L, a, hL⟩ : ∃ L a, ixLeafHeaderPage :: A = L ++ [a] :=
    ⟨_, _, (List.dropLast_append_getLast (List.cons_ne_nil _ _)).symm⟩
  obtain ⟨b, R, hR⟩ := List.exists_cons_of_ne_nil (l := B ++ [ixLeafHeaderPage]) (by simp)
  have ha : a = ixLeafHeaderPage ∨ a ∈ A := by simpa using (hL ▸ by simp : a ∈ ixLeafHeaderPage :: A)
  have hb : b ∈ B ∨ b = ixLeafHeaderPage := by simpa using (hR ▸ by simp : b ∈ B ++ [ixLeafHeaderPage])
  have hndL : (L ++ [a]).Nodup := hL ▸ by grind [List.nodup_append, List.nodup_cons]
  have hndR : (b :: R).Nodup := hR ▸ by grind [List.nodup_append, List.nodup_cons]
  have hc := h.chain
  have hcat : ixLeafHeaderPage :: (A ++ p :: B) ++ [ixLeafHeaderPage] = L ++ a :: p :: b :: R := by
    rw [← hR, ← List.cons_append, hL]
    simp
  rw [hcat] at hc
  obtain ⟨-, ⟨-, hprev⟩, hc'⟩ := DoublyLinked.append_cons_cons.1 hc
  obtain ⟨hnext, -⟩ := (List.isChain_cons_cons.1 hc').1
  have hcat' : ixLeafHeaderPage :: (A ++ B) ++ [ixLeafHeaderPage] = L ++ a :: b :: R := by
    rw [← hR, ← List.cons_append, hL]
    simp
  have htail : (L ++ [a]).tail = A := by rw [← hL, List.tail_cons]
  have hlast : (b :: R).dropLast = B := by rw [← hR, List.dropLast_concat]
  rw [hprev, hnext, hcat']
  refine ⟨hring a (by grind), hring b (by grind), by grind [List.nodup_append, List.nodup_cons],
    hc.erase (fun c hc => ?_) (fun c hc => ?_) (Function.update_self ..) (Function.update_self ..) (fun c hc => ?_)
      fun c hc => ?_⟩
  · exact Function.update_of_ne (by grind [List.nodup_append]) _ _
  · rw [htail] at hc
    exact Function.update_of_ne (by grind [List.nodup_append, List.nodup_cons]) _ _
  · rw [hlast] at hc
    exact Function.update_of_ne (by grind [List.nodup_append, List.nodup_cons]) _ _
  · exact Function.update_of_ne (by grind [List.nodup_cons]) _ _

/-! ## Leaves that are siblings -/

section siblings
variable {A' B' : List Int} {r P q : Int} {l : Int} {X Y L R F M : List (κ × Rid)} {e e' : κ × Rid} {k : κ}
  {hdr : IxFileHdr} (h : f.Ground (A ++ l :: r :: B) ((A' ++ P :: B') :: ups))
include h

/-- Two leaves share their entries anew. -/
theorem Ground.deal (hLR : L ++ R = f.pairs l ++ f.pairs r) (hL : L.length ≤ f.fileHdr.btreeOrder)
    (hR : R.length ≤ f.fileHdr.btreeOrder) :
    (f.deal l r P q L R F []).Ground (A ++ l :: r :: B) ((A' ++ P :: B') :: ups) ∧
      (f.deal l r P q L R F []).entries (A ++ l :: r :: B) = f.entries (A ++ l :: r :: B) := by
  have hn : ([] ++ ((A ++ l :: r :: B) ++ ((A' ++ P :: B') ++ ups.flatten))).Nodup := by
    simpa [List.flatten_cons] using h.nodup
  obtain ⟨hlr, hPl, hPr, -⟩ := distinct_siblings hn
  have hh : f.Holds (f.deal l r P q L R F []) l r P L R F := holds_deal hlr hPl hPr
  have hed : f.Edited (f.deal l r P q L R F []) q [] := edited_deal
  have hA : A.flatMap (f.deal l r P q L R F []).pairs = A.flatMap f.pairs :=
    List.flatMap_congr fun c hc => hh.same hn (by simp [hc])
  have hB : B.flatMap (f.deal l r P q L R F []).pairs = B.flatMap f.pairs :=
    List.flatMap_congr fun c hc => hh.same hn (by simp [hc])
  have hE : (f.deal l r P q L R F []).entries (A ++ l :: r :: B) = f.entries (A ++ l :: r :: B) := by
    simp only [entries, List.flatMap_append, List.flatMap_cons, hA, hB, hh.left, hh.right]
    rw [← List.append_assoc L, hLR, List.append_assoc]
  refine ⟨⟨h.order, h.nodup, fun c hc => ?_, hed.has _ h.header, fun c hc => ?_, ?_, h.firstLeaf, h.lastLeaf,
    by rw [hE]; exact h.sorted, h.numPages⟩, hE⟩
  · obtain ⟨h1, h2, h3⟩ := h.live c hc
    exact ⟨hed.has c h1, h2, by rw [hed.nextPage]; exact h3⟩
  · obtain ⟨h1, h2⟩ := h.leaf c hc
    rw [hed.isLeaf, hed.order]
    by_cases hcl : c = l
    · subst hcl
      rw [hh.left]
      exact ⟨h1, hL⟩
    · by_cases hcr : c = r
      · subst hcr
        rw [hh.right]
        exact ⟨h1, hR⟩
      · rw [hh.same hn (by simp only [List.mem_append, List.mem_cons] at hc ⊢; tauto)]
        exact ⟨h1, h2⟩
  · have hchain := h.chain
    simpa [IxFile.deal] using hchain

/-- A leaf takes up its sibling. -/
theorem Ground.absorbLeaf (hq : q = l ∧ p = r ∨ q = r ∧ p = l) (hM : f.pairs l ++ f.pairs r = M)
    (hlen : M.length ≤ f.fileHdr.btreeOrder) (hord : hdr.btreeOrder = f.fileHdr.btreeOrder)
    (hnum : hdr.numPages = f.fileHdr.numPages) (hfirst : (A ++ q :: B).head? = some hdr.firstLeaf)
    (hlast : (A ++ q :: B).getLast? = some hdr.lastLeaf) :
    (f.absorbLeaf q p P M F hdr).Ground (A ++ q :: B) ((A' ++ P :: B') :: ups) ∧
      (f.absorbLeaf q p P M F hdr).entries (A ++ q :: B) = f.entries (A ++ l :: r :: B) := by
  have hn : ([] ++ ((A ++ l :: r :: B) ++ ((A' ++ P :: B') ++ ups.flatten))).Nodup := by
    simpa [List.flatten_cons] using h.nodup
  obtain ⟨hlr, hPl, hPr, hdis⟩ := distinct_siblings hn
  have hqr : q = l ∨ q = r := hq.imp And.left And.left
  have hPq : P ≠ q := by rcases hqr with rfl | rfl <;> assumption
  have hsub : (A ++ q :: B).Sublist (A ++ l :: r :: B) := by
    refine List.Sublist.append_left ?_ A
    rcases hqr with rfl | rfl
    · exact (List.sublist_cons_self r B).cons_cons q
    · exact List.sublist_cons_self l (q :: B)
  have hpairs : (f.absorbLeaf q p P M F hdr).pairs = Function.update (Function.update f.pairs q M) P F :=
    f.pairs_absorbLeaf
  have hother : ∀ c, c ≠ P → c ≠ q → (f.absorbLeaf q p P M F hdr).pairs c = f.pairs c := fun c h1 h2 => by
    rw [hpairs, Function.update_of_ne h1, Function.update_of_ne h2]
  have hqM : (f.absorbLeaf q p P M F hdr).pairs q = M := by
    rw [hpairs, Function.update_of_ne hPq.symm, Function.update_self]
  have hsame : ∀ c ∈ A ++ B, (f.absorbLeaf q p P M F hdr).pairs c = f.pairs c := fun c hc => by
    obtain ⟨h1, h2, h3⟩ := hdis c (by simp only [List.mem_append] at hc ⊢; tauto)
    exact hother c h1 (by rcases hqr with rfl | rfl <;> assumption)
  have hA : A.flatMap (f.absorbLeaf q p P M F hdr).pairs = A.flatMap f.pairs :=
    List.flatMap_congr fun c hc => hsame c (by simp [hc])
  have hB : B.flatMap (f.absorbLeaf q p P M F hdr).pairs = B.flatMap f.pairs :=
    List.flatMap_congr fun c hc => hsame c (by simp [hc])
  have hE : (f.absorbLeaf q p P M F hdr).entries (A ++ q :: B) = f.entries (A ++ l :: r :: B) := by
    simp only [entries, List.flatMap_append, List.flatMap_cons, hA, hB, hqM]
    rw [← hM, List.append_assoc]
  refine ⟨⟨hord ▸ h.order, h.nodup.sublist (hsub.append_right _), fun c hc => ?_, ?_, fun c hc => ?_, ?_, hfirst, hlast,
    by rw [hE]; exact h.sorted, ?_⟩, hE⟩
  · obtain ⟨h1, h2, h3⟩ := h.live c ((hsub.append_right _).subset hc)
    exact ⟨has_absorbLeaf h1, h2, h3⟩
  · exact has_absorbLeaf h.header
  · obtain ⟨h1, h2⟩ := h.leaf c (hsub.subset hc)
    rw [isLeaf_absorbLeaf]
    refine ⟨h1, ?_⟩
    by_cases hcq : c = q
    · subst hcq
      rw [hqM, fileHdr_absorbLeaf]
      exact hord ▸ hlen
    · rw [hsame c (by simp only [List.mem_append, List.mem_cons] at hc ⊢; tauto), fileHdr_absorbLeaf]
      exact hord ▸ h2
  · rw [nextLeaf_absorbLeaf, prevLeaf_absorbLeaf]
    rcases hq with ⟨rfl, rfl⟩ | ⟨rfl, rfl⟩
    · have hg := h
      rw [show A ++ q :: p :: B = (A ++ [q]) ++ p :: B by simp] at hg
      simpa using hg.past.2.2.2
    · exact h.past.2.2.2
  · have h1 := h.numPages
    rw [fileHdr_absorbLeaf, hnum, h1]
    simp only [List.length_append, List.length_cons, Int.natCast_add]
    omega

end siblings

end IxFile

/-! ## A leaf that lost an entry -/

namespace IxFile

variable {κ : Type} (f : IxFile κ) (p : Int)

/-- The position of a node in its parent. -/
def rank : Option Nat := (f.node (f.parent p)).findChild p

/-- The key of a node in its parent. -/
def keyAbove : Option κ := (f.rank p).bind fun i => (f.pairs (f.parent p))[i]?.map Prod.fst

/-- The neighbour with which `coalesce_or_redistribute` evens out a node: the one before it, or else the one behind. -/
def sibling : Option Int :=
  (f.rank p).bind fun i => (f.pairs (f.parent p))[if i = 0 then 1 else i - 1]?.map IxNode.child

/-- The node is not merged: it is full enough, or with its neighbour. -/
def KeepsNode : Prop :=
  f.parent p = ixNoPage ∨ f.minSize ≤ (f.pairs p).length ∨
    ∃ n, f.sibling p = some n ∧ f.minSize * 2 ≤ (f.pairs p).length + (f.pairs n).length

end IxFile

namespace IxIndexHandle

variable {κ : Type} [LinearOrder κ] {f : IxFile κ} {A B A' B' : List Int} {ups : List (List Int)} {p l r q P : Int}
  {X Y L R M F : List (κ × Rid)} {e e' : κ × Rid} {k : κ} {fuel : Nat} {hdr : IxFileHdr}

/-- `coalesce_or_redistribute` returns `b`, and a tree with the same entries is there. -/
def Settles (fuel : Nat) (f : IxFile κ) (p : Int) (leaves : List Int) (b : Bool) : Prop :=
  ∃ f' leaves' ups', LeadsTo (coalesceOrRedistribute fuel p) f b f' ∧ f'.Tree leaves' ups' ∧
    f'.entries leaves' = f.entries leaves

/-- Two leaves that are siblings, with the levels above. -/
structure LeafSpot (f : IxFile κ) (A B A' B' : List Int) (ups : List (List Int)) (l r P : Int) (X Y : List (κ × Rid))
    (e e' : κ × Rid) : Prop where
  ground : f.Ground (A ++ l :: r :: B) ((A' ++ P :: B') :: ups)
  above : f.Above (A ++ l :: r :: B) ((A' ++ P :: B') :: ups)
  siblings : f.Siblings A' B' A B P l r X Y e e'
  full : ∀ c ∈ A ++ B, f.minSize ≤ (f.pairs c).length

section spot
variable (h : LeafSpot f A B A' B' ups l r P X Y e e')
include h

theorem LeafSpot.nodup : ([] ++ ((A ++ l :: r :: B) ++ ((A' ++ P :: B') ++ ups.flatten))).Nodup := by
  simpa [List.flatten_cons] using h.ground.nodup

theorem LeafSpot.ne_nil {c : Int} (hc : c ∈ A' ++ P :: B') : f.pairs c ≠ [] := (h.above.2.1 c hc).ne_nil h.ground.order

theorem LeafSpot.two_le_minSize : 2 ≤ f.minSize := by
  have := h.ground.order
  simp only [IxFile.minSize, IxFile.maxSize]
  omega

/-- No entry before that of the right leaf leads to it. -/
theorem LeafSpot.notMem_before : ∀ x ∈ X ++ [e], IxNode.child x ≠ r := by
  obtain ⟨hlr, -, -, hdis⟩ := IxFile.distinct_siblings h.nodup
  intro x hx
  rcases List.mem_append.1 hx with hx | hx
  · refine (hdis _ ?_).2.2
    have : IxNode.child x ∈ A := by
      rw [h.siblings.before]
      exact List.mem_map_of_mem (List.mem_append_right _ hx)
    simp [this]
  · rw [List.mem_singleton.1 hx, h.siblings.left]
    exact hlr

/-- Two leaves share their entries anew. -/
theorem LeafSpot.share (hLR : L ++ R = f.pairs l ++ f.pairs r) (hne : f.pairs l ≠ [])
    (hk : R.head?.map Prod.fst = some k) (hL : L.length ≤ f.fileHdr.btreeOrder ∧ f.minSize ≤ L.length)
    (hR : R.length ≤ f.fileHdr.btreeOrder ∧ f.minSize ≤ R.length)
    (hlead : LeadsTo (coalesceOrRedistribute fuel p) f false (f.deal l r P q L R (X ++ e :: (k, e'.2) :: Y) [])) :
    Settles fuel f p (A ++ l :: r :: B) false := by
  obtain ⟨hlr, hPl, hPr, -⟩ := IxFile.distinct_siblings h.nodup
  obtain ⟨hground, hE⟩ := h.ground.deal (P := P) (q := q) (F := X ++ e :: (k, e'.2) :: Y) hLR hL.1 hR.1
  have hh : f.Holds (f.deal l r P q L R (X ++ e :: (k, e'.2) :: Y) []) l r P L R (X ++ e :: (k, e'.2) :: Y) :=
    IxFile.holds_deal hlr hPl hPr
  have hed : f.Edited (f.deal l r P q L R (X ++ e :: (k, e'.2) :: Y) []) q [] := IxFile.edited_deal
  generalize f.deal l r P q L R (X ++ e :: (k, e'.2) :: Y) [] = g at hlead hground hE hh hed
  have hfirst : g.first l = f.first l := by
    have := h.two_le_minSize
    obtain ⟨a, L', hLa⟩ := List.exists_cons_of_ne_nil (List.ne_nil_of_length_pos (l := L) (by omega))
    obtain ⟨a', L'', hL''⟩ := List.exists_cons_of_ne_nil hne
    rw [hLa, hL''] at hLR
    show (g.pairs l).head?.map Prod.fst = (f.pairs l).head?.map Prod.fst
    rw [hh.left, hLa, hL'', (List.cons.inj hLR).1]
    rfl
  obtain ⟨hl', ha'⟩ := hed.above_share h.above h.siblings (List.nodup_append.1 h.nodup).2.1
    (fun c hc => h.ne_nil (by simp [hc])) (by simp) hh.other hh.parent hfirst (by rw [← hk, ← hh.right]; rfl)
  refine ⟨g, _, _, hlead, hground.tree ⟨hl', fun c hc => ?_, ha'⟩ fun _ c hc => ?_, hE⟩
  · rw [IxFile.InnerOk, hed.isLeaf, hed.order, hed.minSize]
    have hold := h.above.2.1 c hc
    by_cases hcP : c = P
    · subst hcP
      have hlen : (g.pairs c).length = (f.pairs c).length := by simp [hh.parent, h.siblings.pairs]
      rw [hlen]
      exact hold
    · rw [hh.same h.nodup (by simp only [List.mem_append, List.mem_cons] at hc ⊢; tauto)]
      exact hold
  · rw [hed.minSize]
    by_cases hcl : c = l
    · subst hcl
      rw [hh.left]
      exact hL.2
    · by_cases hcr : c = r
      · subst hcr
        rw [hh.right]
        exact hR.2
      · have hmem : c ∈ A ++ B := by simp only [List.mem_append, List.mem_cons] at hc ⊢; tauto
        rw [hh.same h.nodup (by simp only [List.mem_append] at hmem ⊢; tauto)]
        exact h.full c hmem

/-- One of the leaves takes up the other, and their parent is repaired. -/
theorem LeafSpot.take (hdr : IxFileHdr) (hM : f.pairs l ++ f.pairs r = M)
    (hq : q = l ∧ p = r ∧ F = X ++ e :: Y ∨ q = r ∧ p = l ∧ ∃ k, F = X ++ (k, e'.2) :: Y ∧ f.first l = some k)
    (hne : f.pairs l ≠ []) (hlen : M.length ≤ f.fileHdr.btreeOrder ∧ f.minSize ≤ M.length)
    (hord : hdr.btreeOrder = f.fileHdr.btreeOrder) (hroot : hdr.rootPage = f.fileHdr.rootPage)
    (hnum : hdr.numPages = f.fileHdr.numPages) (hhead : (A ++ q :: B).head? = some hdr.firstLeaf)
    (hlast : (A ++ q :: B).getLast? = some hdr.lastLeaf) (hfuel : ups.length < fuel)
    (hlead : ∀ b f₂, LeadsTo (coalesceOrRedistribute fuel P) (f.absorbLeaf q p P M F hdr) b f₂ →
      LeadsTo (coalesceOrRedistribute (fuel + 1) p) f true f₂) : Settles (fuel + 1) f p (A ++ l :: r :: B) true := by
  have hq' : q = l ∧ p = r ∨ q = r ∧ p = l := hq.imp (fun h => ⟨h.1, h.2.1⟩) fun h => ⟨h.1, h.2.1⟩
  obtain ⟨hlr, hPl, hPr, hdis⟩ := IxFile.distinct_siblings h.nodup
  have hPq : P ≠ q := by rcases hq' with ⟨rfl, -⟩ | ⟨rfl, -⟩ <;> assumption
  obtain ⟨hground, hE⟩ := h.ground.absorbLeaf (F := F) hq' hM hlen.1 hord hnum hhead hlast
  have hpairs : (f.absorbLeaf q p P M F hdr).pairs = Function.update (Function.update f.pairs q M) P F :=
    f.pairs_absorbLeaf
  have hed : f.Edited (f.absorbLeaf q p P M F hdr) q [] := IxFile.edited_absorbLeaf hord hroot
  generalize f.absorbLeaf q p P M F hdr = g at hlead hground hE hpairs hed
  have hgq : g.pairs q = M := by rw [hpairs, Function.update_of_ne hPq.symm, Function.update_self]
  have hgP : g.pairs P = F := by rw [hpairs, Function.update_self]
  have hother : ∀ c, c ≠ P → c ≠ l → c ≠ r → g.pairs c = f.pairs c := fun c h1 h2 h3 => by
    have hcq : c ≠ q := by rcases hq' with ⟨rfl, -⟩ | ⟨rfl, -⟩ <;> assumption
    rw [hpairs, Function.update_of_ne h1, Function.update_of_ne hcq]
  have hh : f.Holds g l r P (g.pairs l) (g.pairs r) F := ⟨rfl, rfl, hgP, hother⟩
  have hgfirst : g.first q = f.first l := by
    obtain ⟨a, L', hL⟩ := List.exists_cons_of_ne_nil hne
    show (g.pairs q).head?.map Prod.fst = (f.pairs l).head?.map Prod.fst
    rw [hgq, ← hM, hL]
    rfl
  obtain ⟨hl', ha'⟩ : Linked Prod.fst IxNode.child g.pairs g.parent (A' ++ P :: B') (A ++ q :: B) ∧
      g.Above (A' ++ P :: B') ups := by
    have hnup := (List.nodup_append.1 h.nodup).2.1
    have hA' : ∀ c ∈ A', f.pairs c ≠ [] := fun c hc => h.ne_nil (by simp [hc])
    rcases hq with ⟨rfl, -, rfl⟩ | ⟨rfl, -, k, rfl, hk⟩
    · exact hed.above_left h.above h.siblings hnup hA' (by simp) hother hgP hgfirst
    · exact hed.above_right h.above h.siblings hnup hA' (by simp) hother hgP (hgfirst.trans hk) hk
  have hPlen : (g.pairs P).length + 1 = (f.pairs P).length := by
    rw [hgP, h.siblings.pairs]
    rcases hq with ⟨-, -, rfl⟩ | ⟨-, -, k, rfl, -⟩ <;> simp <;> omega
  have hunder : Under g (A ++ q :: B) A' B' P ups := by
    have hn' : ((A ++ q :: B) ++ ((A' ++ P :: B') ++ ups.flatten)).Nodup := by
      simpa [List.flatten_cons] using hground.nodup
    refine ⟨hground.order, hl', ha', fun c hc => ?_, ?_, hn', fun c hc => hground.live c (by simpa using hc)⟩
    · rw [IxFile.InnerOk, hed.isLeaf, hed.order, hed.minSize,
        hh.same h.nodup (by simp only [List.mem_append] at hc ⊢; tauto)]
      exact h.above.2.1 c (by simp only [List.mem_append, List.mem_cons] at hc ⊢; tauto)
    · obtain ⟨h1, h2, h3⟩ := h.above.2.1 P (by simp)
      rw [IxFile.LowOk, hed.isLeaf, hed.order, hed.minSize]
      exact ⟨h1, by omega, by omega⟩
  obtain ⟨b, f₂, ups₂, hx, ha₂, hs₂⟩ := repairs hfuel hunder
  obtain ⟨hground₂, hE₂⟩ := hground.shrunk hs₂
  refine ⟨f₂, A ++ q :: B, ups₂, hlead b f₂ hx, hground₂.tree ha₂ fun _ c hc => ?_, hE₂.trans hE⟩
  -- no leaf is in the levels that were repaired
  have hcu : c ∉ ((A' ++ P :: B') :: ups).flatten := fun hu => (List.nodup_append.1 hground.nodup).2.2 c hc c hu rfl
  have hmin : f₂.minSize = f.minSize := by
    rw [← hed.minSize, IxFile.minSize, IxFile.minSize, IxFile.maxSize, IxFile.maxSize, hs₂.order]
  rw [hmin, (hs₂.same c hcu).pairs]
  by_cases hcq : c = q
  · subst hcq
    rw [hgq]
    exact hlen.2
  · have hmem : c ∈ A ++ B := by simp only [List.mem_append, List.mem_cons] at hc ⊢; tauto
    rw [hh.same h.nodup (by simp only [List.mem_append] at hmem ⊢; tauto)]
    exact h.full c hmem

end spot

/-- With a right neighbour: whether the leaf is merged. -/
theorem LeafSpot.repair_right (h : LeafSpot f A B A' B' ups p r P [] Y e e') (hpar : f.parent p = P)
    (hr : f.minSize ≤ (f.pairs r).length) (hsize : (f.pairs p).length + 1 = f.minSize) (hfuel : ups.length < fuel) :
    Settles (fuel + 1) f p (A ++ p :: r :: B)
      (decide ((f.pairs p).length + (f.pairs r).length < f.minSize * 2)) := by
  have htwo := h.two_le_minSize
  have hmax : f.minSize * 2 ≤ f.maxSize := Nat.div_mul_le_self ..
  have hord : f.maxSize = f.fileHdr.btreeOrder + 1 := rfl
  have hmin : (f.pairs p).length < f.minSize := by omega
  obtain ⟨hrleaf, hrmax⟩ := h.ground.leaf r (by simp)
  have hpleaf := (h.ground.leaf p (by simp)).1
  have hne : f.pairs p ≠ [] := List.ne_nil_of_length_pos (by omega)
  have hP : f.Live P := h.ground.live P (by simp)
  have hPne : P ≠ ixNoPage := by
    have := hP.2.1
    simp only [ixInitRootPage, ixNoPage] at this ⊢
    omega
  have hrhas : f.Has r := (h.ground.live r (by simp)).1
  obtain ⟨hpr, hPp, hPr, hdis⟩ := IxFile.distinct_siblings h.nodup
  have hs := h.siblings
  have hnth : (f.pairs P)[1]? = some e' := by simp [hs.pairs]
  by_cases hsum : f.minSize * 2 ≤ (f.pairs p).length + (f.pairs r).length
  · rw [decide_eq_false (Nat.not_lt.2 hsum)]
    obtain ⟨m, m', N, hN⟩ := exists_cons_cons (htwo.trans hr)
    have hlen : (f.pairs r).length = N.length + 2 := by simp [hN]
    have hcarried : f.carried p [m] = [] := by rw [IxFile.carried, if_pos hpleaf]
    refine h.share (q := p) (L := f.pairs p ++ [m]) (R := m' :: N) (k := m'.1) (by simp [hN]) hne rfl ?_ ?_ ?_
    · simp only [List.length_append, List.length_singleton]
      omega
    · simp only [List.length_cons]
      omega
    · refine leadsTo_coalesce_share (n := r) hpar hPne hmin hP.1 hs.pairs hs.left (by simp) rfl hnth hs.right hrhas hsum ?_
      rw [← hcarried]
      refine leadsTo_redistribute_right hpr hPp hPr (by omega) (fun hf => absurd (hf.symm.trans hpleaf) (by simp)) hN
        hs.pairs hs.right ?_
      rw [hs.left]
      exact hpr
  · rw [decide_eq_true (Nat.not_le.1 hsum)]
    obtain ⟨m, L, hL⟩ := List.exists_cons_of_ne_nil hne
    obtain ⟨hprev, hnext, hprevne, -⟩ := h.ground.past
    have hfirst := h.ground.firstLeaf
    have hlast := h.ground.lastLeaf
    refine h.take (M := f.pairs p ++ f.pairs r) (q := r) (F := (m.1, e'.2) :: Y)
      (if f.fileHdr.firstLeaf = p then { f.fileHdr with firstLeaf := r } else f.fileHdr) rfl
      (.inr ⟨rfl, rfl, m.1, rfl, by simp [firstKey, hL]⟩) hne ?_ (by split <;> rfl) (by split <;> rfl) (by split <;> rfl)
      ?_ ?_ hfuel fun b f₂ hrec => ?_
    · rw [List.length_append]
      omega
    · cases A with
      | nil =>
        have : p = f.fileHdr.firstLeaf := by simpa using hfirst
        simp [this]
      | cons a A =>
        have hap : a ≠ p := (hdis a (by simp)).2.1
        have ha : a = f.fileHdr.firstLeaf := by simpa using hfirst
        rw [if_neg (by rwa [← ha])]
        simp [ha]
    · have hsame : (A ++ r :: B).getLast? = (A ++ p :: r :: B).getLast? := by
        rw [List.getLast?_append_cons, List.getLast?_append_cons, List.getLast?_cons_cons]
      rw [hsame, hlast]
      split <;> rfl
    · refine leadsTo_coalesce_merge (n := r) hpar hPne hmin hP.1 hs.pairs hs.left (by simp) rfl hnth hs.right hrhas
        (by omega) ?_ hrec
      refine leadsTo_mergeLeaf_right hrleaf hpleaf hPr ?_ hprev hnext hprevne rfl (by simp [hL]) hs.pairs
      rw [List.length_append]
      omega

/-- With a left neighbour: whether the leaf is merged. -/
theorem LeafSpot.repair_left (h : LeafSpot f A B A' B' ups l p P X Y e e') (hpar : f.parent p = P)
    (hl : f.minSize ≤ (f.pairs l).length) (hsize : (f.pairs p).length + 1 = f.minSize) (hfuel : ups.length < fuel) :
    Settles (fuel + 1) f p (A ++ l :: p :: B)
      (decide ((f.pairs p).length + (f.pairs l).length < f.minSize * 2)) := by
  have htwo := h.two_le_minSize
  have hmax : f.minSize * 2 ≤ f.maxSize := Nat.div_mul_le_self ..
  have hord : f.maxSize = f.fileHdr.btreeOrder + 1 := rfl
  have hmin : (f.pairs p).length < f.minSize := by omega
  obtain ⟨hlleaf, hlmax⟩ := h.ground.leaf l (by simp)
  have hpleaf := (h.ground.leaf p (by simp)).1
  have hne : f.pairs l ≠ [] := List.ne_nil_of_length_pos (by omega)
  have hP : f.Live P := h.ground.live P (by simp)
  have hPne : P ≠ ixNoPage := by
    have := hP.2.1
    simp only [ixInitRootPage, ixNoPage] at this ⊢
    omega
  have hlhas : f.Has l := (h.ground.live l (by simp)).1
  obtain ⟨hlp, hPl, hPp, hdis⟩ := IxFile.distinct_siblings h.nodup
  have hs := h.siblings
  have hpairs : f.pairs P = (X ++ [e]) ++ e' :: Y := by simp [hs.pairs]
  have hX := h.notMem_before
  have hj : X.length = if (X ++ [e]).length = 0 then 1 else (X ++ [e]).length - 1 := by simp
  have hnth : (f.pairs P)[X.length]? = some e := by simp [hs.pairs]
  have hlen : (X ++ [e]).length = X.length + 1 := by simp
  by_cases hsum : f.minSize * 2 ≤ (f.pairs p).length + (f.pairs l).length
  · rw [decide_eq_false (Nat.not_lt.2 hsum)]
    obtain ⟨N, m, hN⟩ : ∃ N m, f.pairs l = N ++ [m] := ⟨_, _, (List.dropLast_append_getLast hne).symm⟩
    have hlenl : (f.pairs l).length = N.length + 1 := by simp [hN]
    have hcarried : f.carried p [m] = [] := by rw [IxFile.carried, if_pos hpleaf]
    refine h.share (q := p) (L := N) (R := m :: f.pairs p) (k := m.1) (by simp [hN]) hne rfl ?_ ?_ ?_
    · omega
    · simp only [List.length_cons]
      omega
    · refine leadsTo_coalesce_share (n := l) hpar hPne hmin hP.1 hpairs hs.right hX hj hnth hs.left hlhas hsum ?_
      rw [← hcarried, hlen]
      exact leadsTo_redistribute_left hlp.symm hPp hPl (by omega) (fun hf => absurd (hf.symm.trans hpleaf) (by simp)) hN
        hs.pairs
  · rw [decide_eq_true (Nat.not_le.1 hsum)]
    have hground := h.ground
    rw [show A ++ l :: p :: B = (A ++ [l]) ++ p :: B by simp] at hground
    obtain ⟨hprev, hnext, hprevne, -⟩ := hground.past
    have hfirst := h.ground.firstLeaf
    have hlast := h.ground.lastLeaf
    refine h.take (M := f.pairs l ++ f.pairs p) (q := l) (F := X ++ e :: Y)
      (if f.fileHdr.lastLeaf = p then { f.fileHdr with lastLeaf := l } else f.fileHdr) rfl
      (.inl ⟨rfl, rfl, rfl⟩) hne ?_ (by split <;> rfl) (by split <;> rfl) (by split <;> rfl) ?_ ?_ hfuel
      fun b f₂ hrec => ?_
    · rw [List.length_append]
      omega
    · have hsame : (A ++ l :: B).head? = (A ++ l :: p :: B).head? := by cases A <;> rfl
      rw [hsame, hfirst]
      split <;> rfl
    · cases B using List.reverseRecOn with
      | nil =>
        have : p = f.fileHdr.lastLeaf := by simpa using hlast
        simp [this]
      | append_singleton B b =>
        have hbp : b ≠ p := (hdis b (by simp)).2.2
        have hb : b = f.fileHdr.lastLeaf := by
          rw [show A ++ l :: p :: (B ++ [b]) = (A ++ l :: p :: B) ++ [b] by simp, List.getLast?_concat] at hlast
          exact Option.some.inj hlast
        rw [if_neg (by rwa [← hb]), show A ++ l :: (B ++ [b]) = (A ++ l :: B) ++ [b] by simp, List.getLast?_concat, hb]
    · refine leadsTo_coalesce_merge (n := l) hpar hPne hmin hP.1 hpairs hs.right hX hj hnth hs.left hlhas (by omega) ?_
        hrec
      rw [hlen]
      refine leadsTo_mergeLeaf_left hlleaf hpleaf hPl ?_ hprev hnext hprevne rfl hs.pairs
      rw [List.length_append]
      omega

end IxIndexHandle

/-! ## The tree -/

namespace IxFile

open IxIndexHandle

variable {κ : Type} [LinearOrder κ] {f : IxFile κ} {leaves A B : List Int} {ups : List (List Int)} {p : Int} {k : κ}
  {fuel : Nat}

/-- **A leaf that lost an entry is filled up or merged with a neighbour, and the levels above are repaired.** -/
theorem Ground.coalesce (h : f.Ground (A ++ p :: B) ups) (ha : f.Above (A ++ p :: B) ups)
    (hfill : ups ≠ [] → (∀ c ∈ A ++ B, f.minSize ≤ (f.pairs c).length) ∧ f.minSize ≤ (f.pairs p).length + 1)
    (hfuel : ups.length < fuel) : ∃ b, Settles fuel f p (A ++ p :: B) b ∧ (b = false ↔ f.KeepsNode p) := by
  obtain ⟨n, rfl⟩ : ∃ n, fuel = n + 1 := ⟨fuel - 1, by omega⟩
  cases ups with
  | nil =>
    obtain ⟨r, hr, hroot⟩ := ha
    obtain rfl : p = r := Above.eq_of_nil ⟨r, hr, hroot⟩ (by simp) (by simp [hr])
    have hleaf := (h.leaf p (by simp)).1
    exact ⟨false, ⟨f, _, [], leadsTo_coalesce_root hroot.2 (leadsTo_adjustRoot_keep (by simp [hleaf])),
      h.tree ⟨p, hr, hroot⟩ (by simp), rfl⟩, iff_of_true rfl (.inl hroot.2)⟩
  | cons up ups =>
    obtain ⟨hfull, hlow⟩ := hfill (by simp)
    have htwo : 2 ≤ f.minSize := by
      have := h.order
      simp only [minSize, maxSize]
      omega
    have hup : ∀ c ∈ up, 2 ≤ (f.pairs c).length := by
      intro c hc
      have := (ha.2.1 c hc).2.2
      split at this <;> omega
    obtain ⟨A', P, B', rfl, hpar, hside⟩ := exists_siblings ha.1 hup
    have hPne : P ≠ ixNoPage := by
      have := (h.live P (by simp)).2.1
      simp only [ixInitRootPage, ixNoPage] at this ⊢
      omega
    by_cases hmin : f.minSize ≤ (f.pairs p).length
    · refine ⟨false, ⟨f, _, _, leadsTo_coalesce_full (by rwa [hpar]) hmin, h.tree ha fun _ c hc => ?_, rfl⟩,
        iff_of_true rfl (.inr (.inl hmin))⟩
      by_cases hcp : c = p
      · exact hcp ▸ hmin
      · exact hfull c (by simp only [List.mem_append, List.mem_cons] at hc ⊢; tauto)
    · have hsize : (f.pairs p).length + 1 = f.minSize := Nat.le_antisymm (Nat.not_le.1 hmin) hlow
      have hkeeps : ∀ {c : Int}, f.sibling p = some c →
          (decide ((f.pairs p).length + (f.pairs c).length < f.minSize * 2) = false ↔ f.KeepsNode p) := by
        intro c hc
        rw [decide_eq_false_iff_not, Nat.not_lt, KeepsNode, hpar, hc]
        simp [hPne, hmin]
      rcases hside with ⟨r, B₁, e, e', Y, rfl, hs⟩ | ⟨A₁, l, X, e, e', Y, rfl, hs⟩
      · refine ⟨_, LeafSpot.repair_right ⟨h, ha, hs, fun c hc => hfull c (by grind)⟩ hpar (hfull r (by simp)) hsize
          (by simpa using hfuel), hkeeps ?_⟩
        have hrank : f.rank p = some 0 := by
          rw [rank, hpar]
          exact IxNode.findChild_eq (X := []) hs.pairs hs.left (by simp)
        simp [sibling, hrank, hpar, hs.pairs, hs.right]
      · have hl := hfull l (by simp)
        have hcat : (A₁ ++ [l]) ++ p :: B = A₁ ++ l :: p :: B := by simp
        rw [hcat] at h ha ⊢
        have hspot : LeafSpot f A₁ B A' B' ups l p P X Y e e' := ⟨h, ha, hs, fun c hc => hfull c (by grind)⟩
        refine ⟨_, hspot.repair_left hpar hl hsize (by simpa using hfuel), hkeeps ?_⟩
        have hpairs : (f.node P).pairs = (X ++ [e]) ++ e' :: Y := by rw [List.append_assoc]; exact hs.pairs
        have hrank : f.rank p = some (X ++ [e]).length := by
          rw [rank, hpar]
          exact IxNode.findChild_eq hpairs hs.right hspot.notMem_before
        simp [sibling, hrank, hpar, hs.pairs, hs.left]

omit [LinearOrder κ] in
theorem setPairs_self (h : f.Has p) : f.setPairs p (f.pairs p) = f := by
  obtain ⟨n, hn⟩ := Option.isSome_iff_exists.1 h
  have hnode : f.node p = n := by rw [node, hn, Option.getD_some]
  have hself : Function.update f.pages p (some n) = f.pages := by rw [← hn, Function.update_eq_self]
  rw [setPairs, setNode, pairs, hnode]
  exact congrArg (fun pages => { f with pages := pages }) hself

omit [LinearOrder κ] in
theorem Rekeyed.shrunk {f' : IxFile κ} (h : f.Rekeyed f' ups) (low : List Int) : f.Shrunk f' low ups ups where
  nextPage := h.nextPage
  order := by rw [h.fileHdr]
  firstLeaf := by rw [h.fileHdr]
  lastLeaf := by rw [h.fileHdr]
  has := h.has
  same := h.same
  parent r _ := by rw [h.parent]
  sublist := List.Sublist.refl _
  numPages := by rw [h.fileHdr]

end IxFile

namespace IxIndexHandle

variable {κ : Type} [LinearOrder κ] {f f' : IxFile κ} {A B : List Int} {ups : List (List Int)} {p : Int} {k : κ}
  {X Y : List (κ × Rid)} {r : Rid} {fuel : Nat}

/-- `remove` on a leaf that has the key. -/
theorem leadsTo_remove_present (hs : ((f.pairs p).map Prod.fst).Pairwise (· < ·)) (hp : f.pairs p = X ++ (k, r) :: Y) :
    LeadsTo (remove p k) f (X ++ Y).length (f.setPairs p (X ++ Y)) := by
  have hs' := hs
  rw [hp, List.map_append, List.map_cons, List.pairwise_append, List.pairwise_cons] at hs'
  have hX : ∀ e ∈ X, e.1 < k := fun e he => hs'.2.2 _ (List.mem_map_of_mem he) _ (by simp)
  have hY : ∀ e ∈ (k, r) :: Y, k ≤ e.1 := by
    intro e he
    rcases List.mem_cons.1 he with rfl | he
    · exact le_refl _
    · exact le_of_lt (hs'.2.1.1 _ (List.mem_map_of_mem he))
  refine Act.Leads.bind leadsTo_getNode ?_
  rw [IxNode.lowerBound_eq hp hX hY, if_pos ((IxNode.keyIs_iff hs hp hX hY).2 ⟨r, by simp [hp]⟩)]
  refine Act.Leads.bind (leadsTo_dropPair hp rfl) (Act.Leads.bind leadsTo_getNode ?_)
  convert Act.Leads.pure using 1
  rw [IxFile.node_size, IxFile.pairs_setNode, Function.update_self]

/-- `remove` on a leaf that does not have it. -/
theorem leadsTo_remove_absent (hs : ((f.pairs p).map Prod.fst).Pairwise (· < ·)) (hk : ¬∃ r, (k, r) ∈ f.pairs p) :
    LeadsTo (remove p k) f (f.pairs p).length f := by
  obtain ⟨X, Y, hp, hX, hY⟩ := (f.node p).exists_split hs k
  refine Act.Leads.bind leadsTo_getNode ?_
  rw [IxNode.lowerBound_eq hp hX hY, if_neg fun h => hk ((IxNode.keyIs_iff hs hp hX hY).1 h)]
  exact Act.Leads.pure

/-- The keys above a leaf that lost an entry, and then its fill. -/
theorem exists_rekeyed {l : List (κ × Rid)} (h : f.Ground (A ++ p :: B) ups)
    (hold : (f.setPairs p l).Above (A ++ p :: B) ups)
    (hfill : ups ≠ [] → (∀ c ∈ A ++ B, f.minSize ≤ (f.pairs c).length) ∧ f.minSize ≤ (f.pairs p).length + 1)
    (hfuel : ups.length < fuel) :
    ∃ f₁ b, LeadsTo (if 0 < (f.pairs p).length then maintainParent fuel p else pure ()) f () f₁ ∧ f.Rekeyed f₁ ups ∧
      Settles fuel f₁ p (A ++ p :: B) b ∧ (b = false ↔ f₁.KeepsNode p) ∧
      f₁.entries (A ++ p :: B) = f.entries (A ++ p :: B) := by
  by_cases hne : f.pairs p = []
  · -- the only leaf is empty
    have hups : ups = [] := by
      by_contra hups
      have := (hfill hups).2
      have := h.order
      simp only [IxFile.minSize, IxFile.maxSize, hne, List.length_nil] at *
      omega
    subst hups
    have habove : f.Above (A ++ p :: B) [] := by
      obtain ⟨r, hr, hroot⟩ := hold
      exact ⟨r, hr, hroot.1, by simpa using hroot.2⟩
    obtain ⟨b, hset, hb⟩ := h.coalesce habove (by simp) hfuel
    refine ⟨f, b, ?_, IxFile.Rekeyed.refl, hset, hb, rfl⟩
    rw [if_neg (by simp [hne])]
    exact Act.Leads.pure
  · obtain ⟨f₁, hx, ha, hrk⟩ := leadsTo_maintainParent hfuel hold h.nodup
      (fun c hc => h.live c (List.mem_append_right _ hc)) hne
    obtain ⟨hground, hE⟩ := h.shrunk (hrk.shrunk (A ++ p :: B))
    have hmin : f₁.minSize = f.minSize := by
      rw [IxFile.minSize, IxFile.minSize, IxFile.maxSize, IxFile.maxSize, hrk.fileHdr]
    obtain ⟨b, hset, hb⟩ := hground.coalesce ha (fun hups => by
      obtain ⟨h1, h2⟩ := hfill hups
      exact ⟨fun c hc => by rw [hmin, hrk.length]; exact h1 c hc, by rw [hmin, hrk.length]; exact h2⟩) hfuel
    refine ⟨f₁, b, ?_, hrk, hset, hb, hE⟩
    rw [if_pos (List.length_pos_iff.2 hne)]
    exact hx

theorem settles_fixLeaf {l : List (κ × Rid)} (h : f.Ground (A ++ p :: B) ups)
    (hold : (f.setPairs p l).Above (A ++ p :: B) ups)
    (hfill : ups ≠ [] → (∀ c ∈ A ++ B, f.minSize ≤ (f.pairs c).length) ∧ f.minSize ≤ (f.pairs p).length + 1)
    (hfuel : ups.length < fuel) : ∃ f' leaves' ups', LeadsTo (fixLeaf fuel p) f () f' ∧ f'.Tree leaves' ups' ∧
      f'.entries leaves' = f.entries (A ++ p :: B) := by
  obtain ⟨f₁, b, hx, -, ⟨f', leaves', ups', hlead, ht, hE⟩, -, hE₁⟩ := exists_rekeyed h hold hfill hfuel
  refine ⟨f', leaves', ups', ?_, ht, hE.trans hE₁⟩
  exact Act.Leads.bind leadsTo_getNode (Act.Leads.bind hx (Act.Leads.bind hlead (leadsTo_unpinPage leadsTo_deleteIf)))

end IxIndexHandle

namespace IxFile.Tree

open IxIndexHandle

variable {κ : Type} [LinearOrder κ] {f : IxFile κ} {leaves A B : List Int} {ups : List (List Int)} {fuel : Nat} {k : κ}
  {p : Int} {X Y : List (κ × Rid)} {r : Rid}

/-- The keys of a leaf ascend. -/
theorem sorted_leaf (h : f.Tree (A ++ p :: B) ups) : ((f.pairs p).map Prod.fst).Pairwise (· < ·) := by
  have hsort := h.sorted
  simp only [IxFile.entries, List.flatMap_append, List.flatMap_cons, List.map_append, List.pairwise_append] at hsort
  exact hsort.2.1.1

/-- A tree in which a leaf has just lost an entry: the levels above fit the leaf as it was. -/
theorem unfilled (h : f.Tree (A ++ p :: B) ups) (hp : f.pairs p = X ++ (k, r) :: Y) :
    (f.setPairs p (X ++ Y)).Ground (A ++ p :: B) ups ∧
      ((f.setPairs p (X ++ Y)).setPairs p (f.pairs p)).Above (A ++ p :: B) ups ∧
      (ups ≠ [] → (∀ c ∈ A ++ B, (f.setPairs p (X ++ Y)).minSize ≤ ((f.setPairs p (X ++ Y)).pairs c).length) ∧
        (f.setPairs p (X ++ Y)).minSize ≤ ((f.setPairs p (X ++ Y)).pairs p).length + 1) ∧
      (f.setPairs p (X ++ Y)).entries (A ++ p :: B) = f.entries A ++ (X ++ Y) ++ f.entries B := by
  have hE : f.entries (A ++ p :: B) = f.entries A ++ f.pairs p ++ f.entries B := by simp [IxFile.entries]
  have hs : ((f.entries A ++ (X ++ Y) ++ f.entries B).map Prod.fst).Pairwise (· < ·) := by
    refine List.Pairwise.sublist (List.Sublist.map _ ?_) h.sorted
    rw [hE, hp]
    exact ((List.sublist_cons_self (k, r) Y).append_left X |>.append_left _).append_right _
  have hlen : (f.pairs p).length = (X ++ Y).length + 1 := by
    rw [hp]
    simp
    omega
  obtain ⟨-, hle, hleaf⟩ := h.leafOk p (by simp)
  obtain ⟨hground, hE₁⟩ := h.ground.setPairs (p := p) (l := X ++ Y) (by omega) hs
  have hhas : f.Has p := (h.live p (by simp)).1
  have hback : (f.setPairs p (X ++ Y)).setPairs p (f.pairs p) = f := by
    rw [IxFile.setPairs, IxFile.setPairs, setNode_setNode, node_setNode_self]
    exact setPairs_self hhas
  refine ⟨hground, by rw [hback]; exact h.above, fun hups => ⟨fun c hc => ?_, ?_⟩, hE₁⟩
  · have hcp : c ≠ p := by
      have := (List.nodup_append.1 h.nodup).1
      grind [List.nodup_append, List.nodup_cons]
    have hfull := (h.leafOk c (by grind)).2.2 (by simpa using hups)
    simpa [hcp] using hfull
  · have hfull := hleaf (by simpa using hups)
    simp only [pairs_setNode, Function.update_self, minSize_setNode]
    omega

/-- **`delete_entry` takes out the entry of the key, and changes nothing when there is none.** -/
theorem deleteEntry (h : f.Tree leaves ups) (hfuel : ups.length < fuel) :
    (LeadsTo (IxIndexHandle.deleteEntry fuel k) f false f ∧ ¬∃ r, (k, r) ∈ f.entries leaves) ∨
    ∃ r f' leaves' ups' S T, LeadsTo (IxIndexHandle.deleteEntry fuel k) f true f' ∧ f'.Tree leaves' ups' ∧
      f.entries leaves = S ++ (k, r) :: T ∧ f'.entries leaves' = S ++ T := by
  obtain ⟨p, hr, hfind⟩ := h.leadsTo_findLeafPage (k := k) hfuel
  obtain ⟨A, B, rfl, hE, hA, hB, -⟩ := h.entries_route hr
  have hsp := h.sorted_leaf
  by_cases hmem : ∃ r, (k, r) ∈ f.pairs p
  · right
    obtain ⟨r, hk⟩ := hmem
    obtain ⟨X, Y, hp⟩ := List.append_of_mem hk
    obtain ⟨hground, hback, hfill, hE₁⟩ := h.unfilled hp
    obtain ⟨f', leaves', ups', hfix, ht, hE₂⟩ := settles_fixLeaf hground hback hfill hfuel
    refine ⟨r, f', leaves', ups', f.entries A ++ X, Y ++ f.entries B, ?_, ht, by simp [hE, hp], by simp [hE₂, hE₁]⟩
    refine Act.Leads.bind hfind (Act.Leads.bind leadsTo_getNode (Act.Leads.bind (leadsTo_remove_present hsp hp) ?_))
    rw [if_neg (by rw [node_size, hp]; simp)]
    exact Act.Leads.bind hfix Act.Leads.pure
  · left
    refine ⟨Act.Leads.bind hfind (Act.Leads.bind leadsTo_getNode (Act.Leads.bind (leadsTo_remove_absent hsp hmem) ?_)), ?_⟩
    · rw [node_size, if_pos rfl]
      exact leadsTo_unpinPage Act.Leads.pure
    · rintro ⟨r, hk⟩
      rw [hE] at hk
      rcases List.mem_append.1 hk with hk | hk
      · rcases List.mem_append.1 hk with hk | hk
        · exact absurd (hA _ hk) (lt_irrefl _)
        · exact hmem ⟨r, hk⟩
      · exact absurd (hB _ hk) (lt_irrefl _)

end IxFile.Tree

end Rmdb
