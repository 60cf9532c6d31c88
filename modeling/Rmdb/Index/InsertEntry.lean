import Rmdb.Index.Insert

/-!
# Insertion of an entry

- `setPairs`, `splitLeaf`: what `insert` and `split` write to a leaf;
- `Tree.setPairs`: a leaf with other pairs, when its first key and its size stay in order;
- `Tree.insertEntry`: `insert_entry` adds the entry in its place when its key is absent, and changes nothing otherwise.
-/

namespace Rmdb

open Lib

namespace IxFile

variable {κ : Type} (f : IxFile κ) (p : Int)

/-! ## Leaves with other pairs -/

abbrev setPairs (l : List (κ × Rid)) : IxFile κ := f.setNode p { f.node p with pairs := l }

/-- The file after the split of a leaf. -/
def splitLeaf : IxFile κ :=
  ((((f.cut p).withPrev f.nextPage p).withNext f.nextPage (f.nextLeaf p)).withPrev (f.nextLeaf p)
    f.nextPage).withNext p f.nextPage

section splitLeaf
variable {f p}

theorem pairs_splitLeaf : (f.splitLeaf p).pairs = Function.update (Function.update f.pairs f.nextPage
    ((f.pairs p).drop ((f.pairs p).length / 2))) p ((f.pairs p).take ((f.pairs p).length / 2)) := by
  simp [splitLeaf, pairs_cut]

@[simp] theorem fileHdr_splitLeaf : (f.splitLeaf p).fileHdr =
    { f.fileHdr with numPages := f.fileHdr.numPages + 1 } := rfl

@[simp] theorem nextPage_splitLeaf : (f.splitLeaf p).nextPage = f.nextPage + 1 := rfl

theorem has_splitLeaf {r : Int} (h : r = f.nextPage ∨ f.Has r) : (f.splitLeaf p).Has r := by
  simp only [splitLeaf, withPrev, withNext, has_setNode, has_cut]
  tauto

variable (h : p ≠ f.nextPage)
include h

theorem parent_splitLeaf : (f.splitLeaf p).parent = Function.update f.parent f.nextPage (f.parent p) := by
  simp [splitLeaf, parent_cut h]

theorem isLeaf_splitLeaf : (f.splitLeaf p).isLeaf = Function.update f.isLeaf f.nextPage (f.isLeaf p) := by
  simp [splitLeaf, isLeaf_cut h]

theorem nextLeaf_splitLeaf : (f.splitLeaf p).nextLeaf =
    Function.update (Function.update f.nextLeaf f.nextPage (f.nextLeaf p)) p f.nextPage := by
  simp [splitLeaf, nextLeaf_cut h]

theorem prevLeaf_splitLeaf : (f.splitLeaf p).prevLeaf =
    Function.update (Function.update f.prevLeaf f.nextPage p) (f.nextLeaf p) f.nextPage := by
  simp [splitLeaf, prevLeaf_cut h]

end splitLeaf

variable {f p} in
/-- The levels above, seen from a file in which the leaf `p` was split. -/
theorem above_splitLeaf {leaves : List Int} {ups : List (List Int)} (h : f.Above leaves ups)
    (hlt : ∀ r ∈ leaves ++ ups.flatten, r < f.nextPage) (hp : p ∈ leaves) (hpu : p ∉ ups.flatten)
    (hlen : 2 ≤ (f.pairs p).length) : (f.splitLeaf p).Above leaves ups := by
  have hneq : ∀ r ∈ leaves ++ ups.flatten, r ≠ f.nextPage := fun r hr => Int.ne_of_lt (hlt r hr)
  have hpq : p ≠ f.nextPage := hneq p (List.mem_append_left _ hp)
  have hnep : ∀ r ∈ ups.flatten, r ≠ p := fun r hr heq => hpu (heq ▸ hr)
  have hpairs : ∀ r, r ≠ p → r ≠ f.nextPage → (f.splitLeaf p).pairs r = f.pairs r := by
    intro r hr hr'
    rw [pairs_splitLeaf, Function.update_of_ne hr, Function.update_of_ne hr']
  refine h.congr (fun r hr => ?_) (fun c hc => ?_) (fun c hc => ?_) (fun b r hr hok => ?_) fun r hr hok => ?_
  · exact hpairs r (hnep r hr) (hneq r (List.mem_append_right _ hr))
  · have hcq := hneq c (List.mem_append_left _ (List.mem_of_mem_tail hc))
    by_cases hcp : c = p
    · subst hcp
      rw [firstKey, firstKey, pairs_splitLeaf, Function.update_self, head?_half hlen]
    · exact firstKey_congr (hpairs c hcp hcq)
  · rw [parent_splitLeaf hpq, Function.update_of_ne (hneq c hc)]
  · have hrq := hneq r (List.mem_append_right _ hr)
    rw [IxFile.InnerOk, hpairs r (hnep r hr) hrq, isLeaf_splitLeaf hpq, Function.update_of_ne hrq]
    exact hok
  · refine ⟨hok.1, ?_⟩
    rw [parent_splitLeaf hpq, Function.update_of_ne (hneq r hr)]
    exact hok.2

end IxFile

namespace IxIndexHandle

variable {κ : Type} [LinearOrder κ] {f : IxFile κ} {p : Int} {k : κ} {v : Rid} {X Y : List (κ × Rid)}

/-- `insert` on a leaf that has the key. -/
theorem leadsTo_insert_present (hs : ((f.pairs p).map Prod.fst).Pairwise (· < ·)) {r : Rid} (hk : (k, r) ∈ f.pairs p) :
    LeadsTo (insert p k v) f (f.pairs p).length f := by
  obtain ⟨X, Y, hp, hX, hY⟩ := (f.node p).exists_split hs k
  refine Act.Leads.bind leadsTo_getNode ?_
  rw [IxNode.lowerBound_eq hp hX hY, if_pos ((IxNode.keyIs_iff hs hp hX hY).2 ⟨r, hk⟩)]
  exact Act.Leads.pure

/-- `insert` on a leaf that does not have it. -/
theorem leadsTo_insert_absent (hp : f.pairs p = X ++ Y) (hX : ∀ e ∈ X, e.1 < k) (hY : ∀ e ∈ Y, k < e.1)
    (hle : (f.pairs p).length < f.maxSize) :
    LeadsTo (insert p k v) f ((f.pairs p).length + 1) (f.setPairs p (X ++ (k, v) :: Y)) := by
  have hY' : ∀ e ∈ Y, k ≤ e.1 := fun e he => le_of_lt (hY e he)
  have hkey : (f.node p).keyIs X.length k = false := by
    rw [IxNode.keyIs, IxFile.node_pairs, hp]
    cases Y with
    | nil => simp
    | cons e Y => simpa using (hY e (by simp)).ne'
  refine Act.Leads.bind leadsTo_getNode ?_
  rw [IxNode.lowerBound_eq hp hX hY', if_neg (by simp [hkey])]
  refine Act.Leads.bind (leadsTo_insertPairs (by simp [hp]) hle) (Act.Leads.bind leadsTo_getNode ?_)
  have hins : (f.pairs p).take X.length ++ [(k, v)] ++ (f.pairs p).drop X.length = X ++ (k, v) :: Y := by simp [hp]
  rw [hins]
  convert Act.Leads.pure using 1
  rw [IxFile.node_setNode_self, IxNode.size, hp]
  simp
  omega

end IxIndexHandle

namespace IxFile.Tree

variable {κ : Type} [LinearOrder κ] {f : IxFile κ} {leaves A B : List Int} {ups : List (List Int)} {p : Int}
  {l : List (κ × Rid)}

/-- Other pairs in a leaf do not concern the levels above, when the first key of the leaf stays or it is the leftmost. -/
theorem above_setPairs (h : f.Tree leaves ups) (hp : p ∈ leaves)
    (hl : p ∈ leaves.tail → l.head?.map Prod.fst = f.first p) : (f.setPairs p l).Above leaves ups := by
  have hne : ∀ r ∈ ups.flatten, r ≠ p := by
    rintro r hr rfl
    exact (List.nodup_append.1 h.nodup).2.2 r hp r hr rfl
  have hpairs : (f.setPairs p l).pairs = Function.update f.pairs p l := by simp
  refine h.above.congr (fun r hr => ?_) (fun c hc => ?_) (fun c _ => by simp) (fun b r hr hok => ?_) fun r _ hr => ?_
  · rw [hpairs, Function.update_of_ne (hne r hr)]
  · by_cases hcp : c = p
    · subst hcp
      rw [firstKey, hpairs, Function.update_self]
      exact hl hc
    · exact firstKey_congr (by rw [hpairs, Function.update_of_ne hcp])
  · simpa [IxFile.InnerOk, hne r hr] using hok
  · exact ⟨hr.1, by simpa using hr.2⟩

/-- A leaf with other pairs. -/
theorem setPairs (h : f.Tree (A ++ p :: B) ups) (hl : p ∈ (A ++ p :: B).tail → l.head?.map Prod.fst = f.first p)
    (hle : l.length ≤ f.fileHdr.btreeOrder) (hmin : ups ≠ [] → f.minSize ≤ l.length)
    (hs : ((f.entries A ++ l ++ f.entries B).map Prod.fst).Pairwise (· < ·)) :
    (f.setPairs p l).Tree (A ++ p :: B) ups ∧
      (f.setPairs p l).entries (A ++ p :: B) = f.entries A ++ l ++ f.entries B := by
  have hpairs : (f.setPairs p l).pairs = Function.update f.pairs p l := by simp
  have hnd := (List.nodup_append.1 h.nodup).1
  have hE : (f.setPairs p l).entries (A ++ p :: B) = f.entries A ++ l ++ f.entries B := by
    have hA : A.flatMap (Function.update f.pairs p l) = A.flatMap f.pairs :=
      List.flatMap_congr fun r hr => Function.update_of_ne (by grind [List.nodup_append]) _ _
    have hB : B.flatMap (Function.update f.pairs p l) = B.flatMap f.pairs :=
      List.flatMap_congr fun r hr => Function.update_of_ne (by grind [List.nodup_append, List.nodup_cons]) _ _
    simp [entries, hA, hB]
  refine ⟨⟨h.order, h.above_setPairs (by simp) hl, h.nodup, fun r hr => ?_, ?_, fun r hr => ?_, by simpa using h.chain,
    h.firstLeaf, h.lastLeaf, by rw [hE]; exact hs, h.numPages⟩, hE⟩
  · exact ⟨(f.has_setNode _ _).2 (.inr (h.live r hr).1), (h.live r hr).2⟩
  · exact (f.has_setNode _ _).2 (.inr h.header)
  · have hok := h.leafOk r hr
    by_cases hrp : r = p
    · subst hrp
      exact ⟨by simpa using hok.1, by simpa using hle, fun hu => by simpa using hmin (by simpa using hu)⟩
    · simpa [IxFile.LeafOk, hrp] using hok

/-- The leaf behind a leaf. -/
theorem exists_next (h : f.Tree (A ++ p :: B) ups) : ∃ n R, B ++ [ixLeafHeaderPage] = n :: R ∧ f.nextLeaf p = n := by
  obtain ⟨n, R, hR⟩ := List.exists_cons_of_ne_nil (l := B ++ [ixLeafHeaderPage]) (by simp)
  have hc := h.chain
  rw [List.cons_append, List.append_assoc, List.cons_append, hR, ← List.cons_append] at hc
  exact ⟨n, R, hR, (DoublyLinked.append_cons_cons.1 hc).2.1.1⟩

/-- The next leaf of a leaf can be read: it is a leaf or the leaf header. -/
theorem has_nextLeaf (h : f.Tree (A ++ p :: B) ups) : f.Has (f.nextLeaf p) := by
  obtain ⟨n, R, hR, hn⟩ := h.exists_next
  have : n ∈ B ++ [ixLeafHeaderPage] := by simp [hR]
  rw [hn]
  rcases List.mem_append.1 this with hB | h1
  · exact (h.live n (by simp [hB])).1
  · rw [List.mem_singleton.1 h1]
    exact h.header

/-- The leaf header is none of the nodes. -/
theorem header_notMem (h : f.Tree leaves ups) : ixLeafHeaderPage ∉ leaves ++ ups.flatten := fun hm => by
  have := (h.live _ hm).2.1
  simp [ixInitRootPage, ixLeafHeaderPage] at this

theorem header_lt (h : f.Tree (A ++ p :: B) ups) : ixLeafHeaderPage < f.nextPage := by
  have := (h.live p (by simp)).2
  simp only [ixInitRootPage, ixLeafHeaderPage] at this ⊢
  omega

/-- The chain of the leaves with a new leaf behind `p`. -/
theorem chain_splitLeaf (h : f.Tree (A ++ p :: B) ups) : DoublyLinked (f.splitLeaf p).nextLeaf
    (f.splitLeaf p).prevLeaf (ixLeafHeaderPage :: (A ++ p :: f.nextPage :: B) ++ [ixLeafHeaderPage]) := by
  obtain ⟨n, R, hR, hn⟩ := h.exists_next
  have hpq : p ≠ f.nextPage := Int.ne_of_lt (h.live p (by simp)).2.2
  have hhdr := h.header_lt
  have hnd := (List.nodup_append.1 h.nodup).1
  have hlt : ∀ r, r ∈ A ++ p :: B → r ≠ f.nextPage ∧ r ≠ ixLeafHeaderPage := fun r hr =>
    ⟨Int.ne_of_lt (h.live r (List.mem_append_left _ hr)).2.2, fun heq =>
      h.header_notMem (List.mem_append_left _ (heq ▸ hr))⟩
  have hA : ∀ r ∈ A, r ≠ p ∧ r ≠ f.nextPage := fun r hr => by
    refine ⟨?_, (hlt r (by simp [hr])).1⟩
    grind [List.nodup_append]
  have hB : ∀ r ∈ B, r ≠ p ∧ r ≠ f.nextPage ∧ r ∉ A ∧ r ≠ ixLeafHeaderPage := fun r hr => by
    refine ⟨?_, (hlt r (by simp [hr])).1, ?_, (hlt r (by simp [hr])).2⟩ <;> grind [List.nodup_append, List.nodup_cons]
  have hp1 := (hlt p (by simp)).2
  have hnB : n ∈ B ∨ n = ixLeafHeaderPage := by
    have : n ∈ B ++ [ixLeafHeaderPage] := by simp [hR]
    simpa using this
  have hnq : n ≠ f.nextPage := by grind
  have hnR : n ∉ R := by
    have hnd' : (B ++ [ixLeafHeaderPage]).Nodup := by grind [List.nodup_append, List.nodup_cons]
    rw [hR] at hnd'
    exact (List.nodup_cons.1 hnd').1
  have hc := h.chain
  rw [List.cons_append, List.append_assoc, List.cons_append, hR, ← List.cons_append] at hc
  have hdrop : (n :: R).dropLast = B := by rw [← hR, List.dropLast_concat]
  have hRB : ∀ r ∈ R, r ∈ B ∨ r = ixLeafHeaderPage := fun r hr => by
    have : r ∈ B ++ [ixLeafHeaderPage] := by simp [hR, hr]
    simpa using this
  rw [List.cons_append, List.append_assoc, List.cons_append, List.cons_append, hR, ← List.cons_append]
  have hnext := nextLeaf_splitLeaf hpq
  have hprev := prevLeaf_splitLeaf hpq
  rw [hn] at hnext hprev
  refine hc.insert (fun c hc => ?_) (fun c hc => ?_) ?_ ?_ ?_ ?_ (fun c hc => ?_) fun c hc => ?_
  · rw [hnext, Function.update_of_ne, Function.update_of_ne] <;> grind [List.nodup_append, List.nodup_cons]
  · rw [hprev, Function.update_of_ne, Function.update_of_ne] <;> grind [List.nodup_append, List.nodup_cons]
  · simp [hnext]
  · simp [hnext, hpq.symm]
  · simp [hprev, hnq.symm]
  · simp [hprev]
  · rw [hdrop] at hc
    rw [hnext, Function.update_of_ne, Function.update_of_ne] <;> grind [List.nodup_append, List.nodup_cons]
  · rw [hprev, Function.update_of_ne, Function.update_of_ne] <;> grind

/-- **A full leaf is split, and the levels above take up the new leaf.** -/
theorem splitLeaf {fuel : Nat} (h : f.Tree (A ++ p :: B) ups) (hfuel : ups.length < fuel)
    (hl : p ∈ (A ++ p :: B).tail → l.head?.map Prod.fst = f.first p) (hlen : l.length = f.maxSize)
    (hs : ((f.entries A ++ l ++ f.entries B).map Prod.fst).Pairwise (· < ·)) :
    ∃ f' ups', IxIndexHandle.LeadsTo (IxIndexHandle.splitLeaf fuel p) (f.setPairs p l) () f' ∧
      f'.Tree (A ++ p :: f.nextPage :: B) ups' ∧
      f'.entries (A ++ p :: f.nextPage :: B) = f.entries A ++ l ++ f.entries B := by
  have hord := h.order
  have hmax : f.maxSize = f.fileHdr.btreeOrder + 1 := rfl
  have hp := h.live p (by simp)
  have hpq : p ≠ f.nextPage := Int.ne_of_lt hp.2.2
  have hsplit := IxIndexHandle.leadsTo_split_leaf (f := f.setPairs p l) (p := p) hpq (by simp [hlen])
    (by simpa using (h.leafOk p (by simp)).1) (by
      have := h.has_nextLeaf
      simpa [has_setNode] using .inr this)
  have habove := above_splitLeaf (h.above_setPairs (by simp) hl) (p := p) (fun r hr => (h.live r hr).2.2) (by simp)
    (fun hu => (List.nodup_append.1 h.nodup).2.2 p (by simp) p hu rfl) (by simp; omega)
  change IxIndexHandle.LeadsTo _ _ f.nextPage ((f.setPairs p l).splitLeaf p) at hsplit
  -- the fields of the file with the split leaf
  have hpairs : ((f.setPairs p l).splitLeaf p).pairs = Function.update (Function.update f.pairs f.nextPage
      (l.drop (l.length / 2))) p (l.take (l.length / 2)) := by
    rw [pairs_splitLeaf]
    funext r
    by_cases hrp : r = p <;> by_cases hrq : r = f.nextPage <;> simp [Function.update_apply, hrp, hrq]
  have hleaf : ((f.setPairs p l).splitLeaf p).isLeaf = Function.update f.isLeaf f.nextPage (f.isLeaf p) := by
    simp [isLeaf_splitLeaf (f := f.setPairs p l) hpq]
  have hchain : DoublyLinked ((f.setPairs p l).splitLeaf p).nextLeaf ((f.setPairs p l).splitLeaf p).prevLeaf
      (ixLeafHeaderPage :: (A ++ p :: f.nextPage :: B) ++ [ixLeafHeaderPage]) := by
    have := h.chain_splitLeaf
    simpa [nextLeaf_splitLeaf (f := f.setPairs p l) hpq, prevLeaf_splitLeaf (f := f.setPairs p l) hpq,
      nextLeaf_splitLeaf hpq, prevLeaf_splitLeaf hpq] using this
  have hhas : ∀ r, r = f.nextPage ∨ f.Has r → ((f.setPairs p l).splitLeaf p).Has r := fun r hr =>
    has_splitLeaf (by simp only [has_setNode]; tauto)
  have hnext : ((f.setPairs p l).splitLeaf p).nextPage = f.nextPage + 1 := rfl
  have hhdr : ((f.setPairs p l).splitLeaf p).fileHdr = { f.fileHdr with numPages := f.fileHdr.numPages + 1 } := rfl
  generalize hg : (f.setPairs p l).splitLeaf p = g at hsplit habove hpairs hleaf hchain hhas hnext hhdr
  let g' := g.setHdr (if g.fileHdr.lastLeaf = p then { g.fileHdr with lastLeaf := f.nextPage } else g.fileHdr)
  have hord' : g'.fileHdr.btreeOrder = f.fileHdr.btreeOrder := by
    simp only [g', fileHdr_setHdr, hhdr]
    split <;> rfl
  obtain ⟨e, l', hl'⟩ : ∃ e l', l.drop (l.length / 2) = e :: l' :=
    List.exists_cons_of_ne_nil (List.ne_nil_of_length_pos (by rw [List.length_drop]; omega))
  have hq : g'.pairs f.nextPage = e :: l' := by
    change g.pairs f.nextPage = _
    rw [hpairs, Function.update_of_ne hpq.symm, Function.update_self, hl']
  have hnd : (f.nextPage :: (A ++ p :: B) ++ ups.flatten).Nodup :=
    List.nodup_cons.2 ⟨fun hm => Int.lt_irrefl _ (h.live _ hm).2.2, h.nodup⟩
  have hlive : ∀ r ∈ f.nextPage :: (A ++ p :: B) ++ ups.flatten, g'.Live r := by
    intro r hr
    change g.Has r ∧ ixInitRootPage ≤ r ∧ r < g.nextPage
    rw [hnext]
    rcases List.mem_cons.1 hr with rfl | hr
    · have := hp.2
      exact ⟨hhas _ (.inl rfl), by omega, by omega⟩
    · obtain ⟨hr1, hr2, hr3⟩ := h.live r hr
      exact ⟨hhas _ (.inr hr1), hr2, by omega⟩
  have habove' : g'.Above (A ++ p :: B) ups := by
    have hmin' : g'.minSize = g.minSize := by rw [minSize, maxSize, minSize, maxSize, hord', hhdr]
    have hroot : g'.fileHdr.rootPage = g.fileHdr.rootPage := by
      simp only [g', fileHdr_setHdr]
      split <;> rfl
    refine habove.congr (fun _ _ => rfl) (fun _ _ => rfl) (fun _ _ => rfl) (fun b r _ hok => ?_) fun r _ hok => ?_
    · rw [IxFile.InnerOk, hord', hmin']
      rw [IxFile.InnerOk, hhdr] at hok
      exact hok
    · exact ⟨hroot.trans hok.1, hok.2⟩
  obtain ⟨f', ups', hlead, hab, hgr⟩ := IxIndexHandle.takesUp (k := e.1) (by rw [hord']; exact hord) hfuel habove' hnd
    hlive (by
      change g.pairs p ≠ []
      rw [hpairs, Function.update_self]
      exact List.ne_nil_of_length_pos (by rw [List.length_take]; omega)) (by simp [firstKey, hq])
  have hltq : ∀ r ∈ A ++ p :: f.nextPage :: B, r ∈ A ++ p :: B ∨ r = f.nextPage := by grind
  have hnd' := List.nodup_append.1 hnd
  -- what the leaves and the header page keep
  have hsame : ∀ r, r ∈ A ++ p :: f.nextPage :: B ∨ r = ixLeafHeaderPage → g'.SameNode f' r := by
    intro r hr
    refine hgr.same r ?_ fun hu => ?_
    · change r < g.nextPage
      have := h.header_lt
      rcases hr with hr | rfl
      · rcases hltq r hr with hr | rfl
        · have := (h.live r (List.mem_append_left _ hr)).2.2
          omega
        · omega
      · omega
    · rcases hr with hr | rfl
      · exact hnd'.2.2 r (by grind) r hu rfl
      · exact h.header_notMem (List.mem_append_right _ hu)
  have hsamepairs : ∀ r ∈ A ++ p :: f.nextPage :: B, f'.pairs r = g.pairs r := fun r hr => (hsame r (.inl hr)).pairs
  have hentries : f'.entries (A ++ p :: f.nextPage :: B) = f.entries A ++ l ++ f.entries B := by
    have hA : A.flatMap f'.pairs = A.flatMap f.pairs := List.flatMap_congr fun r hr => by
      rw [hsamepairs r (by simp [hr]), hpairs, Function.update_of_ne, Function.update_of_ne] <;>
        grind [List.nodup_append]
    have hB : B.flatMap f'.pairs = B.flatMap f.pairs := List.flatMap_congr fun r hr => by
      rw [hsamepairs r (by simp [hr]), hpairs, Function.update_of_ne, Function.update_of_ne] <;>
        grind [List.nodup_append, List.nodup_cons]
    have hp' : f'.pairs p = l.take (l.length / 2) := by
      rw [hsamepairs p (by simp), hpairs, Function.update_self]
    have hq' : f'.pairs f.nextPage = l.drop (l.length / 2) := by
      rw [hsamepairs _ (by simp), hpairs, Function.update_of_ne hpq.symm, Function.update_self]
    simp only [entries, List.flatMap_append, List.flatMap_cons, hA, hB, hp', hq']
    rw [← List.append_assoc (List.take _ _), List.take_append_drop, List.append_assoc]
  refine ⟨f', ups', ?_, ?_, hentries⟩
  · refine Act.Leads.bind hsplit (Act.Leads.bind IxIndexHandle.leadsTo_modifyHdr (Act.Leads.bind
      (IxIndexHandle.leadsTo_pairAt (e := e) ?_) (Act.Leads.bind hlead (IxIndexHandle.leadsTo_unpinPage
      Act.Leads.pure))))
    change (g'.pairs f.nextPage)[0]? = some e
    rw [hq]
    rfl
  · have hup : ups'.isEmpty = false := by simpa using Above.ne_nil hab
    have hle : g'.nextPage ≤ f'.nextPage := hgr.nextPage
    change g.nextPage ≤ f'.nextPage at hle
    rw [hnext] at hle
    have hleaves : ∀ r ∈ A ++ p :: f.nextPage :: B, f'.Live r := fun r hr => by
      obtain ⟨h1, h2, h3⟩ := hlive r (List.mem_append_left _ (by grind))
      exact ⟨hgr.has r h1, h2, Int.lt_of_lt_of_le h3 hgr.nextPage⟩
    refine ⟨by rw [hgr.order, hord']; exact hord, hab, List.nodup_append.2 ⟨by grind, hgr.nodup, ?_⟩, fun r hr => ?_,
      hgr.has _ (hhas _ (.inr h.header)), fun r hr => ?_, ?_, ?_, ?_, by rw [hentries]; exact hs, ?_⟩
    · rintro r hr _ hu rfl
      rcases hgr.fresh r hu with hu | hu
      · exact hnd'.2.2 r (by grind) r hu rfl
      · change g.nextPage ≤ r at hu
        rcases hltq r hr with hr | rfl
        · have := (h.live r (List.mem_append_left _ hr)).2.2
          omega
        · omega
    · rcases List.mem_append.1 hr with hr | hr
      · exact hleaves r hr
      · exact hgr.live r hr
    · have hk := hsame r (.inl hr)
      have hmin : f'.minSize = f.minSize := by rw [minSize, maxSize, minSize, maxSize, hgr.order, hord']
      have hminle : f.minSize = (f.fileHdr.btreeOrder + 1) / 2 := rfl
      have hleafr : f'.isLeaf r = g.isLeaf r := hk.isLeaf
      rw [IxFile.LeafOk, hleafr, hsamepairs r hr, hgr.order, hord', hmin, hleaf, hpairs]
      by_cases hrp : r = p
      · subst hrp
        rw [Function.update_self, Function.update_of_ne hpq, List.length_take]
        exact ⟨(h.leafOk r (by simp)).1, by omega, fun _ => by omega⟩
      · rw [Function.update_of_ne hrp]
        by_cases hrq : r = f.nextPage
        · subst hrq
          rw [Function.update_self, Function.update_self, List.length_drop]
          exact ⟨(h.leafOk p (by simp)).1, by omega, fun _ => by omega⟩
        · rw [Function.update_of_ne hrq, Function.update_of_ne hrq]
          have hr' : r ∈ A ++ p :: B := (hltq r hr).resolve_right hrq
          have hne : ups.isEmpty = false := by
            rw [List.isEmpty_eq_false_iff]
            rintro rfl
            exact hrp (Above.eq_of_nil h.above hr' (by simp))
          obtain ⟨h1, h2, h3⟩ := h.leafOk r hr'
          exact ⟨h1, h2, fun _ => h3 hne⟩
    · refine hchain.congr (fun c hc => ?_) fun c hc => ?_
      · exact (hsame c (by have := (List.dropLast_sublist _).subset hc; grind)).nextLeaf
      · exact (hsame c (by have := List.mem_of_mem_tail hc; grind)).prevLeaf
    · have hfirst : f'.fileHdr.firstLeaf = f.fileHdr.firstLeaf := by
        rw [hgr.firstLeaf]
        simp only [g', fileHdr_setHdr, hhdr]
        split <;> rfl
      rw [hfirst, ← h.firstLeaf]
      cases A <;> rfl
    · have hlast := h.lastLeaf
      rw [hgr.lastLeaf]
      simp only [g', fileHdr_setHdr, hhdr]
      cases B using List.reverseRecOn with
      | nil =>
        -- the split leaf was the last one
        have : f.fileHdr.lastLeaf = p := by simpa using hlast.symm
        simp [this]
      | append_singleton B b =>
        have hcat : ∀ C : List Int, A ++ p :: (C ++ [b]) = (A ++ p :: C) ++ [b] := fun C => by simp
        have hb : f.fileHdr.lastLeaf = b := by
          rw [hcat, List.getLast?_concat] at hlast
          exact (Option.some.inj hlast).symm
        have hbp : b ≠ p := by grind [List.nodup_append, List.nodup_cons]
        rw [hb, if_neg hbp, ← List.cons_append, hcat, List.getLast?_concat]
    · have hnum := hgr.numPages
      have hg' : g'.fileHdr.numPages = f.fileHdr.numPages + 1 := by
        simp only [g', fileHdr_setHdr, hhdr]
        split <;> rfl
      rw [hg', h.numPages] at hnum
      simp only [List.length_append, List.length_cons, Int.natCast_add] at hnum ⊢
      omega

/-- A new key between smaller and larger ones. -/
theorem pairwise_insert {S T : List (κ × Rid)} {k : κ} {v : Rid}
    (h : ((S ++ T).map Prod.fst).Pairwise (· < ·)) (hS : ∀ e ∈ S, e.1 < k) (hT : ∀ e ∈ T, k < e.1) :
    ((S ++ (k, v) :: T).map Prod.fst).Pairwise (· < ·) := by
  rw [List.map_append, List.pairwise_append] at h
  rw [List.map_append, List.map_cons, List.pairwise_append, List.pairwise_cons]
  refine ⟨h.1, ⟨fun x hx => ?_, h.2.1⟩, fun x hx y hy => ?_⟩
  · obtain ⟨e, he, rfl⟩ := List.mem_map.1 hx
    exact hT e he
  · obtain ⟨e, he, rfl⟩ := List.mem_map.1 hx
    rcases List.mem_cons.1 hy with rfl | hy
    · exact hS e he
    · exact h.2.2 _ hx y hy

/-- **`insert_entry` adds the entry in its place when the key is absent, and changes nothing otherwise.** -/
theorem insertEntry {fuel : Nat} {k : κ} (v : Rid) (h : f.Tree leaves ups) (hfuel : ups.length < fuel) :
    (∃ p, IxIndexHandle.LeadsTo (IxIndexHandle.insertEntry fuel k v) f p f ∧ ∃ r, (k, r) ∈ f.entries leaves) ∨
    ∃ p f' leaves' ups' S T, IxIndexHandle.LeadsTo (IxIndexHandle.insertEntry fuel k v) f p f' ∧
      f'.Tree leaves' ups' ∧ f.entries leaves = S ++ T ∧ (∀ e ∈ S, e.1 < k) ∧ (∀ e ∈ T, k < e.1) ∧
      f'.entries leaves' = S ++ (k, v) :: T := by
  obtain ⟨p, hr, hfind⟩ := h.leadsTo_findLeafPage (k := k) hfuel
  obtain ⟨A, B, rfl, hE, hA, hB, hroute⟩ := h.entries_route hr
  have hsort := h.sorted
  have hsp : ((f.pairs p).map Prod.fst).Pairwise (· < ·) := by
    rw [hE, List.append_assoc, List.map_append, List.map_append, List.pairwise_append, List.pairwise_append] at hsort
    exact hsort.2.1.1
  by_cases hmem : ∃ r, (k, r) ∈ f.pairs p
  · left
    obtain ⟨r, hk⟩ := hmem
    refine ⟨p, ?_, r, by simp [hE, hk]⟩
    refine Act.Leads.bind hfind (Act.Leads.bind IxIndexHandle.leadsTo_getNode (Act.Leads.bind
      (IxIndexHandle.leadsTo_insert_present hsp hk) ?_))
    rw [IxFile.node_size, if_pos rfl]
    exact IxIndexHandle.leadsTo_unpinPage Act.Leads.pure
  · right
    obtain ⟨X, Y, hp, hX, hY⟩ := (f.node p).exists_split hsp k
    rw [node_pairs] at hp
    have hY' : ∀ e ∈ Y, k < e.1 := fun e he => by
      refine lt_of_le_of_ne (hY e he) ?_
      rintro rfl
      exact hmem ⟨e.2, by simp [hp, he]⟩
    have hle := (h.leafOk p (by simp)).2.1
    have hmax : (f.pairs p).length < f.maxSize := Nat.lt_succ_of_le hle
    have hins := IxIndexHandle.leadsTo_insert_absent (v := v) hp hX hY' hmax
    have hl : p ∈ (A ++ p :: B).tail → (X ++ (k, v) :: Y).head?.map Prod.fst = f.first p := by
      intro htail
      rcases hroute with rfl | ⟨x, hx, hxk⟩
      · exact absurd htail (List.nodup_cons.1 (List.nodup_append.1 h.nodup).1).1
      · -- the first key is below `k`, so it stays the first
        rw [first, firstKey, hp] at hx ⊢
        cases X with
        | nil =>
          cases Y with
          | nil => simp at hx
          | cons e Y =>
            have : k < x := by
              obtain rfl : e.1 = x := by simpa using hx
              exact hY' e (by simp)
            exact absurd (lt_of_lt_of_le this hxk) (lt_irrefl _)
        | cons e X => rfl
    have hs : ((f.entries A ++ (X ++ (k, v) :: Y) ++ f.entries B).map Prod.fst).Pairwise (· < ·) := by
      have hEk : f.entries A ++ (X ++ (k, v) :: Y) ++ f.entries B =
          (f.entries A ++ X) ++ (k, v) :: (Y ++ f.entries B) := by simp
      have hsort' : (((f.entries A ++ X) ++ (Y ++ f.entries B)).map Prod.fst).Pairwise (· < ·) := by
        rw [hE, hp] at hsort
        simpa using hsort
      rw [hEk]
      exact pairwise_insert hsort' (fun e he => (List.mem_append.1 he).elim (hA e) (hX e))
        fun e he => (List.mem_append.1 he).elim (hY' e) (hB e)
    have hlead : ∀ {f' : IxFile κ}, IxIndexHandle.LeadsTo (do
        if f.maxSize ≤ ((f.setPairs p (X ++ (k, v) :: Y)).pairs p).length then IxIndexHandle.splitLeaf fuel p
        else pure ()) (f.setPairs p (X ++ (k, v) :: Y)) () f' →
        IxIndexHandle.LeadsTo (IxIndexHandle.insertEntry fuel k v) f p f' := by
      intro f' hx
      refine Act.Leads.bind hfind (Act.Leads.bind IxIndexHandle.leadsTo_getNode (Act.Leads.bind hins ?_))
      rw [if_neg (by simp)]
      refine Act.Leads.bind IxIndexHandle.leadsTo_touch (Act.Leads.get_bind fun s hs => ?_)
      rw [hs.1]
      exact Act.Leads.bind hx (IxIndexHandle.leadsTo_unpinPage Act.Leads.pure)
    have hlen : (X ++ (k, v) :: Y).length = (f.pairs p).length + 1 := by
      rw [hp]
      simp
      omega
    rw [pairs_setNode, Function.update_self] at hlead
    by_cases hfull : f.maxSize ≤ (X ++ (k, v) :: Y).length
    · obtain ⟨f', ups', hsplit, ht, he⟩ := h.splitLeaf hfuel hl (by omega) hs
      refine ⟨p, f', _, ups', f.entries A ++ X, Y ++ f.entries B, hlead (by rwa [if_pos hfull]), ht, ?_, ?_, ?_, ?_⟩
      · simp [hE, hp]
      · exact fun e he => (List.mem_append.1 he).elim (hA e) (hX e)
      · exact fun e he => (List.mem_append.1 he).elim (hY' e) (hB e)
      · simp [he]
    · have hmin : ups ≠ [] → f.minSize ≤ (X ++ (k, v) :: Y).length := fun hne => by
        have := (h.leafOk p (by simp)).2.2 (by simpa using hne)
        omega
      obtain ⟨ht, he⟩ := h.setPairs hl (by simp only [maxSize] at hfull; omega) hmin hs
      refine ⟨p, _, _, ups, f.entries A ++ X, Y ++ f.entries B, hlead (by rw [if_neg hfull]; exact Act.Leads.pure), ht,
        ?_, ?_, ?_, ?_⟩
      · simp [hE, hp]
      · exact fun e he => (List.mem_append.1 he).elim (hA e) (hX e)
      · exact fun e he => (List.mem_append.1 he).elim (hY' e) (hB e)
      · simp [he]

end IxFile.Tree

end Rmdb
