import Rmdb.Index.DeleteEntry
import Rmdb.Index.IxManager
import Rmdb.Index.KeyOrder
import Rmdb.Lib.Listing
import Rmdb.System.SmManager

/-!
# An index is a map

- `IndexCall`: the calls `insert_entry`, `delete_entry` and `get_value`, with their meaning on a map from keys to rids;
- `Tree.leadsTo_perform`: a call on a tree answers what it means on the map of its entries, and leaves a tree with the
  entries of the new map;
- `leadsTo_performAll_created`: so does every sequence of calls on an index that was just created.
- `Tree.pow_le`: the tree is no deeper than the logarithm of the number of its entries, which bounds the rounds of every
  loop from the root to a leaf and back.
-/

namespace Rmdb

open Lib

/-- A call of an index. -/
inductive IndexCall (κ : Type)
  | insertEntry (key : κ) (value : Rid)
  | deleteEntry (key : κ)
  | getValue (key : κ)

/-- What a call answers. -/
inductive IndexAnswer
  | inserted
  | deleted (found : Bool)
  | value (rid : Option Rid)
  deriving DecidableEq

namespace IndexCall

variable {κ : Type}

section perform
variable [Ord κ] [DecidableEq κ]

/-- The call on the tree; the page that `insert_entry` returns is not used by its callers. -/
def perform (fuel : Nat) : IndexCall κ → IxM κ IndexAnswer
  | insertEntry key value => do
    let _ ← IxIndexHandle.insertEntry fuel key value
    return .inserted
  | deleteEntry key => do
    let found ← IxIndexHandle.deleteEntry fuel key
    return .deleted found
  | getValue key => do
    let rid ← IxIndexHandle.getValue fuel key
    return .value rid

/-- The calls one after the other. -/
def performAll (fuel : Nat) : List (IndexCall κ) → IxM κ (List IndexAnswer)
  | [] => return []
  | c :: cs => do
    let answer ← c.perform fuel
    let answers ← performAll fuel cs
    return answer :: answers

end perform

section meaning
variable [DecidableEq κ]

/-- What the call answers for a map, and the map after it. -/
def meaning (m : κ → Option Rid) : IndexCall κ → IndexAnswer × (κ → Option Rid)
  | insertEntry key value => (.inserted, if (m key).isSome then m else Function.update m key (some value))
  | deleteEntry key => (.deleted (m key).isSome, Function.update m key none)
  | getValue key => (.value (m key), m)

def meanings (m : κ → Option Rid) : List (IndexCall κ) → List IndexAnswer × (κ → Option Rid)
  | [] => ([], m)
  | c :: cs => ((c.meaning m).1 :: (meanings (c.meaning m).2 cs).1, (meanings (c.meaning m).2 cs).2)

end meaning

end IndexCall

namespace IxFile.Tree

open IxIndexHandle

variable {κ : Type} [LinearOrder κ] {f : IxFile κ} {leaves : List Int} {ups : List (List Int)} {fuel : Nat} {k : κ}
  {m : κ → Option Rid}

/-! ## Depth -/

omit [LinearOrder κ] in
theorem length_flatMap_ge {low : List Int} {n : Nat} (h : ∀ p ∈ low, n ≤ (f.pairs p).length) :
    low.length * n ≤ (low.flatMap f.pairs).length := by
  induction low with
  | nil => simp
  | cons p low ih =>
    have hp := h p (by simp)
    have ih := ih fun q hq => h q (by simp [hq])
    rw [List.length_cons, Nat.succ_mul, List.flatMap_cons, List.length_append]
    omega

omit [LinearOrder κ] in
/-- A level below the top one has as many nodes as the fill of the levels above asks for. -/
theorem pow_le_level {low up : List Int} {ups : List (List Int)} (h : f.Above low (up :: ups)) :
    2 * f.minSize ^ ups.length ≤ low.length := by
  have hchildren : low.length = (up.flatMap f.pairs).length := by
    rw [← h.1.children, List.length_map]
  induction ups generalizing low up with
  | nil =>
    obtain ⟨r, rfl, -⟩ := h.2.2
    have := (h.2.1 r (by simp)).2.2
    simpa [hchildren] using this
  | cons up' ups ih =>
    have ih := ih h.2.2 (by rw [← h.2.2.1.children, List.length_map])
    have hfill : up.length * f.minSize ≤ (up.flatMap f.pairs).length :=
      length_flatMap_ge fun p hp => by simpa using (h.2.1 p hp).2.2
    rw [hchildren, List.length_cons, Nat.pow_succ, ← Nat.mul_assoc]
    exact (Nat.mul_le_mul_right _ ih).trans hfill

/-- **The number of entries is exponential in the depth.** -/
theorem pow_le (h : f.Tree leaves ups) (hne : ups ≠ []) : 2 * f.minSize ^ ups.length ≤ (f.entries leaves).length := by
  cases ups with
  | nil => exact absurd rfl hne
  | cons up ups =>
    have hlevel := pow_le_level h.above
    have hfill : leaves.length * f.minSize ≤ (f.entries leaves).length :=
      length_flatMap_ge fun p hp => (h.leafOk p hp).2.2 rfl
    rw [List.length_cons, Nat.pow_succ, ← Nat.mul_assoc]
    exact (Nat.mul_le_mul_right _ hlevel).trans hfill

theorem depth_le (h : f.Tree leaves ups) : ups.length ≤ (f.entries leaves).length := by
  by_cases hne : ups = []
  · simp [hne]
  · have hpow := h.pow_le hne
    have htwo := h.two_le_minSize
    have hlt : ups.length < f.minSize ^ ups.length := Nat.lt_pow_self htwo
    omega

/-! ## Calls -/

theorem nodup_keys (h : f.Tree leaves ups) : ((f.entries leaves).map Prod.fst).Nodup :=
  h.sorted.imp fun hlt => ne_of_lt hlt

/-- `get_value` finds what the entries have. -/
theorem leadsTo_getValue (h : f.Tree leaves ups) (hm : Lists (f.entries leaves) m) (hfuel : ups.length < fuel) :
    LeadsTo (getValue fuel k) f (m k) f := by
  obtain ⟨p, hr, hfind⟩ := h.leadsTo_findLeafPage (k := k) hfuel
  obtain ⟨A, B, rfl, hE, hA, hB, -⟩ := h.entries_route hr
  have hsp := h.sorted_leaf
  have hlook : (f.node p).leafLookup k = m k := by
    apply Option.ext
    intro r
    rw [IxNode.leafLookup_iff hsp, ← hm k r, hE, node_pairs]
    have hA' : (k, r) ∉ f.entries A := fun he => absurd (hA _ he) (lt_irrefl _)
    have hB' : (k, r) ∉ f.entries B := fun he => absurd (hB _ he) (lt_irrefl _)
    simp [hA', hB']
  refine Act.Leads.bind hfind (Act.Leads.bind leadsTo_getNode (leadsTo_unpinPage ?_))
  rw [hlook]
  exact Act.Leads.pure

/-- **A call on a tree does what it means on the map of the entries**, and makes at most one entry more. -/
theorem leadsTo_perform (h : f.Tree leaves ups) (hm : Lists (f.entries leaves) m) (hfuel : ups.length < fuel)
    (c : IndexCall κ) : ∃ f' leaves' ups', LeadsTo (c.perform fuel) f (c.meaning m).1 f' ∧ f'.Tree leaves' ups' ∧
      Lists (f'.entries leaves') (c.meaning m).2 ∧
      (f'.entries leaves').length ≤ (f.entries leaves).length + 1 := by
  cases c with
  | insertEntry k v =>
    rcases h.insertEntry (k := k) v hfuel with ⟨p, hx, hmem⟩ | ⟨p, f', leaves', ups', S, T, hx, ht, hE, hS, hT, hE'⟩
    · have hsome : (m k).isSome = true := hm.isSome_iff.2 hmem
      refine ⟨f, leaves, ups, Act.Leads.bind hx Act.Leads.pure, h, ?_, Nat.le_succ _⟩
      simpa [IndexCall.meaning, hsome] using hm
    · have hnew : ¬∃ r, (k, r) ∈ S ++ T := by
        rintro ⟨r, hr⟩
        rcases List.mem_append.1 hr with hr | hr
        · exact lt_irrefl _ (hS _ hr)
        · exact lt_irrefl _ (hT _ hr)
      have hnone : m k = none := hm.eq_none_iff.2 (hE ▸ hnew)
      refine ⟨f', leaves', ups', Act.Leads.bind hx Act.Leads.pure, ht, ?_, ?_⟩
      · rw [hE] at hm
        simpa [IndexCall.meaning, hnone, hE'] using hm.insert (b := v) hnew
      · rw [hE, hE']
        simp only [List.length_append, List.length_cons]
        omega
  | deleteEntry k =>
    rcases h.deleteEntry (k := k) hfuel with ⟨hx, hmem⟩ | ⟨r, f', leaves', ups', S, T, hx, ht, hE, hE'⟩
    · have hnone : m k = none := hm.eq_none_iff.2 hmem
      refine ⟨f, leaves, ups, ?_, h, ?_, Nat.le_succ _⟩
      · rw [IndexCall.meaning, hnone]
        exact Act.Leads.bind hx Act.Leads.pure
      · simpa [IndexCall.meaning, ← hnone] using hm
    · have hsome : (m k).isSome = true := hm.isSome_iff.2 ⟨r, by simp [hE]⟩
      refine ⟨f', leaves', ups', ?_, ht, ?_, ?_⟩
      · rw [IndexCall.meaning, hsome]
        exact Act.Leads.bind hx Act.Leads.pure
      · have hn := h.nodup_keys
        rw [hE] at hm hn
        simpa [IndexCall.meaning, hE'] using hm.erase hn
      · rw [hE, hE']
        simp only [List.length_append, List.length_cons]
        omega
  | getValue k =>
    exact ⟨f, leaves, ups, Act.Leads.bind (h.leadsTo_getValue hm hfuel) Act.Leads.pure, h, hm, Nat.le_succ _⟩

/-- Every sequence of calls on a tree. -/
theorem leadsTo_performAll {cs : List (IndexCall κ)} (h : f.Tree leaves ups) (hm : Lists (f.entries leaves) m)
    (hfuel : (f.entries leaves).length + cs.length < fuel) :
    ∃ f' leaves' ups', LeadsTo (IndexCall.performAll fuel cs) f (IndexCall.meanings m cs).1 f' ∧ f'.Tree leaves' ups' ∧
      Lists (f'.entries leaves') (IndexCall.meanings m cs).2 ∧
      (f'.entries leaves').length ≤ (f.entries leaves).length + cs.length := by
  induction cs generalizing f leaves ups m with
  | nil => exact ⟨f, leaves, ups, Act.Leads.pure, h, hm, Nat.le_refl _⟩
  | cons c cs ih =>
    rw [List.length_cons] at hfuel
    have hdepth : ups.length < fuel := Nat.lt_of_le_of_lt h.depth_le (by omega)
    obtain ⟨f₁, leaves₁, ups₁, hx, ht, hm₁, hlen⟩ := h.leadsTo_perform hm hdepth c
    obtain ⟨f', leaves', ups', hxs, ht', hm', hlen'⟩ := ih ht hm₁ (by omega)
    exact ⟨f', leaves', ups', Act.Leads.bind hx (Act.Leads.bind hxs Act.Leads.pure), ht', hm', by
      rw [List.length_cons]
      omega⟩

end IxFile.Tree

/-! ## A new index -/

section created
variable {κ : Type} [LinearOrder κ] {cols : List ColMeta} {next : Int}

/-- The pages that `create_index` writes are a tree without entries. -/
theorem tree_created (hcols : IxManager.Accepted cols) (hnext : ixInitNumPages ≤ next) :
    (IxFile.created (κ := κ) (IxFileHdr.create cols) next).Tree [ixInitRootPage] [] ∧
      (IxFile.created (κ := κ) (IxFileHdr.create cols) next).entries [ixInitRootPage] = [] := by
  obtain ⟨f, hf⟩ : ∃ f, IxFile.created (κ := κ) (IxFileHdr.create cols) next = f := ⟨_, rfl⟩
  have hnode : f.node ixInitRootPage = ⟨ixNoPage, true, ixLeafHeaderPage, ixLeafHeaderPage, []⟩ := by
    simp [← hf, IxFile.node, IxFile.created]
  have hheader : f.node ixLeafHeaderPage = ⟨ixNoPage, true, ixInitRootPage, ixInitRootPage, []⟩ := by
    simp [← hf, IxFile.node, IxFile.created, ixInitRootPage, ixLeafHeaderPage]
  have hpairs : f.pairs ixInitRootPage = [] := congrArg IxNode.pairs hnode
  have hE : f.entries [ixInitRootPage] = [] := by simp [IxFile.entries, hpairs]
  have hhas : f.Has ixInitRootPage ∧ f.Has ixLeafHeaderPage := by
    simp [← hf, IxFile.Has, IxFile.created, ixInitRootPage, ixLeafHeaderPage]
  have horder : 3 ≤ f.fileHdr.btreeOrder := by
    have hbound := (IxManager.ixBtreeOrder_bounds hcols.colTotLen_nonneg hcols.2).2.1
    rw [← hcols.ixColTotLen_eq] at hbound
    rw [← hf]
    show 3 ≤ (ixBtreeOrder (ixColTotLen cols)).toNat
    omega
  have hlt : ixInitRootPage < f.nextPage := by
    rw [← hf]
    exact Int.lt_of_lt_of_le (by decide) hnext
  have hhdr : f.fileHdr.rootPage = ixInitRootPage ∧ f.fileHdr.firstLeaf = ixInitRootPage ∧
      f.fileHdr.lastLeaf = ixInitRootPage ∧ f.fileHdr.numPages = ixInitNumPages := by
    rw [← hf]
    exact ⟨rfl, rfl, rfl, rfl⟩
  rw [hf]
  refine ⟨?_, hE⟩
  exact {
    order := horder
    above := ⟨ixInitRootPage, rfl, hhdr.1, congrArg IxNode.parent hnode⟩
    nodup := by simp
    live := by
      intro p hp
      obtain rfl : p = ixInitRootPage := by simpa using hp
      exact ⟨hhas.1, Int.le_refl _, hlt⟩
    header := hhas.2
    leafOk := by
      intro p hp
      obtain rfl := List.mem_singleton.1 hp
      exact ⟨congrArg IxNode.isLeaf hnode, by simp [hpairs], by simp⟩
    chain := List.isChain_cons_cons.2 ⟨⟨congrArg IxNode.nextLeaf hheader, congrArg IxNode.prevLeaf hnode⟩,
      List.isChain_cons_cons.2 ⟨⟨congrArg IxNode.nextLeaf hnode, congrArg IxNode.prevLeaf hheader⟩, .singleton _⟩⟩
    firstLeaf := by rw [hhdr.2.1]; rfl
    lastLeaf := by rw [hhdr.2.2.1]; rfl
    sorted := by simp [hE]
    numPages := hhdr.2.2.2 }

/-- **From a new index on, every sequence of calls answers as on a map.** -/
theorem leadsTo_performAll_created (hcols : IxManager.Accepted cols) (hnext : ixInitNumPages ≤ next)
    (calls : List (IndexCall κ)) {fuel : Nat} (hfuel : calls.length < fuel) :
    ∃ f leaves ups, IxIndexHandle.LeadsTo (IndexCall.performAll fuel calls)
        (IxFile.created (IxFileHdr.create cols) next) (IndexCall.meanings (fun _ => none) calls).1 f ∧
      f.Tree leaves ups ∧ Lists (f.entries leaves) (IndexCall.meanings (fun _ => none) calls).2 ∧
      (f.entries leaves).length ≤ calls.length := by
  obtain ⟨ht, hE⟩ := tree_created (κ := κ) hcols hnext
  have hbound : ((IxFile.created (κ := κ) (IxFileHdr.create cols) next).entries [ixInitRootPage]).length +
      calls.length < fuel := by
    rw [hE]
    simpa using hfuel
  have hrun := ht.leadsTo_performAll (hE ▸ lists_nil) hbound
  simpa only [hE, List.length_nil, Nat.zero_add] using hrun

end created

/-! ## Keys by `ix_compare` -/

section exact
variable {S : ExactCols} {next : Int}

/-- The state of a new index; `next` is the next page number of its descriptor. -/
def newIndex (S : ExactCols) (next : Int) : IxIndexHandle S.Key :=
  IxIndexHandle.opened (IxFile.created (IxFileHdr.create S.cols) next) []

variable (hcols : IxManager.Accepted S.cols) (hnext : ixInitNumPages ≤ next) (calls : List (IndexCall S.Key))
include hcols hnext

/-- What a new index is after some calls. -/
theorem exists_run_newIndex {fuel : Nat} (hfuel : calls.length < fuel) : ∃ s f leaves ups,
    (IndexCall.performAll fuel calls).run (newIndex S next) = (.ok (IndexCall.meanings (fun _ => none) calls).1, s) ∧
      IxIndexHandle.Shows s f ∧ f.Tree leaves ups ∧
      Lists (f.entries leaves) (IndexCall.meanings (fun _ => none) calls).2 ∧
      (f.entries leaves).length ≤ calls.length := by
  obtain ⟨f, leaves, ups, hlead, hrest⟩ := leadsTo_performAll_created hcols hnext calls hfuel
  obtain ⟨s, hrun, hs⟩ := hlead (newIndex S next) ⟨rfl, rfl⟩
  exact ⟨s, f, leaves, ups, hrun, hs, hrest⟩

/-- **An index answers like a map**, for every sequence of calls. -/
theorem performAll_newIndex {fuel : Nat} (hfuel : calls.length < fuel) :
    ((IndexCall.performAll fuel calls).run (newIndex S next)).1 =
      .ok (IndexCall.meanings (fun _ => none) calls).1 := by
  obtain ⟨s, f, leaves, ups, hrun, -⟩ := exists_run_newIndex hcols hnext calls hfuel
  rw [hrun]

/-- **The shape of an index**, after every sequence of calls: a balanced tree, whose depth is logarithmic. -/
theorem shape_newIndex {fuel : Nat} (hfuel : calls.length < fuel) :
    ∃ leaves ups, ((IndexCall.performAll fuel calls).run (newIndex S next)).2.file.Tree leaves ups ∧
      (ups ≠ [] → 2 * ((IndexCall.performAll fuel calls).run (newIndex S next)).2.file.minSize ^ ups.length ≤
        (((IndexCall.performAll fuel calls).run (newIndex S next)).2.file.entries leaves).length) := by
  obtain ⟨s, f, leaves, ups, hrun, ⟨rfl, -⟩, ht, -, -⟩ := exists_run_newIndex hcols hnext calls hfuel
  rw [hrun]
  exact ⟨leaves, ups, ht, ht.pow_le⟩

end exact

/-- Keys over one INT column. -/
def intCols : ExactCols where
  cols := [⟨"t", "a", .int, 4, 0⟩]
  exact := by
    intro col hcol
    rw [List.mem_singleton.1 hcol]
    exact ⟨nofun, rfl⟩

theorem accepted_intCols : IxManager.Accepted intCols.cols := by
  constructor
  · simp [intCols]
  · decide

/-- The key of a number. -/
def intKey (i : Int) : intCols.Key := ⟨intBytes i, by simp [intBytes, keyLen, intCols]⟩

/-- An entry is found until it is deleted. -/
theorem performAll_newIndex_one : ((IndexCall.performAll 5 [.insertEntry (intKey 1) ⟨1, 0⟩, .getValue (intKey 1),
    .deleteEntry (intKey 1), .deleteEntry (intKey 1)]).run (newIndex intCols 3)).1 =
      .ok [.inserted, .value (some ⟨1, 0⟩), .deleted true, .deleted false] := by
  rw [performAll_newIndex accepted_intCols (by decide) _ (by decide)]
  simp [IndexCall.meanings, IndexCall.meaning]

theorem shape_newIndex_one : ∃ leaves ups, ((IndexCall.performAll 2 [.insertEntry (intKey 1) ⟨1, 0⟩]).run
    (newIndex intCols 3)).2.file.Tree leaves ups := by
  obtain ⟨leaves, ups, ht, -⟩ := shape_newIndex accepted_intCols (show ixInitNumPages ≤ 3 by decide)
    [.insertEntry (intKey 1) ⟨1, 0⟩] (Nat.lt_succ_self 1)
  exact ⟨leaves, ups, ht⟩

end Rmdb
