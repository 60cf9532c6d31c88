import Rmdb.Index.Tree

/-!
# Insertion keeps the tree

- `grow`, `plant`: what the two branches of `insert_into_parent` write;
- `leadsTo_insertIntoParent`: a new node next to an old one is taken up by the levels above, by induction on them. What
  the levels below see of it is `Grown`;
- `Tree.insertEntry`: `insert_entry` adds the entry when its key is absent.
-/

namespace Rmdb

open Lib

namespace IxFile

variable {κ : Type} (f : IxFile κ)

/-- A new root over the nodes `p` and `q`. -/
def grow (p q : Int) (a b : κ) : IxFile κ :=
  let r := f.nextPage
  let g := f.create.setNode r ⟨ixNoPage, false, 0, 0, [(a, ⟨p, -1⟩), (b, ⟨q, -1⟩)]⟩
  let g := g.setHdr { g.fileHdr with rootPage := r }
  let g := g.setNode p { g.node p with parent := r }
  g.setNode q { g.node q with parent := r }

/-- The node `q` entered behind the first `i` children of `P`. -/
def plant (P q : Int) (i : Nat) (k : κ) : IxFile κ :=
  let g := f.setNode P { f.node P with pairs := (f.pairs P).take i ++ [(k, ⟨q, -1⟩)] ++ (f.pairs P).drop i }
  g.setNode q { g.node q with parent := P }

section grow
variable {p q : Int} {a b : κ}

theorem pairs_grow : (f.grow p q a b).pairs =
    Function.update f.pairs f.nextPage [(a, ⟨p, -1⟩), (b, ⟨q, -1⟩)] := by
  simp [grow]

theorem parent_grow : (f.grow p q a b).parent = Function.update (Function.update (Function.update f.parent f.nextPage
    ixNoPage) p f.nextPage) q f.nextPage := by
  simp [grow]

theorem isLeaf_grow : (f.grow p q a b).isLeaf = Function.update f.isLeaf f.nextPage false := by
  simp [grow]

theorem prevLeaf_grow : (f.grow p q a b).prevLeaf = Function.update f.prevLeaf f.nextPage 0 := by
  simp [grow]

theorem nextLeaf_grow : (f.grow p q a b).nextLeaf = Function.update f.nextLeaf f.nextPage 0 := by
  simp [grow]

@[simp] theorem fileHdr_grow : (f.grow p q a b).fileHdr =
    { f.fileHdr with numPages := f.fileHdr.numPages + 1, rootPage := f.nextPage } := rfl

@[simp] theorem nextPage_grow : (f.grow p q a b).nextPage = f.nextPage + 1 := rfl

theorem has_grow {r : Int} : (f.grow p q a b).Has r ↔ r = q ∨ r = p ∨ r = f.nextPage ∨ f.Has r := by
  simp [grow, has_setNode, has_setHdr, has_create]

theorem pages_grow {r : Int} (hp : r ≠ p) (hq : r ≠ q) (hn : r ≠ f.nextPage) :
    (f.grow p q a b).pages r = f.pages r := by
  rw [grow, pages_setNode_of_ne _ _ _ hq, pages_setNode_of_ne _ _ _ hp, pages_setHdr, pages_setNode_of_ne _ _ _ hn,
    pages_create_of_ne _ hn]

end grow

section plant
variable {P q : Int} {i : Nat} {k : κ}

theorem pairs_plant : (f.plant P q i k).pairs =
    Function.update f.pairs P ((f.pairs P).take i ++ [(k, ⟨q, -1⟩)] ++ (f.pairs P).drop i) := by
  simp [plant]

@[simp] theorem parent_plant : (f.plant P q i k).parent = Function.update f.parent q P := by simp [plant]
@[simp] theorem isLeaf_plant : (f.plant P q i k).isLeaf = f.isLeaf := by simp [plant]
@[simp] theorem prevLeaf_plant : (f.plant P q i k).prevLeaf = f.prevLeaf := by simp [plant]
@[simp] theorem nextLeaf_plant : (f.plant P q i k).nextLeaf = f.nextLeaf := by simp [plant]
@[simp] theorem fileHdr_plant : (f.plant P q i k).fileHdr = f.fileHdr := rfl
@[simp] theorem nextPage_plant : (f.plant P q i k).nextPage = f.nextPage := rfl
@[simp] theorem maxSize_plant : (f.plant P q i k).maxSize = f.maxSize := rfl

theorem has_plant {r : Int} : (f.plant P q i k).Has r ↔ r = q ∨ r = P ∨ f.Has r := by
  simp [plant, has_setNode]

theorem pages_plant {r : Int} (hP : r ≠ P) (hq : r ≠ q) : (f.plant P q i k).pages r = f.pages r := by
  rw [plant, pages_setNode_of_ne _ _ _ hq, pages_setNode_of_ne _ _ _ hP]

end plant

/-! ## The levels after a step -/

variable {f}

section step
variable {up low A B : List Int} {ups : List (List Int)} {p q : Int} {k : κ}

/-- The node `q` to the right of `p` is taken up by the level above: the parent of `p`, with its entry of `p`. -/
theorem exists_plant (h : f.Above (A ++ p :: B) (up :: ups))
    (hn : (q :: (A ++ p :: B) ++ (up :: ups).flatten).Nodup) (hq : f.first q = some k) :
    ∃ A' P B' X e Y, up = A' ++ P :: B' ∧ f.pairs P = X ++ e :: Y ∧ IxNode.child e = p ∧
      (∀ x ∈ X, IxNode.child x ≠ p) ∧ f.parent p = P ∧
      (f.plant P q (X.length + 1) k).pairs P = X ++ e :: (k, ⟨q, -1⟩) :: Y ∧
      Linked Prod.fst IxNode.child (f.plant P q (X.length + 1) k).pairs (f.plant P q (X.length + 1) k).parent up
        (A ++ p :: q :: B) ∧
      (f.plant P q (X.length + 1) k).Above up ups := by
  obtain ⟨A', P, B', X, e, Y, rfl, hP, he, hA, hB, hpar⟩ := h.1.find
  rw [List.flatten_cons] at hn
  have hqlow : q ∉ A ++ p :: B ∧ q ∉ (A' ++ P :: B') ++ ups.flatten := by
    grind [List.nodup_append, List.nodup_cons]
  have hother : ∀ r, r ∈ A' ++ B' ∨ r ∈ ups.flatten → r ≠ P := by grind [List.nodup_append, List.nodup_cons]
  have hX : ∀ x ∈ X, IxNode.child x ≠ p := by
    intro x hx hxp
    have hpA : p ∈ A := by
      rw [hA, ← hxp]
      exact List.mem_map_of_mem (List.mem_append_right _ hx)
    grind [List.nodup_append, List.nodup_cons]
  have hpairs : (f.plant P q (X.length + 1) k).pairs =
      Function.update f.pairs P (X ++ e :: (k, ⟨q, -1⟩) :: Y) := by
    have hsplit : X ++ e :: Y = (X ++ [e]) ++ Y := by simp
    rw [pairs_plant, hP, hsplit, List.take_left' (by simp), List.drop_left' (by simp)]
    simp
  have hfirst : ∀ c, (f.plant P q (X.length + 1) k).first c = f.first c := by
    intro c
    by_cases hc : c = P
    · subst hc
      rw [first, first, firstKey, firstKey, hpairs, Function.update_self, hP]
      cases X <;> rfl
    · exact firstKey_congr (by rw [hpairs, Function.update_of_ne hc])
  have hparent : ∀ c, c ≠ q → (f.plant P q (X.length + 1) k).parent c = f.parent c := by
    intro c hc
    rw [parent_plant, Function.update_of_ne hc]
  refine ⟨A', P, B', X, e, Y, rfl, hP, he, hX, hpar, by simp [hpairs], ?_, ?_⟩
  · refine h.1.insert (n := (k, ⟨q, -1⟩)) hP hA hB he rfl (by simp [hpairs]) (fun r hr => ?_) (by simp)
      (fun c _ => hfirst c) ((hfirst q).trans hq) fun c hc => hparent c ?_
    · rw [hpairs, Function.update_of_ne (hother r (.inl hr))]
    · rintro rfl
      exact hqlow.1 hc
  · have hmem : ∀ r ∈ ups.flatten, (f.plant P q (X.length + 1) k).pairs r = f.pairs r := by
      intro r hr
      rw [hpairs, Function.update_of_ne (hother r (.inr hr))]
    refine h.2.2.congr hmem (fun c _ => hfirst c) (fun c hc => hparent c ?_) (fun b r hr hok => ?_) fun r hr hok => ?_
    · rintro rfl
      exact hqlow.2 hc
    · rw [InnerOk, hmem r hr, isLeaf_plant]
      exact hok
    · refine ⟨hok.1, ?_⟩
      rw [hparent r, hok.2]
      rintro rfl
      exact hqlow.2 hr

/-- The children of the right half of a node, as `split` writes them. -/
def moved (g : IxFile κ) (P : Int) : List Int := ((g.pairs P).drop ((g.pairs P).length / 2)).map IxNode.child

/-- The file after the split of an inner node. -/
def splitInner (g : IxFile κ) (P : Int) : IxFile κ := (g.cut P).adopt g.nextPage (g.moved P)

section splitInner
variable {g : IxFile κ} {P : Int}

theorem pairs_splitInner : (g.splitInner P).pairs = Function.update (Function.update g.pairs g.nextPage
    ((g.pairs P).drop ((g.pairs P).length / 2))) P ((g.pairs P).take ((g.pairs P).length / 2)) := by
  rw [splitInner, pairs_adopt, pairs_cut]

@[simp] theorem fileHdr_splitInner : (g.splitInner P).fileHdr =
    { g.fileHdr with numPages := g.fileHdr.numPages + 1 } := by
  rw [splitInner, fileHdr_adopt, fileHdr_cut]

@[simp] theorem nextPage_splitInner : (g.splitInner P).nextPage = g.nextPage + 1 := by
  rw [splitInner, nextPage_adopt, nextPage_cut]

@[simp] theorem minSize_splitInner : (g.splitInner P).minSize = g.minSize := by
  rw [minSize, maxSize, fileHdr_splitInner]
  rfl

theorem isLeaf_splitInner (hP : P ≠ g.nextPage) {c : Int} (hc : c ≠ g.nextPage) :
    (g.splitInner P).isLeaf c = g.isLeaf c := by
  rw [splitInner, isLeaf_adopt, isLeaf_cut hP, Function.update_of_ne hc]

theorem isLeaf_splitInner_new (hP : P ≠ g.nextPage) : (g.splitInner P).isLeaf g.nextPage = g.isLeaf P := by
  rw [splitInner, isLeaf_adopt, isLeaf_cut hP, Function.update_self]

theorem parent_splitInner (hP : P ≠ g.nextPage) {c : Int} (hc : c ≠ g.nextPage) (hm : c ∉ g.moved P) :
    (g.splitInner P).parent c = g.parent c := by
  rw [splitInner, parent_adopt, if_neg hm, parent_cut hP, Function.update_of_ne hc]

theorem head?_half {α : Type} {l : List α} (h : 2 ≤ l.length) : (l.take (l.length / 2)).head? = l.head? := by
  rw [List.head?_take, if_neg (by omega)]

theorem first_splitInner (hlen : 2 ≤ (g.pairs P).length) {c : Int} (hc : c ≠ g.nextPage) :
    (g.splitInner P).first c = g.first c := by
  by_cases h : c = P
  · subst h
    rw [first, first, firstKey, firstKey, pairs_splitInner, Function.update_self, head?_half hlen]
  · exact firstKey_congr (by rw [pairs_splitInner, Function.update_of_ne h, Function.update_of_ne hc])

/-- The split of an inner node: its level has one node more, and nothing changes for the levels around it. -/
theorem above_splitInner (hl : Linked Prod.fst IxNode.child g.pairs g.parent (A ++ P :: B) low)
    (ha : g.Above (A ++ P :: B) ups) (hn : (low ++ ((A ++ P :: B) ++ ups.flatten)).Nodup)
    (hlt : ∀ r ∈ low ++ ((A ++ P :: B) ++ ups.flatten), r < g.nextPage) (hlen : 2 ≤ (g.pairs P).length) :
    Linked Prod.fst IxNode.child (g.splitInner P).pairs (g.splitInner P).parent (A ++ P :: g.nextPage :: B) low ∧
      (g.splitInner P).Above (A ++ P :: B) ups := by
  have hneQ : ∀ r ∈ low ++ ((A ++ P :: B) ++ ups.flatten), r ≠ g.nextPage := fun r hr => Int.ne_of_lt (hlt r hr)
  have hPQ : P ≠ g.nextPage := hneQ P (by simp)
  have hlow : ∀ r ∈ low, r ≠ P := by grind [List.nodup_append, List.nodup_cons]
  have hother : ∀ r, r ∈ A ++ B ∨ r ∈ ups.flatten → r ≠ P := by grind [List.nodup_append, List.nodup_cons]
  have hsame : ∀ r, r ≠ P → r ≠ g.nextPage → (g.splitInner P).pairs r = g.pairs r := fun r hrP hrQ => by
    rw [pairs_splitInner, Function.update_of_ne hrP, Function.update_of_ne hrQ]
  have hPtake : (g.splitInner P).pairs P = (g.pairs P).take ((g.pairs P).length / 2) := by
    rw [pairs_splitInner, Function.update_self]
  have hQdrop : (g.splitInner P).pairs g.nextPage = (g.pairs P).drop ((g.pairs P).length / 2) := by
    rw [pairs_splitInner, Function.update_of_ne hPQ.symm, Function.update_self]
  have hAB : ∀ r ∈ A ++ B, (g.splitInner P).pairs r = g.pairs r := fun r hr =>
    hsame r (hother r (.inl hr)) (hneQ r (by grind))
  have hmoved : ∀ c ∈ g.moved P, c ∈ low := by
    intro c hc
    obtain ⟨e, he, rfl⟩ := List.mem_map.1 hc
    rw [← hl.children]
    exact List.mem_map_of_mem (List.mem_flatMap_of_mem (by simp) (List.mem_of_mem_drop he))
  refine ⟨hl.regroup ?_ (fun r hr e he => ?_) fun c hc => ?_, ha.congr (fun r hr => ?_) (fun c hc => ?_)
    (fun c hc => ?_) (fun b r hr hok => ?_) fun r hr hok => ?_⟩
  · have hA : A.flatMap (g.splitInner P).pairs = A.flatMap g.pairs :=
      List.flatMap_congr fun r hr => hAB r (List.mem_append_left _ hr)
    have hB : B.flatMap (g.splitInner P).pairs = B.flatMap g.pairs :=
      List.flatMap_congr fun r hr => hAB r (List.mem_append_right _ hr)
    simp only [List.flatMap_append, List.flatMap_cons, hA, hB, hPtake, hQdrop]
    rw [← List.append_assoc (List.take _ _), List.take_append_drop]
  · have hparts : (A.flatMap g.pairs).map IxNode.child ++ (((g.pairs P).take ((g.pairs P).length / 2)).map IxNode.child ++
        (g.moved P ++ (B.flatMap g.pairs).map IxNode.child)) = low := by
      rw [← hl.children]
      simp only [List.flatMap_append, List.flatMap_cons, List.map_append, moved]
      rw [← List.append_assoc (List.map _ (List.take _ _)), ← List.map_append, List.take_append_drop]
    have hnd : low.Nodup := (List.nodup_append.1 hn).1
    by_cases hrQ : r = g.nextPage
    · subst hrQ
      rw [hQdrop] at he
      have hm : IxNode.child e ∈ g.moved P := List.mem_map_of_mem he
      rw [splitInner, parent_adopt, if_pos hm]
    · -- the children that stay are not among those that move
      have hold : e ∈ g.pairs r ∧ IxNode.child e ∉ g.moved P := by
        rw [← hparts] at hnd
        rcases List.mem_append.1 hr with hr | hr
        · rw [hAB r (by simp [hr])] at he
          have := List.mem_map_of_mem (f := IxNode.child) (List.mem_flatMap_of_mem hr he)
          exact ⟨he, by grind [List.nodup_append]⟩
        · rcases List.mem_cons.1 hr with rfl | hr
          · rw [hPtake] at he
            have := List.mem_map_of_mem (f := IxNode.child) he
            exact ⟨List.mem_of_mem_take he, by grind [List.nodup_append]⟩
          · have hrB : r ∈ B := (List.mem_cons.1 hr).resolve_left hrQ
            rw [hAB r (by simp [hrB])] at he
            have := List.mem_map_of_mem (f := IxNode.child) (List.mem_flatMap_of_mem hrB he)
            exact ⟨he, by grind [List.nodup_append]⟩
      have hrl : r ∈ A ++ P :: B := by grind
      have hc : IxNode.child e ∈ low := by
        rw [← hl.children]
        exact List.mem_map_of_mem (List.mem_flatMap_of_mem hrl hold.1)
      rw [parent_splitInner hPQ (hneQ _ (List.mem_append_left _ hc)) hold.2, hl.parent r hrl e hold.1]
  · exact first_splitInner hlen (hneQ c (List.mem_append_left _ (List.mem_of_mem_tail hc)))
  · exact hsame r (hother r (.inr hr)) (hneQ r (by grind))
  · exact first_splitInner hlen (hneQ c (by have := List.mem_of_mem_tail hc; grind))
  · refine parent_splitInner hPQ (hneQ c (by grind)) fun hm => ?_
    have := hmoved c hm
    grind [List.nodup_append]
  · have hrQ := hneQ r (by grind)
    rw [InnerOk, hsame r (hother r (.inr hr)) hrQ, isLeaf_splitInner hPQ hrQ, minSize_splitInner, fileHdr_splitInner]
    exact hok
  · refine ⟨by rw [fileHdr_splitInner]; exact hok.1, ?_⟩
    rw [parent_splitInner hPQ (hneQ r (by grind)) fun hm => ?_, hok.2]
    have := hmoved r hm
    grind [List.nodup_append]

end splitInner

end step

/-- A page keeps all but its parent. -/
structure SameNode (f f' : IxFile κ) (r : Int) : Prop where
  pairs : f'.pairs r = f.pairs r
  isLeaf : f'.isLeaf r = f.isLeaf r
  prevLeaf : f'.prevLeaf r = f.prevLeaf r
  nextLeaf : f'.nextLeaf r = f.nextLeaf r

theorem SameNode.trans {f g h : IxFile κ} {r : Int} (hfg : f.SameNode g r) (hgh : g.SameNode h r) : f.SameNode h r :=
  ⟨hgh.pairs.trans hfg.pairs, hgh.isLeaf.trans hfg.isLeaf, hgh.prevLeaf.trans hfg.prevLeaf,
    hgh.nextLeaf.trans hfg.nextLeaf⟩

/-- What the levels from `low` down see when `q` is taken up by the levels `ups`, which become `ups'`. -/
structure Grown (f f' : IxFile κ) (q : Int) (low : List Int) (ups ups' : List (List Int)) : Prop where
  nextPage : f.nextPage ≤ f'.nextPage
  order : f'.fileHdr.btreeOrder = f.fileHdr.btreeOrder
  firstLeaf : f'.fileHdr.firstLeaf = f.fileHdr.firstLeaf
  lastLeaf : f'.fileHdr.lastLeaf = f.fileHdr.lastLeaf
  has : ∀ r, f.Has r → f'.Has r
  same : ∀ r, r < f.nextPage → r ∉ ups.flatten → f.SameNode f' r
  parent : ∀ r, r < f.nextPage → r ∉ q :: low ++ ups.flatten → f'.parent r = f.parent r
  nodup : ups'.flatten.Nodup
  fresh : ∀ r ∈ ups'.flatten, r ∈ ups.flatten ∨ f.nextPage ≤ r
  live : ∀ r ∈ ups'.flatten, f'.Live r
  numPages : f'.fileHdr.numPages + ups.flatten.length = f.fileHdr.numPages + ups'.flatten.length

section grown
variable {g g' f' : IxFile κ} {up low A B A' B' : List Int} {ups ups' : List (List Int)} {p q P : Int} {i : Nat} {k : κ}

theorem sameNode_plant {r : Int} (h : r ≠ P) : f.SameNode (f.plant P q i k) r :=
  ⟨by rw [pairs_plant, Function.update_of_ne h], by simp, by simp, by simp⟩

theorem sameNode_splitInner {r : Int} (hPQ : P ≠ g.nextPage) (hP : r ≠ P) (hQ : r ≠ g.nextPage) :
    g.SameNode (g.splitInner P) r :=
  ⟨by rw [pairs_splitInner, Function.update_of_ne hP, Function.update_of_ne hQ], isLeaf_splitInner hPQ hQ,
    by rw [splitInner, prevLeaf_adopt, prevLeaf_cut hPQ, Function.update_of_ne hQ],
    by rw [splitInner, nextLeaf_adopt, nextLeaf_cut hPQ, Function.update_of_ne hQ]⟩

theorem has_splitInner {r : Int} (h : r = g.nextPage ∨ g.Has r) : (g.splitInner P).Has r :=
  (has_adopt _ _ _).2 (.inr ((has_cut _ _).2 (.inr h)))

/-- The parent had room. -/
theorem grown_plant (hP : P ∈ ups.flatten) (hn : ups.flatten.Nodup) (hlive : ∀ r ∈ ups.flatten, f.Live r) :
    f.Grown (f.plant P q i k) q low ups ups where
  nextPage := Int.le_refl _
  order := rfl
  firstLeaf := rfl
  lastLeaf := rfl
  has r hr := (f.has_plant).2 (by simp [hr])
  same r _ hr := sameNode_plant fun heq => hr (heq ▸ hP)
  parent r _ hr := by
    rw [parent_plant, Function.update_of_ne fun heq => hr (by simp [heq])]
  nodup := hn
  fresh r hr := .inl hr
  live r hr := ⟨(f.has_plant).2 (by simp [(hlive r hr).1]), (hlive r hr).2⟩
  numPages := rfl

/-- The parent was split, and its right half taken up by the next levels. -/
theorem Grown.of_split (hg : f.Grown g q low ((A' ++ P :: B') :: ups) ((A' ++ P :: B') :: ups))
    (hgnext : g.nextPage = f.nextPage) (hgpages : g.fileHdr.numPages = f.fileHdr.numPages)
    (hmoved : ∀ c ∈ g.moved P, c ∈ q :: low)
    (hr : (g.splitInner P).Grown f' g.nextPage (A' ++ P :: B') ups ups')
    (hlt : ∀ r ∈ (A' ++ P :: B') ++ ups.flatten, r < f.nextPage) :
    f.Grown f' q low ((A' ++ P :: B') :: ups) ((A' ++ P :: g.nextPage :: B') :: ups') where
  nextPage := by
    have := hr.nextPage
    rw [nextPage_splitInner] at this
    omega
  order := by rw [hr.order, fileHdr_splitInner, hg.order]
  firstLeaf := by rw [hr.firstLeaf, fileHdr_splitInner, hg.firstLeaf]
  lastLeaf := by rw [hr.lastLeaf, fileHdr_splitInner, hg.lastLeaf]
  has r h := hr.has r (has_splitInner (.inr (hg.has r h)))
  same r hrn hmem := by
    rw [List.flatten_cons] at hmem
    have hPQ : P ≠ g.nextPage := by
      have := hlt P (by simp)
      omega
    refine ((hg.same r hrn (by simpa using hmem)).trans (sameNode_splitInner hPQ ?_ ?_)).trans (hr.same r ?_ ?_)
    · rintro rfl
      simp at hmem
    · omega
    · rw [nextPage_splitInner]
      omega
    · exact fun h => hmem (List.mem_append_right _ h)
  parent r hrn hmem := by
    rw [List.flatten_cons] at hmem
    have hPQ : P ≠ g.nextPage := by
      have := hlt P (by simp)
      omega
    rw [hr.parent r (by rw [nextPage_splitInner]; omega) (by grind), parent_splitInner hPQ (by omega) fun h => ?_,
      hg.parent r hrn (by simpa using hmem)]
    have := hmoved r h
    grind
  nodup := by
    have hn := hg.nodup
    have hn' := hr.nodup
    rw [List.flatten_cons] at hn ⊢
    have hup : ∀ r ∈ A' ++ P :: g.nextPage :: B', r ∈ A' ++ P :: B' ∨ r = g.nextPage := by grind
    have hQ : ∀ r ∈ (A' ++ P :: B') ++ ups.flatten, r < g.nextPage := fun r h => by
      rw [hgnext]
      exact hlt r h
    refine List.nodup_append.2 ⟨?_, hn', ?_⟩
    · have h1 := (List.nodup_append.1 hn).1
      have h2 : g.nextPage ∉ A' ++ P :: B' := fun h => Int.lt_irrefl _ (hQ _ (List.mem_append_left _ h))
      grind [List.nodup_append, List.nodup_cons]
    · rintro r hr1 _ hr2 rfl
      rcases hr.fresh r hr2 with h | h
      · rcases hup r hr1 with h1 | rfl
        · exact (List.nodup_append.1 hn).2.2 r h1 r h rfl
        · exact Int.lt_irrefl _ (hQ _ (List.mem_append_right _ h))
      · rw [nextPage_splitInner] at h
        rcases hup r hr1 with h1 | rfl
        · have := hQ r (List.mem_append_left _ h1)
          omega
        · omega
  fresh r h := by
    rw [List.flatten_cons] at h ⊢
    have := hr.fresh r
    rw [nextPage_splitInner, hgnext] at this
    have : r ∈ ups'.flatten → r ∈ ups.flatten ∨ f.nextPage ≤ r := fun h' => by
      rcases this h' with h | h
      · exact .inl h
      · exact .inr (by omega)
    grind
  live r h := by
    rw [List.flatten_cons] at h
    have hnext := hr.nextPage
    rw [nextPage_splitInner] at hnext
    have hold : ∀ r ∈ A' ++ P :: B', f'.Live r := fun r hm => by
      obtain ⟨hhas, h2, hl⟩ := hg.live r (List.mem_append_left _ hm)
      exact ⟨hr.has r (has_splitInner (.inr hhas)), h2, by omega⟩
    have hQ : f'.Live g.nextPage := by
      have := (hold P (by simp)).2.1
      have := hlt P (by simp)
      exact ⟨hr.has _ (has_splitInner (.inl rfl)), by omega, by omega⟩
    rcases List.mem_append.1 h with h | h
    · have : r ∈ A' ++ P :: B' ∨ r = g.nextPage := by grind
      rcases this with h | rfl
      · exact hold r h
      · exact hQ
    · exact hr.live r h
  numPages := by
    have := hr.numPages
    rw [fileHdr_splitInner] at this
    simp only [List.flatten_cons, List.length_append, List.length_cons, Int.natCast_add] at this ⊢
    omega

end grown

end IxFile

namespace IxIndexHandle

variable {κ : Type} {f f' : IxFile κ} {p q P : Int} {k : κ} {fuel : Nat}

/-- The first branch of `insert_into_parent`. -/
theorem leadsTo_insertIntoParent_root {e : κ × Rid} (hroot : f.parent p = ixNoPage) (he : (f.pairs p)[0]? = some e)
    (hp : p ≠ f.nextPage) (hmax : 2 ≤ f.maxSize) :
    LeadsTo (insertIntoParent (fuel + 1) p k q) f () (f.grow p q e.1 k) := by
  refine Act.Leads.bind leadsTo_getNode ?_
  rw [if_pos (by simpa using hroot)]
  refine Act.Leads.bind leadsTo_createNode (Act.Leads.bind leadsTo_modifyNode (Act.Leads.bind
    (leadsTo_pairAt (e := e) (by simp [hp, he])) (Act.Leads.bind (leadsTo_insertPairs (by simp) ?_) (Act.Leads.bind
    (leadsTo_insertPairs (by simp) ?_) (Act.Leads.bind leadsTo_modifyHdr (Act.Leads.bind leadsTo_modifyNode
    (Act.Leads.bind leadsTo_modifyNode ?_)))))))
  · simp
    omega
  · simp
    omega
  · convert leadsTo_unpinPage Act.Leads.pure using 1
    simp [IxFile.grow, IxFile.setNode_setNode]

section inner
variable {e : κ × Rid} {X Y : List (κ × Rid)} (hP : f.parent p = P) (hne : P ≠ ixNoPage) (hhas : f.Has P)
  (hpairs : f.pairs P = X ++ e :: Y) (he : IxNode.child e = p) (hX : ∀ x ∈ X, IxNode.child x ≠ p)
  (hle : (f.pairs P).length < f.maxSize)
include hP hne hhas hpairs he hX hle

/-- The second branch of `insert_into_parent`, up to the question whether the parent is full. -/
theorem leadsTo_insertIntoParent_inner
    (hx : ∀ s, Shows s (f.plant P q (X.length + 1) k) →
      LeadsTo (if s.file.maxSize ≤ (s.file.node P).size then do
          let newParent ← split P
          let first ← pairAt newParent 0
          insertIntoParent fuel P first.1 newParent
          let _ ← unpinPage newParent
        else pure ()) (f.plant P q (X.length + 1) k) () f') :
    LeadsTo (insertIntoParent (fuel + 1) p k q) f () f' := by
  refine Act.Leads.bind leadsTo_getNode ?_
  rw [IxFile.node_parent, hP, if_neg hne]
  refine Act.Leads.bind (leadsTo_fetchNode hhas) (Act.Leads.bind (leadsTo_findChild hpairs he hX)
    (Act.Leads.bind (leadsTo_insertPairs (by simp [hpairs]) hle) (Act.Leads.bind leadsTo_modifyNode
    (Act.Leads.bind leadsTo_touch (Act.Leads.get_bind fun s hs => Act.Leads.bind (hx s ?_)
    (leadsTo_unpinPage Act.Leads.pure))))))
  exact hs

/-- The parent has room. -/
theorem leadsTo_insertIntoParent_room
    (hroom : ((f.plant P q (X.length + 1) k).pairs P).length < f.maxSize) :
    LeadsTo (insertIntoParent (fuel + 1) p k q) f () (f.plant P q (X.length + 1) k) := by
  refine leadsTo_insertIntoParent_inner hP hne hhas hpairs he hX hle fun s hs => ?_
  rw [hs.1, IxFile.node_size, IxFile.maxSize_plant, if_neg (Nat.not_le.2 hroom)]
  exact Act.Leads.pure

/-- The parent is split, and the new node goes to the next level. -/
theorem leadsTo_insertIntoParent_full {g : IxFile κ} {Q : Int} {e' : κ × Rid}
    (hfull : f.maxSize ≤ ((f.plant P q (X.length + 1) k).pairs P).length)
    (hs : LeadsTo (split P) (f.plant P q (X.length + 1) k) Q g) (he' : (g.pairs Q)[0]? = some e')
    (hrec : LeadsTo (insertIntoParent fuel P e'.1 Q) g () f') :
    LeadsTo (insertIntoParent (fuel + 1) p k q) f () f' := by
  refine leadsTo_insertIntoParent_inner hP hne hhas hpairs he hX hle fun s hs' => ?_
  rw [hs'.1, IxFile.node_size, IxFile.maxSize_plant, if_pos hfull]
  exact Act.Leads.bind hs (Act.Leads.bind (leadsTo_pairAt he') (Act.Leads.bind hrec
    (leadsTo_unpinPage Act.Leads.pure)))

end inner

/-! ## The levels above -/

section above
variable {low A B : List Int} {ups : List (List Int)}

/-- `insert_into_parent` returns, and the levels above `p` have taken up `q`. -/
def TakesUp (fuel : Nat) (f : IxFile κ) (A : List Int) (p q : Int) (B : List Int) (k : κ) (ups : List (List Int)) :
    Prop :=
  ∃ f' ups', LeadsTo (insertIntoParent fuel p k q) f () f' ∧ f'.Above (A ++ p :: q :: B) ups' ∧
    f.Grown f' q (A ++ p :: B) ups ups'

theorem takesUp_root (hord : 3 ≤ f.fileHdr.btreeOrder) (h : f.Above (A ++ p :: B) [])
    (hpq : p ≠ q) (hp : f.Live p) (hq : f.Live q) (hne : f.pairs p ≠ []) (hk : f.first q = some k) :
    TakesUp (fuel + 1) f A p q B k [] := by
  obtain ⟨r, hr, hroot⟩ := h
  obtain ⟨rfl, rfl, rfl⟩ : A = [] ∧ B = [] ∧ p = r := by
    cases A with
    | nil => simpa [and_comm] using hr
    | cons a A => simp at hr
  obtain ⟨e, l, hl⟩ := List.exists_cons_of_ne_nil hne
  have hpn : p ≠ f.nextPage := Int.ne_of_lt hp.2.2
  have hqn : q ≠ f.nextPage := Int.ne_of_lt hq.2.2
  refine ⟨_, [[f.nextPage]], leadsTo_insertIntoParent_root (e := e) hroot.2 (by simp [hl]) hpn ?_, ?_, ?_⟩
  · simp only [IxFile.maxSize]
    omega
  · refine ⟨⟨?_, ?_, ?_⟩, ?_, f.nextPage, rfl, rfl, ?_⟩
    · simp [IxFile.pairs_grow, IxNode.child]
    · simp only [forall_eq, IxFile.pairs_grow, Function.update_self, List.mem_cons,
        List.not_mem_nil, or_false, IxFile.parent_grow]
      rintro e (rfl | rfl) <;> simp [IxNode.child, hpq]
    · simpa [IxFile.pairs_grow, IxNode.child, firstKey, hqn] using hk
    · simp [IxFile.InnerOk, IxFile.pairs_grow, IxFile.isLeaf_grow]
      omega
    · simp [IxFile.parent_grow, hpn.symm, hqn.symm]
  · refine ⟨by rw [IxFile.nextPage_grow]; omega, rfl, rfl, rfl, fun r hr => (f.has_grow).2 (by simp [hr]), fun r hr _ => ?_,
      fun r hr hmem => ?_, by simp, by simp, ?_, by simp⟩
    · have hrn : r ≠ f.nextPage := Int.ne_of_lt hr
      exact ⟨by simp [IxFile.pairs_grow, hrn], by simp [IxFile.isLeaf_grow, hrn], by simp [IxFile.prevLeaf_grow, hrn],
        by simp [IxFile.nextLeaf_grow, hrn]⟩
    · have hrn : r ≠ f.nextPage := Int.ne_of_lt hr
      simp only [List.nil_append, List.mem_append, List.mem_cons, List.flatten_nil, List.not_mem_nil, or_false,
        not_or] at hmem
      simp [IxFile.parent_grow, hrn, hmem.1, hmem.2]
    · simp only [List.flatten_cons, List.flatten_nil, List.append_nil, List.mem_singleton, forall_eq]
      have := hp.2.1
      have := hp.2.2
      exact ⟨(f.has_grow).2 (by simp), by omega, by rw [IxFile.nextPage_grow]; omega⟩

/-- **A new node is taken up by the levels above.** -/
theorem takesUp (hord : 3 ≤ f.fileHdr.btreeOrder) (hfuel : ups.length < fuel) (h : f.Above (A ++ p :: B) ups)
    (hn : (q :: (A ++ p :: B) ++ ups.flatten).Nodup) (hlive : ∀ r ∈ q :: (A ++ p :: B) ++ ups.flatten, f.Live r)
    (hne : f.pairs p ≠ []) (hk : f.first q = some k) : TakesUp fuel f A p q B k ups := by
  induction ups generalizing f fuel A p q B k with
  | nil =>
    obtain ⟨n, rfl⟩ : ∃ n, fuel = n + 1 := ⟨fuel - 1, by simp at hfuel; omega⟩
    have hpq : p ≠ q := by
      rintro rfl
      simp at hn
    exact takesUp_root hord h hpq (hlive p (by simp)) (hlive q (by simp)) hne hk
  | cons up ups ih =>
    obtain ⟨n, rfl⟩ : ∃ n, fuel = n + 1 := ⟨fuel - 1, by simp at hfuel; omega⟩
    obtain ⟨A', P, B', X, e, Y, rfl, hP, he, hX, hpar, hPg, hl, ha⟩ := IxFile.exists_plant h hn hk
    generalize hg : f.plant P q (X.length + 1) k = g at hPg hl ha
    have hPlive : f.Live P := hlive P (by simp)
    have hPne : P ≠ ixNoPage := by
      have := hPlive.2.1
      simp only [ixInitRootPage, ixNoPage] at this ⊢
      omega
    have hPok := h.2.1 P (by simp)
    have hmax : (f.pairs P).length < f.maxSize := Nat.lt_succ_of_le hPok.2.1
    have hlen : (g.pairs P).length = (f.pairs P).length + 1 := by
      rw [hPg, hP]
      simp
      omega
    have hnup : ((A' ++ P :: B') :: ups).flatten.Nodup := (List.nodup_append.1 hn).2.1
    have hgrown : f.Grown g q (A ++ p :: B) ((A' ++ P :: B') :: ups) ((A' ++ P :: B') :: ups) := by
      subst hg
      exact IxFile.grown_plant (by simp) hnup fun r hr => hlive r (List.mem_append_right _ hr)
    have hsame : ∀ r, r ≠ P → f.SameNode g r := fun r hr => by
      subst hg
      exact IxFile.sameNode_plant hr
    have hgnext : g.nextPage = f.nextPage := by rw [← hg]; rfl
    have hgmin : g.minSize = f.minSize := by rw [← hg]; rfl
    have hPleaf : g.isLeaf P = false := by
      rw [← hg, IxFile.isLeaf_plant]
      exact hPok.1
    by_cases hroom : (g.pairs P).length < f.maxSize
    · refine ⟨g, (A' ++ P :: B') :: ups, ?_, ⟨hl, fun r hr => ?_, ha⟩, hgrown⟩
      · subst hg
        exact leadsTo_insertIntoParent_room hpar hPne hPlive.1 hP he hX hmax hroom
      · by_cases hrP : r = P
        · subst hrP
          refine ⟨hPleaf, ?_, ?_⟩
          · rw [hgrown.order]
            exact Nat.le_of_lt_succ hroom
          · have := hPok.2.2
            rw [hgmin]
            omega
        · rw [IxFile.InnerOk, (hsame r hrP).pairs, (hsame r hrP).isLeaf, hgrown.order, hgmin]
          exact h.2.1 r hr
    · -- the parent is split
      have hfull : f.maxSize ≤ (g.pairs P).length := Nat.not_lt.1 hroom
      have hlow : ∀ e ∈ g.pairs P, IxNode.child e ∈ A ++ p :: q :: B := fun e he => by
        rw [← hl.children]
        exact List.mem_map_of_mem (List.mem_flatMap_of_mem (by simp) he)
      have hltlow : ∀ r ∈ (A ++ p :: q :: B) ++ ((A' ++ P :: B') ++ ups.flatten), r < g.nextPage := fun r hr => by
        rw [hgnext]
        exact (hlive r (by simp only [List.flatten_cons]; grind)).2.2
      have hnlow : ((A ++ p :: q :: B) ++ ((A' ++ P :: B') ++ ups.flatten)).Nodup := by
        rw [List.flatten_cons] at hn
        have hperm : (A ++ p :: q :: B).Perm (q :: (A ++ p :: B)) := by
          have := @List.perm_middle _ q (A ++ [p]) B
          simpa using this
        exact ((hperm.append_right _).nodup_iff).2 hn
      have hmax4 : f.maxSize = f.fileHdr.btreeOrder + 1 := rfl
      have hPQ : P ≠ g.nextPage := by
        rw [hgnext]
        exact Int.ne_of_lt hPlive.2.2
      obtain ⟨hl', ha'⟩ := IxFile.above_splitInner hl ha hnlow hltlow (by omega)
      have hs : LeadsTo (split P) g g.nextPage (g.splitInner P) := by
        refine leadsTo_split_inner hPQ (by rw [IxFile.maxSize, hgrown.order]; omega) hPleaf fun e he => ?_
        exact hgrown.has _ (hlive _ (by have := hlow e he; grind)).1
      -- what the two halves hold
      have hPtake : (g.splitInner P).pairs P = (g.pairs P).take ((g.pairs P).length / 2) := by
        rw [IxFile.pairs_splitInner, Function.update_self]
      have hQdrop : (g.splitInner P).pairs g.nextPage = (g.pairs P).drop ((g.pairs P).length / 2) := by
        rw [IxFile.pairs_splitInner, Function.update_of_ne hPQ.symm, Function.update_self]
      obtain ⟨e', l, hQ⟩ : ∃ e' l, (g.splitInner P).pairs g.nextPage = e' :: l := by
        refine List.exists_cons_of_ne_nil (List.ne_nil_of_length_pos ?_)
        rw [hQdrop, List.length_drop]
        omega
      have hlt : ∀ r ∈ g.nextPage :: (A ++ p :: q :: B) ++ ((A' ++ P :: B') ++ ups.flatten),
          r < (g.splitInner P).nextPage := fun r hr => by
        rw [IxFile.nextPage_splitInner]
        have := hltlow r
        grind
      have hnQ : (g.nextPage :: (A' ++ P :: B') ++ ups.flatten).Nodup :=
        List.nodup_cons.2 ⟨fun h => Int.lt_irrefl _ (hltlow _ (List.mem_append_right _ h)),
          (List.nodup_append.1 hnlow).2.1⟩
      have hliveQ : ∀ r ∈ g.nextPage :: (A' ++ P :: B') ++ ups.flatten, (g.splitInner P).Live r := fun r hr => by
        rcases List.mem_cons.1 hr with rfl | hr
        · have := hPlive.2
          refine ⟨IxFile.has_splitInner (.inl rfl), by omega, ?_⟩
          rw [IxFile.nextPage_splitInner]
          omega
        · have hrl := hlive r (List.mem_append_right _ hr)
          refine ⟨IxFile.has_splitInner (.inr (hgrown.has r hrl.1)), hrl.2.1, hlt r ?_⟩
          exact List.mem_append_right _ hr
      have hPne' : (g.splitInner P).pairs P ≠ [] := by
        refine List.ne_nil_of_length_pos ?_
        rw [hPtake, List.length_take]
        omega
      obtain ⟨f', ups', hlead, hab, hgr⟩ := ih (f := g.splitInner P) (A := A') (p := P) (q := g.nextPage) (B := B')
        (k := e'.1) (by rw [IxFile.fileHdr_splitInner, hgrown.order]; exact hord)
        (by simpa using hfuel) ha' hnQ hliveQ hPne' (by simp [firstKey, hQ])
      have hups : ups'.isEmpty = false := by simpa using IxFile.Above.ne_nil hab
      have hkeep : ∀ r ∈ (A ++ p :: q :: B) ++ (A' ++ P :: g.nextPage :: B'), (g.splitInner P).SameNode f' r := by
        intro r hr
        refine hgr.same r (hlt r (by grind)) fun hu => ?_
        rcases List.mem_append.1 hr with hr | hr
        · exact (List.nodup_append.1 hnlow).2.2 r hr r (List.mem_append_right _ hu) rfl
        · have := (List.nodup_append.1 hnQ).2.2 r (by grind) r hu
          exact this rfl
      refine ⟨f', (A' ++ P :: g.nextPage :: B') :: ups', ?_, ⟨?_, fun r hr => ?_, hab⟩, ?_⟩
      · subst hg
        exact leadsTo_insertIntoParent_full hpar hPne hPlive.1 hP he hX hmax hfull hs (by rw [hQ]; rfl) hlead
      · refine hl'.congr (fun r hr => (hkeep r (List.mem_append_right _ hr)).pairs) (fun c hc => ?_) fun c hc => ?_
        · exact firstKey_congr (hkeep c (List.mem_append_left _ (List.mem_of_mem_tail hc))).pairs
        · refine hgr.parent c (hlt c (List.mem_append_left _ (List.mem_cons_of_mem _ hc))) fun hu => ?_
          rcases List.mem_cons.1 hu with rfl | hu
          · exact Int.lt_irrefl _ (hltlow _ (List.mem_append_left _ hc))
          · exact (List.nodup_append.1 hnlow).2.2 c hc c hu rfl
      · have hk := hkeep r (List.mem_append_right _ hr)
        have hord' : f'.fileHdr.btreeOrder = f.fileHdr.btreeOrder := by
          rw [hgr.order, IxFile.fileHdr_splitInner, hgrown.order]
        have hmin : f'.minSize = (f.fileHdr.btreeOrder + 1) / 2 := by rw [IxFile.minSize, IxFile.maxSize, hord']
        have := hPok.2.1
        rw [hups, IxFile.InnerOk, hk.pairs, hk.isLeaf, hord', hmin]
        by_cases hrP : r = P
        · subst hrP
          rw [hPtake, List.length_take, IxFile.isLeaf_splitInner hPQ hPQ]
          exact ⟨hPleaf, by omega, by simp; omega⟩
        · by_cases hrQ : r = g.nextPage
          · subst hrQ
            rw [hQdrop, List.length_drop, IxFile.isLeaf_splitInner_new hPQ]
            exact ⟨hPleaf, by omega, by simp; omega⟩
          · have hs' := IxFile.sameNode_splitInner hPQ hrP hrQ
            rw [hs'.pairs, hs'.isLeaf, (hsame r hrP).pairs, (hsame r hrP).isLeaf]
            have hrup : r ∈ A' ++ P :: B' := by grind
            have hne' : ups.isEmpty = false := by
              rw [List.isEmpty_eq_false_iff]
              rintro rfl
              exact hrP (IxFile.Above.eq_of_nil h.2.2 hrup (by simp))
            have hok := h.2.1 r hrup
            rw [hne'] at hok
            exact hok
      · refine hgrown.of_split hgnext (by rw [← hg]; rfl) (fun c hc => ?_) hgr fun r hr => ?_
        · obtain ⟨e, he, rfl⟩ := List.mem_map.1 hc
          have := hlow e (List.mem_of_mem_drop he)
          grind
        · exact (hlive r (List.mem_append_right _ hr)).2.2

end above

end IxIndexHandle

end Rmdb
