import Rmdb.Index.InsertEntry

/-!
# Underflow in the inner nodes

- `deal`, `absorb`: what `redistribute` and `coalesce` write to the nodes;
- `Edited`: a file with other pairs, and other parents below. `Edited.above` and `Edited.linked` say when the levels
  around the changed nodes are still linked;
- `shrinks`: `coalesce_or_redistribute` repairs a node that lost an entry, and all levels above it, by induction on
  them. What the levels below see of it is `Shrunk`.
-/

namespace Rmdb

open Lib

/-- A list with two elements. -/
theorem exists_cons_cons {α : Type*} {l : List α} (h : 2 ≤ l.length) : ∃ a b t, l = a :: b :: t := by
  obtain ⟨a, l, rfl⟩ := List.exists_cons_of_length_pos (l := l) (by omega)
  obtain ⟨b, t, rfl⟩ := List.exists_cons_of_length_pos (l := l) (by simp only [List.length_cons] at h; omega)
  exact ⟨a, b, t, rfl⟩

namespace IxFile

variable {κ : Type}

/-! ## Writes -/

section writes
variable (f : IxFile κ)

theorem setNode_comm {p q : Int} (h : p ≠ q) (m n : IxNode κ) :
    (f.setNode p m).setNode q n = (f.setNode q n).setNode p m := by
  simp only [setNode, Function.update_comm h]

theorem parent_setPairs {p : Int} {l : List (κ × Rid)} : (f.setPairs p l).parent = f.parent := by simp

/-- The pairs of two siblings and of their parent, with the children `cs` moved to `q`. -/
def deal (l r P q : Int) (L R E : List (κ × Rid)) (cs : List Int) : IxFile κ :=
  (((f.setPairs l L).setPairs r R).adopt q cs).setPairs P E

/-- A page less. -/
def release : IxFile κ := f.setHdr { f.fileHdr with numPages := f.fileHdr.numPages - 1 }

/-- A node that takes up its sibling with the children `cs`, and their parent. -/
def absorb (n P : Int) (M E : List (κ × Rid)) (cs : List Int) : IxFile κ :=
  (((f.setPairs n M).adopt n cs).setPairs P E).release

/-- The only child `c` of the root `p` in its place. -/
def collapse (p c : Int) : IxFile κ :=
  let g := (f.setPairs p []).adopt ixNoPage [c]
  (g.setHdr { g.fileHdr with rootPage := c }).release

end writes

/-- Pairs of nodes were written, and the children `cs` moved to `q`. -/
structure Edited (f f' : IxFile κ) (q : Int) (cs : List Int) : Prop where
  parent : ∀ r, f'.parent r = if r ∈ cs then q else f.parent r
  isLeaf : f'.isLeaf = f.isLeaf
  has : ∀ r, f.Has r → f'.Has r
  nextPage : f'.nextPage = f.nextPage
  order : f'.fileHdr.btreeOrder = f.fileHdr.btreeOrder
  rootPage : f'.fileHdr.rootPage = f.fileHdr.rootPage

section edited
variable {f f' : IxFile κ} {n l r P q : Int} {M L R E : List (κ × Rid)} {cs : List Int}

theorem pairs_deal : (f.deal l r P q L R E cs).pairs =
    Function.update (Function.update (Function.update f.pairs l L) r R) P E := by
  simp [deal]

theorem pairs_absorb : (f.absorb n P M E cs).pairs = Function.update (Function.update f.pairs n M) P E := by
  simp [absorb, release]

theorem edited_deal : f.Edited (f.deal l r P q L R E cs) q cs where
  parent r := by rw [deal, parent_setPairs, parent_adopt, parent_setPairs, parent_setPairs]
  isLeaf := by simp [deal]
  has r hr := by simp [deal, has_setNode, has_adopt, hr]
  nextPage := by simp [deal]
  order := by simp [deal]
  rootPage := by simp [deal]

theorem edited_absorb : f.Edited (f.absorb n P M E cs) n cs where
  parent r := by rw [absorb, release, parent_setHdr, parent_setPairs, parent_adopt, parent_setPairs]
  isLeaf := by simp [absorb, release]
  has r hr := by simp [absorb, release, has_setHdr, has_setNode, has_adopt, hr]
  nextPage := by simp [absorb, release]
  order := by simp [absorb, release]
  rootPage := by simp [absorb, release]

theorem Edited.minSize (h : f.Edited f' q cs) : f'.minSize = f.minSize := by
  rw [IxFile.minSize, IxFile.minSize, maxSize, maxSize, h.order]

theorem Edited.parent_eq (h : f.Edited f' q cs) {r : Int} (hr : r ∉ cs) : f'.parent r = f.parent r := by
  rw [h.parent, if_neg hr]

/-- The level below, when the entries of a level are only grouped anew. -/
theorem Edited.linked {low low' base : List Int} (h : f.Edited f' q cs)
    (hl : Linked Prod.fst IxNode.child f.pairs f.parent low base) (hcat : low'.flatMap f'.pairs = low.flatMap f.pairs)
    (hbase : base.Nodup) (hq : q ∈ low') (hsub : ∀ c ∈ low', c ∈ low)
    (hpairs : ∀ c ∈ low', ∀ x ∈ f'.pairs c, x ∈ f.pairs c ∨ c = q ∧ IxNode.child x ∈ cs)
    (hcs : ∀ c ∈ cs, ∃ x ∈ f'.pairs q, IxNode.child x = c) (hfirst : ∀ c ∈ base, f'.pairs c = f.pairs c) :
    Linked Prod.fst IxNode.child f'.pairs f'.parent low' base := by
  refine hl.regroup hcat (fun c hc x hx => ?_) fun c hc => ?_
  · rw [h.parent]
    by_cases hmoved : IxNode.child x ∈ cs
    · rw [if_pos hmoved]
      obtain ⟨y, hy, hxy⟩ := hcs _ hmoved
      have hnd : ((low'.flatMap f'.pairs).map IxNode.child).Nodup := by
        rw [hcat, hl.children]
        exact hbase
      exact eq_of_child_eq hnd hq hc hy hx hxy
    · rw [if_neg hmoved]
      rcases hpairs c hc x hx with hx | ⟨-, hx⟩
      · exact hl.parent c (hsub c hc) x hx
      · exact absurd hx hmoved
  · exact firstKey_congr (hfirst c (List.mem_of_mem_tail hc))

end edited

/-! ## Siblings -/

/-- Two neighbours of a level with their parent `P`, which has the entries `e` and `e'` of them. -/
structure Siblings (f : IxFile κ) (A' B' A B : List Int) (P l r : Int) (X Y : List (κ × Rid)) (e e' : κ × Rid) :
    Prop where
  pairs : f.pairs P = X ++ e :: e' :: Y
  left : IxNode.child e = l
  right : IxNode.child e' = r
  before : A = (A'.flatMap f.pairs ++ X).map IxNode.child
  behind : B = (Y ++ B'.flatMap f.pairs).map IxNode.child

section siblings
variable {f f' : IxFile κ} {A' B' A B up : List Int} {ups : List (List Int)} {p P l r q : Int}
  {X Y E : List (κ × Rid)} {e e' e₁ : κ × Rid} {cs : List Int}

/-- A node whose parent has two entries at least has a neighbour. -/
theorem exists_siblings (h : Linked Prod.fst IxNode.child f.pairs f.parent up (A ++ p :: B))
    (hlen : ∀ P ∈ up, 2 ≤ (f.pairs P).length) :
    ∃ A' P B', up = A' ++ P :: B' ∧ f.parent p = P ∧
      ((∃ r B₁ e e' Y, B = r :: B₁ ∧ f.Siblings A' B' A B₁ P p r [] Y e e') ∨
        ∃ A₁ l X e e' Y, A = A₁ ++ [l] ∧ f.Siblings A' B' A₁ B P l p X Y e e') := by
  obtain ⟨A', P, B', X, e, Y, rfl, hP, rfl, rfl, rfl, hpar⟩ := h.find
  refine ⟨A', P, B', rfl, hpar, ?_⟩
  cases X using List.reverseRecOn with
  | nil =>
    have := hlen P (by simp)
    cases Y with
    | nil => simp [hP] at this
    | cons e' Y =>
      left
      exact ⟨IxNode.child e', (Y ++ B'.flatMap f.pairs).map IxNode.child, e, e', Y, rfl, hP, rfl, rfl, rfl, rfl⟩
  | append_singleton X e₀ =>
    right
    refine ⟨(A'.flatMap f.pairs ++ X).map IxNode.child, IxNode.child e₀, X, e₀, e, Y, by simp, ?_, rfl, rfl, rfl, rfl⟩
    rw [hP]
    simp

/-- The level above two siblings when they and their entries in the parent are exchanged, and the levels above it. -/
theorem Edited.above (hed : f.Edited f' q cs) (h : f.Above (A ++ l :: r :: B) ((A' ++ P :: B') :: ups))
    (hs : f.Siblings A' B' A B P l r X Y e e')
    (hn : ((A ++ l :: r :: B) ++ ((A' ++ P :: B') ++ ups.flatten)).Nodup) (hne : ∀ p ∈ A', f.pairs p ≠ [])
    (hcs : ∀ c ∈ cs, c ∉ (A ++ l :: r :: B) ++ ((A' ++ P :: B') ++ ups.flatten))
    (hP : f'.pairs P = X ++ e₁ :: E ++ Y) (hother : ∀ c, c ≠ P → c ≠ l → c ≠ r → f'.pairs c = f.pairs c)
    (hchild : ∀ x ∈ e₁ :: E, IxNode.child x = l ∨ IxNode.child x = r)
    (hhead : A ≠ [] → e₁.1 = e.1 ∧ f'.first (IxNode.child e₁) = some e₁.1)
    (hE : ∀ x ∈ E, f'.first (IxNode.child x) = some x.1) :
    Linked Prod.fst IxNode.child f'.pairs f'.parent (A' ++ P :: B') (A ++ (e₁ :: E).map IxNode.child ++ B) ∧
      f'.Above (A' ++ P :: B') ups := by
  have hparent : ∀ c ∈ (A ++ l :: r :: B) ++ ((A' ++ P :: B') ++ ups.flatten), f'.parent c = f.parent c :=
    fun c hc => hed.parent_eq fun hmem => hcs c hmem hc
  have hsame : ∀ c, c ∈ A ++ B ∨ c ∈ A' ++ B' ∨ c ∈ ups.flatten → f'.pairs c = f.pairs c := by
    intro c hc
    refine hother c ?_ ?_ ?_ <;> grind [List.nodup_append, List.nodup_cons]
  have hlr : ∀ x : κ × Rid, IxNode.child x = l ∨ IxNode.child x = r → f'.parent (IxNode.child x) = P := by
    intro x hx
    rw [hparent _ (by grind)]
    have hmem : ∀ y ∈ [e, e'], f.parent (IxNode.child y) = P := fun y hy =>
      h.1.parent P (by simp) y (by rw [hs.pairs]; grind)
    rcases hx with hx | hx
    · rw [hx, ← hs.left]
      exact hmem e (by simp)
    · rw [hx, ← hs.right]
      exact hmem e' (by simp)
  refine ⟨?_, h.2.2.congr (fun c hc => hsame c (.inr (.inr hc))) (fun c hc => ?_) (fun c hc => ?_)
    (fun b c hc hok => ?_) fun c hc hok => ?_⟩
  · have hl := h.1
    have hlow : A ++ l :: r :: B = A ++ [e, e'].map IxNode.child ++ B := by simp [hs.left, hs.right]
    rw [hlow] at hl
    refine hl.replace (by rw [hs.pairs]; simp) hs.before hs.behind hP
      (fun c hc => hsame c (.inr (.inl hc))) (fun c hc => ?_) (fun hA => (hhead hA).2) hE
      (fun x hx => hlr x (hchild x hx)) fun c hc => hparent c (by grind)
    exact firstKey_congr (hsame c (.inl hc))
  · -- the first key of the parent stays, unless it is the leftmost one
    by_cases hcP : c = P
    · subst hcP
      rw [firstKey, firstKey, hP, hs.pairs]
      cases X with
      | cons x X => rfl
      | nil =>
        have hA' : A' ≠ [] := by
          rintro rfl
          have hnd : (c :: B').Nodup := by grind [List.nodup_append]
          exact (List.nodup_cons.1 hnd).1 hc
        obtain ⟨a, A₂, rfl⟩ := List.exists_cons_of_ne_nil hA'
        have hA : A ≠ [] := by
          have := hne a (by simp)
          rw [hs.before]
          simp [this]
        simp [(hhead hA).1]
    · have hmem := List.mem_of_mem_tail hc
      exact firstKey_congr (hsame c (.inr (.inl (by grind))))
  · exact hparent c (List.mem_append_right _ hc)
  · rw [InnerOk, hsame c (.inr (.inr hc)), hed.isLeaf, hed.order, hed.minSize]
    exact hok
  · exact ⟨hed.rootPage.trans hok.1, (hparent c (List.mem_append_right _ hc)).trans hok.2⟩

section exchange
variable {k : κ} (hed : f.Edited f' q cs) (h : f.Above (A ++ l :: r :: B) ((A' ++ P :: B') :: ups))
  (hs : f.Siblings A' B' A B P l r X Y e e') (hn : ((A ++ l :: r :: B) ++ ((A' ++ P :: B') ++ ups.flatten)).Nodup)
  (hne : ∀ p ∈ A', f.pairs p ≠ []) (hcs : ∀ c ∈ cs, c ∉ (A ++ l :: r :: B) ++ ((A' ++ P :: B') ++ ups.flatten))
  (hother : ∀ c, c ≠ P → c ≠ l → c ≠ r → f'.pairs c = f.pairs c)
include hed h hs hn hne hcs hother

omit hed hn hne hcs hother in
/-- The entry of the left one has its first key, unless it is the leftmost. -/
theorem Siblings.first_left (hA : A ≠ []) : f.first l = some e.1 := by
  rw [← hs.left]
  refine h.1.keys e ?_
  have hE : (A' ++ P :: B').flatMap f.pairs = (A'.flatMap f.pairs ++ X) ++ e :: (e' :: Y ++ B'.flatMap f.pairs) := by
    simp [hs.pairs]
  rw [hE]
  cases hS : A'.flatMap f.pairs ++ X with
  | nil => exact absurd (by rw [hs.before, hS]; rfl) hA
  | cons a S => simp

/-- The siblings share their entries in another way. -/
theorem Edited.above_share (hP : f'.pairs P = X ++ e :: (k, e'.2) :: Y) (hl : f'.first l = f.first l)
    (hr : f'.first r = some k) :
    Linked Prod.fst IxNode.child f'.pairs f'.parent (A' ++ P :: B') (A ++ l :: r :: B) ∧
      f'.Above (A' ++ P :: B') ups := by
  have hchild : IxNode.child (k, e'.2) = r := hs.right
  have hP' : f'.pairs P = X ++ e :: [(k, e'.2)] ++ Y := by simpa using hP
  have := hed.above h hs hn hne hcs hP' hother
    (by simp [hs.left, hchild]) (fun hA => ⟨rfl, ?_⟩) (by simpa [hchild] using hr)
  · simpa [hs.left, hchild] using this
  · rw [hs.left, hl, hs.first_left h hA]

/-- The right one goes to the end of the left one. -/
theorem Edited.above_left (hP : f'.pairs P = X ++ e :: Y) (hl : f'.first l = f.first l) :
    Linked Prod.fst IxNode.child f'.pairs f'.parent (A' ++ P :: B') (A ++ l :: B) ∧
      f'.Above (A' ++ P :: B') ups := by
  have hP' : f'.pairs P = X ++ e :: [] ++ Y := by simpa using hP
  have := hed.above h hs hn hne hcs hP' hother (by simp [hs.left])
    (fun hA => ⟨rfl, ?_⟩) (by simp)
  · simpa [hs.left] using this
  · rw [hs.left, hl, hs.first_left h hA]

/-- The left one goes to the front of the right one. -/
theorem Edited.above_right (hP : f'.pairs P = X ++ (k, e'.2) :: Y) (hr : f'.first r = some k)
    (hl : f.first l = some k) :
    Linked Prod.fst IxNode.child f'.pairs f'.parent (A' ++ P :: B') (A ++ r :: B) ∧
      f'.Above (A' ++ P :: B') ups := by
  have hchild : IxNode.child (k, e'.2) = r := hs.right
  have hP' : f'.pairs P = X ++ (k, e'.2) :: [] ++ Y := by simpa using hP
  have := hed.above h hs hn hne hcs hP' hother (by simp [hchild])
    (fun hA => ⟨?_, ?_⟩) (by simp)
  · simpa [hchild] using this
  · exact Option.some.inj (hl.symm.trans (hs.first_left h hA))
  · rw [hchild, hr]

end exchange

/-! ## The levels around siblings -/

/-- Siblings and their parent are different nodes, and different from all others. -/
theorem distinct_siblings {base U : List Int} (hn : (base ++ ((A ++ l :: r :: B) ++ ((A' ++ P :: B') ++ U))).Nodup) :
    l ≠ r ∧ P ≠ l ∧ P ≠ r ∧ ∀ c ∈ base ++ (A ++ B) ++ (A' ++ B') ++ U, c ≠ P ∧ c ≠ l ∧ c ≠ r := by
  have middle : ∀ {S T : List Int} {a : Int}, (S ++ a :: T).Nodup → a ∉ S ++ T := fun h =>
    (List.nodup_cons.1 (List.nodup_middle.1 h)).1
  have hl : l ∉ (base ++ A) ++ (r :: (B ++ (A' ++ P :: (B' ++ U)))) := middle (by simpa using hn)
  have hr : r ∉ (base ++ (A ++ [l])) ++ (B ++ (A' ++ P :: (B' ++ U))) := middle (by simpa using hn)
  have hP : P ∉ (base ++ (A ++ l :: r :: (B ++ A'))) ++ (B' ++ U) := middle (by simpa using hn)
  simp only [List.mem_append, List.mem_cons, List.not_mem_nil, or_false, not_or] at hl hr hP
  refine ⟨hl.2.1, hP.1.2.2.1, hP.1.2.2.2.1, fun c hc => ⟨?_, ?_, ?_⟩⟩ <;> rintro rfl <;>
    simp only [List.mem_append] at hc <;> tauto

/-- What siblings `l` and `r` and their parent hold afterwards; all other nodes keep their entries. -/
structure Holds (f f' : IxFile κ) (l r P : Int) (L R E : List (κ × Rid)) : Prop where
  left : f'.pairs l = L
  right : f'.pairs r = R
  parent : f'.pairs P = E
  other : ∀ c, c ≠ P → c ≠ l → c ≠ r → f'.pairs c = f.pairs c

theorem holds_deal {L R F : List (κ × Rid)} (hlr : l ≠ r) (hPl : P ≠ l) (hPr : P ≠ r) :
    f.Holds (f.deal l r P q L R F cs) l r P L R F where
  left := by rw [pairs_deal, Function.update_of_ne hPl.symm, Function.update_of_ne hlr, Function.update_self]
  right := by rw [pairs_deal, Function.update_of_ne hPr.symm, Function.update_self]
  parent := by rw [pairs_deal, Function.update_self]
  other c h1 h2 h3 := by
    rw [pairs_deal, Function.update_of_ne h1, Function.update_of_ne h3, Function.update_of_ne h2]

section levels
variable {base : List Int} {L R T F : List (κ × Rid)} (hed : f.Edited f' q cs) (hh : f.Holds f' l r P L R F)
  (hl : Linked Prod.fst IxNode.child f.pairs f.parent (A ++ l :: r :: B) base)
  (hn : (base ++ ((A ++ l :: r :: B) ++ ((A' ++ P :: B') ++ ups.flatten))).Nodup)
include hh hn

theorem Holds.same {c : Int} (hc : c ∈ base ++ (A ++ B) ++ (A' ++ B') ++ ups.flatten) : f'.pairs c = f.pairs c := by
  obtain ⟨h1, h2, h3⟩ := (distinct_siblings hn).2.2.2 c hc
  exact hh.other c h1 h2 h3

include hed hl

/-- The level below siblings that share their entries `L ++ R` anew. -/
theorem Edited.below_share (hcs : cs = T.map IxNode.child)
    (hT : q = l ∧ L = f.pairs l ++ T ∧ f.pairs r = T ++ R ∨ q = r ∧ f.pairs l = L ++ T ∧ R = T ++ f.pairs r) :
    Linked Prod.fst IxNode.child f'.pairs f'.parent (A ++ l :: r :: B) base := by
  subst hcs
  have hA : A.flatMap f'.pairs = A.flatMap f.pairs := List.flatMap_congr fun c hc => hh.same hn (by simp [hc])
  have hB : B.flatMap f'.pairs = B.flatMap f.pairs := List.flatMap_congr fun c hc => hh.same hn (by simp [hc])
  refine hed.linked hl ?_ (List.nodup_append.1 hn).1 ?_ (fun c hc => hc) (fun c hc x hx => ?_) (fun c hc => ?_)
    fun c hc => hh.same hn (by simp [hc])
  · have hcat : L ++ R = f.pairs l ++ f.pairs r := by
      rcases hT with ⟨-, hL, hR⟩ | ⟨-, hL, hR⟩ <;> simp [hL, hR]
    simp only [List.flatMap_append, List.flatMap_cons, hA, hB, hh.left, hh.right]
    rw [← List.append_assoc L, hcat, List.append_assoc]
  · rcases hT with ⟨rfl, -⟩ | ⟨rfl, -⟩ <;> simp
  · by_cases hcl : c = l
    · subst hcl
      rw [hh.left] at hx
      rcases hT with ⟨rfl, hL, -⟩ | ⟨-, hL, -⟩
      · rw [hL] at hx
        exact (List.mem_append.1 hx).imp id fun hx => ⟨rfl, List.mem_map_of_mem hx⟩
      · exact .inl (by simp [hL, hx])
    · by_cases hcr : c = r
      · subst hcr
        rw [hh.right] at hx
        rcases hT with ⟨-, -, hR⟩ | ⟨rfl, -, hR⟩
        · exact .inl (by simp [hR, hx])
        · rw [hR] at hx
          exact (List.mem_append.1 hx).symm.imp id fun hx => ⟨rfl, List.mem_map_of_mem hx⟩
      · rw [hh.same hn (by simp only [List.mem_append, List.mem_cons] at hc ⊢; tauto)] at hx
        exact .inl hx
  · obtain ⟨x, hx, rfl⟩ := List.mem_map.1 hc
    rcases hT with ⟨rfl, hL, -⟩ | ⟨rfl, -, hR⟩
    · exact ⟨x, by simp [hh.left, hL, hx], rfl⟩
    · exact ⟨x, by simp [hh.right, hR, hx], rfl⟩

/-- The level below siblings one of which takes up the other. -/
theorem Edited.below_take (hcs : cs = T.map IxNode.child) (hq : f'.pairs q = f.pairs l ++ f.pairs r)
    (hT : q = l ∧ T = f.pairs r ∨ q = r ∧ T = f.pairs l) :
    Linked Prod.fst IxNode.child f'.pairs f'.parent (A ++ q :: B) base := by
  subst hcs
  have hA : A.flatMap f'.pairs = A.flatMap f.pairs := List.flatMap_congr fun c hc => hh.same hn (by simp [hc])
  have hB : B.flatMap f'.pairs = B.flatMap f.pairs := List.flatMap_congr fun c hc => hh.same hn (by simp [hc])
  refine hed.linked hl ?_ (List.nodup_append.1 hn).1 (by simp) (fun c hc => ?_) (fun c hc x hx => ?_) (fun c hc => ?_)
    fun c hc => hh.same hn (by simp [hc])
  · simp [hA, hB, hq]
  · rcases hT with ⟨rfl, -⟩ | ⟨rfl, -⟩ <;> simp only [List.mem_append, List.mem_cons] at hc ⊢ <;> tauto
  · by_cases hcq : c = q
    · subst hcq
      rw [hq] at hx
      rcases hT with ⟨rfl, rfl⟩ | ⟨rfl, rfl⟩
      · exact (List.mem_append.1 hx).imp id fun hx => ⟨rfl, List.mem_map_of_mem hx⟩
      · exact (List.mem_append.1 hx).symm.imp id fun hx => ⟨rfl, List.mem_map_of_mem hx⟩
    · rw [hh.same hn (by simp only [List.mem_append, List.mem_cons] at hc ⊢; tauto)] at hx
      exact .inl hx
  · obtain ⟨x, hx, rfl⟩ := List.mem_map.1 hc
    rcases hT with ⟨rfl, rfl⟩ | ⟨rfl, rfl⟩ <;> exact ⟨x, by simp [hq, hx], rfl⟩

end levels

end siblings

/-- The children among the entries `ps` of a node. -/
def carried (f : IxFile κ) (p : Int) (ps : List (κ × Rid)) : List Int :=
  if f.isLeaf p then [] else ps.map IxNode.child

end IxFile

/-! ## The operations on siblings -/

namespace IxIndexHandle

variable {κ : Type} {f : IxFile κ} {p n P : Int} {m m' e e' : κ × Rid} {X Y L N : List (κ × Rid)} {fuel i : Nat}

/-- A child that a node has taken over names it as its parent. -/
theorem leadsTo_maintain (h : (f.pairs p)[i]? = some e) (hc : f.isLeaf p = false → f.Has (IxNode.child e)) :
    LeadsTo (maintainChild p i) f () (f.adopt p (f.carried p [e])) := by
  cases hleaf : f.isLeaf p with
  | true =>
    rw [IxFile.carried, if_pos hleaf]
    exact leadsTo_maintainChild_leaf hleaf
  | false =>
    rw [IxFile.carried, if_neg (by simp [hleaf])]
    exact leadsTo_maintainChild hleaf h (hc hleaf)

theorem leadsTo_putPairs {l : List (κ × Rid)} (h : f.pairs p = X ++ Y) (hi : i = X.length) (hl : X ++ L ++ Y = l)
    (hle : l.length ≤ f.maxSize) : LeadsTo (insertPairs p i L) f () (f.setPairs p l) := by
  have hput : (f.pairs p).take i ++ L ++ (f.pairs p).drop i = l := by rw [h, hi, List.take_left, List.drop_left, hl]
  have hlen : l.length = (f.pairs p).length + L.length := by
    rw [← hl, h]
    simp
    omega
  rw [← hput]
  exact leadsTo_insertPairs (by simp [h, hi]) (hlen ▸ hle)

theorem leadsTo_dropPair (h : f.pairs p = X ++ e :: Y) (hi : i = X.length) :
    LeadsTo (erasePair p i) f () (f.setPairs p (X ++ Y)) := by
  have herase : (f.pairs p).eraseIdx i = X ++ Y := by
    rw [h, hi, List.eraseIdx_append_of_length_le (Nat.le_refl _), Nat.sub_self, List.eraseIdx_cons_zero]
  rw [← herase]
  exact leadsTo_erasePair

theorem leadsTo_putKey {k : κ} (h : f.pairs p = X ++ e :: Y) (hi : i = X.length) :
    LeadsTo (setKey p i k) f () (f.setPairs p (X ++ (k, e.2) :: Y)) := by
  have hset : (f.pairs p).set i (k, e.2) = X ++ (k, e.2) :: Y := by
    rw [h, hi, List.set_append_right _ _ (Nat.le_refl _), Nat.sub_self, List.set_cons_zero]
  rw [← hset]
  exact leadsTo_setKey (by simp [h, hi])

theorem leadsTo_deleteIf {b : Bool} : LeadsTo (deleteIf b p) f () f := by
  unfold deleteIf
  split
  · exact leadsTo_deletePage Act.Leads.pure
  · exact Act.Leads.pure

theorem leadsTo_releaseNodeHandle : LeadsTo releaseNodeHandle f () f.release := leadsTo_modifyHdr

section redistribute
variable (hpn : p ≠ n) (hPp : P ≠ p) (hPn : P ≠ n) (hlen : (f.pairs p).length + 1 ≤ f.maxSize)
  (hc : f.isLeaf p = false → f.Has (IxNode.child m))
include hpn hPp hPn hlen hc

/-- `redistribute` with the first entry of the right neighbour. -/
theorem leadsTo_redistribute_right (hn : f.pairs n = m :: m' :: N) (hP : f.pairs P = e :: e' :: Y)
    (he' : IxNode.child e' = n) (he : IxNode.child e ≠ n) : LeadsTo (redistribute n p P 0) f ()
      (f.deal p n P p (f.pairs p ++ [m]) (m' :: N) (e :: (m'.1, e'.2) :: Y) (f.carried p [m])) := by
  refine Act.Leads.bind leadsTo_getNode (Act.Leads.bind leadsTo_getNode ?_)
  rw [if_pos rfl]
  refine Act.Leads.bind (leadsTo_pairAt (e := m) (by simp [hn])) ?_
  refine Act.Leads.bind (leadsTo_putPairs (X := f.pairs p) (Y := []) (l := f.pairs p ++ [m]) (by simp) rfl (by simp)
    (by simpa using hlen)) ?_
  refine Act.Leads.bind (leadsTo_dropPair (X := []) (e := m) (Y := m' :: N) (by simp [hpn.symm, hn]) rfl) ?_
  refine Act.Leads.bind (leadsTo_maintain (e := m) (by simp [hpn]) fun hleaf => ?_) ?_
  · have := hc (by simpa using hleaf)
    simp [IxFile.has_setNode, this]
  · refine Act.Leads.bind (leadsTo_findChild (X := [e]) (e := e') (Y := Y) (by simp [hPp, hPn, hP]) he'
      (by simpa using he)) (Act.Leads.bind (leadsTo_pairAt (e := m') (by simp)) ?_)
    convert leadsTo_putKey (X := [e]) (e := e') (Y := Y) _ rfl using 1
    · simp [IxFile.deal, IxFile.carried]
    · simp [hPp, hPn, hP]

/-- `redistribute` with the last entry of the left neighbour. -/
theorem leadsTo_redistribute_left (hn : f.pairs n = N ++ [m]) (hP : f.pairs P = X ++ e :: e' :: Y) :
    LeadsTo (redistribute n p P (X.length + 1)) f ()
      (f.deal n p P p N (m :: f.pairs p) (X ++ e :: (m.1, e'.2) :: Y) (f.carried p [m])) := by
  have hsize : (f.node n).size - 1 = N.length := by simp [hn]
  refine Act.Leads.bind leadsTo_getNode (Act.Leads.bind leadsTo_getNode ?_)
  rw [if_neg (Nat.succ_ne_zero _), hsize]
  refine Act.Leads.bind (leadsTo_pairAt (e := m) (by simp [hn])) ?_
  refine Act.Leads.bind (leadsTo_putPairs (X := []) (Y := f.pairs p) rfl rfl rfl (by simpa using hlen)) ?_
  refine Act.Leads.bind (leadsTo_dropPair (X := N) (e := m) (Y := []) (by simp [hpn.symm, hn]) rfl) ?_
  refine Act.Leads.bind (leadsTo_maintain (e := m) (by simp [hpn]) fun hleaf => ?_) ?_
  · have := hc (by simpa using hleaf)
    simp [IxFile.has_setNode, this]
  · refine Act.Leads.bind (leadsTo_pairAt (e := m) (by simp [hpn])) ?_
    convert leadsTo_putKey (i := X.length + 1) (X := X ++ [e]) (e := e') (Y := Y) _ (by simp) using 1
    · have hcomm : (f.setPairs n N).setPairs p (m :: f.pairs p) = (f.setPairs p (m :: f.pairs p)).setPairs n N := by
        rw [IxFile.setPairs, IxFile.setPairs, IxFile.setPairs, IxFile.setPairs, IxFile.setNode_comm _ hpn.symm,
          IxFile.node_setNode_of_ne _ _ _ hpn, IxFile.node_setNode_of_ne _ _ _ hpn.symm]
      rw [IxFile.deal, hcomm]
      simp [IxFile.carried]
    · simp [hPp, hPn, hP]

end redistribute

section mergeInto
variable {M : List (κ × Rid)} (hleaf : f.isLeaf n = false) (hPn : P ≠ n) (hlen : M.length ≤ f.maxSize)
  (hc : ∀ x ∈ f.pairs p, f.Has (IxNode.child x))
include hleaf hPn hlen hc

/-- An inner node goes to the front of its right neighbour. -/
theorem leadsTo_mergeInto_right (hM : f.pairs p ++ f.pairs n = M) (hm : M.head? = some m)
    (hP : f.pairs P = e :: e' :: Y) : LeadsTo (mergeInto n p P 0) f ()
      (f.absorb n P M ((m.1, e'.2) :: Y) ((f.pairs p).map IxNode.child)) := by
  have hfirst : M[0]? = some m := by rw [← List.head?_eq_getElem?, hm]
  refine Act.Leads.bind leadsTo_getNode (Act.Leads.bind leadsTo_getNode ?_)
  rw [if_pos rfl, if_neg (by simp [hleaf])]
  refine Act.Leads.bind (leadsTo_putPairs (X := []) (Y := f.pairs n) (l := M) rfl rfl hM hlen) ?_
  rw [List.range_eq_range']
  have hcat : (f.setPairs n M).pairs n = [] ++ f.pairs p ++ f.pairs n := by simp [hM]
  refine Act.Leads.bind (leadsTo_maintainChildren (by simpa using hleaf) hcat fun x hx => ?_) ?_
  · simp [IxFile.has_setNode, hc x hx]
  refine Act.Leads.bind (leadsTo_dropPair (X := []) (e := e) (Y := e' :: Y) (by simp [hPn, hP]) rfl) ?_
  refine Act.Leads.bind (leadsTo_pairAt (e := m) (by simpa [hPn.symm] using hfirst)) ?_
  refine Act.Leads.bind (leadsTo_putKey (X := []) (e := e') (Y := Y) (by simp) rfl) ?_
  convert leadsTo_releaseNodeHandle using 1
  simp [IxFile.absorb, IxFile.setPairs, IxFile.setNode_setNode]

/-- An inner node goes to the end of its left neighbour. -/
theorem leadsTo_mergeInto_left (hM : f.pairs n ++ f.pairs p = M) (hP : f.pairs P = X ++ e :: e' :: Y) :
    LeadsTo (mergeInto n p P (X.length + 1)) f ()
      (f.absorb n P M (X ++ e :: Y) ((f.pairs p).map IxNode.child)) := by
  refine Act.Leads.bind leadsTo_getNode (Act.Leads.bind leadsTo_getNode ?_)
  rw [if_neg (Nat.succ_ne_zero _), if_neg (by simp [hleaf])]
  refine Act.Leads.bind (leadsTo_putPairs (X := f.pairs n) (Y := []) (l := M) (by simp) rfl (by simp [← hM]) hlen) ?_
  have hcat : (f.setPairs n M).pairs n = f.pairs n ++ f.pairs p ++ [] := by simp [hM]
  refine Act.Leads.bind (leadsTo_maintainChildren (by simpa using hleaf) hcat fun x hx => ?_) ?_
  · simp [IxFile.has_setNode, hc x hx]
  refine Act.Leads.bind (leadsTo_dropPair (i := X.length + 1) (X := X ++ [e]) (e := e') (Y := Y) (by simp [hPn, hP])
    (by simp)) ?_
  convert leadsTo_releaseNodeHandle using 1
  simp [IxFile.absorb]

end mergeInto

theorem leadsTo_adjustRoot_keep (h : ¬(f.isLeaf p = false ∧ (f.pairs p).length = 1)) :
    LeadsTo (adjustRoot p) f false f := by
  refine Act.Leads.bind leadsTo_getNode ?_
  rw [if_neg (by simpa using h)]
  exact Act.Leads.pure

theorem leadsTo_adjustRoot_collapse (hleaf : f.isLeaf p = false) (he : f.pairs p = [e]) (hc : f.Has (IxNode.child e)) :
    LeadsTo (adjustRoot p) f true (f.collapse p (IxNode.child e)) := by
  refine Act.Leads.bind leadsTo_getNode ?_
  rw [if_pos (by simp [hleaf, he])]
  refine Act.Leads.bind (leadsTo_pairAt (e := e) (by simp [he])) (Act.Leads.bind (leadsTo_dropPair (X := []) (Y := [])
    he rfl) (Act.Leads.bind (leadsTo_fetchNode ?_) (Act.Leads.bind leadsTo_modifyNode (Act.Leads.bind leadsTo_modifyHdr
    (leadsTo_unpinPage (Act.Leads.bind leadsTo_releaseNodeHandle Act.Leads.pure))))))
  simp [IxFile.has_setNode, hc]

end IxIndexHandle

/-! ## What the levels below see -/

namespace IxFile

variable {κ : Type} {f f' f'' : IxFile κ}

/-- An inner node that lost an entry. -/
def LowOk (f : IxFile κ) (isRoot : Bool) (p : Int) : Prop :=
  f.isLeaf p = false ∧ (f.pairs p).length ≤ f.fileHdr.btreeOrder ∧
    (if isRoot then 2 else f.minSize) ≤ (f.pairs p).length + 1

/-- What the levels from `low` down see when the levels `ups` become `ups'`. -/
structure Shrunk (f f' : IxFile κ) (low : List Int) (ups ups' : List (List Int)) : Prop where
  nextPage : f'.nextPage = f.nextPage
  order : f'.fileHdr.btreeOrder = f.fileHdr.btreeOrder
  firstLeaf : f'.fileHdr.firstLeaf = f.fileHdr.firstLeaf
  lastLeaf : f'.fileHdr.lastLeaf = f.fileHdr.lastLeaf
  has : ∀ r, f.Has r → f'.Has r
  same : ∀ r, r ∉ ups.flatten → f.SameNode f' r
  parent : ∀ r, r ∉ low ++ ups.flatten → f'.parent r = f.parent r
  sublist : ups'.flatten.Sublist ups.flatten
  numPages : f'.fileHdr.numPages + ups.flatten.length = f.fileHdr.numPages + ups'.flatten.length

section shrunk
variable {low level level' : List Int} {ups ups' : List (List Int)} {n l r q P : Int} {M L R E : List (κ × Rid)}
  {cs : List Int}

theorem Shrunk.refl : f.Shrunk f low ups ups where
  nextPage := rfl
  order := rfl
  firstLeaf := rfl
  lastLeaf := rfl
  has _ h := h
  same _ _ := ⟨rfl, rfl, rfl, rfl⟩
  parent _ _ := rfl
  sublist := List.Sublist.refl _
  numPages := rfl

/-- The level `level'` is what the next levels see. -/
theorem Shrunk.trans (h : f.Shrunk f' low (level :: ups) (level' :: ups)) (h' : f'.Shrunk f'' level' ups ups') :
    f.Shrunk f'' low (level :: ups) (level' :: ups') where
  nextPage := h'.nextPage.trans h.nextPage
  order := h'.order.trans h.order
  firstLeaf := h'.firstLeaf.trans h.firstLeaf
  lastLeaf := h'.lastLeaf.trans h.lastLeaf
  has r hr := h'.has r (h.has r hr)
  same r hr := (h.same r hr).trans (h'.same r fun hu => hr (by simp [List.flatten_cons, hu]))
  parent r hr := by
    rw [List.flatten_cons] at hr
    have hsub := h.sublist.subset
    rw [List.flatten_cons, List.flatten_cons] at hsub
    rw [h'.parent r fun hm => hr (List.mem_append_right _ (hsub hm)), h.parent r hr]
  sublist := by
    refine List.Sublist.trans ?_ h.sublist
    rw [List.flatten_cons, List.flatten_cons]
    exact h'.sublist.append_left _
  numPages := by
    have h1 := h.numPages
    have h2 := h'.numPages
    simp only [List.flatten_cons, List.length_append, Int.natCast_add] at h1 h2 ⊢
    omega

theorem shrunk_deal (hl : l ∈ ups.flatten) (hr : r ∈ ups.flatten) (hP : P ∈ ups.flatten) (hcs : ∀ c ∈ cs, c ∈ low) :
    f.Shrunk (f.deal l r P q L R E cs) low ups ups where
  nextPage := edited_deal.nextPage
  order := edited_deal.order
  firstLeaf := by simp [deal]
  lastLeaf := by simp [deal]
  has := edited_deal.has
  same c hc := by
    refine ⟨?_, by simp [deal], by simp [deal], by simp [deal]⟩
    rw [pairs_deal, Function.update_of_ne, Function.update_of_ne, Function.update_of_ne] <;> rintro rfl <;>
      contradiction
  parent r hr := edited_deal.parent_eq fun hc => hr (List.mem_append_left _ (hcs r hc))
  sublist := List.Sublist.refl _
  numPages := by simp [deal]

theorem shrunk_absorb (hn : n ∈ ups.flatten) (hP : P ∈ ups.flatten) (hcs : ∀ c ∈ cs, c ∈ low)
    (hsub : ups'.flatten.Sublist ups.flatten) (hlen : ups.flatten.length = ups'.flatten.length + 1) :
    f.Shrunk (f.absorb n P M E cs) low ups ups' where
  nextPage := edited_absorb.nextPage
  order := edited_absorb.order
  firstLeaf := by simp [absorb, release]
  lastLeaf := by simp [absorb, release]
  has := edited_absorb.has
  same r hr := by
    refine ⟨?_, by simp [absorb, release], by simp [absorb, release], by simp [absorb, release]⟩
    rw [pairs_absorb, Function.update_of_ne, Function.update_of_ne] <;> rintro rfl <;> contradiction
  parent r hr := edited_absorb.parent_eq fun hc => hr (List.mem_append_left _ (hcs r hc))
  sublist := hsub
  numPages := by
    simp [absorb, release, hlen]

end shrunk

end IxFile

namespace IxIndexHandle

variable {κ : Type} {f f' : IxFile κ} {p n P : Int} {b : Bool} {X Y : List (κ × Rid)} {e e' : κ × Rid} {fuel : Nat}

/-! ## The branches of `coalesce_or_redistribute` -/

theorem leadsTo_coalesce_root (h : f.parent p = ixNoPage) (hx : LeadsTo (adjustRoot p) f b f') :
    LeadsTo (coalesceOrRedistribute (fuel + 1) p) f b f' := by
  refine Act.Leads.bind leadsTo_getNode (Act.Leads.get_bind fun s hs => ?_)
  rw [IxFile.node_parent, if_pos h]
  exact hx

theorem leadsTo_coalesce_full (h : f.parent p ≠ ixNoPage) (hmin : f.minSize ≤ (f.pairs p).length) :
    LeadsTo (coalesceOrRedistribute (fuel + 1) p) f false f := by
  refine Act.Leads.bind leadsTo_getNode (Act.Leads.get_bind fun s hs => ?_)
  rw [IxFile.node_parent, if_neg h, hs.1, if_pos (by simpa using hmin)]
  exact Act.Leads.pure

section under
variable {s : κ × Rid} {j : Nat} (hpar : f.parent p = P) (h : P ≠ ixNoPage) (hmin : (f.pairs p).length < f.minSize)
  (hP : f.Has P) (hpairs : f.pairs P = X ++ e :: Y) (he : IxNode.child e = p) (hX : ∀ x ∈ X, IxNode.child x ≠ p)
  (hj : j = if X.length = 0 then 1 else X.length - 1) (hs : (f.pairs P)[j]? = some s) (hsn : IxNode.child s = n)
  (hn : f.Has n)
include hpar h hmin hP hpairs he hX hj hs hsn hn

theorem leadsTo_coalesce_share (hsum : f.minSize * 2 ≤ (f.pairs p).length + (f.pairs n).length)
    (hx : LeadsTo (redistribute n p P X.length) f () f') :
    LeadsTo (coalesceOrRedistribute (fuel + 1) p) f false f' := by
  refine Act.Leads.bind leadsTo_getNode (Act.Leads.get_bind fun t ht => ?_)
  rw [IxFile.node_parent, hpar, if_neg h, ht.1, if_neg (by simpa using hmin)]
  refine Act.Leads.bind (leadsTo_fetchNode hP) (Act.Leads.bind (leadsTo_findChild hpairs he hX)
    (Act.Leads.bind (leadsTo_pairAt (e := s) (by rw [← hj]; exact hs)) ?_))
  rw [hsn]
  refine Act.Leads.bind (leadsTo_fetchNode hn) (Act.Leads.bind leadsTo_getNode ?_)
  rw [if_pos (by simpa using hsum)]
  exact Act.Leads.bind hx (leadsTo_unpinPage (leadsTo_unpinPage Act.Leads.pure))

theorem leadsTo_coalesce_merge {f'' : IxFile κ} (hsum : (f.pairs p).length + (f.pairs n).length < f.minSize * 2)
    (hx : LeadsTo (mergeInto n p P X.length) f () f') (hrec : LeadsTo (coalesceOrRedistribute fuel P) f' b f'') :
    LeadsTo (coalesceOrRedistribute (fuel + 1) p) f true f'' := by
  refine Act.Leads.bind leadsTo_getNode (Act.Leads.get_bind fun t ht => ?_)
  rw [IxFile.node_parent, hpar, if_neg h, ht.1, if_neg (by simpa using hmin)]
  refine Act.Leads.bind (leadsTo_fetchNode hP) (Act.Leads.bind (leadsTo_findChild hpairs he hX)
    (Act.Leads.bind (leadsTo_pairAt (e := s) (by rw [← hj]; exact hs)) ?_))
  rw [hsn]
  refine Act.Leads.bind (leadsTo_fetchNode hn) (Act.Leads.bind leadsTo_getNode ?_)
  rw [if_neg (by simpa using hsum)]
  refine Act.Leads.bind hx (Act.Leads.bind hrec (leadsTo_unpinPage ?_))
  exact Act.Leads.bind (leadsTo_deleteIf (b := b)) (leadsTo_unpinPage Act.Leads.pure)

end under

/-! ## The levels above -/

section levels
variable {base A B : List Int} {ups : List (List Int)}

/-- `coalesce_or_redistribute` returns, and the levels above `base` are in order again. -/
def Shrinks (fuel : Nat) (f : IxFile κ) (p : Int) (base : List Int) (levels : List (List Int)) : Prop :=
  ∃ b f' levels', LeadsTo (coalesceOrRedistribute fuel p) f b f' ∧ f'.Above base levels' ∧
    f.Shrunk f' base levels levels'

/-- A root with a single child is given up. -/
theorem shrinks_root (hl : Linked Prod.fst IxNode.child f.pairs f.parent [p] base) (ha : f.Above [p] [])
    (hlow : f.LowOk true p) (hn : (base ++ [p]).Nodup) (hlive : ∀ r ∈ base, f.Has r) :
    Shrinks (fuel + 1) f p base [[p]] := by
  obtain ⟨r, hr, hroot⟩ := ha
  obtain rfl : p = r := by simpa using hr
  by_cases hone : (f.pairs p).length = 1
  · obtain ⟨e, he⟩ := List.length_eq_one_iff.1 hone
    obtain rfl : base = [IxNode.child e] := by simpa [he] using hl.children.symm
    have hne : IxNode.child e ≠ p := by simpa using hn
    have hc : f.Has (IxNode.child e) := hlive _ (by simp)
    refine ⟨true, _, [], leadsTo_coalesce_root hroot.2 (leadsTo_adjustRoot_collapse hlow.1 he hc), ?_, ?_⟩
    · exact ⟨IxNode.child e, rfl, rfl, by simp [IxFile.collapse, IxFile.release, IxFile.parent_adopt]⟩
    · refine ⟨rfl, rfl, rfl, rfl, fun r hr => ?_, fun r hr => ?_, fun r hr => ?_, ?_, ?_⟩
      · simp [IxFile.collapse, IxFile.release, IxFile.has_setHdr, IxFile.has_adopt, IxFile.has_setNode, hr]
      · have hrp : r ≠ p := by simpa using hr
        constructor <;> simp [IxFile.collapse, IxFile.release, hrp]
      · have hmem : r ∉ [IxNode.child e] := fun h => hr (List.mem_append_left _ h)
        rw [IxFile.collapse, IxFile.release, IxFile.parent_setHdr, IxFile.parent_setHdr, IxFile.parent_adopt,
          if_neg hmem, IxFile.parent_setPairs]
      · simp
      · simp [IxFile.collapse, IxFile.release]
  · refine ⟨false, f, [[p]], leadsTo_coalesce_root hroot.2 (leadsTo_adjustRoot_keep fun h => hone h.2),
      ⟨hl, fun r hr => ?_, p, rfl, hroot⟩, IxFile.Shrunk.refl⟩
    obtain rfl := List.mem_singleton.1 hr
    have hlen : 2 ≤ (f.pairs r).length + 1 := hlow.2.2
    have htwo : 2 ≤ (f.pairs r).length := by omega
    exact ⟨hlow.1, hlow.2.1, htwo⟩

/-- A merge, when the levels above the merged node are in order again. -/
theorem shrinks_of_merge {f₁ : IxFile κ} {level level' : List Int} (hord : 3 ≤ f.fileHdr.btreeOrder)
    (hl : Linked Prod.fst IxNode.child f₁.pairs f₁.parent level' base) (hok : ∀ r ∈ level', f₁.InnerOk false r)
    (hs : f.Shrunk f₁ base (level :: ups) (level' :: ups)) (hn : (base ++ (level' ++ ups.flatten)).Nodup)
    (hrec : Shrinks fuel f₁ P level' ups)
    (hlead : ∀ b f₂, LeadsTo (coalesceOrRedistribute fuel P) f₁ b f₂ →
      LeadsTo (coalesceOrRedistribute (fuel + 1) p) f true f₂) : Shrinks (fuel + 1) f p base (level :: ups) := by
  obtain ⟨b, f₂, levels, hx, ha, hs₂⟩ := hrec
  have hsame : ∀ r ∈ base ++ level', f₁.SameNode f₂ r := fun r hr =>
    hs₂.same r fun hu => by grind [List.nodup_append]
  refine ⟨true, f₂, level' :: levels, hlead b f₂ hx, ⟨?_, fun r hr => ?_, ha⟩, hs.trans hs₂⟩
  · refine hl.congr (fun r hr => (hsame r (by simp [hr])).pairs) (fun c hc => ?_) fun c hc => ?_
    · exact firstKey_congr (hsame c (by simp [List.mem_of_mem_tail hc])).pairs
    · exact hs₂.parent c (by grind [List.nodup_append])
  · have hk := hsame r (List.mem_append_right _ hr)
    obtain ⟨h1, h2, h3⟩ := hok r hr
    rw [IxFile.InnerOk, hk.isLeaf, hk.pairs, hs₂.order]
    have hmin : f₂.minSize = f₁.minSize := by rw [IxFile.minSize, IxFile.minSize, IxFile.maxSize, IxFile.maxSize, hs₂.order]
    have hmin₁ : f₁.minSize = (f.fileHdr.btreeOrder + 1) / 2 := by rw [IxFile.minSize, IxFile.maxSize, hs.order]
    refine ⟨h1, h2, ?_⟩
    simp only [Bool.false_eq_true, if_false] at h3
    rw [hmin]
    split <;> omega

/-- A node that lost an entry, under the levels `ups`. -/
structure Under (f : IxFile κ) (base A B : List Int) (p : Int) (ups : List (List Int)) : Prop where
  order : 3 ≤ f.fileHdr.btreeOrder
  linked : Linked Prod.fst IxNode.child f.pairs f.parent (A ++ p :: B) base
  above : f.Above (A ++ p :: B) ups
  innerOk : ∀ c ∈ A ++ B, f.InnerOk ups.isEmpty c
  lowOk : f.LowOk ups.isEmpty p
  nodup : (base ++ ((A ++ p :: B) ++ ups.flatten)).Nodup
  live : ∀ c ∈ base ++ ((A ++ p :: B) ++ ups.flatten), f.Live c

/-- Every node that lost an entry is repaired. -/
def Repairs (κ : Type) (fuel : Nat) (ups : List (List Int)) : Prop :=
  ∀ ⦃f : IxFile κ⦄ ⦃base A B : List Int⦄ ⦃p : Int⦄, Under f base A B p ups → Shrinks fuel f p base ((A ++ p :: B) :: ups)

/-- The two siblings with their levels and the levels above. -/
structure Spot (f : IxFile κ) (base A B A' B' : List Int) (ups : List (List Int)) (l r P : Int) (X Y : List (κ × Rid))
    (e e' : κ × Rid) : Prop where
  order : 3 ≤ f.fileHdr.btreeOrder
  linked : Linked Prod.fst IxNode.child f.pairs f.parent (A ++ l :: r :: B) base
  above : f.Above (A ++ l :: r :: B) ((A' ++ P :: B') :: ups)
  siblings : f.Siblings A' B' A B P l r X Y e e'
  innerOk : ∀ c ∈ A ++ B, f.InnerOk false c
  leftInner : f.isLeaf l = false
  rightInner : f.isLeaf r = false
  nodup : (base ++ ((A ++ l :: r :: B) ++ ((A' ++ P :: B') ++ ups.flatten))).Nodup

section spot
variable {A' B' : List Int} {l r q : Int} {L R T : List (κ × Rid)} {k : κ}
  (h : Spot f base A B A' B' ups l r P X Y e e')
include h

theorem Spot.notMem {c : Int} (hc : c ∈ base) : c ∉ (A ++ l :: r :: B) ++ ((A' ++ P :: B') ++ ups.flatten) := fun hc' =>
  (List.nodup_append.1 h.nodup).2.2 c hc c hc' rfl

theorem Spot.mem_base {x : κ × Rid} (hx : x ∈ f.pairs l ∨ x ∈ f.pairs r) : IxNode.child x ∈ base := by
  rw [← h.linked.children]
  refine List.mem_map_of_mem ?_
  rcases hx with hx | hx
  · exact List.mem_flatMap_of_mem (a := l) (by simp) hx
  · exact List.mem_flatMap_of_mem (a := r) (by simp) hx

theorem Spot.ne_nil {c : Int} (hc : c ∈ A' ++ P :: B') : f.pairs c ≠ [] := (h.above.2.1 c hc).ne_nil h.order

theorem Spot.two_le_minSize : 2 ≤ f.minSize := by
  have := h.order
  simp only [IxFile.minSize, IxFile.maxSize]
  omega

/-- Two siblings share their entries anew. -/
theorem Spot.share
    (hT : q = l ∧ L = f.pairs l ++ T ∧ f.pairs r = T ++ R ∨ q = r ∧ f.pairs l = L ++ T ∧ R = T ++ f.pairs r)
    (hne : f.pairs l ≠ []) (hk : R.head?.map Prod.fst = some k)
    (hL : L.length ≤ f.fileHdr.btreeOrder ∧ f.minSize ≤ L.length)
    (hR : R.length ≤ f.fileHdr.btreeOrder ∧ f.minSize ≤ R.length)
    (hlead : LeadsTo (coalesceOrRedistribute fuel p) f false
      (f.deal l r P q L R (X ++ e :: (k, e'.2) :: Y) (T.map IxNode.child))) :
    Shrinks fuel f p base ((A ++ l :: r :: B) :: (A' ++ P :: B') :: ups) := by
  have hT' : ∀ x ∈ T, x ∈ f.pairs l ∨ x ∈ f.pairs r := by
    intro x hx
    rcases hT with ⟨-, -, hT⟩ | ⟨-, hT, -⟩
    · exact .inr (by simp [hT, hx])
    · exact .inl (by simp [hT, hx])
  have hcs : ∀ c ∈ T.map IxNode.child, c ∈ base := by
    intro c hc
    obtain ⟨x, hx, rfl⟩ := List.mem_map.1 hc
    exact h.mem_base (hT' x hx)
  obtain ⟨hlr, hPl, hPr, -⟩ := IxFile.distinct_siblings h.nodup
  obtain ⟨g, hg⟩ : ∃ g, f.deal l r P q L R (X ++ e :: (k, e'.2) :: Y) (T.map IxNode.child) = g := ⟨_, rfl⟩
  have hh : f.Holds g l r P L R (X ++ e :: (k, e'.2) :: Y) := hg ▸ IxFile.holds_deal hlr hPl hPr
  have hed : f.Edited g q (T.map IxNode.child) := hg ▸ IxFile.edited_deal
  have hshrunk : f.Shrunk g base ((A ++ l :: r :: B) :: (A' ++ P :: B') :: ups)
      ((A ++ l :: r :: B) :: (A' ++ P :: B') :: ups) :=
    hg ▸ IxFile.shrunk_deal (by simp) (by simp) (by simp) hcs
  rw [hg] at hlead
  have hfirst : g.first l = f.first l := by
    have := h.two_le_minSize
    obtain ⟨a, L', hLa⟩ := List.exists_cons_of_ne_nil (List.ne_nil_of_length_pos (l := L) (by omega))
    obtain ⟨a', L'', hL''⟩ := List.exists_cons_of_ne_nil hne
    show (g.pairs l).head?.map Prod.fst = (f.pairs l).head?.map Prod.fst
    rw [hh.left, hLa]
    rcases hT with ⟨-, hL, -⟩ | ⟨-, hL, -⟩ <;> rw [hLa, hL''] at hL <;> rw [hL'', (List.cons.inj hL).1] <;> rfl
  obtain ⟨hl', ha'⟩ := hed.above_share h.above h.siblings (List.nodup_append.1 h.nodup).2.1
    (fun c hc => h.ne_nil (by simp [hc])) (fun c hc => h.notMem (hcs c hc)) hh.other hh.parent hfirst
    (by rw [← hk, ← hh.right]; rfl)
  refine ⟨false, g, (A ++ l :: r :: B) :: (A' ++ P :: B') :: ups, hlead,
    ⟨hed.below_share hh h.linked h.nodup rfl hT, fun c hc => ?_, hl', fun c hc => ?_, ha'⟩, hshrunk⟩
  · rw [List.isEmpty_cons, IxFile.InnerOk, hed.isLeaf, hed.order, hed.minSize]
    by_cases hcl : c = l
    · subst hcl
      rw [hh.left]
      exact ⟨h.leftInner, hL.1, hL.2⟩
    · by_cases hcr : c = r
      · subst hcr
        rw [hh.right]
        exact ⟨h.rightInner, hR.1, hR.2⟩
      · have hmem : c ∈ A ++ B := by simp only [List.mem_append, List.mem_cons] at hc ⊢; tauto
        rw [hh.same h.nodup (by simp only [List.mem_append] at hmem ⊢; tauto)]
        exact h.innerOk c hmem
  · rw [IxFile.InnerOk, hed.isLeaf, hed.order, hed.minSize]
    have hold := h.above.2.1 c hc
    by_cases hcP : c = P
    · subst hcP
      have hlen : (g.pairs c).length = (f.pairs c).length := by simp [hh.parent, h.siblings.pairs]
      rw [hlen]
      exact hold
    · rw [hh.same h.nodup (by simp only [List.mem_append, List.mem_cons] at hc ⊢; tauto)]
      exact hold

/-- One of the siblings takes up the other, and their parent is repaired. -/
theorem Spot.take {M F : List (κ × Rid)} (hM : f.pairs l ++ f.pairs r = M)
    (hq : q = l ∧ T = f.pairs r ∧ F = X ++ e :: Y ∨
      q = r ∧ T = f.pairs l ∧ ∃ k, F = X ++ (k, e'.2) :: Y ∧ f.first l = some k)
    (hne : f.pairs l ≠ []) (hlen : M.length ≤ f.fileHdr.btreeOrder ∧ f.minSize ≤ M.length)
    (hlive : ∀ c ∈ (A ++ l :: r :: B) ++ ((A' ++ P :: B') ++ ups.flatten), f.Live c) (ih : Repairs κ fuel ups)
    (hlead : ∀ b f₂, LeadsTo (coalesceOrRedistribute fuel P) (f.absorb q P M F (T.map IxNode.child)) b f₂ →
      LeadsTo (coalesceOrRedistribute (fuel + 1) p) f true f₂) :
    Shrinks (fuel + 1) f p base ((A ++ l :: r :: B) :: (A' ++ P :: B') :: ups) := by
  have hq' : q = l ∧ T = f.pairs r ∨ q = r ∧ T = f.pairs l := hq.imp (fun h => ⟨h.1, h.2.1⟩) fun h => ⟨h.1, h.2.1⟩
  have hcs : ∀ c ∈ T.map IxNode.child, c ∈ base := by
    intro c hc
    obtain ⟨x, hx, rfl⟩ := List.mem_map.1 hc
    refine h.mem_base ?_
    rcases hq' with ⟨-, rfl⟩ | ⟨-, rfl⟩
    · exact .inr hx
    · exact .inl hx
  obtain ⟨hlr, hPl, hPr, -⟩ := IxFile.distinct_siblings h.nodup
  have hPq : P ≠ q := by rcases hq' with ⟨rfl, -⟩ | ⟨rfl, -⟩ <;> assumption
  have hsub : (A ++ q :: B).Sublist (A ++ l :: r :: B) := by
    refine List.Sublist.append_left ?_ A
    rcases hq' with ⟨rfl, -⟩ | ⟨rfl, -⟩
    · exact (List.sublist_cons_self r B).cons_cons q
    · exact List.sublist_cons_self l (q :: B)
  obtain ⟨g, hg⟩ : ∃ g, f.absorb q P M F (T.map IxNode.child) = g := ⟨_, rfl⟩
  have hgq : g.pairs q = M := by rw [← hg, IxFile.pairs_absorb, Function.update_of_ne hPq.symm, Function.update_self]
  have hgP : g.pairs P = F := by rw [← hg, IxFile.pairs_absorb, Function.update_self]
  have hh : f.Holds g l r P (g.pairs l) (g.pairs r) F := by
    refine ⟨rfl, rfl, hgP, fun c h1 h2 h3 => ?_⟩
    have hcq : c ≠ q := by rcases hq' with ⟨rfl, -⟩ | ⟨rfl, -⟩ <;> assumption
    rw [← hg, IxFile.pairs_absorb, Function.update_of_ne h1, Function.update_of_ne hcq]
  have hed : f.Edited g q (T.map IxNode.child) := hg ▸ IxFile.edited_absorb
  have hshrunk : f.Shrunk g base ((A ++ l :: r :: B) :: (A' ++ P :: B') :: ups)
      ((A ++ q :: B) :: (A' ++ P :: B') :: ups) := by
    rw [← hg]
    refine IxFile.shrunk_absorb ?_ (by simp) hcs ?_ ?_
    · rcases hq' with ⟨rfl, -⟩ | ⟨rfl, -⟩ <;> simp
    · rw [List.flatten_cons, List.flatten_cons (l := A ++ l :: r :: B)]
      exact hsub.append_right _
    · simp
      omega
  rw [hg] at hlead
  have hmfirst : M.head?.map Prod.fst = f.first l := by
    obtain ⟨a, L', hL⟩ := List.exists_cons_of_ne_nil hne
    show M.head?.map Prod.fst = (f.pairs l).head?.map Prod.fst
    rw [← hM, hL]
    rfl
  have hgfirst : g.first q = f.first l := by
    rw [← hmfirst, ← hgq]
    rfl
  obtain ⟨hl', ha'⟩ : Linked Prod.fst IxNode.child g.pairs g.parent (A' ++ P :: B') (A ++ q :: B) ∧
      g.Above (A' ++ P :: B') ups := by
    have hnup := (List.nodup_append.1 h.nodup).2.1
    have hA' : ∀ c ∈ A', f.pairs c ≠ [] := fun c hc => h.ne_nil (by simp [hc])
    rcases hq with ⟨rfl, -, rfl⟩ | ⟨rfl, -, k, rfl, hk⟩
    · exact hed.above_left h.above h.siblings hnup hA' (fun c hc => h.notMem (hcs c hc)) hh.other hgP hgfirst
    · exact hed.above_right h.above h.siblings hnup hA' (fun c hc => h.notMem (hcs c hc)) hh.other hgP
        (hgfirst.trans hk) hk
  have hsubmem : ∀ c ∈ A ++ q :: B, c ∈ A ++ l :: r :: B := fun c hc => hsub.subset hc
  have hn' : (base ++ ((A ++ q :: B) ++ ((A' ++ P :: B') ++ ups.flatten))).Nodup :=
    h.nodup.sublist ((hsub.append_right _).append_left _)
  have hPlen : (g.pairs P).length + 1 = (f.pairs P).length := by
    rw [hgP, h.siblings.pairs]
    rcases hq with ⟨-, -, rfl⟩ | ⟨-, -, k, rfl, -⟩ <;> simp <;> omega
  refine shrinks_of_merge h.order (hed.below_take hh h.linked h.nodup rfl (hgq.trans hM.symm) hq') (fun c hc => ?_)
    hshrunk ?_ (ih ?_) hlead
  · rw [IxFile.InnerOk, hed.isLeaf, hed.order, hed.minSize]
    by_cases hcq : c = q
    · subst hcq
      rw [hgq]
      refine ⟨?_, hlen.1, hlen.2⟩
      rcases hq' with ⟨rfl, -⟩ | ⟨rfl, -⟩
      · exact h.leftInner
      · exact h.rightInner
    · have hmem : c ∈ A ++ B := by simp only [List.mem_append, List.mem_cons] at hc ⊢; tauto
      rw [hh.same h.nodup (by simp only [List.mem_append] at hmem ⊢; tauto)]
      exact h.innerOk c hmem
  · simpa [List.flatten_cons] using hn'
  · refine ⟨by rw [hed.order]; exact h.order, hl', ha', fun c hc => ?_, ?_, (List.nodup_append.1 hn').2.1, fun c hc => ?_⟩
    · rw [IxFile.InnerOk, hed.isLeaf, hed.order, hed.minSize,
        hh.same h.nodup (by simp only [List.mem_append] at hc ⊢; tauto)]
      exact h.above.2.1 c (by simp only [List.mem_append, List.mem_cons] at hc ⊢; tauto)
    · obtain ⟨h1, h2, h3⟩ := h.above.2.1 P (by simp)
      rw [IxFile.LowOk, hed.isLeaf, hed.order, hed.minSize]
      exact ⟨h1, by omega, by omega⟩
    · have hmem : c ∈ (A ++ l :: r :: B) ++ ((A' ++ P :: B') ++ ups.flatten) := by
        rcases List.mem_append.1 hc with hc | hc
        · exact List.mem_append_left _ (hsubmem c hc)
        · exact List.mem_append_right _ hc
      obtain ⟨h1, h2, h3⟩ := hlive c hmem
      exact ⟨hed.has c h1, h2, by rw [hed.nextPage]; exact h3⟩

end spot

/-- With a right neighbour. -/
theorem Spot.repair_right {A' B' : List Int} {r : Int} (h : Spot f base A B A' B' ups p r P [] Y e e')
    (hpar : f.parent p = P) (hr : f.InnerOk false r) (hsize : (f.pairs p).length + 1 = f.minSize)
    (hlive : ∀ c ∈ base ++ ((A ++ p :: r :: B) ++ ((A' ++ P :: B') ++ ups.flatten)), f.Live c)
    (ih : Repairs κ fuel ups) : Shrinks (fuel + 1) f p base ((A ++ p :: r :: B) :: (A' ++ P :: B') :: ups) := by
  have htwo := h.two_le_minSize
  have hmax : f.minSize * 2 ≤ f.maxSize := Nat.div_mul_le_self ..
  have hord : f.maxSize = f.fileHdr.btreeOrder + 1 := rfl
  have hmin : (f.pairs p).length < f.minSize := by omega
  have hrmin : f.minSize ≤ (f.pairs r).length := hr.2.2
  have hrmax := hr.2.1
  have hne : f.pairs p ≠ [] := List.ne_nil_of_length_pos (by omega)
  have hP : f.Live P := hlive P (by simp)
  have hPne : P ≠ ixNoPage := by
    have := hP.2.1
    simp only [ixInitRootPage, ixNoPage] at this ⊢
    omega
  have hrhas : f.Has r := (hlive r (by simp)).1
  have hbase : ∀ x ∈ f.pairs p ++ f.pairs r, f.Has (IxNode.child x) := fun x hx =>
    (hlive _ (List.mem_append_left _ (h.mem_base (List.mem_append.1 hx)))).1
  obtain ⟨hpr, hPp, hPr, -⟩ := IxFile.distinct_siblings h.nodup
  have hs := h.siblings
  have hnth : (f.pairs P)[1]? = some e' := by simp [hs.pairs]
  by_cases hsum : f.minSize * 2 ≤ (f.pairs p).length + (f.pairs r).length
  · obtain ⟨m, m', N, hN⟩ := exists_cons_cons (htwo.trans hrmin)
    have hlen : (f.pairs r).length = N.length + 2 := by simp [hN]
    have hcarried : f.carried p [m] = [m].map IxNode.child := by rw [IxFile.carried, if_neg (by simp [h.leftInner])]
    refine h.share (q := p) (L := f.pairs p ++ [m]) (T := [m]) (R := m' :: N) (k := m'.1) (.inl ⟨rfl, rfl, hN⟩) hne rfl
      ?_ ?_ ?_
    · simp only [List.length_append, List.length_singleton]
      omega
    · simp only [List.length_cons]
      omega
    · refine leadsTo_coalesce_share (n := r) hpar hPne hmin hP.1 hs.pairs hs.left (by simp) rfl hnth hs.right hrhas hsum ?_
      rw [← hcarried]
      refine leadsTo_redistribute_right hpr hPp hPr (by omega) (fun _ => hbase m (by simp [hN])) hN hs.pairs hs.right ?_
      rw [hs.left]
      exact hpr
  · obtain ⟨m, L, hL⟩ := List.exists_cons_of_ne_nil hne
    refine h.take (q := r) (T := f.pairs p) (F := (m.1, e'.2) :: Y) rfl (.inr ⟨rfl, rfl, m.1, rfl, by simp [firstKey, hL]⟩)
      hne ?_ (fun c hc => hlive c (List.mem_append_right _ hc)) ih fun b f₂ hrec => ?_
    · rw [List.length_append]
      omega
    · refine leadsTo_coalesce_merge (n := r) hpar hPne hmin hP.1 hs.pairs hs.left (by simp) rfl hnth hs.right hrhas
        (by omega) ?_ hrec
      refine leadsTo_mergeInto_right h.rightInner hPr ?_ (fun x hx => hbase x (by simp [hx])) rfl (by simp [hL]) hs.pairs
      rw [List.length_append]
      omega

/-- With a left neighbour. -/
theorem Spot.repair_left {A' B' : List Int} {l : Int} (h : Spot f base A B A' B' ups l p P X Y e e')
    (hpar : f.parent p = P) (hl : f.InnerOk false l) (hsize : (f.pairs p).length + 1 = f.minSize)
    (hlive : ∀ c ∈ base ++ ((A ++ l :: p :: B) ++ ((A' ++ P :: B') ++ ups.flatten)), f.Live c)
    (ih : Repairs κ fuel ups) : Shrinks (fuel + 1) f p base ((A ++ l :: p :: B) :: (A' ++ P :: B') :: ups) := by
  have htwo := h.two_le_minSize
  have hmax : f.minSize * 2 ≤ f.maxSize := Nat.div_mul_le_self ..
  have hord : f.maxSize = f.fileHdr.btreeOrder + 1 := rfl
  have hmin : (f.pairs p).length < f.minSize := by omega
  have hlmin : f.minSize ≤ (f.pairs l).length := hl.2.2
  have hlmax := hl.2.1
  have hne : f.pairs l ≠ [] := List.ne_nil_of_length_pos (by omega)
  have hP : f.Live P := hlive P (by simp)
  have hPne : P ≠ ixNoPage := by
    have := hP.2.1
    simp only [ixInitRootPage, ixNoPage] at this ⊢
    omega
  have hlhas : f.Has l := (hlive l (by simp)).1
  have hbase : ∀ x ∈ f.pairs l ++ f.pairs p, f.Has (IxNode.child x) := fun x hx =>
    (hlive _ (List.mem_append_left _ (h.mem_base (List.mem_append.1 hx)))).1
  obtain ⟨hlp, hPl, hPp, hdis⟩ := IxFile.distinct_siblings h.nodup
  have hs := h.siblings
  have hpairs : f.pairs P = (X ++ [e]) ++ e' :: Y := by simp [hs.pairs]
  have hX : ∀ x ∈ X ++ [e], IxNode.child x ≠ p := by
    intro x hx
    rcases List.mem_append.1 hx with hx | hx
    · refine (hdis _ ?_).2.2
      have : IxNode.child x ∈ A := by
        rw [hs.before]
        exact List.mem_map_of_mem (List.mem_append_right _ hx)
      simp [this]
    · rw [List.mem_singleton.1 hx, hs.left]
      exact hlp
  have hj : X.length = if (X ++ [e]).length = 0 then 1 else (X ++ [e]).length - 1 := by simp
  have hnth : (f.pairs P)[X.length]? = some e := by simp [hs.pairs]
  have hlen : (X ++ [e]).length = X.length + 1 := by simp
  by_cases hsum : f.minSize * 2 ≤ (f.pairs p).length + (f.pairs l).length
  · obtain ⟨N, m, hN⟩ : ∃ N m, f.pairs l = N ++ [m] := ⟨_, _, (List.dropLast_append_getLast hne).symm⟩
    have hlenl : (f.pairs l).length = N.length + 1 := by simp [hN]
    have hcarried : f.carried p [m] = [m].map IxNode.child := by rw [IxFile.carried, if_neg (by simp [h.rightInner])]
    refine h.share (q := p) (L := N) (T := [m]) (R := m :: f.pairs p) (k := m.1) (.inr ⟨rfl, hN, rfl⟩) hne rfl ?_ ?_ ?_
    · omega
    · simp only [List.length_cons]
      omega
    · refine leadsTo_coalesce_share (n := l) hpar hPne hmin hP.1 hpairs hs.right hX hj hnth hs.left hlhas hsum ?_
      rw [← hcarried, hlen]
      exact leadsTo_redistribute_left hlp.symm hPp hPl (by omega) (fun _ => hbase m (by simp [hN])) hN hs.pairs
  · refine h.take (q := l) (T := f.pairs p) (F := X ++ e :: Y) rfl (.inl ⟨rfl, rfl, rfl⟩) hne ?_
      (fun c hc => hlive c (List.mem_append_right _ hc)) ih fun b f₂ hrec => ?_
    · rw [List.length_append]
      omega
    · refine leadsTo_coalesce_merge (n := l) hpar hPne hmin hP.1 hpairs hs.right hX hj hnth hs.left hlhas (by omega) ?_
        hrec
      rw [hlen]
      refine leadsTo_mergeInto_left h.leftInner hPl ?_ (fun x hx => hbase x (by simp [hx])) rfl hs.pairs
      rw [List.length_append]
      omega

/-- **A node that lost an entry is repaired, with all levels above it.** -/
theorem repairs : ∀ {ups : List (List Int)} {fuel : Nat}, ups.length < fuel → Repairs κ fuel ups
  | [], fuel + 1, _ => by
    intro f base A B p h
    obtain ⟨r, hr, hroot⟩ := h.above
    obtain ⟨rfl, rfl⟩ : A = [] ∧ B = [] := by
      cases A with
      | nil => exact ⟨rfl, (List.cons.inj hr).2⟩
      | cons a A => simp at hr
    refine shrinks_root h.linked h.above h.lowOk (by simpa using h.nodup) fun c hc => (h.live c ?_).1
    exact List.mem_append_left _ hc
  | up :: ups, fuel + 1, hfuel => by
    intro f base A B p h
    have hlow := h.lowOk
    have htwo : 2 ≤ f.minSize := by
      have := h.order
      simp only [IxFile.minSize, IxFile.maxSize]
      omega
    have hup : ∀ c ∈ up, 2 ≤ (f.pairs c).length := by
      intro c hc
      have := (h.above.2.1 c hc).2.2
      split at this <;> omega
    obtain ⟨A', P, B', rfl, hpar, hside⟩ := IxFile.exists_siblings h.above.1 hup
    have hPne : P ≠ ixNoPage := by
      have := (h.live P (by simp)).2.1
      simp only [ixInitRootPage, ixNoPage] at this ⊢
      omega
    by_cases hmin : f.minSize ≤ (f.pairs p).length
    · refine ⟨false, f, (A ++ p :: B) :: (A' ++ P :: B') :: ups, leadsTo_coalesce_full (by rwa [hpar]) hmin,
        ⟨h.linked, fun c hc => ?_, h.above⟩, IxFile.Shrunk.refl⟩
      by_cases hcp : c = p
      · subst hcp
        exact ⟨hlow.1, hlow.2.1, hmin⟩
      · exact h.innerOk c (by simp only [List.mem_append, List.mem_cons] at hc ⊢; tauto)
    · have hsize : (f.pairs p).length + 1 = f.minSize := Nat.le_antisymm (Nat.not_le.1 hmin) hlow.2.2
      have ih : Repairs κ fuel ups := repairs (Nat.lt_of_succ_lt_succ hfuel)
      rcases hside with ⟨r, B₁, e, e', Y, rfl, hs⟩ | ⟨A₁, l, X, e, e', Y, rfl, hs⟩
      · have hr := h.innerOk r (by simp)
        exact Spot.repair_right ⟨h.order, h.linked, h.above, hs, fun c hc => h.innerOk c (by grind), hlow.1, hr.1, h.nodup⟩
          hpar hr hsize h.live ih
      · have hl := h.innerOk l (by simp)
        have hcat : (A₁ ++ [l]) ++ p :: B = A₁ ++ l :: p :: B := by simp
        have hn := h.nodup
        have hlive := h.live
        have hlinked := h.linked
        have habove := h.above
        rw [hcat] at hn hlive hlinked habove ⊢
        exact Spot.repair_left ⟨h.order, hlinked, habove, hs, fun c hc => h.innerOk c (by grind), hl.1, hlow.1, hn⟩
          hpar hl hsize hlive ih

end levels

end IxIndexHandle

end Rmdb
