import Rmdb.Index.IndexMap
import Rmdb.Index.Pins

/-!
# What a deletion touches without a pin

- `IxFile.KeepsPins`: without the entry that a leaf loses, the key above the leaf is still right, and no nodes are merged;
- `Tree.run_deleteEntry`: `delete_entry` gives back all its pins, and it touches no page behind its last pin on it
  exactly under this condition. Otherwise `maintain_parent` goes on from a parent it has unpinned, or the page id of a
  node is read for `delete_page`.
-/

namespace Rmdb

open Lib

namespace IxFile

variable {κ : Type} {f f' : IxFile κ} {A B : List Int} {ups : List (List Int)} {p : Int}

/-- The leaf can be left as it is: the key above it is its first one, and it is not merged. -/
def KeepsPins (f : IxFile κ) (p : Int) : Prop :=
  f.parent p = ixNoPage ∨ f.keyAbove p = (f.pairs p).head?.map Prod.fst ∧ f.KeepsNode p

theorem findChild_congr {n m : IxNode κ} {c : Int} (h : n.pairs.map Prod.snd = m.pairs.map Prod.snd) :
    n.findChild c = m.findChild c := by
  have hrids : ∀ l : List (κ × Rid), l.findIdx? (fun e => decide (IxNode.child e = c)) =
      (l.map Prod.snd).findIdx? fun r => decide (r.pageNo = c) := by
    intro l
    rw [List.findIdx?_map]
    rfl
  rw [IxNode.findChild, IxNode.findChild, hrids, hrids, h]

/-- Keys do not decide whether a node is merged. -/
theorem Rekeyed.keepsNode_iff (h : f.Rekeyed f' ups) : f'.KeepsNode p ↔ f.KeepsNode p := by
  have hrank : f'.rank p = f.rank p := by
    rw [rank, rank, h.parent]
    exact findChild_congr (h.rids _)
  have hsibling : f'.sibling p = f.sibling p := by
    have hchild : ∀ (q : Int) (i : Nat), (f'.pairs q)[i]?.map IxNode.child = (f.pairs q)[i]?.map IxNode.child := by
      intro q i
      have hi := congrArg (fun l => l[i]?.map Rid.pageNo) (h.rids q)
      simp only [List.getElem?_map, Option.map_map] at hi
      exact hi
    rw [sibling, sibling, hrank, h.parent]
    simp only [hchild]
  have hmin : f'.minSize = f.minSize := by
    rw [minSize, minSize, maxSize, maxSize, h.fileHdr]
  rw [KeepsNode, KeepsNode, h.parent, hsibling, hmin]
  simp only [h.length]

/-- The entry of a node in its parent. -/
theorem Above.exists_entry {up : List Int} (h : f.Above (A ++ p :: B) (up :: ups)) (hn : (A ++ p :: B).Nodup) :
    ∃ X e Y, f.parent p ∈ up ∧ f.pairs (f.parent p) = X ++ e :: Y ∧ IxNode.child e = p ∧
      (∀ x ∈ X, IxNode.child x ≠ p) ∧ f.keyAbove p = some e.1 := by
  obtain ⟨A', P, B', X, e, Y, rfl, hP, he, hA, -, rfl⟩ := h.1.find
  have hX : ∀ x ∈ X, IxNode.child x ≠ p := by
    rintro x hx rfl
    have hmem : IxNode.child x ∈ A := by
      rw [hA]
      exact List.mem_map_of_mem (List.mem_append_right _ hx)
    exact (List.nodup_cons.1 (List.nodup_middle.1 hn)).1 (List.mem_append_left _ hmem)
  refine ⟨X, e, Y, by simp, hP, he, hX, ?_⟩
  have hrank : f.rank p = some X.length := IxNode.findChild_eq hP he hX
  simp [keyAbove, hrank, hP]

end IxFile

namespace Ledger

variable {L M N : Ledger} {p : Int}

theorem Looser.loose_eq_iff (h : L.Looser M) : M.loose = L.loose ↔ M = L := by
  constructor
  · intro hl
    ext1
    · exact h.pins
    · exact h.held
    · exact hl
  · rintro rfl
    rfl

theorem Looser.eq_iff (h : L.Looser M) (h' : M.Looser N) : N = L ↔ M = L ∧ N = M := by
  constructor
  · rintro rfl
    have hl : M.loose = N.loose := h'.loose.eq_of_length_le h.loose.length_le |>.symm ▸ rfl
    have hM := h.loose_eq_iff.1 hl
    exact ⟨hM, hM.symm⟩
  · rintro ⟨rfl, rfl⟩
    rfl

/-- A page that was touched without a pin stays noted. -/
theorem Looser.loose_ne (hp : L.held p = 0) (h : (L.touched p).Looser M) : M.loose ≠ L.loose := by
  intro hl
  have hs := h.loose
  rw [hl, touched, if_pos hp] at hs
  have hlen := hs.length_le
  simp at hlen

end Ledger

namespace IxIndexHandle

variable {κ : Type} [LinearOrder κ] {f : IxFile κ} {A B : List Int} {ups : List (List Int)} {p : Int} {fuel : Nat}
  {L N : Ledger} {s s' : IxIndexHandle κ}

/-- `maintain_parent` from a leaf with a pin touches no page without one when the key above the leaf is right. -/
theorem ledger_maintainParent {l : List (κ × Rid)} (h : (f.setPairs p l).Above (A ++ p :: B) ups)
    (hn : ((A ++ p :: B) ++ ups.flatten).Nodup) (hlive : ∀ c ∈ ups.flatten, f.Live c)
    (hne : ups ≠ [] → f.pairs p ≠ []) (hs : Shows s f) (hL : s.ledger = L.pin p) (hheld : ∀ q, L.held q = 0)
    (hrun : (if 0 < (f.pairs p).length then maintainParent fuel p else pure () : IxM κ Unit).run s = (.ok (), s')) :
    ∃ N, s'.ledger = N.pin p ∧ L.Looser N ∧
      (N = L ↔ f.parent p = ixNoPage ∨ f.keyAbove p = (f.pairs p).head?.map Prod.fst) := by
  have hp : 0 < s.held p := by
    have : 0 < s.ledger.held p := hL ▸ L.held_pin_pos p
    exact this
  cases ups with
  | nil =>
    obtain ⟨r, hr, hroot⟩ := h
    have hpr : p ∈ [r] := hr ▸ by simp
    obtain rfl := List.mem_singleton.1 hpr
    have hpar : f.parent p = ixNoPage := by simpa using hroot.2
    have hsame : s' = s := by
      split at hrun
      · cases fuel with
        | zero => cases hrun
        | succ n =>
          rw [maintainParent, Act.run_bind_of_ok run_getNode, touched_of_held hp, hs.1, IxFile.node_parent, if_pos hpar]
            at hrun
          exact (Prod.mk.inj hrun).2.symm
      · exact (Prod.mk.inj hrun).2.symm
    exact ⟨L, hsame ▸ hL, .refl, iff_of_true rfl (.inl hpar)⟩
  | cons up ups =>
    obtain ⟨X, e, Y, hmem, hP, he, hX, hkey⟩ := IxFile.Above.exists_entry h (List.nodup_append.1 hn).1
    rw [IxFile.parent_setPairs] at hmem hP
    have hPp : f.parent p ≠ p := by
      intro hPp
      rw [hPp] at hmem
      exact (List.nodup_append.1 hn).2.2 p (by simp) p (by simp [hmem]) rfl
    have hkey' : f.keyAbove p = some e.1 := by
      rw [← hkey, IxFile.keyAbove, IxFile.keyAbove, IxFile.rank, IxFile.rank, IxFile.parent_setPairs]
      simp [IxFile.setPairs, IxFile.node_setNode, hPp]
    rw [IxFile.pairs_setNode, Function.update_of_ne hPp] at hP
    have hPlive := hlive (f.parent p) (by simp [hmem])
    have hPne : f.parent p ≠ ixNoPage := by
      have := hPlive.2.1
      simp only [ixInitRootPage, ixNoPage] at this ⊢
      omega
    obtain ⟨e₀, l₀, hl₀⟩ := List.exists_cons_of_ne_nil (hne (by simp))
    rw [if_pos (by simp [hl₀])] at hrun
    cases fuel with
    | zero => cases hrun
    | succ n =>
      obtain ⟨t, hpins, hheldt, hloose, hround⟩ :=
        run_maintainParent (n := n) hs rfl hPne hPlive.1 hP he hX (show (f.pairs p)[0]? = some e₀ by simp [hl₀])
      have ht : t.ledger = L.pin p := by
        rw [← hL]
        exact Ledger.ext hpins hheldt (hloose hp)
      have hhead : (f.pairs p).head?.map Prod.fst = some e₀.1 := by simp [hl₀]
      rw [hkey', hhead, Option.some_inj]
      split at hround
      case isTrue heq =>
        have hsame : s' = t := (Prod.mk.inj (hrun.symm.trans hround.1)).2
        exact ⟨L, hsame ▸ ht, .refl, iff_of_true rfl (.inr heq)⟩
      case isFalse hkeys =>
        -- the loop goes on with the parent, which has no pin
        have hP0 : (L.pin p).held (f.parent p) = 0 := by simp [Ledger.pin, hPp, hheld]
        have hlooser := from_maintainParent.ok ht (hround.1.symm.trans hrun)
        obtain ⟨N, hN, hLN⟩ := Ledger.Looser.of_pin (Ledger.looser_touched.trans hlooser)
        refine ⟨N, hN, hLN, iff_of_false ?_ (by simp [hPne, hkeys])⟩
        rintro rfl
        rw [hN] at hlooser
        exact hlooser.loose_ne hP0 rfl

omit [LinearOrder κ] in
/-- The rest of `fix_leaf` touches the leaf without a pin when it is merged. -/
theorem ledger_fill {b : Bool} {f' : IxFile κ} (hlead : LeadsTo (coalesceOrRedistribute fuel p) f b f') (hs : Shows s f)
    (hN : s.ledger = N.pin p) (hheld : N.held p = 0) :
    ∃ s', (do
        let leafShouldDelete ← coalesceOrRedistribute fuel p
        let _ ← unpinPage p
        deleteIf leafShouldDelete p : IxM κ Unit).run s = (.ok (), s') ∧ Shows s' f' ∧ N.Looser s'.ledger ∧
      (s'.ledger = N ↔ b = false) := by
  obtain ⟨t, hrun, ht⟩ := hlead s hs
  obtain ⟨hlooser, hkept⟩ := (from_coalesceOrRedistribute (N.held_pin_pos p)).ok hN hrun
  obtain ⟨M, hM, hNM⟩ := Ledger.Looser.of_pin hlooser
  obtain ⟨s', hrest, hs'⟩ := leadsTo_unpinPage (p := p) (leadsTo_deleteIf (b := b)) t ht
  have hledger := (books_unpinPage.bind fun _ => books_deleteIf (b := b)).ok hM hrest
  refine ⟨s', ?_, hs', ?_, ?_⟩
  · rw [Act.run_bind_of_ok hrun]
    exact hrest
  · rw [hledger]
    split
    · exact hNM.trans Ledger.looser_touched
    · exact hNM
  · cases b with
    | false =>
      rw [hkept rfl] at hM
      have hMN : M = N := by
        rw [← M.unpin_pin p, ← hM, Ledger.unpin_pin]
      simp [hledger, hMN]
    | true =>
      have hMheld : M.held p = 0 := by rw [hNM.held, hheld]
      refine iff_of_false ?_ (by simp)
      rw [hledger, if_pos rfl]
      intro heq
      have hsub := hNM.loose.length_le
      rw [← heq, Ledger.touched, if_pos hMheld] at hsub
      simp at hsub

end IxIndexHandle

namespace IxFile.Tree

open IxIndexHandle

variable {κ : Type} [LinearOrder κ] {f : IxFile κ} {leaves A B : List Int} {ups : List (List Int)} {fuel : Nat} {k : κ}
  {p : Int} {X Y : List (κ × Rid)} {r : Rid} {s : IxIndexHandle κ}

/-- The pairs of a leaf without those of a key. -/
theorem filter_ne_key (h : f.Tree (A ++ p :: B) ups) (hp : f.pairs p = X ++ (k, r) :: Y) :
    (f.pairs p).filter (fun e => e.1 ≠ k) = X ++ Y := by
  have hs := h.sorted_leaf
  rw [hp, List.map_append, List.map_cons, List.pairwise_append, List.pairwise_cons] at hs
  have hX : ∀ e ∈ X, e.1 ≠ k := fun e he => ne_of_lt (hs.2.2 _ (List.mem_map_of_mem he) _ (by simp))
  have hY : ∀ e ∈ Y, e.1 ≠ k := fun e he => ne_of_gt (hs.2.1.1 _ (List.mem_map_of_mem he))
  rw [hp, List.filter_append, List.filter_cons_of_neg (by simp), List.filter_eq_self.2 (by simpa using hX),
    List.filter_eq_self.2 (by simpa using hY)]

section found
variable (h : f.Tree (A ++ p :: B) ups) (hfuel : ups.length < fuel) (hs : Shows s f) (hheld : ∀ q, s.held q = 0)
  (hfind : LeadsTo (findLeafPage fuel k) f p f)
include h hfuel hs hheld hfind

/-- The entry of the key is taken out of its leaf. -/
theorem run_deleteEntry_present (hp : f.pairs p = X ++ (k, r) :: Y) : ∃ s' f' leaves' ups',
    (IxIndexHandle.deleteEntry fuel k).run s = (.ok true, s') ∧ Shows s' f' ∧ f'.Tree leaves' ups' ∧
      s.ledger.Looser s'.ledger ∧ (s'.ledger = s.ledger ↔ (f.setPairs p (X ++ Y)).KeepsPins p) := by
  have hsp := h.sorted_leaf
  have hL := s.ledger.held_pin_pos p
  obtain ⟨s₁, hrun₁, hs₁⟩ := hfind s hs
  have hL₁ : s₁.ledger = s.ledger.pin p := books_findLeafPage.ok rfl hrun₁
  obtain ⟨s₂, hrun₂, hs₂⟩ := (leadsTo_getNode (p := p)) s₁ hs₁
  have hL₂ : s₂.ledger = s.ledger.pin p := (books_getNode hL).ok hL₁ hrun₂
  obtain ⟨s₃, hrun₃, hs₃⟩ := leadsTo_remove_present hsp hp s₂ hs₂
  have hL₃ : s₃.ledger = s.ledger.pin p := (books_remove hL).ok hL₂ hrun₃
  obtain ⟨s₄, hrun₄, hs₄⟩ := (leadsTo_getNode (p := p)) s₃ hs₃
  have hL₄ : s₄.ledger = s.ledger.pin p := (books_getNode hL).ok hL₃ hrun₄
  obtain ⟨hground, hback, hfill, -⟩ := h.unfilled hp
  obtain ⟨f₁, b, hx, hrk, ⟨f', leaves', ups', hlead, ht, -⟩, hb, -⟩ := exists_rekeyed hground hback hfill hfuel
  obtain ⟨s₅, hrun₅, hs₅⟩ := hx s₄ hs₄
  have hempty : ups ≠ [] → (f.setPairs p (X ++ Y)).pairs p ≠ [] := by
    intro hups
    have hlow := (hfill hups).2
    have hord := hground.order
    rw [← List.length_pos_iff]
    simp only [IxFile.minSize, IxFile.maxSize] at hlow
    omega
  obtain ⟨N, hN, hLN, hclimb⟩ := ledger_maintainParent hback (by simpa using hground.nodup)
    (fun c hc => hground.live c (List.mem_append_right _ hc)) hempty hs₄ hL₄ hheld hrun₅
  obtain ⟨s', hrun', hs', hNs', hend⟩ := ledger_fill hlead hs₅ hN (by rw [hLN.held]; exact hheld p)
  refine ⟨s', f', leaves', ups', ?_, hs', ht, hLN.trans hNs', ?_⟩
  · have hfix : (fixLeaf fuel p).run s₃ = (.ok (), s') := by
      rw [fixLeaf, Act.run_bind_of_ok hrun₄]
      exact (Act.run_bind_of_ok hrun₅).trans hrun'
    rw [IxIndexHandle.deleteEntry, Act.run_bind_of_ok hrun₁, Act.run_bind_of_ok hrun₂, Act.run_bind_of_ok hrun₃,
      if_neg (by rw [node_size, hp]; simp), Act.run_bind_of_ok hfix]
    rfl
  · rw [hrk.keepsNode_iff] at hb
    rw [hLN.eq_iff hNs', hend, hclimb, hb, KeepsPins]
    constructor
    · rintro ⟨hpar | hkey, hkeep⟩
      · exact .inl hpar
      · exact .inr ⟨hkey, hkeep⟩
    · rintro (hpar | ⟨hkey, hkeep⟩)
      · exact ⟨.inl hpar, .inl hpar⟩
      · exact ⟨.inr hkey, hkeep⟩

omit hfuel hheld in
/-- There is no entry of the key. -/
theorem run_deleteEntry_absent (hk : ¬∃ r, (k, r) ∈ f.pairs p) : ∃ s',
    (IxIndexHandle.deleteEntry fuel k).run s = (.ok false, s') ∧ Shows s' f ∧ s'.ledger = s.ledger := by
  have hL := s.ledger.held_pin_pos p
  obtain ⟨s₁, hrun₁, hs₁⟩ := hfind s hs
  have hL₁ : s₁.ledger = s.ledger.pin p := books_findLeafPage.ok rfl hrun₁
  obtain ⟨s₂, hrun₂, hs₂⟩ := (leadsTo_getNode (p := p)) s₁ hs₁
  have hL₂ : s₂.ledger = s.ledger.pin p := (books_getNode hL).ok hL₁ hrun₂
  obtain ⟨s₃, hrun₃, hs₃⟩ := leadsTo_remove_absent h.sorted_leaf hk s₂ hs₂
  have hL₃ : s₃.ledger = s.ledger.pin p := (books_remove hL).ok hL₂ hrun₃
  obtain ⟨s', hrun', hs'⟩ := leadsTo_unpinPage (p := p) (Act.Leads.pure (a := false)) s₃ hs₃
  refine ⟨s', ?_, hs', (books_unpinPage.bind fun _ => books_pure).ok hL₃ hrun'⟩
  rw [IxIndexHandle.deleteEntry, Act.run_bind_of_ok hrun₁, Act.run_bind_of_ok hrun₂, Act.run_bind_of_ok hrun₃,
    if_pos (by rw [node_size])]
  exact hrun'

end found

/-- **`delete_entry` gives back its pins, and touches no page without one exactly when the leaf of the key can be left
without the entry as it is.** -/
theorem run_deleteEntry (h : f.Tree leaves ups) (hfuel : ups.length < fuel) (hs : Shows s f)
    (hheld : ∀ q, s.held q = 0) : ∃ b s' f' leaves' ups', (IxIndexHandle.deleteEntry fuel k).run s = (.ok b, s') ∧
      (b = true ↔ ∃ r, (k, r) ∈ f.entries leaves) ∧ Shows s' f' ∧ f'.Tree leaves' ups' ∧ s.ledger.Looser s'.ledger ∧
      (s'.loose = s.loose ↔ ∀ p ∈ leaves, (∃ r, (k, r) ∈ f.pairs p) →
        (f.setPairs p ((f.pairs p).filter fun e => e.1 ≠ k)).KeepsPins p) := by
  obtain ⟨p, hr, hfind⟩ := h.leadsTo_findLeafPage (k := k) hfuel
  obtain ⟨A, B, rfl, -, hA, hB, -⟩ := h.entries_route hr
  -- the key is in no other leaf
  have honly : ∀ q ∈ A ++ p :: B, (∃ r, (k, r) ∈ f.pairs q) → q = p := by
    rintro q hq ⟨r, hk⟩
    rcases List.mem_append.1 hq with hq | hq
    · exact absurd (hA _ (List.mem_flatMap.2 ⟨q, hq, hk⟩)) (lt_irrefl _)
    · rcases List.mem_cons.1 hq with hq | hq
      · exact hq
      · exact absurd (hB _ (List.mem_flatMap.2 ⟨q, hq, hk⟩)) (lt_irrefl _)
  by_cases hmem : ∃ r, (k, r) ∈ f.pairs p
  · obtain ⟨r, hk⟩ := hmem
    obtain ⟨X, Y, hp⟩ := List.append_of_mem hk
    obtain ⟨s', f', leaves', ups', hrun, hs', ht, hL, hiff⟩ := h.run_deleteEntry_present hfuel hs hheld hfind hp
    rw [← h.filter_ne_key hp] at hiff
    have hentry : ∃ r, (k, r) ∈ f.entries (A ++ p :: B) := ⟨r, List.mem_flatMap.2 ⟨p, by simp, hk⟩⟩
    refine ⟨true, s', f', leaves', ups', hrun, iff_of_true rfl hentry, hs', ht, hL, (hL.loose_eq_iff.trans hiff).trans ⟨?_, ?_⟩⟩
    · intro hkeep q hq hqk
      rw [honly q hq hqk]
      exact hkeep
    · exact fun hall => hall p (by simp) ⟨r, hk⟩
  · obtain ⟨s', hrun, hs', hL⟩ := h.run_deleteEntry_absent hs hfind hmem
    have hentry : ¬∃ r, (k, r) ∈ f.entries (A ++ p :: B) := by
      rintro ⟨r, hk⟩
      obtain ⟨q, hq, hqk⟩ := List.mem_flatMap.1 hk
      exact hmem (honly q hq ⟨r, hqk⟩ ▸ ⟨r, hqk⟩)
    refine ⟨false, s', f, _, ups, hrun, iff_of_false (by simp) hentry, hs', h, hL ▸ .refl,
      iff_of_true (congrArg Ledger.loose hL) ?_⟩
    exact fun q hq hqk => absurd (honly q hq hqk ▸ hqk) hmem

end IxFile.Tree

/-! ## Deletions from an index -/

namespace IxIndexHandle

variable {κ : Type} [LinearOrder κ] {L : Ledger} {fuel : Nat}

theorem loosens_perform (c : IndexCall κ) : Loosens L (c.perform fuel) := by
  cases c with
  | insertEntry key value =>
    exact books_insertEntry.loosens.bind fun _ _ _ => books_pure.loosens
  | deleteEntry key => exact loosens_deleteEntry.bind fun _ _ _ => books_pure.loosens
  | getValue key => exact books_getValue.loosens.bind fun _ _ _ => books_pure.loosens

/-- No sequence of calls keeps a pin. -/
theorem loosens_performAll : ∀ {L : Ledger} (calls : List (IndexCall κ)), Loosens L (IndexCall.performAll fuel calls)
  | _, [] => books_pure.loosens
  | _, c :: calls => (loosens_perform c).bind fun _ _ _ => (loosens_performAll calls).bind fun _ _ _ => books_pure.loosens

end IxIndexHandle

section exact
open IxIndexHandle
variable {S : ExactCols} {next : Int}

/-- **Every deletion from every index**: no page has a pin before or after it. It touches a page without a pin exactly
when the leaf of its key cannot be left without the entry as it is. -/
theorem deleteEntry_newIndex (hcols : IxManager.Accepted S.cols) (hnext : ixInitNumPages ≤ next)
    (calls : List (IndexCall S.Key)) (k : S.Key) {fuel : Nat} (hfuel : calls.length < fuel) :
    ∃ s leaves ups, (IndexCall.performAll fuel calls).run (newIndex S next) =
        (.ok (IndexCall.meanings (fun _ => none) calls).1, s) ∧ s.file.Tree leaves ups ∧ (∀ p, s.pins p = 0) ∧
      ∃ s', (IxIndexHandle.deleteEntry fuel k).run s =
          (.ok ((IndexCall.meanings (fun _ => none) calls).2 k).isSome, s') ∧ (∀ p, s'.pins p = 0) ∧
        (s'.loose = s.loose ↔ ∀ p ∈ leaves, (∃ r, (k, r) ∈ s.file.pairs p) →
          (s.file.setPairs p ((s.file.pairs p).filter fun e => e.1 ≠ k)).KeepsPins p) := by
  obtain ⟨s, f, leaves, ups, hrun, hs, ht, hm, hlen⟩ := exists_run_newIndex hcols hnext calls hfuel
  have hL := (loosens_performAll calls).ok (rfl : (newIndex S next).ledger = _) hrun
  obtain rfl : s.file = f := hs.1
  obtain ⟨b, s', f', leaves', ups', hdel, hb, -, -, hL', hiff⟩ := ht.run_deleteEntry (k := k)
    (Nat.lt_of_le_of_lt (ht.depth_le.trans hlen) hfuel) hs fun q => congrFun hL.held q
  have hbm : b = ((IndexCall.meanings (fun _ => none) calls).2 k).isSome := by
    rw [Bool.eq_iff_iff, hb, hm.isSome_iff]
  refine ⟨s, leaves, ups, hrun, ht, fun p => congrFun hL.pins p, s', hbm ▸ hdel, fun p => ?_, hiff⟩
  exact (congrFun hL'.pins p).trans (congrFun hL.pins p)

/-- The only leaf is the root, and its parent is no page. -/
theorem deleteEntry_newIndex_one : ∃ s s', (IndexCall.performAll 2 [.insertEntry (intKey 1) ⟨1, 0⟩]).run
      (newIndex intCols 3) = (.ok [.inserted], s) ∧
    (IxIndexHandle.deleteEntry 2 (intKey 1)).run s = (.ok true, s') ∧ ∀ p, s'.pins p = 0 := by
  obtain ⟨s, leaves, ups, hrun, -, -, s', hdel, hpins, -⟩ := deleteEntry_newIndex accepted_intCols
    (show ixInitNumPages ≤ 3 by decide) [.insertEntry (intKey 1) ⟨1, 0⟩] (intKey 1) (Nat.lt_succ_self 1)
  exact ⟨s, s', hrun, hdel, hpins⟩

end exact

end Rmdb
