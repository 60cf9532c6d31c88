import Rmdb.Index.Delete

/-!
# The keys above a node

- `run_maintainParent`: a round of `maintain_parent`, with the pins it leaves;
- `Rekeyed`: only keys of inner nodes were written;
- `leadsTo_maintainParent`: after the first key of a node changed, the keys of it above are set, level by level.
-/

namespace Rmdb

open Lib

namespace IxIndexHandle

variable {κ : Type} {s : IxIndexHandle κ} {p c P : Int} {i : Nat} {X Y : List (κ × Rid)} {e : κ × Rid}

/-! ## Runs of single operations -/

theorem run_getNode : (getNode p).run s = (.ok (s.file.node p), s.touched p) := by
  simp [getNode, touch, Act.run_bind]

theorem run_pairAt (h : (s.file.pairs p)[i]? = some e) : (pairAt p i).run s = (.ok e, s.touched p) := by
  rw [pairAt, Act.run_bind_of_ok run_getNode, IxFile.node_pairs, h]
  rfl

theorem run_findChild (h : s.file.pairs p = X ++ e :: Y) (he : IxNode.child e = c)
    (hX : ∀ x ∈ X, IxNode.child x ≠ c) : (findChild p c).run s = (.ok X.length, s.touched p) := by
  have hidx : (s.file.node p).findChild c = some X.length := IxNode.findChild_eq h he hX
  rw [findChild, Act.run_bind_of_ok run_getNode, hidx]
  rfl

theorem run_assertUnpin (h : 0 < s.pins p) : (assertUnpin p).run s = (.ok (), (s.touched p).unpin p) := by
  have hunpin : (unpinPage p).run s = (.ok true, (s.touched p).unpin p) := by
    simp [unpinPage, touch, Act.run_bind, h]
  rw [assertUnpin, Act.run_bind_of_ok hunpin]
  rfl

theorem run_setKey {k : κ} (h : s.file.pairs p = X ++ e :: Y) (hi : i = X.length) : (setKey p i k).run s = (.ok (),
    { (s.touched p).touched p with file := s.file.setPairs p (X ++ (k, e.2) :: Y) }) := by
  have hset : (s.file.pairs p).set i (k, e.2) = X ++ (k, e.2) :: Y := by
    rw [h, hi, List.set_append_right _ _ (Nat.le_refl _), Nat.sub_self, List.set_cons_zero]
  rw [setKey, Act.run_bind_of_ok (run_pairAt (e := e) (by simp [h, hi])), ← hset]
  simp [modifyNode, touch, Act.run_bind]
  rfl

theorem touched_of_held (h : 0 < s.held p) : s.touched p = s := if_neg (Nat.ne_of_gt h)

@[simp] theorem file_pin : (s.pin p).file = s.file := rfl
@[simp] theorem answers_pin : (s.pin p).answers = s.answers := rfl
@[simp] theorem file_unpin : (s.unpin p).file = s.file := rfl
@[simp] theorem answers_unpin : (s.unpin p).answers = s.answers := rfl
@[simp] theorem loose_pin : (s.pin p).loose = s.loose := rfl
@[simp] theorem loose_unpin : (s.unpin p).loose = s.loose := rfl
@[simp] theorem pins_pin_self : (s.pin p).pins p = s.pins p + 1 := by simp [pin]
@[simp] theorem held_pin_self : (s.pin p).held p = s.held p + 1 := by simp [pin]

theorem held_le_pin (q : Int) : s.held q ≤ (s.pin p).held q := by
  by_cases h : q = p <;> simp [pin, h]

theorem unpin_pin : (s.pin p).unpin p = s := by
  simp [pin, unpin]

/-! ## The keys above a node -/

variable [DecidableEq κ] {f : IxFile κ} {n : Nat}

/-- A round of `maintain_parent`: the key of the node is what it is, or it is set and the loop goes on. The pins are the
same. -/
theorem run_maintainParent {e₀ : κ × Rid} (hs : Shows s f) (hpar : f.parent p = P) (hne : P ≠ ixNoPage) (hP : f.Has P)
    (hpairs : f.pairs P = X ++ e :: Y) (he : IxNode.child e = p) (hX : ∀ x ∈ X, IxNode.child x ≠ p)
    (hk : (f.pairs p)[0]? = some e₀) :
    ∃ s', s'.pins = s.pins ∧ s'.held = s.held ∧ (0 < s.held p → s'.loose = s.loose) ∧
      if e.1 = e₀.1 then (maintainParent (n + 1) p).run s = (.ok (), s') ∧ Shows s' f
      else (maintainParent (n + 1) p).run s = (maintainParent n P).run s' ∧
        Shows s' (f.setPairs P (X ++ (e₀.1, e.2) :: Y)) := by
  obtain ⟨rfl, ha⟩ := hs
  -- what the handles show while the parent is pinned
  let t := ((s.touched p).pin P).touched p
  have htP : 0 < t.held P := by simp [t]
  have htpins : 0 < t.pins P := by simp [t]
  have htouched : ((s.touched p).pin P).touched P = (s.touched p).pin P := touched_of_held (by simp)
  have hread : (maintainParent (n + 1) p).run s = (do
      if e.1 = e₀.1 then assertUnpin P
      else do
        setKey P X.length e₀.1
        assertUnpin P
        maintainParent n P : IxM κ Unit).run t := by
    rw [maintainParent, Act.run_bind_of_ok run_getNode]
    simp only [IxFile.node_parent, hpar, if_neg hne]
    rw [Act.run_bind_of_ok (run_fetchNode (p := P) (by simpa using hP) (by simpa using ha)),
      Act.run_bind_of_ok (run_findChild (by simpa using hpairs) he hX), htouched,
      Act.run_bind_of_ok (run_pairAt (e := e) (by simp [hpairs])), htouched,
      Act.run_bind_of_ok (run_pairAt (e := e₀) (by simpa using hk))]
  have hpins : (t.unpin P).pins = s.pins := by simp [t, pin, unpin]
  have hheld : (t.unpin P).held = s.held := by simp [t, pin, unpin]
  have hloose : 0 < s.held p → t.loose = s.loose := by
    intro hp
    have hp' : 0 < (s.pin P).held p := Nat.lt_of_lt_of_le hp (held_le_pin p)
    simp only [t, touched_of_held hp, touched_of_held hp', loose_pin]
  by_cases hkey : e.1 = e₀.1
  · refine ⟨t.unpin P, hpins, hheld, hloose, ?_⟩
    rw [if_pos hkey, hread, if_pos hkey, run_assertUnpin htpins, touched_of_held htP]
    exact ⟨rfl, by simp [t], by simpa [t] using ha⟩
  · let u : IxIndexHandle κ := { t with file := t.file.setPairs P (X ++ (e₀.1, e.2) :: Y) }
    refine ⟨u.unpin P, hpins, hheld, hloose, ?_⟩
    rw [if_neg hkey, hread, if_neg hkey, Act.run_bind_of_ok (run_setKey (by simpa [t] using hpairs) rfl),
      touched_of_held htP, touched_of_held htP, Act.run_bind_of_ok (run_assertUnpin (s := u) htpins),
      touched_of_held (s := u) htP]
    exact ⟨rfl, by simp [u, t], by simpa [u, t] using ha⟩

end IxIndexHandle

namespace IxFile

variable {κ : Type}

/-- Only keys of the nodes in `ups` were written. -/
structure Rekeyed (f f' : IxFile κ) (ups : List (List Int)) : Prop where
  fileHdr : f'.fileHdr = f.fileHdr
  nextPage : f'.nextPage = f.nextPage
  has : ∀ r, f.Has r → f'.Has r
  parent : f'.parent = f.parent
  same : ∀ r, r ∉ ups.flatten → f.SameNode f' r
  rids : ∀ r, (f'.pairs r).map Prod.snd = (f.pairs r).map Prod.snd

variable {f f' f'' : IxFile κ} {ups : List (List Int)} {up : List Int}

theorem Rekeyed.refl : f.Rekeyed f ups where
  fileHdr := rfl
  nextPage := rfl
  has _ h := h
  parent := rfl
  same _ _ := ⟨rfl, rfl, rfl, rfl⟩
  rids _ := rfl

theorem Rekeyed.trans (h : f.Rekeyed f' (up :: ups)) (h' : f'.Rekeyed f'' ups) : f.Rekeyed f'' (up :: ups) where
  fileHdr := h'.fileHdr.trans h.fileHdr
  nextPage := h'.nextPage.trans h.nextPage
  has r hr := h'.has r (h.has r hr)
  parent := h'.parent.trans h.parent
  same r hr := (h.same r hr).trans (h'.same r fun hu => hr (by simp [hu]))
  rids r := (h'.rids r).trans (h.rids r)

theorem Rekeyed.length (h : f.Rekeyed f' ups) (r : Int) : (f'.pairs r).length = (f.pairs r).length := by
  have := congrArg List.length (h.rids r)
  simpa using this

theorem rekeyed_setPairs {P : Int} {l : List (κ × Rid)} (hP : P ∈ ups.flatten)
    (hl : l.map Prod.snd = (f.pairs P).map Prod.snd) : f.Rekeyed (f.setPairs P l) ups where
  fileHdr := rfl
  nextPage := rfl
  has r hr := (f.has_setNode _ _).2 (.inr hr)
  parent := parent_setPairs f
  same r hr := by
    have hrP : r ≠ P := by
      rintro rfl
      exact hr hP
    constructor <;> simp [hrP]
  rids r := by
    by_cases h : r = P
    · subst h
      simpa using hl
    · simp [h]

end IxFile

namespace IxIndexHandle

variable {κ : Type} [DecidableEq κ] {f : IxFile κ} {A B : List Int} {ups : List (List Int)} {p : Int} {fuel : Nat}

/-- **The keys above a node are set to its first key.** Before, the levels above fitted other entries of the node. -/
theorem leadsTo_maintainParent {l : List (κ × Rid)} (hfuel : ups.length < fuel)
    (h : (f.setPairs p l).Above (A ++ p :: B) ups) (hn : ((A ++ p :: B) ++ ups.flatten).Nodup)
    (hlive : ∀ c ∈ ups.flatten, f.Live c) (hne : f.pairs p ≠ []) :
    ∃ f', LeadsTo (maintainParent fuel p) f () f' ∧ f'.Above (A ++ p :: B) ups ∧ f.Rekeyed f' ups := by
  induction ups generalizing f fuel A p B l with
  | nil =>
    obtain ⟨n, rfl⟩ : ∃ n, fuel = n + 1 := ⟨fuel - 1, by simp at hfuel; omega⟩
    obtain ⟨r, hr, hroot⟩ := h
    have hpr : p ∈ [r] := hr ▸ by simp
    obtain rfl := List.mem_singleton.1 hpr
    have hroot' : f.Root p := ⟨hroot.1, by simpa using hroot.2⟩
    refine ⟨f, Act.Leads.bind leadsTo_getNode ?_, ⟨p, hr, hroot'⟩, IxFile.Rekeyed.refl⟩
    rw [IxFile.node_parent, if_pos hroot'.2]
    exact Act.Leads.pure
  | cons up ups ih =>
    obtain ⟨n, rfl⟩ : ∃ n, fuel = n + 1 := ⟨fuel - 1, by simp at hfuel; omega⟩
    obtain ⟨A', P, B', X, e, Y, rfl, hP, he, hA, hB, hpar⟩ := h.1.find
    obtain ⟨e₀, l₀, hl₀⟩ := List.exists_cons_of_ne_nil hne
    rw [List.flatten_cons] at hn hlive
    have hnp : ∀ c ∈ (A' ++ P :: B') ++ ups.flatten, c ≠ p := fun c hc hcp =>
      (List.nodup_append.1 hn).2.2 p (by simp) c hc hcp.symm
    have hset : ∀ c, c ≠ p → (f.setPairs p l).pairs c = f.pairs c := fun c hc => by simp [hc]
    have hPp : P ≠ p := hnp P (by simp)
    have hPold := hP
    rw [hset P hPp] at hP
    rw [IxFile.parent_setPairs] at hpar
    have hlow : ∀ c ∈ A ++ B, c ≠ p := fun c hc hcp => by
      have hnd := List.nodup_middle.1 (List.nodup_append.1 hn).1
      exact (List.nodup_cons.1 hnd).1 (hcp ▸ hc)
    have hX : ∀ x ∈ X, IxNode.child x ≠ p := fun x hx => by
      refine hlow _ (List.mem_append_left _ ?_)
      rw [hA]
      exact List.mem_map_of_mem (List.mem_append_right _ hx)
    have hPlive : f.Live P := hlive P (by simp)
    have hPne : P ≠ ixNoPage := by
      have := hPlive.2.1
      simp only [ixInitRootPage, ixNoPage] at this ⊢
      omega
    -- the level above is linked as soon as the key of the node is its first one
    have hlinked : ∀ g : IxFile κ, g.pairs P = X ++ (e₀.1, e.2) :: Y → g.parent = f.parent →
        (∀ c ∈ (A ++ p :: B) ++ (A' ++ B'), g.pairs c = f.pairs c) →
        Linked Prod.fst IxNode.child g.pairs g.parent (A' ++ P :: B') (A ++ p :: B) := by
      intro g hgP hgpar hgsame
      have hchild : IxNode.child (e₀.1, e.2) = p := he
      suffices hh : Linked Prod.fst IxNode.child g.pairs g.parent (A' ++ P :: B')
          (A ++ [(e₀.1, e.2)].map IxNode.child ++ B) by simpa [hchild] using hh
      have hl := h.1
      rw [show A ++ p :: B = A ++ [e].map IxNode.child ++ B by simp [he]] at hl
      refine hl.replace (E := []) (by simpa using hPold) hA hB (by simpa using hgP) (fun r hr => ?_) (fun c hc => ?_)
        (fun _ => ?_) (by simp) (fun x hx => ?_) fun c hc => ?_
      · rw [hgsame r (List.mem_append_right _ hr), hset r (hnp r (by grind))]
      · exact firstKey_congr (by rw [hset c (hlow c hc), hgsame c (by grind)])
      · rw [hchild, firstKey, hgsame p (by simp), hl₀]
        rfl
      · rw [List.mem_singleton.1 hx, hchild, hgpar, hpar]
      · rw [hgpar, IxFile.parent_setPairs]
    have habove : ∀ g : IxFile κ, (∀ c ∈ (A' ++ P :: B') ++ ups.flatten, g.pairs c = f.pairs c) → g.parent = f.parent →
        g.isLeaf = f.isLeaf → g.fileHdr = f.fileHdr → g.Above (A' ++ P :: B') ups := by
      intro g hpairs hparent hleaf hhdr
      have hmem : ∀ c ∈ (A' ++ P :: B') ++ ups.flatten, g.pairs c = (f.setPairs p l).pairs c := fun c hc => by
        rw [hpairs c hc, hset c (hnp c hc)]
      refine h.2.2.congr (fun c hc => hmem c (List.mem_append_right _ hc)) (fun c hc => ?_) (fun c _ => ?_)
        (fun b c hc hok => ?_) fun c hc hok => ?_
      · exact firstKey_congr (hmem c (List.mem_append_left _ (List.mem_of_mem_tail hc)))
      · rw [hparent, IxFile.parent_setPairs]
      · have hmin : g.minSize = (f.setPairs p l).minSize := by
          rw [IxFile.minSize, IxFile.minSize, IxFile.maxSize, IxFile.maxSize, hhdr]
          rfl
        rw [IxFile.InnerOk, hmem c (List.mem_append_right _ hc), hleaf, hhdr, hmin]
        simpa [IxFile.InnerOk] using hok
      · rw [IxFile.Root, hhdr, hparent]
        exact ⟨hok.1, by simpa using hok.2⟩
    have hfirst : (f.pairs p)[0]? = some e₀ := by simp [hl₀]
    have hinner : ∀ c ∈ A' ++ P :: B', f.InnerOk ups.isEmpty c := fun c hc => by
      have hok := h.2.1 c hc
      rw [IxFile.InnerOk, hset c (hnp c (List.mem_append_left _ hc))] at hok
      simpa [IxFile.InnerOk] using hok
    by_cases hkey : e.1 = e₀.1
    · refine ⟨f, fun s hs => ?_, ⟨hlinked f ?_ rfl fun _ _ => rfl, hinner, habove f (fun _ _ => rfl) rfl rfl rfl⟩,
        IxFile.Rekeyed.refl⟩
      · obtain ⟨s', -, -, -, hrun⟩ := run_maintainParent (n := n) hs hpar hPne hPlive.1 hP he hX hfirst
        rw [if_pos hkey] at hrun
        exact ⟨s', hrun.1, hrun.2⟩
      · rw [hP, ← hkey]
    · -- the loop goes on with the parent
      obtain ⟨f₁, hf₁⟩ : ∃ f₁, f.setPairs P (X ++ (e₀.1, e.2) :: Y) = f₁ := ⟨_, rfl⟩
      have hP₁ : f₁.pairs P = X ++ (e₀.1, e.2) :: Y := by simp [← hf₁]
      have hother : ∀ c, c ≠ P → f₁.pairs c = f.pairs c := fun c hc => by simp [← hf₁, hc]
      have hnup := (List.nodup_append.1 hn).2.1
      have hPups : ∀ c ∈ A' ++ P :: B', c ∉ ups.flatten := fun c hc hc' => (List.nodup_append.1 hnup).2.2 c hc c hc' rfl
      have hback : (f₁.setPairs P (f.pairs P)).Above (A' ++ P :: B') ups := by
        refine habove _ (fun c _ => ?_) (by simp [← hf₁]) (by simp [← hf₁]) (by simp [← hf₁])
        by_cases hc : c = P
        · subst hc
          simp
        · simpa [hc] using hother c hc
      have hlive₁ : ∀ c ∈ ups.flatten, f₁.Live c := fun c hc => by
        obtain ⟨h1, h2, h3⟩ := hlive c (List.mem_append_right _ hc)
        rw [← hf₁]
        exact ⟨(f.has_setNode _ _).2 (.inr h1), h2, h3⟩
      obtain ⟨f', hx, hab, hrk⟩ := ih (by simpa using hfuel) hback hnup hlive₁ (by simp [hP₁])
      have hrekey : f.Rekeyed f₁ ((A' ++ P :: B') :: ups) := hf₁ ▸ IxFile.rekeyed_setPairs (by simp) (by simp [hP])
      refine ⟨f', fun s hs => ?_, ⟨hlinked f' ?_ ?_ fun c hc => ?_, fun c hc => ?_, hab⟩, hrekey.trans hrk⟩
      · obtain ⟨s', -, -, -, hrun⟩ := run_maintainParent (n := n) hs hpar hPne hPlive.1 hP he hX hfirst
        rw [if_neg hkey] at hrun
        rw [hrun.1]
        exact hx s' (hf₁ ▸ hrun.2)
      · rw [(hrk.same P (hPups P (by simp))).pairs, hP₁]
      · rw [hrk.parent, ← hf₁, IxFile.parent_setPairs]
      · have hcP : c ≠ P := by
          rintro rfl
          rcases List.mem_append.1 hc with hc | hc
          · exact (List.nodup_append.1 hn).2.2 c hc c (by simp) rfl
          · have hnd := List.nodup_middle.1 (List.nodup_append.1 hnup).1
            exact (List.nodup_cons.1 hnd).1 hc
        have hcups : c ∉ ups.flatten := by
          intro hc'
          rcases List.mem_append.1 hc with hc | hc
          · exact (List.nodup_append.1 hn).2.2 c hc c (List.mem_append_right _ hc') rfl
          · exact hPups c (by grind) hc'
        rw [(hrk.same c hcups).pairs, hother c hcP]
      · have hmin : f'.minSize = f.minSize := by
          rw [IxFile.minSize, IxFile.minSize, IxFile.maxSize, IxFile.maxSize, hrk.fileHdr, hrekey.fileHdr]
        have hleaf : f'.isLeaf c = f.isLeaf c := by
          rw [(hrk.same c (hPups c hc)).isLeaf, ← hf₁]
          simp
        rw [IxFile.InnerOk, hrk.length, hrekey.length, hleaf, hrk.fileHdr, hrekey.fileHdr, hmin]
        exact hinner c hc

end IxIndexHandle

end Rmdb
