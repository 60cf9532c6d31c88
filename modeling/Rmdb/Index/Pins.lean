import Rmdb.Index.RangeScan

/-!
# The pins of an index operation

- `Ledger`: the pins of the pages, those of the running operation, and the pages it touched without a pin of its own;
- `Books L x L'`: from the ledger `L`, the computation `x` leaves the ledger `L'` when it returns, whatever the pages
  hold and whatever the pool answers. One rule for each operation of a node, and one lemma for each operation of the
  handle: a search and an insertion give back all pins and touch no page without one, `IxScan::next` keeps a pin.
-/

namespace Rmdb

open Lib

/-- The pins of the pages, the pins of the running operation and the pages it touched without one. -/
@[ext] structure Ledger where
  pins : Int → Nat
  held : Int → Nat
  loose : List Int

namespace Ledger

variable (L : Ledger) (p q : Int)

def pin : Ledger where
  pins := Function.update L.pins p (L.pins p + 1)
  held := Function.update L.held p (L.held p + 1)
  loose := L.loose

def unpin : Ledger where
  pins := Function.update L.pins p (L.pins p - 1)
  held := Function.update L.held p (L.held p - 1)
  loose := L.loose

/-- A page is touched, with a pin or without. -/
def touched : Ledger := if L.held p = 0 then { L with loose := p :: L.loose } else L

@[simp] theorem unpin_pin : (L.pin p).unpin p = L := by simp [pin, unpin]

theorem pin_comm : (L.pin p).pin q = (L.pin q).pin p := by
  by_cases h : p = q
  · rw [h]
  · simp [pin, Ne.symm h, h, Function.update_comm h]

@[simp] theorem loose_pin : (L.pin p).loose = L.loose := rfl

@[simp] theorem held_pin_pos : 0 < (L.pin p).held p := by simp [pin]

variable {L q} in
theorem held_pin_of_pos (h : 0 < L.held q) : 0 < (L.pin p).held q := by
  by_cases hq : q = p <;> simp [pin, hq]
  simpa [hq] using h

end Ledger

namespace IxIndexHandle

variable {κ α β : Type}

def ledger (s : IxIndexHandle κ) : Ledger := ⟨s.pins, s.held, s.loose⟩

/-- From the ledger `L` the computation returns in `Q`, if it returns. -/
abbrev From (L : Ledger) (x : IxM κ α) (Q : α → IxIndexHandle κ → Prop) : Prop :=
  Act.Triple (fun s => s.ledger = L) x Q fun _ _ => True

/-- From the ledger `L` the computation leaves `L'` when it returns. -/
abbrev Books (L : Ledger) (x : IxM κ α) (L' : α → Ledger) : Prop := From L x fun a s => s.ledger = L' a

section rules
variable {L : Ledger} {M : α → Ledger} {Q : α → IxIndexHandle κ → Prop} {R : β → IxIndexHandle κ → Prop} {p : Int}
  {g : α → IxM κ β} {x : IxM κ α}

theorem books_pure {a : α} : Books L (pure a : IxM κ α) fun _ => L := Act.Triple.pure fun _ hs => hs

/-- The handle that is returned keeps its pin. -/
theorem books_return : Books (L.pin p) (pure p : IxM κ Int) fun p => L.pin p := Act.Triple.pure fun _ hs => hs

theorem books_throw {e : Fault} : From L (Act.throw e : IxM κ α) Q := Act.Triple.throw fun _ _ => trivial

theorem books_get_bind {g : IxIndexHandle κ → IxM κ β} (h : ∀ s, From L (g s) R) : From L (Act.get >>= g) R :=
  Act.Triple.bind (Act.Triple.get fun _ hs => hs) h

theorem Books.bind (hx : Books L x M) (hg : ∀ a, From (M a) (g a) R) : From L (x >>= g) R :=
  Act.Triple.bind hx hg

/-- After a computation that leaves the ledger. -/
theorem Books.keep_bind (hx : Books L x fun _ => L) (hg : ∀ a, From L (g a) R) : From L (x >>= g) R := hx.bind hg

theorem Books.ite {c : Prop} [Decidable c] {x y : IxM κ α} (hx : From L x Q) (hy : From L y Q) :
    From L (if c then x else y) Q := by
  split
  · exact hx
  · exact hy

theorem Books.forM {as : List α} {f : α → IxM κ Unit} (h : ∀ a, Books L (f a) fun _ => L) :
    Books L (as.forM f) fun _ => L := Act.Triple.forM as fun a _ => h a

/-- A write to the file. -/
theorem books_modify {g : IxIndexHandle κ → IxIndexHandle κ} (h : ∀ s, (g s).ledger = s.ledger) :
    Books L (Act.modify g) fun _ => L := Act.Triple.modify fun s hs => (h s).trans hs

theorem books_modifyHdr {g : IxFileHdr → IxFileHdr} : Books L (modifyHdr g : IxM κ Unit) fun _ => L :=
  books_modify fun _ => rfl

theorem books_updateRootPageNo : Books L (updateRootPageNo p : IxM κ Unit) fun _ => L := books_modifyHdr

theorem books_touch (hp : 0 < L.held p) : Books L (touch p : IxM κ Unit) fun _ => L := by
  refine Act.Triple.modify fun s hs => ?_
  have hheld : 0 < s.held p := by
    rw [← hs] at hp
    exact hp
  rw [touched_of_held hheld, hs]

theorem books_request : Books L (request : IxM κ Unit) fun _ => L := by
  refine books_get_bind fun s => ?_
  cases s.answers with
  | nil => exact books_pure
  | cons a rest =>
    cases a with
    | none => exact books_modify fun _ => rfl
    | some e => exact Books.keep_bind (β := Unit) (books_modify fun _ => rfl) fun _ => books_throw

/-- A page that is fetched has one more pin. -/
theorem books_fetchNode_bind {g : Int → IxM κ β} (h : From (L.pin p) (g p) R) : From L (fetchNode p >>= g) R := by
  have hfetch : Act.Triple (fun s => s.ledger = L) (fetchNode p : IxM κ Int)
      (fun q s => q = p ∧ s.ledger = L.pin p) fun _ _ => True := by
    refine Act.Triple.bind books_request fun _ => Act.Triple.bind (Q := fun _ s => s.ledger = L)
      (Act.Triple.get fun _ hs => hs) fun s => ?_
    split
    · refine Act.Triple.bind (Q := fun _ s => s.ledger = L.pin p) (Act.Triple.modify fun s hs => ?_) fun _ =>
        Act.Triple.pure fun _ hs => ⟨rfl, hs⟩
      rw [← hs]
      rfl
    · exact Act.Triple.throw fun _ _ => trivial
  refine Act.Triple.bind hfetch fun q => Act.Triple.of_and ?_
  rintro rfl
  exact h

/-- So has a page that is created. -/
theorem books_createNode : Books L (createNode : IxM κ Int) fun p => L.pin p := by
  refine books_modifyHdr.keep_bind fun _ => books_request.keep_bind fun _ =>
    books_get_bind fun s => Books.keep_bind (books_modify fun _ => rfl) fun _ => ?_
  refine Act.Triple.bind (Q := fun _ t => t.ledger = L.pin s.file.nextPage) (Act.Triple.modify fun t ht => ?_) fun _ =>
    Act.Triple.pure fun _ ht => ht
  rw [← ht]
  rfl

theorem books_unpinPage : Books (L.pin p) (unpinPage p : IxM κ Bool) fun _ => L := by
  refine Books.keep_bind (books_touch (L.held_pin_pos p)) fun _ => books_get_bind fun s => ?_
  refine Act.Triple.bind (Q := fun _ t => t.ledger = L) (Act.Triple.modify fun t ht => ?_) fun _ =>
    Act.Triple.pure fun _ ht => ht
  show t.ledger.unpin p = L
  rw [ht, Ledger.unpin_pin]

section held
variable (hp : 0 < L.held p)
include hp

theorem books_getNode : Books L (getNode p : IxM κ (IxNode κ)) fun _ => L :=
  (books_touch hp).keep_bind fun _ => books_get_bind fun _ => books_pure

theorem books_modifyNode {g : IxNode κ → IxNode κ} : Books L (modifyNode p g) fun _ => L :=
  (books_touch hp).keep_bind fun _ => books_modify fun _ => rfl

theorem books_insertPairs {i : Nat} {ps : List (κ × Rid)} : Books L (insertPairs p i ps) fun _ => L :=
  (books_touch hp).keep_bind fun _ => books_get_bind fun _ =>
    Books.ite books_pure (Books.ite books_throw (books_modifyNode hp))

theorem books_pairAt {i : Nat} : Books L (pairAt p i : IxM κ (κ × Rid)) fun _ => L := by
  refine (books_getNode hp).keep_bind fun n => ?_
  cases n.pairs[i]? with
  | none => exact books_throw
  | some e => exact books_pure

theorem books_setKey {i : Nat} {k : κ} : Books L (setKey p i k) fun _ => L :=
  (books_pairAt hp).keep_bind fun _ => books_modifyNode hp

theorem books_findChild {c : Int} : Books L (findChild p c : IxM κ Nat) fun _ => L := by
  refine (books_getNode hp).keep_bind fun n => ?_
  cases n.findChild c with
  | none => exact books_throw
  | some i => exact books_pure

theorem books_maintainChild {i : Nat} : Books L (maintainChild p i : IxM κ Unit) fun _ => L := by
  refine (books_getNode hp).keep_bind fun n => Books.ite books_pure ((books_pairAt hp).keep_bind fun e => ?_)
  exact books_fetchNode_bind ((books_modifyNode (L.held_pin_pos _)).keep_bind fun _ =>
    books_unpinPage.bind fun _ => books_pure)

end held

end rules

/-! ## Search -/

section search
variable [Ord κ] {L : Ledger} {k : κ} {p : Int}

theorem books_descend : ∀ {fuel : Nat} {p : Int}, Books (L.pin p) (descend k fuel p : IxM κ Int) fun q => L.pin q
  | 0, _ => books_throw
  | fuel + 1, p => by
    refine (books_getNode (L.held_pin_pos p)).keep_bind fun n => Books.ite books_return ?_
    cases n.internalLookup k with
    | none => exact books_throw
    | some c => exact books_unpinPage.bind fun _ => books_fetchNode_bind books_descend

theorem books_findLeafPage {fuel : Nat} : Books L (findLeafPage fuel k : IxM κ Int) fun p => L.pin p :=
  books_get_bind fun _ => books_fetchNode_bind books_descend

theorem books_getValue {fuel : Nat} : Books L (getValue fuel k : IxM κ (Option Rid)) fun _ => L :=
  books_findLeafPage.bind fun p => (books_getNode (L.held_pin_pos p)).keep_bind fun _ =>
    books_unpinPage.bind fun _ => books_pure

omit [Ord κ] in
theorem books_iidAt {i : Nat} (hp : 0 < L.held p) : Books L (iidAt p i : IxM κ Iid) fun _ => L :=
  (books_touch hp).keep_bind fun _ => books_get_bind fun _ => books_pure

theorem books_lowerBound {fuel : Nat} : Books L (lowerBound fuel k : IxM κ Iid) fun _ => L :=
  books_findLeafPage.bind fun p => (books_getNode (L.held_pin_pos p)).keep_bind fun _ =>
    (books_iidAt (L.held_pin_pos p)).keep_bind fun _ => books_unpinPage.bind fun _ => books_pure

theorem books_upperBound {fuel : Nat} : Books L (upperBound fuel k : IxM κ Iid) fun _ => L :=
  books_findLeafPage.bind fun p => (books_getNode (L.held_pin_pos p)).keep_bind fun _ =>
    (books_iidAt (L.held_pin_pos p)).keep_bind fun _ => books_unpinPage.bind fun _ => books_pure

end search

section scan
variable {L : Ledger} {p : Int} {iid last : Iid}

theorem books_leafEnd : Books L (leafEnd : IxM κ Iid) fun _ => L :=
  books_get_bind fun _ => books_fetchNode_bind ((books_getNode (L.held_pin_pos _)).keep_bind fun _ =>
    books_unpinPage.bind fun _ => books_pure)

theorem books_getRid : Books L (getRid iid : IxM κ Rid) fun _ => L := by
  have hread : ∀ e : κ × Rid, Books (L.pin iid.pageNo) (do
      let _ ← unpinPage iid.pageNo
      return e.2 : IxM κ Rid) fun _ => L := fun e => books_unpinPage.bind fun _ => books_pure
  have hp := L.held_pin_pos iid.pageNo
  unfold getRid
  refine books_fetchNode_bind ((books_getNode hp).keep_bind fun _ => Books.ite books_throw ?_)
  exact Books.ite (Books.keep_bind books_throw hread) ((books_pairAt hp).keep_bind hread)

/-- `IxScan::next` keeps the pin on the page it comes from. -/
theorem books_scanStep : Books L (scanStep iid : IxM κ Iid) fun _ => L.pin iid.pageNo :=
  books_fetchNode_bind ((books_getNode (L.held_pin_pos _)).keep_bind fun _ =>
    books_get_bind fun _ => Books.ite books_throw (Books.ite books_pure books_pure))

theorem books_scanNext : Books L (scanNext iid last : IxM κ Iid) fun _ => L.pin iid.pageNo :=
  Books.ite books_throw books_scanStep

end scan

/-! ## Insertion -/

section insertion
variable {L : Ledger} {p q : Int} {k : κ} {v : Rid}

theorem books_splitPairs (hp : 0 < L.held p) : Books L (splitPairs p : IxM κ Int) fun q => L.pin q := by
  refine books_createNode.bind fun q => ?_
  have hp' : 0 < (L.pin q).held p := L.held_pin_of_pos q hp
  have hq := L.held_pin_pos q
  exact (books_getNode hp').keep_bind fun _ => (books_modifyNode hq).keep_bind fun _ =>
    (books_insertPairs hq).keep_bind fun _ => (books_modifyNode hp').keep_bind fun _ => books_return

theorem books_split (hp : 0 < L.held p) : Books L (split p : IxM κ Int) fun q => L.pin q := by
  refine (books_splitPairs hp).bind fun q => ?_
  have hp' : 0 < (L.pin q).held p := L.held_pin_of_pos q hp
  have hq := L.held_pin_pos q
  refine (books_getNode hp').keep_bind fun n => Books.ite ?_ ?_
  · refine (books_modifyNode hq).keep_bind fun _ => (books_modifyNode hq).keep_bind fun _ => books_fetchNode_bind ?_
    exact (books_modifyNode ((L.pin q).held_pin_pos _)).keep_bind fun _ => books_unpinPage.bind fun _ =>
      (books_modifyNode hp').keep_bind fun _ => books_return
  · exact (books_getNode hq).keep_bind fun m => (Books.forM fun i => books_maintainChild hq).keep_bind fun _ => books_return

theorem books_insertIntoParent : ∀ {fuel : Nat} {L : Ledger} {p q : Int} {k : κ}, 0 < L.held p → 0 < L.held q →
    Books L (insertIntoParent fuel p k q) fun _ => L
  | 0, _, _, _, _, _, _ => books_throw
  | fuel + 1, L, p, q, k, hp, hq => by
    refine (books_getNode hp).keep_bind fun old => Books.ite ?_ ?_
    · refine books_createNode.bind fun r => ?_
      have hr := L.held_pin_pos r
      have hp' : 0 < (L.pin r).held p := L.held_pin_of_pos r hp
      have hq' : 0 < (L.pin r).held q := L.held_pin_of_pos r hq
      exact (books_modifyNode hr).keep_bind fun _ => (books_pairAt hp').keep_bind fun _ =>
        (books_insertPairs hr).keep_bind fun _ => (books_insertPairs hr).keep_bind fun _ =>
        books_updateRootPageNo.keep_bind fun _ => (books_modifyNode hp').keep_bind fun _ =>
        (books_modifyNode hq').keep_bind fun _ => books_unpinPage.bind fun _ => books_pure
    · refine books_fetchNode_bind ?_
      have hP := L.held_pin_pos old.parent
      have hq' : 0 < (L.pin old.parent).held q := L.held_pin_of_pos _ hq
      refine (books_findChild hP).keep_bind fun i => (books_insertPairs hP).keep_bind fun _ =>
        (books_modifyNode hq').keep_bind fun _ => (books_touch hP).keep_bind fun _ => books_get_bind fun s =>
        Books.keep_bind (Books.ite ?_ books_pure) fun _ => books_unpinPage.bind fun _ => books_pure
      refine (books_split hP).bind fun r => ?_
      have hr := (L.pin old.parent).held_pin_pos r
      have hP' : 0 < ((L.pin old.parent).pin r).held old.parent := Ledger.held_pin_of_pos r hP
      exact (books_pairAt hr).keep_bind fun _ => (books_insertIntoParent hP' hr).keep_bind fun _ =>
        books_unpinPage.bind fun _ => books_pure

theorem books_splitLeaf {fuel : Nat} (hp : 0 < L.held p) : Books L (splitLeaf fuel p : IxM κ Unit) fun _ => L := by
  refine (books_split hp).bind fun q => ?_
  have hp' : 0 < (L.pin q).held p := L.held_pin_of_pos q hp
  have hq := L.held_pin_pos q
  exact books_modifyHdr.keep_bind fun _ => (books_pairAt hq).keep_bind fun _ =>
    (books_insertIntoParent hp' hq).keep_bind fun _ => books_unpinPage.bind fun _ => books_pure

variable [Ord κ]

theorem books_insert (hp : 0 < L.held p) : Books L (insert p k v) fun _ => L := by
  refine (books_getNode hp).keep_bind fun _ => Books.ite books_pure ?_
  exact (books_insertPairs hp).keep_bind fun _ => (books_getNode hp).keep_bind fun _ => books_pure

theorem books_insertEntry {fuel : Nat} : Books L (insertEntry fuel k v) fun _ => L := by
  refine books_findLeafPage.bind fun p => ?_
  have hp := L.held_pin_pos p
  refine (books_getNode hp).keep_bind fun _ => (books_insert hp).keep_bind fun _ => Books.ite ?_ ?_
  · exact books_unpinPage.bind fun _ => books_pure
  · exact (books_touch hp).keep_bind fun _ => books_get_bind fun _ =>
      Books.keep_bind (Books.ite (books_splitLeaf hp) books_pure) fun _ => books_unpinPage.bind fun _ => books_pure

end insertion

end IxIndexHandle

/-! ## Deletion -/

namespace Ledger

variable {L M N : Ledger} {p : Int}

/-- The same pins, and perhaps more pages that were touched without one. -/
structure Looser (L M : Ledger) : Prop where
  pins : M.pins = L.pins
  held : M.held = L.held
  loose : L.loose <:+ M.loose

theorem Looser.refl : L.Looser L := ⟨rfl, rfl, List.suffix_refl _⟩

theorem Looser.trans (h : L.Looser M) (h' : M.Looser N) : L.Looser N :=
  ⟨h'.pins.trans h.pins, h'.held.trans h.held, h.loose.trans h'.loose⟩

theorem looser_touched : L.Looser (L.touched p) := by
  unfold touched
  split
  · exact ⟨rfl, rfl, List.suffix_cons _ _⟩
  · exact .refl

/-- One more pin before and afterwards. -/
theorem Looser.of_pin (h : (L.pin p).Looser M) : ∃ N, M = N.pin p ∧ L.Looser N := by
  refine ⟨⟨L.pins, L.held, M.loose⟩, ?_, rfl, rfl, h.loose⟩
  ext1
  · exact h.pins
  · exact h.held
  · rfl

end Ledger

namespace IxIndexHandle

variable {κ α β : Type}

/-- The computation gives back its pins, and may touch pages without one. -/
abbrev Loosens (L : Ledger) (x : IxM κ α) : Prop := From L x fun _ s => L.Looser s.ledger

section rules
variable {L : Ledger} {M : α → Ledger} {p : Int} {x : IxM κ α} {g : α → IxM κ β}

theorem Books.loosens (h : Books L x fun _ => L) : Loosens L x :=
  Act.Triple.conseq h (fun _ hs => hs) (fun _ _ hs => hs ▸ Ledger.Looser.refl) fun _ _ _ => trivial

theorem Loosens.bind (hx : Loosens L x) (hg : ∀ a M, L.Looser M → Loosens M (g a)) : Loosens L (x >>= g) := by
  refine Act.Triple.bind hx fun a => Act.Triple.of_eq fun t ht => ?_
  exact ((hg a _ ht).start rfl).conseq (fun _ hs => hs) (fun _ _ hs => ht.trans hs) fun _ _ _ => trivial

theorem books_touched : Books L (touch p : IxM κ Unit) fun _ => L.touched p := by
  refine Act.Triple.modify fun s hs => ?_
  rw [← hs]
  unfold touched Ledger.touched ledger
  split <;> rfl

theorem books_getNode_touched : Books L (getNode p : IxM κ (IxNode κ)) fun _ => L.touched p :=
  books_touched.bind fun _ => books_get_bind fun _ => books_pure

theorem Books.loosens_touched (h : Books L x fun _ => L.touched p) : Loosens L x :=
  Act.Triple.conseq h (fun _ hs => hs) (fun _ _ hs => hs ▸ Ledger.looser_touched) fun _ _ _ => trivial

theorem loosens_getNode : Loosens L (getNode p : IxM κ (IxNode κ)) := books_getNode_touched.loosens_touched

theorem loosens_pairAt {i : Nat} : Loosens L (pairAt p i : IxM κ (κ × Rid)) := by
  refine loosens_getNode.bind fun n M _ => Books.loosens ?_
  cases n.pairs[i]? with
  | none => exact books_throw
  | some e => exact books_pure

end rules

section operations
variable {L : Ledger} {p q r : Int} {k : κ}

theorem books_assertUnpin : Books (L.pin p) (assertUnpin p : IxM κ Unit) fun _ => L :=
  books_unpinPage.bind fun _ => Books.ite books_pure books_throw

/-- `maintain_parent` goes up without a pin on the node it is at. -/
theorem from_maintainParent [DecidableEq κ] : ∀ {fuel : Nat} {L : Ledger} {p : Int},
    From L (maintainParent fuel p : IxM κ Unit) fun _ s => (L.touched p).Looser s.ledger
  | 0, _, _ => books_throw
  | fuel + 1, L, p => by
    unfold maintainParent
    refine books_getNode_touched.bind fun n => Books.ite (Books.loosens books_pure) (books_fetchNode_bind ?_)
    have hP := (L.touched p).held_pin_pos n.parent
    refine (books_findChild hP).keep_bind fun i => (books_pairAt hP).keep_bind fun e => ?_
    -- the first key of the node, which may have no pin
    refine Act.Triple.bind loosens_pairAt fun e₀ => Act.Triple.of_eq fun t ht => ?_
    obtain ⟨N, hN, hMN⟩ := Ledger.Looser.of_pin ht
    have hP' : 0 < (N.pin n.parent).held n.parent := N.held_pin_pos _
    have hrest : From (N.pin n.parent) (do
        if e.1 = e₀.1 then assertUnpin n.parent
        else do
          setKey n.parent i e₀.1
          assertUnpin n.parent
          maintainParent fuel n.parent : IxM κ Unit) fun _ s => (L.touched p).Looser s.ledger := by
      refine Books.ite ?_ ?_
      · exact books_assertUnpin.conseq (fun _ hs => hs) (fun _ s hs => by rw [hs]; exact hMN) fun _ _ _ => trivial
      · refine (books_setKey hP').keep_bind fun _ => books_assertUnpin.bind fun _ => ?_
        exact from_maintainParent.conseq (fun _ hs => hs)
          (fun _ _ hs => (hMN.trans Ledger.looser_touched).trans hs) fun _ _ _ => trivial
    exact hrest.start hN

theorem loosens_maintainParent [DecidableEq κ] {fuel : Nat} : Loosens L (maintainParent fuel p : IxM κ Unit) :=
  from_maintainParent.conseq (fun _ hs => hs) (fun _ _ hs => Ledger.looser_touched.trans hs) fun _ _ _ => trivial

theorem books_eraseLeaf (hp : 0 < L.held p) : Books L (eraseLeaf p : IxM κ Unit) fun _ => L := by
  refine (books_getNode hp).keep_bind fun n => Books.ite ?_ books_throw
  refine books_fetchNode_bind ((books_modifyNode (L.held_pin_pos _)).keep_bind fun _ => books_unpinPage.bind fun _ =>
    (books_getNode hp).keep_bind fun m => ?_)
  exact books_fetchNode_bind ((books_modifyNode (L.held_pin_pos _)).keep_bind fun _ => books_unpinPage.bind fun _ =>
    books_pure)

theorem books_adjustRoot (hp : 0 < L.held p) : Books L (adjustRoot p : IxM κ Bool) fun _ => L := by
  refine (books_getNode hp).keep_bind fun n => Books.ite ?_ books_pure
  refine (books_pairAt hp).keep_bind fun e => (books_modifyNode hp).keep_bind fun _ => books_fetchNode_bind ?_
  exact (books_modifyNode (L.held_pin_pos _)).keep_bind fun _ => books_updateRootPageNo.keep_bind fun _ =>
    books_unpinPage.bind fun _ => books_modifyHdr.keep_bind fun _ => books_pure

section siblings
variable {i : Nat} (hp : 0 < L.held p) (hq : 0 < L.held q) (hr : 0 < L.held r)
include hp hq hr

theorem books_redistribute : Books L (redistribute q p r i : IxM κ Unit) fun _ => L := by
  refine (books_getNode hp).keep_bind fun n => (books_getNode hq).keep_bind fun m => Books.ite ?_ ?_
  · exact (books_pairAt hq).keep_bind fun e => (books_insertPairs hp).keep_bind fun _ =>
      (books_modifyNode hq).keep_bind fun _ => (books_maintainChild hp).keep_bind fun _ =>
      (books_findChild hr).keep_bind fun _ => (books_pairAt hq).keep_bind fun _ => books_setKey hr
  · exact (books_pairAt hq).keep_bind fun e => (books_insertPairs hp).keep_bind fun _ =>
      (books_modifyNode hq).keep_bind fun _ => (books_maintainChild hp).keep_bind fun _ =>
      (books_pairAt hp).keep_bind fun _ => books_setKey hr

theorem books_mergeInto : Books L (mergeInto q p r i : IxM κ Unit) fun _ => L := by
  have hlinks : ∀ {b : Bool} {is : List Nat} {h : IxFileHdr → IxFileHdr}, Books L (if b then do
      eraseLeaf p
      modifyHdr h
    else is.forM (maintainChild q) : IxM κ Unit) fun _ => L := fun {_ _ _} =>
    Books.ite ((books_eraseLeaf hp).keep_bind fun _ => books_modifyHdr)
      (Books.forM fun _ => books_maintainChild hq)
  unfold mergeInto
  refine (books_getNode hp).keep_bind fun n => (books_getNode hq).keep_bind fun m => Books.ite ?_ ?_
  · exact (books_insertPairs hq).keep_bind fun _ => hlinks.keep_bind fun _ => (books_modifyNode hr).keep_bind fun _ =>
      (books_pairAt hq).keep_bind fun _ => (books_setKey hr).keep_bind fun _ => books_modifyHdr
  · exact (books_insertPairs hq).keep_bind fun _ => hlinks.keep_bind fun _ => (books_modifyNode hr).keep_bind fun _ =>
      books_modifyHdr

end siblings

theorem books_deleteIf {b : Bool} : Books L (deleteIf b p : IxM κ Unit) fun _ => if b then L.touched p else L := by
  cases b with
  | false => exact books_pure
  | true =>
    exact (books_touched.bind fun _ => books_get_bind fun _ => books_pure).bind fun _ => books_pure

theorem loosens_deleteIf {b : Bool} : Loosens L (deleteIf b p : IxM κ Unit) :=
  books_deleteIf.conseq (fun _ hs => hs) (fun _ s hs => by
    rw [hs]
    split
    · exact Ledger.looser_touched
    · exact .refl) fun _ _ _ => trivial

/-- `coalesce_or_redistribute` gives back its pins. It touches a page without one only when nodes are merged. -/
theorem from_coalesceOrRedistribute : ∀ {fuel : Nat} {L : Ledger} {p : Int}, 0 < L.held p →
    From L (coalesceOrRedistribute fuel p : IxM κ Bool) fun b s => L.Looser s.ledger ∧ (b = false → s.ledger = L)
  | 0, _, _, _ => books_throw
  | fuel + 1, L, p, hp => by
    have hkept : ∀ {x : IxM κ Bool}, Books L x (fun _ => L) →
        From L x fun b s => L.Looser s.ledger ∧ (b = false → s.ledger = L) := fun hx =>
      hx.conseq (fun _ hs => hs) (fun _ _ hs => ⟨hs ▸ Ledger.Looser.refl, fun _ => hs⟩) fun _ _ _ => trivial
    unfold coalesceOrRedistribute
    refine (books_getNode hp).keep_bind fun n => books_get_bind fun s => Books.ite (hkept (books_adjustRoot hp))
      (Books.ite (hkept books_pure) (books_fetchNode_bind ?_))
    have hP := L.held_pin_pos n.parent
    refine (books_findChild hP).keep_bind fun i => (books_pairAt hP).keep_bind fun e => books_fetchNode_bind ?_
    have hn := (L.pin n.parent).held_pin_pos (IxNode.child e)
    have hP' : 0 < ((L.pin n.parent).pin (IxNode.child e)).held n.parent := Ledger.held_pin_of_pos _ hP
    have hp' : 0 < ((L.pin n.parent).pin (IxNode.child e)).held p :=
      Ledger.held_pin_of_pos _ (Ledger.held_pin_of_pos _ hp)
    refine (books_getNode hn).keep_bind fun m => Books.ite ?_ ?_
    · refine (books_redistribute hp' hn hP').keep_bind fun _ => ?_
      rw [Ledger.pin_comm]
      exact books_unpinPage.bind fun _ => books_unpinPage.bind fun _ => hkept books_pure
    · refine (books_mergeInto hp' hn hP').keep_bind fun _ => ?_
      refine Act.Triple.bind (from_coalesceOrRedistribute hP') fun b => Act.Triple.of_eq fun t ht => ?_
      have hloose := ht.1
      rw [Ledger.pin_comm] at hloose
      obtain ⟨M, hM, hLM⟩ := Ledger.Looser.of_pin hloose
      have hrest : From (M.pin n.parent) (do
          let _ ← unpinPage n.parent
          deleteIf b n.parent
          let _ ← unpinPage (IxNode.child e)
          return true : IxM κ Bool) fun b s => L.Looser s.ledger ∧ (b = false → s.ledger = L) := by
        refine books_unpinPage.bind fun _ => Act.Triple.bind loosens_deleteIf fun _ => Act.Triple.of_eq fun u hu => ?_
        obtain ⟨N, hN, hLN⟩ := Ledger.Looser.of_pin (hLM.trans hu)
        have hlast : From (N.pin (IxNode.child e)) (do
            let _ ← unpinPage (IxNode.child e)
            return true : IxM κ Bool) fun b s => L.Looser s.ledger ∧ (b = false → s.ledger = L) :=
          books_unpinPage.bind fun _ => Act.Triple.pure fun _ hs => ⟨hs ▸ hLN, fun hb => by cases hb⟩
        exact hlast.start hN
      exact hrest.start hM

/-- The end of `delete_entry`, which is called with the pin of the search. -/
theorem from_fixLeaf [DecidableEq κ] {fuel : Nat} :
    From (L.pin p) (fixLeaf fuel p : IxM κ Unit) fun _ s => L.Looser s.ledger := by
  unfold fixLeaf
  refine (books_getNode (L.held_pin_pos p)).keep_bind fun n => ?_
  have hup : Loosens (L.pin p) (if 0 < n.size then maintainParent fuel p else pure () : IxM κ Unit) :=
    Books.ite loosens_maintainParent (Books.loosens books_pure)
  refine Act.Triple.bind hup fun _ => Act.Triple.of_eq fun t ht => ?_
  obtain ⟨M, hM, hLM⟩ := Ledger.Looser.of_pin ht
  have hrest : From (M.pin p) (do
      let leafShouldDelete ← coalesceOrRedistribute fuel p
      let _ ← unpinPage p
      deleteIf leafShouldDelete p : IxM κ Unit) fun _ s => L.Looser s.ledger := by
    refine Act.Triple.bind (from_coalesceOrRedistribute (M.held_pin_pos p)) fun b => Act.Triple.of_eq fun u hu => ?_
    obtain ⟨N, hN, hMN⟩ := Ledger.Looser.of_pin hu.1
    have hlast : From (N.pin p) (do
        let _ ← unpinPage p
        deleteIf b p : IxM κ Unit) fun _ s => L.Looser s.ledger :=
      books_unpinPage.bind fun _ => loosens_deleteIf.conseq (fun _ hs => hs)
        (fun _ _ hs => (hLM.trans hMN).trans hs) fun _ _ _ => trivial
    exact hlast.start hN
  exact hrest.start hM

theorem books_remove [Ord κ] [DecidableEq κ] (hp : 0 < L.held p) : Books L (remove p k) fun _ => L := by
  refine (books_getNode hp).keep_bind fun _ => Books.ite ?_ books_pure
  exact (books_modifyNode hp).keep_bind fun _ => (books_getNode hp).keep_bind fun _ => books_pure

theorem loosens_deleteEntry [Ord κ] [DecidableEq κ] {fuel : Nat} : Loosens L (deleteEntry fuel k) := by
  refine books_findLeafPage.bind fun p => ?_
  have hp := L.held_pin_pos p
  refine (books_getNode hp).keep_bind fun n => (books_remove hp).keep_bind fun size => Books.ite ?_ ?_
  · exact books_unpinPage.bind fun _ => Books.loosens books_pure
  · exact Act.Triple.bind from_fixLeaf fun _ => Act.Triple.pure fun _ hs => hs

end operations

end IxIndexHandle

end Rmdb
