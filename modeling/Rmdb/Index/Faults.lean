import Rmdb.Index.IndexHandle

/-!
# What the operations of an index throw

`Quiet`: a computation of the handle that raises no error of the program's own checks. A search and an insertion raise
none (`quiet_getValue`, `quiet_insertEntry`), whatever the pages hold.
-/

namespace Rmdb

open Lib

namespace IxIndexHandle

variable {κ : Type}

/-- The pool does not answer with an error of a check. -/
def Calm (s : IxIndexHandle κ) : Prop := ∀ e, some e ∈ s.answers → ¬e.IsCheck

/-- The computation raises no error of a check. -/
def Quiet {α : Type} (x : IxM κ α) : Prop := Act.Triple Calm x (fun _ => Calm) fun e _ => ¬e.IsCheck

section rules
variable {α β : Type}

theorem quiet_pure (a : α) : Quiet (pure a : IxM κ α) := Act.Triple.pure fun _ hs => hs

theorem quiet_get : Quiet (Act.get : IxM κ (IxIndexHandle κ)) := Act.Triple.get fun _ hs => hs

theorem quiet_throw {e : Fault} (h : ¬e.IsCheck) : Quiet (Act.throw e : IxM κ α) := Act.Triple.throw fun _ _ => h

theorem quiet_modify {g : IxIndexHandle κ → IxIndexHandle κ} (h : ∀ s, (g s).answers = s.answers) :
    Quiet (Act.modify g) := by
  refine Act.Triple.modify fun s hs e he => ?_
  rw [h s] at he
  exact hs e he

theorem Quiet.bind {x : IxM κ α} {f : α → IxM κ β} (hx : Quiet x) (hf : ∀ a, Quiet (f a)) : Quiet (x >>= f) :=
  Act.Triple.bind hx hf

theorem Quiet.ite {c : Prop} [Decidable c] {x y : IxM κ α} (hx : Quiet x) (hy : Quiet y) : Quiet (if c then x else y) := by
  split
  · exact hx
  · exact hy

end rules

/-! ## Pages and nodes -/

theorem quiet_request : Quiet (request : IxM κ Unit) := by
  intro s hs
  unfold request
  rw [Act.run_bind_of_ok (Act.run_get s)]
  cases ha : s.answers with
  | nil =>
    exact hs
  | cons a rest =>
    have hrest : ∀ e, some e ∈ rest → ¬e.IsCheck := fun e he => hs e (by rw [ha]; exact List.mem_cons_of_mem _ he)
    cases a with
    | none => exact hrest
    | some e => exact hs e (by rw [ha]; exact List.mem_cons_self)

theorem quiet_fetchNode (pageNo : Int) : Quiet (fetchNode pageNo : IxM κ Int) := by
  unfold fetchNode
  refine quiet_request.bind fun _ => quiet_get.bind fun s => Quiet.ite ?_ ?_
  · exact (quiet_modify (by intro; rfl)).bind fun _ => quiet_pure _
  · exact quiet_throw (by simp [Fault.IsCheck])

theorem quiet_touch (p : Int) : Quiet (touch p : IxM κ Unit) := quiet_modify fun s => answers_touched s p

theorem quiet_unpinPage (p : Int) : Quiet (unpinPage p : IxM κ Bool) := by
  unfold unpinPage
  exact (quiet_touch p).bind fun _ => quiet_get.bind fun s => (quiet_modify (by intro; rfl)).bind fun _ => quiet_pure _

theorem quiet_getNode (node : Int) : Quiet (getNode node : IxM κ (IxNode κ)) := by
  unfold getNode
  exact (quiet_touch node).bind fun _ => quiet_get.bind fun s => quiet_pure _

theorem quiet_modifyNode (node : Int) (g : IxNode κ → IxNode κ) : Quiet (modifyNode node g) := by
  unfold modifyNode
  exact (quiet_touch node).bind fun _ => quiet_modify (by intro; rfl)

theorem quiet_modifyHdr (g : IxFileHdr → IxFileHdr) : Quiet (modifyHdr g : IxM κ Unit) := by
  unfold modifyHdr
  exact quiet_modify (by intro; rfl)

theorem quiet_createNode : Quiet (createNode : IxM κ Int) := by
  unfold createNode
  refine (quiet_modifyHdr _).bind fun _ => quiet_request.bind fun _ => quiet_get.bind fun s => ?_
  exact (quiet_modify (by intro; rfl)).bind fun _ => (quiet_modify (by intro; rfl)).bind fun _ => quiet_pure _

theorem quiet_insertPairs (node : Int) (pos : Nat) (ps : List (κ × Rid)) : Quiet (insertPairs node pos ps) := by
  unfold insertPairs
  refine (quiet_touch node).bind fun _ => quiet_get.bind fun s => Quiet.ite (quiet_pure _) (Quiet.ite ?_ ?_)
  · exact quiet_throw (by simp [Fault.IsCheck])
  · exact quiet_modifyNode _ _

theorem quiet_pairAt (node : Int) (pos : Nat) : Quiet (pairAt node pos : IxM κ (κ × Rid)) := by
  unfold pairAt
  refine (quiet_getNode node).bind fun n => ?_
  split
  · exact quiet_pure _
  · exact quiet_throw (by simp [Fault.IsCheck])

theorem quiet_findChild (node child : Int) : Quiet (findChild node child : IxM κ Nat) := by
  unfold findChild
  refine (quiet_getNode node).bind fun n => ?_
  split
  · exact quiet_pure _
  · exact quiet_throw (by simp [Fault.IsCheck])

theorem quiet_maintainChild (node : Int) (childIdx : Nat) : Quiet (maintainChild node childIdx : IxM κ Unit) := by
  unfold maintainChild
  refine (quiet_getNode node).bind fun n => Quiet.ite (quiet_pure _) ?_
  refine (quiet_pairAt node childIdx).bind fun e => (quiet_fetchNode _).bind fun child => ?_
  exact (quiet_modifyNode _ _).bind fun _ => (quiet_unpinPage _).bind fun _ => quiet_pure _

/-! ## Search -/

section search
variable [Ord κ]

theorem quiet_descend (key : κ) : ∀ (fuel : Nat) (node : Int), Quiet (descend key fuel node)
  | 0, _ => quiet_throw (by simp [Fault.IsCheck])
  | fuel + 1, node => by
    unfold descend
    refine (quiet_getNode node).bind fun n => Quiet.ite (quiet_pure _) ?_
    split
    · exact quiet_throw (by simp [Fault.IsCheck])
    · exact (quiet_unpinPage _).bind fun _ => (quiet_fetchNode _).bind fun _ => quiet_descend key fuel _

theorem quiet_findLeafPage (fuel : Nat) (key : κ) : Quiet (findLeafPage fuel key) := by
  unfold findLeafPage
  exact quiet_get.bind fun s => (quiet_fetchNode _).bind fun _ => quiet_descend key fuel _

/-- **A search raises no error of a check.** -/
theorem quiet_getValue (fuel : Nat) (key : κ) : Quiet (getValue fuel key) := by
  unfold getValue
  refine (quiet_findLeafPage fuel key).bind fun leaf => (quiet_getNode leaf).bind fun n => ?_
  exact (quiet_unpinPage _).bind fun _ => quiet_pure _

end search

/-! ## Insertion -/

theorem quiet_splitPairs (node : Int) : Quiet (splitPairs node : IxM κ Int) := by
  unfold splitPairs
  refine quiet_createNode.bind fun newNode => (quiet_getNode node).bind fun n => (quiet_modifyNode _ _).bind fun _ => ?_
  exact (quiet_insertPairs _ _ _).bind fun _ => (quiet_modifyNode _ _).bind fun _ => quiet_pure _

theorem quiet_split (node : Int) : Quiet (split node : IxM κ Int) := by
  unfold split
  refine (quiet_splitPairs node).bind fun newNode => (quiet_getNode node).bind fun n => Quiet.ite ?_ ?_
  · refine (quiet_modifyNode _ _).bind fun _ => (quiet_modifyNode _ _).bind fun _ => ?_
    refine (quiet_fetchNode _).bind fun oldNext => (quiet_modifyNode _ _).bind fun _ => ?_
    exact (quiet_unpinPage _).bind fun _ => (quiet_modifyNode _ _).bind fun _ => quiet_pure _
  · refine (quiet_getNode newNode).bind fun m => Quiet.bind ?_ fun _ => quiet_pure _
    exact Act.Triple.forM _ fun i _ => quiet_maintainChild newNode i

theorem quiet_insertIntoParent : ∀ (fuel : Nat) (oldNode : Int) (key : κ) (newNode : Int),
    Quiet (insertIntoParent fuel oldNode key newNode)
  | 0, _, _, _ => quiet_throw (by simp [Fault.IsCheck])
  | fuel + 1, oldNode, key, newNode => by
    unfold insertIntoParent
    refine (quiet_getNode oldNode).bind fun old => Quiet.ite ?_ ?_
    · refine quiet_createNode.bind fun newRoot => (quiet_modifyNode _ _).bind fun _ => ?_
      refine (quiet_pairAt _ _).bind fun first => (quiet_insertPairs _ _ _).bind fun _ => ?_
      refine (quiet_insertPairs _ _ _).bind fun _ => (quiet_modifyHdr _).bind fun _ => ?_
      refine (quiet_modifyNode _ _).bind fun _ => (quiet_modifyNode _ _).bind fun _ => ?_
      exact (quiet_unpinPage _).bind fun _ => quiet_pure _
    · refine (quiet_fetchNode _).bind fun parent => (quiet_findChild _ _).bind fun childIdx => ?_
      refine (quiet_insertPairs _ _ _).bind fun _ => (quiet_modifyNode _ _).bind fun _ => ?_
      refine (quiet_touch parent).bind fun _ => quiet_get.bind fun s => ?_
      refine Quiet.bind (Quiet.ite ?_ (quiet_pure _)) fun _ => (quiet_unpinPage _).bind fun _ => quiet_pure _
      refine (quiet_split parent).bind fun newParent => (quiet_pairAt _ _).bind fun first => ?_
      exact (quiet_insertIntoParent fuel _ _ _).bind fun _ => (quiet_unpinPage _).bind fun _ => quiet_pure _

theorem quiet_splitLeaf (fuel : Nat) (leaf : Int) : Quiet (splitLeaf fuel leaf : IxM κ Unit) := by
  unfold splitLeaf
  refine (quiet_split leaf).bind fun newNode => (quiet_modifyHdr _).bind fun _ => (quiet_pairAt _ _).bind fun first => ?_
  exact (quiet_insertIntoParent fuel _ _ _).bind fun _ => (quiet_unpinPage _).bind fun _ => quiet_pure _

section insertion
variable [Ord κ]

theorem quiet_insert (node : Int) (key : κ) (value : Rid) : Quiet (insert node key value) := by
  unfold insert
  refine (quiet_getNode node).bind fun n => Quiet.ite (quiet_pure _) ?_
  exact (quiet_insertPairs _ _ _).bind fun _ => (quiet_getNode node).bind fun n => quiet_pure _

/-- **An insertion raises no error of a check.** -/
theorem quiet_insertEntry (fuel : Nat) (key : κ) (value : Rid) : Quiet (insertEntry fuel key value) := by
  unfold insertEntry
  refine (quiet_findLeafPage fuel key).bind fun leaf => (quiet_getNode leaf).bind fun before => ?_
  refine (quiet_insert leaf key value).bind fun sizeAfter =>
    Quiet.ite ?_ ((quiet_touch leaf).bind fun _ => quiet_get.bind fun s => ?_)
  · exact (quiet_unpinPage _).bind fun _ => quiet_pure _
  · exact Quiet.bind (Quiet.ite (quiet_splitLeaf fuel leaf) (quiet_pure _)) fun _ =>
      (quiet_unpinPage _).bind fun _ => quiet_pure _

end insertion

end IxIndexHandle

end Rmdb
