import Rmdb.Lib.UniqueIndex
import Rmdb.System.Meta
import Rmdb.Transaction.Defs

/-!
# Undoing a write set

- `WriteRecord.undo`: the tables as they were before a write, from what its record keeps;
- `Undoable ws R`: the records of `ws`, last write first, describe the writes that have led to the tables `R`;
- `Passes P ws R`: every version of the tables that undoing `ws` passes through satisfies `P`;
- `Unwinds db ws R R₀`: undoing `ws` leads from `R` back to `R₀`, through versions whose keys are distinct.
-/

namespace Rmdb

open Lib

/-- The records of a table, by rid. -/
abbrev RowMap := Rid → Option Bytes

abbrev Rows := TabName → RowMap

/-- No two records have one key in an index of the table. -/
def TabMeta.DistinctIn (tab : TabMeta) (m : RowMap) : Prop :=
  ∀ index ∈ tab.indexes, KeysDistinct (makeKey index.cols) m

def Distinct (db : TabName → Option TabMeta) (R : Rows) : Prop := ∀ t tab, db t = some tab → tab.DistinctIn (R t)

namespace WriteRecord

def rid : WriteRecord → Rid
  | .insertTuple _ rid | .deleteTuple _ rid _ | .updateTuple _ rid _ => rid

/-- What was at the rid before the write. -/
def image : WriteRecord → Option Bytes
  | .insertTuple _ _ => none
  | .deleteTuple _ _ record | .updateTuple _ _ record => some record

def undo (w : WriteRecord) (R : Rows) : Rows :=
  Function.update R w.tabName (Function.update (R w.tabName) w.rid w.image)

/-- The write has left a record at its rid, or none if it is a delete. -/
def Applicable : WriteRecord → Rows → Prop
  | .insertTuple t rid, R | .updateTuple t rid _, R => R t rid ≠ none
  | .deleteTuple t rid _, R => R t rid = none

theorem Applicable.congr {w : WriteRecord} {R R' : Rows} (h : w.Applicable R) (heq : R' w.tabName = R w.tabName) :
    w.Applicable R' := by
  cases w <;>
  · simp only [tabName] at heq
    simpa only [Applicable, heq] using h

end WriteRecord

def undoAll : List WriteRecord → Rows → Rows
  | [], R => R
  | w :: ws, R => undoAll ws (w.undo R)

def Undoable : List WriteRecord → Rows → Prop
  | [], _ => True
  | w :: ws, R => w.Applicable R ∧ Undoable ws (w.undo R)

def Passes (P : Rows → Prop) : List WriteRecord → Rows → Prop
  | [], _ => True
  | w :: ws, R => P (w.undo R) ∧ Passes P ws (w.undo R)

theorem Undoable.append {ws ws' : List WriteRecord} {R : Rows} (h : Undoable ws R) (h' : Undoable ws' (undoAll ws R)) :
    Undoable (ws ++ ws') R := by
  induction ws generalizing R with
  | nil => exact h'
  | cons w ws ih => exact ⟨h.1, ih h.2 h'⟩

theorem Passes.append {P : Rows → Prop} {ws ws' : List WriteRecord} {R : Rows} (h : Passes P ws R)
    (h' : Passes P ws' (undoAll ws R)) : Passes P (ws ++ ws') R := by
  induction ws generalizing R with
  | nil => exact h'
  | cons w ws ih => exact ⟨h.1, ih h.2 h'⟩

theorem undoAll_append (ws ws' : List WriteRecord) (R : Rows) : undoAll (ws ++ ws') R = undoAll ws' (undoAll ws R) := by
  induction ws generalizing R with
  | nil => rfl
  | cons w ws ih => exact ih (w.undo R)

/-- Only the tables that the records name matter. -/
theorem Undoable.congr {ws : List WriteRecord} {R R' : Rows} (h : Undoable ws R)
    (heq : ∀ w ∈ ws, R' w.tabName = R w.tabName) : Undoable ws R' := by
  induction ws generalizing R R' with
  | nil => trivial
  | cons w ws ih =>
    have hw := heq w List.mem_cons_self
    refine ⟨h.1.congr hw, ih h.2 fun w' hw' => ?_⟩
    unfold WriteRecord.undo
    by_cases ht : w'.tabName = w.tabName
    · rw [ht, Function.update_self, Function.update_self, hw]
    · rw [Function.update_of_ne ht, Function.update_of_ne ht]
      exact heq w' (List.mem_cons_of_mem _ hw')

structure Unwinds (db : TabName → Option TabMeta) (ws : List WriteRecord) (R R₀ : Rows) : Prop where
  undoable : Undoable ws R
  passes : Passes (Distinct db) ws R
  eq : undoAll ws R = R₀

namespace Unwinds

variable {db : TabName → Option TabMeta} {ws ws' : List WriteRecord} {R R' R₀ : Rows} {w : WriteRecord}

theorem nil (db : TabName → Option TabMeta) (R : Rows) : Unwinds db [] R R := ⟨trivial, trivial, rfl⟩

/-- One more write. -/
theorem cons (ha : w.Applicable R') (hundo : w.undo R' = R) (hd : Distinct db R) (h : Unwinds db ws R R₀) :
    Unwinds db (w :: ws) R' R₀ := by
  subst hundo
  exact ⟨⟨ha, h.undoable⟩, ⟨hd, h.passes⟩, h.eq⟩

theorem append (h : Unwinds db ws R' R) (h' : Unwinds db ws' R R₀) : Unwinds db (ws ++ ws') R' R₀ := by
  obtain ⟨hu, hp, rfl⟩ := h
  exact ⟨hu.append h'.undoable, hp.append h'.passes, (undoAll_append ws ws' R').trans h'.eq⟩

end Unwinds

end Rmdb
