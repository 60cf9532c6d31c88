import Rmdb.System.Meta

/-!
# Executors as iterators

- `AbstractExecutor`: the interface of `executor_abstract.h`. A method may raise; a method with a loop takes a bound on
  its turns and does not come back when the bound is too small;
- `rows`: the loop over `beginTuple`, `is_end`, `Next` and `nextTuple` that every caller of an executor is;
- `Yields` and `Delivers`: from a state, or whenever it is begun, the executor gives exactly these rows.
-/

namespace Rmdb

/-- A computation that may raise, or not come back. -/
abbrev Outcome (α : Type) := ExceptT RMDBError Option α

def Outcome.halt {α : Type} : Outcome α := ExceptT.mk none

def Outcome.ofExcept {α : Type} (x : Except RMDBError α) : Outcome α := ExceptT.mk (some x)

theorem Outcome.ofExcept_ok {α : Type} (a : α) : Outcome.ofExcept (.ok a) = pure a := rfl

/-- `AbstractExecutor`, with the fields of the executor as its state. -/
structure AbstractExecutor where
  State : Type
  tupleLen : Nat
  cols : List ColMeta
  beginTuple : Nat → State → Outcome State
  nextTuple : Nat → State → Outcome State
  isEnd : State → Bool
  next : State → Outcome Bytes

namespace AbstractExecutor

variable (ex : AbstractExecutor)

/-- The rows from a state on, behind those that were read. -/
def collect (turns : Nat) : Nat → ex.State → List Bytes → Outcome (List Bytes × ex.State)
  | 0, _, _ => Outcome.halt
  | fuel + 1, s, rows =>
    if ex.isEnd s then pure (rows, s)
    else do
      let tuple ← ex.next s
      let s ← ex.nextTuple turns s
      collect turns fuel s (rows ++ [tuple])

/-- The loop of `select_from`, and of every operator that reads all of its child. -/
def rows (fuel : Nat) (s : ex.State) : Outcome (List Bytes × ex.State) := do
  let s ← ex.beginTuple fuel s
  ex.collect fuel fuel s []

/-- From this state the executor gives these rows and then is at its end. -/
def Yields (fuel : Nat) : ex.State → List Bytes → Prop
  | s, [] => ex.isEnd s = true
  | s, rec :: recs => ex.isEnd s = false ∧ ex.next s = pure rec ∧
      ∃ s', ex.nextTuple fuel s = pure s' ∧ Yields fuel s' recs

/-- Begun in any state, the executor gives these rows. -/
def DeliversAt (fuel : Nat) (recs : List Bytes) : Prop :=
  ∀ s, ∃ s', ex.beginTuple fuel s = pure s' ∧ ex.Yields fuel s' recs

/-- Every time it is begun, in whatever state, the executor gives these rows. -/
def Delivers (recs : List Bytes) : Prop := ∃ bound, ∀ fuel, bound ≤ fuel → ex.DeliversAt fuel recs

variable {ex} {fuel : Nat} {recs : List Bytes}

theorem Yields.isEnd_eq {s : ex.State} (h : ex.Yields fuel s recs) : ex.isEnd s = recs.isEmpty := by
  cases recs with
  | nil => exact h
  | cons rec recs => exact h.1

/-- The loop reads the rows. -/
theorem Yields.collect : ∀ {recs : List Bytes} {turns : Nat} {s : ex.State} (read : List Bytes),
    ex.Yields fuel s recs → recs.length < turns →
    ∃ s', ex.collect fuel turns s read = pure (read ++ recs, s')
  | [], turns + 1, s, read, h, _ => ⟨s, by
      rw [AbstractExecutor.collect, if_pos (show ex.isEnd s = true from h), List.append_nil]⟩
  | rec :: recs, turns + 1, s, read, ⟨hend, hnext, s₁, hstep, hrest⟩, hlt => by
    obtain ⟨s', hs'⟩ := Yields.collect (read ++ [rec]) hrest (show recs.length < turns by simpa using hlt)
    refine ⟨s', ?_⟩
    rw [AbstractExecutor.collect, if_neg (by rw [hend]; simp), hnext, pure_bind, hstep, pure_bind, hs',
      List.append_assoc]
    rfl

theorem DeliversAt.rows (h : ex.DeliversAt fuel recs) (hlt : recs.length < fuel) (s : ex.State) :
    ∃ s', ex.rows fuel s = pure (recs, s') := by
  obtain ⟨s₁, hbegin, hy⟩ := h s
  obtain ⟨s', hs'⟩ := Yields.collect [] hy hlt
  exact ⟨s', by rw [AbstractExecutor.rows, hbegin, pure_bind, hs', List.nil_append]⟩

/-- **What a caller reads**: with enough turns, the same rows each time. -/
theorem Delivers.rows (h : ex.Delivers recs) :
    ∃ bound, ∀ fuel, bound ≤ fuel → ∀ s, ∃ s', ex.rows fuel s = pure (recs, s') := by
  obtain ⟨bound, hb⟩ := h
  refine ⟨bound + recs.length + 1, fun fuel hf s => ?_⟩
  exact (hb fuel (by omega)).rows (by omega) s

end AbstractExecutor

end Rmdb
