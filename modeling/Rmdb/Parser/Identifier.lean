import Rmdb.System.Meta

/-!
# Identifiers and the names of index files

- `isIdentifier`: the rule for identifiers in `lex.l`;
- `indexNameOf`: `get_index_name` over column names, the other overload of `getIndexName`;
- `pieces`: the parts of a table name and column names between their underscores. The name of the file depends on them
  alone (`indexNameOf_eq_iff`), and not on which of them belong together.
-/

namespace Rmdb

/-- `identifier` of `lex.l`: a letter, then letters, digits and underscores. -/
def isIdentifier (s : String) : Bool :=
  match s.toList with
  | [] => false
  | c :: cs => c.isAlpha && cs.all fun c => c == '_' || c.isAlpha || c.isDigit

/-- `get_index_name` over the names of the columns. -/
def indexNameOf (tabName : TabName) (colNames : List String) : String :=
  tabName ++ String.join (colNames.map ("_" ++ ·)) ++ ".idx"

theorem getIndexName_eq (tabName : TabName) (cols : List ColMeta) :
    getIndexName tabName cols = indexNameOf tabName (cols.map (·.name)) := by
  rw [getIndexName, indexNameOf, List.map_map]
  rfl

/-- The parts of the names between their underscores. -/
def pieces (tabName : TabName) (colNames : List String) : List (List Char) :=
  (tabName :: colNames).flatMap fun name => name.toList.splitOn '_'

/-- The name without its ending, as characters. -/
theorem toList_indexNameOf (tabName : TabName) (colNames : List String) : (indexNameOf tabName colNames).toList =
    tabName.toList ++ colNames.flatMap (fun name => '_' :: name.toList) ++ ".idx".toList := by
  rw [indexNameOf, String.toList_append, String.toList_append, String.toList_join, List.flatMap_map]
  simp

/-- A name falls apart into the pieces of its parts. -/
theorem splitOn_flatMap (first : List Char) (colNames : List String) :
    (first ++ colNames.flatMap fun name => '_' :: name.toList).splitOn '_' =
      first.splitOn '_' ++ colNames.flatMap fun name => name.toList.splitOn '_' := by
  induction colNames generalizing first with
  | nil => simp
  | cons name colNames ih =>
    rw [List.flatMap_cons, List.cons_append, List.splitOn_append_cons_self, ih, List.flatMap_cons]

/-- **Which indexes share a file name**: those with the same pieces, wherever a table or column name ends. -/
theorem indexNameOf_eq_iff (tabName tabName' : TabName) (colNames colNames' : List String) :
    indexNameOf tabName colNames = indexNameOf tabName' colNames' ↔ pieces tabName colNames = pieces tabName' colNames' := by
  rw [← String.toList_inj, toList_indexNameOf, toList_indexNameOf, List.append_left_inj]
  unfold pieces
  rw [List.flatMap_cons, List.flatMap_cons, ← splitOn_flatMap, ← splitOn_flatMap]
  constructor
  · intro h
    rw [h]
  · intro h
    have h' := congrArg (List.intercalate ['_']) h
    rwa [List.intercalate_splitOn, List.intercalate_splitOn] at h'

/-- Names without underscores are their own pieces. -/
theorem pieces_eq {tabName : TabName} {colNames : List String} (h : ∀ name ∈ tabName :: colNames, '_' ∉ name.toList) :
    pieces tabName colNames = (tabName :: colNames).map String.toList := by
  rw [pieces, List.map_eq_flatMap, List.flatMap_congr]
  intro name hname
  exact List.splitOn_eq_singleton (h name hname)

/-- **Two indexes have different files** exactly where a piece differs; where no name has an underscore, these are all
pairs of different indexes. -/
theorem indexNameOf_ne_iff (tabName tabName' : TabName) (colNames colNames' : List String) :
    (indexNameOf tabName colNames ≠ indexNameOf tabName' colNames' ↔
      pieces tabName colNames ≠ pieces tabName' colNames') ∧
    ((∀ name ∈ (tabName :: colNames) ++ (tabName' :: colNames'), '_' ∉ name.toList) →
      ((tabName, colNames) ≠ (tabName', colNames') ↔ pieces tabName colNames ≠ pieces tabName' colNames')) := by
  refine ⟨not_congr (indexNameOf_eq_iff ..), fun h => not_congr ?_⟩
  have hinj : Function.Injective (List.map String.toList) :=
    List.map_injective_iff.2 fun _ _ => String.toList_inj.1
  rw [pieces_eq fun name hname => h name (List.mem_append_left _ hname),
    pieces_eq fun name hname => h name (List.mem_append_right _ hname), hinj.eq_iff, Prod.mk.injEq, List.cons.injEq]

/-- `CREATE INDEX a(b_c)` and `CREATE INDEX a_b(c)`. -/
theorem indexNameOf_collides : (∀ name ∈ ["a", "b_c", "a_b", "c"], isIdentifier name = true) ∧
    ("a", ["b_c"]) ≠ ("a_b", ["c"]) ∧ indexNameOf "a" ["b_c"] = indexNameOf "a_b" ["c"] := by
  refine ⟨by decide, by decide, ?_⟩
  decide

end Rmdb
