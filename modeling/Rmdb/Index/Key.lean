import Rmdb.System.Meta

/-!
# The keys of an index

- `ixCompare`: `ix_compare` of two keys, column by column;
- `IxKey cols`: the keys of an index over these columns, ordered by `ixCompare`.
-/

namespace Rmdb

/-- `ix_compare`. -/
def ixCompare : List ColMeta → Bytes → Bytes → Int
  | [], _, _ => 0
  | col :: cols, a, b =>
    let res := compareValue a b col.type col.len
    if res ≠ 0 then res else ixCompare cols (a.drop col.len.toNat) (b.drop col.len.toNat)

/-- A key of an index over the columns. -/
def IxKey (_cols : List ColMeta) : Type := Bytes

instance (cols : List ColMeta) : DecidableEq (IxKey cols) := inferInstanceAs (DecidableEq Bytes)

instance (cols : List ColMeta) : Ord (IxKey cols) where
  compare a b := compare (ixCompare cols a b) 0

end Rmdb
