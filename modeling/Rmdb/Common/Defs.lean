import Mathlib.Logic.Function.Basic
import Mathlib.Data.List.Basic

/-!
# Types and constants that every layer shares

- `Bytes`, `Rid`, `ColType` and the constants of `config.h` and `defs.h`;
- `RMDBError`: the exceptions of `errors.h`, with the text each constructor builds (`RMDBError.what`);
- `Fault`: the other ways in which a call ends before it returns.
-/

namespace Rmdb

/-- A `char` buffer with its length. -/
abbrev Bytes := List UInt8

/-- The name of a table, which is also the name of its data file. -/
abbrev TabName := String

def invalidPageId : Int := -1
def invalidTxnId : Int := -1
def invalidLsn : Int := -1
def pageSize : Int := 4096

/-- `LOG_BUFFER_SIZE`, in bytes. -/
def logBufferSize : Int := 1024 * pageSize

structure Rid where
  pageNo : Int
  slotNo : Int
  deriving DecidableEq, Repr

/-- A position in an index: a leaf and a slot in it. -/
structure Iid where
  pageNo : Int
  slotNo : Int
  deriving DecidableEq, Repr

inductive ColType
  | int | float | string | bigint | datetime
  deriving DecidableEq, Repr

/-- `coltype2str`. -/
def ColType.str : ColType → String
  | .int => "INT"
  | .float => "FLOAT"
  | .string => "STRING"
  | .bigint => "BIGINT"
  | .datetime => "DATETIME"

/-! ## Errors -/

inductive RMDBError
  | rmdb (msg : String)
  | internal (msg : String)
  | unix
  | fileNotOpen (fd : Int)
  | fileNotClosed (filename : String)
  | fileExists (filename : String)
  | fileNotFound (filename : String)
  | recordNotFound (pageNo slotNo : Int)
  | invalidRecordSize (recordSize : Int)
  | invalidColLength (colLen : Int)
  | indexEntryNotFound
  | tableNotFound (tabName : String)
  | tableExists (tabName : String)
  | columnNotFound (colName : String)
  | indexNotFound (tabName : String) (colNames : List String)
  | indexExists (tabName : String) (colNames : List String)
  | invalidValueCount
  | stringOverflow
  | incompatibleType (lhs rhs : String)
  | ambiguousColumn (colName : String)
  | pageNotExist (tableName : String) (pageNo : Int)
  deriving DecidableEq, Repr

/-- The message after the prefix; `strerror` of a failed system call is left open. -/
def RMDBError.msg : RMDBError → String
  | .rmdb msg | .internal msg => msg
  | .unix => "strerror"
  | .fileNotOpen fd => "Invalid file descriptor: " ++ toString fd
  | .fileNotClosed f => "File is opened: " ++ f
  | .fileExists f => "File already exists: " ++ f
  | .fileNotFound f => "File not found: " ++ f
  | .recordNotFound p s => "Record not found: (" ++ toString p ++ "," ++ toString s ++ ")"
  | .invalidRecordSize n => "Invalid record size: " ++ toString n
  | .invalidColLength n => "Invalid column length: " ++ toString n
  | .indexEntryNotFound => "Index entry not found"
  | .tableNotFound t => "Table not found: " ++ t
  | .tableExists t => "Table already exists: " ++ t
  | .columnNotFound c => "Column not found: " ++ c
  | .indexNotFound t cs => "Index not found: " ++ t ++ ".(" ++ ", ".intercalate cs ++ ")"
  | .indexExists t cs => "Index already exists: " ++ t ++ ".(" ++ ", ".intercalate cs ++ ")"
  | .invalidValueCount => "Invalid value count"
  | .stringOverflow => "String is too long"
  | .incompatibleType l r => "Incompatible type error: lhs " ++ l ++ ", rhs " ++ r
  | .ambiguousColumn c => "Ambiguous column: " ++ c
  | .pageNotExist t p => "Page " ++ toString p ++ " in table " ++ t ++ "not exits"

/-- How a call ends that neither returns nor is still running. -/
inductive Fault
  | thrown (e : RMDBError)
  /-- The frame that `fetch_page` or `new_page` did not find is accessed. -/
  | nullFrame
  | assertion
  | divByZero
  /-- An access outside an array, a buffer or a map. -/
  | overrun
  | outOfFuel
  deriving DecidableEq

/-- An exception other than the one for a system call that failed. -/
def Fault.IsCheck : Fault → Prop
  | .thrown (.internal _) | .thrown .unix => False
  | .thrown _ => True
  | _ => False

/-- A sequence of two fallible computations returns when both do. -/
theorem bind_eq_ok {ε α β : Type} {x : Except ε α} {f : α → Except ε β} {b : β} :
    (x >>= f) = .ok b ↔ ∃ a, x = .ok a ∧ f a = .ok b := by
  cases x <;> simp [bind, Except.bind]

/-- What a loop over a list returned, it returned for an element. -/
theorem mem_of_mapM_ok {ε α β : Type} {f : α → Except ε β} : ∀ {as : List α} {bs : List β}, as.mapM f = .ok bs →
    ∀ b ∈ bs, ∃ a ∈ as, f a = .ok b
  | [], bs, h => by
    cases h
    simp
  | a :: as, bs, h => by
    rw [List.mapM_cons] at h
    obtain ⟨c, hc, h⟩ := bind_eq_ok.1 h
    obtain ⟨cs, hcs, h⟩ := bind_eq_ok.1 h
    cases h
    intro b hb
    rcases List.mem_cons.1 hb with rfl | hb
    · exact ⟨a, List.mem_cons_self, hc⟩
    · obtain ⟨a', ha', h'⟩ := mem_of_mapM_ok hcs b hb
      exact ⟨a', List.mem_cons_of_mem _ ha', h'⟩

/-- What the client is sent. -/
def RMDBError.what (e : RMDBError) : String := "Error: " ++ e.msg

end Rmdb
