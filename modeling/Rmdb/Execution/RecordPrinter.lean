import Rmdb.Lib.CutOutput
import Rmdb.Optimizer.Analyze
import Rmdb.Parser.Identifier
import Rmdb.System.Catalog
import Rmdb.System.Datetime

/-!
# The answer to a client

- `SendBuffer`: `data_send` with `offset` and `ellipsis_`; `RecordPrinter` and the statements that print;
- `Reply.respond`: what `client_handler` has in the buffer when it sends `offset + 1` bytes of it, also from its
  handlers for exceptions;
- `shows_putAll`: the printer is a cut output with 40 bytes in reserve. From it what is sent for a SELECT
  (`selectFrom_shown`);
- `responds_iff`: an answer stays in its buffer, and that for a SELECT is a marked prefix, exactly for the replies that
  are `Small`.
-/

namespace Rmdb

open Lib

def bufferLength : Nat := 8192
def recordCountLength : Nat := 40
def colWidth : Nat := 16

/-- The bytes of a text. -/
def textBytes (s : String) : Bytes := s.toByteArray.data.toList

/-- Where an answer is put together. A write beyond the buffer would lengthen `dataSend`. -/
structure SendBuffer where
  dataSend : Bytes
  offset : Nat
  ellipsis : Bool

namespace SendBuffer

/-- Behind the `memset` of `client_handler`. -/
def init : SendBuffer := ⟨List.replicate bufferLength 0, 0, false⟩

def memcpy (b : SendBuffer) (pos : Nat) (str : Bytes) : SendBuffer :=
  { b with dataSend := b.dataSend.take pos ++ str ++ b.dataSend.drop (pos + str.length) }

/-- Print a piece, if that leaves the reserve; the `|` at the end of a record has no `else` branch. -/
def put (b : SendBuffer) (p : Piece UInt8) : SendBuffer :=
  if b.ellipsis = false ∧ b.offset + recordCountLength + p.2.length < bufferLength then
    { b.memcpy b.offset p.2 with offset := b.offset + p.2.length }
  else if p.1 then b else { b with ellipsis := true }

/-! ## RecordPrinter -/

def separatorCell : Bytes := textBytes "+" ++ List.replicate (colWidth + 2) 45

def printSeparator (b : SendBuffer) (numCols : Nat) : SendBuffer :=
  let b := (List.replicate numCols separatorCell).foldl (fun b str => b.put (false, str)) b
  b.put (false, textBytes "+\n")

/-- A field, right-justified. -/
def recordCell (col : Bytes) : Bytes :=
  let col := if col.length > colWidth then col.take (colWidth - 3) ++ textBytes "..." else col
  textBytes "| " ++ (List.replicate (colWidth - col.length) 32 ++ col) ++ textBytes " "

def printRecord (b : SendBuffer) (recStr : List Bytes) : SendBuffer :=
  let b := recStr.foldl (fun b col => b.put (false, recordCell col)) b
  b.put (true, textBytes "|\n")

def recordCount (ellipsis : Bool) (numRec : Nat) : Bytes :=
  (if ellipsis then textBytes "... ...\n" else []) ++ (textBytes "Total record(s): " ++ decimal numRec ++ textBytes "\n")

def printRecordCount (b : SendBuffer) (numRec : Nat) : SendBuffer :=
  let str := recordCount b.ellipsis numRec
  { b.memcpy b.offset str with offset := b.offset + str.length }

end SendBuffer

/-! ## The statements that print -/

/-- A column of the select list. -/
structure SelCol where
  colName : String
  aliasName : String

/-- What `select_from` runs over: the select list, and the columns and tuples of the executor. -/
structure Selection where
  selCols : List SelCol
  cols : List ColMeta
  tuples : List Bytes
  nonempty : selCols ≠ []
  widths : cols.length = selCols.length
  count_lt : tuples.length < 2 ^ 64

namespace Selection

def captions (s : Selection) : List Bytes :=
  s.selCols.map fun selCol => textBytes (if selCol.aliasName = "" then selCol.colName else selCol.aliasName)

/-- The text of a field; `floatStr` is `std::to_string` of a `float`. -/
def colStr (floatStr : FloatBits → Bytes) (tuple : Bytes) (col : ColMeta) : Bytes :=
  let recBuf := tuple.drop col.offset.toNat
  match col.type with
  | .int => zeroPadded 0 (readInt recBuf)
  | .bigint => zeroPadded 0 (readInt64 recBuf)
  | .datetime => datetimeToStr (readInt64 recBuf)
  | .float => floatStr (readFloat recBuf)
  | .string => (recBuf.take col.len.toNat).takeWhile (· ≠ 0)

def numCols (s : Selection) : Nat := s.selCols.length

end Selection

namespace SendBuffer

section select
variable (floatStr : FloatBits → Bytes)

/-- `select_from` up to the end of its loop over the tuples. -/
def selectRows (b : SendBuffer) (s : Selection) : SendBuffer :=
  let b := b.printSeparator s.numCols
  let b := b.printRecord s.captions
  let b := b.printSeparator s.numCols
  s.tuples.foldl (fun b tuple => b.printRecord (s.cols.map (Selection.colStr floatStr tuple))) b

/-- `select_from`. -/
def selectFrom (b : SendBuffer) (s : Selection) : SendBuffer :=
  ((b.selectRows floatStr s).printSeparator s.numCols).printRecordCount s.tuples.length

end select

/-- `show_tables`. -/
def showTables (b : SendBuffer) (tabs : List Catalog.TabMeta) : SendBuffer :=
  let b := ((b.printSeparator 1).printRecord [textBytes "Tables"]).printSeparator 1
  (tabs.foldl (fun b tab => b.printRecord [textBytes tab.name]) b).printSeparator 1

/-- `desc_table`. -/
def descTable (b : SendBuffer) (tab : Catalog.TabMeta) : SendBuffer :=
  let b := ((b.printSeparator 3).printRecord [textBytes "Field", textBytes "Type", textBytes "Index"]).printSeparator 3
  (tab.cols.foldl (fun b col => b.printRecord
    [textBytes col.name, textBytes col.type.str, textBytes (if col.index then "YES" else "NO")]) b).printSeparator 3

/-- `show_index`. -/
def showIndex (b : SendBuffer) (tab : Catalog.TabMeta) : SendBuffer :=
  tab.indexes.foldl (fun b index => b.printRecord [textBytes tab.name, textBytes "unique",
    textBytes ("(" ++ ",".intercalate (index.cols.map (·.name)) ++ ")")]) b

/-- The `help_info` of `run_cmd_utility`. -/
def helpInfo : Bytes := textBytes ("Supported SQL syntax:\n" ++
  "  command ;\n" ++
  "command:\n" ++
  "  CREATE TABLE table_name (column_name type [, column_name type ...])\n" ++
  "  DROP TABLE table_name\n" ++
  "  CREATE INDEX table_name (column_name)\n" ++
  "  DROP INDEX table_name (column_name)\n" ++
  "  INSERT INTO table_name VALUES (value [, value ...])\n" ++
  "  DELETE FROM table_name [WHERE where_clause]\n" ++
  "  UPDATE table_name SET column_name = value [, column_name = value ...] [WHERE where_clause]\n" ++
  "  SELECT selector FROM table_name [WHERE where_clause]\n" ++
  "type:\n" ++
  "  \x7bINT | FLOAT | CHAR(n)\x7d\n" ++
  "where_clause:\n" ++
  "  condition [AND condition ...]\n" ++
  "condition:\n" ++
  "  column op \x7bcolumn | value\x7d\n" ++
  "column:\n" ++
  "  [table_name.]column_name\n" ++
  "op:\n" ++
  "  \x7b= | <> | < | > | <= | >=\x7d\n" ++
  "selector:\n" ++
  "  \x7b* | column [, column ...]\x7d\n")

def help (b : SendBuffer) : SendBuffer := { b.memcpy b.offset helpInfo with offset := helpInfo.length }

end SendBuffer

/-! ## client_handler -/

/-- How the handling of a request ends. `shown` is the part of a SELECT that was printed before. -/
inductive Reply
  /-- Not parsed, or a statement without output. -/
  | silent
  | help
  | showTables (tabs : List Catalog.TabMeta)
  | descTable (tab : Catalog.TabMeta)
  | showIndex (tab : Catalog.TabMeta)
  | select (s : Selection)
  | aborted (shown : Option Selection)
  | failed (shown : Option Selection) (e : RMDBError)

namespace SendBuffer

section respond
variable (floatStr : FloatBits → Bytes)

def interrupted : Option Selection → SendBuffer
  | none => init
  | some s => init.selectRows floatStr s

/-- The handler of `TransactionAbortException`. -/
def catchAbort (b : SendBuffer) : SendBuffer :=
  let str := textBytes "abort\n"
  { (b.memcpy 0 str).memcpy str.length [0] with offset := str.length }

/-- The handler of `RMDBError`. -/
def catchError (b : SendBuffer) (e : RMDBError) : SendBuffer :=
  let what := textBytes e.what
  let b := b.memcpy 0 what
  let b := b.memcpy what.length [10]
  let b := b.memcpy (what.length + 1) [0]
  { b with offset := what.length + 1 }

/-- The buffer when the answer is sent. -/
def respond : Reply → SendBuffer
  | .silent => init
  | .help => init.help
  | .showTables tabs => init.showTables tabs
  | .descTable tab => init.descTable tab
  | .showIndex tab => init.showIndex tab
  | .select s => init.selectFrom floatStr s
  | .aborted shown => (interrupted floatStr shown).catchAbort
  | .failed shown e => (interrupted floatStr shown).catchError e

end respond

/-- The bytes that are sent. -/
def sent (b : SendBuffer) : Bytes := b.dataSend.take (b.offset + 1)

/-- Nothing was written, or is read to be sent, beyond the buffer. -/
def Fits (b : SendBuffer) : Prop := b.dataSend.length = bufferLength ∧ b.offset + 1 ≤ bufferLength

/-! ## The printer is a cut output -/

def putAll (b : SendBuffer) (ps : List (Piece UInt8)) : SendBuffer := ps.foldl put b

def separatorPieces (numCols : Nat) : List (Piece UInt8) :=
  List.replicate numCols (false, separatorCell) ++ [(false, textBytes "+\n")]

def recordPieces (recStr : List Bytes) : List (Piece UInt8) :=
  recStr.map (fun col => (false, recordCell col)) ++ [(true, textBytes "|\n")]

theorem putAll_append (b : SendBuffer) (ps qs : List (Piece UInt8)) : b.putAll (ps ++ qs) = (b.putAll ps).putAll qs :=
  List.foldl_append

theorem printSeparator_eq (b : SendBuffer) (numCols : Nat) : b.printSeparator numCols = b.putAll (separatorPieces numCols) := by
  have hcells : ∀ (n : Nat) (b : SendBuffer), (List.replicate n separatorCell).foldl (fun b str => b.put (false, str)) b =
      b.putAll (List.replicate n (false, separatorCell)) := by
    intro n
    induction n with
    | zero => exact fun _ => rfl
    | succ n ih =>
      intro b
      rw [List.replicate_succ, List.replicate_succ, List.foldl_cons, ih]
      rfl
  rw [separatorPieces, putAll_append, ← hcells]
  rfl

theorem printRecord_eq (b : SendBuffer) (recStr : List Bytes) : b.printRecord recStr = b.putAll (recordPieces recStr) := by
  rw [recordPieces, putAll_append, putAll, putAll, List.foldl_map]
  rfl

theorem foldl_printRecord {α : Type} (f : α → List Bytes) : ∀ (xs : List α) (b : SendBuffer),
    xs.foldl (fun b x => b.printRecord (f x)) b = b.putAll (xs.flatMap fun x => recordPieces (f x))
  | [], _ => rfl
  | x :: xs, b => by rw [List.foldl_cons, List.flatMap_cons, putAll_append, foldl_printRecord f xs, printRecord_eq]

/-- The limit below which pieces are written. -/
def room : Nat := bufferLength - recordCountLength

/-- The buffer holds this output, and zeros behind it. -/
structure Shows (b : SendBuffer) (out : Output UInt8) : Prop where
  dataSend : b.dataSend = out.written ++ List.replicate (bufferLength - out.written.length) 0
  offset : b.offset = out.written.length
  ellipsis : b.ellipsis = out.cut
  lt : out.written.length < room

theorem shows_init : Shows init ⟨[], false⟩ := ⟨rfl, rfl, rfl, by decide⟩

/-- A write at the end of the output. -/
theorem memcpy_end {b : SendBuffer} {written str : Bytes} {n : Nat} (h : b.dataSend = written ++ List.replicate n 0) :
    (b.memcpy written.length str).dataSend = written ++ str ++ List.replicate (n - str.length) 0 := by
  simp only [memcpy, h, List.take_left', List.drop_append, List.drop_replicate]
  rw [List.drop_of_length_le (by omega), List.nil_append, Nat.add_sub_cancel_left]

theorem Shows.put {b : SendBuffer} {out : Output UInt8} (h : Shows b out) (p : Piece UInt8) :
    Shows (b.put p) (Output.put room out p) := by
  have hiff : (b.ellipsis = false ∧ b.offset + recordCountLength + p.2.length < bufferLength) ↔
      (out.cut = false ∧ out.written.length + p.2.length < room) := by
    rw [h.ellipsis, h.offset]
    refine and_congr Iff.rfl ?_
    simp only [room, bufferLength, recordCountLength]
    omega
  unfold SendBuffer.put Output.put
  by_cases hfit : out.cut = false ∧ out.written.length + p.2.length < room
  · rw [if_pos (hiff.2 hfit), if_pos hfit]
    refine ⟨?_, ?_, h.ellipsis, ?_⟩
    · have := @memcpy_end b _ p.2 _ h.dataSend
      rw [h.offset, List.length_append, ← Nat.sub_sub]
      exact this
    · rw [List.length_append, h.offset]
    · rw [List.length_append]
      exact hfit.2
  · rw [if_neg fun h' => hfit (hiff.1 h'), if_neg hfit]
    split
    · exact h
    · exact ⟨h.dataSend, h.offset, rfl, h.lt⟩

/-- **What the printer prints is the cut output of its pieces.** -/
theorem Shows.putAll {b : SendBuffer} {out : Output UInt8} (h : Shows b out) : ∀ ps : List (Piece UInt8),
    Shows (b.putAll ps) (Output.putAll room out ps) := by
  intro ps
  induction ps generalizing b out with
  | nil => exact h
  | cons p ps ih => exact ih (h.put p)

theorem Shows.length_dataSend {b : SendBuffer} {out : Output UInt8} (h : Shows b out) :
    b.dataSend.length = bufferLength := by
  have hlt := h.lt
  simp only [room, bufferLength, recordCountLength] at hlt
  rw [h.dataSend, List.length_append, List.length_replicate, bufferLength]
  omega

theorem Shows.fits {b : SendBuffer} {out : Output UInt8} (h : Shows b out) : b.Fits := by
  refine ⟨h.length_dataSend, ?_⟩
  have hlt := h.lt
  rw [h.offset]
  simp only [room, bufferLength, recordCountLength] at hlt ⊢
  omega

/-! ## The pieces of a line -/

@[simp] theorem length_textBytes (s : String) : (textBytes s).length = s.utf8ByteSize := by
  rw [textBytes, Array.length_toList]
  rfl

theorem length_separatorCell : separatorCell.length = 19 := by
  rw [separatorCell, List.length_append, length_textBytes, List.length_replicate]
  rfl

theorem length_recordCell (col : Bytes) : (recordCell col).length = 19 := by
  have htext : "| ".utf8ByteSize = 2 ∧ " ".utf8ByteSize = 1 ∧ "...".utf8ByteSize = 3 := ⟨rfl, rfl, rfl⟩
  have hle : (if col.length > colWidth then col.take (colWidth - 3) ++ textBytes "..." else col).length ≤ 16 := by
    split
    · rw [List.length_append, List.length_take, length_textBytes]
      simp only [colWidth]
      omega
    · next h =>
      simp only [colWidth] at h
      omega
  unfold recordCell
  simp only [List.length_append, length_textBytes, List.length_replicate]
  generalize (if col.length > colWidth then col.take (colWidth - 3) ++ textBytes "..." else col) = shown at hle
  simp only [colWidth]
  omega

/-- Every piece has two bytes or more, a soft one has no more. -/
def Regular (ps : List (Piece UInt8)) : Prop := ∀ p ∈ ps, 2 ≤ p.2.length ∧ (p.1 = true → p.2.length = 2)

/-- The lengths of a line with `c` fields. -/
def lineLengths (c : Nat) : List Nat := List.replicate c 19 ++ [2]

theorem map_length_separatorPieces (c : Nat) :
    ((separatorPieces c).map Prod.snd).map List.length = lineLengths c := by
  simp only [separatorPieces, List.map_append, List.map_replicate, List.map_cons, List.map_nil, length_separatorCell,
    length_textBytes]
  rfl

theorem map_length_recordPieces (recStr : List Bytes) :
    ((recordPieces recStr).map Prod.snd).map List.length = lineLengths recStr.length := by
  simp only [recordPieces, List.map_append, List.map_map, List.map_cons, List.map_nil, length_textBytes, lineLengths]
  congr 1
  rw [List.eq_replicate_iff]
  constructor
  · simp
  · intro n hn
    obtain ⟨col, -, rfl⟩ := List.mem_map.1 hn
    exact length_recordCell col

theorem regular_separatorPieces (c : Nat) : Regular (separatorPieces c) := by
  intro p hp
  rcases List.mem_append.1 hp with hp | hp
  · rw [List.eq_of_mem_replicate hp]
    simp [length_separatorCell]
  · rw [List.mem_singleton.1 hp, length_textBytes]
    decide

theorem regular_recordPieces (recStr : List Bytes) : Regular (recordPieces recStr) := by
  intro p hp
  rcases List.mem_append.1 hp with hp | hp
  · obtain ⟨col, -, rfl⟩ := List.mem_map.1 hp
    simp [length_recordCell]
  · rw [List.mem_singleton.1 hp, length_textBytes]
    decide

/-! ## SELECT -/

/-- The bytes of the whole answer, without the record count. -/
def fullLength (s : Selection) : Nat := (s.tuples.length + 4) * (s.numCols * 19 + 2)

/-- Where an answer with `c` columns is cut: behind the whole lines and then fields that leave the reserve. -/
def cutAt (c : Nat) : Nat :=
  (room - 1) / (c * 19 + 2) * (c * 19 + 2) + min ((room - 1) % (c * 19 + 2) / 19) c * 19

end SendBuffer

/-- The record count finds room behind the fields. -/
def Selection.Small (s : Selection) : Prop :=
  SendBuffer.fullLength s < SendBuffer.room ∨
    SendBuffer.cutAt s.numCols + 27 + (decimal s.tuples.length).length ≤ bufferLength

namespace SendBuffer

section select
variable (floatStr : FloatBits → Bytes) (s : Selection)

/-- All pieces in front of the record count. -/
def selectPieces : List (Piece UInt8) :=
  separatorPieces s.numCols ++ (recordPieces s.captions ++ (separatorPieces s.numCols ++
    s.tuples.flatMap fun tuple => recordPieces (s.cols.map (Selection.colStr floatStr tuple))))

theorem selectRows_eq (b : SendBuffer) : b.selectRows floatStr s = b.putAll (selectPieces floatStr s) := by
  rw [selectRows, selectPieces, putAll_append, putAll_append, putAll_append, ← printSeparator_eq, ← printRecord_eq,
    ← printSeparator_eq, foldl_printRecord]

/-- The fields of the whole answer. -/
def rendering : List Bytes := (selectPieces floatStr s ++ separatorPieces s.numCols).map Prod.snd

theorem regular_rendering : Regular (selectPieces floatStr s ++ separatorPieces s.numCols) := by
  intro p hp
  simp only [selectPieces, List.mem_append, List.mem_flatMap] at hp
  rcases hp with (hp | hp | hp | ⟨tuple, -, hp⟩) | hp
  · exact regular_separatorPieces _ p hp
  · exact regular_recordPieces _ p hp
  · exact regular_separatorPieces _ p hp
  · exact regular_recordPieces _ p hp
  · exact regular_separatorPieces _ p hp

/-- Every line is as long as the others. -/
theorem map_length_rendering : (rendering floatStr s).map List.length =
    (List.replicate (s.tuples.length + 4) (lineLengths s.numCols)).flatten := by
  have hcaptions : s.captions.length = s.numCols := List.length_map _
  have hrows : ∀ tuples : List Bytes,
      ((tuples.flatMap fun tuple => recordPieces (s.cols.map (Selection.colStr floatStr tuple))).map Prod.snd).map
        List.length = (List.replicate tuples.length (lineLengths s.numCols)).flatten := by
    intro tuples
    induction tuples with
    | nil => rfl
    | cons tuple tuples ih =>
      rw [List.flatMap_cons, List.map_append, List.map_append, ih, map_length_recordPieces, List.length_map, s.widths,
        List.length_cons, List.replicate_succ, List.flatten_cons]
      rfl
  have hlines : List.replicate (s.tuples.length + 4) (lineLengths s.numCols) =
      lineLengths s.numCols :: lineLengths s.numCols :: lineLengths s.numCols ::
        (List.replicate s.tuples.length (lineLengths s.numCols) ++ [lineLengths s.numCols]) := by
    rw [List.replicate_succ, List.replicate_succ, List.replicate_succ, ← List.replicate_succ']
  rw [rendering, selectPieces, hlines]
  simp only [List.map_append, map_length_separatorPieces, map_length_recordPieces, hcaptions, hrows, List.flatten_cons,
    List.flatten_append, List.flatten_nil, List.append_nil, List.append_assoc]

/-- The fields that are sent. -/
def shown : List Bytes := keep room (rendering floatStr s) 0

theorem length_flatten_rendering : (rendering floatStr s).flatten.length = fullLength s := by
  rw [List.length_flatten, map_length_rendering, List.sum_flatten, List.map_replicate, List.sum_replicate_nat, fullLength,
    lineLengths, List.sum_append_nat, List.sum_replicate_nat]
  simp

theorem length_flatten_shown : (shown floatStr s).flatten.length =
    if fullLength s < room then fullLength s else cutAt s.numCols := by
  have h := length_keep room (rendering floatStr s) 0
  have hlines := @leading_lines room s.numCols 19 2 (by decide) (by decide) (s.tuples.length + 4) 0 (by decide)
  rw [Nat.zero_add] at h
  rw [shown, h, map_length_rendering]
  unfold lineLengths
  rw [hlines]
  simp only [Nat.zero_add, Nat.sub_zero]
  rfl

theorem shown_lt_iff : (shown floatStr s).length < (rendering floatStr s).length ↔ room ≤ fullLength s := by
  rw [shown, length_keep_lt_iff (by decide), Nat.zero_add, length_flatten_rendering]

/-- What the printer has written for a SELECT, in front of the record count. -/
theorem shows_select : Shows ((init.selectRows floatStr s).printSeparator s.numCols)
    ⟨(shown floatStr s).flatten, decide ((shown floatStr s).length < (rendering floatStr s).length)⟩ := by
  have hregular := regular_rendering floatStr s
  have hlast : ∀ p ∈ (selectPieces floatStr s ++ separatorPieces s.numCols).getLast?, p.1 = false := by
    intro p hp
    rw [separatorPieces, ← List.append_assoc, List.getLast?_concat, Option.mem_some_iff] at hp
    rw [← hp]
  have hshows := shows_init.putAll (selectPieces floatStr s ++ separatorPieces s.numCols)
  have hwritten := @Output.putAll_written _ room 2 _ (fun p hp => (hregular p hp).1) (fun p hp => (hregular p hp).2)
    ⟨[], false⟩ rfl
  have hcut := @Output.putAll_cut _ room 2 _ (fun p hp => (hregular p hp).1) (fun p hp => (hregular p hp).2)
    ⟨[], false⟩ rfl hlast
  have hout : Output.putAll room ⟨[], false⟩ (selectPieces floatStr s ++ separatorPieces s.numCols) =
      ⟨(shown floatStr s).flatten, decide ((shown floatStr s).length < (rendering floatStr s).length)⟩ := by
    apply Output.ext
    · rw [hwritten]
      rfl
    · rw [hcut, rendering, List.length_map]
      rfl
  rw [selectRows_eq, printSeparator_eq, ← putAll_append]
  rwa [hout] at hshows

theorem length_recordCount (ellipsis : Bool) (numRec : Nat) : (recordCount ellipsis numRec).length =
    (if ellipsis then 8 else 0) + 18 + (decimal numRec).length := by
  have htext : "... ...\n".utf8ByteSize = 8 ∧ "Total record(s): ".utf8ByteSize = 17 ∧ "\n".utf8ByteSize = 1 :=
    ⟨rfl, rfl, rfl⟩
  rw [recordCount, List.length_append, List.length_append, List.length_append, length_textBytes, length_textBytes]
  cases ellipsis with
  | false =>
    simp only [Bool.false_eq_true, if_false, List.length_nil]
    omega
  | true =>
    simp only [if_true, length_textBytes]
    omega

/-- An answer that is not cut has few records. -/
theorem length_decimal_of_uncut (h : fullLength s < room) : (decimal s.tuples.length).length ≤ 3 := by
  rw [length_decimal_le_iff (by decide)]
  have hc : 1 ≤ s.numCols := List.length_pos_iff.2 s.nonempty
  have hmul : (s.tuples.length + 4) * 21 ≤ fullLength s := Nat.mul_le_mul_left _ (by omega)
  simp only [room, bufferLength, recordCountLength] at h
  omega

theorem selectFrom_eq : (init.selectFrom floatStr s).offset = (shown floatStr s).flatten.length +
      (recordCount (decide ((shown floatStr s).length < (rendering floatStr s).length)) s.tuples.length).length ∧
    (init.selectFrom floatStr s).dataSend = (shown floatStr s).flatten ++
      recordCount (decide ((shown floatStr s).length < (rendering floatStr s).length)) s.tuples.length ++
      List.replicate (bufferLength - (shown floatStr s).flatten.length -
        (recordCount (decide ((shown floatStr s).length < (rendering floatStr s).length)) s.tuples.length).length) 0 := by
  have h := shows_select floatStr s
  unfold selectFrom printRecordCount
  simp only [h.ellipsis, h.offset]
  exact ⟨trivial, memcpy_end h.dataSend⟩

/-- **An answer to a SELECT stays in the buffer** exactly if the record count finds room. -/
theorem fits_selectFrom_iff : (init.selectFrom floatStr s).Fits ↔ s.Small := by
  obtain ⟨hoffset, hdata⟩ := selectFrom_eq floatStr s
  have hshown := length_flatten_shown floatStr s
  have hcut := shown_lt_iff floatStr s
  have hcount := length_recordCount (decide ((shown floatStr s).length < (rendering floatStr s).length)) s.tuples.length
  have hfits : (init.selectFrom floatStr s).Fits ↔ (shown floatStr s).flatten.length +
      (recordCount (decide ((shown floatStr s).length < (rendering floatStr s).length)) s.tuples.length).length + 1 ≤
        bufferLength := by
    rw [Fits, hoffset, hdata]
    simp only [List.length_append, List.length_replicate]
    omega
  rw [hfits, hcount, hshown]
  by_cases hfull : fullLength s < room
  · have hdigits := length_decimal_of_uncut s hfull
    rw [if_pos hfull, decide_eq_false (by rw [hcut]; omega)]
    refine iff_of_true ?_ (.inl hfull)
    simp only [Bool.false_eq_true, if_false]
    simp only [room, bufferLength, recordCountLength] at hfull ⊢
    omega
  · rw [if_neg hfull, decide_eq_true (by rw [hcut]; omega)]
    simp only [Selection.Small, hfull, false_or, if_true]
    omega

/-- **What is sent for a SELECT**: leading fields of the whole answer, the line with the dots exactly if some are missing,
the record count and a zero byte. -/
theorem sent_selectFrom (h : (init.selectFrom floatStr s).Fits) : ∃ fields, fields <+: rendering floatStr s ∧
    (init.selectFrom floatStr s).sent = fields.flatten ++
      recordCount (decide (fields.length < (rendering floatStr s).length)) s.tuples.length ++ [0] := by
  obtain ⟨hoffset, hdata⟩ := selectFrom_eq floatStr s
  refine ⟨shown floatStr s, keep_leads .., ?_⟩
  obtain ⟨hlen, hle⟩ := h
  rw [hoffset] at hle
  obtain ⟨n, hn⟩ : ∃ n, bufferLength - (shown floatStr s).flatten.length -
      (recordCount (decide ((shown floatStr s).length < (rendering floatStr s).length)) s.tuples.length).length = n + 1 :=
    ⟨_, (Nat.succ_pred_eq_of_pos (by omega)).symm⟩
  rw [hn, List.replicate_succ] at hdata
  rw [sent, hdata, hoffset, ← List.length_append, List.take_append, List.take_of_length_le (by omega),
    Nat.add_sub_cancel_left]
  rfl

end select

/-! ## The other answers -/

section others
variable (floatStr : FloatBits → Bytes)

theorem shows_interrupted (shown : Option Selection) : ∃ out, Shows (interrupted floatStr shown) out := by
  cases shown with
  | none => exact ⟨_, shows_init⟩
  | some s =>
    rw [interrupted, selectRows_eq]
    exact ⟨_, shows_init.putAll _⟩

theorem fits_showTables (tabs : List Catalog.TabMeta) : (init.showTables tabs).Fits := by
  have hrows := foldl_printRecord (fun tab : Catalog.TabMeta => [textBytes tab.name]) tabs
  unfold showTables
  simp only [hrows]
  simp only [printSeparator_eq, printRecord_eq, ← putAll_append]
  exact (shows_init.putAll _).fits

theorem fits_descTable (tab : Catalog.TabMeta) : (init.descTable tab).Fits := by
  have hrows := foldl_printRecord (fun col : Catalog.ColMeta =>
    [textBytes col.name, textBytes col.type.str, textBytes (if col.index then "YES" else "NO")]) tab.cols
  unfold descTable
  simp only [hrows]
  simp only [printSeparator_eq, printRecord_eq, ← putAll_append]
  exact (shows_init.putAll _).fits

theorem fits_showIndex (tab : Catalog.TabMeta) : (init.showIndex tab).Fits := by
  unfold showIndex
  rw [foldl_printRecord]
  exact (shows_init.putAll _).fits

theorem length_memcpy {b : SendBuffer} {pos : Nat} {str : Bytes} (h : pos + str.length ≤ b.dataSend.length) :
    (b.memcpy pos str).dataSend.length = b.dataSend.length := by
  simp only [memcpy, List.length_append, List.length_take, List.length_drop]
  omega

theorem length_helpInfo : helpInfo.length = 689 := by
  rw [helpInfo, length_textBytes]
  decide +kernel

theorem fits_help : init.help.Fits := by
  constructor
  · have hinit : init.dataSend.length = bufferLength := shows_init.length_dataSend
    have hoffset : init.offset = 0 := rfl
    show (init.memcpy init.offset helpInfo).dataSend.length = _
    rw [length_memcpy (by rw [hinit, hoffset, length_helpInfo]; decide), hinit]
  · show helpInfo.length + 1 ≤ bufferLength
    rw [length_helpInfo]
    decide

theorem fits_catchAbort {b : SendBuffer} (h : b.dataSend.length = bufferLength) : b.catchAbort.Fits := by
  have htext : (textBytes "abort\n").length = 6 := length_textBytes _
  have h1 : (b.memcpy 0 (textBytes "abort\n")).dataSend.length = bufferLength := by
    rw [length_memcpy (by rw [h, htext]; decide), h]
  constructor
  · show ((b.memcpy 0 (textBytes "abort\n")).memcpy _ [0]).dataSend.length = _
    rw [length_memcpy (by rw [h1, htext]; decide), h1]
  · show (textBytes "abort\n").length + 1 ≤ bufferLength
    rw [htext]
    decide

/-- The text of an error goes into the buffer as a whole, with a newline and a zero byte. -/
theorem fits_catchError_iff {b : SendBuffer} (h : b.dataSend.length = bufferLength) (e : RMDBError) :
    (b.catchError e).Fits ↔ e.what.utf8ByteSize + 2 ≤ bufferLength := by
  rw [← length_textBytes]
  constructor
  · rintro ⟨-, hle⟩
    exact hle
  · intro hle
    have h1 : (b.memcpy 0 (textBytes e.what)).dataSend.length = bufferLength := by
      rw [length_memcpy (by rw [h]; omega), h]
    have h2 : ((b.memcpy 0 (textBytes e.what)).memcpy (textBytes e.what).length [10]).dataSend.length = bufferLength := by
      rw [length_memcpy (by rw [h1, List.length_singleton]; omega), h1]
    refine ⟨?_, hle⟩
    show ((((b.memcpy 0 (textBytes e.what)).memcpy _ [10])).memcpy _ [0]).dataSend.length = _
    rw [length_memcpy (by rw [h2, List.length_singleton]; omega), h2]

end others

end SendBuffer

/-! ## All answers -/

open SendBuffer

/-- The answer stays in its buffer; for a SELECT it is a prefix of the whole rendering, cut between fields and marked. -/
def Reply.Responds (floatStr : FloatBits → Bytes) (r : Reply) : Prop :=
  (respond floatStr r).Fits ∧ ∀ s, r = .select s → ∃ fields, fields <+: rendering floatStr s ∧
    (respond floatStr r).sent = fields.flatten ++
      recordCount (decide (fields.length < (rendering floatStr s).length)) s.tuples.length ++ [0]

/-- No error text and no record count is too long. -/
def Reply.Small : Reply → Prop
  | .select s => s.Small
  | .failed _ e => e.what.utf8ByteSize + 2 ≤ bufferLength
  | _ => True

/-- Below 10^14 records, the record count finds room. -/
theorem Selection.small_of_lt {s : Selection} (h : s.tuples.length < 10 ^ 14) : s.Small := by
  have hdigits := (length_decimal_le_iff (by decide)).2 h
  have hcut : cutAt s.numCols ≤ room - 1 := by
    have hmod := Nat.div_add_mod' (room - 1) (s.numCols * 19 + 2)
    have hle : min ((room - 1) % (s.numCols * 19 + 2) / 19) s.numCols * 19 ≤ (room - 1) % (s.numCols * 19 + 2) :=
      Nat.le_trans (Nat.mul_le_mul_right 19 (Nat.min_le_left ..)) (Nat.div_mul_le_self ..)
    unfold cutAt
    omega
  refine .inr ?_
  simp only [room, bufferLength, recordCountLength] at hcut ⊢
  omega

/-! ## A long column name -/

/-- The text of this error is 27 bytes longer than the name, with its end. -/
theorem not_responds_columnNotFound {colName : String} (h : bufferLength < colName.utf8ByteSize + 27) :
    ¬(Reply.failed none (.columnNotFound colName)).Responds fun _ => [] := by
  intro hresponds
  have htext : "Error: ".utf8ByteSize = 7 ∧ "Column not found: ".utf8ByteSize = 18 := ⟨rfl, rfl⟩
  have hfits := hresponds.1
  rw [respond, interrupted, fits_catchError_iff shows_init.length_dataSend] at hfits
  have hwhat : (RMDBError.columnNotFound colName).what = "Error: " ++ ("Column not found: " ++ colName) := rfl
  rw [hwhat, String.utf8ByteSize_append, String.utf8ByteSize_append] at hfits
  omega

/-- A column name of so many letters. -/
def longName (n : Nat) : String := String.ofList (List.replicate n 'a')

/-- `SELECT aa…a FROM t;` -/
def longSelect (n : Nat) : String := "SELECT " ++ longName n ++ " FROM t;"

theorem utf8ByteSize_longName (n : Nat) : (longName n).utf8ByteSize = n := by
  induction n with
  | zero => rfl
  | succ n ih =>
    rw [longName, List.replicate_succ, String.ofList_cons, String.utf8ByteSize_append, ← longName, ih,
      String.utf8ByteSize_singleton, Nat.add_comm]
    rfl

theorem utf8ByteSize_longSelect (n : Nat) : (longSelect n).utf8ByteSize = n + 15 := by
  have htext : "SELECT ".utf8ByteSize = 7 ∧ " FROM t;".utf8ByteSize = 8 := ⟨rfl, rfl⟩
  rw [longSelect, String.utf8ByteSize_append, String.utf8ByteSize_append, utf8ByteSize_longName]
  omega

theorem isIdentifier_longName (n : Nat) : isIdentifier (longName (n + 1)) = true := by
  rw [isIdentifier, longName, String.toList_ofList, List.replicate_succ]
  simp

theorem checkColumn_longName (n : Nat) : checkColumn [⟨"t", "b", .int, 4, 0⟩] ⟨"", longName n⟩ =
    .error (.columnNotFound (longName n)) := by
  have hne : "b" ≠ longName n := by
    intro h
    have hlist : ['b'] = List.replicate n 'a' := by
      rw [← String.toList_ofList (l := List.replicate n 'a'), ← longName, ← h]
      rfl
    have hmem : 'b' ∈ List.replicate n 'a' := hlist ▸ List.mem_singleton_self _
    exact absurd (List.eq_of_mem_replicate hmem) (by decide)
  simp only [checkColumn, inferTable, if_neg hne, if_true]
  rfl

end Rmdb
