import Std.Data.ExtTreeMap
import Rmdb.Index.FileHdr
import Rmdb.Lib.TextStream
import Rmdb.System.Meta

/-!
# The catalogue file

- `ColMeta`, `IndexMeta`, `TabMeta` and `DbMeta` with all members of `sm_meta.h`, `tabs_` as a map;
- `write` and `read`: the stream operators of each;
- `DbMeta.Named`: the names are words, every table stands under its own name, and every number fits its type;
- `DbMeta.read_write`: a catalogue is read back from its text.
-/

namespace Rmdb.Catalog

open Lib Lib.Reader Lib.TextStream

/-! ## Maps -/

/-! ## Maps -/

section map
variable {α β : Type} {cmp : α → α → Ordering} [Std.TransCmp cmp] [Std.LawfulEqCmp cmp]

theorem getElem?_foldl_insert {k : α} {v : β} : ∀ {l : List (α × β)} {m : Std.ExtTreeMap α β cmp},
    l.Pairwise (fun a b => ¬cmp a.1 b.1 = .eq) → ((l.foldl (fun m e => m.insert e.1 e.2) m)[k]? = some v ↔
      (k, v) ∈ l ∨ m[k]? = some v ∧ ∀ e ∈ l, e.1 ≠ k)
  | [], m, _ => by simp
  | (k', v') :: l, m, h => by
    obtain ⟨hne, h⟩ := List.pairwise_cons.1 h
    rw [List.foldl_cons, getElem?_foldl_insert h, Std.ExtTreeMap.getElem?_insert, List.mem_cons, List.forall_mem_cons]
    by_cases hk : k' = k
    · subst hk
      have hnot : ∀ e ∈ l, e.1 ≠ k' := by
        rintro e he rfl
        exact hne e he (Std.LawfulEqCmp.compare_eq_iff_eq.2 rfl)
      rw [if_pos (Std.LawfulEqCmp.compare_eq_iff_eq.2 rfl)]
      constructor
      · rintro (hmem | ⟨hv, -⟩)
        · exact absurd rfl (hnot _ hmem)
        · cases hv
          exact .inl (.inl rfl)
      · rintro ((hv | hmem) | ⟨-, hself, -⟩)
        · cases hv
          exact .inr ⟨rfl, hnot⟩
        · exact absurd rfl (hnot _ hmem)
        · exact absurd rfl hself
    · have hpair : (k, v) ≠ (k', v') := fun h => hk (Prod.ext_iff.1 h).1.symm
      rw [if_neg fun h => hk (Std.LawfulEqCmp.compare_eq_iff_eq.1 h)]
      simp [hk, hpair]

/-- A map is what inserting its entries makes of the empty map. -/
theorem foldl_insert_toList (m : Std.ExtTreeMap α β cmp) :
    m.toList.foldl (fun m e => m.insert e.1 e.2) ∅ = m := by
  apply Std.ExtTreeMap.ext_getElem?
  intro k
  apply Option.ext
  intro v
  rw [getElem?_foldl_insert Std.ExtTreeMap.distinct_keys_toList, Std.ExtTreeMap.mem_toList_iff_getElem?_eq_some]
  simp

end map

/-! ## The records -/

structure ColMeta extends Rmdb.ColMeta where
  index : Bool

structure IndexMeta where
  tabName : String
  colTotLen : Int
  colNum : Int
  cols : List ColMeta

structure TabMeta where
  name : String
  cols : List ColMeta
  indexes : List IndexMeta

structure DbMeta where
  name : String
  tabs : Std.ExtTreeMap String TabMeta

/-! ## Writing -/

/-- `operator<<` of a column. -/
def ColMeta.write (col : ColMeta) : List Char :=
  col.tabName.toList ++ (' ' :: col.name.toList ++ (' ' :: showInt col.type.code ++ (' ' :: showInt col.len ++
    (' ' :: showInt col.offset ++ (' ' :: showBool col.index)))))

/-- `operator<<` of an index. -/
def IndexMeta.write (index : IndexMeta) : List Char :=
  index.tabName.toList ++ (' ' :: showInt index.colTotLen ++ (' ' :: showInt index.colNum ++
    index.cols.flatMap fun col => '\n' :: col.write))

/-- `operator<<` of a table. -/
def TabMeta.write (tab : TabMeta) : List Char :=
  tab.name.toList ++ ('\n' :: showNat tab.cols.length ++ ('\n' :: tab.cols.flatMap (fun col => col.write ++ ['\n']) ++
    (showNat tab.indexes.length ++ ('\n' :: tab.indexes.flatMap fun index => index.write ++ ['\n']))))

/-- `operator<<` of the catalogue. -/
def DbMeta.write (db : DbMeta) : List Char :=
  db.name.toList ++ ('\n' :: showNat db.tabs.size ++
    ('\n' :: db.tabs.toList.flatMap fun entry => entry.2.write ++ ['\n']))

/-! ## Reading -/

/-- `operator>>` of a `std::string`. -/
def string : Reader Char String := do
  let w ← word
  return String.ofList w

/-- `operator>>` of an `int`. -/
def int : Reader Char Int := integer intMin intMax

/-- `operator>>` of an enumeration in `defs.h`; a number without enumerator counts as a failure. -/
def colType : Reader Char ColType := do
  let n ← int
  match ColType.ofCode n with
  | some type => return type
  | none => failure

/-- `operator>>` of a column. -/
def ColMeta.read : Reader Char ColMeta := do
  let tabName ← string
  let name ← string
  let type ← colType
  let len ← int
  let offset ← int
  let index ← boolean
  return ⟨⟨tabName, name, type, len, offset⟩, index⟩

/-- `operator>>` of an index. -/
def IndexMeta.read : Reader Char IndexMeta := do
  let tabName ← string
  let colTotLen ← int
  let colNum ← int
  let cols ← many ColMeta.read colNum.toNat
  return ⟨tabName, colTotLen, colNum, cols⟩

/-- `operator>>` of a table. -/
def TabMeta.read : Reader Char TabMeta := do
  let name ← string
  let n ← natural 64
  let cols ← many ColMeta.read n
  let n ← natural 64
  let indexes ← many IndexMeta.read n
  return ⟨name, cols, indexes⟩

/-- `operator>>` of the catalogue, into an empty one. -/
def DbMeta.read : Reader Char DbMeta := do
  let name ← string
  let n ← natural 64
  let tabs ← many TabMeta.read n
  return ⟨name, tabs.foldl (fun m tab => m.insert tab.name tab) ∅⟩

/-! ## Well-formed catalogues -/

/-- A name without white space. -/
def IsName (s : String) : Prop := IsWord s.toList

instance (s : String) : Decidable (IsName s) := inferInstanceAs (Decidable (IsWord _))

structure ColMeta.Named (col : ColMeta) : Prop where
  tabName : IsName col.tabName
  name : IsName col.name
  len : intMin ≤ col.len ∧ col.len ≤ intMax
  offset : intMin ≤ col.offset ∧ col.offset ≤ intMax

structure IndexMeta.Named (index : IndexMeta) : Prop where
  tabName : IsName index.tabName
  colTotLen : intMin ≤ index.colTotLen ∧ index.colTotLen ≤ intMax
  colNum : index.colNum = index.cols.length
  colNum_le : index.colNum ≤ intMax
  cols : ∀ col ∈ index.cols, col.Named

structure TabMeta.Named (tab : TabMeta) : Prop where
  name : IsName tab.name
  cols : ∀ col ∈ tab.cols, col.Named
  indexes : ∀ index ∈ tab.indexes, index.Named
  cols_lt : tab.cols.length < 2 ^ 64
  indexes_lt : tab.indexes.length < 2 ^ 64

/-- The names are words, every table stands under its own, and the numbers fit their types. -/
structure DbMeta.Named (db : DbMeta) : Prop where
  name : IsName db.name
  tabs : ∀ (tabName : String) (tab : TabMeta), db.tabs[tabName]? = some tab → tab.Named
  keys : ∀ (tabName : String) (tab : TabMeta), db.tabs[tabName]? = some tab → tab.name = tabName
  size_lt : db.tabs.size < 2 ^ 64

/-! ## The round trip -/

theorem scans_string {s : String} (h : IsName s) : Scans string s.toList s := by
  have hs := (scans_word h).map (g := String.ofList)
  rwa [String.ofList_toList] at hs

theorem scans_int {v : Int} (h : intMin ≤ v ∧ v ≤ intMax) : Scans int (showInt v) v := scans_integer h

theorem scans_colType (type : ColType) : Scans colType (showInt type.code) type := by
  have hcode : intMin ≤ type.code ∧ type.code ≤ intMax := by cases type <;> decide
  have hlast : Scans (match ColType.ofCode type.code with | some type => pure type | none => failure) [] type := by
    rw [ColType.ofCode_code]
    exact Scans.pure type
  rw [← List.append_nil (showInt type.code)]
  exact (scans_int hcode).bind hlast (by simp [Ends])

/-- An item behind a blank or a newline. -/
theorem scans_cons {α : Type} {r : Reader Char α} {text : List Char} {x : α} {sep : Char} (h : Scans r text x)
    (hsep : IsSpace sep) : Scans r (sep :: text) x := by
  have hblank : Blank [sep] := by simpa [Blank]
  exact h.blank_append hblank

theorem ends_cons {sep : Char} (hsep : IsSpace sep) (s : List Char) : Ends (sep :: s) := by simpa [Ends]

theorem ColMeta.Named.scans {col : ColMeta} (h : col.Named) : Scans ColMeta.read col.write col := by
  have hsp : IsSpace ' ' := by decide
  unfold ColMeta.read ColMeta.write
  refine (scans_string h.tabName).bind ?_ (ends_cons hsp _)
  refine (scans_cons (scans_string h.name) hsp).bind ?_ (ends_cons hsp _)
  refine (scans_cons (scans_colType col.type) hsp).bind ?_ (ends_cons hsp _)
  refine (scans_cons (scans_int h.len) hsp).bind ?_ (ends_cons hsp _)
  refine (scans_cons (scans_int h.offset) hsp).bind ?_ (ends_cons hsp _)
  exact (scans_cons (scans_boolean col.index) hsp).map

theorem ends_flatMap {α : Type} {sep : Char} (hsep : IsSpace sep) (texts : α → List Char) (xs : List α) :
    Ends (xs.flatMap fun x => sep :: texts x) := by
  cases xs with
  | nil => simp [Ends]
  | cons x xs => exact ends_cons hsep _

theorem IndexMeta.Named.scans {index : IndexMeta} (h : index.Named) : Scans IndexMeta.read index.write index := by
  have hsp : IsSpace ' ' := by decide
  have hnl : IsSpace '\n' := by decide
  have hnum : intMin ≤ index.colNum ∧ index.colNum ≤ intMax := by
    refine ⟨?_, h.colNum_le⟩
    rw [h.colNum, intMin]
    omega
  have hcols : Scans (many ColMeta.read index.colNum.toNat) (index.cols.flatMap fun col => '\n' :: col.write)
      index.cols := by
    rw [h.colNum, Int.toNat_natCast]
    exact Scans.many hnl fun col hcol => (h.cols col hcol).scans
  unfold IndexMeta.read IndexMeta.write
  refine (scans_string h.tabName).bind ?_ (ends_cons hsp _)
  refine (scans_cons (scans_int h.colTotLen) hsp).bind ?_ (ends_cons hsp _)
  refine (scans_cons (scans_int hnum) hsp).bind ?_ (ends_flatMap hnl _ _)
  exact hcols.map

theorem TabMeta.Named.scans {tab : TabMeta} (h : tab.Named) : Scans TabMeta.read tab.write tab := by
  have hnl : IsSpace '\n' := by decide
  have hcols := Scans.many (r := ColMeta.read) hnl fun col hcol => (h.cols col hcol).scans
  have hindexes := Scans.many (r := IndexMeta.read) hnl fun index hindex => (h.indexes index hindex).scans
  have htext : tab.write = tab.name.toList ++ (('\n' :: showNat tab.cols.length) ++
      ((tab.cols.flatMap fun col => '\n' :: col.write) ++ (('\n' :: showNat tab.indexes.length) ++
        (tab.indexes.flatMap fun index => '\n' :: index.write)))) ++ ['\n'] := by
    unfold TabMeta.write
    rw [cons_flatMap, cons_flatMap]
    simp only [List.append_assoc, List.cons_append, List.nil_append]
  rw [htext]
  refine Scans.append_blank ?_ (by simpa [Blank])
  unfold TabMeta.read
  refine (scans_string h.name).bind ?_ (ends_cons hnl _)
  refine (scans_cons (scans_natural h.cols_lt) hnl).bind ?_ ((ends_flatMap hnl _ _).append (ends_cons hnl _))
  refine hcols.bind ?_ (ends_cons hnl _)
  refine (scans_cons (scans_natural h.indexes_lt) hnl).bind ?_ (ends_flatMap hnl _ _)
  exact hindexes.map

/-- The tables of a catalogue, inserted one by one under their names. -/
theorem DbMeta.Named.foldl_insert {db : DbMeta} (h : db.Named) :
    (db.tabs.toList.map Prod.snd).foldl (fun m tab => m.insert tab.name tab) ∅ = db.tabs := by
  have hkeys : ∀ entry ∈ db.tabs.toList, entry.2.name = entry.1 := fun entry hentry =>
    h.keys entry.1 entry.2 (Std.ExtTreeMap.mem_toList_iff_getElem?_eq_some.1 hentry)
  conv_rhs => rw [← foldl_insert_toList db.tabs]
  rw [List.foldl_map]
  exact List.foldl_ext _ _ _ fun m entry hentry => by rw [hkeys entry hentry]

theorem DbMeta.Named.scans {db : DbMeta} (h : db.Named) : Scans DbMeta.read db.write db := by
  have hnl : IsSpace '\n' := by decide
  have htabs : Scans (many TabMeta.read db.tabs.size)
      ((db.tabs.toList.map Prod.snd).flatMap fun tab => '\n' :: tab.write) (db.tabs.toList.map Prod.snd) := by
    rw [← Std.ExtTreeMap.length_toList, ← List.length_map (f := Prod.snd)]
    refine Scans.many hnl fun tab htab => ?_
    obtain ⟨entry, hentry, rfl⟩ := List.mem_map.1 htab
    exact (h.tabs entry.1 entry.2 (Std.ExtTreeMap.mem_toList_iff_getElem?_eq_some.1 hentry)).scans
  have htext : db.write = db.name.toList ++ (('\n' :: showNat db.tabs.size) ++
      ((db.tabs.toList.map Prod.snd).flatMap fun tab => '\n' :: tab.write)) ++ ['\n'] := by
    unfold DbMeta.write
    rw [cons_flatMap, List.flatMap_map]
    simp only [List.append_assoc]
  have hread : Scans (do
      let tabs ← many TabMeta.read db.tabs.size
      return ⟨db.name, tabs.foldl (fun m tab => m.insert tab.name tab) ∅⟩)
      ((db.tabs.toList.map Prod.snd).flatMap fun tab => '\n' :: tab.write) db := by
    have hs := htabs.map (g := fun tabs => DbMeta.mk db.name (tabs.foldl (fun m tab => m.insert tab.name tab) ∅))
    rwa [h.foldl_insert] at hs
  rw [htext]
  refine Scans.append_blank ?_ (by simpa [Blank])
  unfold DbMeta.read
  refine (scans_string h.name).bind ?_ (ends_cons hnl _)
  exact (scans_cons (scans_natural h.size_lt) hnl).bind hread (ends_flatMap hnl _ _)

/-- **A catalogue is read back from its text**; only white space is left in the file. -/
theorem DbMeta.read_write {db : DbMeta} (h : db.Named) : ∃ sp, Blank sp ∧ DbMeta.read.run db.write = some (db, sp) := by
  obtain ⟨sp, hsp, hrun⟩ := h.scans [] [] (by simp [Blank]) (by simp [Ends])
  exact ⟨sp, hsp, by simpa using hrun⟩

/-- `CREATE TABLE t (a INT, b CHAR(8)); CREATE INDEX t (b, a);` -/
def indexedTable : TabMeta :=
  let a : ColMeta := ⟨⟨"t", "a", .int, 4, 0⟩, false⟩
  let b : ColMeta := ⟨⟨"t", "b", .string, 8, 4⟩, false⟩
  ⟨"t", [a, b], [⟨"t", 12, 2, [b, a]⟩]⟩

def smallDb : DbMeta := ⟨"db", (∅ : Std.ExtTreeMap String TabMeta).insert "t" indexedTable⟩

theorem indexedTable_named : indexedTable.Named := by
  have hcol : ∀ col ∈ indexedTable.cols, col.Named := by
    intro col hcol
    rcases List.mem_pair.1 hcol with rfl | rfl
    all_goals exact ⟨by decide +kernel, by decide +kernel, by decide, by decide⟩
  refine ⟨by decide +kernel, hcol, fun index hindex => ?_, by decide, by decide⟩
  cases List.mem_singleton.1 hindex
  exact ⟨by decide +kernel, by decide, rfl, by decide, fun col h => hcol col (by simpa [indexedTable, or_comm] using h)⟩

theorem smallDb_named : smallDb.Named := by
  have hget : ∀ (tabName : String) (tab : TabMeta), smallDb.tabs[tabName]? = some tab →
      tabName = "t" ∧ tab = indexedTable := by
    intro tabName tab h
    rw [smallDb, Std.ExtTreeMap.getElem?_insert] at h
    split at h
    · next heq =>
      cases h
      exact ⟨(Std.LawfulEqCmp.compare_eq_iff_eq.1 heq).symm, rfl⟩
    · simp at h
  have hsize : smallDb.tabs.size < 2 ^ 64 := by
    rw [smallDb, Std.ExtTreeMap.size_insert]
    split <;> simp
  refine ⟨by decide +kernel, fun tabName tab h => ?_, fun tabName tab h => ?_, hsize⟩
  · rw [(hget tabName tab h).2]
    exact indexedTable_named
  · obtain ⟨rfl, rfl⟩ := hget tabName tab h
    rfl

example : smallDb.write =
    "db\n1\nt\n2\nt a 0 4 0 0\nt b 2 8 4 0\n1\nt 12 2\nt b 2 8 4 0\nt a 0 4 0 0\n\n".toList := by
  decide +kernel

theorem DbMeta.read_write_smallDb : ∃ sp, Blank sp ∧ DbMeta.read.run smallDb.write = some (smallDb, sp) :=
  DbMeta.read_write smallDb_named

end Rmdb.Catalog
