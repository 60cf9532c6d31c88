import Rmdb.System.SmManager

/-!
# The layout of a new table

- `TypeDef`: the grammar's `type`, and the `ColDef`s that the planner makes of a CREATE TABLE;
- `WellLaid`: every column has bytes of its own within the record;
- `createTable_wellLaid_iff`: the tables that `create_table` accepts whose records are well laid out. The lengths are
  summed in an `int` and only the sum is checked, so a `CHAR` of no or of a negative length is accepted.
-/

namespace Rmdb

open Lib

/-- The `type` of a column in the grammar. -/
inductive TypeDef
  | int
  | bigint
  | datetime
  | char (len : Int)
  | float

namespace TypeDef

/-- The type that `interp_sv_type` gives, and the length. -/
def typeLen : TypeDef → ColType × Int
  | .int => (.int, 4)
  | .bigint => (.bigint, 8)
  | .datetime => (.datetime, 8)
  | .char len => (.string, len)
  | .float => (.float, 4)

/-- The lexer makes a `VALUE_INT` of a literal that fits an `int`. -/
def Admitted : TypeDef → Prop
  | .char len => IsInt len
  | _ => True

end TypeDef

/-- The column definitions of `do_planner`. -/
def planFields (fields : List (String × TypeDef)) : List ColDef :=
  fields.map fun field => ⟨field.1, field.2.typeLen.1, field.2.typeLen.2⟩

/-- The columns have bytes of their own in a record of an allowed size. -/
structure WellLaid (cols : List ColMeta) (recordSize : Int) : Prop where
  positive : ∀ col ∈ cols, 0 < col.len
  within : ∀ col ∈ cols, 0 ≤ col.offset ∧ col.offset + col.len ≤ recordSize
  disjoint : cols.Pairwise fun a b =>
    ∀ i, ¬((a.offset ≤ i ∧ i < a.offset + a.len) ∧ (b.offset ≤ i ∧ i < b.offset + b.len))
  size : 1 ≤ recordSize ∧ recordSize ≤ rmMaxRecordSize

namespace SmManager

/-- The sum of the lengths, without overflow. -/
def totalLen (colDefs : List ColDef) : Int := (colDefs.map (·.len)).sum

section layout
variable {tabName : TabName}

theorem map_len_tableCols : ∀ (colDefs : List ColDef) (off : Int),
    (tableCols tabName colDefs off).1.map (·.len) = colDefs.map (·.len)
  | [], _ => rfl
  | colDef :: colDefs, off => by
    rw [tableCols, List.map_cons, List.map_cons, map_len_tableCols colDefs]

/-- Columns within a record whose size is allowed are laid out without overflow. -/
theorem tableCols_snd {n : Int} (hn : n ≤ intMax) : ∀ {colDefs : List ColDef} {off : Int},
    (∀ col ∈ (tableCols tabName colDefs off).1, 0 ≤ col.offset ∧ 0 < col.len ∧ col.offset + col.len ≤ n) →
    (tableCols tabName colDefs off).2 = off + totalLen colDefs
  | [], off, _ => by simp [tableCols, totalLen]
  | colDef :: colDefs, off, h => by
    have hmax : intMax < 2 ^ 31 := by decide
    simp only [tableCols, List.forall_mem_cons] at h ⊢
    obtain ⟨⟨h1, h2, h3⟩, htail⟩ := h
    rw [tableCols_snd hn htail, toInt32_of_isInt ⟨by omega, by omega⟩]
    simp only [totalLen, List.map_cons, List.sum_cons]
    omega

theorem totalLen_nonneg {colDefs : List ColDef} (h : ∀ d ∈ colDefs, 1 ≤ d.len) : 0 ≤ totalLen colDefs := by
  induction colDefs with
  | nil => simp [totalLen]
  | cons d ds ih =>
    have h1 := h d List.mem_cons_self
    have h2 := ih fun d' hd' => h d' (List.mem_cons_of_mem _ hd')
    simp only [totalLen, List.map_cons, List.sum_cons] at h2 ⊢
    omega

/-- Columns of positive length are laid out one behind the other. -/
theorem tableCols_ordered : ∀ {colDefs : List ColDef} {off : Int}, (∀ d ∈ colDefs, 1 ≤ d.len) → 0 ≤ off →
    off + totalLen colDefs ≤ intMax →
    (∀ col ∈ (tableCols tabName colDefs off).1,
      off ≤ col.offset ∧ 0 < col.len ∧ col.offset + col.len ≤ off + totalLen colDefs) ∧
    (tableCols tabName colDefs off).1.Pairwise fun a b => a.offset + a.len ≤ b.offset
  | [], off, _, _, _ => by simp [tableCols]
  | colDef :: colDefs, off, hpos, h0, hle => by
    have hmax : intMax < 2 ^ 31 := by decide
    rw [List.forall_mem_cons] at hpos
    obtain ⟨hlen, hpos⟩ := hpos
    have hrest := totalLen_nonneg hpos
    have hsum : totalLen (colDef :: colDefs) = colDef.len + totalLen colDefs := by
      simp only [totalLen, List.map_cons, List.sum_cons]
    rw [hsum] at hle ⊢
    obtain ⟨hcols, hpair⟩ := @tableCols_ordered _ (off + colDef.len) hpos (by omega) (by omega)
    simp only [tableCols, toInt32_of_isInt (v := off + colDef.len) ⟨by omega, by omega⟩]
    constructor
    · intro col hcol
      rcases List.mem_cons.1 hcol with rfl | hcol
      · exact ⟨Int.le_refl _, Int.lt_of_lt_of_le Int.one_pos hlen, by dsimp only; omega⟩
      · obtain ⟨h1, h2, h3⟩ := hcols col hcol
        exact ⟨by omega, h2, by omega⟩
    · refine List.pairwise_cons.2 ⟨fun col hcol => ?_, hpair⟩
      exact (hcols col hcol).1

/-- **A record of an allowed size is well laid out exactly for positive lengths that do not exceed it.** -/
theorem wellLaid_tableCols_iff {colDefs : List ColDef} (h1 : 1 ≤ (tableCols tabName colDefs 0).2)
    (hle : (tableCols tabName colDefs 0).2 ≤ rmMaxRecordSize) :
    WellLaid (tableCols tabName colDefs 0).1 (tableCols tabName colDefs 0).2 ↔
      (∀ d ∈ colDefs, 1 ≤ d.len) ∧ totalLen colDefs ≤ rmMaxRecordSize := by
  have hmax : rmMaxRecordSize ≤ intMax := by decide
  have hlens := @map_len_tableCols tabName colDefs 0
  constructor
  · intro h
    constructor
    · intro d hd
      have hmem : d.len ∈ (tableCols tabName colDefs 0).1.map (·.len) := by
        rw [hlens]
        exact List.mem_map_of_mem hd
      obtain ⟨col, hcol, heq⟩ := List.mem_map.1 hmem
      rw [← heq]
      exact h.positive col hcol
    · have hsnd := @tableCols_snd tabName _ hmax colDefs 0 fun col hcol =>
        ⟨(h.within col hcol).1, h.positive col hcol, Int.le_trans (h.within col hcol).2 hle⟩
      omega
  · rintro ⟨hpos, hsum⟩
    obtain ⟨hcols, hpair⟩ := @tableCols_ordered tabName _ 0 hpos (Int.le_refl 0) (by omega)
    have hsnd := @tableCols_snd tabName _ hmax colDefs 0 fun col hcol => by
      have := hcols col hcol
      exact ⟨by omega, by omega, by omega⟩
    exact {
      positive := fun col hcol => (hcols col hcol).2.1
      within := fun col hcol => by
        have := hcols col hcol
        exact ⟨by omega, by omega⟩
      disjoint := hpair.imp fun {a b} hab i hi => by omega
      size := ⟨h1, hle⟩ }

end layout

/-! ## CREATE TABLE -/

section createTable
variable {env : DdlEnv} {tabName : TabName} {colDefs : List ColDef} {s s' : SmManager}

/-- An accepted CREATE TABLE: the size of the record is checked, and table and file have the computed layout. -/
theorem run_createTable (h : (createTable env tabName colDefs).run s = (.ok (), s')) :
    (1 ≤ (tableCols tabName colDefs 0).2 ∧ (tableCols tabName colDefs 0).2 ≤ rmMaxRecordSize) ∧
      s'.db.getTable tabName = .ok ⟨tabName, (tableCols tabName colDefs 0).1, []⟩ ∧
      ∃ fh, s'.fhs tabName = some fh ∧ fh.file.fileHdr.recordSize = (tableCols tabName colDefs 0).2 := by
  unfold createTable at h
  obtain ⟨_, s₁, h₁, h⟩ := Act.run_bind_eq_ok.1 h
  cases h₁
  split at h
  · cases h
  · generalize tableCols tabName colDefs 0 = layout at h ⊢
    obtain ⟨_, s₂, h₂, h⟩ := Act.run_bind_eq_ok.1 h
    obtain ⟨fs₂, hfs₂, rfl⟩ := run_files_eq h₂
    obtain ⟨hsize, hshow, hopen⟩ := RmManager.run_createFile hfs₂
    obtain ⟨_, s₃, h₃, h⟩ := Act.run_bind_eq_ok.1 h
    cases h₃
    obtain ⟨hdr, s₄, h₄, h⟩ := Act.run_bind_eq_ok.1 h
    obtain ⟨fs₄, hfs₄, rfl⟩ := run_files_eq h₄
    obtain ⟨fs₄', h₄'⟩ := RmManager.run_openFile env.fd' hsize.1 hsize.2 hshow hopen
    cases hfs₄.symm.trans h₄'
    obtain rfl : _ = s' := congrArg Prod.snd h
    exact ⟨hsize, DbMeta.getTable_setTab .., _, Function.update_self .., rfl⟩

/-- **The tables that CREATE TABLE accepts with a layout in which every column has bytes of its own.** -/
theorem createTable_wellLaid_iff {fields : List (String × TypeDef)}
    (h : (createTable env tabName (planFields fields)).run s = (.ok (), s')) :
    ∃ tab fh, s'.db.getTable tabName = .ok tab ∧ s'.fhs tabName = some fh ∧
      (WellLaid tab.cols fh.file.fileHdr.recordSize ↔
        (∀ field ∈ fields, 1 ≤ field.2.typeLen.2) ∧ (fields.map (·.2.typeLen.2)).sum ≤ rmMaxRecordSize) := by
  obtain ⟨hsize, htab, fh, hfh, hrec⟩ := run_createTable h
  refine ⟨_, fh, htab, hfh, ?_⟩
  have hlens : (planFields fields).map (·.len) = fields.map (·.2.typeLen.2) := by
    rw [planFields, List.map_map]
    rfl
  rw [hrec, wellLaid_tableCols_iff hsize.1 hsize.2, totalLen, hlens]
  simp only [planFields, List.forall_mem_map]

end createTable

/-- A database without tables. -/
def emptyDb : SmManager where
  db := ⟨"db", []⟩
  fs := ⟨⟨fun _ => 0, fun _ => none, fun _ => none, fun _ => none⟩, ⟨"db", []⟩, []⟩
  fhs _ := none
  ihs _ := none

/-- Every `open` returns the descriptor 3, and nothing is evicted. -/
def quietEnv : DdlEnv := ⟨3, 3, fun _ => [], fun _ => [], []⟩

/-- `CREATE TABLE t (a INT, b CHAR(8));` -/
def plainFields : List (String × TypeDef) := [("a", .int), ("b", .char 8)]

theorem run_createTable_plain : ((createTable quietEnv "t" (planFields plainFields)).run emptyDb).1 = .ok () := by
  decide +kernel

theorem createTable_wellLaid_iff_plain :
    ∃ tab fh, ((createTable quietEnv "t" (planFields plainFields)).run emptyDb).2.db.getTable "t" = .ok tab ∧
      ((createTable quietEnv "t" (planFields plainFields)).run emptyDb).2.fhs "t" = some fh ∧
      (WellLaid tab.cols fh.file.fileHdr.recordSize ↔
        (∀ field ∈ plainFields, 1 ≤ field.2.typeLen.2) ∧ (plainFields.map (·.2.typeLen.2)).sum ≤ rmMaxRecordSize) :=
  createTable_wellLaid_iff (Act.run_eq_of_fst run_createTable_plain)

/-- `CREATE TABLE t (a CHAR(8), b CHAR(-4), c INT);`: `c` lies in the second half of `a`. -/
def overlappingFields : List (String × TypeDef) := [("a", .char 8), ("b", .char (-4)), ("c", .int)]

theorem run_createTable_overlapping :
    ((createTable quietEnv "t" (planFields overlappingFields)).run emptyDb).1 = .ok () := by
  decide +kernel

theorem not_wellLaid_overlapping : ¬∀ (env : DdlEnv) (tabName : TabName) (fields : List (String × TypeDef))
    (s s' : SmManager) (tab : TabMeta) (fh : RmHandle), (∀ field ∈ fields, field.2.Admitted) →
    (createTable env tabName (planFields fields)).run s = (.ok (), s') → s'.db.getTable tabName = .ok tab →
    s'.fhs tabName = some fh → WellLaid tab.cols fh.file.fileHdr.recordSize := by
  intro h
  have hrun := Act.run_eq_of_fst run_createTable_overlapping
  obtain ⟨-, htab, fh, hfh, -⟩ := run_createTable hrun
  have hadm : ∀ field ∈ overlappingFields, field.2.Admitted := by
    simp [overlappingFields, TypeDef.Admitted, IsInt]
  have hneg := (h _ _ _ _ _ _ _ hadm hrun htab hfh).positive ⟨"t", "b", .string, -4, 8⟩ (by decide +kernel)
  exact absurd hneg (by decide)

end SmManager

end Rmdb
