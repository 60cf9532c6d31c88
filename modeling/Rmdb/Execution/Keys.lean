import Rmdb.Execution.Dml
import Rmdb.Lib.UniqueIndex

/-!
# The keys of updated records

- `overwrite`: some bytes of a record replaced. SET clauses have constant right-hand sides, so applying them is such a
  replacement, the same for every record (`applySets_eq`);
- `makeKey_overwrite`: a record that has the new key of another one keeps its key when it is updated itself;
- `RidsOk`: what the check of `UpdateExecutor::Next` establishes for one index. From it no row of the loop that follows
  gets a key that another row of the table has at that moment (`RidsOk.keysDistinct_step`).
-/

namespace Rmdb

open Lib

/-- The bytes at some positions replaced. -/
def overwrite (ov : Nat → Option UInt8) (rec : Bytes) : Bytes := rec.mapIdx fun i b => (ov i).getD b

section overwrite
variable (ov ov' : Nat → Option UInt8) (rec : Bytes)

@[simp] theorem length_overwrite : (overwrite ov rec).length = rec.length := by simp [overwrite]

theorem overwrite_none : overwrite (fun _ => none) rec = rec := by
  apply List.ext_getElem? fun i => ?_
  simp [overwrite]

theorem overwrite_overwrite : overwrite ov' (overwrite ov rec) = overwrite (fun i => (ov' i).or (ov i)) rec := by
  refine List.ext_getElem? fun i => ?_
  simp only [overwrite, List.getElem?_mapIdx, Option.map_map]
  cases rec[i]? with
  | none => rfl
  | some b => cases ov' i <;> simp

theorem overwrite_idem : overwrite ov (overwrite ov rec) = overwrite ov rec := by
  rw [overwrite_overwrite]
  simp

/-- A column of the new record is the column of the old one, overwritten. -/
theorem colBytes_overwrite (col : ColMeta) :
    colBytes (overwrite ov rec) col = overwrite (fun i => ov (col.offset.toNat + i)) (colBytes rec col) := by
  refine List.ext_getElem? fun i => ?_
  simp only [colBytes, overwrite, List.getElem?_take, List.getElem?_drop, List.getElem?_mapIdx]
  split <;> rfl

theorem memcpyAt_eq_overwrite (offset : Int) (src : Bytes) (len : Int) : ∃ ov, ∀ rec,
    memcpyAt rec offset src len = overwrite ov rec := by
  refine ⟨fun i => if offset ≤ i ∧ i < offset + len then some (src.getD (i - offset).toNat 0) else none, fun rec => ?_⟩
  refine List.ext_getElem? fun i => ?_
  simp only [memcpyAt, overwrite, List.getElem?_mapIdx]
  cases rec[i]? with
  | none => rfl
  | some b => by_cases h : offset ≤ i ∧ i < offset + len <;> simp [h]

end overwrite

@[simp] theorem length_memcpyAt (rec : Bytes) (offset : Int) (src : Bytes) (len : Int) :
    (memcpyAt rec offset src len).length = rec.length := by simp [memcpyAt]

theorem length_colBytes {c d : Bytes} (h : c.length = d.length) (col : ColMeta) :
    (colBytes c col).length = (colBytes d col).length := by simp [colBytes, h]

/-- A record that has the new key of another one keeps its key under the same update. -/
theorem makeKey_overwrite {ov : Nat → Option UInt8} {c d : Bytes} (hlen : c.length = d.length) (cols : List ColMeta)
    (h : makeKey cols c = makeKey cols (overwrite ov d)) : makeKey cols (overwrite ov c) = makeKey cols c := by
  induction cols with
  | nil => rfl
  | cons col cols ih =>
    simp only [makeKey, List.flatMap_cons] at h ih ⊢
    have hcol := length_colBytes (show c.length = (overwrite ov d).length by simpa using hlen) col
    obtain ⟨hc, hrest⟩ := List.append_inj h hcol
    rw [ih hrest]
    congr 1
    -- this column of `c` is already overwritten
    rw [colBytes_overwrite, hc, colBytes_overwrite, overwrite_idem]

/-! ## SET clauses -/

section sets
variable {tab : TabMeta}

/-- Every clause of a prepared list names a column of the table. -/
theorem UpdateExecutor.prepare_ok {sets sets' : List SetClause} (h : prepare tab sets = .ok sets') :
    ∀ set ∈ sets', ∃ col, tab.getCol set.lhs.colName = .ok col := by
  induction sets generalizing sets' with
  | nil =>
    cases h
    exact fun _ h => absurd h List.not_mem_nil
  | cons set sets ih =>
    unfold prepare at h
    obtain ⟨col, hcol, h⟩ := bind_eq_ok.1 h
    obtain ⟨val, -, h⟩ := bind_eq_ok.1 h
    obtain ⟨rest, v, hrest, rfl⟩ : ∃ rest v, prepare tab sets = .ok rest ∧ sets' = { set with rhs := v } :: rest := by
      split at h
      all_goals
        obtain ⟨v, -, h⟩ := bind_eq_ok.1 h
        obtain ⟨rest, hrest, h⟩ := bind_eq_ok.1 h
        cases h
        exact ⟨rest, v, hrest, rfl⟩
    intro s hs
    rcases List.mem_cons.1 hs with rfl | hs
    · exact ⟨col, hcol⟩
    · exact ih hrest s hs

/-- Applying SET clauses replaces the same bytes by the same values in every record. -/
theorem UpdateExecutor.applySets_eq {sets : List SetClause}
    (h : ∀ set ∈ sets, ∃ col, tab.getCol set.lhs.colName = .ok col) :
    ∃ ov, ∀ rec, applySets tab sets rec = .ok (overwrite ov rec) := by
  induction sets with
  | nil => exact ⟨fun _ => none, fun rec => by rw [overwrite_none]; rfl⟩
  | cons set sets ih =>
    obtain ⟨col, hcol⟩ := h set List.mem_cons_self
    obtain ⟨ov, hov⟩ := ih fun s hs => h s (List.mem_cons_of_mem _ hs)
    obtain ⟨ov', hov'⟩ := memcpyAt_eq_overwrite col.offset set.rhs.data col.len
    refine ⟨fun i => (ov i).or (ov' i), fun rec => ?_⟩
    simp only [applySets, hcol, bind, Except.bind, hov, hov', overwrite_overwrite]

end sets

/-- Filling a record keeps its length. -/
theorem InsertExecutor.length_fill {cols : List ColMeta} {vals : List Value} {rec rec' : Bytes}
    (h : fill cols vals rec = .ok rec') : rec'.length = rec.length := by
  induction cols generalizing vals rec with
  | nil => cases h; rfl
  | cons col cols ih =>
    cases vals with
    | nil => cases h; rfl
    | cons val vals =>
      unfold fill at h
      obtain ⟨val', -, h⟩ := bind_eq_ok.1 h
      obtain ⟨val'', -, h⟩ := bind_eq_ok.1 h
      rw [ih h, length_memcpyAt]

/-! ## The check of an UPDATE -/

/-- What the check of one index has found: for each rid a record, whose new key is new among the rids and held by no
record outside of them. -/
def RidsOk (key : Bytes → Bytes) (f : Bytes → Bytes) (m : Rid → Option Bytes) (all : List Rid) :
    List Bytes → List Rid → Prop
  | _, [] => True
  | seen, rid :: rids => ∃ b, m rid = some b ∧ key (f b) ∉ seen ∧
      (∀ r c, m r = some c → key c = key (f b) → r ∈ all) ∧ RidsOk key f m all (key (f b) :: seen) rids

/-- The table when the rows of `done` are updated. -/
def updated (f : Bytes → Bytes) (m : Rid → Option Bytes) (done : List Rid) : Rid → Option Bytes :=
  done.foldl (fun m r => Function.update m r ((m r).map f)) m

theorem updated_append (f : Bytes → Bytes) (m : Rid → Option Bytes) (done : List Rid) (r : Rid) :
    updated f m (done ++ [r]) = Function.update (updated f m done) r ((updated f m done r).map f) := by
  simp [updated]

theorem updated_of_notMem {f : Bytes → Bytes} {m : Rid → Option Bytes} {done : List Rid} {r : Rid} (h : r ∉ done) :
    updated f m done r = m r := by
  induction done generalizing m with
  | nil => rfl
  | cons x done ih =>
    obtain ⟨hx, hr⟩ := List.ne_and_not_mem_of_not_mem_cons h
    show updated f (Function.update m x ((m x).map f)) done r = _
    rw [ih hr, Function.update_of_ne hx]

theorem updated_of_mem {f : Bytes → Bytes} {m : Rid → Option Bytes} {done : List Rid} {r : Rid} (hn : done.Nodup)
    (h : r ∈ done) : updated f m done r = (m r).map f := by
  induction done generalizing m with
  | nil => exact absurd h List.not_mem_nil
  | cons x done ih =>
    obtain ⟨hx, hn⟩ := List.nodup_cons.1 hn
    show updated f (Function.update m x ((m x).map f)) done r = _
    rcases List.mem_cons.1 h with rfl | h
    · rw [updated_of_notMem hx, Function.update_self]
    · rw [ih hn h, Function.update_of_ne (ne_of_mem_of_not_mem h hx)]

namespace RidsOk

variable {key f : Bytes → Bytes} {m : Rid → Option Bytes} {all rids : List Rid} {seen : List Bytes}

theorem of_mem (h : RidsOk key f m all seen rids) {r : Rid} (hr : r ∈ rids) : ∃ b, m r = some b ∧
    key (f b) ∉ seen ∧ ∀ r' c, m r' = some c → key c = key (f b) → r' ∈ all := by
  induction rids generalizing seen with
  | nil => exact absurd hr List.not_mem_nil
  | cons x rids ih =>
    obtain ⟨b, hb, hseen, hall, h⟩ := h
    rcases List.mem_cons.1 hr with rfl | hr
    · exact ⟨b, hb, hseen, hall⟩
    · obtain ⟨c, hc, hcs, hcall⟩ := ih h hr
      exact ⟨c, hc, fun hm => hcs (List.mem_cons_of_mem _ hm), hcall⟩

theorem nodup (h : RidsOk key f m all seen rids) : rids.Nodup := by
  induction rids generalizing seen with
  | nil => exact List.nodup_nil
  | cons x rids ih =>
    obtain ⟨b, hb, -, -, h⟩ := h
    refine List.nodup_cons.2 ⟨fun hx => ?_, ih h⟩
    obtain ⟨c, hc, hcs, -⟩ := h.of_mem hx
    rw [hb] at hc
    cases hc
    exact hcs List.mem_cons_self

/-- Two different rids of the statement get different keys. -/
theorem key_ne (h : RidsOk key f m all seen rids) {r r' : Rid} {b c : Bytes} (hr : r ∈ rids) (hr' : r' ∈ rids)
    (hne : r ≠ r') (hb : m r = some b) (hc : m r' = some c) : key (f b) ≠ key (f c) := by
  induction rids generalizing seen with
  | nil => exact absurd hr List.not_mem_nil
  | cons x rids ih =>
    obtain ⟨a, ha, -, -, h⟩ := h
    -- the key of the first rid is among the ones seen when a later rid is checked
    have hlater : ∀ y ∈ rids, ∀ d, m y = some d → key (f d) ≠ key (f a) := by
      intro y hy d hd hk
      obtain ⟨d', hd', hds, -⟩ := h.of_mem hy
      rw [hd] at hd'
      cases hd'
      exact hds (hk ▸ List.mem_cons_self)
    rcases List.mem_cons.1 hr with rfl | hin
    · rcases List.mem_cons.1 hr' with rfl | hin'
      · exact absurd rfl hne
      · rw [hb] at ha
        cases ha
        exact (hlater r' hin' c hc).symm
    · rcases List.mem_cons.1 hr' with rfl | hin'
      · rw [hc] at ha
        cases ha
        exact hlater r hin b hb
      · exact ih h hin hin'

end RidsOk

/-- The loop that updates the rows gives no row a key that another row has at that moment. A row that is still to be
updated and has the new key already would keep it (`makeKey_overwrite`), which the check excludes. -/
theorem RidsOk.keysDistinct_step {cols : List ColMeta} {ov : Nat → Option UInt8} {m : Rid → Option Bytes}
    {rids done rest : List Rid} {x : Rid} {n : Nat} (h : RidsOk (makeKey cols) (overwrite ov) m rids [] rids)
    (hsplit : rids = done ++ x :: rest) (hsize : ∀ r b, m r = some b → b.length = n)
    (hd : KeysDistinct (makeKey cols) (updated (overwrite ov) m done)) {b : Bytes}
    (hb : updated (overwrite ov) m done x = some b) :
    KeysDistinct (makeKey cols) (Function.update (updated (overwrite ov) m done) x (some (overwrite ov b))) := by
  have hnodup := hsplit ▸ h.nodup
  have hxd : x ∉ done := fun hx => (List.nodup_append.1 hnodup).2.2 x hx x List.mem_cons_self rfl
  have hdone : done.Nodup := (List.nodup_append.1 hnodup).1
  rw [updated_of_notMem hxd] at hb
  have hx : x ∈ rids := by simp [hsplit]
  refine hd.update fun r c hr hc hk => ?_
  by_cases hrd : r ∈ done
  · rw [updated_of_mem hdone hrd] at hc
    obtain ⟨c₀, hc₀, rfl⟩ := Option.map_eq_some_iff.1 hc
    exact h.key_ne (by simp [hsplit, hrd]) hx hr hc₀ hb hk
  · rw [updated_of_notMem hrd] at hc
    obtain ⟨b', hb', -, hall⟩ := h.of_mem hx
    rw [hb] at hb'
    cases hb'
    refine h.key_ne (hall r c hc hk) hx hr hc hb ?_
    rw [makeKey_overwrite ((hsize r c hc).trans (hsize x b hb).symm) cols hk, hk]

end Rmdb
