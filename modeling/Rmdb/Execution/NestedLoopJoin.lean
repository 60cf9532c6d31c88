import Rmdb.Execution.Executor
import Rmdb.Lib.BlockJoin

/-!
# The block nested loop join

- `nestedLoopJoin`: `executor_nestedloop_join.h`. The left rows are read in blocks; for each block the right child is
  begun again, and for each of its rows the block is walked backwards;
- `Ready`: what `find_match` finds when it is called, with the rows still to come (`toCome`);
- `findMatch_spec`: it stops at the first of these, or at the end when there is none;
- `deliversAt_nestedLoopJoin`: whatever the size of a block, the join gives the rows of `Lib.blockJoin`.
-/

namespace Rmdb

open Lib AbstractExecutor

/-! ## The executor -/

/-- The fields of `NestedLoopJoinExecutor` that change. -/
structure JoinState (L R : Type) where
  left : L
  right : R
  isend : Bool
  leftBuffer : List Bytes
  leftPos : Int
  rightRec : Option Bytes

namespace NestedLoopJoin

variable (left right : AbstractExecutor) (fedConds : List Condition) (maxBufferSize : Nat)

/-- `cols_`: the columns of the right child behind those of the left one. -/
def cols : List ColMeta :=
  left.cols ++ right.cols.map fun col => { col with offset := col.offset + left.tupleLen }

/-- `join_record`. -/
def joinRecord (leftRec rightRec : Bytes) : Bytes :=
  let data := List.replicate (left.tupleLen + right.tupleLen) 0
  let data := memcpyAt data 0 leftRec left.tupleLen
  memcpyAt data left.tupleLen rightRec right.tupleLen

/-- The loop of `load_next_left_block`. -/
def loadBlock (turns : Nat) : Nat → left.State → List Bytes → Nat → Outcome (left.State × List Bytes)
  | 0, _, _, _ => Outcome.halt
  | fuel + 1, s, leftBuffer, currentSize =>
    if left.isEnd s then pure (s, leftBuffer)
    else do
      let tuple ← left.next s
      let leftBuffer := leftBuffer ++ [tuple]
      let currentSize := currentSize + left.tupleLen
      let s ← left.nextTuple turns s
      if maxBufferSize ≤ currentSize then return (s, leftBuffer)
      else loadBlock turns fuel s leftBuffer currentSize

/-- `load_next_left_block`. -/
def loadNextLeftBlock (turns : Nat) (s : left.State) : Outcome (left.State × List Bytes) :=
  loadBlock left maxBufferSize turns turns s [] 0

/-- The inner loop of `find_match`, from position `k - 1` of the block down; `-1` when no row of it matches. -/
def searchBlock (leftBuffer : List Bytes) (rightRec : Bytes) : Nat → Outcome Int
  | 0 => pure (-1)
  | k + 1 =>
    match leftBuffer[k]? with
    | none => Outcome.halt
    | some leftRec => do
      if ← Outcome.ofExcept (evalConds (cols left right) fedConds (joinRecord left right leftRec rightRec)) then
        return k
      else searchBlock leftBuffer rightRec k

/-- `find_match`. -/
def findMatch (turns : Nat) : Nat → JoinState left.State right.State → Outcome (JoinState left.State right.State)
  | 0, _ => Outcome.halt
  | fuel + 1, st => do
    let leftPos ←
      match st.rightRec with
      | some rec => searchBlock left right fedConds st.leftBuffer rec (st.leftPos + 1).toNat
      | none => pure st.leftPos
    let st := { st with leftPos := leftPos }
    if st.rightRec.isSome && 0 ≤ leftPos then return st
    let r ← if right.isEnd st.right then pure st.right else right.nextTuple turns st.right
    let st := { st with right := r }
    if right.isEnd st.right then
      let (l, leftBuffer) ← loadNextLeftBlock left maxBufferSize turns st.left
      let st := { st with left := l, leftBuffer := leftBuffer }
      if leftBuffer.isEmpty then return { st with isend := true }
      let r ← right.beginTuple turns st.right
      let st := { st with right := r }
      if right.isEnd st.right then return { st with isend := true }
      let tuple ← right.next st.right
      findMatch turns fuel { st with rightRec := some tuple, leftPos := (leftBuffer.length : Int) - 1 }
    else
      let tuple ← right.next st.right
      findMatch turns fuel { st with rightRec := some tuple, leftPos := (st.leftBuffer.length : Int) - 1 }

def beginTuple (fuel : Nat) (st : JoinState left.State right.State) :
    Outcome (JoinState left.State right.State) := do
  let st := { st with isend := false }
  let l ← left.beginTuple fuel st.left
  let (l, leftBuffer) ← loadNextLeftBlock left maxBufferSize fuel l
  let st := { st with left := l, leftBuffer := leftBuffer }
  if leftBuffer.isEmpty then return { st with isend := true }
  let r ← right.beginTuple fuel st.right
  let st := { st with right := r }
  if right.isEnd st.right then return { st with isend := true }
  let tuple ← right.next st.right
  findMatch left right fedConds maxBufferSize fuel fuel
    { st with rightRec := some tuple, leftPos := (leftBuffer.length : Int) - 1 }

def nextTuple (fuel : Nat) (st : JoinState left.State right.State) :
    Outcome (JoinState left.State right.State) :=
  findMatch left right fedConds maxBufferSize fuel fuel { st with leftPos := st.leftPos - 1 }

/-- `Next`. -/
def next (st : JoinState left.State right.State) : Outcome Bytes :=
  match if 0 ≤ st.leftPos then st.leftBuffer[st.leftPos.toNat]? else none, st.rightRec with
  | some leftRec, some rightRec => pure (joinRecord left right leftRec rightRec)
  | _, _ => Outcome.halt

end NestedLoopJoin

open NestedLoopJoin

/-- `NestedLoopJoinExecutor`, for any size of a block; in the source it is 50 MB. -/
def nestedLoopJoin (maxBufferSize : Nat) (left right : AbstractExecutor) (fedConds : List Condition) :
    AbstractExecutor where
  State := JoinState left.State right.State
  tupleLen := left.tupleLen + right.tupleLen
  cols := NestedLoopJoin.cols left right
  beginTuple := NestedLoopJoin.beginTuple left right fedConds maxBufferSize
  nextTuple := NestedLoopJoin.nextTuple left right fedConds maxBufferSize
  isEnd := JoinState.isend
  next := NestedLoopJoin.next left right

/-- `max_buffer_size`. -/
def maxJoinBufferSize : Nat := 50 * 1024 * 1024

/-! ## The parts -/

section spec

variable {left right : AbstractExecutor} {fedConds : List Condition} {maxBufferSize fuel : Nat}

/-- `join_record` puts the right record behind the left one. -/
theorem joinRecord_eq {l r : Bytes} (hl : l.length = left.tupleLen) (hr : r.length = right.tupleLen) :
    joinRecord left right l r = l ++ r := by
  have h1 := memcpyAt_append (a := []) (c := List.replicate right.tupleLen 0) (List.length_replicate (a := (0 : UInt8)))
    (Nat.le_of_eq hl.symm)
  have h2 := memcpyAt_append (a := l) (c := []) (List.length_replicate (a := (0 : UInt8))) (Nat.le_of_eq hr.symm)
  rw [List.take_of_length_le (by omega)] at h1 h2
  simp only [List.nil_append, List.append_nil, List.length_nil, Int.natCast_zero, ← List.replicate_add] at h1 h2
  rw [hl] at h2
  simp only [joinRecord, h1, h2]

/-- The rows match. -/
def matchRows (left right : AbstractExecutor) (fedConds : List Condition) (l r : Bytes) : Bool :=
  condsHold (NestedLoopJoin.cols left right) fedConds (l ++ r)

variable (maxBufferSize) in
theorem loadBlock_spec : ∀ {recs : List Bytes} {turns : Nat} {s : left.State} (buffer : List Bytes) (size : Nat),
    left.Yields fuel s recs → recs.length < turns →
    ∃ s', loadBlock left maxBufferSize fuel turns s buffer size =
        pure (s', buffer ++ (takeBlock maxBufferSize left.tupleLen size recs).1) ∧
      left.Yields fuel s' (takeBlock maxBufferSize left.tupleLen size recs).2
  | [], turns + 1, s, buffer, size, h, _ => ⟨s, by
      rw [loadBlock, if_pos (show left.isEnd s = true from h), takeBlock, List.append_nil], h⟩
  | rec :: recs, turns + 1, s, buffer, size, ⟨hend, hnext, s₁, hstep, hrest⟩, hlt => by
    rw [loadBlock, if_neg (by rw [hend]; simp), hnext, pure_bind, hstep, pure_bind, takeBlock]
    by_cases hfull : maxBufferSize ≤ size + left.tupleLen
    · rw [if_pos hfull, if_pos hfull]
      exact ⟨s₁, rfl, hrest⟩
    · rw [if_neg hfull, if_neg hfull]
      obtain ⟨s', hs', hy⟩ := loadBlock_spec (buffer ++ [rec]) (size + left.tupleLen) hrest
        (show recs.length < turns by simpa using hlt)
      exact ⟨s', by rw [hs', List.append_assoc]; rfl, hy⟩

/-- The walk down the block stops at the first row that matches. -/
theorem searchBlock_spec (hb : ∀ cond ∈ fedConds, cond.Bound (NestedLoopJoin.cols left right)) (block : List Bytes)
    (r : Bytes) (hl : ∀ l ∈ block, l.length = left.tupleLen) (hr : r.length = right.tupleLen) :
    ∀ {n : Nat}, n ≤ block.length →
      (searchBlock left right fedConds block r n = pure (-1) ∧
        blockRow (matchRows left right fedConds) (· ++ ·) (block.take n) r = []) ∨
      ∃ (k : Nat) (l : Bytes), k < n ∧ block[k]? = some l ∧ searchBlock left right fedConds block r n = pure (k : Int) ∧
        blockRow (matchRows left right fedConds) (· ++ ·) (block.take n) r =
          (l ++ r) :: blockRow (matchRows left right fedConds) (· ++ ·) (block.take k) r
  | 0, _ => .inl ⟨rfl, rfl⟩
  | n + 1, hn => by
    have hget : block[n]? = some block[n] := List.getElem?_eq_getElem (by omega)
    have hrow : blockRow (matchRows left right fedConds) (· ++ ·) (block.take (n + 1)) r =
        (if matchRows left right fedConds block[n] r then [block[n] ++ r] else []) ++
          blockRow (matchRows left right fedConds) (· ++ ·) (block.take n) r := by
      rw [blockRow, blockRow, List.take_succ_eq_append_getElem (by omega), List.reverse_append, List.reverse_singleton,
        List.singleton_append, List.filter_cons]
      split <;> rfl
    have heval : evalConds (NestedLoopJoin.cols left right) fedConds (joinRecord left right block[n] r) =
        .ok (matchRows left right fedConds block[n] r) := by
      rw [joinRecord_eq (hl _ (List.getElem_mem _)) hr]
      exact evalConds_eq hb _
    have hsearch : searchBlock left right fedConds block r (n + 1) =
        if matchRows left right fedConds block[n] r then pure (n : Int)
        else searchBlock left right fedConds block r n := by
      rw [searchBlock, hget]
      simp only [heval, Outcome.ofExcept_ok, pure_bind]
    rw [hrow, hsearch]
    by_cases hm : matchRows left right fedConds block[n] r = true
    · rw [if_pos hm, if_pos hm]
      exact .inr ⟨n, block[n], by omega, hget, rfl, rfl⟩
    · rw [if_neg hm, if_neg hm, List.nil_append]
      rcases searchBlock_spec hb block r hl hr (n := n) (by omega) with h | ⟨k, l, hk, h⟩
      · exact .inl h
      · exact .inr ⟨k, l, by omega, h⟩

/-! ## Walking over the pairs -/

/-- The pairs still to come: `n` rows of the block with the right row `r`, the block with the right rows `rs`, and then
the left rows `ls` with all right rows. -/
def toCome (left right : AbstractExecutor) (fedConds : List Condition) (maxBufferSize : Nat) (R : List Bytes)
    (block : List Bytes) (n : Nat) (r : Bytes) (rs ls : List Bytes) : List Bytes :=
  let p := matchRows left right fedConds
  blockRow p (· ++ ·) (block.take n) r ++ rs.flatMap (blockRow p (· ++ ·) block) ++
    blockJoin p (· ++ ·) (blocks maxBufferSize left.tupleLen ls) R

/-- `find_match` is called with `n` rows of the block to look at; the right child stands at the right row. -/
structure Ready (left right : AbstractExecutor) (fuel : Nat) (st : JoinState left.State right.State)
    (block : List Bytes) (n : Nat) (r : Bytes) (rs ls : List Bytes) : Prop where
  left_yields : left.Yields fuel st.left ls
  right_yields : right.Yields fuel st.right (r :: rs)
  isend : st.isend = false
  leftBuffer : st.leftBuffer = block
  leftPos : st.leftPos = (n : Int) - 1
  room : n ≤ block.length
  rightRec : st.rightRec = some r

/-! One turn of `find_match`. -/

section turn

variable {turns n : Nat} {st : JoinState left.State right.State} {r tuple : Bytes} {right' right'' : right.State}
  {l : left.State} {buffer : List Bytes}

theorem findMatch_found {k : Nat} (hrec : st.rightRec = some r) (hpos : (st.leftPos + 1).toNat = n)
    (hs : searchBlock left right fedConds st.leftBuffer r n = pure (k : Int)) :
    findMatch left right fedConds maxBufferSize fuel (turns + 1) st = pure { st with leftPos := k } := by
  simp [findMatch, hrec, hpos, hs]

theorem findMatch_next (hrec : st.rightRec = some r) (hpos : (st.leftPos + 1).toNat = n)
    (hs : searchBlock left right fedConds st.leftBuffer r n = pure (-1)) (hend : right.isEnd st.right = false)
    (hstep : right.nextTuple fuel st.right = pure right') (hend' : right.isEnd right' = false)
    (hnext : right.next right' = pure tuple) :
    findMatch left right fedConds maxBufferSize fuel (turns + 1) st =
      findMatch left right fedConds maxBufferSize fuel turns
        { st with right := right', rightRec := some tuple, leftPos := (st.leftBuffer.length : Int) - 1 } := by
  simp [findMatch, hrec, hpos, hs, hend, hstep, hend', hnext]

theorem findMatch_block (hrec : st.rightRec = some r) (hpos : (st.leftPos + 1).toNat = n)
    (hs : searchBlock left right fedConds st.leftBuffer r n = pure (-1)) (hend : right.isEnd st.right = false)
    (hstep : right.nextTuple fuel st.right = pure right') (hend' : right.isEnd right' = true)
    (hload : loadNextLeftBlock left maxBufferSize fuel st.left = pure (l, buffer)) (hne : buffer ≠ [])
    (hbegin : right.beginTuple fuel right' = pure right'') (hend'' : right.isEnd right'' = false)
    (hnext : right.next right'' = pure tuple) :
    findMatch left right fedConds maxBufferSize fuel (turns + 1) st =
      findMatch left right fedConds maxBufferSize fuel turns
        { st with
          left := l
          right := right''
          leftBuffer := buffer
          rightRec := some tuple
          leftPos := (buffer.length : Int) - 1 } := by
  simp [findMatch, hrec, hpos, hs, hend, hstep, hend', hload, hne, hbegin, hend'', hnext]

theorem findMatch_end (hrec : st.rightRec = some r) (hpos : (st.leftPos + 1).toNat = n)
    (hs : searchBlock left right fedConds st.leftBuffer r n = pure (-1)) (hend : right.isEnd st.right = false)
    (hstep : right.nextTuple fuel st.right = pure right') (hend' : right.isEnd right' = true)
    (hload : loadNextLeftBlock left maxBufferSize fuel st.left = pure (l, [])) :
    ∃ st', findMatch left right fedConds maxBufferSize fuel (turns + 1) st = pure st' ∧ st'.isend = true := by
  refine ⟨{ st with left := l, right := right', leftBuffer := [], leftPos := -1, isend := true }, ?_, rfl⟩
  simp [findMatch, hrec, hpos, hs, hend, hstep, hend', hload]

end turn

variable {R : List Bytes}

/-- The next block, with the right child begun again. -/
theorem toCome_nextBlock {r : Bytes} {rs ls : List Bytes} (hR : R = r :: rs) (hls : ls ≠ []) :
    blockJoin (matchRows left right fedConds) (· ++ ·) (blocks maxBufferSize left.tupleLen ls) R =
      toCome left right fedConds maxBufferSize R (takeBlock maxBufferSize left.tupleLen 0 ls).1
        (takeBlock maxBufferSize left.tupleLen 0 ls).1.length r rs (takeBlock maxBufferSize left.tupleLen 0 ls).2 := by
  obtain ⟨l, ls, rfl⟩ := List.exists_cons_of_ne_nil hls
  rw [toCome, blocks, blockJoin, List.flatMap_cons, hR, List.flatMap_cons, List.take_length]
  rfl

/-- The pairs still to come from a state in which `find_match` returns: none at the end, and else the one at the
position and those behind it. -/
def Stopped (left right : AbstractExecutor) (fedConds : List Condition) (maxBufferSize fuel : Nat) (R : List Bytes)
    (st : JoinState left.State right.State) (size : Nat) (out : List Bytes) : Prop :=
  (st.isend = true ∧ out = []) ∨
    ∃ block k l r rs ls, Ready left right fuel st block (k + 1) r rs ls ∧ block[k]? = some l ∧
      (∀ l ∈ block ++ ls, l.length = left.tupleLen) ∧ (∀ r' ∈ r :: rs, r'.length = right.tupleLen) ∧
      ls.length < fuel ∧ rs.length + ls.length * (R.length + 1) ≤ size ∧
      out = (l ++ r) :: toCome left right fedConds maxBufferSize R block k r rs ls

variable (maxBufferSize) in
/-- **`find_match` stops at the first pair that matches**, or at the end when there is none. The right rows left of the
current run, and one run for each left row beyond the block, bound its turns. -/
theorem findMatch_spec (hb : ∀ cond ∈ fedConds, cond.Bound (NestedLoopJoin.cols left right))
    (hright : right.DeliversAt fuel R) (hR : ∀ r ∈ R, r.length = right.tupleLen) (hne : R ≠ []) :
    ∀ {turns size : Nat} {st : JoinState left.State right.State} {block : List Bytes} {n : Nat} {r : Bytes}
      {rs ls : List Bytes}, Ready left right fuel st block n r rs ls → (∀ l ∈ block ++ ls, l.length = left.tupleLen) →
      (∀ r' ∈ r :: rs, r'.length = right.tupleLen) → ls.length < fuel →
      rs.length + ls.length * (R.length + 1) ≤ size → rs.length + ls.length * (R.length + 1) < turns →
      ∃ st', findMatch left right fedConds maxBufferSize fuel turns st = pure st' ∧
        Stopped left right fedConds maxBufferSize fuel R st' size
          (toCome left right fedConds maxBufferSize R block n r rs ls) := by
  intro turns
  induction turns with
  | zero => intro size st block n r rs ls _ _ _ _ _ h; omega
  | succ turns ih =>
    intro size st block n r rs ls hst hl hrl hfuel hsize hturns
    have hroom := hst.room
    have hpos : (st.leftPos + 1).toNat = n := by
      rw [hst.leftPos]
      omega
    have hsearch := searchBlock_spec hb block r (fun l h => hl l (List.mem_append_left _ h))
      (hrl r List.mem_cons_self) hst.room
    rw [← hst.leftBuffer] at hsearch
    rcases hsearch with ⟨hs, hrow⟩ | ⟨k, l, hk, hget, hs, hrow⟩
    · -- no row of the block matches: go on with the next right row, or else the next block
      rw [hst.leftBuffer] at hrow
      obtain ⟨hend, -, right', hstep, hrest⟩ := hst.right_yields
      cases rs with
      | cons r' rs =>
        rw [findMatch_next hst.rightRec hpos hs hend hstep hrest.1 hrest.2.1]
        have hready : Ready left right fuel { st with
            right := right', rightRec := some r', leftPos := (st.leftBuffer.length : Int) - 1 }
            block block.length r' rs ls :=
          ⟨hst.left_yields, hrest, hst.isend, hst.leftBuffer, by rw [hst.leftBuffer], Nat.le_refl _, rfl⟩
        have hout : toCome left right fedConds maxBufferSize R block n r (r' :: rs) ls =
            toCome left right fedConds maxBufferSize R block block.length r' rs ls := by
          rw [toCome, toCome, hrow, List.nil_append, List.flatMap_cons, List.take_length]
        rw [List.length_cons] at hsize hturns
        rw [hout]
        exact ih hready hl (fun x hx => hrl x (List.mem_cons_of_mem _ hx)) hfuel (by omega) (by omega)
      | nil =>
        have hend' : right.isEnd right' = true := hrest
        obtain ⟨left', hload, hleft⟩ := loadBlock_spec maxBufferSize [] 0 hst.left_yields hfuel
        have hout : toCome left right fedConds maxBufferSize R block n r [] ls =
            blockJoin (matchRows left right fedConds) (· ++ ·) (blocks maxBufferSize left.tupleLen ls) R := by
          rw [toCome, hrow]
          rfl
        rw [hout]
        rw [List.nil_append] at hload
        by_cases hls : ls = []
        · subst hls
          obtain ⟨st', hst', hisend⟩ := findMatch_end hst.rightRec hpos hs hend hstep hend' hload
          exact ⟨st', hst', .inl ⟨hisend, by simp [blocks, blockJoin]⟩⟩
        · obtain ⟨right'', hbegin, hright''⟩ := hright right'
          obtain ⟨r₀, R₀, hR₀⟩ := List.exists_cons_of_ne_nil hne
          obtain ⟨l₀, ls₀, hls₀⟩ := List.exists_cons_of_ne_nil hls
          rw [hR₀] at hright''
          have hbne := takeBlock_ne_nil maxBufferSize left.tupleLen 0 l₀ ls₀
          have hlt := length_takeBlock_lt maxBufferSize left.tupleLen 0 l₀ ls₀
          rw [← hls₀] at hbne hlt
          rw [findMatch_block hst.rightRec hpos hs hend hstep hend' hload hbne hbegin hright''.1 hright''.2.1,
            toCome_nextBlock hR₀ hls]
          have hmul := Nat.mul_le_mul_right (R.length + 1) (Nat.succ_le_of_lt hlt)
          have hRlen : R.length = R₀.length + 1 := by rw [hR₀, List.length_cons]
          rw [Nat.succ_mul] at hmul
          refine ih ⟨hleft, hright'', hst.isend, rfl, rfl, Nat.le_refl _, rfl⟩ (fun x hx => ?_) (fun x hx => ?_)
            ?_ ?_ ?_
          · rw [takeBlock_append] at hx
            exact hl x (List.mem_append_right _ hx)
          · exact hR x (hR₀ ▸ hx)
          · omega
          · rw [List.length_nil] at hsize
            omega
          · rw [List.length_nil] at hturns
            omega
    · -- the row at position `k` matches
      refine ⟨{ st with leftPos := k }, findMatch_found hst.rightRec hpos hs,
        .inr ⟨block, k, l, r, rs, ls, ?_, ?_, hl, hrl, hfuel, hsize, ?_⟩⟩
      · exact ⟨hst.left_yields, hst.right_yields, hst.isend, hst.leftBuffer, by simp, by omega, hst.rightRec⟩
      · rw [← hst.leftBuffer, hget]
      · rw [hst.leftBuffer] at hrow
        rw [toCome, hrow]
        rfl

/-- From a state in which `find_match` returned the join gives the pairs still to come. -/
theorem Stopped.yields (hb : ∀ cond ∈ fedConds, cond.Bound (NestedLoopJoin.cols left right))
    (hright : right.DeliversAt fuel R) (hR : ∀ r ∈ R, r.length = right.tupleLen) (hne : R ≠ []) {size : Nat}
    (hsize : size < fuel) : ∀ {out : List Bytes} {st : JoinState left.State right.State},
      Stopped left right fedConds maxBufferSize fuel R st size out →
      (nestedLoopJoin maxBufferSize left right fedConds).Yields fuel st out := by
  intro out
  induction out with
  | nil =>
    intro st hst
    rcases hst with ⟨hend, -⟩ | ⟨_, _, _, _, _, _, _, _, _, _, _, _, h⟩
    · exact hend
    · cases h
  | cons rec out ih =>
    intro st hst
    rcases hst with ⟨-, h⟩ | ⟨block, k, l, r, rs, ls, hst, hget, hl, hr, hfuel, hle, h⟩
    · cases h
    · obtain ⟨rfl, rfl⟩ := List.cons.inj h
      have hpos : st.leftPos = k := by
        rw [hst.leftPos]
        omega
      have hnext : NestedLoopJoin.next left right st = pure (l ++ r) := by
        have hlen := hl l (List.mem_append_left _ (List.mem_of_getElem? hget))
        simp [NestedLoopJoin.next, hst.leftBuffer, hpos, hget, hst.rightRec,
          joinRecord_eq hlen (hr r List.mem_cons_self)]
      have hready : Ready left right fuel { st with leftPos := st.leftPos - 1 } block k r rs ls :=
        ⟨hst.left_yields, hst.right_yields, hst.isend, hst.leftBuffer, by rw [hpos], by have := hst.room; omega,
          hst.rightRec⟩
      obtain ⟨st', hfind, hstop⟩ := findMatch_spec maxBufferSize hb hright hR hne hready hl hr hfuel hle
        (show _ < fuel by omega)
      exact ⟨hst.isend, hnext, st', hfind, ih hstop⟩

/-- **The join gives the pairs of its blocks**, whatever the size of a block. -/
theorem deliversAt_nestedLoopJoin (hb : ∀ cond ∈ fedConds, cond.Bound (NestedLoopJoin.cols left right)) {L : List Bytes}
    (hleft : left.DeliversAt fuel L) (hright : right.DeliversAt fuel R) (hL : ∀ l ∈ L, l.length = left.tupleLen)
    (hR : ∀ r ∈ R, r.length = right.tupleLen) (hfuel : L.length + R.length + L.length * (R.length + 1) < fuel) :
    (nestedLoopJoin maxBufferSize left right fedConds).DeliversAt fuel
      (blockJoin (matchRows left right fedConds) (· ++ ·) (blocks maxBufferSize left.tupleLen L) R) := by
  intro (st : JoinState left.State right.State)
  show ∃ st' : JoinState left.State right.State,
    NestedLoopJoin.beginTuple left right fedConds maxBufferSize fuel st = pure st' ∧
      (nestedLoopJoin maxBufferSize left right fedConds).Yields fuel st' _
  obtain ⟨left', hbeginL, hy⟩ := hleft st.left
  obtain ⟨left'', hload, hy'⟩ := loadBlock_spec maxBufferSize [] 0 hy (show L.length < fuel by omega)
  obtain ⟨right', hbeginR, hz⟩ := hright st.right
  rw [List.nil_append] at hload
  cases L with
  | nil =>
    refine ⟨{ st with left := left'', leftBuffer := [], isend := true }, ?_, ?_⟩
    · simp [NestedLoopJoin.beginTuple, hbeginL, loadNextLeftBlock, hload, takeBlock]
    · rw [blocks]
      rfl
  | cons l₀ ls₀ =>
    have hbne := takeBlock_ne_nil maxBufferSize left.tupleLen 0 l₀ ls₀
    cases R with
    | nil =>
      have hend : right.isEnd right' = true := hz
      refine ⟨{ st with
        left := left''
        right := right'
        leftBuffer := (takeBlock maxBufferSize left.tupleLen 0 (l₀ :: ls₀)).1
        isend := true }, ?_, ?_⟩
      · simp [NestedLoopJoin.beginTuple, hbeginL, loadNextLeftBlock, hload, hbne, hbeginR, hend]
      · have hnil : ∀ bs : List (List Bytes), blockJoin (matchRows left right fedConds) (· ++ ·) bs [] =
            ([] : List Bytes) := fun bs => by simp [blockJoin]
        rw [hnil]
        rfl
    | cons r₀ rs₀ =>
      have hlt := length_takeBlock_lt maxBufferSize left.tupleLen 0 l₀ ls₀
      have hmul := Nat.mul_le_mul_right ((r₀ :: rs₀).length + 1) (Nat.le_of_lt hlt)
      have hready : Ready left right fuel { st with
          left := left''
          right := right'
          isend := false
          leftBuffer := (takeBlock maxBufferSize left.tupleLen 0 (l₀ :: ls₀)).1
          rightRec := some r₀
          leftPos := ((takeBlock maxBufferSize left.tupleLen 0 (l₀ :: ls₀)).1.length : Int) - 1 }
          (takeBlock maxBufferSize left.tupleLen 0 (l₀ :: ls₀)).1
          (takeBlock maxBufferSize left.tupleLen 0 (l₀ :: ls₀)).1.length r₀ rs₀
          (takeBlock maxBufferSize left.tupleLen 0 (l₀ :: ls₀)).2 :=
        ⟨hy', hz, rfl, rfl, rfl, Nat.le_refl _, rfl⟩
      obtain ⟨st', hfind, hstop⟩ := findMatch_spec maxBufferSize hb hright hR (by simp) hready
        (fun l hl => hL l (by rwa [takeBlock_append] at hl)) hR (by omega) (Nat.le_refl _)
        (show _ < fuel by simp only [List.length_cons] at hfuel hmul ⊢; omega)
      refine ⟨st', ?_, ?_⟩
      · rw [← hfind]
        simp [NestedLoopJoin.beginTuple, hbeginL, loadNextLeftBlock, hload, hbne, hbeginR, hz.1, hz.2.1]
      · rw [toCome_nextBlock rfl (by simp)]
        exact hstop.yields hb hright hR (by simp)
          (show _ < fuel by simp only [List.length_cons] at hfuel hmul ⊢; omega)

end spec

end Rmdb
