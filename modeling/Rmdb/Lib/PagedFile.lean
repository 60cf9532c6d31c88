import Mathlib.Data.List.Basic

/-!
# Files read and written in blocks

- `readAt` and `writeAt`: a read stops at the end of the file; a write beyond it fills the gap;
- `block`: the cells of one block, blank beyond the end. Writing one block leaves the others as they are.
-/

namespace Rmdb.Lib

variable {α : Type}

/-- At most `n` cells from `offset`. -/
def readAt (file : List α) (offset n : Nat) : List α := (file.drop offset).take n

/-- The file with `data` at `offset`, longer if it has to be. -/
def writeAt (blank : α) (file : List α) (offset : Nat) (data : List α) : List α :=
  file.take offset ++ List.replicate (offset - file.length) blank ++ data ++ file.drop (offset + data.length)

/-- Block `p` of a file of blocks of `n` cells. -/
def block (blank : α) (n : Nat) (file : List α) (p : Nat) : List α :=
  (List.range n).map fun i => file.getD (n * p + i) blank

variable {blank : α} {n p q : Nat} {file data : List α}

@[simp] theorem length_block : (block blank n file p).length = n := by simp [block]

theorem getD_writeAt (offset i : Nat) : (writeAt blank file offset data).getD i blank =
    if offset ≤ i ∧ i < offset + data.length then data.getD (i - offset) blank else file.getD i blank := by
  have hfront : (file.take offset ++ List.replicate (offset - file.length) blank).length = offset := by
    simp
    omega
  simp only [writeAt, List.getD_eq_getElem?_getD, List.append_assoc]
  by_cases hlt : i < offset
  · rw [if_neg (by omega), ← List.append_assoc, List.getElem?_append_left (by omega)]
    by_cases hlen : i < file.length
    · rw [List.getElem?_append_left (by simp; omega), List.getElem?_take_of_lt hlt]
    · rw [List.getElem?_append_right (by simp; omega), List.getElem?_replicate,
        List.getElem?_eq_none (l := file) (by omega)]
      split <;> rfl
  · rw [← List.append_assoc, List.getElem?_append_right (by omega), hfront]
    by_cases hdata : i < offset + data.length
    · rw [if_pos ⟨by omega, hdata⟩, List.getElem?_append_left (by omega)]
    · rw [if_neg (by omega), List.getElem?_append_right (by omega), List.getElem?_drop]
      congr 2
      omega

/-- What is written to a block is its content. -/
theorem block_writeAt_self (h : data.length = n) :
    block blank n (writeAt blank file (n * p) data) p = data := by
  apply List.ext_getElem (by simp [h])
  intro i hi hi'
  simp only [block, List.getElem_map, List.getElem_range, getD_writeAt]
  rw [if_pos ⟨by omega, by omega⟩, Nat.add_sub_cancel_left]
  simp [List.getElem?_eq_getElem hi']

/-- The other blocks keep theirs. -/
theorem block_writeAt_of_ne (h : data.length = n) (hne : q ≠ p) :
    block blank n (writeAt blank file (n * p) data) q = block blank n file q := by
  apply List.map_congr_left
  intro i hi
  have hi := List.mem_range.1 hi
  rw [getD_writeAt, if_neg]
  rintro ⟨hlo, hhi⟩
  rcases Nat.lt_or_gt_of_ne hne with hlt | hlt
  · have := Nat.mul_le_mul_left n (Nat.succ_le_of_lt hlt)
    rw [Nat.mul_succ] at this
    omega
  · have := Nat.mul_le_mul_left n (Nat.succ_le_of_lt hlt)
    rw [Nat.mul_succ] at this
    omega

/-- A read that is not short returns the block. -/
theorem readAt_eq_block (h : (readAt file (n * p) n).length = n) : readAt file (n * p) n = block blank n file p := by
  apply List.ext_getElem (by simp [h])
  intro i hi hi'
  simp only [readAt, List.length_take, List.length_drop] at h hi
  simp only [readAt, block, List.getElem_take, List.getElem_drop, List.getElem_map, List.getElem_range]
  have hlt : n * p + i < file.length := by omega
  simp [List.getElem?_eq_getElem hlt]

/-! ## The front of a file -/

/-- A write at the front is what the file starts with. -/
theorem prefix_writeAt_zero (data : List α) : data <+: writeAt blank file 0 data := by
  rw [writeAt, List.take_zero, List.nil_append, Nat.zero_sub, List.replicate_zero, List.nil_append]
  exact List.prefix_append _ _

/-- A write behind the front leaves it. -/
theorem prefix_writeAt {front : List α} {offset : Nat} (h : front <+: file) (hle : front.length ≤ offset) :
    front <+: writeAt blank file offset data := by
  have htake : front <+: file.take offset := List.prefix_take_iff.2 ⟨h, hle⟩
  rw [writeAt, List.append_assoc, List.append_assoc]
  exact htake.trans (List.prefix_append _ _)

/-- A read of the front, and of what follows it. -/
theorem readAt_of_prefix {front : List α} {m : Nat} (h : front <+: file) (hle : front.length ≤ m) :
    ∃ rest, readAt file 0 m = front ++ rest := by
  obtain ⟨rest, rfl⟩ := h
  refine ⟨rest.take (m - front.length), ?_⟩
  rw [readAt, List.drop_zero, List.take_append, List.take_of_length_le hle]

end Rmdb.Lib
