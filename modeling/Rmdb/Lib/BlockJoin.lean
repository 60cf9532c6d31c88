import Mathlib.Data.List.Basic
import Mathlib.Data.List.Perm.Basic

/-!
# Block nested loops

- `takeBlock` and `blocks`: a list cut into blocks that end as soon as their size reaches a bound;
- `blockJoin`: for each block, each right value and each left value of the block, last first, the pairs that match.
  Whatever the blocks are, these are the matching pairs of the product, each as often as there
  (`blockJoin_perm`).
-/

namespace Rmdb.Lib

variable {α β γ : Type}

/-! ## Blocks -/

/-- The next block and what is left: values of size `len` until `bound` is reached, `size` being reached so far. -/
def takeBlock (bound len : Nat) : Nat → List α → List α × List α
  | _, [] => ([], [])
  | size, x :: xs =>
    if bound ≤ size + len then ([x], xs)
    else (x :: (takeBlock bound len (size + len) xs).1, (takeBlock bound len (size + len) xs).2)

section takeBlock

variable (bound len : Nat)

theorem takeBlock_append : ∀ (size : Nat) (xs : List α),
    (takeBlock bound len size xs).1 ++ (takeBlock bound len size xs).2 = xs
  | _, [] => rfl
  | size, x :: xs => by
    rw [takeBlock]
    split
    · rfl
    · rw [List.cons_append, takeBlock_append]

theorem takeBlock_ne_nil (size : Nat) (x : α) (xs : List α) : (takeBlock bound len size (x :: xs)).1 ≠ [] := by
  rw [takeBlock]
  split <;> simp

theorem length_takeBlock_lt (size : Nat) (x : α) (xs : List α) :
    (takeBlock bound len size (x :: xs)).2.length < (x :: xs).length := by
  have h := congrArg List.length (takeBlock_append bound len size (x :: xs))
  have hpos := List.length_pos_iff.2 (takeBlock_ne_nil bound len size x xs)
  rw [List.length_append] at h
  omega

end takeBlock

/-- The blocks of a list. -/
def blocks (bound len : Nat) : List α → List (List α)
  | [] => []
  | x :: xs => (takeBlock bound len 0 (x :: xs)).1 :: blocks bound len (takeBlock bound len 0 (x :: xs)).2
termination_by xs => xs.length
decreasing_by exact length_takeBlock_lt _ _ _ _ _

theorem blocks_flatten (bound len : Nat) : ∀ xs : List α, (blocks bound len xs).flatten = xs := by
  intro xs
  induction xs using blocks.induct bound len with
  | case1 => simp [blocks]
  | case2 x xs ih => rw [blocks, List.flatten_cons, ih, takeBlock_append]

/-! ## The join -/

variable (p : α → β → Bool) (f : α → β → γ)

/-- The pairs of one block with one right value, the last left value first. -/
def blockRow (block : List α) (b : β) : List γ := (block.reverse.filter (p · b)).map (f · b)

def blockJoin (bs : List (List α)) (right : List β) : List γ :=
  bs.flatMap fun block => right.flatMap (blockRow p f block)

/-- The nested loop: every left value with every right value. -/
def product (left : List α) (right : List β) : List γ :=
  left.flatMap fun a => (right.filter (p a)).map (f a)

theorem product_append (left left' : List α) (right : List β) :
    product p f (left ++ left') right = product p f left right ++ product p f left' right := List.flatMap_append

theorem blockRow_perm (block : List α) (b : β) : (blockRow p f block b).Perm (product p f block [b]) := by
  have h : product p f block [b] = (block.filter (p · b)).map (f · b) := by
    induction block with
    | nil => rfl
    | cons a block ih =>
      have hcons : product p f (a :: block) [b] = ([b].filter (p a)).map (f a) ++ product p f block [b] := rfl
      rw [hcons, ih]
      by_cases hp : p a b <;> simp [hp]
  rw [h, blockRow, List.filter_reverse, List.map_reverse]
  exact List.reverse_perm _

theorem product_cons (block : List α) (b : β) (right : List β) :
    (product p f block (b :: right)).Perm (product p f block [b] ++ product p f block right) := by
  induction block with
  | nil => simp [product]
  | cons a block ih =>
    have hcons : ∀ right, product p f (a :: block) right = (right.filter (p a)).map (f a) ++ product p f block right :=
      fun _ => rfl
    have hsplit : ((b :: right).filter (p a)).map (f a) =
        ([b].filter (p a)).map (f a) ++ (right.filter (p a)).map (f a) := by
      by_cases hp : p a b <;> simp [hp]
    rw [hcons, hcons, hcons, hsplit, List.append_assoc, List.append_assoc]
    refine List.Perm.append_left _ ?_
    refine (ih.append_left _).trans ?_
    rw [← List.append_assoc, ← List.append_assoc]
    exact List.perm_append_comm.append_right _

/-- One block with all right values. -/
theorem flatMap_blockRow_perm (block : List α) (right : List β) :
    (right.flatMap (blockRow p f block)).Perm (product p f block right) := by
  induction right with
  | nil => simp [product]
  | cons b right ih =>
    rw [List.flatMap_cons]
    exact ((blockRow_perm p f block b).append ih).trans (product_cons p f block b right).symm

/-- **The blocks lose no pair and repeat none.** -/
theorem blockJoin_perm (bs : List (List α)) (right : List β) :
    (blockJoin p f bs right).Perm (product p f bs.flatten right) := by
  induction bs with
  | nil => simp [blockJoin, product]
  | cons block bs ih =>
    rw [List.flatten_cons, product_append]
    exact (flatMap_blockRow_perm p f block right).append ih

end Rmdb.Lib
