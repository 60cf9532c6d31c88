import Mathlib.Logic.Function.Basic
import Mathlib.Logic.Relation
import Mathlib.Tactic.Common

/-!
# Write-back caches

- `WriteBack`: a cache over a store. The content of a key is what is cached, or else what is stored; a cached value that
  is not marked dirty is not written back when it is dropped;
- `Move O`: what a cache does on its own. The keys of `O` are owed a mark: somebody has changed the value and has not
  marked it yet;
- `Settled O`: a clean value that is owed no mark is the stored one. Under this invariant no move changes a content
  (`Moves.content`).
-/

namespace Rmdb.Lib

@[ext] structure WriteBack (K V : Type) where
  cache : K → Option (V × Bool)
  store : K → V

namespace WriteBack

variable {K V : Type}

/-- The content of a key. -/
def content (c : WriteBack K V) (k : K) : V := ((c.cache k).map Prod.fst).getD (c.store k)

section moves
variable [DecidableEq K]

def put (c : WriteBack K V) (k : K) (v : V) (dirty : Bool) : WriteBack K V :=
  { c with cache := Function.update c.cache k (some (v, dirty)) }

/-- The value goes to the store. -/
def save (c : WriteBack K V) (k : K) (v : V) : WriteBack K V :=
  { cache := Function.update c.cache k (some (v, false)), store := Function.update c.store k v }

def drop (c : WriteBack K V) (k : K) : WriteBack K V := { c with cache := Function.update c.cache k none }

@[simp] theorem store_put (c : WriteBack K V) (k : K) (v : V) (dirty : Bool) : (c.put k v dirty).store = c.store := rfl

@[simp] theorem store_drop (c : WriteBack K V) (k : K) : (c.drop k).store = c.store := rfl

theorem cache_put (c : WriteBack K V) (k : K) (v : V) (dirty : Bool) (q : K) :
    (c.put k v dirty).cache q = if q = k then some (v, dirty) else c.cache q := Function.update_apply ..

theorem cache_drop (c : WriteBack K V) (k q : K) :
    (c.drop k).cache q = if q = k then none else c.cache q := Function.update_apply ..

/-- One move of the cache. -/
inductive Move (O : K → Prop) : WriteBack K V → WriteBack K V → Prop
  | load {c k} : c.cache k = none → Move O c (c.put k (c.store k) false)
  | save {c k v dirty} : c.cache k = some (v, dirty) → Move O c (c.save k v)
  | drop {c k v} : c.cache k = some (v, false) → ¬O k → Move O c (c.drop k)

abbrev Moves (O : K → Prop) : WriteBack K V → WriteBack K V → Prop := Relation.ReflTransGen (Move O)

/-- What is clean is stored, and what is owed a mark is cached. -/
structure Settled (O : K → Prop) (c : WriteBack K V) : Prop where
  clean : ∀ k v, c.cache k = some (v, false) → ¬O k → c.store k = v
  owed : ∀ k, O k → (c.cache k).isSome

variable {O O' : K → Prop} {c c' : WriteBack K V} {k : K} {v : V} {dirty : Bool}

omit [DecidableEq K] in
theorem content_of_cached (h : c.cache k = some (v, dirty)) : c.content k = v := by simp [content, h]

theorem content_put : (c.put k v dirty).content = Function.update c.content k v := by
  funext q
  by_cases hq : q = k
  · subst hq
    simp [content, put]
  · simp [content, put, hq]

/-- Marking a value changes no content. -/
theorem content_mark (h : c.cache k = some (v, dirty)) (b : Bool) : (c.put k v b).content = c.content := by
  rw [content_put, ← content_of_cached h, Function.update_eq_self]

theorem Move.content (h : Move O c c') (hc : Settled O c) : c'.content = c.content := by
  cases h with
  | load hk =>
    rw [content_put]
    refine Function.update_eq_self_iff.2 ?_
    simp [WriteBack.content, hk]
  | @save k v dirty hk =>
    funext q
    by_cases hq : q = k
    · subst hq
      simp [WriteBack.content, WriteBack.save, hk]
    · simp [WriteBack.content, WriteBack.save, hq]
  | @drop k v hk ho =>
    funext q
    by_cases hq : q = k
    · subst hq
      simp [WriteBack.content, WriteBack.drop, hk, hc.clean q v hk ho]
    · simp [WriteBack.content, WriteBack.drop, hq]

theorem Move.settled (h : Move O c c') (hc : Settled O c) : Settled O c' := by
  cases h with
  | @load k hk =>
    refine ⟨fun q v hq ho => ?_, fun q ho => ?_⟩ <;> by_cases hqk : q = k
    · subst hqk
      simpa [WriteBack.put] using hq
    · exact hc.clean q v (by simpa [WriteBack.put, hqk] using hq) ho
    · simp [WriteBack.put, hqk]
    · simpa [WriteBack.put, hqk] using hc.owed q ho
  | @save k v dirty hk =>
    refine ⟨fun q w hq ho => ?_, fun q ho => ?_⟩ <;> by_cases hqk : q = k
    · subst hqk
      simpa [WriteBack.save] using hq
    · simpa [WriteBack.save, hqk] using hc.clean q w (by simpa [WriteBack.save, hqk] using hq) ho
    · simp [WriteBack.save, hqk]
    · simpa [WriteBack.save, hqk] using hc.owed q ho
  | @drop k v hk hno =>
    refine ⟨fun q w hq ho => ?_, fun q ho => ?_⟩ <;> by_cases hqk : q = k
    · subst hqk
      simp [WriteBack.drop] at hq
    · exact hc.clean q w (by simpa [WriteBack.drop, hqk] using hq) ho
    · exact absurd (hqk ▸ ho) hno
    · simpa [WriteBack.drop, hqk] using hc.owed q ho

/-- **The moves of a cache change no content.** -/
theorem Moves.content (h : Moves O c c') (hc : Settled O c) : c'.content = c.content ∧ Settled O c' := by
  induction h with
  | refl => exact ⟨rfl, hc⟩
  | tail _ hmove ih => exact ⟨(hmove.content ih.2).trans ih.1, hmove.settled ih.2⟩

/-! ## Changes from outside -/

/-- A value that is put in and owed a mark. -/
theorem Settled.put (hc : Settled O c) (hk : O' k) (hO : ∀ q, q ≠ k → (O' q ↔ O q)) : Settled O' (c.put k v dirty) := by
  refine ⟨fun q w hq ho => ?_, fun q ho => ?_⟩ <;> by_cases hqk : q = k
  · exact absurd (hqk ▸ hk) ho
  · exact hc.clean q w (by simpa [WriteBack.put, hqk] using hq) (mt (hO q hqk).2 ho)
  · simp [WriteBack.put, hqk]
  · simpa [WriteBack.put, hqk] using hc.owed q ((hO q hqk).1 ho)

/-- A value that is marked. -/
theorem Settled.mark (hc : Settled O c) (hO : ∀ q, q ≠ k → (O' q ↔ O q)) : Settled O' (c.put k v true) := by
  refine ⟨fun q w hq ho => ?_, fun q ho => ?_⟩ <;> by_cases hqk : q = k
  · subst hqk
    simp [WriteBack.put] at hq
  · exact hc.clean q w (by simpa [WriteBack.put, hqk] using hq) (mt (hO q hqk).2 ho)
  · simp [WriteBack.put, hqk]
  · simpa [WriteBack.put, hqk] using hc.owed q ((hO q hqk).1 ho)

omit [DecidableEq K] in
theorem Settled.congr (hc : Settled O c) (hO : ∀ q, O' q ↔ O q) : Settled O' c :=
  ⟨fun q v hq ho => hc.clean q v hq (mt (hO q).2 ho), fun q ho => hc.owed q ((hO q).1 ho)⟩

end moves

end WriteBack

end Rmdb.Lib
