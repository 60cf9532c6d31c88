import Mathlib.Data.List.Basic

/-!
# Files of records that carry their own length

- `Reader`: a reader of fields, which fails beyond the end of the data; `Reads` says what it reads back;
- `Frame` and `scan`: what a loop over such a file does at a position, and the loop;
- `Framing`: an encoding together with the reader of one frame. A file of whole records and then part of one is scanned
  into the whole records (`Framing.scan_encodeAll`), and every first part of a file has this form
  (`Framing.cut`).
-/

namespace Rmdb.Lib

/-! ## Reading fields -/

/-- A reader of consecutive fields: `none` when it reads beyond the data. -/
abbrev Reader (β : Type) := StateT (List β) Option

namespace Reader

variable {β γ δ : Type}

/-- The next `k` items. -/
def take (k : Nat) : Reader β (List β) := fun src => if k ≤ src.length then some (src.splitAt k) else none

/-- The reader reads back `a` from `xs`, whatever follows. -/
def Reads (p : Reader β γ) (xs : List β) (a : γ) : Prop := ∀ rest, p.run (xs ++ rest) = some (a, rest)

theorem Reads.pure (a : γ) : Reads (pure a : Reader β γ) [] a := fun _ => rfl

theorem Reads.bind {p : Reader β γ} {f : γ → Reader β δ} {xs ys : List β} {a : γ} {b : δ} (hp : Reads p xs a)
    (hf : Reads (f a) ys b) : Reads (p >>= f) (xs ++ ys) b := by
  intro rest
  rw [StateT.run_bind, List.append_assoc, hp (ys ++ rest)]
  exact hf rest

theorem Reads.map {p : Reader β γ} {xs : List β} {a : γ} (hp : Reads p xs a) (f : γ → δ) :
    Reads (f <$> p) xs (f a) := by
  intro rest
  rw [StateT.run_map, hp rest]
  rfl

/-- The last field of a record. -/
theorem Reads.last {p : Reader β γ} {xs : List β} {a : γ} (hp : Reads p xs a) (f : γ → δ) :
    Reads (p >>= fun a => Pure.pure (f a)) xs (f a) := by
  have h := hp.bind (f := fun a => Pure.pure (f a)) (Reads.pure (f a))
  rwa [List.append_nil] at h

theorem run_take {k : Nat} {src : List β} (h : k ≤ src.length) :
    (take k : Reader β (List β)).run src = some (src.take k, src.drop k) := by
  simp [take, StateT.run, h]

/-- The reader `k` times. -/
def many (p : Reader β γ) : Nat → Reader β (List γ)
  | 0 => Pure.pure []
  | k + 1 => do
    let a ← p
    let as ← many p k
    return a :: as

theorem Reads.many {p : Reader β γ} {encode : γ → List β} : ∀ {as : List γ}, (∀ a ∈ as, Reads p (encode a) a) →
    Reads (many p as.length) (as.flatMap encode) as
  | [], _ => Reads.pure []
  | a :: as, h => by
    rw [List.flatMap_cons]
    refine (h a List.mem_cons_self).bind ?_
    exact (Reads.many fun b hb => h b (List.mem_cons_of_mem a hb)).last (a :: ·)

theorem reads_take (xs : List β) : Reads (take xs.length) xs xs := by
  intro rest
  simp [take, StateT.run]

end Reader

/-! ## The loop over the frames -/

/-- What the loop does at a position: stop, step over `n` items, take a record of `n` items, or fail. -/
inductive Frame (α : Type)
  | stop
  | skip (n : Int)
  | record (a : α) (n : Int)
  | fault

/-- The records from a position on and the position at which the loop stops. -/
def scan {α β : Type} (next : List β → Nat → Frame α) (data : List β) : Nat → Int → Option (List α × Int)
  | 0, _ => none
  | fuel + 1, off =>
    if off < 0 then none
    else
      match next data off.toNat with
      | .stop => some ([], off)
      | .skip n => scan next data fuel (off + n)
      | .record a n => (scan next data fuel (off + n)).map fun (as, last) => (a :: as, last)
      | .fault => none

/-- An encoding whose frames the loop reads back, up to `limit` items of data. -/
structure Framing (α β : Type) where
  encode : α → List β
  next : List β → Nat → Frame α
  limit : Nat
  Valid : α → Prop
  next_encode : ∀ (pre rest : List β) (a : α), Valid a → (pre ++ encode a).length ≤ limit →
    next (pre ++ encode a ++ rest) pre.length = .record a (encode a).length
  next_torn : ∀ (pre p q : List β) (a : α), Valid a → encode a = p ++ q → q ≠ [] →
    (pre ++ encode a).length ≤ limit → next (pre ++ p) pre.length = .stop
  next_end : ∀ data : List β, next data data.length = .stop

namespace Framing

variable {α β : Type} (F : Framing α β)

def encodeAll (as : List α) : List β := as.flatMap F.encode

@[simp] theorem encodeAll_nil : F.encodeAll [] = [] := rfl

@[simp] theorem encodeAll_cons (a : α) (as : List α) : F.encodeAll (a :: as) = F.encode a ++ F.encodeAll as := rfl

@[simp] theorem encodeAll_append (as bs : List α) : F.encodeAll (as ++ bs) = F.encodeAll as ++ F.encodeAll bs :=
  List.flatMap_append

/-- What a write that was cut leaves after the whole records: nothing, or a proper part of one record. With the rest of
that record the data would have stayed within the limit. -/
def Torn (pre t : List β) : Prop :=
  t = [] ∨ ∃ a q, F.Valid a ∧ F.encode a = t ++ q ∧ q ≠ [] ∧ (pre ++ F.encode a).length ≤ F.limit

variable {F}

theorem encode_ne_nil {a : α} (ha : F.Valid a) (hl : (F.encode a).length ≤ F.limit) : F.encode a ≠ [] := by
  intro h
  have h1 := F.next_encode [] [] a ha (by simpa using hl)
  have h2 := F.next_end []
  simp only [h, List.append_nil] at h1
  rw [h1] at h2
  cases h2

theorem length_le_encodeAll {as : List α} (hv : ∀ a ∈ as, F.Valid a) (hl : (F.encodeAll as).length ≤ F.limit) :
    as.length ≤ (F.encodeAll as).length := by
  induction as with
  | nil => simp
  | cons a as ih =>
    rw [encodeAll_cons, List.length_append] at hl ⊢
    have h1 := ih (fun b hb => hv b (List.mem_cons_of_mem _ hb)) (by omega)
    have h2 := List.length_pos_iff.2 (encode_ne_nil (hv a List.mem_cons_self) (by omega))
    rw [List.length_cons]
    omega

/-- At the place of what is left of a record the loop stops. -/
theorem next_of_torn {pre t : List β} (ht : F.Torn pre t) : F.next (pre ++ t) pre.length = .stop := by
  rcases ht with rfl | ⟨a, q, ha, he, hq, hl⟩
  · simpa using F.next_end pre
  · exact F.next_torn pre t q a ha he hq hl

/-- **Whole records are scanned one by one**; then the loop is where they end. -/
theorem scan_append {as : List α} : ∀ (pre rest : List β) (fuel : Nat), (∀ a ∈ as, F.Valid a) →
    (pre ++ F.encodeAll as).length ≤ F.limit →
    scan F.next (pre ++ F.encodeAll as ++ rest) (as.length + fuel) pre.length =
      (scan F.next (pre ++ F.encodeAll as ++ rest) fuel ((pre ++ F.encodeAll as).length : Int)).map
        fun (bs, last) => (as ++ bs, last) := by
  induction as with
  | nil =>
    intro pre rest fuel _ _
    simp
  | cons a as ih =>
    intro pre rest fuel hv hl
    rw [encodeAll_cons, ← List.append_assoc] at hl ⊢
    have hstep := F.next_encode pre (F.encodeAll as ++ rest) a (hv a List.mem_cons_self) (by
      rw [List.length_append] at hl
      omega)
    have hrest := ih (pre ++ F.encode a) rest fuel (fun b hb => hv b (List.mem_cons_of_mem _ hb)) hl
    have hfuel : (a :: as).length + fuel = as.length + fuel + 1 := by
      rw [List.length_cons]
      omega
    rw [← List.append_assoc] at hstep
    have hlen : (pre ++ F.encode a).length = pre.length + (F.encode a).length := List.length_append
    rw [hlen, Int.natCast_add] at hrest
    simp only [hfuel, scan, Int.toNat_natCast, hstep, hrest, if_neg (by omega : ¬(pre.length : Int) < 0), Option.map_map,
      Function.comp_def, List.cons_append]

/-- **Whole records and then part of one are scanned into the whole records.** The loop stops behind the last. -/
theorem scan_encodeAll {as : List α} (pre : List β) {t : List β} {fuel : Nat} (hv : ∀ a ∈ as, F.Valid a)
    (hl : (pre ++ F.encodeAll as).length ≤ F.limit) (ht : F.Torn (pre ++ F.encodeAll as) t) (hf : as.length < fuel) :
    scan F.next (pre ++ F.encodeAll as ++ t) fuel pre.length = some (as, ((pre ++ F.encodeAll as).length : Int)) := by
  obtain ⟨k, rfl⟩ : ∃ k, fuel = as.length + (k + 1) := ⟨fuel - as.length - 1, by omega⟩
  rw [scan_append pre t (k + 1) hv hl]
  simp only [scan, Int.toNat_natCast, next_of_torn ht, if_neg (by omega : ¬((pre ++ F.encodeAll as).length : Int) < 0),
    Option.map_some, List.append_nil]

/-- **A first part of a sequence of records is whole records and then part of one.** -/
theorem cut {as : List α} : ∀ (pre : List β) {p q : List β}, (∀ a ∈ as, F.Valid a) → F.encodeAll as = p ++ q →
    (pre ++ F.encodeAll as).length ≤ F.limit →
    ∃ as₁ as₂ t, as = as₁ ++ as₂ ∧ p = F.encodeAll as₁ ++ t ∧ F.Torn (pre ++ F.encodeAll as₁) t := by
  induction as with
  | nil =>
    intro pre p q _ h _
    obtain ⟨rfl, -⟩ := List.append_eq_nil_iff.1 h.symm
    exact ⟨[], [], [], rfl, rfl, .inl rfl⟩
  | cons a as ih =>
    intro pre p q hv h hl
    rw [encodeAll_cons] at h hl
    rw [← List.append_assoc, List.length_append] at hl
    rcases List.append_eq_append_iff.1 h with ⟨p', rfl, h'⟩ | ⟨q', he, -⟩
    · obtain ⟨as₁, as₂, t, rfl, rfl, ht⟩ := ih (pre ++ F.encode a)
        (fun b hb => hv b (List.mem_cons_of_mem _ hb)) h' (by rw [List.length_append]; omega)
      exact ⟨a :: as₁, as₂, t, rfl, by simp, by simpa using ht⟩
    · by_cases hq : q' = []
      · subst hq
        rw [List.append_nil] at he
        exact ⟨[a], as, [], rfl, by simp [he], .inl rfl⟩
      · exact ⟨[], a :: as, p, rfl, rfl,
          .inr ⟨a, q', hv a List.mem_cons_self, he, hq, by simp at hl ⊢; omega⟩⟩

end Framing

end Rmdb.Lib
