import Mathlib.Data.List.TakeDrop
import Mathlib.Data.List.TakeWhile
import Mathlib.Tactic.Ring
import Rmdb.Lib.Frames

/-!
# Formatted text streams

- `word`, `integer`, `natural`, `boolean`: formatted input of one item, behind any white space; a reader without a
  result has set the fail bit;
- `Scans r text x`: where `text` comes next in the stream, up to white space, `r` gives `x`. Items are put together by
  `Scans.bind`, and repeated by `Scans.many`;
- the items are read back from what is written for them (`scans_word`, `scans_integer`, `scans_natural`,
  `scans_boolean`).
-/

namespace Rmdb.Lib.TextStream

open Reader

/-- The white space of the C locale. -/
def IsSpace (c : Char) : Prop := c = ' ' ∨ c = '\t' ∨ c = '\n' ∨ c = '\x0b' ∨ c = '\x0c' ∨ c = '\r'

instance (c : Char) : Decidable (IsSpace c) := inferInstanceAs (Decidable (_ ∨ _))

/-- Skip white space. -/
def skipSpace : Reader Char Unit := fun s => some ((), s.dropWhile fun c => decide (IsSpace c))

/-- A word: up to the next white space. -/
def word : Reader Char (List Char) := do
  skipSpace
  fun s => match s.span fun c => decide (¬IsSpace c) with
    | ([], _) => none
    | (w, rest) => some (w, rest)

/-- A sign, if there is one. -/
def sign : Reader Char Bool := fun s =>
  match s with
  | '-' :: s => some (true, s)
  | '+' :: s => some (false, s)
  | s => some (false, s)

/-- The number of the digits that come next. -/
def digits : Reader Char Nat := fun s =>
  match s.span Char.isDigit with
  | ([], _) => none
  | (ds, rest) => some (Nat.ofDigitChars 10 ds 0, rest)

/-- A sign and digits, behind any white space. -/
def number : Reader Char (Bool × Nat) := do
  skipSpace
  let neg ← sign
  let n ← digits
  return (neg, n)

/-- A number of a signed type with these limits. -/
def integer (lo hi : Int) : Reader Char Int := do
  let (neg, n) ← number
  let v : Int := if neg then -n else n
  if lo ≤ v ∧ v ≤ hi then return v else failure

/-- A number of an unsigned type with `w` bits; a sign negates it there. -/
def natural (w : Nat) : Reader Char Nat := do
  let (neg, n) ← number
  if n < 2 ^ w then return if neg then (2 ^ w - n) % 2 ^ w else n else failure

/-- A truth value, as `0` or `1`. -/
def boolean : Reader Char Bool := do
  let v ← integer (-2 ^ 63) (2 ^ 63 - 1)
  if v = 0 then return false else if v = 1 then return true else failure

/-! ## Written items -/

/-- A number without leading zeros. -/
def showNat (n : Nat) : List Char := Nat.toDigits 10 n

def showInt (v : Int) : List Char := if v < 0 then '-' :: showNat v.natAbs else showNat v.natAbs

def showBool (b : Bool) : List Char := if b then ['1'] else ['0']

/-- A text that is one word. -/
def IsWord (w : List Char) : Prop := w ≠ [] ∧ ∀ c ∈ w, ¬IsSpace c

instance (w : List Char) : Decidable (IsWord w) :=
  have : Decidable (∀ c ∈ w, ¬IsSpace c) := List.decidableBAll _ w
  inferInstanceAs (Decidable (_ ∧ _))

/-! ## Reading back -/

/-- White space. -/
def Blank (s : List Char) : Prop := ∀ c ∈ s, IsSpace c

/-- A word in front of this text ends there. -/
def Ends (s : List Char) : Prop := ∀ c ∈ s.head?, IsSpace c

theorem Ends.append {s t : List Char} (hs : Ends s) (ht : Ends t) : Ends (s ++ t) := by
  cases s with
  | nil => exact ht
  | cons c s => exact hs

theorem Blank.append {s t : List Char} (hs : Blank s) (ht : Blank t) : Blank (s ++ t) :=
  List.forall_mem_append.2 ⟨hs, ht⟩

theorem Blank.ends {s t : List Char} (hs : Blank s) (ht : Ends t) : Ends (s ++ t) := by
  cases s with
  | nil => exact ht
  | cons c s => exact fun d hd => hs d (List.mem_of_mem_head? hd)

/-- Where the text comes next, the reader gives the value. -/
def Scans {α : Type} (r : Reader Char α) (text : List Char) (x : α) : Prop :=
  ∀ sp rest, Blank sp → Ends rest → ∃ sp', Blank sp' ∧ r.run (sp ++ text ++ rest) = some (x, sp' ++ rest)

section scans
variable {α β : Type} {r : Reader Char α} {f : α → Reader Char β} {text text' sp : List Char} {x : α} {y : β}

theorem Scans.blank_append (h : Scans r text x) (hsp : Blank sp) : Scans r (sp ++ text) x := by
  intro sp' rest hsp' hrest
  have := h (sp' ++ sp) rest (hsp'.append hsp) hrest
  simpa only [List.append_assoc] using this

theorem Scans.append_blank (h : Scans r text x) (hsp : Blank sp) : Scans r (text ++ sp) x := by
  intro sp' rest hsp' hrest
  obtain ⟨sp₁, hsp₁, hrun⟩ := h sp' (sp ++ rest) hsp' (hsp.ends hrest)
  exact ⟨sp₁ ++ sp, hsp₁.append hsp, by simpa only [List.append_assoc] using hrun⟩

/-- One item, and then the rest. -/
theorem Scans.bind (h : Scans r text x) (h' : Scans (f x) text' y) (hends : Ends text') :
    Scans (r >>= f) (text ++ text') y := by
  intro sp rest hsp hrest
  obtain ⟨sp₁, hsp₁, hrun⟩ := h sp (text' ++ rest) hsp (hends.append hrest)
  obtain ⟨sp₂, hsp₂, hrun'⟩ := h' sp₁ rest hsp₁ hrest
  refine ⟨sp₂, hsp₂, ?_⟩
  rw [List.append_assoc] at hrun'
  rw [StateT.run_bind, List.append_assoc, List.append_assoc, ← List.append_assoc sp, hrun]
  exact hrun'

/-- The last step of a reader gives its result. -/
theorem Scans.pure (x : α) : Scans (Pure.pure x) [] x := by
  intro sp rest hsp _
  exact ⟨sp, hsp, by simp⟩

theorem Scans.map {g : α → β} (h : Scans r text x) : Scans (do let x ← r; return g x) text (g x) := by
  have hnil : Ends [] := by simp [Ends]
  have := Scans.bind (f := fun x => Pure.pure (g x)) h (Scans.pure (g x)) hnil
  rwa [List.append_nil] at this

/-- Items, each behind a separator. -/
theorem Scans.many {sep : Char} (hsep : IsSpace sep) {texts : α → List Char} : ∀ {xs : List α},
    (∀ x ∈ xs, Scans r (texts x) x) → Scans (Reader.many r xs.length) (xs.flatMap fun x => sep :: texts x) xs
  | [], _ => Scans.pure []
  | x :: xs, h => by
    have hrest := Scans.many hsep fun y hy => h y (List.mem_cons_of_mem _ hy)
    have hblank : Blank [sep] := by simpa [Blank]
    have hfirst : Scans r (sep :: texts x) x := (h x List.mem_cons_self).blank_append hblank
    rw [List.flatMap_cons]
    refine hfirst.bind (f := fun x => do let xs ← Reader.many r xs.length; Pure.pure (x :: xs)) hrest.map ?_
    cases xs with
    | nil => simp [Ends]
    | cons y ys => simpa [Ends]

end scans

/-! ## The items are read back -/

section items
variable {sp rest : List Char}

theorem run_skipSpace (hsp : Blank sp) {c : Char} (hc : ¬IsSpace c) (s : List Char) :
    skipSpace.run (sp ++ c :: s) = some ((), c :: s) := by
  show some ((), (sp ++ c :: s).dropWhile fun c => decide (IsSpace c)) = _
  rw [List.dropWhile_append_of_pos fun d hd => decide_eq_true (hsp d hd),
    List.dropWhile_cons_of_neg (by simpa using hc)]

/-- What a reader takes up to white space. -/
theorem span_append {p : Char → Bool} {w : List Char} (hw : ∀ c ∈ w, p c = true) (hrest : ∀ c ∈ rest.head?, p c = false) :
    (w ++ rest).span p = (w, rest) := by
  rw [List.span_eq_takeWhile_dropWhile, List.takeWhile_append_of_pos hw, List.dropWhile_append_of_pos hw]
  cases rest with
  | nil => simp
  | cons c rest =>
    have hc := hrest c rfl
    simp [hc]

theorem scans_word {w : List Char} (h : IsWord w) : Scans word w w := by
  obtain ⟨hne, hw⟩ := h
  intro sp rest hsp hrest
  obtain ⟨c, w, rfl⟩ := List.exists_cons_of_ne_nil hne
  refine ⟨[], by simp [Blank], ?_⟩
  have hskip := run_skipSpace hsp (hw c List.mem_cons_self) (w ++ rest)
  have hspan : ((c :: w) ++ rest).span (fun c => decide (¬IsSpace c)) = (c :: w, rest) :=
    span_append (by simpa using hw) (by simpa [Ends] using hrest)
  rw [word, StateT.run_bind, List.append_assoc, List.cons_append, hskip]
  rw [List.cons_append] at hspan
  show (match (c :: (w ++ rest)).span _ with | ([], _) => none | (w, rest) => some (w, rest)) = _
  rw [hspan]
  rfl

theorem not_isSpace_of_isDigit {c : Char} (h : c.isDigit = true) : ¬IsSpace c := by
  rintro (rfl | rfl | rfl | rfl | rfl | rfl) <;> exact absurd h (by decide)

theorem not_isDigit_of_ends (hrest : Ends rest) : ∀ c ∈ rest.head?, c.isDigit = false := by
  intro c hc
  cases hd : c.isDigit with
  | false => rfl
  | true => exact absurd (hrest c hc) (not_isSpace_of_isDigit hd)

theorem run_digits (n : Nat) (hrest : Ends rest) : digits.run (showNat n ++ rest) = some (n, rest) := by
  have hdigit : ∀ c ∈ showNat n, c.isDigit = true := fun c hc => Nat.isDigit_of_mem_toDigits (by decide) (by decide) hc
  have hspan := span_append hdigit (not_isDigit_of_ends hrest)
  obtain ⟨c, ds, hcons⟩ := List.exists_cons_of_ne_nil (Nat.toDigits_ne_nil (n := n) (b := 10))
  show (match (showNat n ++ rest).span Char.isDigit with
    | ([], _) => none | (ds, rest) => some (Nat.ofDigitChars 10 ds 0, rest)) = _
  rw [hspan, showNat, hcons]
  show some (Nat.ofDigitChars 10 (c :: ds) 0, rest) = _
  rw [← hcons, Nat.ofDigitChars_ten_toDigits]

theorem run_sign_digit {c : Char} (hc : c.isDigit = true) (s : List Char) :
    sign.run (c :: s) = some (false, c :: s) := by
  show sign (c :: s) = _
  unfold sign
  split
  · next h =>
    cases h
    exact absurd hc (by decide)
  · next h =>
    cases h
    exact absurd hc (by decide)
  · rfl

theorem run_number (hsp : Blank sp) (hrest : Ends rest) (v : Int) :
    number.run (sp ++ showInt v ++ rest) = some ((decide (v < 0), v.natAbs), rest) := by
  have hdigits := run_digits v.natAbs hrest
  rw [number, StateT.run_bind, List.append_assoc]
  unfold showInt
  split
  · next hneg =>
    rw [List.cons_append, run_skipSpace hsp (by decide)]
    show (do let p ← sign.run ('-' :: (showNat v.natAbs ++ rest)); _) = _
    rw [show sign.run ('-' :: (showNat v.natAbs ++ rest)) = some (true, showNat v.natAbs ++ rest) from rfl]
    show (do let p ← digits.run (showNat v.natAbs ++ rest); _) = _
    rw [hdigits, decide_eq_true hneg]
    rfl
  · next hneg =>
    obtain ⟨c, ds, hcons⟩ := List.exists_cons_of_ne_nil (Nat.toDigits_ne_nil (n := v.natAbs) (b := 10))
    have hc : c.isDigit = true := by
      refine Nat.isDigit_of_mem_toDigits (n := v.natAbs) (b := 10) (by decide) (by decide) ?_
      rw [hcons]
      exact List.mem_cons_self
    have hshow : showNat v.natAbs ++ rest = c :: (ds ++ rest) := by rw [showNat, hcons, List.cons_append]
    rw [hshow] at hdigits ⊢
    rw [run_skipSpace hsp (not_isSpace_of_isDigit hc)]
    show (do let p ← sign.run (c :: (ds ++ rest)); _) = _
    rw [run_sign_digit hc]
    show (do let p ← digits.run (c :: (ds ++ rest)); _) = _
    rw [hdigits, decide_eq_false hneg]
    rfl

end items

theorem scans_integer {lo hi v : Int} (h : lo ≤ v ∧ v ≤ hi) : Scans (integer lo hi) (showInt v) v := by
  intro sp rest hsp hrest
  refine ⟨[], by simp [Blank], ?_⟩
  have hv : (if decide (v < 0) = true then -(v.natAbs : Int) else v.natAbs) = v := by
    by_cases hneg : v < 0
    · rw [decide_eq_true hneg, if_pos rfl]
      omega
    · rw [decide_eq_false hneg, if_neg (by simp)]
      omega
  rw [integer, StateT.run_bind, run_number hsp hrest]
  show StateT.run (if lo ≤ (if decide (v < 0) = true then -(v.natAbs : Int) else v.natAbs) ∧ _ then _ else _) rest = _
  rw [hv, if_pos h]
  rfl

theorem scans_natural {w n : Nat} (h : n < 2 ^ w) : Scans (natural w) (showNat n) n := by
  intro sp rest hsp hrest
  refine ⟨[], by simp [Blank], ?_⟩
  have hrun := run_number hsp hrest n
  rw [showInt, if_neg (by omega), Int.natAbs_natCast, decide_eq_false (by omega)] at hrun
  rw [natural, StateT.run_bind, hrun]
  show StateT.run (if n < 2 ^ w then _ else _) rest = _
  rw [if_pos h]
  rfl

theorem scans_boolean (b : Bool) : Scans boolean (showBool b) b := by
  intro sp rest hsp hrest
  have hint : ∀ v : Int, (v = 0 ∨ v = 1) → Scans (integer (-2 ^ 63) (2 ^ 63 - 1)) (showInt v) v := fun v hv =>
    scans_integer (by omega)
  cases b with
  | false =>
    obtain ⟨sp', hsp', hrun⟩ := hint 0 (.inl rfl) sp rest hsp hrest
    refine ⟨sp', hsp', ?_⟩
    rw [boolean, StateT.run_bind, show showBool false = showInt 0 by decide, hrun]
    rfl
  | true =>
    obtain ⟨sp', hsp', hrun⟩ := hint 1 (.inr rfl) sp rest hsp hrest
    refine ⟨sp', hsp', ?_⟩
    rw [boolean, StateT.run_bind, show showBool true = showInt 1 by decide, hrun]
    rfl

/-- Separators behind the items, with one in front, are separators in front, with one behind. -/
theorem cons_flatMap {α : Type} (sep : Char) (texts : α → List Char) (xs : List α) :
    sep :: xs.flatMap (fun x => texts x ++ [sep]) = xs.flatMap (fun x => sep :: texts x) ++ [sep] := by
  induction xs with
  | nil => rfl
  | cons x xs ih =>
    rw [List.flatMap_cons, List.flatMap_cons, List.append_assoc, List.append_assoc, ← ih]
    simp

end Rmdb.Lib.TextStream
