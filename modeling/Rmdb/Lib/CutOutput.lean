import Mathlib.Data.List.Basic
import Mathlib.Tactic.Ring

/-!
# Output that is cut

- `Output.put`: a piece of an output is written if it stays below a limit; if not, the output counts as cut. A soft piece
  is left out without that;
- `keep`: the leading pieces that stay below the limit. Where every soft piece is the shortest one, `putAll` writes
  exactly these (`putAll_written`), and the output counts as cut behind a hard piece exactly if some are missing
  (`putAll_cut`);
- `leading` is the length of what is kept, in closed form for equal lines (`leading_lines`).
-/

namespace Rmdb.Lib

variable {β : Type}

@[ext]
structure Output (β : Type) where
  written : List β
  cut : Bool

/-- A piece; whether it is soft, and its text. -/
abbrev Piece (β : Type) := Bool × List β

namespace Output

def put (limit : Nat) (s : Output β) (p : Piece β) : Output β :=
  if s.cut = false ∧ s.written.length + p.2.length < limit then { s with written := s.written ++ p.2 }
  else if p.1 then s else { s with cut := true }

def putAll (limit : Nat) (s : Output β) (ps : List (Piece β)) : Output β := ps.foldl (put limit) s

end Output

/-- The leading pieces that stay below the limit. -/
def keep (limit : Nat) : List (List β) → Nat → List (List β)
  | [], _ => []
  | p :: ps, used => if used + p.length < limit then p :: keep limit ps (used + p.length) else []

theorem keep_leads (limit : Nat) : ∀ (ps : List (List β)) (used : Nat), keep limit ps used <+: ps
  | [], _ => List.nil_prefix
  | p :: ps, used => by
    unfold keep
    split
    · exact (List.prefix_cons_inj p).2 (keep_leads limit ps _)
    · exact List.nil_prefix

/-- A piece is missing exactly if the pieces together reach the limit. -/
theorem length_keep_lt_iff {limit : Nat} : ∀ {ps : List (List β)} {used : Nat}, used < limit →
    ((keep limit ps used).length < ps.length ↔ limit ≤ used + ps.flatten.length)
  | [], used, h => by
    simp [keep]
    omega
  | p :: ps, used, h => by
    rw [keep, List.flatten_cons, List.length_append]
    split
    · next hfit =>
      rw [List.length_cons, List.length_cons, Nat.add_lt_add_iff_right, length_keep_lt_iff hfit]
      omega
    · simp
      omega

namespace Output

section putAll
variable {limit : Nat}

theorem putAll_of_cut {s : Output β} (h : s.cut = true) : ∀ ps, putAll limit s ps = s
  | [] => rfl
  | p :: ps => by
    have hput : put limit s p = s := by
      unfold put
      rw [if_neg (by simp [h])]
      split
      · rfl
      · rw [← h]
    rw [putAll, List.foldl_cons, hput]
    exact putAll_of_cut h ps

/-- Where no piece fits any more, nothing is written, and the first hard piece marks the cut. -/
theorem putAll_of_full {s : Output β} : ∀ {ps : List (Piece β)}, (∀ p ∈ ps, limit ≤ s.written.length + p.2.length) →
    (putAll limit s ps).written = s.written ∧ ((∃ p ∈ ps, p.1 = false) → (putAll limit s ps).cut = true)
  | [], _ => by simp [putAll]
  | p :: ps, h => by
    have hnot : ¬(s.cut = false ∧ s.written.length + p.2.length < limit) := fun hfit => by
      have := h p List.mem_cons_self
      omega
    have hrest : ∀ q ∈ ps, limit ≤ s.written.length + q.2.length := fun q hq => h q (List.mem_cons_of_mem _ hq)
    rw [putAll, List.foldl_cons, ← putAll, put, if_neg hnot]
    cases hsoft : p.1 with
    | true =>
      obtain ⟨hw, hc⟩ := putAll_of_full hrest
      refine ⟨hw, fun hhard => hc ?_⟩
      obtain ⟨q, hq, hqs⟩ := hhard
      rcases List.mem_cons.1 hq with rfl | hq
      · rw [hsoft] at hqs
        cases hqs
      · exact ⟨q, hq, hqs⟩
    | false =>
      rw [if_neg (by simp)]
      rw [putAll_of_cut rfl]
      exact ⟨rfl, fun _ => rfl⟩

variable {m : Nat} {ps : List (Piece β)} (hm : ∀ p ∈ ps, m ≤ p.2.length) (hsoft : ∀ p ∈ ps, p.1 = true → p.2.length = m)
include hm hsoft

/-- **What is written is what stays below the limit.** -/
theorem putAll_written {s : Output β} (h : s.cut = false) :
    (putAll limit s ps).written = s.written ++ (keep limit (ps.map Prod.snd) s.written.length).flatten := by
  induction ps generalizing s with
  | nil => simp [putAll, keep]
  | cons p ps ih =>
    have hm' : ∀ q ∈ ps, m ≤ q.2.length := fun q hq => hm q (List.mem_cons_of_mem _ hq)
    have hs' : ∀ q ∈ ps, q.1 = true → q.2.length = m := fun q hq => hsoft q (List.mem_cons_of_mem _ hq)
    rw [putAll, List.foldl_cons, ← putAll, List.map_cons, keep]
    by_cases hfit : s.written.length + p.2.length < limit
    · have h' : (⟨s.written ++ p.2, s.cut⟩ : Output β).cut = false := h
      rw [put, if_pos ⟨h, hfit⟩, if_pos hfit, ih hm' hs' h', List.length_append, List.flatten_cons, List.append_assoc]
    · rw [put, if_neg (by simp [hfit]), if_neg hfit, List.flatten_nil, List.append_nil]
      cases hp : p.1 with
      | false => rw [if_neg (by simp), putAll_of_cut rfl]
      | true =>
        -- a soft piece that does not fit is followed by pieces that are no shorter
        have hlen := hsoft p List.mem_cons_self hp
        rw [if_pos rfl]
        refine (putAll_of_full fun q hq => ?_).1
        have := hm' q hq
        omega

/-- **The output counts as cut exactly if a piece is missing**, behind a hard piece. -/
theorem putAll_cut {s : Output β} (h : s.cut = false) (hlast : ∀ p ∈ ps.getLast?, p.1 = false) :
    (putAll limit s ps).cut = decide ((keep limit (ps.map Prod.snd) s.written.length).length < ps.length) := by
  induction ps generalizing s with
  | nil => simpa [putAll, keep] using h
  | cons p ps ih =>
    have hm' : ∀ q ∈ ps, m ≤ q.2.length := fun q hq => hm q (List.mem_cons_of_mem _ hq)
    have hs' : ∀ q ∈ ps, q.1 = true → q.2.length = m := fun q hq => hsoft q (List.mem_cons_of_mem _ hq)
    rw [putAll, List.foldl_cons, ← putAll, List.map_cons, keep]
    by_cases hfit : s.written.length + p.2.length < limit
    · have hlast' : ∀ q ∈ ps.getLast?, q.1 = false := by
        intro q hq
        apply hlast
        rw [List.getLast?_cons, Option.mem_def.1 hq]
        rfl
      have h' : (⟨s.written ++ p.2, s.cut⟩ : Output β).cut = false := h
      rw [put, if_pos ⟨h, hfit⟩, if_pos hfit, ih hm' hs' h' hlast', List.length_append, List.length_cons,
        List.length_cons]
      simp
    · rw [put, if_neg (by simp [hfit]), if_neg hfit, decide_eq_true (by simp)]
      cases hp : p.1 with
      | false => rw [if_neg (by simp), putAll_of_cut rfl]
      | true =>
        have hlen := hsoft p List.mem_cons_self hp
        rw [if_pos rfl]
        have hfull : ∀ q ∈ ps, limit ≤ s.written.length + q.2.length := fun q hq => by
          have := hm' q hq
          omega
        refine (putAll_of_full hfull).2 ?_
        -- the last piece is hard, so it is another one
        cases hl : ps.getLast? with
        | none =>
          rw [List.getLast?_eq_none_iff] at hl
          have := hlast p (by simp [hl])
          rw [hp] at this
          cases this
        | some q => exact ⟨q, List.mem_of_getLast? hl, hlast q (by simp [List.getLast?_cons, hl])⟩

end putAll

end Output

/-! ## The length of what is kept -/

/-- The sum of the leading lengths that stay below the limit, behind what is used. -/
def leading (limit : Nat) : List Nat → Nat → Nat
  | [], used => used
  | l :: ls, used => if used + l < limit then leading limit ls (used + l) else used

theorem length_keep (limit : Nat) : ∀ (ps : List (List β)) (used : Nat),
    used + (keep limit ps used).flatten.length = leading limit (ps.map List.length) used
  | [], used => by simp [keep, leading]
  | p :: ps, used => by
    rw [keep, List.map_cons, leading]
    split
    · rw [List.flatten_cons, List.length_append, ← length_keep limit ps, Nat.add_assoc]
    · simp

section leading
variable {limit : Nat}

theorem leading_append {b : List Nat} : ∀ {a : List Nat} {used : Nat}, used + a.sum < limit →
    leading limit (a ++ b) used = leading limit b (used + a.sum)
  | [], used, _ => by simp
  | l :: a, used, h => by
    rw [List.sum_cons] at h ⊢
    rw [List.cons_append, leading, if_pos (by omega), leading_append (by omega), Nat.add_assoc]

/-- A line that does not fit is cut behind its last field that does. -/
theorem leading_cut {width last : Nat} {b : List Nat} (hw : 0 < width) : ∀ {c used : Nat}, used < limit →
    limit ≤ used + (c * width + last) →
    leading limit (List.replicate c width ++ last :: b) used = used + min ((limit - 1 - used) / width) c * width
  | 0, used, _, h => by
    simp [leading]
    omega
  | c + 1, used, hlt, h => by
    rw [Nat.succ_mul] at h
    rw [List.replicate_succ, List.cons_append, leading]
    split
    · next hfit =>
      have hdiv : (limit - 1 - used) / width = (limit - 1 - (used + width)) / width + 1 := by
        rw [Nat.div_eq_sub_div hw (by omega), ← Nat.sub_sub]
      rw [leading_cut hw hfit (by omega), hdiv, Nat.succ_min_succ, Nat.succ_mul]
      omega
    · have hdiv : (limit - 1 - used) / width = 0 := Nat.div_eq_of_lt (by omega)
      rw [hdiv]
      simp

/-- Lines of `c` fields and an end: all of them, or as many whole lines and then fields as there is room for. -/
theorem leading_lines {c width last : Nat} (hw : 0 < width) (hlast : 0 < last) : ∀ {m used : Nat}, used < limit →
    leading limit (List.replicate m (List.replicate c width ++ [last])).flatten used =
      if used + m * (c * width + last) < limit then used + m * (c * width + last)
      else used + (limit - 1 - used) / (c * width + last) * (c * width + last) +
        min ((limit - 1 - used) % (c * width + last) / width) c * width
  | 0, used, h => by simp [leading, h]
  | m + 1, used, h => by
    have hline : 0 < c * width + last := by omega
    have hsum : (List.replicate c width ++ [last]).sum = c * width + last := by simp
    rw [List.replicate_succ, List.flatten_cons, Nat.succ_mul]
    by_cases hfit : used + (c * width + last) < limit
    · rw [leading_append (by rwa [hsum]), hsum, leading_lines hw hlast hfit]
      have hle : c * width + last ≤ limit - 1 - used := by omega
      have hdiv := Nat.div_eq_sub_div hline hle
      have hmod := Nat.mod_eq_sub_mod hle
      have hsub : limit - 1 - (used + (c * width + last)) = limit - 1 - used - (c * width + last) := by omega
      rw [hsub, hdiv, hmod, Nat.succ_mul]
      split <;> split <;> omega
    · have hdiv : (limit - 1 - used) / (c * width + last) = 0 := Nat.div_eq_of_lt (by omega)
      have hmod : (limit - 1 - used) % (c * width + last) = limit - 1 - used := Nat.mod_eq_of_lt (by omega)
      rw [List.append_assoc, List.singleton_append, leading_cut hw h (by omega), if_neg (by omega), hdiv, hmod]
      simp

end leading

end Rmdb.Lib
