import Mathlib.Data.List.Induction

/-!
# The history of one slot

- `SlotWrite V`: an insertion, deletion or replacement of the value in a slot, with the values before and after;
- `Linked s ws`: each write starts from the state the one before it left, the first one from `s`;
- `undo`: taking a write back, guarded by what the slot holds now. Undoing a linked history, last write first, leads
  back to its start from every state that the history passes through (`undoAll_eq`), so undoing twice, or undoing what
  was only partly taken back, is harmless.
-/

namespace Rmdb.Lib

inductive SlotWrite (V : Type*)
  | insert (v : V)
  | delete (v : V)
  | update (old new : V)

namespace SlotWrite

variable {V : Type*}

def old : SlotWrite V → Option V
  | insert _ => none
  | delete v => some v
  | update o _ => some o

def new : SlotWrite V → Option V
  | insert v => some v
  | delete _ => none
  | update _ n => some n

/-- Empty the slot; refill it if it is empty; replace its value if it has one. -/
def undo : SlotWrite V → Option V → Option V
  | insert _, _ => none
  | delete v, none => some v
  | delete _, some x => some x
  | update _ _, none => none
  | update o _, some _ => some o

@[simp] theorem undo_new (w : SlotWrite V) : w.undo w.new = w.old := by cases w <;> rfl

/-- From a state other than its own result, a write is undone to where it started or not at all. -/
theorem undo_eq_or (w : SlotWrite V) (c : Option V) : w.undo c = w.old ∨ w.undo c = c ∧ c ≠ w.new := by
  cases w <;> cases c <;> simp [undo, old, new]

/-- The state after a history. -/
def final (s : Option V) (ws : List (SlotWrite V)) : Option V := ws.foldl (fun _ w => w.new) s

def Linked : Option V → List (SlotWrite V) → Prop
  | _, [] => True
  | s, w :: ws => w.old = s ∧ Linked w.new ws

/-- Undo a history, last write first. -/
def undoAll (ws : List (SlotWrite V)) (c : Option V) : Option V := ws.foldr undo c

variable {s c : Option V} {ws vs : List (SlotWrite V)} {w : SlotWrite V}

@[simp] theorem final_nil : final s [] = s := rfl

@[simp] theorem final_concat : final s (ws ++ [w]) = w.new := by simp [final]

/-- A value in the slot was written there. -/
theorem exists_of_final_eq_some {v : V} (h : final none ws = some v) : ∃ w ∈ ws, w.new = some v := by
  rcases List.eq_nil_or_concat ws with rfl | ⟨vs, w, rfl⟩
  · cases h
  · exact ⟨w, by simp, by simpa using h⟩

theorem final_append : final s (ws ++ vs) = final (final s ws) vs := by simp [final]

theorem linked_append : Linked s (ws ++ vs) ↔ Linked s ws ∧ Linked (final s ws) vs := by
  induction ws generalizing s with
  | nil => simp [Linked]
  | cons w ws ih =>
    simp only [List.cons_append, Linked, ih, and_assoc]
    rfl

theorem linked_concat : Linked s (ws ++ [w]) ↔ Linked s ws ∧ w.old = final s ws := by
  simp [linked_append, Linked]

/-- The states a history passes through. -/
def states (s : Option V) (ws : List (SlotWrite V)) : List (Option V) := s :: ws.map new

theorem final_mem_states : final s ws ∈ states s ws := by
  rcases List.eq_nil_or_concat ws with rfl | ⟨vs, w, rfl⟩
  · simp [states]
  · simp [states]

theorem states_concat : states s (ws ++ [w]) = states s ws ++ [w.new] := by simp [states]

/-- Undoing the last write steps back within the states of the history. -/
theorem undo_mem_states (h : Linked s (ws ++ [w])) (hc : c ∈ states s (ws ++ [w])) : w.undo c ∈ states s ws := by
  obtain ⟨-, hold⟩ := linked_concat.1 h
  rcases w.undo_eq_or c with heq | ⟨heq, hne⟩
  · rw [heq, hold]
    exact final_mem_states
  · rw [heq]
    rw [states_concat, List.mem_append, List.mem_singleton] at hc
    exact hc.resolve_right hne

/-- Undoing a history from any of its states leads to its start. -/
theorem undoAll_eq (h : Linked s ws) (hc : c ∈ states s ws) : undoAll ws c = s := by
  induction ws using List.reverseRecOn generalizing c with
  | nil => simpa [states, undoAll] using hc
  | append_singleton ws w ih =>
    have hmem := undo_mem_states h hc
    have := ih (linked_concat.1 h).1 hmem
    simpa [undoAll] using this

theorem prefix_final_mem_states (h : vs <+: ws) : final s vs ∈ states s ws := by
  obtain ⟨us, rfl⟩ := h
  have : states s vs <+: states s (vs ++ us) := ⟨us.map new, by simp [states]⟩
  exact this.subset final_mem_states

/-! ## Histories by several owners -/

section owners
variable {O : Type*} {C C' : O → Bool} {os : List (O × SlotWrite V)} {i : O}

/-- The writes of the owners that satisfy `C`. -/
def settled (C : O → Bool) (os : List (O × SlotWrite V)) : List (SlotWrite V) := (os.filter (C ·.1)).map (·.2)

/-- The writes of the others. -/
def pending (C : O → Bool) (os : List (O × SlotWrite V)) : List (O × SlotWrite V) := os.filter (!C ·.1)

/-- The pending writes come last and have one owner. -/
structure Ordered (C : O → Bool) (os : List (O × SlotWrite V)) : Prop where
  split : os.map (·.2) = settled C os ++ (pending C os).map (·.2)
  one : ∀ x ∈ pending C os, ∀ y ∈ pending C os, x.1 = y.1

theorem Ordered.nil : Ordered C ([] : List (O × SlotWrite V)) := ⟨rfl, by simp [pending]⟩

theorem mem_pending {x : O × SlotWrite V} : x ∈ pending C os ↔ x ∈ os ∧ C x.1 = false := by simp [pending]

theorem pending_concat (hi : C i = false) : pending C (os ++ [(i, w)]) = pending C os ++ [(i, w)] := by
  simp [pending, hi]

theorem settled_concat (hi : C i = false) : settled C (os ++ [(i, w)]) = settled C os := by simp [settled, hi]

theorem settled_congr (h : ∀ x ∈ os, C' x.1 = C x.1) : settled C' os = settled C os := by
  simp only [settled]
  rw [List.filter_congr fun x hx => h x hx]

theorem pending_congr (h : ∀ x ∈ os, C' x.1 = C x.1) : pending C' os = pending C os := by
  simp only [pending]
  exact List.filter_congr fun x hx => by rw [h x hx]

theorem Ordered.congr (h : Ordered C os) (hC : ∀ x ∈ os, C' x.1 = C x.1) : Ordered C' os := by
  refine ⟨?_, ?_⟩
  · rw [settled_congr hC, pending_congr hC]
    exact h.split
  · rw [pending_congr hC]
    exact h.one

/-- A write by the owner of the pending ones. -/
theorem Ordered.concat (h : Ordered C os) (hi : C i = false) (hone : ∀ x ∈ pending C os, x.1 = i) :
    Ordered C (os ++ [(i, w)]) := by
  refine ⟨?_, ?_⟩
  · rw [settled_concat hi, pending_concat hi]
    simp [h.split]
  · have hall : ∀ x ∈ pending C (os ++ [(i, w)]), x.1 = i := by
      rw [pending_concat hi]
      intro x hx
      rcases List.mem_append.1 hx with hx | hx
      · exact hone x hx
      · rw [List.mem_singleton.1 hx]
    intro x hx y hy
    rw [hall x hx, hall y hy]

theorem pending_eq_nil_iff : pending C os = [] ↔ ∀ x ∈ os, C x.1 = true := by
  simp [pending]

theorem settled_of_pending_nil (h : pending C os = []) : settled C os = os.map (·.2) := by
  rw [pending_eq_nil_iff] at h
  simp only [settled]
  rw [List.filter_eq_self.2 h]

/-- When more owners settle, the pending writes settle together or not at all. -/
theorem Ordered.mono (h : Ordered C os) (hC : ∀ o, C o = true → C' o = true) :
    Ordered C' os ∧ (pending C' os = [] ∧ (∀ x ∈ pending C os, C' x.1 = true) ∨
      pending C' os = pending C os ∧ settled C' os = settled C os) := by
  by_cases hall : ∀ x ∈ pending C os, C' x.1 = true
  · have hnil : pending C' os = [] := by
      rw [pending_eq_nil_iff]
      intro x hx
      by_cases hx' : C x.1 = true
      · exact hC _ hx'
      · exact hall x (mem_pending.2 ⟨hx, by simpa using hx'⟩)
    refine ⟨⟨?_, by simp [hnil]⟩, .inl ⟨hnil, hall⟩⟩
    rw [settled_of_pending_nil hnil, hnil]
    simp
  · push Not at hall
    obtain ⟨y, hy, hyC⟩ := hall
    have hsame : ∀ x ∈ os, C' x.1 = C x.1 := by
      intro x hx
      by_cases hx' : C x.1 = true
      · rw [hx', hC _ hx']
      · have hpx := mem_pending.2 ⟨hx, show C x.1 = false by simpa using hx'⟩
        rw [(mem_pending.1 hpx).2, h.one x hpx y hy]
        simpa using hyC
    exact ⟨h.congr hsame, .inr ⟨pending_congr hsame, settled_congr hsame⟩⟩

/-- The same for one owner. -/
theorem Ordered.settle (h : Ordered C os) (hC : ∀ o, C' o = true ↔ C o = true ∨ o = i) :
    Ordered C' os ∧ (pending C' os = [] ∧ (∀ x ∈ pending C os, x.1 = i) ∨
      pending C' os = pending C os ∧ settled C' os = settled C os ∧ ∀ x ∈ pending C os, x.1 ≠ i) := by
  obtain ⟨hord, ⟨hnil, hall⟩ | ⟨hp, hs⟩⟩ := h.mono fun o ho => (hC o).2 (.inl ho)
  · refine ⟨hord, .inl ⟨hnil, fun x hx => ((hC _).1 (hall x hx)).resolve_left ?_⟩⟩
    simp [(mem_pending.1 hx).2]
  · refine ⟨hord, .inr ⟨hp, hs, fun x hx he => ?_⟩⟩
    rw [← hp] at hx
    have := (mem_pending.1 hx).2
    rw [(hC _).2 (.inr he)] at this
    cases this

/-- Taking back the losers, when no settled owner is one: the settled writes are left. -/
theorem Ordered.undoAll_losers (lose : O → Bool) (h : Ordered C os) (hlink : Linked none (os.map (·.2)))
    (hkeep : ∀ x ∈ os, C x.1 = true → lose x.1 = false)
    (hc : (∀ x ∈ pending C os, lose x.1 = true) ∧ c ∈ states (final none (settled C os)) ((pending C os).map (·.2)) ∨
      c = final none (settled C os)) :
    undoAll ((os.filter (lose ·.1)).map (·.2)) c = final none (settled C os) := by
  rw [h.split, linked_append] at hlink
  have hfilter : os.filter (lose ·.1) = (pending C os).filter (lose ·.1) := by
    simp only [pending, List.filter_filter]
    refine List.filter_congr fun x hx => ?_
    by_cases hx' : C x.1 = true
    · simp [hkeep x hx hx', hx']
    · simp [hx']
  rw [hfilter]
  rcases hc with ⟨hlose, hmem⟩ | rfl
  · rw [List.filter_eq_self.2 hlose]
    exact undoAll_eq hlink.2 hmem
  · by_cases hlose : ∀ x ∈ pending C os, lose x.1 = true
    · rw [List.filter_eq_self.2 hlose]
      exact undoAll_eq hlink.2 (by simp [states])
    · push Not at hlose
      obtain ⟨y, hy, hny⟩ := hlose
      have hnone : (pending C os).filter (lose ·.1) = [] := by
        rw [List.filter_eq_nil_iff]
        intro x hx
        rwa [h.one x hx y hy]
      rw [hnone]
      rfl

end owners

end SlotWrite

end Rmdb.Lib
