import Mathlib.Tactic.Common

/-!
# Computations over a state that may throw

- `Act ε σ α`: a computation that returns or throws; a throw keeps what was done to the state before it;
- `run_bind_eq_ok` and `run_bind_eq_error`: how a sequence of two can end;
- `Act.Triple`: from a precondition, what holds of the state after a return and after a throw, with one rule for each
  way to build a computation and the loop rule `Triple.forM`;
- `Act.Leads`: the computation returns, and does to what the states show what is said.
-/

namespace Rmdb.Lib

def Act (ε σ α : Type) := σ → Except ε α × σ

namespace Act

variable {ε σ α β : Type}

instance : Monad (Act ε σ) where
  pure a := fun s => (.ok a, s)
  bind x f := fun s =>
    match x s with
    | (.ok a, s) => f a s
    | (.error e, s) => (.error e, s)

def get : Act ε σ σ := fun s => (.ok s, s)

def modify (f : σ → σ) : Act ε σ Unit := fun s => (.ok (), f s)

def throw (e : ε) : Act ε σ α := fun s => (.error e, s)

/-- The computation as a function on states. -/
def run (x : Act ε σ α) (s : σ) : Except ε α × σ := x s

/-- A computation over a part of the state. -/
def zoom {τ : Type} (part : σ → τ) (put : τ → σ → σ) (x : Act ε τ α) : Act ε σ α := fun s =>
  ((x (part s)).1, put (x (part s)).2 s)

@[simp] theorem run_pure (a : α) (s : σ) : (pure a : Act ε σ α).run s = (.ok a, s) := rfl
@[simp] theorem run_get (s : σ) : (get : Act ε σ σ).run s = (.ok s, s) := rfl
@[simp] theorem run_modify (f : σ → σ) (s : σ) : (modify f : Act ε σ Unit).run s = (.ok (), f s) := rfl
@[simp] theorem run_throw (e : ε) (s : σ) : (throw e : Act ε σ α).run s = (.error e, s) := rfl

@[simp] theorem run_zoom {τ : Type} (part : σ → τ) (put : τ → σ → σ) (x : Act ε τ α) (s : σ) :
    (zoom part put x).run s = ((x.run (part s)).1, put (x.run (part s)).2 s) := rfl

theorem run_bind (x : Act ε σ α) (f : α → Act ε σ β) (s : σ) : (x >>= f).run s =
    match x.run s with
    | (.ok a, s) => (f a).run s
    | (.error e, s) => (.error e, s) := rfl

/-- A sequence returns when both parts do. -/
theorem run_bind_eq_ok {x : Act ε σ α} {f : α → Act ε σ β} {s s' : σ} {b : β} :
    (x >>= f).run s = (.ok b, s') ↔ ∃ a t, x.run s = (.ok a, t) ∧ (f a).run t = (.ok b, s') := by
  rw [run_bind]
  rcases x.run s with ⟨_ | a, t⟩ <;> simp

/-- A sequence throws what its first part throws, or what the second does after the first. -/
theorem run_bind_eq_error {x : Act ε σ α} {f : α → Act ε σ β} {s s' : σ} {e : ε} :
    (x >>= f).run s = (.error e, s') ↔
      x.run s = (.error e, s') ∨ ∃ a t, x.run s = (.ok a, t) ∧ (f a).run t = (.error e, s') := by
  rw [run_bind]
  rcases x.run s with ⟨_ | a, t⟩ <;> simp

theorem run_bind_of_ok {x : Act ε σ α} {f : α → Act ε σ β} {s t : σ} {a : α} (h : x.run s = (.ok a, t)) :
    (x >>= f).run s = (f a).run t := by
  rw [run_bind, h]

theorem run_eq_of_fst {x : Act ε σ α} {s : σ} {r : Except ε α} (h : (x.run s).1 = r) : x.run s = (r, (x.run s).2) :=
  Prod.ext h rfl

/-! ## What a computation does to the state -/

/-- From `P` the computation returns in `Q` or throws in `E`. -/
def Triple (P : σ → Prop) (x : Act ε σ α) (Q : α → σ → Prop) (E : ε → σ → Prop) : Prop :=
  ∀ s, P s → match x.run s with
    | (.ok a, s) => Q a s
    | (.error e, s) => E e s

section rules
variable {P P' : σ → Prop} {Q Q' : α → σ → Prop} {R : β → σ → Prop} {E E' : ε → σ → Prop}

theorem Triple.ok {x : Act ε σ α} {s s' : σ} {a : α} (h : Triple P x Q E) (hs : P s) (hx : x.run s = (.ok a, s')) :
    Q a s' := by
  have := h s hs
  rwa [hx] at this

theorem Triple.error {x : Act ε σ α} {s s' : σ} {e : ε} (h : Triple P x Q E) (hs : P s)
    (hx : x.run s = (.error e, s')) : E e s' := by
  have := h s hs
  rwa [hx] at this

theorem Triple.pure {a : α} (h : ∀ s, P s → Q a s) : Triple P (pure a) Q E := h

theorem Triple.get {Q : σ → σ → Prop} (h : ∀ s, P s → Q s s) : Triple P get Q E := h

theorem Triple.modify {f : σ → σ} {Q : Unit → σ → Prop} (h : ∀ s, P s → Q () (f s)) : Triple P (modify f) Q E := h

theorem Triple.throw {e : ε} (h : ∀ s, P s → E e s) : Triple P (throw e) Q E := h

theorem Triple.bind {x : Act ε σ α} {f : α → Act ε σ β} (hx : Triple P x Q E) (hf : ∀ a, Triple (Q a) (f a) R E) :
    Triple P (x >>= f) R E := by
  intro s hs
  have h := hx s hs
  rw [run_bind]
  rcases hr : x.run s with ⟨e | a, t⟩ <;> rw [hr] at h
  · exact h
  · exact hf a t h

/-- It is enough to look at each state that satisfies the precondition. -/
theorem Triple.of_eq {x : Act ε σ α} (h : ∀ t, P t → Triple (· = t) x Q E) : Triple P x Q E :=
  fun s hs => h s hs s rfl

/-- A computation is looked at from one state. -/
theorem Triple.start {x : Act ε σ α} {t : σ} (h : Triple P x Q E) (ht : P t) : Triple (· = t) x Q E := by
  rintro _ rfl
  exact h _ ht

theorem Triple.get_bind {f : σ → Act ε σ β} {t : σ} (h : Triple (· = t) (f t) R E) :
    Triple (· = t) (Act.get >>= f) R E := by
  rintro _ rfl
  exact h _ rfl

theorem Triple.modify_bind {g : σ → σ} {f : Unit → Act ε σ β} {t : σ} (h : Triple (· = g t) (f ()) R E) :
    Triple (· = t) (Act.modify g >>= f) R E := by
  rintro _ rfl
  exact h _ rfl

theorem Triple.modify_eq {g : σ → σ} {t : σ} {Q : Unit → σ → Prop} (h : Q () (g t)) :
    Triple (· = t) (Act.modify g) Q E := by
  rintro _ rfl
  exact h

theorem Triple.pure_eq {a : α} {t : σ} (h : Q a t) : Triple (· = t) (Pure.pure a) Q E := by
  rintro _ rfl
  exact h

theorem Triple.throw_eq {e : ε} {t : σ} (h : E e t) : Triple (· = t) (Act.throw e : Act ε σ α) Q E := by
  rintro _ rfl
  exact h

theorem Triple.conseq {x : Act ε σ α} (h : Triple P x Q E) (hP : ∀ s, P' s → P s) (hQ : ∀ a s, Q a s → Q' a s)
    (hE : ∀ e s, E e s → E' e s) : Triple P' x Q' E' := by
  intro s hs
  have h := h s (hP s hs)
  rcases hr : x.run s with ⟨e | a, t⟩ <;> rw [hr] at h
  · exact hE e t h
  · exact hQ a t h

/-- A fact in the precondition that is not about the state. -/
theorem Triple.of_and {p : Prop} {x : Act ε σ α} (h : p → Triple P x Q E) : Triple (fun s => p ∧ P s) x Q E :=
  fun s hs => h hs.1 s hs.2

/-- What is known of every return. -/
theorem Triple.and_ok {x : Act ε σ α} (h : Triple P x Q E) (hQ : ∀ s a s', x.run s = (.ok a, s') → Q' a s') :
    Triple P x (fun a s => Q' a s ∧ Q a s) E := by
  intro s hs
  have h := h s hs
  rcases hr : x.run s with ⟨e | a, t⟩ <;> rw [hr] at h
  · exact h
  · exact ⟨hQ s a t hr, h⟩

/-- A computation over a part of the state leaves the rest. -/
theorem Triple.zoom {τ ρ : Type} {part : σ → τ} {put : τ → σ → σ} {rest : σ → ρ} {x : Act ε τ α} {P : τ → Prop}
    {Q : α → τ → Prop} {E : ε → τ → Prop} (h : Triple P x Q E) (hpart : ∀ t s, part (put t s) = t)
    (hrest : ∀ t s, rest (put t s) = rest s) (r : ρ) :
    Triple (fun s => rest s = r ∧ P (part s)) (Act.zoom part put x) (fun a s => rest s = r ∧ Q a (part s))
      fun e s => rest s = r ∧ E e (part s) := by
  rintro s ⟨hr, hs⟩
  have h := h _ hs
  rw [run_zoom]
  rcases hx : x.run (part s) with ⟨e | a, t⟩ <;> rw [hx] at h
  · exact ⟨(hrest _ _).trans hr, by rw [hpart]; exact h⟩
  · exact ⟨(hrest _ _).trans hr, by rw [hpart]; exact h⟩

/-- What a throw leaves may be forgotten. -/
theorem Triple.lax {x : Act ε σ α} (h : Triple P x Q E) : Triple P x Q (fun _ _ => True) :=
  h.conseq (fun _ => id) (fun _ _ => id) fun _ _ _ => trivial

/-- A loop over a list keeps what each round keeps. -/
theorem Triple.forM {I : σ → Prop} {f : α → Act ε σ PUnit} : ∀ (as : List α),
    (∀ a ∈ as, Triple I (f a) (fun _ => I) E) → Triple I (as.forM f) (fun _ => I) E
  | [], _ => Triple.pure fun _ hs => hs
  | a :: as, h => Triple.bind (h a List.mem_cons_self) fun _ =>
      Triple.forM as fun b hb => h b (List.mem_cons_of_mem a hb)

/-- A loop over a list that keeps what holds of the elements it has done. -/
theorem Triple.forM_done {I : List α → σ → Prop} {f : α → Act ε σ PUnit} : ∀ (as done : List α),
    (∀ done, ∀ a ∈ as, Triple (I done) (f a) (fun _ => I (done ++ [a])) E) →
    Triple (I done) (as.forM f) (fun _ => I (done ++ as)) E
  | [], done, _ => Triple.pure fun s hs => by rwa [List.append_nil]
  | a :: as, done, h => by
    refine Triple.bind (h done a List.mem_cons_self) fun _ => ?_
    have hrest := Triple.forM_done as (done ++ [a]) fun done b hb => h done b (List.mem_cons_of_mem a hb)
    rwa [List.append_assoc, List.singleton_append] at hrest

end rules

/-! ## What a computation does to what a state shows -/

/-- From every state that shows `d` the computation returns `a`, and the state then shows `d'`. -/
def Leads {δ : Type} (R : σ → δ → Prop) (x : Act ε σ α) (d : δ) (a : α) (d' : δ) : Prop :=
  ∀ s, R s d → ∃ s', x.run s = (.ok a, s') ∧ R s' d'

section leads
variable {δ : Type} {R : σ → δ → Prop} {d d' d'' : δ} {a : α} {b : β}

theorem Leads.pure : Leads R (Pure.pure a : Act ε σ α) d a d := fun s hs => ⟨s, rfl, hs⟩

theorem Leads.bind {x : Act ε σ α} {f : α → Act ε σ β} (hx : Leads R x d a d') (hf : Leads R (f a) d' b d'') :
    Leads R (x >>= f) d b d'' := by
  intro s hs
  obtain ⟨s', hr, hs'⟩ := hx s hs
  rw [run_bind_of_ok hr]
  exact hf s' hs'

theorem Leads.get_bind {f : σ → Act ε σ β} (h : ∀ s, R s d → Leads R (f s) d b d') :
    Leads R (Act.get >>= f) d b d' := fun s hs => h s hs s hs

/-- A loop over a list each of whose rounds leads back. -/
theorem Leads.forM {f : α → Act ε σ PUnit} : ∀ {as : List α}, (∀ a ∈ as, Leads R (f a) d ⟨⟩ d) → Leads R (as.forM f) d ⟨⟩ d
  | [], _ => Leads.pure
  | a :: _, h => Leads.bind (h a List.mem_cons_self) (Leads.forM fun b hb => h b (List.mem_cons_of_mem a hb))

/-- The value does not matter when it is not used. -/
theorem Leads.ignore {x : Act ε σ α} {y : Act ε σ β}
    (hx : ∀ s, R s d → ∃ a s', x.run s = (.ok a, s') ∧ R s' d') (hy : Leads R y d' b d'') :
    Leads R (x >>= fun _ => y) d b d'' := by
  intro s hs
  obtain ⟨a, s', hr, hs'⟩ := hx s hs
  rw [run_bind_of_ok hr]
  exact hy s' hs'

end leads

end Act

end Rmdb.Lib
