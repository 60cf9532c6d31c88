import Mathlib.Tactic.Common

/-!
# Sequential programs over atomic calls

- `Prog Resp ε α`: a program that returns, raises an error, or makes one call and goes on with its answer. A thread
  holds such a program, and other threads may run between any two of its calls;
- `Prog.run`: the program run alone against a state, with `run_bind` and the loop rule `run_forM`;
- `Prog.Answers`: how a program ends that leaves what it reads as it is;
- `Prog.wp`: what must be known before each call, as a predicate transformer, with `wp_bind`, `wp_mono` and the loop
  rule `wp_forM`.
-/

namespace Rmdb.Lib

inductive Prog {Op : Type} (Resp : Op → Type) (ε α : Type)
  | ret (a : α)
  | throw (e : ε)
  | call (op : Op) (k : Resp op → Prog Resp ε α)

namespace Prog

variable {Op : Type} {Resp : Op → Type} {ε α β : Type}

def bind : Prog Resp ε α → (α → Prog Resp ε β) → Prog Resp ε β
  | .ret a, f => f a
  | .throw e, _ => .throw e
  | .call op k, f => .call op fun r => (k r).bind f

instance : Monad (Prog Resp ε) where
  pure := .ret
  bind := bind

/-- One call, whose answer is the result. -/
def perform (op : Op) : Prog Resp ε (Resp op) := .call op .ret

/-- The result of a pure computation that may raise an error. -/
def ofExcept : Except ε α → Prog Resp ε α
  | .ok a => .ret a
  | .error e => .throw e

@[simp] theorem bind_ret (a : α) (f : α → Prog Resp ε β) : (Prog.ret a >>= f) = f a := rfl
@[simp] theorem bind_throw (e : ε) (f : α → Prog Resp ε β) : (Prog.throw e >>= f) = .throw e := rfl
@[simp] theorem bind_call (op : Op) (k : Resp op → Prog Resp ε α) (f : α → Prog Resp ε β) :
    (Prog.call op k >>= f) = .call op fun r => k r >>= f := rfl
@[simp] theorem pure_eq_ret (a : α) : (pure a : Prog Resp ε α) = .ret a := rfl

/-! ## Running a program alone -/

section run
variable {σ : Type} (handle : (op : Op) → σ → Except ε (Resp op) × σ)

/-- The program run to its end; an error leaves the state that its call left. -/
def run : Prog Resp ε α → σ → Except ε α × σ
  | .ret a, s => (.ok a, s)
  | .throw e, s => (.error e, s)
  | .call op k, s =>
    match handle op s with
    | (.ok r, s) => (k r).run s
    | (.error e, s) => (.error e, s)

@[simp] theorem run_ret (a : α) (s : σ) : (Prog.ret a : Prog Resp ε α).run handle s = (.ok a, s) := rfl
@[simp] theorem run_throw (e : ε) (s : σ) : (Prog.throw e : Prog Resp ε α).run handle s = (.error e, s) := rfl

theorem run_bind (p : Prog Resp ε α) (f : α → Prog Resp ε β) (s : σ) : (p >>= f).run handle s =
    match p.run handle s with
    | (.ok a, s) => (f a).run handle s
    | (.error e, s) => (.error e, s) := by
  induction p generalizing s with
  | ret a => rfl
  | throw e => rfl
  | call op k ih =>
    simp only [bind_call, run]
    cases h : handle op s with
    | mk r s =>
      cases r with
      | ok r => exact ih r s
      | error e => rfl

/-- What a run does: from `P`, it ends in `Q` with a result or in `E` with an error. -/
def Triple (P : σ → Prop) (p : Prog Resp ε α) (Q : α → σ → Prop) (E : ε → σ → Prop) : Prop :=
  ∀ s, P s → match p.run handle s with
    | (.ok a, s) => Q a s
    | (.error e, s) => E e s

variable {handle} {P : σ → Prop} {Q : α → σ → Prop} {R : β → σ → Prop} {E : ε → σ → Prop}

theorem Triple.ret {a : α} (h : ∀ s, P s → Q a s) : Triple handle P (.ret a) Q E := h

theorem Triple.throw {e : ε} (h : ∀ s, P s → E e s) : Triple handle P (.throw e : Prog Resp ε α) Q E := h

theorem Triple.bind {p : Prog Resp ε α} {f : α → Prog Resp ε β} (hp : Triple handle P p Q E)
    (hf : ∀ a, Triple handle (Q a) (f a) R E) : Triple handle P (p >>= f) R E := by
  intro s hs
  have h := hp s hs
  rw [run_bind]
  cases hr : p.run handle s with
  | mk r s =>
    rw [hr] at h
    cases r with
    | ok a => exact hf a s h
    | error e => exact h

theorem Triple.ofExcept {x : Except ε α} (hok : ∀ a, x = .ok a → ∀ s, P s → Q a s)
    (herr : ∀ e, x = .error e → ∀ s, P s → E e s) : Triple handle P (.ofExcept x : Prog Resp ε α) Q E := by
  cases x with
  | ok a => exact Triple.ret (hok a rfl)
  | error e => exact Triple.throw (herr e rfl)

/-- What the precondition says about other things than the state may be assumed. -/
theorem Triple.of_exists {ι : Type} {P : ι → σ → Prop} {p : Prog Resp ε α} (h : ∀ i, Triple handle (P i) p Q E) :
    Triple handle (fun s => ∃ i, P i s) p Q E := fun s ⟨i, hs⟩ => h i s hs

theorem Triple.of_and {φ : Prop} {p : Prog Resp ε α} (h : φ → Triple handle P p Q E) :
    Triple handle (fun s => φ ∧ P s) p Q E := fun s ⟨hφ, hs⟩ => h hφ s hs

/-- It is enough to look at each state that satisfies the precondition. -/
theorem Triple.of_eq {p : Prog Resp ε α} (h : ∀ s, P s → Triple handle (· = s) p Q E) : Triple handle P p Q E :=
  fun s hs => h s hs s rfl

theorem Triple.of_imp {φ : Prop} {p : Prog Resp ε α} (hφ : ∀ s, P s → φ) (h : φ → Triple handle P p Q E) :
    Triple handle P p Q E := fun s hs => h (hφ s hs) s hs

theorem Triple.perform {op : Op} {Q : Resp op → σ → Prop} (h : ∀ s, P s → match handle op s with
    | (.ok r, s) => Q r s
    | (.error e, s) => E e s) : Triple handle P (Prog.perform op) Q E := by
  intro s hs
  have h := h s hs
  unfold Prog.perform
  unfold run
  cases hr : handle op s with
  | mk r s =>
    rw [hr] at h
    cases r <;> exact h

/-- A call that always returns. -/
theorem Triple.perform_ok {op : Op} {Q : Resp op → σ → Prop}
    (h : ∀ s, P s → ∃ r s', handle op s = (.ok r, s') ∧ Q r s') : Triple handle P (Prog.perform op) Q E := by
  apply Triple.perform
  intro s hs
  obtain ⟨r, s', heq, hq⟩ := h s hs
  rw [heq]
  exact hq

/-- The rule of consequence. -/
theorem Triple.mono {P' : σ → Prop} {Q' : α → σ → Prop} {E' : ε → σ → Prop} {p : Prog Resp ε α}
    (h : Triple handle P p Q E) (hP : ∀ s, P' s → P s) (hQ : ∀ a s, Q a s → Q' a s) (hE : ∀ e s, E e s → E' e s) :
    Triple handle P' p Q' E' := by
  intro s hs
  have h := h s (hP s hs)
  cases hr : p.run handle s with
  | mk r s =>
    rw [hr] at h
    cases r with
    | ok a => exact hQ a s h
    | error e => exact hE e s h

/-- A loop over a list, with an invariant that knows which elements are done and which are to come. -/
theorem Triple.forM {ι : Type} {f : ι → Prog Resp ε PUnit} {I : List ι → List ι → σ → Prop}
    (hf : ∀ done x rest, Triple handle (I done (x :: rest)) (f x) (fun _ => I (done ++ [x]) rest) E) (l done : List ι) :
    Triple handle (I done l) (l.forM f) (fun _ => I (done ++ l) []) E := by
  induction l generalizing done with
  | nil => exact Triple.ret fun s hs => by simpa using hs
  | cons x rest ih =>
    refine Triple.bind (hf done x rest) fun _ => (ih (done ++ [x])).mono (fun _ h => h) (fun _ s hs => ?_) fun _ _ h => h
    simpa using hs

/-- A loop that finds something out about each element. -/
theorem Triple.forM_facts {ι : Type} {f : ι → Prog Resp ε PUnit} {φ : ι → Prop} {l : List ι}
    (hf : ∀ x ∈ l, Triple handle P (f x) (fun _ s => φ x ∧ P s) E) :
    Triple handle P (l.forM f) (fun _ s => (∀ x ∈ l, φ x) ∧ P s) E := by
  induction l with
  | nil => exact Triple.ret fun s hs => ⟨fun _ h => absurd h List.not_mem_nil, hs⟩
  | cons x l ih =>
    refine Triple.bind (hf x List.mem_cons_self) fun _ => Triple.of_and fun hx => ?_
    refine (ih fun y hy => hf y (List.mem_cons_of_mem _ hy)).mono (fun _ h => h) (fun _ s h => ⟨?_, h.2⟩) fun _ _ h => h
    exact List.forall_mem_cons.2 ⟨hx, h.1⟩

/-! ## What a program answers -/

/-- From every state of `I` the program ends with `r`, in a state of `I`. -/
def Answers (handle : (op : Op) → σ → Except ε (Resp op) × σ) (I : σ → Prop) (p : Prog Resp ε α) (r : Except ε α) :
    Prop := ∀ s, I s → ∃ s', p.run handle s = (r, s') ∧ I s'

variable {I : σ → Prop} {p : Prog Resp ε α} {f : α → Prog Resp ε β} {a : α} {e : ε}

theorem Answers.ret : Answers handle I (.ret a) (.ok a) := fun s hs => ⟨s, rfl, hs⟩

theorem Answers.throw : Answers handle I (.throw e : Prog Resp ε α) (.error e) := fun s hs => ⟨s, rfl, hs⟩

theorem Answers.bind {r : Except ε β} (hp : Answers handle I p (.ok a)) (hf : Answers handle I (f a) r) :
    Answers handle I (p >>= f) r := by
  intro s hs
  obtain ⟨s₁, hr, hs₁⟩ := hp s hs
  rw [run_bind, hr]
  exact hf s₁ hs₁

/-- One of two programs, with the same continuation. -/
theorem Answers.ite_bind {q : Prog Resp ε α} {r : Except ε β} {c : Prop} [Decidable c]
    (hp : Answers handle I (if c then p else q) (.ok a)) (hf : Answers handle I (f a) r) :
    Answers handle I (if c then p >>= f else q >>= f) r := by
  have heq : (if c then p >>= f else q >>= f) = (if c then p else q) >>= f := by split <;> rfl
  rw [heq]
  exact hp.bind hf

/-- An error ends the program. -/
theorem Answers.bind_error (hp : Answers handle I p (.error e)) : Answers handle I (p >>= f) (.error e) := by
  intro s hs
  obtain ⟨s₁, hr, hs₁⟩ := hp s hs
  rw [run_bind, hr]
  exact ⟨s₁, rfl, hs₁⟩

theorem Answers.perform {op : Op} {r : Except ε (Resp op)} (h : ∀ s, I s → ∃ s', handle op s = (r, s') ∧ I s') :
    Answers handle I (Prog.perform op) r := by
  intro s hs
  obtain ⟨s', hr, hs'⟩ := h s hs
  refine ⟨s', ?_, hs'⟩
  unfold Prog.perform
  unfold run
  rw [hr]
  cases r <;> rfl

end run

/-! ## What each call may rely on -/

/-- What must be known before a call, and what is known after it. -/
structure Discipline {Op : Type} (Resp : Op → Type) (H : Type) where
  pre : Op → H → Prop
  post : (op : Op) → H → H

section wp
variable {H : Type} (d : Discipline Resp H)

/-- Every call of the program finds what it needs, whatever the answers are, and the result satisfies `Q`. -/
def wp : Prog Resp ε α → (α → H → Prop) → H → Prop
  | .ret a, Q, h => Q a h
  | .throw _, _, _ => True
  | .call op k, Q, h => d.pre op h ∧ ∀ r, wp (k r) Q (d.post op h)

variable {d} {Q Q' : α → H → Prop} {h : H}

@[simp] theorem wp_ret {a : α} : wp d (Prog.ret a : Prog Resp ε α) Q h ↔ Q a h := Iff.rfl

@[simp] theorem wp_throw {e : ε} : wp d (Prog.throw e : Prog Resp ε α) Q h := trivial

@[simp] theorem wp_perform {op : Op} {Q : Resp op → H → Prop} :
    wp d (perform op : Prog Resp ε (Resp op)) Q h ↔ d.pre op h ∧ ∀ r, Q r (d.post op h) := Iff.rfl

@[simp] theorem wp_ofExcept {x : Except ε α} : wp d (ofExcept x : Prog Resp ε α) Q h ↔ ∀ a, x = .ok a → Q a h := by
  cases x <;> simp [ofExcept]

@[simp] theorem wp_bind {p : Prog Resp ε α} {f : α → Prog Resp ε β} {Q : β → H → Prop} :
    wp d (p >>= f) Q h ↔ wp d p (fun a h => wp d (f a) Q h) h := by
  induction p generalizing h with
  | ret a => rfl
  | throw e => rfl
  | call op k ih =>
    simp only [bind_call, wp]
    exact and_congr_right fun _ => forall_congr' fun r => ih r

theorem wp_mono {p : Prog Resp ε α} (hp : wp d p Q h) (hQ : ∀ a h, Q a h → Q' a h) : wp d p Q' h := by
  induction p generalizing h with
  | ret a => exact hQ a h hp
  | throw e => trivial
  | call op k ih => exact ⟨hp.1, fun r => ih r (hp.2 r)⟩

/-- A loop keeps an invariant that its body keeps. -/
theorem wp_forM {ι : Type} {f : ι → Prog Resp ε PUnit} {I : H → Prop} {l : List ι}
    (hf : ∀ x ∈ l, ∀ h, I h → wp d (f x) (fun _ => I) h) (hI : I h) : wp d (l.forM f) (fun _ => I) h := by
  induction l generalizing h with
  | nil => exact hI
  | cons x l ih =>
    refine wp_bind.2 (wp_mono (hf x List.mem_cons_self h hI) fun _ h' hI' => ?_)
    exact ih (fun y hy => hf y (List.mem_cons_of_mem _ hy)) hI'

end wp

end Prog

end Rmdb.Lib
