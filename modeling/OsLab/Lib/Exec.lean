import Mathlib.Tactic

/-!
# Code that returns, leaves or panics

Kernel code ends in one of three ways.  It *returns* a value, it *leaves* — it
hands the processor to something else through a function that never returns to
its caller — or it *panics*.  `Outcome` is the sum of the three and `Exec` is
the state monad over it.

* `Exec.wp` is the weakest precondition, with one postcondition for each way of
  ending; `wp_bind` sequences it and `wp_conseq` weakens it.
* `Exec.Ok` is the special case of code that can only return: neither leaving
  nor panicking is allowed.
* `Exec.bind_ok` and its two siblings evaluate a sequence whose first half is
  known; they are how a run on concrete data is followed step by step.
* `Exec.zoom` runs code on one component of a larger state.
* `Exec.ReadOnly` is code that changes nothing, `Exec.Stays` code that never
  leaves.
-/

namespace OsLab

/-- How a piece of kernel code ends. -/
inductive Outcome (ε σ α : Type) where
  /-- It returned `a`. -/
  | ok (a : α) (s : σ)
  /-- It gave the processor away and will not return. -/
  | leave (s : σ)
  /-- It panicked. -/
  | panic (e : ε)

/-- Code over the state `σ` that may panic with an `ε`. -/
def Exec (ε σ α : Type) : Type := σ → Outcome ε σ α

namespace Exec

variable {ε σ τ α β : Type} {m : Exec ε σ α} {f : α → Exec ε σ β} {put : σ → τ → τ} {get : τ → σ} {c : Prop} {s' s : σ}
  {a : α} {e : ε} {t : τ}

/-- Sequencing: only a normal return goes on. -/
protected def bind (m : Exec ε σ α) (f : α → Exec ε σ β) : Exec ε σ β := fun s =>
  match m s with
  | .ok a s' => f a s'
  | .leave s' => .leave s'
  | .panic e => .panic e

instance : Monad (Exec ε σ) where
  pure a := fun s => .ok a s
  bind := Exec.bind

/-- Read a component of the state. -/
def read (f : σ → α) : Exec ε σ α := fun s => .ok (f s) s

/-- Update the state. -/
def modify (f : σ → σ) : Exec ε σ Unit := fun s => .ok () (f s)

/-- Give the processor away. -/
def leave : Exec ε σ α := fun s => .leave s

/-- Panic. -/
def panic (e : ε) : Exec ε σ α := fun _ => .panic e

/-- Run the code if the condition holds. -/
def when (c : Prop) [Decidable c] (m : Exec ε σ Unit) : Exec ε σ Unit := if c then m else pure ()

/-- Run code on the component `get s` of a larger state, writing the result
back with `put`. -/
def zoom (get : τ → σ) (put : σ → τ → τ) (m : Exec ε σ α) : Exec ε τ α := fun t =>
  match m (get t) with
  | .ok a s => .ok a (put s t)
  | .leave s => .leave (put s t)
  | .panic e => .panic e

/-! ## Evaluating a run -/

@[simp] theorem pure_apply : (pure a : Exec ε σ α) s = .ok a s := rfl

@[simp] theorem read_apply {f : σ → α} : (read f : Exec ε σ α) s = .ok (f s) s := rfl

@[simp] theorem modify_apply {f : σ → σ} : (modify f : Exec ε σ Unit) s = .ok () (f s) := rfl

@[simp] theorem leave_apply (s : σ) : (leave : Exec ε σ α) s = .leave s := rfl

@[simp] theorem panic_apply (e : ε) (s : σ) : (panic e : Exec ε σ α) s = .panic e := rfl

theorem when_pos [Decidable c] (h : c) (m : Exec ε σ Unit) : when c m = m := if_pos h

theorem when_neg [Decidable c] (h : ¬ c) (m : Exec ε σ Unit) : when c m = pure () :=
  if_neg h

theorem bind_apply :
    (m >>= f) s = match m s with
      | .ok a s' => f a s'
      | .leave s' => .leave s'
      | .panic e => .panic e := rfl

theorem bind_ok (h : m s = .ok a s') : (m >>= f) s = f a s' := by
  rw [bind_apply, h]

theorem read_bind {g : σ → α} : ((read g : Exec ε σ α) >>= f) s = f (g s) s := rfl

theorem modify_bind {g : σ → σ} {f : Unit → Exec ε σ β} : (modify g >>= f) s = f () (g s) := rfl

theorem bind_leave (h : m s = .leave s') : (m >>= f) s = .leave s' := by
  rw [bind_apply, h]

theorem bind_panic (h : m s = .panic e) : (m >>= f) s = .panic e := by
  rw [bind_apply, h]

/-- A sequence returned only if both halves did. -/
theorem bind_eq_ok {s'' : σ} {b : β} :
    (m >>= f) s = .ok b s'' ↔ ∃ a s', m s = .ok a s' ∧ f a s' = .ok b s'' := by
  rw [bind_apply]
  cases h : m s with
  | ok | leave | panic => simp

theorem zoom_ok (h : m (get t) = .ok a s) : zoom get put m t = .ok a (put s t) := by
  rw [zoom, h]

/-! ## Weakest preconditions -/

/-- What has to hold of the state for `m` to end well: a normal return meets
`Q`, leaving meets `L`, and a panic meets `P`. -/
def wp (m : Exec ε σ α) (Q : α → σ → Prop) (L : σ → Prop) (P : ε → Prop) (s : σ) : Prop :=
  match m s with
  | .ok a s' => Q a s'
  | .leave s' => L s'
  | .panic e => P e

variable {Q Q' : α → σ → Prop} {L L' : σ → Prop} {P P' : ε → Prop} {s : σ} {R : β → σ → Prop}

@[simp] theorem wp_pure : wp (pure a : Exec ε σ α) Q L P s ↔ Q a s := Iff.rfl

@[simp] theorem wp_read {f : σ → α} : wp (read f : Exec ε σ α) Q L P s ↔ Q (f s) s := Iff.rfl

@[simp] theorem wp_modify {f : σ → σ} {Q : Unit → σ → Prop} :
    wp (modify f : Exec ε σ Unit) Q L P s ↔ Q () (f s) := Iff.rfl

@[simp] theorem wp_leave : wp (leave : Exec ε σ α) Q L P s ↔ L s := Iff.rfl

@[simp] theorem wp_panic : wp (panic e : Exec ε σ α) Q L P s ↔ P e := Iff.rfl

/-- The rule of sequencing. -/
@[simp] theorem wp_bind :
    wp (m >>= f) R L P s ↔ wp m (fun a s' => wp (f a) R L P s') L P s := by
  simp only [wp, bind_apply]
  cases m s <;> rfl

/-- The rule of consequence. -/
theorem wp_conseq (h : wp m Q L P s) (hQ : ∀ a s', Q a s' → Q' a s') (hL : ∀ s', L s' → L' s')
    (hP : ∀ e, P e → P' e) : wp m Q' L' P' s := by
  unfold wp at h ⊢
  cases hm : m s with
  | ok a s' => rw [hm] at h; exact hQ a s' h
  | leave s' => rw [hm] at h; exact hL s' h
  | panic e => rw [hm] at h; exact hP e h

theorem wp_mono (h : wp m Q L P s) (hQ : ∀ a s', Q a s' → Q' a s') (hL : ∀ s', L s' → L' s') :
    wp m Q' L' P s :=
  wp_conseq h hQ hL fun _ h => h

theorem wp_post (h : wp m Q L P s) (hQ : ∀ a s', Q a s' → Q' a s') : wp m Q' L P s :=
  wp_mono h hQ fun _ h => h

/-- Code that does not leave. -/
theorem wp_stay (h : wp m Q (fun _ => False) P s) (hQ : ∀ a s', Q a s' → Q' a s') : wp m Q' L P s :=
  wp_mono h hQ fun _ h => h.elim

/-- Code that does not return. -/
theorem wp_noreturn (h : wp m (fun _ _ => False) L P s) (hL : ∀ s', L s' → L' s') : wp m Q L' P s :=
  wp_mono h (fun _ _ h => h.elim) hL

theorem wp_trivial : wp m (fun _ _ => True) (fun _ => True) (fun _ => True) s := by
  unfold wp
  split <;> trivial

theorem wp_of_ok {t : σ} (h : m s = .ok a t) (hQ : Q a t) :
    wp m Q L P s := by
  rw [wp, h]; exact hQ

theorem wp_of_panic (h : m s = .panic e) (hP : P e) : wp m Q L P s := by
  rw [wp, h]; exact hP

/-- Running code on a component changes nothing else. -/
theorem wp_zoom {R : α → τ → Prop}
    {K : τ → Prop}
    (h : wp m (fun a s' => R a (put s' t)) (fun s' => K (put s' t)) P (get t)) :
    wp (zoom get put m) R K P t := by
  unfold wp at h
  unfold wp zoom
  cases hm : m (get t) <;> rw [hm] at h <;> exact h

/-- `m` returns normally and its result meets `Q`. -/
def Ok (m : Exec ε σ α) (Q : α → σ → Prop) (s : σ) : Prop :=
  ∃ a s', m s = .ok a s' ∧ Q a s'

theorem Ok.wp (h : Ok m Q s) : wp m Q L P s := by
  obtain ⟨a, s', hm, hQ⟩ := h
  exact wp_of_ok hm hQ

theorem Ok.mono (h : Ok m Q s) (hQ : ∀ a s', Q a s' → Q' a s') : Ok m Q' s := by
  obtain ⟨a, s', hm, h⟩ := h
  exact ⟨a, s', hm, hQ a s' h⟩

/-- The first half is known. -/
theorem Ok.step (hm : m s = .ok a s')
    (hf : Ok (f a) R s') : Ok (m >>= f) R s := by
  rw [Ok, Exec.bind_ok hm]
  exact hf

theorem wp_step (hm : m s = .ok a s')
    (hf : wp (f a) R L P s') : wp (m >>= f) R L P s := wp_bind.2 (wp_of_ok hm hf)

/-! ## Code that only looks -/

/-- The code returns in the state it started in, or panics with a `P`. -/
def ReadOnly (P : ε → Prop) (m : Exec ε σ α) : Prop :=
  ∀ s, (∃ a, m s = .ok a s) ∨ ∃ e, P e ∧ m s = .panic e

namespace ReadOnly

variable {P : ε → Prop}

theorem pure (a : α) : ReadOnly P (Pure.pure a : Exec ε σ α) := fun _ => Or.inl ⟨a, rfl⟩

theorem read (f : σ → α) : ReadOnly P (Exec.read f : Exec ε σ α) := fun s => Or.inl ⟨f s, rfl⟩

theorem panic (h : P e) : ReadOnly P (Exec.panic e : Exec ε σ α) :=
  fun _ => Or.inr ⟨e, h, rfl⟩

theorem bind (hm : ReadOnly P m)
    (hf : ∀ a, ReadOnly P (f a)) : ReadOnly P (m >>= f) := by
  intro s
  rcases hm s with ⟨a, ha⟩ | ⟨e, he, hp⟩
  · rw [bind_ok ha]
    exact hf a s
  · exact Or.inr ⟨e, he, bind_panic hp⟩

end ReadOnly

/-! ## Code that keeps the processor -/

/-- The code returns or panics. -/
def Stays (m : Exec ε σ α) : Prop := ∀ s s', m s ≠ .leave s'

namespace Stays

theorem pure (a : α) : Stays (Pure.pure a : Exec ε σ α) := fun _ _ h => nomatch h

theorem read (f : σ → α) : Stays (Exec.read f : Exec ε σ α) := fun _ _ h => nomatch h

theorem modify (f : σ → σ) : Stays (Exec.modify f : Exec ε σ Unit) := fun _ _ h => nomatch h

theorem panic (e : ε) : Stays (Exec.panic e : Exec ε σ α) := fun _ _ h => nomatch h

theorem bind (hm : Stays m) (hf : ∀ a, Stays (f a)) :
    Stays (m >>= f) := by
  intro s s'
  cases h : m s with
  | ok a t =>
    rw [bind_ok h]
    exact hf a t s'
  | leave t => exact absurd h (hm s t)
  | panic e =>
    rw [bind_panic h]
    exact nofun

theorem when [Decidable c] {m : Exec ε σ Unit} (hm : Stays m) : Stays (Exec.when c m) := by
  unfold Exec.when
  split
  · exact hm
  · exact Stays.pure ()

/-- Whatever it does to its component, it returns or panics. -/
theorem wp_zoom (h : Stays m) :
    wp (zoom get put m) (fun _ t' => ∃ s, t' = put s t) (fun _ => False) (fun _ => True) t := by
  unfold wp zoom
  cases hm : m (get t) with
  | ok a s => exact ⟨s, rfl⟩
  | leave s => exact h _ _ hm
  | panic e => trivial

end Stays

end Exec

end OsLab
