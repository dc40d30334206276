import Mathlib.Tactic

/-!
# Systems that take labelled steps

A `System` has initial states and steps labelled with what happens in them.
`Reach S ok s` says that a run leads from an initial state to `s` in which every
step, in the state it was taken from, met the condition `ok`.

* `Reach.invariant` is the induction over runs: what holds initially and is kept
  by every step that meets the condition holds in every state reached.
* `Reach.mono` weakens the condition.
* `Steps` leads from one given state to another.
* `play` computes the state that a given run leads to, where steps can be computed (`Reach.play`).
* `recording` is the system together with what each step means, recorded for each
  key of a type; it has the runs of the system itself (`Reach.recorded`).
-/

namespace OsLab

/-- A system with states `σ` and steps labelled by `ε`. -/
structure System (σ ε : Type*) where
  init : σ → Prop
  step : σ → ε → σ → Prop

namespace System

variable {σ ε : Type*} {S : System σ ε} {ok ok' : σ → ε → Prop} {I : σ → Prop} {s : σ}

/-- The states reached by runs whose steps all meet `ok`. -/
inductive Reach (S : System σ ε) (ok : σ → ε → Prop) : σ → Prop
  | init {s : σ} : S.init s → Reach S ok s
  | step {s s' : σ} {a : ε} : Reach S ok s → ok s a → S.step s a s' → Reach S ok s'

namespace Reach

/-- Induction over runs. -/
theorem invariant (h : Reach S ok s) (hinit : ∀ s, S.init s → I s)
    (hstep : ∀ s a s', I s → ok s a → S.step s a s' → I s') : I s := by
  induction h with
  | init h => exact hinit _ h
  | step _ ha hs ih => exact hstep _ _ _ ih ha hs

theorem mono (h : Reach S ok s) (himp : ∀ s a, ok s a → ok' s a) : Reach S ok' s := by
  induction h with
  | init h => exact .init h
  | step _ ha hs ih => exact .step ih (himp _ _ ha) hs

end Reach

/-- Steps that all meet `ok` lead from the first state to the second. -/
def Steps (S : System σ ε) (ok : σ → ε → Prop) : σ → σ → Prop :=
  Relation.ReflTransGen fun s s' => ∃ a, ok s a ∧ S.step s a s'

theorem Reach.steps {s' : σ} (h : Reach S ok s) (hs : S.Steps ok' s s') (himp : ∀ s a, ok' s a → ok s a) :
    Reach S ok s' := by
  induction hs with
  | refl => exact h
  | tail _ hstep ih =>
    obtain ⟨a, ha, hs⟩ := hstep
    exact ih.step (himp _ _ ha) hs

/-- What holds at first and is kept by every step holds at last. -/
theorem Steps.invariant {s' : σ} (h : S.Steps ok s s') (hs : I s)
    (hstep : ∀ s a s', I s → ok s a → S.step s a s' → I s') : I s' := by
  induction h with
  | refl => exact hs
  | tail _ hlast ih =>
    obtain ⟨a, ha, hlast⟩ := hlast
    exact hstep _ a _ ih ha hlast

theorem Steps.mono {s' : σ} (h : S.Steps ok s s') (himp : ∀ s a, ok s a → ok' s a) : S.Steps ok' s s' :=
  Relation.ReflTransGen.mono (fun s _ ⟨a, ha, hs⟩ => ⟨a, himp s a ha, hs⟩) _ _ h

/-! ## Evaluated runs -/

section Play

variable {f : σ → ε → Option σ} {s' : σ} {es : List ε}

/-- The state after the given steps, computed by `f`, if each of them is possible and meets `ok`. -/
def play (f : σ → ε → Option σ) (ok : σ → ε → Prop) [∀ s a, Decidable (ok s a)] (s : σ) : List ε → Option σ
  | [] => some s
  | a :: es => if ok s a then (f s a).bind fun s' => play f ok s' es else none

theorem Reach.play [∀ s a, Decidable (ok s a)] (h : Reach S ok s) (hf : ∀ s a s', f s a = some s' → S.step s a s')
    (hp : play f ok s es = some s') : Reach S ok s' := by
  induction es generalizing s with
  | nil =>
    obtain rfl := Option.some.inj hp
    exact h
  | cons a es ih =>
    rw [System.play] at hp
    split at hp
    · obtain ⟨t, ht, hp⟩ := Option.bind_eq_some_iff.1 hp
      exact ih (h.step ‹ok s a› (hf s a t ht)) hp
    · cases hp

/-- What can be computed of the state after the steps. -/
theorem Reach.exists_play [∀ s a, Decidable (ok s a)] (h : Reach S ok s)
    (hf : ∀ s a s', f s a = some s' → S.step s a s') (P : σ → Prop) [DecidablePred P]
    (hp : (System.play f ok s es).any fun s => P s) : ∃ s', Reach S ok s' ∧ P s' := by
  obtain ⟨s', hs', hP⟩ := (Option.any_eq_true _ _).1 hp
  exact ⟨s', h.play hf hs', of_decide_eq_true hP⟩

end Play

/-! ## Histories -/

section Recording

variable {κ τ : Type} {f : σ → ε → σ → κ → List τ} {H : κ → List τ} {s' : σ} {a : ε}

/-- The system with a history for every key: a step adds to the history of `e` what
`f` reads off it. -/
def recording (S : System σ ε) (f : σ → ε → σ → κ → List τ) : System (σ × (κ → List τ)) ε where
  init s := S.init s.1 ∧ ∀ e, s.2 e = []
  step s a s' := S.step s.1 a s'.1 ∧ ∀ e, s'.2 e = s.2 e ++ f s.1 a s'.1 e

theorem Reach.record {ok : σ × (κ → List τ) → ε → Prop} (h : (S.recording f).Reach ok (s, H))
    (hok : ok (s, H) a) (hs : S.step s a s') :
    (S.recording f).Reach ok (s', fun e => H e ++ f s a s' e) :=
  h.step hok ⟨hs, fun _ => rfl⟩

/-- Every run of the system is one with histories. -/
theorem Reach.recorded {ok' : σ × (κ → List τ) → ε → Prop} (h : S.Reach ok s)
    (hok : ∀ s H a, ok s a → ok' (s, H) a) : ∃ H, (S.recording f).Reach ok' (s, H) := by
  induction h with
  | init h => exact ⟨fun _ => [], .init ⟨h, fun _ => rfl⟩⟩
  | @step s s' a _ ha hs ih =>
    obtain ⟨H, hH⟩ := ih
    exact ⟨_, hH.record (hok _ H _ ha) hs⟩

end Recording

end System

end OsLab
