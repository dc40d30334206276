import Mathlib.Tactic

/-!
# Programs that ask

A program that runs above a kernel does by itself only what the language does; for
everything else it asks.  A `Prog R α` is such a program as a tree: it returns a value,
gives up, or asks for an operation `o` and goes on with the answer, a value of `R o`.

* `run` answers with a handler on states, until the program returns.
* `Always P` says that `P` holds in every state such a run goes through.
* Both follow the structure of the program: `Ends`, a run that returns with `P` all
  along, is taken apart by `Ends.bind`, `Ends.ask`, `Ends.ret`.
-/

namespace OsLab

/-- Programs over operations of a type `O`, where `o` is answered by a value of `R o`. -/
inductive Prog {O : Type} (R : O → Type) (α : Type) where
  | ret (a : α)
  /-- The program gives up. -/
  | exit
  | ask (o : O) (next : R o → Prog R α)

namespace Prog

variable {O σ α β : Type} {R : O → Type}

/-- One program after another. -/
def bind : Prog R α → (α → Prog R β) → Prog R β
  | ret a, f => f a
  | exit, _ => exit
  | ask o next, f => ask o fun r => (next r).bind f

instance : Monad (Prog R) where
  pure := ret
  bind := bind

@[simp] theorem ret_bind (a : α) (f : α → Prog R β) : (ret a >>= f) = f a := rfl
@[simp] theorem ask_bind (o : O) (next : R o → Prog R α) (f : α → Prog R β) :
    (ask o next >>= f) = ask o fun r => next r >>= f := rfl

/-- The program run to its end, each operation answered by the handler. -/
def run (h : (o : O) → σ → Option (R o × σ)) : Prog R α → σ → Option (α × σ)
  | ret a, s => some (a, s)
  | exit, _ => none
  | ask o next, s =>
    match h o s with
    | none => none
    | some (r, s') => (next r).run h s'

variable {h : (o : O) → σ → Option (R o × σ)} {p : Prog R α} {f : α → Prog R β} {s s' s1 : σ} {a : α}
  {b : β} {P : σ → Prop} {o : O}

@[simp] theorem run_ret : (ret a : Prog R α).run h s = some (a, s) := rfl

theorem run_ask {next : R o → Prog R α} {r : R o} (ho : h o s = some (r, s')) :
    (ask o next).run h s = (next r).run h s' := by
  rw [run, ho]

/-- A run of `p >>= f` is a run of `p` and one of `f`. -/
theorem run_bind :
    (p >>= f).run h s = (p.run h s).bind fun x => (f x.1).run h x.2 := by
  induction p generalizing s with
  | ret a => rfl
  | exit => rfl
  | ask o next ih =>
    rw [ask_bind, run, run]
    cases h o s with
    | none => rfl
    | some x => exact ih x.1

theorem run_bind_eq_some (hr : (p >>= f).run h s = some (b, s')) :
    ∃ a s1, p.run h s = some (a, s1) ∧ (f a).run h s1 = some (b, s') := by
  rw [run_bind, Option.bind_eq_some_iff] at hr
  obtain ⟨⟨a, s1⟩, h1, h2⟩ := hr
  exact ⟨a, s1, h1, h2⟩

theorem run_ask_eq_some {next : R o → Prog R α} (hr : (ask o next).run h s = some (a, s')) :
    ∃ r s1, h o s = some (r, s1) ∧ (next r).run h s1 = some (a, s') := by
  rw [run] at hr
  cases ho : h o s with
  | none =>
    rw [ho] at hr
    cases hr
  | some x =>
    rw [ho] at hr
    exact ⟨x.1, x.2, rfl, hr⟩

/-- Every state of the run satisfies `P`. -/
def Always (h : (o : O) → σ → Option (R o × σ)) (P : σ → Prop) : Prog R α → σ → Prop
  | ret _, s => P s
  | exit, s => P s
  | ask o next, s => P s ∧ ∀ r s', h o s = some (r, s') → (next r).Always h P s'

theorem Always.here (ha : p.Always h P s) : P s := by
  cases p with
  | ret | exit => exact ha
  | ask => exact ha.1

theorem Always.bind (ha : (p >>= f).Always h P s) : p.Always h P s ∧
    ∀ a s', p.run h s = some (a, s') → (f a).Always h P s' := by
  induction p generalizing s with
  | ret a =>
    refine ⟨ha.here, fun a' s' hr => ?_⟩
    cases hr
    exact ha
  | exit => exact ⟨ha, fun a' s' hr => nomatch hr⟩
  | ask o next ih =>
    refine ⟨⟨ha.1, fun r s1 hr => (ih r (ha.2 r s1 hr)).1⟩, fun a s' hr => ?_⟩
    obtain ⟨r, s1, ho, hn⟩ := run_ask_eq_some hr
    exact (ih r (ha.2 r s1 ho)).2 a s' hn

/-- The run returns `a` in the state `s'`, and all its states satisfy `P`. -/
structure Ends (h : (o : O) → σ → Option (R o × σ)) (P : σ → Prop) (p : Prog R α) (s : σ) (a : α)
    (s' : σ) : Prop where
  run : p.run h s = some (a, s')
  always : p.Always h P s

theorem Ends.bind (he : (p >>= f).Ends h P s b s') :
    ∃ a s1, p.Ends h P s a s1 ∧ (f a).Ends h P s1 b s' := by
  obtain ⟨a, s1, h1, h2⟩ := run_bind_eq_some he.run
  obtain ⟨ha, hf⟩ := he.always.bind
  exact ⟨a, s1, ⟨h1, ha⟩, h2, hf a s1 h1⟩

/-- The first part is known to return `a`. -/
theorem Ends.known (he : (p >>= f).Ends h P s b s') (hp : p.run h s = some (a, s1)) :
    (f a).Ends h P s1 b s' := by
  obtain ⟨a', s2, h1, h2⟩ := he.bind
  cases hp.symm.trans h1.run
  exact h2

theorem Ends.ask {next : R o → Prog R α} (he : (ask o next).Ends h P s a s') :
    P s ∧ ∃ r s1, h o s = some (r, s1) ∧ (next r).Ends h P s1 a s' := by
  obtain ⟨r, s1, h1, h2⟩ := run_ask_eq_some he.run
  exact ⟨he.always.1, r, s1, h1, h2, he.always.2 r s1 h1⟩

/-- A run is put together from the runs of its parts. -/
theorem Ends.andThen (hp : p.Ends h P s a s1) (hf : (f a).Ends h P s1 b s') :
    (p >>= f).Ends h P s b s' := by
  induction p generalizing s with
  | ret a' =>
    obtain ⟨rfl, rfl⟩ : a = a' ∧ s1 = s := by
      cases hp.run
      exact ⟨rfl, rfl⟩
    exact hf
  | exit => nomatch hp.run
  | ask o next ih =>
    obtain ⟨hP, r, s2, hx, hn⟩ := hp.ask
    have hrest := ih r hn
    refine ⟨by rw [ask_bind, run_ask hx]; exact hrest.run, hP, fun r' s' hx' => ?_⟩
    cases hx.symm.trans hx'
    exact hrest.always

theorem Ends.ret {a' : α} (he : (Prog.ret a' : Prog R α).Ends h P s a s') : a = a' ∧ s' = s := by
  cases he.run
  exact ⟨rfl, rfl⟩

theorem Ends.exit (he : (Prog.exit : Prog R α).Ends h P s a s') : False := nomatch he.run

/-- A program that gives up on an error, and returned. -/
theorem Ends.else {c : Prop} [Decidable c] (he : (if c then Prog.exit else p).Ends h P s a s') :
    ¬ c ∧ p.Ends h P s a s' := by
  by_cases hc : c
  · rw [if_pos hc] at he
    exact he.exit.elim
  · rw [if_neg hc] at he
    exact ⟨hc, he⟩

theorem Ends.here (he : p.Ends h P s a s') : P s := he.always.here

end Prog

end OsLab
