import OsLab.Jos.UserMem

/-!
# Round robin

What `sched_yield` decides, and what that means for decisions that come one after the other on one processor.

* `schedYield_eq`: `sched_yield` runs the environment `schedChoice`, or halts.
* `schedChoice_between`: one decision goes on in circular order, and not past an environment that is runnable.
* **`sched_round_robin`**: no environment is overtaken twice by the same one.
-/

namespace OsLab.Jos

open Exec

variable {k : Kern} {e c : ℕ} {α : Type}

/-! ## One decision -/

/-- The environment that `sched_yield` runs, if it runs one. -/
def schedChoice (k : Kern) : Option ℕ :=
  match firstRunnable k.envs (schedStart k) with
  | some j => some j
  | none =>
    match k.curenv with
    | some c => if (k.envs c).envStatus = .running then some c else none
    | none => none

theorem schedYield_eq (k : Kern) : (schedYield : KernM α) k =
    match schedChoice k with
    | some e => envRun e k
    | none => schedHalt k := by
  rw [schedYield, read_bind, schedChoice]
  simp only [id]
  cases firstRunnable k.envs (schedStart k) with
  | some j => rfl
  | none =>
    cases hc : k.curenv with
    | none => rfl
    | some c =>
      by_cases hst : (k.envs c).envStatus = .running
      · simp only [if_pos hst]
      · simp only [if_neg hst]

/-- The search finds the first one. -/
theorem firstRunnable_first {envs : ℕ → Env} {start j : ℕ} (h : firstRunnable envs start = some j) :
    ∃ i < nenv, j = (start + i) % nenv ∧
      ∀ i' < i, (envs ((start + i') % nenv)).envStatus ≠ .runnable := by
  unfold firstRunnable at h
  rw [List.find?_map, Option.map_eq_some_iff] at h
  obtain ⟨i, hi, rfl⟩ := h
  obtain ⟨-, hmem, hbefore⟩ := List.find?_range_eq_some.1 hi
  refine ⟨i, List.mem_range.1 hmem, rfl, fun i' hi' => ?_⟩
  simpa using hbefore i' hi'

/-- What is chosen while there is a runnable environment. -/
theorem schedChoice_of_runnable (he : e < nenv) (hst : (k.envs e).envStatus = .runnable) :
    ∃ j, schedChoice k = some j ∧ firstRunnable k.envs (schedStart k) = some j := by
  obtain ⟨j, hj⟩ := exists_firstRunnable (schedStart k) he hst
  exact ⟨j, by rw [schedChoice, hj], hj⟩

theorem schedChoice_eq_some : schedChoice k = some e →
    e < nenv ∧ (k.envs e).envStatus = .runnable ∨
      (∀ j < nenv, (k.envs j).envStatus ≠ .runnable) ∧ k.curenv = some e ∧ (k.envs e).envStatus = .running := by
  intro h
  cases hj : firstRunnable k.envs (schedStart k) with
  | some j =>
    rw [schedChoice, hj] at h
    obtain rfl := Option.some.inj h
    exact Or.inl ⟨firstRunnable_lt hj, firstRunnable_status hj⟩
  | none =>
    rw [schedChoice, hj] at h
    cases hc : k.curenv with
    | none => simp [hc] at h
    | some c =>
      simp only [hc, Option.ite_none_right_eq_some, Option.some.injEq] at h
      obtain ⟨hst, rfl⟩ := h
      refine Or.inr ⟨fun j hjn hjr => ?_, rfl, hst⟩
      obtain ⟨j', hj'⟩ := exists_firstRunnable (schedStart k) hjn hjr
      cases hj.symm.trans hj'

/-! ## Decisions one after the other -/

/-- `sched_yield` is called in `k'` next after `k`: the environment that was chosen is the current one, and is still there.
What the environments have become meanwhile is open. -/
def NextDecision (k k' : Kern) : Prop :=
  ∀ e, schedChoice k = some e → k'.curenv = some e ∧ envx (k'.envs e).envId = e

/-- **One decision**: seen from `x`, the choice moves on towards `y`, which is runnable, and does not pass it. -/
theorem schedChoice_between {k k' : Kern} {x y e e' : ℕ} (hnext : NextDecision k k') (he : schedChoice k = some e)
    (hy : y < nenv) (hrun : (k'.envs y).envStatus = .runnable) (he' : schedChoice k' = some e') (hne : e' ≠ y)
    (hlt : (e + (nenv - x)) % nenv < (y + (nenv - x)) % nenv) :
    (e + (nenv - x)) % nenv < (e' + (nenv - x)) % nenv ∧ (e' + (nenv - x)) % nenv < (y + (nenv - x)) % nenv := by
  obtain ⟨hc, hid⟩ := hnext e he
  have hstart : schedStart k' = e + 1 := by
    rw [schedStart, hc]
    show envx (k'.envs e).envId + 1 = e + 1
    rw [hid]
  obtain ⟨j, hj, hfirst⟩ := schedChoice_of_runnable hy hrun
  obtain rfl := Option.mem_unique hj he'
  rw [hstart] at hfirst
  obtain ⟨i, hi, rfl, hbefore⟩ := firstRunnable_first hfirst
  -- `y` is at this distance, and the search stops before
  have hle : i ≤ (y + (nenv - (e + 1) % nenv)) % nenv := by
    by_contra hgt
    refine hbefore _ (not_le.1 hgt) ?_
    rw [show (e + 1 + (y + (nenv - (e + 1) % nenv)) % nenv) % nenv = y by
      simp only [nenv] at hy ⊢
      omega]
    exact hrun
  simp only [nenv] at *
  omega

theorem envx_lt (w : Word) : envx w < nenv := by
  exact Nat.lt_of_le_of_lt Nat.and_le_right (by decide)

/-- **Nobody is overtaken twice.**  While `y` is runnable all the time and is not chosen, an environment `x` that has
been chosen in decision `a` is not chosen again. -/
theorem not_chosen_again {k : ℕ → Kern} {a b x y : ℕ} (hrun : ∀ i, a ≤ i → i < b → NextDecision (k i) (k (i + 1)))
    (hab : a < b) (hy : y < nenv) (hxy : x ≠ y) (ha : schedChoice (k a) = some x)
    (hready : ∀ i, a < i → i ≤ b → ((k i).envs y).envStatus = .runnable ∧ schedChoice (k i) ≠ some y) :
    schedChoice (k b) ≠ some x := by
  have hx : x < nenv := by
    rw [← (hrun a le_rfl hab x ha).2]
    exact envx_lt _
  -- seen from `x`, the decisions up to `b` come closer to `y`
  have hclose : ∀ i, a ≤ i → i ≤ b → ∃ e, schedChoice (k i) = some e ∧ (a < i → 0 < (e + (nenv - x)) % nenv) ∧
      (e + (nenv - x)) % nenv < (y + (nenv - x)) % nenv := by
    intro i hai
    induction i, hai using Nat.le_induction with
    | base =>
      intro _
      refine ⟨x, ha, fun h => absurd h (lt_irrefl a), ?_⟩
      simp only [nenv] at hx hy ⊢
      omega
    | succ i hai ih =>
      intro hib
      obtain ⟨e, he, -, hlt⟩ := ih (by omega)
      obtain ⟨hst, hno⟩ := hready (i + 1) (by omega) hib
      obtain ⟨e', he', -⟩ := schedChoice_of_runnable hy hst
      have hne : e' ≠ y := fun heq => hno (heq ▸ he')
      obtain ⟨hmore, hless⟩ := schedChoice_between (hrun i hai hib) he hy hst he' hne hlt
      exact ⟨e', he', fun _ => by omega, hless⟩
  obtain ⟨e, he, hpos, -⟩ := hclose b hab.le le_rfl
  intro hb
  obtain rfl := Option.mem_unique he hb
  have := hpos hab
  simp only [nenv] at hx this
  omega

/-- **Scheduling is round robin.**  In a run of decisions of `sched_yield` on one processor, each of which finds the
environment chosen before as the current one: something is run if and only if an environment is runnable or the current
one is still running, and a runnable one is preferred; and nobody is overtaken twice. -/
theorem sched_round_robin {k : ℕ → Kern} {n : ℕ} (hrun : ∀ i < n, NextDecision (k i) (k (i + 1))) :
    (∀ i, (schedYield : KernM α) (k i) =
      match schedChoice (k i) with
      | some e => envRun e (k i)
      | none => schedHalt (k i)) ∧
    (∀ i, (∃ e, schedChoice (k i) = some e) ↔ (∃ e < nenv, ((k i).envs e).envStatus = .runnable) ∨
      ∃ c, (k i).curenv = some c ∧ ((k i).envs c).envStatus = .running) ∧
    (∀ i e, schedChoice (k i) = some e → (∃ e' < nenv, ((k i).envs e').envStatus = .runnable) →
      e < nenv ∧ ((k i).envs e).envStatus = .runnable) ∧
    ∀ a b x y, a < b → b ≤ n → y < nenv → x ≠ y → schedChoice (k a) = some x →
      (∀ i, a < i → i ≤ b → ((k i).envs y).envStatus = .runnable ∧ schedChoice (k i) ≠ some y) →
      schedChoice (k b) ≠ some x := by
  refine ⟨fun i => schedYield_eq (k i), fun i => ⟨?_, ?_⟩, fun i e he hsome => ?_, ?_⟩
  · rintro ⟨e, he⟩
    rcases schedChoice_eq_some he with h | ⟨-, h⟩
    · exact Or.inl ⟨e, h⟩
    · exact Or.inr ⟨e, h⟩
  · rintro (⟨e, he, hst⟩ | ⟨c, hc, hst⟩)
    · obtain ⟨j, hj, -⟩ := schedChoice_of_runnable he hst
      exact ⟨j, hj⟩
    · rw [schedChoice]
      cases firstRunnable (k i).envs (schedStart (k i)) with
      | some j => exact ⟨j, rfl⟩
      | none =>
        refine ⟨c, ?_⟩
        simp only [hc, if_pos hst]
  · rcases schedChoice_eq_some he with h | ⟨h, -⟩
    · exact h
    · obtain ⟨e', he', hst⟩ := hsome
      exact absurd hst (h e' he')
  · intro a b x y hab hbn hy hxy ha hready
    exact not_chosen_again (fun i _ hi => hrun i (hi.trans_le hbn)) hab hy hxy ha hready

/-- Four environments that take turns. -/
def turns (i : ℕ) : Kern where
  pm := noPages
  envs e := { loneEnv 0#32 with
    envId := 0x1000#32 + BitVec.ofNat 32 e
    envStatus := if e + 1 = i then .running else if e < 4 then .runnable else .free }
  envFreeList := none
  curenv := if i = 0 then none else some (i - 1)

theorem schedChoice_turns : ∀ i < 3, schedChoice (turns i) = some i := by decide +kernel

/-- The first environment is not chosen again before the last one. -/
theorem sched_round_robin_turns : schedChoice (turns 2) ≠ some 0 := by
  have hrun : ∀ i < 2, NextDecision (turns i) (turns (i + 1)) := by
    intro i hi e he
    obtain rfl := Option.some.inj ((schedChoice_turns i (by omega)).symm.trans he)
    interval_cases i <;> decide
  refine (sched_round_robin (α := Unit) hrun).2.2.2 0 2 0 3 (by decide) le_rfl (by decide) (by decide)
    (schedChoice_turns 0 (by decide)) fun i hi hi' => ⟨?_, ?_⟩
  · interval_cases i <;> rfl
  · rw [schedChoice_turns i (by omega)]
    interval_cases i <;> decide

end OsLab.Jos
