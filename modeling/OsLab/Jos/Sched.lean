import OsLab.Jos.KernSpec
import OsLab.Jos.Trap

/-!
# What scheduling does

The state in which `env_run` leaves the kernel, and which environment the
scheduler picks.

* `envRun_eq`: `env_run(e)` leaves in the state `ran k e`.
* `schedYield_cases`: the scheduler runs a runnable environment, goes on with the
  current one if that is still running, or halts.
* `trap_call`: a system call that returns to its caller.
-/

namespace OsLab.Jos

open Exec

variable {k : Kern} {e c d e : ℕ} {α : Type} {envs : ℕ → Env} {inp : Inputs}

/-! ## Running an environment -/

/-- The current environment, if it was running, is runnable again. -/
def descheduled (k : Kern) : Kern :=
  match k.curenv with
  | some c =>
    if (k.envs c).envStatus = .running then
      k.setEnv c fun v => { v with envStatus := .runnable }
    else k
  | none => k

/-- The state in which `env_run(e)` leaves the kernel. -/
def ran (k : Kern) (e : ℕ) : Kern :=
  { (descheduled k).setEnv e fun v =>
      { v with envStatus := .running, envRuns := v.envRuns + 1#32 } with curenv := some e }

theorem descheduleCurenv_eq (k : Kern) : descheduleCurenv k = .ok () (descheduled k) := by
  rw [descheduleCurenv, descheduled, read_bind]
  simp only [id]
  cases k.curenv with
  | none => rfl
  | some c =>
    simp only
    by_cases h : (k.envs c).envStatus = .running
    · rw [when_pos h, if_pos h, modifyEnv, modify_apply]
    · rw [when_neg h, if_neg h, pure_apply]

@[simp] theorem descheduled_pm (k : Kern) : (descheduled k).pm = k.pm := by
  unfold descheduled
  split
  · split <;> rfl
  · rfl

@[simp] theorem descheduled_envFreeList (k : Kern) :
    (descheduled k).envFreeList = k.envFreeList := by
  unfold descheduled
  split
  · split <;> rfl
  · rfl

/-- Descheduling touches one status. -/
theorem descheduled_envs :
    (descheduled k).envs e = if k.curenv = some e ∧ (k.envs e).envStatus = .running then
      { k.envs e with envStatus := .runnable } else k.envs e := by
  unfold descheduled
  cases hc : k.curenv with
  | none => simp
  | some c =>
    simp only [Option.some.injEq]
    by_cases hst : (k.envs c).envStatus = .running
    · rw [if_pos hst]
      by_cases hce : c = e
      · subst hce
        rw [setEnv_envs_self, if_pos ⟨rfl, hst⟩]
      · rw [setEnv_envs_of_ne _ (Ne.symm hce), if_neg fun hh => hce hh.1]
    · rw [if_neg hst, if_neg]
      rintro ⟨rfl, hh⟩
      exact hst hh

@[simp] theorem ran_pm (k : Kern) (e : ℕ) : (ran k e).pm = k.pm := descheduled_pm k

@[simp] theorem ran_curenv (k : Kern) (e : ℕ) : (ran k e).curenv = some e := rfl

@[simp] theorem ran_envFreeList (k : Kern) (e : ℕ) : (ran k e).envFreeList = k.envFreeList :=
  descheduled_envFreeList k

theorem ran_envs_self : (ran k e).envs e =
    { k.envs e with envStatus := .running, envRuns := (k.envs e).envRuns + 1#32 } := by
  show Function.update (descheduled k).envs e _ e = _
  rw [Function.update_self, descheduled_envs]
  split <;> rfl

theorem ran_envs_of_ne (k : Kern) {e' : ℕ} (h : e' ≠ e) :
    (ran k e).envs e' = (descheduled k).envs e' := by
  exact Function.update_of_ne h ..

@[simp] theorem ran_dirs (k : Kern) (e : ℕ) : (ran k e).dirs = k.dirs := by
  funext e'
  by_cases h : e' = e
  · rw [h, Kern.dirs, ran_envs_self, Kern.dirs]
  · rw [Kern.dirs, ran_envs_of_ne k h, descheduled_envs]
    split <;> rfl

/-- **`env_run`** leaves, unless the environment has no directory. -/
theorem envRun_eq : (envRun e : KernM α) k =
    match k.dirs e with
    | none => .panic .paddr
    | some _ => .leave (ran k e) := by
  rw [envRun, bind_ok (descheduleCurenv_eq k), modify_bind]
  show (read (fun k => k.dirs e) >>= _ : KernM α) (ran k e) = _
  rw [read_bind, ran_dirs]
  cases k.dirs e <;> rfl

theorem envRun_leave (h : k.dirs e = some d) :
    (envRun e : KernM α) k = .leave (ran k e) := by
  rw [envRun_eq, h]

/-! ## Choosing an environment -/

theorem firstRunnable_status {start j : ℕ}
    (h : firstRunnable envs start = some j) : (envs j).envStatus = .runnable := by
  unfold firstRunnable at h
  simpa using List.find?_some h

/-- The search finds what there is to find. -/
theorem exists_firstRunnable (start : ℕ) (he : e < nenv)
    (h : (envs e).envStatus = .runnable) : ∃ j, firstRunnable envs start = some j := by
  rw [← Option.isSome_iff_exists]
  unfold firstRunnable
  rw [List.find?_isSome]
  refine ⟨e, List.mem_map.2 ⟨(e + (nenv - start % nenv)) % nenv, ?_, ?_⟩, by simpa using h⟩
  · exact List.mem_range.2 (Nat.mod_lt _ (by decide))
  · have he' : e < 1024 := he
    show (start + (e + (1024 - start % 1024)) % 1024) % 1024 = e
    omega

/-- **`sched_yield`** runs a runnable environment, goes on with a running current
one, or halts. -/
theorem schedYield_cases (k : Kern) :
    (∃ j, j < nenv ∧ (k.envs j).envStatus = .runnable ∧
      (schedYield : KernM α) k = envRun j k) ∨
    (∃ c, k.curenv = some c ∧ (k.envs c).envStatus = .running ∧
      (schedYield : KernM α) k = envRun c k) ∨
    (schedYield : KernM α) k = schedHalt k := by
  rw [schedYield, read_bind]
  simp only [id]
  cases hj : firstRunnable k.envs (schedStart k) with
  | some j => exact Or.inl ⟨j, firstRunnable_lt hj, firstRunnable_status hj, rfl⟩
  | none =>
    cases hc : k.curenv with
    | none => exact Or.inr (Or.inr rfl)
    | some c =>
      by_cases hst : (k.envs c).envStatus = .running
      · exact Or.inr (Or.inl ⟨c, rfl, hst, by simp only [if_pos hst]⟩)
      · exact Or.inr (Or.inr (by simp only [if_neg hst]))

theorem schedHalt_cases (k : Kern) :
    (schedHalt : KernM α) k = .panic .monitor ∨
    (schedHalt : KernM α) k = .leave { k with curenv := none } := by
  rw [schedHalt, read_bind]
  split
  · exact Or.inr rfl
  · exact Or.inl rfl

/-- If there is a runnable environment, the scheduler picks one. -/
theorem schedYield_picks (he : e < nenv) (hst : (k.envs e).envStatus = .runnable)
    (hd : ∀ j, (k.envs j).envStatus = .runnable → ∃ d, k.dirs j = some d) :
    ∃ j, (k.envs j).envStatus = .runnable ∧ (schedYield : KernM α) k = .leave (ran k j) := by
  obtain ⟨j, hj⟩ := exists_firstRunnable (schedStart k) he hst
  have hrun := firstRunnable_status hj
  obtain ⟨d, hdj⟩ := hd j hrun
  refine ⟨j, hrun, ?_⟩
  rw [schedYield, read_bind]
  simp only [id, hj]
  exact envRun_leave hdj

/-- The scheduler picks the only environment that is runnable. -/
theorem schedYield_only (he : e < nenv) (hst : (k.envs e).envStatus = .runnable)
    (honly : ∀ e', (k.envs e').envStatus = .runnable → e' = e) (hd : k.dirs e = some d) :
    (schedYield : KernM α) k = .leave (ran k e) := by
  obtain ⟨j, hj, hyield⟩ : ∃ j, (k.envs j).envStatus = .runnable ∧
      (schedYield : KernM α) k = .leave (ran k j) :=
    schedYield_picks he hst fun j hj => ⟨d, by rw [honly j hj, hd]⟩
  rwa [honly j hj] at hyield

/-- With nothing to run, the processor waits for the others. -/
theorem schedYield_halts (he : e < nenv) (hrun : (k.envs e).envStatus = .running)
    (hno : ∀ e', (k.envs e').envStatus ≠ .runnable)
    (hc : ∀ c, k.curenv = some c → (k.envs c).envStatus ≠ .running) :
    (schedYield : KernM α) k = .leave { k with curenv := none } := by
  have halive : anyAlive k.envs = true := by
    unfold anyAlive
    rw [List.any_eq_true]
    exact ⟨e, List.mem_range.2 he, by simp [hrun]⟩
  have hhalt : (schedHalt : KernM α) k = .leave { k with curenv := none } := by
    rw [schedHalt, read_bind]
    simp only [id, halive, if_true]
    rfl
  rcases @schedYield_cases α k with ⟨j, -, hst, -⟩ | ⟨c, hc', hst, -⟩ | heq
  · exact absurd hst (hno j)
  · exact absurd hst (hc c hc')
  · rw [heq, hhalt]

/-! ## A system call that returns -/

/-- `tf->tf_regs.reg_eax = r`. -/
def Env.withRet (v : Env) (r : ℤ) : Env :=
  { v with envTf := { v.envTf with regs := { v.envTf.regs with eax := BitVec.ofInt 32 r } } }

/-- A trap from user mode, once the trap frame is saved. -/
theorem trap_user (tf : Trapframe) (hu : tf.FromUser) (hc : k.curenv = some c)
    (hst : (k.envs c).envStatus ≠ .dying) : trap inp tf k =
      (trapDispatch inp tf (some c) >>= fun _ => trapReturn) (k.saveTf c tf) := by
  rw [trap, if_pos hu, read_bind, hc]
  show (read _ >>= _ : KernM Unit) k = _
  rw [read_bind, if_neg hst]
  rfl

/-- **A system call that returns to its caller** leaves the kernel through
`env_run` of the caller, with the result in its registers. -/
theorem trap_call (tf : Trapframe) {r : ℤ} {k2 : Kern}
    (hu : tf.FromUser) (hno : tf.trapno.toNat = tSyscall) (hc : k.curenv = some c)
    (hst : (k.envs c).envStatus ≠ .dying)
    (hrun : runCall inp tf.call (k.saveTf c tf) = .ok r k2)
    (hc2 : k2.curenv = some c) (hst2 : (k2.envs c).envStatus = .running)
    (hd2 : k2.dirs c = some d) :
    trap inp tf k = .leave (ran (k2.setEnv c fun v => v.withRet r) c) := by
  have hdisp : trapDispatch inp tf (some c) (k.saveTf c tf) =
      .ok () (k2.setEnv c fun v => v.withRet r) := by
    rw [trapDispatch, if_neg (by rw [hno]; decide), if_neg (by rw [hno]; decide), if_pos hno,
      bind_ok hrun]
    rfl
  rw [trap_user tf hu hc hst, bind_ok hdisp, trapReturn, read_bind]
  simp only [id, setEnv_curenv, hc2, setEnv_envs_self, Env.withRet, if_pos hst2]
  refine envRun_leave (d := d) ?_
  rw [setEnv_dirs_same]
  · exact hd2
  · rfl

end OsLab.Jos
