import OsLab.Jos.Family

/-!
# Processors and the environments they run

The status of an environment is what keeps two processors from running it at the
same time: the scheduler picks runnable environments only, and one that a
processor runs is running, or dying if it was destroyed meanwhile.

* `Guarded` is the invariant while one processor is in the kernel; every change to
  the environments keeps it (`CallDone.guarded`, `Leaves.guarded`, ...).
* `CpuInv` is the invariant between kernel entries; `CpuInv.step` says that every
  event keeps it, if the calls of `sys_env_set_status` and `sys_env_destroy` meet
  `Call.StatusOk`.
* `cpus_run_apart` is the result over whole runs.
* The calls do not check what `Call.StatusOk` asks for.  In `child_pulled_away` a
  parent sets the status of a child that runs on another processor.
-/

namespace OsLab.Jos

open Exec Function

/-- A processor other than `i` is executing `e`. -/
def Machine.Busy (m : Machine) (i e : ℕ) : Prop :=
  ∃ j, j ≠ i ∧ m.mode j = .user ∧ m.cpuEnv j = some e

/-- What the calls that set a status rely on and do not check: `sys_env_set_status`
is not applied to an environment that another processor executes, and does not
wake one that waits for a message; `sys_env_destroy` is not applied to an
environment that another processor executes and that is dying already. -/
def Call.StatusOk (busy : ℕ → Prop) (k : Kern) : Call → Prop
  | .envSetStatus envid status => ∀ e, Names k envid true e → ¬ busy e ∧
      (statusArg status = some .runnable → (k.envs e).envIpcRecving = false)
  | .envDestroy envid => ∀ e, Names k envid true e → busy e → (k.envs e).envStatus ≠ .dying
  | _ => True

/-! ## While one processor is in the kernel -/

/-- The invariant for a processor in the kernel, when the others execute the
environments in `busy`, whose page directories are given by `D`. -/
structure Guarded (busy : ℕ → Prop) (D : ℕ → Option ℕ) (k : Kern) : Prop where
  executed : ∀ e, busy e → (k.envs e).envStatus = .running ∨ (k.envs e).envStatus = .dying
  dirs : ∀ e, busy e → k.dirs e = D e
  current : ∀ c, k.curenv = some c → ¬ busy c ∧ (k.envs c).envStatus ≠ .free
  recving : ∀ e, (k.envs e).envIpcRecving = true →
    (k.envs e).envStatus = .notRunnable ∨ (k.envs e).envStatus = .free
  free : ∃ l, IsChain (fun e => (k.envs e).envLink) k.envFreeList l ∧
    ∀ e ∈ l, (k.envs e).envStatus = .free

section Guarded

variable {busy : ℕ → Prop} {D : ℕ → Option ℕ} {k k' k₁ : Kern} {c e : ℕ} {call : Call} {tf : Trapframe} {r : ℤ}

namespace Guarded

section

variable (h : Guarded busy D k)

include h

theorem same (hk : SameEnvs k k') : Guarded busy D k' := by
  obtain ⟨p, rfl⟩ := hk
  exact ⟨h.1, h.2, h.3, h.4, h.5⟩

/-- An environment in use is not on the free list. -/
theorem notMem_free (he : (k.envs e).envStatus ≠ .free) :
    ∃ l, IsChain (fun e => (k.envs e).envLink) k.envFreeList l ∧ e ∉ l ∧
      ∀ e ∈ l, (k.envs e).envStatus = .free := by
  obtain ⟨l, hl, hfree⟩ := h.free
  exact ⟨l, hl, fun hmem => he (hfree e hmem), hfree⟩

theorem not_busy (hr : (k.envs e).envStatus ≠ .running)
    (hd : (k.envs e).envStatus ≠ .dying) : ¬ busy e :=
  fun hb => (h.executed e hb).elim hr hd

theorem names_ne_free {envid : Word} {cp : Bool} (hn : Names k envid cp e) :
    (k.envs e).envStatus ≠ .free := by
  rcases hn with ⟨-, hc⟩ | ⟨-, -, hst, -⟩
  · exact (h.current e hc).2
  · exact hst

/-- The next environment to be given out is free. -/
theorem head_free (he : k.envFreeList = some e) :
    (k.envs e).envStatus = .free := by
  obtain ⟨l, hl, hfree⟩ := h.free
  exact hfree e (hl.head_mem he)

/-- A change to one environment in use. -/
theorem setEnv (f : Env → Env) (he : (k.envs e).envStatus ≠ .free)
    (hst : (f (k.envs e)).envStatus ≠ .free) (hlink : (f (k.envs e)).envLink = (k.envs e).envLink)
    (hdir : (f (k.envs e)).envPgdir = (k.envs e).envPgdir)
    (hbusy : busy e → (f (k.envs e)).envStatus = .running ∨ (f (k.envs e)).envStatus = .dying)
    (hrec : (f (k.envs e)).envIpcRecving = true → (f (k.envs e)).envStatus = .notRunnable) :
    Guarded busy D (k.setEnv e f) := by
  obtain ⟨l, hl, hel, hfree⟩ := h.notMem_free he
  refine ⟨fun e' hb => ?_, fun e' hb => ?_, fun c hc => ⟨(h.current c hc).1, ?_⟩, fun e' hr => ?_,
    l, ?_, fun e' he' => ?_⟩
  · by_cases heq : e' = e
    · subst heq
      rw [setEnv_envs_self]
      exact hbusy hb
    · rw [setEnv_envs_of_ne _ heq]
      exact h.executed e' hb
  · rw [setEnv_dirs_same f hdir]
    exact h.dirs e' hb
  · by_cases heq : c = e
    · subst heq
      rw [setEnv_envs_self]
      exact hst
    · rw [setEnv_envs_of_ne _ heq]
      exact (h.current c hc).2
  · by_cases heq : e' = e
    · subst heq
      rw [setEnv_envs_self] at hr ⊢
      exact Or.inl (hrec hr)
    · rw [setEnv_envs_of_ne _ heq] at hr ⊢
      exact h.recving e' hr
  · rw [setEnv_link f hlink]
    exact hl
  · have hne : e' ≠ e := fun heq => hel (heq ▸ he')
    rw [setEnv_envs_of_ne _ hne]
    exact hfree e' he'

/-- A change that leaves status, link, directory and `env_ipc_recving` alone. -/
theorem setOther (f : Env → Env) (he : (k.envs e).envStatus ≠ .free)
    (hst : (f (k.envs e)).envStatus = (k.envs e).envStatus)
    (hlink : (f (k.envs e)).envLink = (k.envs e).envLink)
    (hdir : (f (k.envs e)).envPgdir = (k.envs e).envPgdir)
    (hrec : (f (k.envs e)).envIpcRecving = (k.envs e).envIpcRecving) :
    Guarded busy D (k.setEnv e f) := by
  refine h.setEnv f he (hst ▸ he) hlink hdir (fun hb => hst ▸ h.executed e hb) fun hr => ?_
  rw [hst]
  exact (h.recving e (hrec ▸ hr)).resolve_right he

/-- `env_free` of an environment that no other processor executes. -/
theorem freed (hb : ¬ busy e) (he : (k.envs e).envStatus ≠ .free)
    (hk : SameEnvs (freedEnv k e) k₁) (c : Option ℕ)
    (hc : ∀ c', c = some c' → k.curenv = some c' ∧ c' ≠ e) :
    Guarded busy D { k₁ with curenv := c } := by
  obtain ⟨l, hl, hel, hfree⟩ := h.notMem_free he
  obtain ⟨p, rfl⟩ := hk
  have hself := freedEnv_envs_self k e
  have hother : ∀ e', e' ≠ e → (freedEnv k e).envs e' = k.envs e' :=
    fun e' he' => freedEnv_envs_of_ne k he'
  have hne : ∀ e', busy e' → e' ≠ e := fun e' hb' heq => hb (heq ▸ hb')
  refine ⟨fun e' hb' => ?_, fun e' hb' => ?_, fun c' hc' => ?_, fun e' hr => ?_, e :: l, ?_,
    fun e' he' => ?_⟩
  · rw [hother e' (hne e' hb')]
    exact h.executed e' hb'
  · show ((freedEnv k e).envs e').envPgdir = _
    rw [hother e' (hne e' hb')]
    exact h.dirs e' hb'
  · obtain ⟨hcur, hce⟩ := hc c' hc'
    refine ⟨(h.current c' hcur).1, ?_⟩
    rw [hother c' hce]
    exact (h.current c' hcur).2
  · by_cases heq : e' = e
    · subst heq
      rw [hself]
      exact Or.inr rfl
    · rw [hother e' heq] at hr ⊢
      exact h.recving e' hr
  · have hlink : (fun e' => ((freedEnv k e).envs e').envLink) =
        update (fun e' => (k.envs e').envLink) e k.envFreeList := by
      funext e'
      by_cases heq : e' = e
      · subst heq
        rw [hself, update_self]
      · rw [hother e' heq, update_of_ne heq]
    rw [hlink]
    exact hl.push hel
  · rcases List.mem_cons.1 he' with rfl | hmem
    · rw [hself]
    · rw [hother e' fun heq => hel (heq ▸ hmem)]
      exact hfree e' hmem

/-- An environment taken from the free list. -/
theorem enlist (hhead : k.envFreeList = some e)
    (hlist : k'.envFreeList = (k.envs e).envLink) (hother : ∀ e', e' ≠ e → k'.envs e' = k.envs e')
    (hst : (k'.envs e).envStatus ≠ .free) (hrec : (k'.envs e).envIpcRecving = false)
    (hcur : k'.curenv = k.curenv) : Guarded busy D k' := by
  obtain ⟨l, hl, hfree⟩ := h.free
  obtain ⟨l, rfl⟩ : ∃ t, l = e :: t := by
    cases l with
    | nil =>
      rw [IsChain.nil_iff.1 hl] at hhead
      cases hhead
    | cons a t => exact ⟨t, by rw [Option.mem_unique hl.1 hhead]⟩
  have hefree := hfree e (List.mem_cons_self ..)
  have hbe : ¬ busy e := h.not_busy (by rw [hefree]; nofun) (by rw [hefree]; nofun)
  have hne : ∀ e', busy e' → e' ≠ e := fun e' hb heq => hbe (heq ▸ hb)
  have hel : ∀ y ∈ l, y ≠ e := fun y hy heq => (List.nodup_cons.1 hl.nodup).1 (heq ▸ hy)
  refine ⟨fun e' hb => ?_, fun e' hb => ?_, fun c hc => ?_, fun e' hr => ?_, l, ?_, fun e' he' => ?_⟩
  · rw [hother e' (hne e' hb)]
    exact h.executed e' hb
  · rw [Kern.dirs, hother e' (hne e' hb)]
    exact h.dirs e' hb
  · rw [hcur] at hc
    obtain ⟨h1, h2⟩ := h.current c hc
    refine ⟨h1, ?_⟩
    rw [hother c fun heq => h2 (heq ▸ hefree)]
    exact h2
  · by_cases heq : e' = e
    · subst heq
      rw [hrec] at hr
      cases hr
    · rw [hother e' heq] at hr ⊢
      exact h.recving e' hr
  · rw [hlist]
    refine hl.2.congr fun y hy => ?_
    rw [hother y (hel y hy)]
  · rw [hother e' (hel e' he')]
    exact hfree e' (List.mem_cons_of_mem _ he')

end

end Guarded

/-- **Leaving the kernel**: the processor now runs an environment that no other one
executes, or none. -/
theorem Leaves.guarded (h : Leaves k k') (hg : Guarded busy D k) : Guarded busy D k' ∧
    ∀ c, k'.curenv = some c → (k'.envs c).envStatus = .running := by
  cases h with
  | halt => exact ⟨⟨hg.1, hg.2, nofun, hg.4, hg.5⟩, nofun⟩
  | run j hj =>
    have hjb : ¬ busy j ∧ (k.envs j).envStatus ≠ .free := by
      rcases hj with hj | ⟨hc, -⟩
      · exact ⟨hg.not_busy (by rw [hj]; nofun) (by rw [hj]; nofun), by rw [hj]; nofun⟩
      · exact hg.current j hc
    have hd : Guarded busy D (descheduled k) := by
      unfold descheduled
      split
      · rename_i c hc
        split
        · rename_i hst
          refine hg.setEnv _ (hg.current c hc).2 nofun rfl rfl
            (fun hb => absurd hb (hg.current c hc).1) fun hr => ?_
          have := hg.recving c hr
          rw [hst] at this
          rcases this with h1 | h1 <;> cases h1
        · exact hg
      · exact hg
    have hj' : ((descheduled k).envs j).envStatus ≠ .free ∧
        ((descheduled k).envs j).envIpcRecving = false := by
      have hrec : (k.envs j).envIpcRecving = false := by
        by_contra hr
        rcases hg.recving j (Bool.not_eq_false _ ▸ hr) with h1 | h1
        · rcases hj with h2 | ⟨-, h2⟩ <;> rw [h1] at h2 <;> cases h2
        · exact hjb.2 h1
      rw [descheduled_envs]
      split
      · exact ⟨nofun, hrec⟩
      · exact ⟨hjb.2, hrec⟩
    have hr := hd.setEnv (e := j) (fun v => { v with
        envStatus := .running, envRuns := v.envRuns + 1#32 }) hj'.1 nofun rfl rfl
      (fun _ => Or.inl rfl) fun hrec => by
        have : ((descheduled k).envs j).envIpcRecving = true := hrec
        rw [hj'.2] at this
        cases this
    refine ⟨⟨hr.1, hr.2, fun c hc => ?_, hr.4, hr.5⟩, fun c hc => ?_⟩
    all_goals
      have hc' : some j = some c := hc
      obtain rfl := Option.some.inj hc'
    · refine ⟨hjb.1, ?_⟩
      rw [ran_envs_self]
      nofun
    · rw [ran_envs_self]

theorem Killed.guarded (h : Killed k c k') (hg : Guarded busy D k) : Guarded busy D k' ∧
    ∀ c, k'.curenv = some c → (k'.envs c).envStatus = .running := by
  obtain ⟨hc, k₁, hk1, hl⟩ := h
  obtain ⟨hb, hst⟩ := hg.current c hc
  exact hl.guarded (hg.freed hb hst hk1 none nofun)

theorem CallDone.curenv (h : CallDone k call r k') : k'.curenv = k.curenv := by
  cases h with
  | refused _ hk => obtain ⟨p, rfl⟩ := hk; rfl
  | quiet _ hk => obtain ⟨p, rfl⟩ := hk; rfl
  | destroyed _ hk =>
    cases hk with
    | dying => rfl
    | freed _ _ hk => obtain ⟨p, rfl⟩ := hk; rfl
  | sent _ _ _ hk => exact hk.curenv
  | _ => rfl

theorem statusArg_ne_free {status : Word} {st : EnvStatus} (h : statusArg status = some st) :
    st ≠ .free ∧ (st = .notRunnable ∨ st = .runnable) := by
  unfold statusArg at h
  split at h
  · cases h
    exact ⟨nofun, Or.inl rfl⟩
  · split at h
    · cases h
      exact ⟨nofun, Or.inr rfl⟩
    · cases h

/-- **A system call that returns** keeps the invariant. -/
theorem CallDone.guarded (h : CallDone k call r k') (hg : Guarded busy D k)
    (hok : call.StatusOk busy k) : Guarded busy D k' := by
  cases h with
  | refused _ hk | quiet _ hk => exact hg.same hk
  | @destroyed envid e _ hn hk =>
    have hst := hg.names_ne_free hn
    cases hk with
    | dying hrun _ =>
      refine hg.setEnv _ hst (by simp) rfl rfl (fun _ => Or.inr rfl) fun hr => ?_
      have := hg.recving e hr
      rw [hrun] at this
      rcases this with h1 | h1 <;> cases h1
    | freed hnr hc hk =>
      -- an environment that another processor executes is running, or dying
      have hb : ¬ busy e := fun hb => (hg.executed e hb).elim hnr (hok e hn hb)
      exact hg.freed hb hst hk k'.curenv fun c' hc' => by
        obtain ⟨p, rfl⟩ := hk
        exact ⟨hc', fun heq => hc (heq ▸ hc')⟩
  | @forked c e d p r hc he =>
    refine hg.enlist he rfl (fun e' he' => ?_) ?_ ?_ rfl
    · show (update (update k.envs e _) e _) e' = _
      rw [update_of_ne he', update_of_ne he']
    · simp [Jos.forked, setEnv_envs_self]
    · simp [Jos.forked, setEnv_envs_self, afterAlloc]
  | @status envid status st e hst hn =>
    obtain ⟨hb, hrec⟩ := hok e hn
    obtain ⟨hne, hor⟩ := statusArg_ne_free hst
    refine hg.setEnv _ (hg.names_ne_free hn) hne rfl rfl (fun hb' => absurd hb' hb) fun hr => ?_
    rcases hor with rfl | rfl
    · rfl
    · have hr' : (k.envs e).envIpcRecving = true := hr
      rw [hrec hst] at hr'
      cases hr'
  | upcall hn => exact hg.setOther _ (hg.names_ne_free hn) rfl rfl rfl rfl
  | @sent envid value srcva perm rcv c k₁ hn hc hrec hk =>
    have hnf := hg.names_ne_free hn
    have hst := (hg.recving rcv hrec).resolve_right hnf
    have hb : ¬ busy rcv := hg.not_busy (by rw [hst]; decide) (by rw [hst]; decide)
    have hg1 : Guarded busy D k₁ ∧ (k₁.envs rcv).envStatus ≠ .free := by
      rcases hk with hk | hk
      · obtain ⟨p, rfl⟩ := hk
        exact ⟨hg.same ⟨p, rfl⟩, hnf⟩
      · refine ⟨(hg.setOther _ hnf rfl rfl rfl rfl).same hk, ?_⟩
        obtain ⟨p, rfl⟩ := hk
        show (update k.envs rcv _ rcv).envStatus ≠ _
        rw [update_self]
        exact hnf
    exact hg1.1.setEnv _ hg1.2 (by simp) rfl rfl (fun hb' => absurd hb' hb) (by simp)

/-- **A system call that does not return** keeps it as well. -/
theorem CallLeft.guarded (h : CallLeft k call k') (hg : Guarded busy D k) :
    Guarded busy D k' ∧ ∀ c, k'.curenv = some c → (k'.envs c).envStatus = .running := by
  cases h with
  | yield hk | killed _ hk => exact hk.guarded hg
  | faulted h1 hk => exact hk.guarded (hg.same h1)
  | @recv dstva c _ hc _ hk =>
    obtain ⟨hb, hst⟩ := hg.current c hc
    exact hk.guarded (hg.setEnv _ hst nofun rfl rfl (fun hb' => absurd hb' hb) fun _ => rfl)

theorem Guarded.saveTf (hg : Guarded busy D k) (hc : k.curenv = some c) (tf : Trapframe) :
    Guarded busy D (k.saveTf c tf) :=
  hg.setOther (fun v => { v with envTf := tf }) (hg.current c hc).2 rfl rfl rfl rfl

theorem Call.StatusOk.saveTf (h : call.StatusOk busy k) :
    call.StatusOk busy (k.saveTf c tf) := by
  cases call with
  | envSetStatus envid status =>
    intro e hn
    rw [saveTf_envs]
    exact h e (names_saveTf.1 hn)
  | envDestroy envid =>
    intro e hn
    rw [saveTf_envs]
    exact h e (names_saveTf.1 hn)
  | _ => trivial

/-- **A trap** keeps the invariant, if its system call meets the condition. -/
theorem TrapEnds.guarded {inp : Inputs} (h : TrapEnds inp tf k k')
    (hg : Guarded busy D k) (hrun : ∀ c, k.curenv = some c →
      (k.envs c).envStatus = .running ∨ (k.envs c).envStatus = .dying)
    (hok : tf.trapno.toNat = tSyscall → tf.call.StatusOk busy k) : Guarded busy D k' ∧
    ∀ c, k'.curenv = some c → (k'.envs c).envStatus = .running := by
  cases h with
  | zombie _ _ hk => exact hk.guarded hg
  | @returned c r k2 _ _ hc _ hsys _ hcall hk =>
    have hg2 := hcall.guarded (hg.saveTf hc tf) (hok hsys).saveTf
    have hc2 : k2.curenv = some c := hcall.curenv.trans hc
    exact hk.1.guarded (hg2.setOther _ (hg2.current c hc2).2 rfl rfl rfl rfl)
  | left _ hc _ _ _ hcall => exact hcall.guarded (hg.saveTf hc tf)
  | @upcall c tf' k2 _ hc hst _ hk =>
    have hg2 := (hg.saveTf hc tf').same hk
    obtain ⟨p, rfl⟩ := hk
    refine (Leaves.run (k := { k.saveTf c tf' with pm := p }) c (Or.inr ⟨hc, ?_⟩)).guarded hg2
    rw [saveTf_envs]
    exact (hrun c hc).resolve_right hst
  | @killed c k₁ _ _ _ _ h1 hk =>
    have hc : k.curenv = some c := by
      obtain ⟨p, rfl⟩ := h1
      exact hk.1
    exact hk.guarded ((hg.saveTf hc tf).same h1)
  | plain _ hc _ _ hk => exact hk.guarded (hg.saveTf hc tf)
  | idleReturned _ hsys hcall hk => exact hk.guarded (hcall.guarded hg (hok hsys))
  | idleLeft _ _ hcall => exact hcall.guarded hg
  | idle _ _ hk => exact hk.guarded hg

end Guarded

/-! ## Between kernel entries -/

/-- The environments that processors execute are theirs alone. -/
structure RunApart (m : Machine) : Prop where
  status : ∀ i, m.mode i = .user → ∃ c, m.cpuEnv i = some c ∧
    ((m.kern.envs c).envStatus = .running ∨ (m.kern.envs c).envStatus = .dying)
  alone : ∀ i j c, m.mode i = .user → m.cpuEnv i = some c → m.cpuEnv j = some c → j = i

/-- The invariant of the machine. -/
structure CpuInv (m : Machine) : Prop where
  apart : RunApart m
  idle : ∀ i, m.mode i ≠ .user → m.cpuEnv i = none
  recving : ∀ e, (m.kern.envs e).envIpcRecving = true →
    (m.kern.envs e).envStatus = .notRunnable ∨ (m.kern.envs e).envStatus = .free
  free : ∃ l, IsChain (fun e => (m.kern.envs e).envLink) m.kern.envFreeList l ∧
    ∀ e ∈ l, (m.kern.envs e).envStatus = .free

variable {cfg : BootConfig} {m m' : Machine} {i c : ℕ} {a : Event}

theorem CpuInv.cur_user (h : CpuInv m) (hc : m.cpuEnv i = some c) : m.mode i = .user := by
  by_contra hm
  rw [h.idle i hm] at hc
  cases hc

theorem CpuInv.status_of (h : CpuInv m) (hc : m.cpuEnv i = some c) :
    (m.kern.envs c).envStatus = .running ∨ (m.kern.envs c).envStatus = .dying := by
  obtain ⟨c', hc', hst⟩ := h.apart.status i (h.cur_user hc)
  obtain rfl : c = c' := Option.mem_unique hc hc'
  exact hst

/-- What a processor finds when it enters the kernel. -/
theorem CpuInv.guarded (h : CpuInv m) (i : ℕ) : Guarded (m.Busy i) m.kern.dirs (m.on i) := by
  refine ⟨?_, fun _ _ => rfl, fun c hc => ⟨?_, ?_⟩, h.recving, h.free⟩
  · rintro e ⟨j, -, -, hj⟩
    exact h.status_of hj
  · rintro ⟨j, hji, -, hj⟩
    exact hji (h.apart.alone i j c (h.cur_user hc) hc hj)
  · show (m.kern.envs c).envStatus ≠ .free
    rcases h.status_of hc with h1 | h1 <;> rw [h1] <;> nofun

/-- What it leaves behind. -/
theorem CpuInv.back {k' : Kern} (h : CpuInv m) (hg : Guarded (m.Busy i) m.kern.dirs k')
    (hrun : ∀ c, k'.curenv = some c → (k'.envs c).envStatus = .running) : CpuInv (m.back i k') := by
  have hother : ∀ j, j ≠ i → (m.back i k').mode j = m.mode j ∧
      (m.back i k').cpuEnv j = m.cpuEnv j :=
    fun j hj => ⟨update_of_ne hj .., update_of_ne hj ..⟩
  have hself : (m.back i k').cpuEnv i = k'.curenv ∧
      (m.back i k').mode i = if k'.curenv = none then .halted else .user :=
    ⟨update_self .., update_self ..⟩
  have hbusy : ∀ j c, j ≠ i → m.cpuEnv j = some c → m.Busy i c := fun j c hj hc =>
    ⟨j, hj, h.cur_user hc, hc⟩
  refine ⟨⟨fun j hm => ?_, fun j j' c hm hc hc' => ?_⟩, fun j hm => ?_, hg.recving, hg.free⟩
  · by_cases hj : j = i
    · subst hj
      rw [hself.2] at hm
      cases hcur : k'.curenv with
      | none =>
        rw [hcur] at hm
        cases hm
      | some c => exact ⟨c, by rw [hself.1, hcur], Or.inl (hrun c hcur)⟩
    · rw [(hother j hj).1] at hm
      obtain ⟨c, hc, -⟩ := h.apart.status j hm
      exact ⟨c, by rw [(hother j hj).2, hc], hg.executed c (hbusy j c hj hc)⟩
  · by_cases hj : j = i
    · subst hj
      rw [hself.1] at hc
      by_contra hne
      rw [(hother j' hne).2] at hc'
      exact (hg.current c hc).1 (hbusy j' c hne hc')
    · rw [(hother j hj).2] at hc
      by_cases hj' : j' = i
      · subst hj'
        rw [hself.1] at hc'
        exact absurd (hbusy j c hj hc) (hg.current c hc').1
      · rw [(hother j' hj').2] at hc'
        exact h.apart.alone j j' c (h.cur_user hc) hc hc'
  · by_cases hj : j = i
    · subst hj
      rw [hself.2] at hm
      rw [hself.1]
      by_contra hcur
      rw [if_neg hcur] at hm
      exact hm rfl
    · rw [(hother j hj).1] at hm
      rw [(hother j hj).2, h.idle j hm]

/-! ## Whole runs -/

/-- The condition on an event: its system call may set the status it sets. -/
def Event.StatusOk (m : Machine) : Event → Prop
  | .trap i _ tf => tf.trapno.toNat = tSyscall → tf.call.StatusOk (m.Busy i) (m.on i)
  | _ => True

/-- The processor an event happens on. -/
def Event.cpu : Event → Option ℕ
  | .create _ _ => none
  | .start i | .trap i _ _ | .store i _ _ => some i

/-- Kernel code that a processor runs, followed through. -/
theorem enter_moves {code : KernM Unit} {L : Kern → Prop} (hwp : wp code (fun _ _ => False) L
    (fun _ => True) (m.on i)) (h : m.enter i code = .ok () m') : ∃ k', L k' ∧ m' = m.back i k' := by
  unfold wp at hwp
  unfold Machine.enter at h
  cases hcode : code (m.on i) with
  | ok a k' =>
    rw [hcode] at hwp
    exact hwp.elim
  | leave k' =>
    rw [hcode] at hwp h
    cases h
    exact ⟨k', hwp, rfl⟩
  | panic e =>
    rw [hcode] at h
    cases h

theorem create_moves {binary : Elf} {type : EnvType}
    (h : (Event.create binary type).exec m = .ok () m') :
    ∃ e k', Enlisted m.kern e k' ∧ m' = { m with kern := k' } := by
  have hwp := envCreate_moves (k := m.kern) binary type
  simp only [Event.exec] at h
  unfold wp at hwp
  split at h <;> rename_i heq <;> rw [heq] at hwp
  · cases h
    obtain ⟨e, he⟩ := hwp
    exact ⟨e, _, he, rfl⟩
  · exact hwp.elim
  · cases h

theorem store_moves {va : Word} {b : BitVec 8} (h : (Event.store i va b).exec m = .ok () m') :
    ∃ k', SameEnvs m.kern k' ∧ m' = { m with kern := k' } := by
  simp only [Event.exec] at h
  split at h
  · cases h
    exact ⟨_, SameEnvs.refl _, rfl⟩
  · cases h
    refine ⟨_, ?_, rfl⟩
    unfold userStore
    split
    · exact SameEnvs.refl _
    · split
      · exact SameEnvs.refl _
      · exact ⟨_, rfl⟩

/-- **Every event keeps the invariant** and the address spaces of the environments
that other processors execute. -/
theorem CpuInv.step (h : CpuInv m) (hok : a.StatusOk m) (hstep : (jos cfg).step m a m') :
    CpuInv m' ∧ ∀ i, a.cpu = some i → ∀ e, m.Busy i e → m'.kern.dirs e = m.kern.dirs e := by
  obtain ⟨hen, hexec⟩ := hstep
  cases a with
  | create binary type =>
    obtain ⟨e, k', hk, rfl⟩ := create_moves hexec
    have hboot : ∀ i, m.mode i ≠ .user := fun i hi => by
      rw [hen i] at hi
      cases hi
    have hg : Guarded (m.Busy 0) m.kern.dirs { k' with curenv := none } :=
      (h.guarded 0).enlist hk.head hk.freeList hk.others (by rw [hk.status]; nofun) hk.recving
        (h.idle 0 (hboot 0)).symm
    exact ⟨⟨⟨fun i hi => absurd hi (hboot i), fun i _ _ hi => absurd hi (hboot i)⟩, h.idle,
      hg.recving, hg.free⟩, nofun⟩
  | start i =>
    obtain ⟨k', hk, rfl⟩ := enter_moves schedYield_moves hexec
    obtain ⟨hg, hrun⟩ := hk.guarded (h.guarded i)
    refine ⟨h.back hg hrun, fun j hj e hb => ?_⟩
    obtain rfl := Option.some.inj hj
    exact hg.dirs e hb
  | trap i inp tf =>
    have hcs : ¬ tf.FromUser → tf.cs = gdKt := fun hu =>
      hen.elim (fun hh => absurd hh.2 hu) fun hh => hh.2
    obtain ⟨k', hk, rfl⟩ := enter_moves (trap_moves inp tf hcs) hexec
    obtain ⟨hg, hrun⟩ := hk.guarded (h.guarded i) (fun c hc => h.status_of hc) hok
    refine ⟨h.back hg hrun, fun j hj e hb => ?_⟩
    obtain rfl := Option.some.inj hj
    exact hg.dirs e hb
  | store i va b =>
    obtain ⟨k', ⟨p, rfl⟩, rfl⟩ := store_moves hexec
    exact ⟨⟨⟨h.apart.status, h.apart.alone⟩, h.idle, h.recving, h.free⟩, fun _ _ _ _ => rfl⟩

theorem CpuInv.start (h : m.Starts cfg) : CpuInv m := by
  obtain ⟨k0, -, rfl⟩ := h
  obtain ⟨⟨l, hl, -⟩, -, -, -, -, hst⟩ := envInit_spec k0
  exact ⟨⟨nofun, nofun⟩, fun _ _ => rfl, fun e _ => Or.inr (hst e), l, hl, fun e _ => hst e⟩

theorem CpuInv.reach {ok : Machine → Event → Prop} (hok : ∀ m a, ok m a → a.StatusOk m)
    (h : (jos cfg).Reach ok m) : CpuInv m :=
  h.invariant (fun _ hm => CpuInv.start hm) fun m a _ hm hs hstep => (hm.step (hok m a hs) hstep).1

/-- **Processors run apart.**  In every run whose calls set a status only where they
may, each processor in user mode has an environment of its own that is running or
dying, and no processor frees an environment that another one executes. -/
theorem cpus_run_apart (cfg : BootConfig) (m : Machine)
    (h : (jos cfg).Reach (fun m a => a.StatusOk m) m) : RunApart m ∧
    ∀ (a : Event) (m' : Machine) (i : ℕ), a.StatusOk m → (jos cfg).step m a m' → a.cpu = some i →
      ∀ e, m.Busy i e → m'.kern.dirs e = m.kern.dirs e := by
  have hinv := CpuInv.reach (fun _ _ hs => hs) h
  exact ⟨hinv.apart, fun a m' i hok hstep hi => (hinv.step hok hstep).2 i hi⟩

theorem QuietStep.statusOk (h : QuietStep m a) : a.StatusOk m := by
  cases a with
  | trap => exact fun hsys => absurd hsys h.not_syscall
  | _ => trivial

/-- A processor that runs the first program: it runs apart from the others. -/
theorem cpus_run_apart_solo : ∃ m, (jos smallPc).Reach (fun m a => a.StatusOk m) m ∧
    m.mode 0 = .user ∧ RunApart m := by
  obtain ⟨k0, m, pp, hquiet, hsolo, -⟩ := exists_solo smallPc 0 rfl (by decide)
  have hreach : (jos smallPc).Reach (fun m a => a.StatusOk m) m := hquiet.mono fun _ _ h => h.statusOk
  exact ⟨m, hreach, hsolo.mode, (cpus_run_apart smallPc m hreach).1⟩

/-! ## Calls that do not meet the condition -/

/-- A parent has forked a child and made it runnable, and another processor runs it. -/
theorem exists_child (n : ℕ) (hn : n ≤ 100) (inp : Inputs) : ∃ k0 m a id,
    (jos smallPc).Reach (fun _ _ => True) m ∧ Family smallPc k0 n a .running id m ∧
      m.At 1 .user (some a) := by
  have hroom : n + 1 + 71 ≤ smallPc.npages - smallPc.kernelEnd :=
    Nat.le_trans (by omega : n + 1 + 71 ≤ 172) (by decide)
  obtain ⟨k0, m, pp, hquiet, hsolo, -, -, -, hnothing⟩ := exists_solo smallPc (n + 1) rfl hroom
  have h0 : (jos smallPc).Reach (fun _ _ => True) m := hquiet.mono fun _ _ _ => trivial
  obtain ⟨a, id, hfam⟩ := hnothing.family hsolo
  obtain ⟨m1, m2, m3, id', h1, h2, h3, hat⟩ := hfam.birth inp (by decide) (hnothing.boot 1 (by decide))
  exact ⟨k0, m3, a, id', ((h0.step trivial h1.step).step trivial h2.step).step trivial h3.step,
    h3.family, hat⟩

/-- **A status set under a running environment.**  The parent makes its child not
runnable while another processor executes it. -/
theorem child_pulled_away : ∃ m a, (jos smallPc).Reach (fun _ _ => True) m ∧ m.mode 1 = .user ∧
    m.cpuEnv 1 = some a ∧ (m.kern.envs a).envStatus = .notRunnable ∧ ¬ RunApart m := by
  obtain ⟨k0, m, a, id, hreach, hfam, hat⟩ := exists_child 1 (by decide) ⟨0#32, 0, none⟩
  obtain ⟨m', hm'⟩ := hfam.setStatus nofun ⟨0#32, 0, none⟩ 4#32 .notRunnable rfl nofun
  obtain ⟨hmode, hcpu⟩ := hm'.cpus.at (by decide) hat
  refine ⟨m', a, hreach.step trivial hm'.step, hmode, hcpu, hm'.family.status, fun hapart => ?_⟩
  obtain ⟨c, hc, hst⟩ := hapart.status 1 hmode
  obtain rfl : a = c := Option.mem_unique hcpu hc
  rw [hm'.family.status] at hst
  rcases hst with h | h <;> cases h

end OsLab.Jos
