import OsLab.Jos.EnvMoves
import OsLab.Jos.Solo

/-!
# A parent and its child

Runs of two environments.  The parent is environment 0 and runs on processor 0;
the child, when there is one, has slot `a`.  Each lemma of `Family` is one step of
such a run: the parent forks the child, sets its status, destroys it or sends it a
message, another processor starts and picks the child.
-/

namespace OsLab.Jos

open Exec Spaces Function

/-- The parent runs with `n` pages to spare; slot `a` has the status `st` and the
identifier `id`; no other environment exists. -/
structure Family (cfg : BootConfig) (k₀ : Pmap) (n a : ℕ) (st : EnvStatus) (id : Word)
    (m : Machine) : Prop where
  solo : Solo cfg k₀ n m
  ne : a ≠ 0
  lt : a < nenv
  others : ∀ e, e ≠ 0 → e ≠ a → (m.kern.envs e).envStatus = .free
  status : (m.kern.envs a).envStatus = st
  envId : (m.kern.envs a).envId = id
  list : st = .free → m.kern.envFreeList = some a
  child : st ≠ .free → (id ≠ 0#32 ∧ envx id = a) ∧
    (m.kern.envs a).envParentId = (m.kern.envs 0).envId ∧ ∃ d, m.kern.dirs a = some d

/-- The processors other than `i` are where they were. -/
def Machine.SameCpus (m : Machine) (i : ℕ) (m' : Machine) : Prop :=
  ∀ j, j ≠ i → m'.mode j = m.mode j ∧ m'.cpuEnv j = m.cpuEnv j

theorem back_sameCpus (m : Machine) (i : ℕ) (k : Kern) : m.SameCpus i (m.back i k) :=
  fun _ hj => ⟨update_of_ne hj .., update_of_ne hj ..⟩

/-- Processor `j` is in mode `md` with the current environment `c`. -/
def Machine.At (m : Machine) (j : ℕ) (md : Mode) (c : Option ℕ) : Prop :=
  m.mode j = md ∧ m.cpuEnv j = c

theorem Machine.SameCpus.at {m m' : Machine} {i j : ℕ} {md : Mode} {c : Option ℕ}
    (h : m.SameCpus i m') (hj : j ≠ i) (hat : m.At j md c) : m'.At j md c :=
  ⟨(h j hj).1.trans hat.1, (h j hj).2.trans hat.2⟩

theorem back_at (m : Machine) (k : Kern) (h : k.curenv = some a) : (m.back j k).At j .user (some a) := by
  simp [Machine.At, Machine.back, h]

/-- The event `ev` on processor `i` leads to `m'` and leaves the family as said. -/
structure FamilyStep (cfg : BootConfig) (k₀ : Pmap) (m : Machine) (ev : Event) (i n a : ℕ)
    (st : EnvStatus) (id : Word) (m' : Machine) : Prop where
  step : (jos cfg).step m ev m'
  family : Family cfg k₀ n a st id m'
  cpus : m.SameCpus i m'

variable {cfg : BootConfig} {M : ℕ → Prop} {k₀ p : Pmap} {k k₁ k₂ : Kern} {n a j e : ℕ}
  {st : EnvStatus} {id : Word} {m : Machine} {r : ℤ}

/-- The first program, before it has a child. -/
theorem NothingElse.family (h : Solo cfg k₀ n m) (hn : NothingElse m) :
    ∃ a id, Family cfg k₀ n a .free id m := by
  obtain ⟨a, hlist⟩ := hn.list
  obtain ⟨l, hl, hfree⟩ := h.inv.freeEnvs
  cases l with
  | nil =>
    rw [IsChain.nil_iff.1 hl] at hlist
    cases hlist
  | cons b l =>
    obtain rfl : b = a := Option.mem_unique hl.1 hlist
    obtain ⟨hlt, hdir⟩ := hfree b (List.mem_cons_self ..)
    have hne : b ≠ 0 := by
      rintro rfl
      obtain ⟨d, hd⟩ := h.dir
      rw [hdir] at hd
      cases hd
    exact ⟨b, _, h, hne, hlt, fun e he _ => hn.free e he, hn.free b hne, rfl, fun _ => hlist,
      fun hst => absurd rfl hst⟩

/-! ## Steps of the parent -/

theorem saved_envs_of_ne (tf : Trapframe) (he : e ≠ 0) : (m.saved tf).envs e = m.kern.envs e :=
  update_of_ne he ..

theorem saved_envId (tf : Trapframe) (e : ℕ) :
    ((m.saved tf).envs e).envId = (m.kern.envs e).envId := by
  rw [Machine.saved, saveTf_envs]
  rfl

/-- What the parent's call did to the others is what the next state shows. -/
theorem ranRet_envs (r : ℤ) (hc : k₂.curenv = some 0) (he : e ≠ 0) :
    (ran (k₂.setEnv 0 fun v => v.withRet r) 0).envs e = k₂.envs e := by
  have hcur : (k₂.setEnv 0 fun v => v.withRet r).curenv = some 0 := hc
  rw [ran_envs_of_ne _ he, descheduled_envs, if_neg, setEnv_envs_of_ne _ he]
  rintro ⟨h1, -⟩
  exact he (Option.mem_unique hcur h1).symm

theorem ranRet_envId (r : ℤ) :
    ((ran (k₂.setEnv 0 fun v => v.withRet r) 0).envs 0).envId = (k₂.envs 0).envId := by
  rw [ran_envs_self]
  rfl

/-- **A call of the parent**, whatever it does to slot `a`. -/
theorem Family.call (h : Family cfg k₀ n a st id m) (n' : ℕ) (st' : EnvStatus) (id' : Word)
    (inp : Inputs) (no a1 a2 a3 a4 a5 : Word)
    (hrun : runCall inp (decodeCall no a1 a2 a3 a4 a5) (m.saved (callTf no a1 a2 a3 a4 a5)) =
      .ok r k₂)
    {dirs : ℕ → Option ℕ} (hd : k₂.dirs = dirs) (hinv : KernInv (Managed cfg k₀) k₀ k₂)
    (hs : Spare (Managed cfg k₀) dirs n' k₂.pm) (hb : Bounded dirs k₂.pm) (hc : k₂.curenv = some 0)
    (hself : k₂.envs 0 = (m.saved (callTf no a1 a2 a3 a4 a5)).envs 0)
    (hothers : ∀ e, e ≠ 0 → e ≠ a → k₂.envs e = m.kern.envs e)
    (hst : (k₂.envs a).envStatus = st') (hid : (k₂.envs a).envId = id')
    (hlist : st' = .free → k₂.envFreeList = some a)
    (hchild : st' ≠ .free → (id' ≠ 0#32 ∧ envx id' = a) ∧
      (k₂.envs a).envParentId = (m.kern.envs 0).envId ∧ ∃ d, dirs a = some d) :
    ∃ m', FamilyStep cfg k₀ m (.trap 0 inp (callTf no a1 a2 a3 a4 a5)) 0 n' a st' id' m' ∧
      m'.kern.envs a = k₂.envs a ∧ m'.kern.pm = k₂.pm ∧ m'.kern.dirs = dirs := by
  subst hd
  set tf := callTf no a1 a2 a3 a4 a5 with htf
  have hst0 : (k₂.envs 0).envStatus = .running := by
    rw [hself]
    exact (saved_status m tf).trans h.solo.status
  have hd0 : ∃ d, k₂.dirs 0 = some d := by
    obtain ⟨d, hd⟩ := h.solo.dir
    refine ⟨d, ?_⟩
    rw [Kern.dirs, hself]
    exact hd
  obtain ⟨m', hstep, hpm', hd', hsolo, rfl⟩ := h.solo.call inp no a1 a2 a3 a4 a5 hrun hinv hs hc hst0 hd0
  have henv : ∀ e, e ≠ 0 →
      (m.back 0 (ran (k₂.setEnv 0 fun v => v.withRet r) 0)).kern.envs e = k₂.envs e :=
    fun e he => ranRet_envs r hc he
  refine ⟨_, ⟨hstep, ⟨hsolo hb, h.ne, h.lt, fun e he hea => ?_, ?_, ?_, fun hfree => ?_,
    fun hne => ?_⟩, back_sameCpus m 0 _⟩, henv a h.ne, hpm', hd'⟩
  · rw [henv e he, hothers e he hea]
    exact h.others e he hea
  · rw [henv a h.ne, hst]
  · rw [henv a h.ne, hid]
  · exact (ran_envFreeList ..).trans (hlist hfree)
  · obtain ⟨hname, hpar, hdir⟩ := hchild hne
    refine ⟨hname, ?_, ?_⟩
    · rw [henv a h.ne, hpar]
      refine ((ranRet_envId r).trans ?_).symm
      rw [hself]
      exact saved_envId tf 0
    · rw [Kern.dirs, henv a h.ne]
      exact hdir

/-- The parent's calls name the child. -/
theorem Family.names (h : Family cfg k₀ n a st id m) (hst : st ≠ .free) (cp : Bool) (tf : Trapframe) :
    Names (m.saved tf) id cp a := by
  obtain ⟨⟨h0, hx⟩, hpar, -⟩ := h.child hst
  refine Or.inr ⟨h0, hx.symm, ?_, ?_, fun _ => Or.inr ⟨0, h.solo.cpu, ?_⟩⟩
  · rw [saved_envs_of_ne tf h.ne, h.status]
    exact hst
  · rw [saved_envs_of_ne tf h.ne, h.envId]
  · rw [saved_envs_of_ne tf h.ne, hpar, saved_envId]

/-- **`sys_exofork`** by the parent. -/
theorem Family.fork (h : Family cfg k₀ (n + 1) a .free id m) (inp : Inputs) : ∃ m',
    FamilyStep cfg k₀ m (.trap 0 inp (callTf 7#32 0#32 0#32 0#32 0#32 0#32)) 0 n a .notRunnable
      (nextEnvId id a) m' := by
  set tf := callTf 7#32 0#32 0#32 0#32 0#32 0#32 with htf
  have hdd := saved_dirs m tf
  have hlist : (m.saved tf).envFreeList = some a := h.list rfl
  set k := m.saved tf with hkdef
  obtain ⟨d, p, hrun, hmade, hnone, hinv⟩ : ∃ d p,
      sysExofork k = .ok (nextEnvId (k.envs a).envId a).toInt (forked k 0 a d p) ∧
      SpaceMade (Managed cfg k₀) k.dirs k.pm a d p ∧ k.dirs a = none ∧
      KernInv (Managed cfg k₀) k₀ (forked k 0 a d p) := by
    rcases sysExofork_run (h.solo.saved_inv tf) h.solo.boot.half h.solo.cpu with
      ⟨r, -, -, hwhy⟩ | ⟨e, d, p, heq, hhead, -, hnone, hmade, hinv⟩
    · rcases hwhy with hempty | hfull
      · rw [hlist] at hempty
        cases hempty
      · obtain ⟨r, hM, h0⟩ := h.solo.spare.exists
        exact absurd (by rw [hdd]; exact h0) (hfull r hM)
    · obtain rfl : e = a := Option.mem_unique hhead hlist
      exact ⟨d, p, heq, hmade, hnone, hinv⟩
  rw [hdd] at hmade
  have hself : ((forked k 0 a d p).envs a).envStatus = .notRunnable ∧
      ((forked k 0 a d p).envs a).envId = nextEnvId (k.envs a).envId a ∧
      ((forked k 0 a d p).envs a).envParentId = (k.envs 0).envId := by
    simp [forked, setEnv_envs_self, afterAlloc]
  obtain ⟨m', hm', -⟩ := h.call n .notRunnable (nextEnvId id a) inp 7#32 0#32 0#32 0#32 0#32 0#32
    hrun forked_dirs hinv
    (by rw [hdd] at hnone ⊢; exact hmade.spare h.lt hnone h.solo.spare)
    (by rw [hdd]; exact hmade.bounded h.solo.bounded) h.solo.cpu (forked_envs_of_ne h.ne.symm)
    (fun e he hea => by rw [forked_envs_of_ne hea, hkdef, saved_envs_of_ne tf he])
    hself.1 (by rw [hself.2.1, hkdef, saved_envs_of_ne tf h.ne, h.envId]) (by simp)
    (fun _ => ⟨⟨nextEnvId_ne_zero _ _, envx_nextEnvId h.lt⟩, by
      rw [hself.2.2]
      exact saved_envId tf 0, d, update_self ..⟩)
  exact ⟨m', hm'⟩

/-- A call of the parent that assigns to fields of the child. -/
theorem Family.touch (h : Family cfg k₀ n a st id m) (hst : st ≠ .free) (st' : EnvStatus)
    (f : Env → Env) (inp : Inputs) (no a1 a2 a3 a4 a5 : Word)
    (hrun : runCall inp (decodeCall no a1 a2 a3 a4 a5) (m.saved (callTf no a1 a2 a3 a4 a5)) =
      .ok r ((m.saved (callTf no a1 a2 a3 a4 a5)).setEnv a f))
    (hst' : (f (m.kern.envs a)).envStatus = st') (hne : st' ≠ .free)
    (hdir : ∀ v, (f v).envPgdir = v.envPgdir) (hlink : ∀ v, (f v).envLink = v.envLink)
    (hid : ∀ v, (f v).envId = v.envId) (hpar : ∀ v, (f v).envParentId = v.envParentId) :
    ∃ m', FamilyStep cfg k₀ m (.trap 0 inp (callTf no a1 a2 a3 a4 a5)) 0 n a st' id m' ∧
      m'.kern.envs a = f (m.kern.envs a) := by
  set tf := callTf no a1 a2 a3 a4 a5 with htf
  have hd : ((m.saved tf).setEnv a f).dirs = m.kern.dirs :=
    (setEnv_dirs_same f (hdir _)).trans (saved_dirs m tf)
  have hea : ((m.saved tf).setEnv a f).envs a = f (m.kern.envs a) := by
    rw [setEnv_envs_self, saved_envs_of_ne tf h.ne]
  obtain ⟨hname, hp, hdd⟩ := h.child hst
  obtain ⟨m', hm', hea', -⟩ := h.call n st' id inp no a1 a2 a3 a4 a5 hrun hd
    ((h.solo.saved_inv tf).setEnv f (hdir _) (hlink _)) h.solo.spare h.solo.bounded h.solo.cpu
    (setEnv_envs_of_ne _ h.ne.symm)
    (fun e he hea => by rw [setEnv_envs_of_ne _ hea, saved_envs_of_ne tf he])
    (by rw [hea, hst']) (by rw [hea, hid, h.envId]) (fun hf => absurd hf hne)
    (fun _ => ⟨hname, by rw [hea, hpar, hp], hdd⟩)
  exact ⟨m', hm', hea'.trans hea⟩

/-- **`sys_env_set_status`** of the child by the parent. -/
theorem Family.setStatus (h : Family cfg k₀ n a st id m) (hst : st ≠ .free) (inp : Inputs)
    (status : Word) (st' : EnvStatus) (hs : statusArg status = some st') (hne : st' ≠ .free) :
    ∃ m', FamilyStep cfg k₀ m (.trap 0 inp (callTf 8#32 id status 0#32 0#32 0#32)) 0 n a st' id m' := by
  obtain ⟨m', hm', -⟩ := h.touch hst st' (fun v => { v with envStatus := st' }) inp 8#32 id status
    0#32 0#32 0#32 (r := 0) (by
      show sysEnvSetStatus id status _ = _
      rw [sysEnvSetStatus, hs]
      simp only
      rw [bind_ok (envid2env_of_names (h.names hst true _))]
      rfl) rfl hne (fun _ => rfl) (fun _ => rfl) (fun _ => rfl) fun _ => rfl
  exact ⟨m', hm'⟩

theorem sysEnvDestroy_ok (hn : Names k id true a) (hdest : envDestroy a k = .ok () k₂) :
    sysEnvDestroy id k = .ok 0 k₂ := by
  rw [sysEnvDestroy, bind_ok (envid2env_of_names hn)]
  simp only
  rw [bind_ok hdest, pure_apply]

/-- **`sys_env_destroy`** of a child that runs on another processor: it is dying. -/
theorem Family.condemn (h : Family cfg k₀ n a .running id m) (inp : Inputs) : ∃ m',
    FamilyStep cfg k₀ m (.trap 0 inp (callTf 3#32 id 0#32 0#32 0#32 0#32)) 0 n a .dying id m' := by
  obtain ⟨m', hm', -⟩ := h.touch nofun .dying
    (fun v => { v with envStatus := .dying }) inp 3#32 id 0#32 0#32 0#32 0#32 (r := 0) (by
      set tf := callTf 3#32 id 0#32 0#32 0#32 0#32
      have hrun : ((m.saved tf).envs a).envStatus = .running ∧ (m.saved tf).curenv ≠ some a := by
        refine ⟨by rw [saved_envs_of_ne tf h.ne, h.status], fun hc => ?_⟩
        exact h.ne (Option.mem_unique h.solo.cpu hc).symm
      refine sysEnvDestroy_ok (h.names nofun true tf) ?_
      rw [envDestroy, read_bind]
      simp only [Function.id_def]
      rw [if_pos hrun]
      rfl) rfl nofun (fun _ => rfl) (fun _ => rfl) (fun _ => rfl) fun _ => rfl
  exact ⟨m', hm'⟩

/-- Pages that were free still are when an address space has been taken apart. -/
theorem SpaceGone.spare {dirs : ℕ → Option ℕ} {p' : Pmap} (h : SpaceGone M dirs p e p')
    (hp : PageInv M dirs p) (hs : Spare M dirs n p) : Spare M (update dirs e none) n p' := by
  obtain ⟨s, hcard, hfree⟩ := hs
  refine ⟨s, hcard, fun r hr => ⟨(hfree r hr).1, ?_⟩⟩
  obtain ⟨h1, h2, h3⟩ := hp.wf.refs_eq_zero.1 (hfree r hr).2
  have hnone : ∀ d, (view (update dirs e none) p').table (e, d) = none := fun d =>
    view_table_none (update_self ..)
  refine h.inv.wf.refs_eq_zero.2 ⟨fun x hx => ?_, fun x hx => ?_, fun e' he' => ?_⟩
  · by_cases hxe : x.1 = e
    · obtain ⟨e', d, t⟩ := x
      obtain rfl : e' = e := hxe
      rw [page, view_pte_none (hnone d)] at hx
      cases hx
    · rw [page, h.pte x hxe] at hx
      exact h1 x hx
  · by_cases hxe : x.1 = e
    · obtain ⟨e', d⟩ := x
      obtain rfl : e' = e := hxe
      rw [hnone d] at hx
      cases hx
    · rw [h.table x hxe] at hx
      exact h2 x hx
  · rw [view_dir] at he'
    by_cases hee : e' = e
    · rw [hee, update_self] at he'
      cases he'
    · rw [update_of_ne hee] at he'
      exact h3 e' he'

/-- **`sys_env_destroy`** of a child that is dying: it is freed at once. -/
theorem Family.destroy (h : Family cfg k₀ n a .dying id m) (inp : Inputs) : ∃ m',
    FamilyStep cfg k₀ m (.trap 0 inp (callTf 3#32 id 0#32 0#32 0#32 0#32)) 0 n a .free id m' := by
  set tf := callTf 3#32 id 0#32 0#32 0#32 0#32 with htf
  have hk := h.solo.saved_inv tf
  have hdd := saved_dirs m tf
  obtain ⟨-, -, d, hd⟩ := h.child nofun
  have hcur : (m.saved tf).curenv ≠ some a := fun hc =>
    h.ne (Option.mem_unique h.solo.cpu hc).symm
  obtain ⟨p, hfree, hgone, hinv⟩ := envFree_spec hk (by rw [hdd]; exact h.solo.bounded)
    (show (m.saved tf).dirs a = some d by rw [hdd]; exact hd)
  set k₂ := afterFree (m.saved tf) a p with hk2
  have hself : k₂.envs a = { (m.saved tf).envs a with
      envPgdir := none, envStatus := .free, envLink := (m.saved tf).envFreeList } :=
    update_self ..
  have hother : ∀ e, e ≠ a → k₂.envs e = (m.saved tf).envs e := fun e he => update_of_ne he ..
  have hdest : envDestroy a (m.saved tf) = .ok () k₂ := by
    rw [envDestroy, read_bind]
    simp only [Function.id_def]
    rw [if_neg, bind_ok hfree, if_neg hcur, pure_apply]
    rintro ⟨hrun, -⟩
    rw [saved_envs_of_ne tf h.ne, h.status] at hrun
    cases hrun
  obtain ⟨m', hm', -⟩ := h.call n .free id inp 3#32 id 0#32 0#32 0#32 0#32
    (sysEnvDestroy_ok (h.names nofun true tf) hdest) (afterFree_dirs p) hinv
    (hgone.spare hk.pages (by rw [hdd]; exact h.solo.spare)) hgone.bounded h.solo.cpu
    (hother 0 h.ne.symm) (fun e he hea => by rw [hother e hea, saved_envs_of_ne tf he]) (by rw [hself])
    (by rw [hself]; exact (saved_envId tf a).trans h.envId) (fun _ => rfl) (fun hf => absurd rfl hf)
  exact ⟨m', hm'⟩

/-- The child after a message from the parent. -/
def Env.given (v : Env) (sender value perm : Word) : Env :=
  { v with
    envIpcPerm := perm, envIpcRecving := false, envIpcFrom := sender, envIpcValue := value
    envStatus := .runnable
    envTf := { v.envTf with regs := { v.envTf.regs with eax := 0#32 } } }

/-- A message to an environment that waits for one arrives when its page, if there
is one, has been handed over. -/
theorem sysIpcTrySend_ok {inp : Inputs} {value srcva perm : Word} (hn : Names k id false a)
    (hrec : (k.envs a).envIpcRecving = true) (htransfer : ipcTransfer inp a srcva perm k = .ok 0 k₁)
    (hc : k₁.curenv = some 0) :
    sysIpcTrySend inp id value srcva perm k = .ok 0 (delivered k₁ a 0 value) := by
  rw [sysIpcTrySend, bind_ok (envid2env_of_names hn)]
  simp only
  rw [read_bind, hrec, if_neg (by decide), bind_ok htransfer, if_neg (by decide),
    bind_ok (ipcDeliver_ok hc), pure_apply]

/-- **`sys_ipc_try_send`** of a value to a child that waits for one. -/
theorem Family.send (h : Family cfg k₀ n a st id m) (hst : st ≠ .free)
    (hrec : (m.kern.envs a).envIpcRecving = true) (inp : Inputs) (value : Word) :
    ∃ m', FamilyStep cfg k₀ m (.trap 0 inp (callTf 12#32 id value utop 0#32 0#32)) 0 n a .runnable
        id m' ∧
      m'.kern.envs a =
        (m.kern.envs a).given (m.kern.envs 0).envId value (m.kern.envs a).envIpcPerm ∧
      ∃ k₂, runCall inp (.ipcTrySend id value utop 0#32)
        (m.saved (callTf 12#32 id value utop 0#32 0#32)) = .ok 0 k₂ := by
  set tf := callTf 12#32 id value utop 0#32 0#32 with htf
  have hsend : runCall inp (.ipcTrySend id value utop 0#32) (m.saved tf) =
      .ok 0 ((m.saved tf).setEnv a fun v =>
        v.given (m.kern.envs 0).envId value v.envIpcPerm) := by
    refine sysIpcTrySend_ok (h.names hst false tf) ?_ ?_ h.solo.cpu
    · rw [saved_envs_of_ne tf h.ne]
      exact hrec
    · rw [ipcTransfer, if_neg (by decide), pure_apply]
  obtain ⟨m', hm', hea⟩ := h.touch hst .runnable _ inp 12#32 id value utop 0#32
    0#32 hsend rfl (by decide) (fun _ => rfl) (fun _ => rfl) (fun _ => rfl) fun _ => rfl
  exact ⟨m', hm', hea, _, hsend⟩

/-- The parent has a page at `va` that it may write, mapped nowhere else. -/
def OwnPage (m : Machine) (va : Word) (pp : ℕ) : Prop :=
  (view m.kern.dirs m.kern.pm).pte (slot 0 va) = mkPte pp 7#32 ∧
    (view m.kern.dirs m.kern.pm).page (slot 0 va) = some pp ∧
    (view m.kern.dirs m.kern.pm).mapCount pp ≤ 1

/-- A call of the parent that changes its memory only. -/
theorem Family.remap (h : Family cfg k₀ n a st id m) (n' : ℕ) (inp : Inputs)
    (no a1 a2 a3 a4 a5 : Word)
    (hrun : runCall inp (decodeCall no a1 a2 a3 a4 a5) (m.saved (callTf no a1 a2 a3 a4 a5)) =
      .ok r { m.saved (callTf no a1 a2 a3 a4 a5) with pm := p })
    (hp : PageInv (Managed cfg k₀) m.kern.dirs p)
    (hkeep : Keeps (Managed cfg k₀) m.kern.dirs m.kern.pm p)
    (hs : Spare (Managed cfg k₀) m.kern.dirs n' p) (hb : Bounded m.kern.dirs p) :
    ∃ m', FamilyStep cfg k₀ m (.trap 0 inp (callTf no a1 a2 a3 a4 a5)) 0 n' a st id m' ∧
      m'.kern.envs a = m.kern.envs a ∧ m'.kern.pm = p ∧ m'.kern.dirs = m.kern.dirs := by
  set tf := callTf no a1 a2 a3 a4 a5 with htf
  have hd : (m.saved tf).dirs = m.kern.dirs := saved_dirs m tf
  have hea : (m.saved tf).envs a = m.kern.envs a := saved_envs_of_ne tf h.ne
  obtain ⟨m', hm', hea', hpm'⟩ := h.call n' st id inp no a1 a2 a3 a4 a5 hrun hd
    ((h.solo.saved_inv tf).withPages (by rw [hd]; exact hp) (by rw [hd]; exact hkeep)) hs hb
    h.solo.cpu rfl (fun e he _ => saved_envs_of_ne tf he) (by rw [hea]; exact h.status)
    (by rw [hea]; exact h.envId) h.list (fun hne => by rw [hea]; exact h.child hne)
  exact ⟨m', hm', hea'.trans hea, hpm'⟩

/-- **`sys_page_alloc`** by the parent, with a page to spare for the page table. -/
theorem Family.alloc (h : Family cfg k₀ (n + 2) a st id m) (inp : Inputs) (va : Word)
    (hva : ¬ BadVa va) : ∃ m' pp,
      FamilyStep cfg k₀ m (.trap 0 inp (callTf 4#32 0#32 va 7#32 0#32 0#32)) 0 n a st id m' ∧
      m'.kern.envs a = m.kern.envs a ∧ OwnPage m' va pp := by
  set tf := callTf 4#32 0#32 va 7#32 0#32 0#32 with htf
  have hd := saved_dirs m tf
  obtain ⟨d, hdir⟩ := h.solo.dir
  obtain ⟨pp, p1, p2, hrun, hf, hmap, hb, hs⟩ := sysPageAlloc_succeeds (K := m.saved tf) (n := n)
    (h.solo.saved_inv tf) (by rw [hd]; exact h.solo.bounded) (by rw [hd]; exact h.solo.spare)
    (Or.inl ⟨rfl, h.solo.cpu⟩) (by rw [hd]; exact hdir) hva (show LowPerm 7#32 by decide) (by decide)
  rw [hd] at hf hmap hb hs
  obtain ⟨m', hm', hea, hpm', hd'⟩ := h.remap n inp 4#32 0#32 va 7#32 0#32 0#32 hrun
    hmap.inv (hf.keeps.trans hmap.keeps) hs hb
  refine ⟨m', pp, hm', hea, ?_⟩
  rw [OwnPage, hpm', hd']
  refine ⟨hmap.pte_self, hmap.page_self, ?_⟩
  have hcount := hmap.mapCount (by decide) (pdx_lt_of_not_badVa hva) pp
  rw [if_pos rfl, hf.mapCount] at hcount
  omega

/-- **`sys_ipc_try_send`** of a page to a child that waits for one. -/
theorem Family.sendPage (h : Family cfg k₀ (n + 1) a st id m) (hst : st ≠ .free)
    (hrec : (m.kern.envs a).envIpcRecving = true) (hdst : (m.kern.envs a).envIpcDstva < utop)
    {va : Word} {pp : ℕ} (hva : ¬ BadVa va) (hown : OwnPage m va pp) (inp : Inputs) (value : Word) :
    ∃ m', FamilyStep cfg k₀ m (.trap 0 inp (callTf 12#32 id value va 7#32 0#32)) 0 n a .runnable
        id m' ∧
      m'.kern.envs a = (m.kern.envs a).given (m.kern.envs 0).envId value 7#32 ∧
      ∃ k₂, runCall inp (.ipcTrySend id value va 7#32)
        (m.saved (callTf 12#32 id value va 7#32 0#32)) = .ok 0 k₂ := by
  set tf := callTf 12#32 id value va 7#32 0#32 with htf
  obtain ⟨hpte, hpg, hcount⟩ := hown
  have hk := h.solo.saved_inv tf
  have hdd : (m.saved tf).dirs = m.kern.dirs := saved_dirs m tf
  have hea : (m.saved tf).envs a = m.kern.envs a := saved_envs_of_ne tf h.ne
  obtain ⟨hname, hpar, da, hda⟩ := h.child hst
  obtain ⟨d, hd⟩ := h.solo.dir
  have hsrc : va < utop := BitVec.not_le.1 fun hle => hva (Or.inl hle)
  have hal : ¬ va ≠ roundDown va := fun hne => hva (Or.inr (Ne.symm hne))
  have hdlt := pdx_lt_nupde hdst
  obtain ⟨q, -, hq, hlook⟩ := pageLookup_some h.solo.inv.pages hd hpg
  obtain ⟨p', hins, hmap⟩ : ∃ p', pageInsert da pp (m.kern.envs a).envIpcDstva 7#32 m.kern.pm =
      .ok 0 p' ∧ Mapped (Managed cfg k₀) m.kern.dirs m.kern.pm a pp (m.kern.envs a).envIpcDstva 7#32
        p' := by
    rcases insert_mapped h.solo.inv.pages h.solo.bounded hda hdlt hpg (show LowPerm 7#32 by decide) with
      ⟨-, hfull⟩ | hmap
    · obtain ⟨r, hM, h0⟩ := h.solo.spare.exists
      exact absurd h0 (hfull r hM)
    · exact hmap
  set k1 : Kern := ({ m.saved tf with pm := p' } : Kern).setEnv a fun v =>
    { v with envIpcPerm := 7#32 } with hk1
  have hself : (delivered k1 a 0 value).envs a =
      (m.kern.envs a).given (m.kern.envs 0).envId value 7#32 := by
    have h1 : k1.envs a = { m.kern.envs a with envIpcPerm := 7#32 } := by
      rw [setEnv_envs_self]
      rw [hea]
    have h0 : (k1.envs 0).envId = (m.kern.envs 0).envId := by
      rw [setEnv_envs_of_ne _ h.ne.symm]
      exact saved_envId tf 0
    rw [delivered, setEnv_envs_self, h1, h0]
    rfl
  have hother : ∀ e, e ≠ a → (delivered k1 a 0 value).envs e = (m.saved tf).envs e := fun e he => by
    rw [delivered, setEnv_envs_of_ne _ he, setEnv_envs_of_ne _ he]
  have hdirs : (delivered k1 a 0 value).dirs = m.kern.dirs := by
    rw [delivered, setEnv_dirs_same _ rfl, setEnv_dirs_same _ rfl]
    exact hdd
  have hsend : runCall inp (.ipcTrySend id value va 7#32) (m.saved tf) =
      .ok 0 (delivered k1 a 0 value) := by
    have hw : (m.saved tf).pm.mem q (ptx va) = mkPte pp 7#32 := hq.trans hpte
    have hbits : mkPte pp 7#32 &&& 7#32 = 7#32 := by
      rw [mkPte_and (by decide)]
      decide
    have hpage : ipcSendPage inp a va 7#32 (m.saved tf) = .ok 0 k1 := by
      have hd0 : (m.saved tf).dirs 0 = some d := (congrFun hdd 0).trans hd
      have hda' : (m.saved tf).dirs a = some da := (congrFun hdd a).trans hda
      have hcur : (m.saved tf).curenv = some 0 := h.solo.cpu
      have hread : readPte inp (some (pp, (q, ptx va))) (m.saved tf) =
          .ok (mkPte pp 7#32) (m.saved tf) := by
        rw [← hw]
        rfl
      have hlook' : pmap (pageLookup d va) (m.saved tf) = .ok (some (pp, (q, ptx va))) (m.saved tf) :=
        pmap_ok (k := m.saved tf) hlook
      rw [ipcSendPage, bind_ok (thisenv_some hcur), bind_ok (pgdirOf_some hd0), bind_ok hlook',
        if_neg hal, bind_ok hread,
        if_neg (by rw [BitVec.and_assoc, BitVec.and_self, hbits]; exact fun hne => hne rfl)]
      simp only
      rw [if_neg (fun hh => by
          rw [mkPte_and (by decide)] at hh
          exact absurd hh.2 (by decide)), read_bind, hea, if_pos hdst,
        bind_ok (pgdirOf_some hda'), bind_ok (pmap_ok (k := m.saved tf) hins), if_neg (by decide),
        modifyEnv, modify_bind, pure_apply]
    refine sysIpcTrySend_ok (h.names hst false tf) ?_ ?_ h.solo.cpu
    · rw [hea]
      exact hrec
    · rw [ipcTransfer, if_pos hsrc, hpage]
  obtain ⟨m', hm', hea', -⟩ := h.call n .runnable id inp 12#32 id value va 7#32 0#32 hsend hdirs
    (((hk.withPages (by rw [hdd]; exact hmap.inv) (by rw [hdd]; exact hmap.keeps)).setEnv _ rfl
      rfl).setEnv _ rfl rfl)
    (by
      obtain ⟨s, hcard, hfree⟩ := h.solo.spare
      refine hmap.spare h.solo.inv.pages.wf hcard fun r hr => ⟨(hfree r hr).1, (hfree r hr).2, ?_⟩
      rintro rfl
      exact (h.solo.inv.pages.wf.refs_eq_zero.1 (hfree r hr).2).1 _ hpg)
    (hmap.bounded h.lt hdlt h.solo.bounded (by omega)) h.solo.cpu (hother 0 h.ne.symm)
    (fun e he hee => by rw [hother e hee, saved_envs_of_ne tf he]) (by rw [hself]; rfl)
    (by rw [hself]; exact h.envId) (by simp)
    (fun _ => ⟨hname, by rw [hself]; exact hpar, da, hda⟩)
  exact ⟨m', hm', hea'.trans hself, _, hsend⟩

/-! ## Steps of other processors -/

/-- A processor other than 0 leaves the kernel and has changed only slot `a`. -/
theorem Family.back {k' : Kern} (h : Family cfg k₀ n a st id m) (hj : j ≠ 0)
    (hst : st ≠ .free) (st' : EnvStatus) (hst' : st' ≠ .free)
    (hinv : KernInv (Managed cfg k₀) k₀ k') (hpm : k'.pm = m.kern.pm)
    (hother : ∀ e, e ≠ a → k'.envs e = m.kern.envs e) (hstatus : (k'.envs a).envStatus = st')
    (hid : (k'.envs a).envId = (m.kern.envs a).envId)
    (hpar : (k'.envs a).envParentId = (m.kern.envs a).envParentId)
    (hdir : (k'.envs a).envPgdir = (m.kern.envs a).envPgdir) :
    Family cfg k₀ n a st' id (m.back j k') := by
  have hcpus := back_sameCpus m j k'
  have h0 : k'.envs 0 = m.kern.envs 0 := hother 0 h.ne.symm
  have hdirs : k'.dirs = m.kern.dirs := by
    funext e
    by_cases he : e = a
    · rw [he]
      exact hdir
    · exact congrArg Env.envPgdir (hother e he)
  obtain ⟨hname, hp, hd⟩ := h.child hst
  refine ⟨⟨h.solo.boot, hinv, ?_, ?_, (hcpus 0 hj.symm).1.trans h.solo.mode,
    (hcpus 0 hj.symm).2.trans h.solo.cpu, ?_, ?_⟩, h.ne, h.lt, fun e he hea => ?_, hstatus,
    hid.trans h.envId, fun hf => absurd hf hst', fun _ => ⟨hname, ?_, ?_⟩⟩
  · show Bounded k'.dirs k'.pm
    rw [hdirs, hpm]
    exact h.solo.bounded
  · show Spare _ k'.dirs n k'.pm
    rw [hdirs, hpm]
    exact h.solo.spare
  · show (k'.envs 0).envStatus = _
    rw [h0]
    exact h.solo.status
  · show ∃ d, k'.dirs 0 = some d
    rw [hdirs]
    exact h.solo.dir
  · show (k'.envs e).envStatus = _
    rw [hother e hea]
    exact h.others e he hea
  · show (k'.envs a).envParentId = (k'.envs 0).envId
    rw [h0, hpar, hp]
  · show ∃ d, k'.dirs a = some d
    rw [hdirs]
    exact hd

/-- No slot other than that of the child is runnable. -/
theorem Family.not_runnable (h : Family cfg k₀ n a st id m) (hea : e ≠ a) :
    (m.kern.envs e).envStatus ≠ .runnable := by
  by_cases h0 : e = 0
  · rw [h0, h.solo.status]
    nofun
  · rw [h.others e h0 hea]
    nofun

/-- The child does not run any more, and the processor halts. -/
theorem Family.halts {α : Type} (h : Family cfg k₀ n a st id m) (hcur : k.curenv = some a)
    (hka : (k.envs a).envStatus = .notRunnable) (hke : ∀ e, e ≠ a → k.envs e = m.kern.envs e) :
    (schedYield : KernM α) k = .leave { k with curenv := none } := by
  refine schedYield_halts (e := 0) (by decide) ?_ (fun e he => ?_) fun c hc hst => ?_
  · rw [hke 0 h.ne.symm]
    exact h.solo.status
  · by_cases hea : e = a
    · rw [hea, hka] at he
      cases he
    · rw [hke e hea] at he
      exact h.not_runnable hea he
  · obtain rfl : a = c := Option.mem_unique hcur hc
    rw [hka] at hst
    cases hst

theorem Family.not_dying (h : Family cfg k₀ n a st id m) (hst : st ≠ .dying) (j : ℕ) :
    ((m.on j).envs a).envStatus ≠ .dying := by
  show (m.kern.envs a).envStatus ≠ _
  rw [h.status]
  exact hst

section

variable (h : Family cfg k₀ n a .runnable id m) (hj : j ≠ 0)

include h hj

/-- The child is the only environment that a processor can pick. -/
theorem Family.picked (hcpu : ∀ c, m.cpuEnv j = some c → c = a) (tf : Trapframe) : ∃ k',
    (schedYield : KernM Unit) ((m.on j).saveTf a tf) = .leave k' ∧ k'.curenv = some a ∧
      Family cfg k₀ n a .running id (m.back j k') ∧
      k'.envs a = { m.kern.envs a with
        envTf := tf, envStatus := .running, envRuns := (m.kern.envs a).envRuns + 1#32 } := by
  obtain ⟨hname, hpar, d, hd⟩ := h.child (by decide)
  set k := (m.on j).saveTf a tf with hk
  have hka : k.envs a = { m.kern.envs a with envTf := tf } := update_self ..
  have hke : ∀ e, e ≠ a → k.envs e = m.kern.envs e := fun e he => update_of_ne he ..
  have hst : (k.envs a).envStatus = .runnable := by
    rw [hka]
    exact h.status
  have honly : ∀ e, (k.envs e).envStatus = .runnable → e = a := by
    intro e he
    by_contra hea
    rw [hke e hea] at he
    exact h.not_runnable hea he
  have hyield : (schedYield : KernM Unit) k = .leave (ran k a) :=
    schedYield_only h.lt hst honly ((congrFun saveTf_dirs a).trans hd)
  have hother : ∀ e, e ≠ a → (ran k a).envs e = m.kern.envs e := by
    intro e he
    rw [ran_envs_of_ne _ he, descheduled_envs, if_neg, hke e he]
    rintro ⟨hc, -⟩
    exact he (hcpu e hc)
  have hself : (ran k a).envs a = { m.kern.envs a with
      envTf := tf, envStatus := .running, envRuns := (m.kern.envs a).envRuns + 1#32 } := by
    rw [ran_envs_self, hka]
  have hinv : KernInv (Managed cfg k₀) k₀ (ran k a) := by
    have hsafe : Safe _ k₀ False (schedYield : KernM Unit) k := schedYield_safe
      ⟨(h.solo.inv.withCurenv _ fun e he => (hcpu e he) ▸ h.lt).saveTf a tf, False.elim⟩
    rw [Safe, wp, hyield] at hsafe
    exact hsafe.inv
  refine ⟨ran k a, hyield, rfl, h.back hj (by decide) .running (by decide) hinv (ran_pm ..) hother ?_ ?_ ?_ ?_,
    hself⟩
  all_goals rw [hself]

/-- A processor without an environment picks the child. -/
theorem Family.picked_idle (hcpu : m.cpuEnv j = none) : ∃ k', (schedYield : KernM Unit) (m.on j) = .leave k' ∧
      Family cfg k₀ n a .running id (m.back j k') ∧
      k'.envs a = { m.kern.envs a with
        envStatus := .running, envRuns := (m.kern.envs a).envRuns + 1#32 } ∧
      (m.back j k').At j .user (some a) := by
  obtain ⟨k', hyield, hcur, hfam, hself⟩ := h.picked hj (fun c hc => by rw [hcpu] at hc; cases hc)
    (m.kern.envs a).envTf
  have hsame : (m.on j).saveTf a (m.kern.envs a).envTf = m.on j := saveTf_same ..
  rw [hsame] at hyield
  exact ⟨k', hyield, hfam, hself, back_at m k' hcur⟩

/-- **A processor starts** and picks the child. -/
theorem Family.start (hat : m.At j .boot none) :
    ∃ m', FamilyStep cfg k₀ m (.start j) j n a .running id m' ∧ m'.At j .user (some a) := by
  obtain ⟨k', hyield, hfam, -, hat'⟩ := h.picked_idle hj hat.2
  refine ⟨m.back j k', ⟨⟨hat.1, ?_⟩, hfam, back_sameCpus m j k'⟩, hat'⟩
  simp only [Event.exec, Machine.enter, hyield]

end

/-- **A child is made**, and processor `j` starts and picks it. -/
theorem Family.birth (h : Family cfg k₀ (n + 1) a .free id m) (inp : Inputs) (hj : j ≠ 0)
    (hat : m.At j .boot none) : ∃ m₁ m₂ m₃ id',
      FamilyStep cfg k₀ m (.trap 0 inp (callTf 7#32 0#32 0#32 0#32 0#32 0#32)) 0 n a .notRunnable id'
        m₁ ∧
      FamilyStep cfg k₀ m₁ (.trap 0 inp (callTf 8#32 id' 2#32 0#32 0#32 0#32)) 0 n a .runnable id'
        m₂ ∧
      FamilyStep cfg k₀ m₂ (.start j) j n a .running id' m₃ ∧ m₃.At j .user (some a) := by
  obtain ⟨m₁, h₁⟩ := h.fork inp
  obtain ⟨m₂, h₂⟩ := h₁.family.setStatus nofun inp 2#32 .runnable rfl nofun
  obtain ⟨m₃, h₃, hat₃⟩ := h₂.family.start hj (h₂.cpus.at hj (h₁.cpus.at hj hat))
  exact ⟨m₁, m₂, m₃, _, h₁, h₂, h₃, hat₃⟩

/-- The frame of a timer interrupt in user mode. -/
def timerTf : Trapframe := { callTf 0#32 0#32 0#32 0#32 0#32 0#32 with trapno := 32#32 }

/-- The frame of a timer interrupt in a halted processor. -/
def idleTf : Trapframe := { timerTf with cs := gdKt }

/-- **A timer interrupt** on a halted processor, which picks the child. -/
theorem Family.wake (h : Family cfg k₀ n a .runnable id m) (hj : j ≠ 0)
    (hat : m.At j .halted none) (inp : Inputs) :
    ∃ m', FamilyStep cfg k₀ m (.trap j inp idleTf) j n a .running id m' ∧
      m'.kern.envs a = { m.kern.envs a with
        envStatus := .running, envRuns := (m.kern.envs a).envRuns + 1#32 } ∧
      m'.At j .user (some a) := by
  obtain ⟨k', hyield, hfam, hself, hat'⟩ := h.picked_idle hj hat.2
  refine ⟨m.back j k', ⟨⟨Or.inr ⟨hat.1, rfl⟩, ?_⟩, hfam, back_sameCpus m j k'⟩, hself, hat'⟩
  have htrap : trap inp idleTf (m.on j) = .leave k' := by
    rw [trap, if_neg (by decide), trapDispatch, if_neg (by decide), if_neg (by decide),
      if_neg (by decide), if_neg (by decide), if_pos (by decide), bind_leave hyield]
  simp only [Event.exec, Machine.enter, htrap]

/-- **A timer interrupt** on a processor whose environment is in slot `a` and is
marked runnable: its frame is saved in the slot, and it goes on. -/
theorem Family.tick (h : Family cfg k₀ n a .runnable id m) (hj : j ≠ 0)
    (hat : m.At j .user (some a)) (inp : Inputs) :
    ∃ m', FamilyStep cfg k₀ m (.trap j inp timerTf) j n a .running id m' ∧
      m'.kern.envs a = { m.kern.envs a with
        envTf := timerTf, envStatus := .running, envRuns := (m.kern.envs a).envRuns + 1#32 } := by
  have hu : timerTf.FromUser := by decide
  obtain ⟨k', hyield, -, hfam, hself⟩ := h.picked hj
    (fun c hc => (Option.mem_unique hat.2 hc).symm) timerTf
  refine ⟨m.back j k', ⟨⟨Or.inl ⟨hat.1, hu⟩, ?_⟩, hfam, back_sameCpus m j k'⟩, hself⟩
  have htrap : trap inp timerTf (m.on j) = .leave k' := by
    rw [trap_user timerTf hu hat.2 (h.not_dying nofun j), trapDispatch, if_neg (by decide), if_neg (by decide),
      if_neg (by decide), if_neg (by decide), if_pos (by decide), bind_leave hyield]
  simp only [Event.exec, Machine.enter, htrap]

/-- The frame of `sys_ipc_recv(dstva)`. -/
def recvAt (dstva : Word) : Trapframe := callTf 13#32 dstva 0#32 0#32 0#32 0#32

/-- The frame of `sys_ipc_recv(UTOP)`. -/
def recvTf : Trapframe := callTf 13#32 utop 0#32 0#32 0#32 0#32

/-- **`sys_ipc_recv`** by the child on another processor, which then has nothing to
run. -/
theorem Family.recv (h : Family cfg k₀ n a .running id m) (hj : j ≠ 0)
    (hat : m.At j .user (some a)) (inp : Inputs) (dstva : Word)
    (hdst : ¬ (dstva < utop ∧ dstva ≠ roundDown dstva)) :
    ∃ m', FamilyStep cfg k₀ m (.trap j inp (recvAt dstva)) j n a .notRunnable id m' ∧
      m'.kern.envs a = { m.kern.envs a with
        envTf := recvAt dstva, envIpcRecving := true, envStatus := .notRunnable, envIpcDstva := dstva } ∧
      m'.At j .halted none ∧
      ∃ k', runCall inp (.ipcRecv dstva) ((m.on j).saveTf a (recvAt dstva)) = .leave k' := by
  have hu : (recvAt dstva).FromUser := callTf_fromUser ..
  set k := receiving ((m.on j).saveTf a (recvAt dstva)) a dstva with hk
  have hka : k.envs a = { m.kern.envs a with
      envTf := recvAt dstva, envIpcRecving := true, envStatus := .notRunnable, envIpcDstva := dstva } := by
    rw [hk, receiving, setEnv_envs_self, Kern.saveTf, setEnv_envs_self]
    rfl
  have hke : ∀ e, e ≠ a → k.envs e = m.kern.envs e := fun e he => by
    rw [hk, receiving, setEnv_envs_of_ne _ he, Kern.saveTf, setEnv_envs_of_ne _ he]
    rfl
  have hhalt : (schedYield : KernM ℤ) k = .leave { k with curenv := none } :=
    h.halts hat.2 (by rw [hka]) hke
  have hcall : runCall inp (.ipcRecv dstva) ((m.on j).saveTf a (recvAt dstva)) =
      .leave { k with curenv := none } := by
    show sysIpcRecv dstva _ = _
    rw [sysIpcRecv, if_neg hdst, bind_ok (thisenv_some hat.2)]
    exact hhalt
  have hno : (recvAt dstva).trapno.toNat = tSyscall := rfl
  have htrap : trap inp (recvAt dstva) (m.on j) = .leave { k with curenv := none } := by
    rw [trap_user (recvAt dstva) hu hat.2 (h.not_dying (by decide) j), trapDispatch, hno]
    exact bind_leave (bind_leave hcall)
  have hinv : KernInv (Managed cfg k₀) k₀ { k with curenv := none } :=
    (((h.solo.inv.withCurenv _ fun e he => Option.mem_unique hat.2 he ▸ h.lt).saveTf a
      (recvAt dstva)).setEnv _ rfl rfl).withCurenv none (by simp)
  refine ⟨m.back j { k with curenv := none }, ⟨⟨Or.inl ⟨hat.1, hu⟩, ?_⟩,
    h.back hj (by decide) .notRunnable (by decide) hinv rfl hke ?_ ?_ ?_ ?_, back_sameCpus m j _⟩, hka, ?_, _,
    hcall⟩
  · simp only [Event.exec, Machine.enter, htrap]
  any_goals
    simp only [hka]
  · simp [Machine.At, Machine.back]

end OsLab.Jos
