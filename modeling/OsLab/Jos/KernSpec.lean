import OsLab.Jos.EnvSpec

/-!
# The invariant of the kernel between two calls

`KernInv M k₀ k` is what holds of the kernel state `k` whenever no kernel code
runs, `k₀` being the memory that booting left and `M` the pages it left to the
allocator: the page tables of all environments are accounted for, the kernel's
own memory is what booting made it, every directory has the kernel's upper half,
and the free environments have no directory.

The functions of `env.c` and `sched.c` keep it: `envFree_spec`, `envAlloc_spec`
and `envRun_safe` say how each changes the state, and `schedYield_safe` and
`envDestroy_safe` that they leave it intact and never run into the panic of
`page_free`.
-/

namespace OsLab.Jos

open Exec Spaces Function

/-- What booting must have left in the kernel's memory: a directory that is not
one of the allocator's pages, empty below `UTOP`, whose upper half offers user
mode nothing to write. -/
structure KernelHalf (M : ℕ → Prop) (k₀ : Pmap) : Prop where
  pgdir_unmanaged : ¬ M k₀.kernPgdir
  user_clear : ∀ d < nupde, ¬ Present (k₀.mem k₀.kernPgdir d)
  upper : ∀ d, nupde ≤ d → d ≠ pdx uvpt → Present (k₀.mem k₀.kernPgdir d) →
    ¬ M (pgnum (k₀.mem k₀.kernPgdir d)) ∧
    ∀ t < nptentries,
      k₀.mem (pgnum (k₀.mem k₀.kernPgdir d)) t &&& (pteU ||| pteW) ≠ pteU ||| pteW

/-- The invariant of the kernel state between two calls. -/
structure KernInv (M : ℕ → Prop) (k₀ : Pmap) (k : Kern) : Prop where
  pages : PageInv M k.dirs k.pm
  layout : k₀.SameLayout k.pm
  kernel : ∀ q, ¬ M q → k.pm.mem q = k₀.mem q
  half : ∀ e p d, k.dirs e = some p → nupde ≤ d → k.pm.mem p d =
    if d = pdx uvpt then page2pa p ||| pteP ||| pteU else k₀.mem k₀.kernPgdir d
  freeEnvs : ∃ l, IsChain (fun e => (k.envs e).envLink) k.envFreeList l ∧
    ∀ e ∈ l, e < nenv ∧ k.dirs e = none
  curenv_lt : ∀ c, k.curenv = some c → c < nenv

/-- The invariant together with the bound on mappings, the latter provided that
`T` holds: code that maps a page exceeds the bound when it is exhausted. -/
structure KernOk (M : ℕ → Prop) (k₀ : Pmap) (T : Prop) (k : Kern) : Prop where
  inv : KernInv M k₀ k
  bounded : T → Bounded k.dirs k.pm

/-- Kernel code that keeps the invariant however it ends, unless it panics, and
then not in `page_free`. -/
def Safe (M : ℕ → Prop) (k₀ : Pmap) (T : Prop) {α : Type} (m : KernM α) (k : Kern) : Prop :=
  wp m (fun _ k' => KernOk M k₀ T k') (fun k' => KernOk M k₀ T k') (fun e => e ≠ .pageFree) k

variable {M : ℕ → Prop} {k₀ p : Pmap} {T : Prop} {k : Kern} {e pgdir c e : ℕ} {α β : Type} {tf : Trapframe} {envid : Word}
  {m : PmapM α} {cp : Bool}

/-! ## Running code of `pmap.c` and assigning to environments -/

theorem pmap_ok {a : α} (h : m k.pm = .ok a p) :
    pmap m k = .ok a { k with pm := p } := zoom_ok h

theorem pmap_panic {r : Panic} (h : m k.pm = .panic r) :
    pmap m k = .panic r := by
  rw [pmap, zoom, h]

@[simp] theorem setEnv_curenv (f : Env → Env) : (k.setEnv e f).curenv = k.curenv := rfl

theorem setEnv_envs_self (f : Env → Env) : (k.setEnv e f).envs e = f (k.envs e) :=
  update_self ..

theorem setEnv_envs_of_ne {e' : ℕ} (f : Env → Env) (h : e' ≠ e) :
    (k.setEnv e f).envs e' = k.envs e' :=
  update_of_ne h ..

theorem setEnv_dirs (f : Env → Env) :
    (k.setEnv e f).dirs = update k.dirs e (f (k.envs e)).envPgdir := by
  funext e'
  by_cases h : e' = e
  · subst h
    rw [Kern.dirs, setEnv_envs_self, update_self]
  · rw [Kern.dirs, setEnv_envs_of_ne f h, update_of_ne h, Kern.dirs]

theorem setEnv_dirs_same (f : Env → Env) (h : (f (k.envs e)).envPgdir = (k.envs e).envPgdir) :
    (k.setEnv e f).dirs = k.dirs := by
  rw [setEnv_dirs, h]
  exact update_eq_self e k.dirs

theorem setEnv_link (f : Env → Env) (h : (f (k.envs e)).envLink = (k.envs e).envLink) :
    (fun e' => ((k.setEnv e f).envs e').envLink) = fun e' => (k.envs e').envLink := by
  funext e'
  by_cases he : e' = e
  · subst he
    rw [setEnv_envs_self, h]
  · rw [setEnv_envs_of_ne f he]

namespace KernInv

/-- A page operation that keeps the page invariant keeps the kernel's. -/
theorem withPages (h : KernInv M k₀ k) (hp : PageInv M k.dirs p)
    (hk : Keeps M k.dirs k.pm p) : KernInv M k₀ { k with pm := p } := by
  refine ⟨hp, h.layout.trans hk.layout, fun q hq => (hk.unmanaged q hq).trans (h.kernel q hq), ?_,
    h.freeEnvs, h.curenv_lt⟩
  intro e r d hr hd
  rw [← h.half e r d hr hd]
  exact hk.half e r d hr hd

/-- Assigning to fields other than the directory and the link. -/
theorem setEnv (h : KernInv M k₀ k) (f : Env → Env)
    (hdir : (f (k.envs e)).envPgdir = (k.envs e).envPgdir)
    (hlink : (f (k.envs e)).envLink = (k.envs e).envLink) : KernInv M k₀ (k.setEnv e f) := by
  have hd := setEnv_dirs_same f hdir
  refine ⟨?_, h.layout, h.kernel, ?_, ?_, h.curenv_lt⟩
  · rw [hd]
    exact h.pages
  · rw [hd]
    exact h.half
  · rw [setEnv_link f hlink, hd]
    exact h.freeEnvs

theorem withCurenv (h : KernInv M k₀ k) (c : Option ℕ) (hc : ∀ e, c = some e → e < nenv) :
    KernInv M k₀ { k with curenv := c } :=
  ⟨h.pages, h.layout, h.kernel, h.half, h.freeEnvs, hc⟩

end KernInv

namespace KernOk

theorem setEnv (h : KernOk M k₀ T k) (f : Env → Env)
    (hdir : (f (k.envs e)).envPgdir = (k.envs e).envPgdir)
    (hlink : (f (k.envs e)).envLink = (k.envs e).envLink) : KernOk M k₀ T (k.setEnv e f) := by
  refine ⟨h.inv.setEnv f hdir hlink, ?_⟩
  rw [setEnv_dirs_same f hdir]
  exact h.bounded

theorem withCurenv (h : KernOk M k₀ T k) (c : Option ℕ) (hc : ∀ e, c = some e → e < nenv) :
    KernOk M k₀ T { k with curenv := c } :=
  ⟨h.inv.withCurenv c hc, h.bounded⟩

end KernOk

/-! ## Names of environments -/

theorem envx_or_low {g : Word} (hg : g &&& 0x3FF#32 = 0#32) (he : e < nenv) :
    envx (g ||| BitVec.ofNat 32 e) = e := by
  have he' : e < 2 ^ 10 := he
  have hlow : BitVec.ofNat 32 e &&& 0x3FF#32 = BitVec.ofNat 32 e := by
    refine BitVec.eq_of_toNat_eq ?_
    rw [toNat_and_low10, BitVec.toNat_ofNat]
    omega
  have hsplit : (g ||| BitVec.ofNat 32 e) &&& 0x3FF#32 = BitVec.ofNat 32 e := by
    rw [BitVec.and_comm, BitVec.and_or_distrib_left, BitVec.and_comm, hg, BitVec.zero_or,
      BitVec.and_comm, hlow]
  rw [envx, hsplit, BitVec.toNat_ofNat]
  omega

/-- An identifier names its slot. -/
theorem envx_nextEnvId {old : Word} (he : e < nenv) : envx (nextEnvId old e) = e := by
  refine envx_or_low ?_ he
  split
  · decide
  · rw [BitVec.and_assoc, show ~~~BitVec.ofNat 32 (nenv - 1) &&& 0x3FF#32 = 0#32 by decide,
      BitVec.and_zero]

theorem nextEnvId_ne_zero (old : Word) (e : ℕ) : nextEnvId old e ≠ 0#32 := by
  unfold nextEnvId
  intro h
  rw [BitVec.or_eq_zero_iff] at h
  have h0 := h.1
  split at h0
  · exact absurd h0 (by decide)
  · rename_i hpos
    rw [h0] at hpos
    exact hpos (by decide)

/-- Identifiers are positive as the signed numbers they are. -/
theorem nextEnvId_pos (old : Word) (he : e < nenv) : 0 < (nextEnvId old e).toInt := by
  have hmsb : (nextEnvId old e).msb = false := by
    have hlow : (BitVec.ofNat 32 e).msb = false := by
      rw [BitVec.msb_eq_false_iff_two_mul_lt, BitVec.toNat_ofNat]
      simp only [nenv] at he
      omega
    unfold nextEnvId
    rw [BitVec.msb_or, hlow, Bool.or_false]
    split
    · decide
    · rename_i hpos
      rw [BitVec.msb_eq_toInt, decide_eq_false_iff_not]
      omega
  have h0 : (nextEnvId old e).toInt ≠ 0 := fun h =>
    nextEnvId_ne_zero old e (BitVec.eq_of_toInt_eq (h.trans (by decide)))
  rw [BitVec.msb_eq_toInt, decide_eq_false_iff_not] at hmsb
  omega

/-- `envid` names `e` for the caller, by the rules of `envid2env`. -/
def Names (k : Kern) (envid : Word) (checkperm : Bool) (e : ℕ) : Prop :=
  envid = 0#32 ∧ k.curenv = some e ∨
  envid ≠ 0#32 ∧ e = envx envid ∧ (k.envs e).envStatus ≠ .free ∧ (k.envs e).envId = envid ∧
    (checkperm = true → k.curenv = some e ∨
      ∃ c, k.curenv = some c ∧ (k.envs e).envParentId = (k.envs c).envId)

/-- The trap frame has been copied to `c`. -/
def Kern.saveTf (k : Kern) (c : ℕ) (tf : Trapframe) : Kern :=
  k.setEnv c fun v => { v with envTf := tf }

/-- Nothing but the trap frame has changed. -/
theorem saveTf_envs : (k.saveTf c tf).envs e =
    { k.envs e with envTf := if e = c then tf else (k.envs e).envTf } := by
  by_cases h : e = c
  · subst h
    rw [Kern.saveTf, setEnv_envs_self, if_pos rfl]
  · rw [Kern.saveTf, setEnv_envs_of_ne _ h, if_neg h]

theorem saveTf_dirs : (k.saveTf c tf).dirs = k.dirs :=
  setEnv_dirs_same _ rfl

theorem saveTf_same (k : Kern) : k.saveTf c (k.envs c).envTf = k := by
  have hupd : update k.envs c { k.envs c with envTf := (k.envs c).envTf } = k.envs :=
    update_eq_self ..
  rw [Kern.saveTf, Kern.setEnv, hupd]

theorem KernInv.saveTf (h : KernInv M k₀ k) (c : ℕ) (tf : Trapframe) :
    KernInv M k₀ (k.saveTf c tf) :=
  h.setEnv (fun v => { v with envTf := tf }) rfl rfl

theorem names_saveTf :
    Names (k.saveTf c tf) envid cp e ↔ Names k envid cp e := by
  simp only [Names, saveTf_envs]
  rfl

theorem envid2env_cases (k : Kern) (envid : Word) (cp : Bool) :
    envid2env envid cp k = .panic .nullDeref ∨
    envid2env envid cp k = .ok (.error (-eBadEnv)) k ∨
    ∃ e, envid2env envid cp k = .ok (.ok e) k ∧ Names k envid cp e := by
  rw [envid2env, read_bind]
  by_cases h0 : envid = 0#32
  · simp only [if_pos h0]
    cases hc : k.curenv with
    | none => exact Or.inl (by simp [hc])
    | some c => exact Or.inr (Or.inr ⟨c, by simp [hc], Or.inl ⟨h0, hc⟩⟩)
  · simp only [if_neg h0, id]
    by_cases hbad : (k.envs (envx envid)).envStatus = .free ∨ (k.envs (envx envid)).envId ≠ envid
    · exact Or.inr (Or.inl (by simp only [if_pos hbad, pure_apply]))
    · simp only [if_neg hbad]
      push Not at hbad
      by_cases hperm : cp = true ∧ k.curenv ≠ some (envx envid)
      · simp only [if_pos hperm]
        cases hc : k.curenv with
        | none => exact Or.inl rfl
        | some c =>
          by_cases hpar : (k.envs (envx envid)).envParentId ≠ (k.envs c).envId
          · exact Or.inr (Or.inl (by simp only [if_pos hpar, pure_apply]))
          · refine Or.inr (Or.inr ⟨envx envid, by simp only [if_neg hpar, pure_apply],
              Or.inr ⟨h0, rfl, hbad.1, hbad.2, fun _ => Or.inr ⟨c, hc, ?_⟩⟩⟩)
            exact not_not.1 hpar
      · refine Or.inr (Or.inr ⟨envx envid, by simp only [if_neg hperm, pure_apply],
          Or.inr ⟨h0, rfl, hbad.1, hbad.2, fun hcp => Or.inl ?_⟩⟩)
        by_contra hne
        exact hperm ⟨hcp, hne⟩

theorem envid2env_self (hc : k.curenv = some c) (cp : Bool) :
    envid2env 0#32 cp k = .ok (.ok c) k := by
  rw [envid2env, read_bind]
  simp only [id, hc]
  rfl

theorem envid2env_of_names (h : Names k envid cp e) :
    envid2env envid cp k = .ok (.ok e) k := by
  rcases h with ⟨rfl, hc⟩ | ⟨h0, rfl, hst, hid, hperm⟩
  · exact envid2env_self hc cp
  rw [envid2env, read_bind, if_neg h0]
  simp only [id]
  rw [if_neg (not_or.2 ⟨hst, not_not.2 hid⟩)]
  by_cases hcp : cp = true ∧ k.curenv ≠ some (envx envid)
  · rw [if_pos hcp]
    obtain ⟨c, hc, hpar⟩ := (hperm hcp.1).resolve_left hcp.2
    simp only [hc]
    rw [if_neg (not_not.2 hpar)]
    rfl
  · rw [if_neg hcp]
    rfl

theorem pgdirOf_some (h : k.dirs e = some pgdir) : pgdirOf e k = .ok pgdir k := by
  rw [pgdirOf, read_bind, h]
  rfl

theorem pgdirOf_none (h : k.dirs e = none) : pgdirOf e k = .panic .nullDeref := by
  rw [pgdirOf, read_bind, h]
  rfl

/-! ## Scheduling -/

theorem descheduleCurenv_safe (h : KernOk M k₀ T k) :
    Ok (descheduleCurenv : KernM Unit) (fun _ k' => KernOk M k₀ T k') k := by
  rw [descheduleCurenv]
  unfold Ok
  rw [read_bind]
  simp only [id]
  cases hc : k.curenv with
  | none => exact ⟨(), k, rfl, h⟩
  | some c =>
    simp only
    by_cases hrun : (k.envs c).envStatus = .running
    · rw [when_pos hrun]
      exact ⟨(), _, rfl, h.setEnv _ rfl rfl⟩
    · rw [when_neg hrun]
      exact ⟨(), k, rfl, h⟩

theorem envRun_safe (h : KernOk M k₀ T k) (he : e < nenv) :
    Safe M k₀ T (envRun e : KernM α) k := by
  rw [Safe, envRun, wp_bind]
  refine wp_post (descheduleCurenv_safe h).wp (fun _ k1 h1 => ?_)
  rw [wp_bind, wp_modify, wp_bind, wp_read]
  have h2 : KernOk M k₀ T { k1.setEnv e fun v =>
      { v with envStatus := .running, envRuns := v.envRuns + 1#32 } with curenv := some e } :=
    (h1.setEnv _ rfl rfl).withCurenv (some e) fun e' he' => by cases he'; exact he
  split
  · rw [wp_panic]
    decide
  · exact h2

theorem schedHalt_safe (h : KernOk M k₀ T k) : Safe M k₀ T (schedHalt : KernM α) k := by
  rw [Safe, schedHalt, wp_bind, wp_read]
  split
  · exact h.withCurenv none fun _ hf => by cases hf
  · rw [wp_panic]
    decide

theorem firstRunnable_lt {envs : ℕ → Env} {start j : ℕ} (h : firstRunnable envs start = some j) :
    j < nenv := by
  unfold firstRunnable at h
  obtain ⟨i, -, rfl⟩ := List.mem_map.1 (List.mem_of_find?_eq_some h)
  exact Nat.mod_lt _ (by decide)

/-- The scheduler keeps the invariant. -/
theorem schedYield_safe (h : KernOk M k₀ T k) : Safe M k₀ T (schedYield : KernM α) k := by
  rw [Safe, schedYield, wp_bind, wp_read]
  split
  · rename_i j hj
    exact envRun_safe h (firstRunnable_lt hj)
  · split
    · rename_i c hc
      split
      · exact envRun_safe h (h.inv.curenv_lt c hc)
      · exact schedHalt_safe h
    · exact schedHalt_safe h

/-! ## Destruction -/

/-- The state after `env_free(e)` has left `p` in memory. -/
def afterFree (k : Kern) (e : ℕ) (p : Pmap) : Kern :=
  { k.setEnv e fun v =>
      { v with envPgdir := none, envStatus := .free, envLink := k.envFreeList } with
    pm := p, envFreeList := some e }

theorem afterFree_dirs (p : Pmap) : (afterFree k e p).dirs = update k.dirs e none :=
  setEnv_dirs (k := k) fun v =>
    { v with envPgdir := none, envStatus := .free, envLink := k.envFreeList }

/-- **`env_free`** of an environment that has a directory returns it, and all
that hangs off it, to the allocator. -/
theorem envFree_spec (h : KernInv M k₀ k) (hb : Bounded k.dirs k.pm)
    (hdir : k.dirs e = some pgdir) :
    ∃ p, envFree e k = .ok () (afterFree k e p) ∧ SpaceGone M k.dirs k.pm e p ∧
      KernInv M k₀ (afterFree k e p) := by
  obtain ⟨p, hp, hg⟩ := dropSpace_spec hdir h.pages hb
  -- split the run of `dropSpace` at the point where the pointer is cleared
  obtain ⟨⟨⟩, p1, hp1, hp⟩ := bind_eq_ok.1 (show (freeTables pgdir (pdx utop) 0 >>= fun _ =>
    pa2page (page2pa pgdir) >>= fun pp => pageDecref pp) k.pm = .ok () p from hp)
  obtain ⟨pp, p2, hp2, hp3⟩ := bind_eq_ok.1 hp
  refine ⟨p, ?_, hg, ?_⟩
  · rw [envFree, bind_ok (pgdirOf_some hdir), bind_ok (pmap_ok hp1), modifyEnv,
      modify_bind, bind_ok (pmap_ok hp2), bind_ok (pmap_ok hp3)]
    simp [afterFree, Kern.setEnv]
  · have hd : (afterFree k e p).dirs = update k.dirs e none := afterFree_dirs p
    obtain ⟨l, hl, hfree⟩ := h.freeEnvs
    have hel : e ∉ l := fun hmem => by
      have := (hfree e hmem).2
      rw [hdir] at this
      cases this
    refine ⟨by rw [hd]; exact hg.inv, h.layout.trans hg.keeps.layout,
      fun q hq => (hg.keeps.unmanaged q hq).trans (h.kernel q hq), ?_, ⟨e :: l, ?_, ?_⟩,
      h.curenv_lt⟩
    · intro e' r d hr hnd
      rw [hd] at hr
      have hne : e' ≠ e := by
        rintro rfl
        rw [update_self] at hr
        cases hr
      rw [update_of_ne hne] at hr
      rw [← h.half e' r d hr hnd]
      exact hg.keeps.half e' r d hr hnd
    · have hlink : (fun e' => ((afterFree k e p).envs e').envLink) =
          update (fun e' => (k.envs e').envLink) e k.envFreeList := by
        funext e'
        by_cases he : e' = e
        · subst he
          simp [afterFree, setEnv_envs_self]
        · simp [afterFree, setEnv_envs_of_ne _ he, he]
      rw [hlink]
      exact hl.push hel
    · intro e' he'
      rw [hd]
      rcases List.mem_cons.1 he' with rfl | hmem
      · exact ⟨h.pages.wf.dir_lt hdir, update_self ..⟩
      · have hne : e' ≠ e := fun heq => hel (heq ▸ hmem)
        rw [update_of_ne hne]
        exact hfree e' hmem

theorem envFree_safe (h : KernInv M k₀ k) (hb : Bounded k.dirs k.pm) :
    Safe M k₀ T (envFree e) k := by
  cases hdir : k.dirs e with
  | none =>
    exact wp_of_panic (bind_panic (pgdirOf_none hdir)) nofun
  | some pgdir =>
    obtain ⟨p, hp, hg, hinv⟩ := envFree_spec h hb hdir
    refine wp_of_ok hp ⟨hinv, fun _ => ?_⟩
    rw [afterFree_dirs]
    exact hg.bounded

/-- Destroying an environment keeps the invariant. -/
theorem envDestroy_safe (h : KernInv M k₀ k) (hb : Bounded k.dirs k.pm) :
    Safe M k₀ T (envDestroy e) k := by
  rw [Safe, envDestroy, wp_bind, wp_read]
  split
  · exact (KernOk.mk h fun _ => hb).setEnv _ rfl rfl
  · rw [wp_bind]
    refine wp_post (envFree_safe h hb) (fun _ k1 h1 => ?_)
    split
    · exact schedYield_safe (h1.withCurenv none fun _ hf => by cases hf)
    · exact h1

/-! ## Creation -/

/-- The state after `env_alloc` has set up slot `e` with the directory `d`. -/
def afterAlloc (k : Kern) (parentId : Word) (e d : ℕ) (p : Pmap) : Kern :=
  { k.setEnv e fun v => { v with
      envPgdir := some d
      envId := nextEnvId v.envId e
      envParentId := parentId
      envType := .user
      envStatus := .runnable
      envRuns := 0#32
      envTf := initialTf
      envPgfaultUpcall := 0#32
      envIpcRecving := false } with
    pm := p, envFreeList := (k.envs e).envLink }

theorem afterAlloc_dirs (parentId : Word) {d : ℕ} :
    (afterAlloc k parentId e d p).dirs = update k.dirs e (some d) := by
  funext e'
  by_cases h : e' = e
  · subst h
    simp [afterAlloc, Kern.dirs, setEnv_envs_self]
  · simp [afterAlloc, Kern.dirs, setEnv_envs_of_ne _ h, h]

/-- **`env_alloc`** either fails without a trace or makes an empty address space
for the first free environment. -/
theorem envAlloc_spec (h : KernInv M k₀ k) (hk : KernelHalf M k₀) (parentId : Word) :
    (∃ r < 0, envAlloc parentId k = .ok (.error r) k ∧
      (k.envFreeList = none ∨ ∀ r, M r → (view k.dirs k.pm).refs r ≠ 0)) ∨
    ∃ e d p, envAlloc parentId k = .ok (.ok e) (afterAlloc k parentId e d p) ∧
      k.envFreeList = some e ∧ e < nenv ∧ k.dirs e = none ∧ SpaceMade M k.dirs k.pm e d p ∧
      KernInv M k₀ (afterAlloc k parentId e d p) := by
  obtain ⟨l, hl, hfree⟩ := h.freeEnvs
  cases l with
  | nil =>
    refine Or.inl ⟨-eNoFreeEnv, by decide, ?_, Or.inl (IsChain.nil_iff.1 hl)⟩
    rw [envAlloc, read_bind, IsChain.nil_iff.1 hl]
    rfl
  | cons e l =>
    have hhead : k.envFreeList = some e := hl.1
    obtain ⟨he, hnone⟩ := hfree e (List.mem_cons_self ..)
    have hel : e ∉ l := (List.nodup_cons.1 hl.nodup).1
    rcases alloc_fresh h.pages true with ⟨hfail, hfull⟩ | ⟨d, p1, hsome, hf⟩
    · have hset : envSetupVm e k = .ok (-eNoMem) k := by
        rw [envSetupVm, bind_ok (pmap_ok hfail)]
        rfl
      refine Or.inl ⟨-eNoMem, by decide, ?_, Or.inr hfull⟩
      rw [envAlloc, read_bind, hhead]
      show (envSetupVm e >>= _ : KernM (Except ℤ ℕ)) k = _
      rw [bind_ok hset, if_pos (by decide), pure_apply]
    · have hkd : k.pm.kernPgdir = k₀.kernPgdir := h.layout.kernPgdir
      have hmem : k.pm.mem k.pm.kernPgdir = k₀.mem k₀.kernPgdir := by
        rw [hkd]
        exact h.kernel _ hk.pgdir_unmanaged
      have hmade : SpaceMade M k.dirs k.pm e d (fillSpace d p1) :=
        fillSpace_spec h.pages hf he hnone (by rw [hkd]; exact hk.pgdir_unmanaged)
          (by rw [hmem]; exact hk.user_clear)
      have hlt : d < p1.npages := hf.rep.book.managed_lt hf.managed
      have hpg : pgnum (page2pa d) = d := pgnum_page2pa (h.pages.managed_lt hf.managed)
      refine Or.inr ⟨e, d, fillSpace d p1, ?_, hhead, he, hnone, hmade, ?_⟩
      · have hset : envSetupVm e k = .ok 0 { k.setEnv e fun v => { v with envPgdir := some d } with
            pm := fillSpace d p1 } := by
          rw [envSetupVm, bind_ok (pmap_ok hsome)]
          show (pmap (pageIncref d) >>= _ : KernM ℤ) _ = _
          rw [bind_ok (pmap_ok (pageIncref_apply d p1)),
            bind_ok (pmap_ok (kaddr_ok (by rw [hpg]; exact hlt))), hpg, modifyEnv,
            modify_bind]
          rfl
        rw [envAlloc, read_bind, hhead]
        show (envSetupVm e >>= _ : KernM (Except ℤ ℕ)) k = _
        rw [bind_ok hset, if_neg (by decide), modifyEnv, modify_bind,
          modify_bind]
        simp [afterAlloc, Kern.setEnv]
      · have hd : (afterAlloc k parentId e d (fillSpace d p1)).dirs =
            update k.dirs e (some d) := afterAlloc_dirs ..
        refine ⟨by rw [hd]; exact hmade.inv, h.layout.trans hmade.keeps.layout,
          fun q hq => (hmade.keeps.unmanaged q hq).trans (h.kernel q hq), ?_, ⟨l, ?_, ?_⟩,
          h.curenv_lt⟩
        · intro e' r i hr hi
          rw [hd] at hr
          by_cases hee : e' = e
          · subst hee
            rw [update_self] at hr
            obtain rfl := Option.some.inj hr
            show (fillSpace d p1).mem d i = _
            rw [hmade.half i, hmem]
          · rw [update_of_ne hee] at hr
            rw [← h.half e' r i hr hi]
            exact hmade.keeps.half e' r i hr hi
        · have hlink : ∀ y ∈ l, ((afterAlloc k parentId e d (fillSpace d p1)).envs y).envLink =
              (k.envs y).envLink := by
            intro y hy
            have hye : y ≠ e := fun heq => hel (heq ▸ hy)
            simp [afterAlloc, setEnv_envs_of_ne _ hye]
          exact hl.2.congr hlink
        · intro e' he'
          have hne : e' ≠ e := fun heq => hel (heq ▸ he')
          rw [hd, update_of_ne hne]
          exact hfree e' (List.mem_cons_of_mem _ he')

end OsLab.Jos
