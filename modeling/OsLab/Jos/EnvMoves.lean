import OsLab.Jos.Load
import OsLab.Jos.Sched
import OsLab.Jos.SyscallSpec

/-!
# What kernel code does to the environments

Whatever happens to page tables, the entries of `envs`, the list of free ones and
`curenv` change in few ways, and which of them a system call makes does not depend
on memory.  This module lists them.

* `CallDone` and `CallLeft` are what a system call that returns, or that leaves
  the kernel, has done; `runCall_moves` says that there is nothing else.
* `Leaves` is the way out of the kernel: some environment runs, or the processor
  halts.
* `TrapEnds` puts these together for a trap, and `trap_moves` is the theorem.
* `envCreate_moves` is the same for `env_create`.
-/

namespace OsLab.Jos

open Exec Function

variable {k k' k'' : Kern} {e c rcv e' : ℕ} {α β : Type} {perm : Word}

/-! ## Code of `pmap.c` stays in the kernel -/

section Stays

theorem kaddr_stays {pa : Word} : Stays (kaddr pa) := by
  refine .bind (.read _) fun n => ?_
  split
  · exact .panic _
  · exact .pure _

theorem pa2page_stays (pa : Word) : Stays (pa2page pa) := by
  refine .bind (.read _) fun n => ?_
  split
  · exact .panic _
  · exact .pure _

theorem pageAlloc_stays (zero : Bool) : Stays (pageAlloc zero) := by
  refine .bind (.read _) fun o => ?_
  cases o with
  | none => exact .pure _
  | some pp =>
    refine .bind (.modify _) fun _ => .bind (.modify _) fun _ => ?_
    cases zero with
    | true => exact .bind kaddr_stays fun _ => .bind (.modify _) fun _ => .pure _
    | false => exact .pure _

theorem pageFree_stays (pp : ℕ) : Stays (pageFree pp) := by
  refine .bind (.read _) fun info => ?_
  split
  · exact .panic _
  · exact .modify _

theorem pageDecref_stays (pp : ℕ) : Stays (pageDecref pp) := by
  refine .bind (.modify _) fun _ => .bind (.read _) fun r => ?_
  split
  · exact pageFree_stays pp
  · exact .pure _

theorem pteSlot_stays (pgdir : ℕ) (va : Word) : Stays (pteSlot pgdir va) :=
  .bind (.read _) fun _ => .bind kaddr_stays fun _ => .pure _

theorem pgdirWalk_stays (pgdir : ℕ) (va : Word) (create : Bool) :
    Stays (pgdirWalk pgdir va create) := by
  refine .bind (.read _) fun pde => ?_
  split
  · exact pteSlot_stays pgdir va
  split
  · refine .bind (pageAlloc_stays true) fun o => ?_
    cases o with
    | none => exact .pure _
    | some pp => exact .bind (.modify _) fun _ => .bind (.modify _) fun _ => pteSlot_stays pgdir va
  · exact .pure _

theorem pageLookup_stays (pgdir : ℕ) (va : Word) : Stays (pageLookup pgdir va) := by
  refine .bind (pgdirWalk_stays pgdir va false) fun o => ?_
  cases o with
  | none => exact .pure _
  | some pte =>
    refine .bind (.read _) fun w => ?_
    split
    · exact .pure _
    · exact .bind (pa2page_stays _) fun _ => .pure _

theorem pageRemove_stays {pgdir : ℕ} {va : Word} : Stays (pageRemove pgdir va) := by
  refine .bind (pageLookup_stays pgdir va) fun o => ?_
  cases o with
  | none => exact .pure _
  | some x => exact .bind (pageDecref_stays _) fun _ => .modify _

theorem pageInsert_stays {pgdir pp : ℕ} {va : Word} : Stays (pageInsert pgdir pp va perm) := by
  refine .bind (pgdirWalk_stays pgdir va true) fun o => ?_
  cases o with
  | none => exact .pure _
  | some pte =>
    exact .bind (.modify _) fun _ => .bind (.read _) fun _ => .bind (.when pageRemove_stays)
      fun _ => .bind (.modify _) fun _ => .bind (.modify _) fun _ => .pure _

theorem userMemLoop_stays {pgdir : ℕ} {va : Word} {n : ℕ} {i : Word} :
    Stays (userMemLoop pgdir va perm n i) := by
  induction n generalizing i with
  | zero => exact .pure _
  | succ n ih =>
    refine .bind (pgdirWalk_stays _ _ _) fun pte => .bind (.read _) fun bad => ?_
    split
    · exact .pure _
    · exact ih

theorem kernLoad_stays (pgdir : ℕ) (va : Word) : Stays (kernLoad pgdir va) := by
  refine .bind (.read _) fun o => ?_
  cases o with
  | none => exact .panic _
  | some p => exact .read _

theorem kernStore_stays {pgdir : ℕ} {va : Word} {b : BitVec 8} : Stays (kernStore pgdir va b) := by
  refine .bind (.read _) fun o => ?_
  cases o with
  | none => exact .panic _
  | some p => exact .modify _

theorem kernStoreWords_stays (pgdir : ℕ) (va : Word) (ws : List Word) :
    Stays (kernStoreWords pgdir va ws) := by
  induction ws generalizing va with
  | nil => exact .pure _
  | cons w ws ih =>
    exact .bind (.bind kernStore_stays fun _ => .bind kernStore_stays fun _ =>
      .bind kernStore_stays fun _ => kernStore_stays) fun _ => ih _

theorem printStr_stays {pgdir n : ℕ} {p : Word} {precision : ℤ} :
    Stays (printStr pgdir n p precision) := by
  induction n generalizing p precision with
  | zero => exact .pure _
  | succ n ih =>
    refine .bind (kernLoad_stays pgdir p) fun ch => ?_
    split
    · exact .pure _
    split
    · exact ih
    split
    · exact ih
    · exact .pure _

theorem unmapTable_stays {pgdir pdeno pt n pteno : ℕ} :
    Stays (unmapTable pgdir pdeno pt n pteno) := by
  induction n generalizing pteno with
  | zero => exact .pure _
  | succ n ih => exact .bind (.read _) fun _ => .bind (.when pageRemove_stays) fun _ => ih

theorem freeTables_stays (pgdir n pdeno : ℕ) : Stays (freeTables pgdir n pdeno) := by
  induction n generalizing pdeno with
  | zero => exact .pure _
  | succ n ih =>
    exact .bind (.read _) fun _ => .bind (.when (.bind kaddr_stays fun _ =>
      .bind unmapTable_stays fun _ => .bind (.modify _) fun _ =>
        .bind (pa2page_stays _) fun _ => pageDecref_stays _)) fun _ => ih _

theorem regionLoop_stays (pgdir n : ℕ) (va : Word) : Stays (regionLoop pgdir n va) := by
  induction n generalizing va with
  | zero => exact .pure _
  | succ n ih =>
    refine .bind (pageAlloc_stays false) fun o => ?_
    cases o with
    | none => exact .panic _
    | some pp => exact .bind pageInsert_stays fun _ => ih _

theorem kernFill_stays {pgdir : ℕ} {va : Word} {f : ℕ → BitVec 8} {n : ℕ} :
    Stays (kernFill pgdir va f n) := by
  induction n with
  | zero => exact .pure _
  | succ n ih => exact .bind ih fun _ => kernStore_stays

end Stays

/-! ## Code that touches memory only -/

/-- The same environments, whatever the memory. -/
def SameEnvs (k k' : Kern) : Prop := ∃ p, k' = { k with pm := p }

theorem SameEnvs.refl (k : Kern) : SameEnvs k k := ⟨k.pm, rfl⟩

theorem SameEnvs.trans (h : SameEnvs k k') (h' : SameEnvs k' k'') : SameEnvs k k'' := by
  obtain ⟨p, rfl⟩ := h
  obtain ⟨p', rfl⟩ := h'
  exact ⟨p', rfl⟩

/-- The code returns or panics, and leaves the environments alone. -/
def Quiet (m : KernM α) (k : Kern) : Prop :=
  wp m (fun _ k' => SameEnvs k k') (fun _ => False) (fun _ => True) k

section Rules

variable {Q : β → Kern → Prop} {L : Kern → Prop} {f : ℕ → KernM β} {m : KernM α}

/-- The rule for code that goes on after a change of memory. -/
theorem Quiet.bind {f : α → KernM β} (h : Quiet m k)
    (hf : ∀ a k', SameEnvs k k' → wp (f a) Q L (fun _ => True) k') :
    wp (m >>= f) Q L (fun _ => True) k :=
  wp_bind.2 (wp_stay h hf)

theorem pmap_quiet {m : PmapM α} (h : Stays m) : Quiet (pmap m) k :=
  h.wp_zoom

end Rules

theorem sysPageAlloc_quiet {envid va : Word} : Quiet (sysPageAlloc envid va perm) k := by
  refine wp_envid2env trivial (SameEnvs.refl k) fun e _ => ?_
  simp only
  split
  · exact SameEnvs.refl k
  split
  · exact SameEnvs.refl k
  refine (pmap_quiet (pageAlloc_stays true)).bind fun o k1 h1 => ?_
  cases o with
  | none => exact h1
  | some pg =>
    refine wp_pgdirOf trivial fun d _ => (pmap_quiet pageInsert_stays).bind fun r k2 h2 => ?_
    split
    · refine (pmap_quiet (pageFree_stays _)).bind fun _ k3 h3 => ?_
      exact (h1.trans h2).trans h3
    · exact h1.trans h2

theorem sysPageMap_quiet {srcenvid srcva dstenvid dstva : Word} :
    Quiet (sysPageMap srcenvid srcva dstenvid dstva perm) k := by
  refine wp_envid2env trivial (SameEnvs.refl k) fun se _ => wp_envid2env trivial (SameEnvs.refl k) fun de _ => ?_
  simp only
  split
  · exact SameEnvs.refl k
  refine wp_pgdirOf trivial fun sd _ => (pmap_quiet (pageLookup_stays _ _)).bind fun o k1 h1 => ?_
  cases o with
  | none => exact h1
  | some x =>
    simp only
    split
    · exact h1
    rw [wp_bind, wp_read]
    split
    · exact h1
    · exact wp_pgdirOf trivial fun dd _ => wp_stay (pmap_quiet pageInsert_stays) fun _ _ h2 => h1.trans h2

theorem sysPageUnmap_quiet (envid va : Word) : Quiet (sysPageUnmap envid va) k := by
  refine wp_envid2env trivial (SameEnvs.refl k) fun e _ => ?_
  simp only
  split
  · exact SameEnvs.refl k
  · exact wp_pgdirOf trivial fun d _ => (pmap_quiet pageRemove_stays).bind fun _ _ h1 => h1

/-! ## Leaving the kernel -/

/-- The way out of the kernel: `env_run` of an environment that is runnable, or of
the current one if it is still running, or `sched_halt`. -/
inductive Leaves (k : Kern) : Kern → Prop
  | run (j : ℕ) (hj : (k.envs j).envStatus = .runnable ∨
      k.curenv = some j ∧ (k.envs j).envStatus = .running) : Leaves k (ran k j)
  | halt : Leaves k { k with curenv := none }

theorem schedYield_moves : wp (schedYield : KernM α) (fun _ _ => False) (Leaves k)
    (fun _ => True) k := by
  have hrun : ∀ j, (k.envs j).envStatus = .runnable ∨
      k.curenv = some j ∧ (k.envs j).envStatus = .running →
      wp (envRun j : KernM α) (fun _ _ => False) (Leaves k) (fun _ => True) k := by
    intro j hj
    rw [wp, envRun_eq]
    cases k.dirs j with
    | none => trivial
    | some d => exact .run j hj
  rcases @schedYield_cases α k with ⟨j, -, hst, heq⟩ | ⟨c, hc, hst, heq⟩ | heq
  · have := hrun j (Or.inl hst)
    rwa [wp, ← heq] at this
  · have := hrun c (Or.inr ⟨hc, hst⟩)
    rwa [wp, ← heq] at this
  · rcases @schedHalt_cases α k with hh | hh
    · exact wp_of_panic (heq.trans hh) trivial
    · rw [wp, heq, hh]
      exact .halt

/-- The way out at the end of `trap`: a current environment that is still running
goes on. -/
def Returns (k k' : Kern) : Prop :=
  Leaves k k' ∧ ∀ c, k.curenv = some c → (k.envs c).envStatus = .running → k' = ran k c

theorem trapReturn_moves : wp trapReturn (fun _ _ => False) (Returns k) (fun _ => True) k := by
  rw [trapReturn, wp_bind, wp_read]
  simp only [id]
  cases hc : k.curenv with
  | none =>
    exact wp_noreturn schedYield_moves (fun k' hk' => ⟨hk', fun c hc' => by rw [hc] at hc'; cases hc'⟩)
  | some c =>
    by_cases hst : (k.envs c).envStatus = .running
    · simp only [if_pos hst]
      rw [wp, envRun_eq]
      cases k.dirs c with
      | none => trivial
      | some d =>
        refine ⟨.run c (Or.inr ⟨hc, hst⟩), fun c' hc' _ => ?_⟩
        rw [Option.mem_unique hc hc']
    · simp only [if_neg hst]
      refine wp_noreturn schedYield_moves (fun k' hk' => ⟨hk', fun c' hc' hst' => ?_⟩)
      rw [Option.mem_unique hc hc'] at hst
      exact absurd hst' hst

/-! ## Destruction -/

/-- The environments after `env_free(e)`. -/
def freedEnv (k : Kern) (e : ℕ) : Kern :=
  { k.setEnv e fun v => { v with
      envPgdir := none
      envStatus := .free
      envLink := k.envFreeList } with
    envFreeList := some e }

theorem freedEnv_envs_self (k : Kern) (e : ℕ) : (freedEnv k e).envs e = { k.envs e with
    envPgdir := none, envStatus := .free, envLink := k.envFreeList } := update_self ..

theorem freedEnv_envs_of_ne (k : Kern) {e : ℕ} (h : e' ≠ e) :
    (freedEnv k e).envs e' = k.envs e' := update_of_ne h ..

theorem envFree_moves (e : ℕ) : wp (envFree e) (fun _ k' => SameEnvs (freedEnv k e) k')
    (fun _ => False) (fun _ => True) k := by
  refine wp_pgdirOf trivial fun d _ => (pmap_quiet (freeTables_stays _ _ _)).bind fun _ k1 h1 => ?_
  refine (pmap_quiet (pa2page_stays _)).bind fun pp k2 h2 => ?_
  refine (pmap_quiet (pageDecref_stays _)).bind fun _ k3 h3 => ?_
  obtain ⟨p1, rfl⟩ := h1
  obtain ⟨p3, rfl⟩ := h2.trans h3
  refine ⟨p3, ?_⟩
  simp [freedEnv, Kern.setEnv]

/-- What `env_destroy(e)` has done when it returns: another processor was running
`e`, or it is freed. -/
inductive Destroyed (k : Kern) (e : ℕ) : Kern → Prop
  | dying (hst : (k.envs e).envStatus = .running) (hc : k.curenv ≠ some e) :
    Destroyed k e (k.setEnv e fun v => { v with envStatus := .dying })
  | freed {k' : Kern} (hst : (k.envs e).envStatus ≠ .running) (hc : k.curenv ≠ some e)
      (hk : SameEnvs (freedEnv k e) k') : Destroyed k e k'

/-- The current environment `c` was freed and the processor went on with another. -/
def Killed (k : Kern) (c : ℕ) (k' : Kern) : Prop :=
  k.curenv = some c ∧ ∃ k₁, SameEnvs (freedEnv k c) k₁ ∧ Leaves { k₁ with curenv := none } k'

theorem envDestroy_moves (e : ℕ) :
    wp (envDestroy e) (fun _ k' => Destroyed k e k') (Killed k e) (fun _ => True) k := by
  rw [envDestroy, wp_bind, wp_read]
  split
  · rename_i h
    exact .dying h.1 h.2
  · rename_i h
    rw [wp_bind]
    refine wp_stay (envFree_moves e) (fun _ k1 h1 => ?_)
    split
    · rename_i hc
      exact wp_noreturn schedYield_moves (fun k' hk' => ⟨hc, k1, h1, hk'⟩)
    · rename_i hc
      exact .freed (fun hst => h ⟨hst, hc⟩) hc h1

theorem userMemAssert_moves {va len : Word} (hc : k.curenv = some c) :
    wp (userMemAssert c va len perm) (fun _ k' => SameEnvs k k') (fun k' => ∃ k1, SameEnvs k k1 ∧
      Killed k1 c k') (fun _ => True) k := by
  refine wp_pgdirOf trivial fun d _ => (pmap_quiet userMemLoop_stays).bind fun o k1 h1 => ?_
  cases o with
  | none => exact h1
  | some a =>
    refine wp_mono (envDestroy_moves c) (fun _ k' h' => ?_) (fun k' hk' => ⟨k1, h1, hk'⟩)
    obtain ⟨p, rfl⟩ := h1
    cases h' with
    | dying _ hne | freed _ hne => exact absurd hc hne

/-! ## Creation -/

theorem envAlloc_moves (parentId : Word) : wp (envAlloc parentId)
    (fun r k' => (∃ x < 0, r = .error x ∧ k' = k) ∨
      ∃ e d p, r = .ok e ∧ k.envFreeList = some e ∧ k' = afterAlloc k parentId e d p)
    (fun _ => False) (fun _ => True) k := by
  rw [envAlloc, wp_bind, wp_read]
  cases hfree : k.envFreeList with
  | none => exact Or.inl ⟨-eNoFreeEnv, by decide, rfl, rfl⟩
  | some e =>
    rw [wp_bind, envSetupVm, wp_bind]
    refine wp_zoom (wp_post pageAlloc_takes (fun o p1 h1 => ?_))
    rcases h1 with ⟨rfl, rfl, -⟩ | ⟨pp, rfl, rfl, -⟩
    · exact Or.inl ⟨-eNoMem, by decide, rfl, rfl⟩
    · have h1 : SameEnvs k { k with pm := taken k.pm pp } := ⟨_, rfl⟩
      refine (pmap_quiet (.modify _)).bind fun _ k2 h2 => ?_
      refine (pmap_quiet kaddr_stays).bind fun d k3 h3 => ?_
      rw [modifyEnv, wp_bind, wp_modify]
      refine (pmap_quiet (.modify _)).bind fun _ k4 h4 => ?_
      refine (pmap_quiet (.modify _)).bind fun _ k5 h5 => ?_
      obtain ⟨p3, rfl⟩ := (h1.trans h2).trans h3
      obtain ⟨p5, rfl⟩ := h4.trans h5
      refine Or.inr ⟨e, d, p5, rfl, rfl, ?_⟩
      simp [afterAlloc, Kern.setEnv]

/-- The environments after `sys_exofork` by `c` has made `e`. -/
def forked (k : Kern) (c e d : ℕ) (p : Pmap) : Kern :=
  let k₁ := afterAlloc k (k.envs c).envId e d p
  k₁.setEnv e fun v => { v with
    envTf := { (k₁.envs c).envTf with regs := { (k₁.envs c).envTf.regs with eax := 0#32 } }
    envStatus := .notRunnable }

theorem sysExofork_moves : wp sysExofork
    (fun r k' => (r ≠ 0 ∧ SameEnvs k k') ∨
      ∃ c e d p, k.curenv = some c ∧ k.envFreeList = some e ∧ k' = forked k c e d p)
    (fun _ => False) (fun _ => True) k := by
  refine wp_thisenv trivial fun c hc => ?_
  rw [wp_bind, wp_read, wp_bind]
  refine wp_post (envAlloc_moves _) (fun r k1 h1 => ?_)
  rcases h1 with ⟨x, hx, rfl, rfl⟩ | ⟨e, d, p, rfl, hfree, rfl⟩
  · exact Or.inl ⟨hx.ne, SameEnvs.refl _⟩
  · exact Or.inr ⟨c, e, d, p, hc, hfree, rfl⟩

section Exofork

variable {M : ℕ → Prop} {k₀ p : Pmap} {d : ℕ}

theorem forked_dirs : (forked k c e d p).dirs = update k.dirs e (some d) := by
  unfold forked
  rw [setEnv_dirs_same _ rfl, afterAlloc_dirs]

theorem forked_envs_of_ne (h : e' ≠ e) : (forked k c e d p).envs e' = k.envs e' := by
  show (update (update k.envs e _) e _) e' = _
  rw [update_of_ne h, update_of_ne h]

/-- **`sys_exofork`** fails and changes nothing, or makes a child with an empty address
space. -/
theorem sysExofork_run (h : KernInv M k₀ k) (hk : KernelHalf M k₀) (hc : k.curenv = some c) :
    (∃ r < 0, sysExofork k = .ok r k ∧
      (k.envFreeList = none ∨ ∀ r, M r → (view k.dirs k.pm).refs r ≠ 0)) ∨
    ∃ e d p, sysExofork k = .ok (nextEnvId (k.envs e).envId e).toInt (forked k c e d p) ∧
      k.envFreeList = some e ∧ e < nenv ∧ k.dirs e = none ∧ SpaceMade M k.dirs k.pm e d p ∧
      KernInv M k₀ (forked k c e d p) := by
  rw [sysExofork, bind_ok (thisenv_some hc), read_bind]
  rcases envAlloc_spec h hk (k.envs c).envId with
    ⟨r, hr, heq, hwhy⟩ | ⟨e, d, p, heq, hhead, hlt, hnone, hmade, hinv⟩
  · exact Or.inl ⟨r, hr, bind_ok heq, hwhy⟩
  · refine Or.inr ⟨e, d, p, ?_, hhead, hlt, hnone, hmade, ?_⟩
    · rw [bind_ok heq]
      simp only
      rw [read_bind, modifyEnv, modify_bind, read_apply]
      simp only [afterAlloc, setEnv_envs_self]
      rfl
    · unfold forked
      exact hinv.setEnv _ rfl rfl

end Exofork

/-! ## Messages -/

/-- The page transfer of `sys_ipc_try_send` records at most the permission. -/
def PermNoted (k : Kern) (rcv : ℕ) (perm : Word) (k' : Kern) : Prop :=
  SameEnvs k k' ∨ SameEnvs (k.setEnv rcv fun v => { v with envIpcPerm := perm }) k'

theorem readPte_quiet (inp : Inputs) (found : Option (ℕ × PtePtr)) : Quiet (readPte inp found) k := by
  unfold readPte
  cases found with
  | some x => exact SameEnvs.refl k
  | none =>
    cases inp.stalePte with
    | none => trivial
    | some w => exact SameEnvs.refl k

/-- The environments after the page transfer of `sys_ipc_try_send` to `rcv`: the
permission is recorded if a page was mapped. -/
def noted (k : Kern) (rcv : ℕ) (srcva perm : Word) : Kern :=
  if srcva < utop ∧ (k.envs rcv).envIpcDstva < utop then
    k.setEnv rcv fun v => { v with envIpcPerm := perm }
  else k

theorem SameEnvs.permNoted {srcva : Word} (h : SameEnvs (noted k rcv srcva perm) k') :
    PermNoted k rcv perm k' := by
  unfold noted at h
  split at h
  · exact Or.inr h
  · exact Or.inl h

theorem ipcTransfer_moves (inp : Inputs) (rcv : ℕ) (srcva perm : Word) :
    wp (ipcTransfer inp rcv srcva perm)
      (fun r k' => (r ≠ 0 ∧ SameEnvs k k') ∨ r = 0 ∧ SameEnvs (noted k rcv srcva perm) k')
      (fun _ => False) (fun _ => True) k := by
  rw [ipcTransfer]
  split
  · rename_i hsrc
    refine wp_thisenv trivial fun c _ => wp_pgdirOf trivial fun sd _ => ?_
    refine (pmap_quiet (pageLookup_stays _ _)).bind fun found k1 h1 => ?_
    split
    · exact Or.inl ⟨by decide, h1⟩
    refine (readPte_quiet inp found).bind fun w k2 h2 => ?_
    obtain ⟨p2, rfl⟩ := h1.trans h2
    split
    · exact Or.inl ⟨by decide, p2, rfl⟩
    cases found with
    | none => exact Or.inl ⟨by decide, p2, rfl⟩
    | some x =>
      simp only
      split
      · exact Or.inl ⟨by decide, p2, rfl⟩
      rw [wp_bind, wp_read]
      split
      · rename_i hdst
        refine wp_pgdirOf trivial fun dd _ => (pmap_quiet pageInsert_stays).bind fun r k3 h3 => ?_
        obtain ⟨p3, rfl⟩ := h3
        split
        · rename_i hr
          exact Or.inl ⟨hr, p3, rfl⟩
        · refine Or.inr ⟨rfl, ?_⟩
          rw [noted, if_pos ⟨hsrc, hdst⟩]
          exact ⟨p3, rfl⟩
      · rename_i hdst
        refine Or.inr ⟨rfl, ?_⟩
        rw [noted, if_neg fun h => hdst h.2]
        exact ⟨p2, rfl⟩
  · rename_i hsrc
    refine Or.inr ⟨rfl, ?_⟩
    rw [noted, if_neg fun h => hsrc h.1]
    exact SameEnvs.refl k

theorem PermNoted.curenv (h : PermNoted k rcv perm k') :
    k'.curenv = k.curenv := by
  rcases h with ⟨p, rfl⟩ | ⟨p, rfl⟩ <;> rfl

theorem PermNoted.self (h : PermNoted k rcv perm k') :
    ∃ q, k'.envs rcv = { k.envs rcv with envIpcPerm := q } := by
  rcases h with ⟨p, rfl⟩ | ⟨p, rfl⟩
  · exact ⟨_, rfl⟩
  · exact ⟨perm, update_self ..⟩

theorem PermNoted.other (h : PermNoted k rcv perm k') (he : e ≠ rcv) :
    k'.envs e = k.envs e := by
  rcases h with ⟨p, rfl⟩ | ⟨p, rfl⟩
  · rfl
  · exact update_of_ne he ..

theorem sysIpcTrySend_moves (inp : Inputs) (envid value srcva perm : Word) :
    wp (sysIpcTrySend inp envid value srcva perm)
      (fun r k' => (r ≠ 0 ∧ SameEnvs k k') ∨ r = 0 ∧ ∃ rcv c k1, Names k envid false rcv ∧
        k.curenv = some c ∧ (k.envs rcv).envIpcRecving = true ∧
        SameEnvs (noted k rcv srcva perm) k1 ∧ k' = delivered k1 rcv c value)
      (fun _ => False) (fun _ => True) k := by
  refine wp_envid2env trivial (Or.inl ⟨by decide, SameEnvs.refl k⟩) fun rcv hname => ?_
  rw [wp_bind, wp_read]
  split
  · exact Or.inl ⟨by decide, SameEnvs.refl k⟩
  rename_i hrec
  rw [wp_bind]
  refine wp_post (ipcTransfer_moves inp rcv srcva perm) (fun r k1 h1 => ?_)
  rcases h1 with ⟨hr, h1⟩ | ⟨rfl, h1⟩
  · rw [if_pos hr]
    exact Or.inl ⟨hr, h1⟩
  · rw [if_neg (by decide), wp_bind]
    refine wp_thisenv trivial fun c hc => ?_
    exact Or.inr ⟨rfl, rcv, c, k1, hname, h1.permNoted.curenv ▸ hc, Bool.not_eq_false _ ▸ hrec, h1, rfl⟩

/-- `sys_ipc_recv(dstva)` has blocked `c`. -/
def receiving (k : Kern) (c : ℕ) (dstva : Word) : Kern :=
  k.setEnv c fun v => { v with
    envIpcRecving := true
    envStatus := .notRunnable
    envIpcDstva := dstva }

/-! ## System calls -/

/-- The calls that do nothing to the environments when they return. -/
def Call.IsQuiet : Call → Prop
  | .cputs _ _ | .cgetc | .getenvid | .pageAlloc _ _ _ | .pageMap _ _ _ _ _ | .pageUnmap _ _
  | .invalid => True
  | _ => False

/-- What a system call has done when it returns `r`. -/
inductive CallDone (k : Kern) : Call → ℤ → Kern → Prop
  | refused {call : Call} {r : ℤ} {k' : Kern} (hr : r ≠ 0) (hk : SameEnvs k k') :
    CallDone k call r k'
  | quiet {call : Call} {r : ℤ} {k' : Kern} (hcall : call.IsQuiet) (hk : SameEnvs k k') :
    CallDone k call r k'
  | destroyed {envid : Word} {e : ℕ} {k' : Kern} (hn : Names k envid true e)
      (hk : Destroyed k e k') : CallDone k (.envDestroy envid) 0 k'
  | forked {c e d : ℕ} {p : Pmap} {r : ℤ} (hc : k.curenv = some c) (he : k.envFreeList = some e) :
    CallDone k .exofork r (forked k c e d p)
  | status {envid status : Word} {st : EnvStatus} {e : ℕ} (hst : statusArg status = some st)
      (hn : Names k envid true e) :
    CallDone k (.envSetStatus envid status) 0 (k.setEnv e fun v => { v with envStatus := st })
  | upcall {envid func : Word} {e : ℕ} (hn : Names k envid true e) :
    CallDone k (.envSetPgfaultUpcall envid func) 0
      (k.setEnv e fun v => { v with envPgfaultUpcall := func })
  | sent {envid value srcva perm : Word} {rcv c : ℕ} {k₁ : Kern} (hn : Names k envid false rcv)
      (hc : k.curenv = some c) (hrec : (k.envs rcv).envIpcRecving = true)
      (hk : PermNoted k rcv perm k₁) :
    CallDone k (.ipcTrySend envid value srcva perm) 0 (delivered k₁ rcv c value)

/-- What a system call that does not return has done. -/
inductive CallLeft (k : Kern) : Call → Kern → Prop
  | yield {k' : Kern} (hk : Leaves k k') : CallLeft k .yield k'
  | killed {envid : Word} {c : ℕ} {k' : Kern} (hn : Names k envid true c) (hk : Killed k c k') :
    CallLeft k (.envDestroy envid) k'
  | faulted {s len : Word} {c : ℕ} {k₁ k' : Kern} (h₁ : SameEnvs k k₁) (hk : Killed k₁ c k') :
    CallLeft k (.cputs s len) k'
  | recv {dstva : Word} {c : ℕ} {k' : Kern} (hc : k.curenv = some c)
      (hva : ¬ (dstva < utop ∧ dstva ≠ roundDown dstva)) (hk : Leaves (receiving k c dstva) k') :
    CallLeft k (.ipcRecv dstva) k'

/-- **What a system call can do to the environments.** -/
theorem runCall_moves (inp : Inputs) (call : Call) :
    wp (runCall inp call) (CallDone k call) (CallLeft k call) (fun _ => True) k := by
  cases call with
  | cputs s len =>
    show wp (sysCputs s len >>= fun _ => pure 0) _ _ _ k
    rw [wp_bind]
    refine wp_thisenv trivial fun c hc => ?_
    rw [wp_bind]
    refine wp_mono (userMemAssert_moves hc) (fun _ k1 h1 => ?_)
      (fun k' ⟨k1, h1, hk'⟩ => .faulted h1 hk')
    refine wp_pgdirOf trivial fun d _ => ?_
    by_cases hs : s ≠ 0#32
    · rw [when_pos hs]
      exact wp_stay (pmap_quiet printStr_stays) fun _ k2 h2 => .quiet trivial (h1.trans h2)
    · rw [when_neg hs]
      exact .quiet trivial h1
  | cgetc => exact .quiet trivial (SameEnvs.refl k)
  | getenvid => exact wp_thisenv trivial fun c _ => .quiet trivial (SameEnvs.refl k)
  | envDestroy envid =>
    refine wp_envid2env trivial (.refused (by decide) (SameEnvs.refl k)) fun e hn => ?_
    rw [wp_bind]
    exact wp_mono (envDestroy_moves e) (fun _ k' hk' => .destroyed hn hk')
      (fun k' hk' => .killed hn hk')
  | yield =>
    exact wp_noreturn schedYield_moves (fun k' hk' => .yield hk')
  | exofork =>
    refine wp_stay sysExofork_moves (fun r k' h => ?_)
    rcases h with ⟨hr, hk⟩ | ⟨c, e, d, p, hc, he, rfl⟩
    · exact .refused hr hk
    · exact .forked hc he
  | envSetStatus envid status =>
    show wp (sysEnvSetStatus envid status) _ _ _ k
    rw [sysEnvSetStatus]
    cases hst : statusArg status with
    | none => exact .refused (by decide) (SameEnvs.refl k)
    | some st =>
      exact wp_envid2env trivial (.refused (by decide) (SameEnvs.refl k)) fun e hn => .status hst hn
  | pageAlloc envid va perm =>
    exact wp_stay sysPageAlloc_quiet fun _ _ h => .quiet trivial h
  | pageMap srcenvid srcva dstenvid dstva perm =>
    exact wp_stay sysPageMap_quiet fun _ _ h => .quiet trivial h
  | pageUnmap envid va => exact wp_stay (sysPageUnmap_quiet _ _) fun _ _ h => .quiet trivial h
  | envSetPgfaultUpcall envid func =>
    exact wp_envid2env trivial (.refused (by decide) (SameEnvs.refl k)) fun e hn => .upcall hn
  | ipcTrySend envid value srcva perm =>
    refine wp_stay (sysIpcTrySend_moves _ _ _ _ _) (fun r k' h => ?_)
    rcases h with ⟨hr, hk⟩ | ⟨rfl, rcv, c, k1, hn, hc, hrec, hk, rfl⟩
    · exact .refused hr hk
    · exact .sent hn hc hrec hk.permNoted
  | ipcRecv dstva =>
    show wp (sysIpcRecv dstva) _ _ _ k
    rw [sysIpcRecv]
    split
    · exact .refused (by decide) (SameEnvs.refl k)
    · rename_i hva
      refine wp_thisenv trivial fun c hc => ?_
      exact wp_noreturn schedYield_moves (fun k' hk' => .recv hc hva hk')
  | invalid => exact .quiet trivial (SameEnvs.refl k)

/-! ## Traps -/

/-- How a trap ends: from user mode with the current environment `c`, or in a
processor that was halted. -/
inductive TrapEnds (inp : Inputs) (tf : Trapframe) (k : Kern) : Kern → Prop
  | zombie {c : ℕ} {k' : Kern} (hu : tf.FromUser) (hst : (k.envs c).envStatus = .dying)
      (hk : Killed k c k') : TrapEnds inp tf k k'
  | returned {c : ℕ} {r : ℤ} {k₂ k' : Kern} (hu : tf.FromUser) (hc : k.curenv = some c)
      (hst : (k.envs c).envStatus ≠ .dying) (hsys : tf.trapno.toNat = tSyscall)
      (hrun : runCall inp tf.call (k.saveTf c tf) = .ok r k₂)
      (hcall : CallDone (k.saveTf c tf) tf.call r k₂)
      (hk : Returns (k₂.setEnv c fun v => v.withRet r) k') : TrapEnds inp tf k k'
  | left {c : ℕ} {k' : Kern} (hu : tf.FromUser) (hc : k.curenv = some c)
      (hst : (k.envs c).envStatus ≠ .dying) (hsys : tf.trapno.toNat = tSyscall)
      (hrun : runCall inp tf.call (k.saveTf c tf) = .leave k')
      (hcall : CallLeft (k.saveTf c tf) tf.call k') : TrapEnds inp tf k k'
  | upcall {c : ℕ} {tf' : Trapframe} {k₂ : Kern} (hu : tf.FromUser) (hc : k.curenv = some c)
      (hst : (k.envs c).envStatus ≠ .dying) (hno : tf.trapno.toNat ≠ tSyscall)
      (hk : SameEnvs (k.saveTf c tf') k₂) : TrapEnds inp tf k (ran k₂ c)
  | killed {c : ℕ} {k₁ k' : Kern} (hu : tf.FromUser) (hst : (k.envs c).envStatus ≠ .dying)
      (hno : tf.trapno.toNat ≠ tSyscall) (h₁ : SameEnvs (k.saveTf c tf) k₁) (hk : Killed k₁ c k') :
    TrapEnds inp tf k k'
  | plain {c : ℕ} {k' : Kern} (hu : tf.FromUser) (hc : k.curenv = some c)
      (hst : (k.envs c).envStatus ≠ .dying) (hno : tf.trapno.toNat ≠ tSyscall)
      (hk : Leaves (k.saveTf c tf) k') : TrapEnds inp tf k k'
  | idleReturned {r : ℤ} {k₂ k' : Kern} (hu : ¬ tf.FromUser) (hsys : tf.trapno.toNat = tSyscall)
      (hcall : CallDone k tf.call r k₂) (hk : Leaves k₂ k') : TrapEnds inp tf k k'
  | idleLeft {k' : Kern} (hu : ¬ tf.FromUser) (hsys : tf.trapno.toNat = tSyscall)
      (hcall : CallLeft k tf.call k') : TrapEnds inp tf k k'
  | idle {k' : Kern} (hu : ¬ tf.FromUser) (hno : tf.trapno.toNat ≠ tSyscall) (hk : Leaves k k') :
    TrapEnds inp tf k k'

theorem saveTf_saveTf (tf tf' : Trapframe) : (k.saveTf c tf).saveTf c tf' = k.saveTf c tf' := by
  simp [Kern.saveTf, Kern.setEnv]

theorem envDestroy_current (hc : k.curenv = some c) :
    wp (envDestroy c) (fun _ _ => False) (Killed k c) (fun _ => True) k := by
  refine wp_post (envDestroy_moves c) (fun _ k' h => ?_)
  cases h with
  | dying _ hne | freed _ hne => exact hne hc

theorem pageFaultHandler_moves (inp : Inputs) (tf : Trapframe) (hc : k.curenv = some c) :
    wp (pageFaultHandler inp tf) (fun _ _ => False)
      (fun k' => (∃ k2 tf', SameEnvs (k.saveTf c tf') k2 ∧ k' = ran k2 c) ∨
        ∃ k1, SameEnvs k k1 ∧ Killed k1 c k')
      (fun _ => True) k := by
  rw [pageFaultHandler]
  split
  · trivial
  refine wp_thisenv trivial fun c' hc' => ?_
  obtain rfl : c = c' := Option.mem_unique hc hc'
  rw [wp_bind, wp_read]
  split
  · rw [wp_bind]
    refine wp_mono (userMemAssert_moves hc) (fun _ k1 h1 => ?_) (fun k' hk' => Or.inr hk')
    refine wp_pgdirOf trivial fun d _ => (pmap_quiet (kernStoreWords_stays _ _ _)).bind fun _ k2 h2 => ?_
    obtain ⟨p, rfl⟩ := h1.trans h2
    rw [modifyEnv, wp_bind, wp_modify, wp, envRun_eq]
    split <;> rename_i heq
    · split at heq <;> cases heq
    · split at heq
      · cases heq
      · cases heq
        exact Or.inl ⟨_, _, ⟨p, rfl⟩, rfl⟩
    · trivial
  · exact wp_noreturn (envDestroy_current hc) (fun k' hk' => Or.inr ⟨k, SameEnvs.refl k, hk'⟩)

/-- **How a trap ends.** -/
theorem trap_moves (inp : Inputs) (tf : Trapframe) (hcs : ¬ tf.FromUser → tf.cs = gdKt) :
    wp (trap inp tf) (fun _ _ => False) (TrapEnds inp tf k) (fun _ => True) k := by
  rw [trap]
  by_cases hu : tf.FromUser
  · rw [if_pos hu, wp_bind, wp_read]
    cases hc : k.curenv with
    | none => trivial
    | some c =>
      rw [wp_bind, wp_read]
      by_cases hst : (k.envs c).envStatus = .dying
      · rw [if_pos hst, wp_bind]
        refine wp_stay (envFree_moves c) (fun _ k1 h1 => ?_)
        exact wp_noreturn schedYield_moves (fun k' hk' => .zombie hu hst ⟨hc, k1, h1, hk'⟩)
      rw [if_neg hst, modifyEnv, wp_bind, wp_modify, wp_bind]
      change wp (trapDispatch inp tf (some c)) _ _ _ (k.saveTf c tf)
      have hc1 : (k.saveTf c tf).curenv = some c := hc
      rw [trapDispatch]
      by_cases hpg : tf.trapno.toNat = tPgflt
      · have hno : tf.trapno.toNat ≠ tSyscall := by rw [hpg]; decide
        rw [if_pos hpg]
        refine wp_noreturn (pageFaultHandler_moves inp tf hc1) (fun k' hk' => ?_)
        rcases hk' with ⟨k2, tf', h2, rfl⟩ | ⟨k1, h1, hk'⟩
        · rw [saveTf_saveTf] at h2
          exact .upcall hu hc hst hno h2
        · exact .killed hu hst hno h1 hk'
      rw [if_neg hpg]
      split
      · trivial
      by_cases hsys : tf.trapno.toNat = tSyscall
      · rw [if_pos hsys, wp_bind]
        have hmoves := runCall_moves (k := k.saveTf c tf) inp tf.call
        unfold wp at hmoves ⊢
        cases hrun : runCall inp tf.call (k.saveTf c tf) with
        | ok r k2 =>
          rw [hrun] at hmoves
          exact wp_noreturn trapReturn_moves (fun k' hk' => .returned hu hc hst hsys hrun hmoves hk')
        | leave k' =>
          rw [hrun] at hmoves
          exact .left hu hc hst hsys hrun hmoves
        | panic e => trivial
      rw [if_neg hsys]
      split
      · rw [wp_pure]
        exact wp_noreturn trapReturn_moves (fun k' hk' => .plain hu hc hst hsys hk'.1)
      split
      · exact wp_noreturn schedYield_moves (fun k' hk' => .plain hu hc hst hsys hk')
      split
      · trivial
      · refine wp_thisenv trivial fun c' hc' => ?_
        obtain rfl : c = c' := Option.mem_unique hc1 hc'
        exact wp_noreturn (envDestroy_current hc1) (fun k' hk' => .killed hu hst hsys (SameEnvs.refl _) hk')
  · rw [if_neg hu, wp_bind, trapDispatch]
    have hkt := hcs hu
    split
    · rw [pageFaultHandler, if_pos (by rw [hkt]; decide)]
      trivial
    split
    · trivial
    by_cases hsys : tf.trapno.toNat = tSyscall
    · rw [if_pos hsys, wp_bind]
      refine wp_mono (runCall_moves inp tf.call) (fun r k2 h2 => ?_) (fun k' hk' => .idleLeft hu hsys hk')
      rw [wp_pure]
      exact wp_noreturn trapReturn_moves (fun k' hk' => .idleReturned hu hsys h2 hk'.1)
    rw [if_neg hsys]
    split
    · rw [wp_pure]
      exact wp_noreturn trapReturn_moves (fun k' hk' => .idle hu hsys hk'.1)
    split
    · exact wp_noreturn schedYield_moves (fun k' hk' => .idle hu hsys hk')
    · trivial

/-! ## Creation while the kernel starts -/

/-- Environment `e` has been taken from the free list and may run. -/
structure Enlisted (k : Kern) (e : ℕ) (k' : Kern) : Prop where
  head : k.envFreeList = some e
  freeList : k'.envFreeList = (k.envs e).envLink
  others : ∀ e', e' ≠ e → k'.envs e' = k.envs e'
  /-- After `env_alloc`, only the frame and the type are assigned. -/
  self : ∃ d p tf type,
    k'.envs e = { (afterAlloc k 0#32 e d p).envs e with envTf := tf, envType := type }
  curenv : k'.curenv = k.curenv

theorem Enlisted.status (h : Enlisted k e k') : (k'.envs e).envStatus = .runnable := by
  obtain ⟨d, p, tf, type, hv⟩ := h.self
  rw [hv, afterAlloc, setEnv_envs_self]

theorem Enlisted.recving (h : Enlisted k e k') : (k'.envs e).envIpcRecving = false := by
  obtain ⟨d, p, tf, type, hv⟩ := h.self
  rw [hv, afterAlloc, setEnv_envs_self]

theorem Enlisted.same (h : Enlisted k e k') (h' : SameEnvs k' k'') : Enlisted k e k'' := by
  obtain ⟨p, rfl⟩ := h'
  exact ⟨h.1, h.2, h.3, h.4, h.5⟩

/-- Further assignments to the new environment. -/
theorem Enlisted.setEnv (h : Enlisted k e k') (f : Env → Env)
    (hf : ∀ v, ∃ tf type, f v = { v with envTf := tf, envType := type }) :
    Enlisted k e (k'.setEnv e f) := by
  refine ⟨h.head, h.freeList, fun e' he' => ?_, ?_, h.curenv⟩
  · rw [setEnv_envs_of_ne _ he', h.others e' he']
  · obtain ⟨d, p, tf, type, hv⟩ := h.self
    obtain ⟨tf', type', hf'⟩ := hf (k'.envs e)
    exact ⟨d, p, tf', type', by rw [setEnv_envs_self, hf', hv]⟩

theorem regionAlloc_quiet (e : ℕ) {va len : Word} : Quiet (regionAlloc e va len) k :=
  wp_pgdirOf trivial fun _ _ => pmap_quiet (regionLoop_stays _ _ _)

theorem loadSegments_quiet (e : ℕ) (phs : List Proghdr) : Quiet (loadSegments e phs) k := by
  induction phs generalizing k with
  | nil => exact SameEnvs.refl k
  | cons ph phs ih =>
    have hrest : ∀ k', SameEnvs k k' →
        wp (loadSegments e phs) (fun _ k'' => SameEnvs k k'') (fun _ => False) (fun _ => True) k' :=
      fun k' h => wp_stay ih fun _ k'' h' => h.trans h'
    rw [Quiet, loadSegments]
    by_cases htype : ph.pType = elfProgLoad
    · rw [when_pos htype, wp_bind]
      refine (regionAlloc_quiet e).bind fun _ k1 h1 => wp_pgdirOf trivial fun d _ => ?_
      refine (pmap_quiet kernFill_stays).bind fun _ k2 h2 => ?_
      exact wp_stay (pmap_quiet kernFill_stays) fun _ k3 h3 => hrest k3 ((h1.trans h2).trans h3)
    · rw [when_neg htype]
      exact hrest k (SameEnvs.refl k)

/-- **What `env_create` does to the environments.** -/
theorem envCreate_moves (binary : Elf) (type : EnvType) :
    wp (envCreate binary type) (fun _ k' => ∃ e, Enlisted k e k') (fun _ => False)
      (fun _ => True) k := by
  rw [envCreate, wp_bind]
  refine wp_post (envAlloc_moves 0#32) (fun r k1 h1 => ?_)
  rcases h1 with ⟨x, -, rfl, -⟩ | ⟨e, d, p, rfl, hhead, rfl⟩
  · trivial
  have h1 : Enlisted k e (afterAlloc k 0#32 e d p) := by
    exact ⟨hhead, rfl, fun e' he' => update_of_ne he' .., ⟨d, p, _, _, rfl⟩, rfl⟩
  have h2 : wp (when (type = .fs) (modifyEnv e fun v =>
      { v with envTf := { v.envTf with eflags := v.envTf.eflags ||| flIopl3 } }) : KernM Unit)
      (fun _ k2 => Enlisted k e k2) (fun _ => False) (fun _ => True) (afterAlloc k 0#32 e d p) := by
    by_cases htype : type = .fs
    · rw [when_pos htype]
      exact h1.setEnv _ fun _ => ⟨_, _, rfl⟩
    · rw [when_neg htype]
      exact h1
  rw [wp_bind]
  refine wp_post h2 (fun _ k2 h2 => ?_)
  rw [loadIcode]
  split
  · trivial
  rw [wp_bind]
  refine (loadSegments_quiet e binary.ph).bind fun _ k3 h3 => ?_
  have h3' := (h2.same h3).setEnv (fun v => { v with envTf := { v.envTf with eip := binary.eEntry } })
    fun _ => ⟨_, _, rfl⟩
  refine wp_stay (regionAlloc_quiet e) fun _ k4 h4 => ?_
  exact ⟨e, (h3'.same h4).setEnv _ fun _ => ⟨_, _, rfl⟩⟩

end OsLab.Jos
