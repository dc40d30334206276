import OsLab.Jos.BootSpec
import OsLab.Jos.LoadSpec
import OsLab.Jos.Machine

/-!
# Physical pages over whole runs

The invariant of the kernel holds in every state the machine reaches, as long as
the permissions passed to system calls are ones a program may ask for, no page
has more mappings than its counter can count, and the binaries the kernel starts
with fit into memory.

* `MachInv` is the invariant; `MachInv.start` says that booting establishes it
  and `MachInv.step` that every event keeps it and none panics in `page_free`.
* `userStore_stored`: a program can only store into pages mapped below `UTOP`.
* `MachInv.reach`: the invariant holds over every run.
-/

namespace OsLab.Jos

open Exec Spaces Function

/-- The invariant of the machine: the kernel's, for the memory some boot left,
and every processor runs an environment of the table. -/
def MachInv (cfg : BootConfig) (m : Machine) : Prop :=
  ∃ k₀, Booted cfg k₀ ∧ KernInv (Managed cfg k₀) k₀ m.kern ∧ ∀ i c, m.cpuEnv i = some c → c < nenv

variable {cfg : BootConfig} {M : ℕ → Prop} {k₀ : Pmap} {T : Prop} {k k' : Kern} {m m' : Machine}
  {i e : ℕ} {va : Word}

/-! ## The initial state -/

theorem envInitEntry_envs : (envInitEntry k i).envs e =
    if e = i then { k.envs i with envId := 0#32, envLink := k.envFreeList } else k.envs e := by
  show update k.envs i _ e = _
  rw [update_apply]

/-- What `env_init` leaves, by induction on the entries still to do. -/
theorem envInitLoop_spec (n : ℕ) {l : List ℕ}
    (hl : IsChain (fun e => (k.envs e).envLink) k.envFreeList l) (hn : ∀ e ∈ l, n ≤ e) :
    IsChain (fun e => ((envInitLoop n k).envs e).envLink) (envInitLoop n k).envFreeList
        (List.range n ++ l) ∧
      (envInitLoop n k).dirs = k.dirs ∧ (envInitLoop n k).pm = k.pm ∧
      (envInitLoop n k).curenv = k.curenv ∧
      ∀ e, ((envInitLoop n k).envs e).envStatus = (k.envs e).envStatus := by
  induction n generalizing k l with
  | zero => exact ⟨hl, rfl, rfl, rfl, fun _ => rfl⟩
  | succ n ih =>
    have hnl : n ∉ l := fun hmem => absurd (hn n hmem) (by omega)
    have hlink : (fun e => ((envInitEntry k n).envs e).envLink) =
        update (fun e => (k.envs e).envLink) n k.envFreeList := by
      funext e
      rw [envInitEntry_envs, update_apply]
      split <;> rfl
    obtain ⟨h1, h2, h3, h4, h5⟩ := ih (k := envInitEntry k n) (l := n :: l)
      (by rw [hlink]; exact hl.push hnl) (fun e he => by
        rcases List.mem_cons.1 he with rfl | hmem
        · exact le_rfl
        · exact (Nat.le_succ n).trans (hn e hmem))
    refine ⟨?_, h2.trans ?_, h3, h4, fun e => (h5 e).trans ?_⟩
    · rw [List.range_succ, List.append_assoc]
      exact h1
    · funext e
      rw [Kern.dirs, envInitEntry_envs]
      split
      · rename_i he
        rw [he, Kern.dirs]
      · rfl
    · rw [envInitEntry_envs]
      split
      · rename_i he
        rw [he]
      · rfl

theorem envInitLoop_blank (n : ℕ) (p : Pmap) (k : Kern)
    (hk : k = envInitLoop n ⟨p, fun _ => blankEnv, none, none⟩) :
    (∃ l, IsChain (fun e => (k.envs e).envLink) k.envFreeList l ∧ ∀ e, e ∈ l ↔ e < n) ∧
      (0 < n → k.envFreeList = some 0) ∧ k.dirs = (fun _ => none) ∧ k.pm = p ∧ k.curenv = none ∧
      ∀ e, (k.envs e).envStatus = .free := by
  obtain ⟨h1, h2⟩ := envInitLoop_spec n (k := ⟨p, fun _ => blankEnv, none, none⟩) (l := [])
    (IsChain.nil_iff.2 rfl) (by simp)
  rw [List.append_nil] at h1
  rw [← hk] at h1 h2
  refine ⟨⟨_, h1, fun e => List.mem_range⟩, fun hn => ?_, h2⟩
  obtain ⟨n, rfl⟩ : ∃ n', n = n' + 1 := ⟨n - 1, by omega⟩
  rw [List.range_succ_eq_map] at h1
  exact (IsChain.cons_iff.1 h1).1

/-- `env_init` leaves the other fields as they were: zero. -/
theorem envInitLoop_fields (n : ℕ) (h : ∀ e, ∃ o, k.envs e = { blankEnv with envLink := o }) (e : ℕ) :
    ∃ o, (envInitLoop n k).envs e = { blankEnv with envLink := o } := by
  induction n generalizing k with
  | zero => exact h e
  | succ n ih =>
    refine ih fun e => ?_
    rw [envInitEntry_envs]
    split
    · obtain ⟨o, ho⟩ := h n
      rw [ho]
      exact ⟨k.envFreeList, rfl⟩
    · exact h e

theorem envInit_fields (p : Pmap) (e : ℕ) :
    ∃ o, (envInit p).envs e = { blankEnv with envLink := o } := by
  unfold envInit
  exact envInitLoop_fields nenv (fun _ => ⟨none, rfl⟩) e

/-- `env_init` puts every environment on the free list, the first one in front. -/
theorem envInit_spec (p : Pmap) :
    (∃ l, IsChain (fun e => ((envInit p).envs e).envLink) (envInit p).envFreeList l ∧
      ∀ e, e ∈ l ↔ e < nenv) ∧ (envInit p).envFreeList = some 0 ∧
      (envInit p).dirs = (fun _ => none) ∧ (envInit p).pm = p ∧ (envInit p).curenv = none ∧
      ∀ e, ((envInit p).envs e).envStatus = .free := by
  obtain ⟨h1, h2, h3⟩ := envInitLoop_blank nenv p (envInit p) (by unfold envInit; rfl)
  exact ⟨h1, h2 (by decide), h3⟩

theorem envInit_kernInv (h : Booted cfg k₀) : KernInv (Managed cfg k₀) k₀ (envInit k₀) := by
  obtain ⟨⟨l, hl, hmem⟩, -, hd, hp, hc, -⟩ := envInit_spec k₀
  refine ⟨?_, ?_, ?_, ?_, ⟨l, hl, fun e he => ⟨(hmem e).1 he, ?_⟩⟩, ?_⟩
  · rw [hd, hp]
    exact h.inv
  · rw [hp]
    exact Pmap.SameLayout.refl k₀
  · intro q _
    rw [hp]
  · intro e p d hdir
    rw [hd] at hdir
    cases hdir
  · exact congrFun hd e
  · intro c hcur
    rw [hc] at hcur
    cases hcur

theorem envInit_bounded (p : Pmap) : Bounded (envInit p).dirs (envInit p).pm := by
  obtain ⟨-, -, hd, -⟩ := envInit_spec p
  intro r
  have h0 := (view_none (k := (envInit p).pm)).2 r
  rw [← hd, refs] at h0
  omega

theorem MachInv.start (h : m.Starts cfg) : MachInv cfg m := by
  obtain ⟨k₀, hboot, rfl⟩ := h
  exact ⟨k₀, boot_spec hboot, envInit_kernInv (boot_spec hboot), fun i c hc => by cases hc⟩

/-! ## Stores by programs -/

/-- Nothing at or above `UTOP` is writable in user mode. -/
theorem walk_upper (h : KernInv M k₀ k) (hk : KernelHalf M k₀) {pgdir : ℕ}
    (hdir : k.dirs e = some pgdir) (hva : ¬ va < utop) :
    walk k.pm pgdir va (pteU ||| pteW) = none := by
  have hpde := h.half e pgdir (pdx va) hdir (nupde_le_pdx hva)
  unfold walk
  simp only [hpde]
  by_cases hu : pdx va = pdx uvpt
  · rw [if_pos hu, if_neg]
    rintro ⟨-, hbits⟩
    rw [entry_and (by decide)] at hbits
    exact absurd hbits (by decide)
  · rw [if_neg hu]
    split
    · rename_i hpres
      obtain ⟨hM, hent⟩ := hk.upper _ (nupde_le_pdx hva) hu hpres.1
      rw [if_neg]
      rintro ⟨-, hbits⟩
      rw [h.kernel _ hM] at hbits
      exact hent _ (ptx_lt va) hbits
    · rfl

/-- **Programs store only into pages mapped below `UTOP`.** -/
theorem userStore_stored (h : KernInv M k₀ k) (hk : KernelHalf M k₀) (e : ℕ) (va : Word)
    (b : BitVec 8) :
    ∃ p, userStore k e va b = { k with pm := p } ∧ Stored M k.dirs k.pm p := by
  have hself : Stored M k.dirs k.pm k.pm := ⟨h.pages, Keeps.refl _ _ _, rfl⟩
  unfold userStore
  split
  · exact ⟨k.pm, rfl, hself⟩
  · rename_i pgdir hdir
    split
    · exact ⟨k.pm, rfl, hself⟩
    · rename_i p hw
      refine ⟨_, rfl, storeByte_stored h.pages (walk_page hdir ?_ hw)⟩
      refine pdx_lt_nupde ?_
      by_contra hva
      rw [walk_upper h hk hdir hva] at hw
      cases hw

/-! ## Every event keeps the invariant -/

/-- The system call an event makes, if it is one. -/
def Event.call : Event → Option Call
  | .trap _ _ tf => if tf.trapno.toNat = tSyscall then some tf.call else none
  | _ => none

/-- The permissions asked for are ones a program may have. -/
def Event.PermsOk (a : Event) : Prop :=
  ∀ call perm, a.call = some call → call.permArg = some perm → PermOk perm

/-- There is room for a binary that is to be loaded. -/
def Event.HasRoom (m : Machine) : Event → Prop
  | .create binary _ => (∀ ph ∈ binary.ph, ph.Fits) ∧ m.kern.pm.FreeAtLeast (2 * binary.pages + 1)
  | _ => True

/-- The condition on the steps of a run: permissions within `PTE_SYSCALL`, fewer
than 65536 mappings of any page, and room for the binaries. -/
def PageStep (m : Machine) (a : Event) : Prop :=
  a.PermsOk ∧ Bounded m.kern.dirs m.kern.pm ∧ a.HasRoom m

/-- What a call that maps a page relies on: the page has fewer mappings than its
counter can count. -/
def Event.CountOk (m : Machine) : Event → Prop
  | .trap i _ tf => tf.trapno.toNat = tSyscall → tf.call.CountOk (m.on i)
  | _ => True

/-- Kernel code run by one processor. -/
theorem enter_safe {code : KernM Unit} (h : Safe M k₀ T code (m.on i))
    (hcpu : ∀ i c, m.cpuEnv i = some c → c < nenv) :
    m.enter i code ≠ .panic .pageFree ∧
    ∀ m', m.enter i code = .ok () m' →
      KernOk M k₀ T m'.kern ∧ ∀ i c, m'.cpuEnv i = some c → c < nenv := by
  have hback : ∀ k', KernOk M k₀ T k' → KernOk M k₀ T (m.back i k').kern ∧
      ∀ j c, (m.back i k').cpuEnv j = some c → c < nenv := by
    intro k' hk'
    refine ⟨hk', fun j c hc => ?_⟩
    by_cases hj : j = i
    · subst hj
      exact hk'.inv.curenv_lt c (by simpa [Machine.back] using hc)
    · exact hcpu j c (by simpa [Machine.back, hj] using hc)
  unfold Safe wp at h
  unfold Machine.enter
  split <;> rename_i heq <;> rw [heq] at h
  · refine ⟨nofun, fun m' hm' => ?_⟩
    cases hm'
    exact hback _ h
  · refine ⟨nofun, fun m' hm' => ?_⟩
    cases hm'
    exact hback _ h
  · refine ⟨fun hp => h (by cases hp; rfl), fun m' hm' => by cases hm'⟩

/-- **Every event keeps the invariant**, and none panics in `page_free`.  It also
keeps the bound on mappings, if a page that is to be mapped has one to spare. -/
theorem MachInv.step {a : Event} (h : MachInv cfg m) (hs : PageStep m a) :
    a.exec m ≠ .panic .pageFree ∧ ∀ m', a.exec m = .ok () m' →
      MachInv cfg m' ∧ (a.CountOk m → Bounded m'.kern.dirs m'.kern.pm) := by
  obtain ⟨k₀, hboot, hinv, hcpu⟩ := h
  obtain ⟨hperm, hb, hroom⟩ := hs
  have hon : ∀ i, KernInv (Managed cfg k₀) k₀ (m.on i) := fun i => hinv.withCurenv _ (hcpu i)
  cases a with
  | create binary type =>
    obtain ⟨hfit, hfree⟩ := hroom
    have hwp := envCreate_wp binary type (m := 0) hinv hboot.half hb hfit
      (Spare.of_freeAtLeast hinv.pages hfree)
    unfold wp at hwp
    simp only [Event.exec]
    split <;> rename_i heq <;> rw [heq] at hwp
    · obtain ⟨e, hc, -⟩ := hwp
      refine ⟨nofun, fun m' hm' => ?_⟩
      cases hm'
      exact ⟨⟨k₀, hboot, hc.inv, hcpu⟩, fun _ => hc.bounded⟩
    · exact hwp.elim
    · refine ⟨fun hp => hwp.1 (by cases hp; rfl), fun m' hm' => by cases hm'⟩
  | start i =>
    obtain ⟨hp, hok⟩ := enter_safe (T := True) (schedYield_safe ⟨hon i, fun _ => hb⟩) hcpu
    refine ⟨hp, fun m' hm' => ⟨⟨k₀, hboot, (hok m' hm').1.inv, (hok m' hm').2⟩, fun _ => ?_⟩⟩
    exact (hok m' hm').1.bounded trivial
  | trap i inp tf =>
    have hlow : tf.trapno.toNat = tSyscall → tf.call.LowPerm := fun hsys perm hp =>
      (hperm tf.call perm (if_pos hsys) hp).lowPerm
    obtain ⟨hp, hok⟩ := enter_safe (trap_safe inp tf (hon i) hboot.half hb hlow fun ht => ht)
      hcpu
    exact ⟨hp, fun m' hm' => ⟨⟨k₀, hboot, (hok m' hm').1.inv, (hok m' hm').2⟩,
      (hok m' hm').1.bounded⟩⟩
  | store i va b =>
    simp only [Event.exec]
    split
    · refine ⟨nofun, fun m' hm' => ?_⟩
      cases hm'
      exact ⟨⟨k₀, hboot, hinv, hcpu⟩, fun _ => hb⟩
    · rename_i c _
      obtain ⟨p, hp, hst⟩ := userStore_stored hinv hboot.half c va b
      refine ⟨nofun, fun m' hm' => ?_⟩
      cases hm'
      rw [hp]
      exact ⟨⟨k₀, hboot, hinv.withPages hst.inv hst.keeps, hcpu⟩, fun _ => hst.bounded hb⟩

/-- The invariant holds in every state reached. -/
theorem MachInv.reach (h : (jos cfg).Reach PageStep m) : MachInv cfg m :=
  h.invariant (fun _ hm => MachInv.start hm) fun _ _ m' hm hs hstep => ((hm.step hs).2 m' hstep.2).1

/-! ## The accounts of the pages -/

/-- The kernel's page tables are where booting left them. -/
theorem KernInv.managed_iff (h : KernInv (Managed cfg k₀) k₀ k) (hk : KernelHalf (Managed cfg k₀) k₀)
    (p : ℕ) : Managed cfg k.pm p ↔ Managed cfg k₀ p := by
  have hmem : k.pm.mem k.pm.kernPgdir = k₀.mem k₀.kernPgdir := by
    rw [h.layout.kernPgdir]
    exact h.kernel _ hk.pgdir_unmanaged
  rw [Managed, Managed, KernTable, KernTable, hmem]

end OsLab.Jos
