import OsLab.Jos.PageRun
import OsLab.Jos.Sched

/-!
# One program on a small machine

Runs that really happen: the kernel boots, creates one environment from a binary
without segments, and runs it on the first processor; from then on the program
makes system calls.

* `exists_solo`: with `n` pages to spare after boot and creation, the machine
  gets there.
* `Solo.call`: a system call that returns is a step to such a state again.
-/

namespace OsLab.Jos

open Exec Spaces

variable {cfg : BootConfig} {M : ℕ → Prop} {dirs : ℕ → Option ℕ} {k₀ p : Pmap} {k k₂ : Kern}
  {m : Machine} {n n' : ℕ}

/-! ## Room -/

theorem Spare.freeAtLeast (h : PageInv M dirs p) (hs : Spare M dirs n p) : p.FreeAtLeast n := by
  obtain ⟨s, hs, hfree⟩ := hs
  obtain ⟨l, hl, hmem⟩ := h.book.free
  refine ⟨l, hl, ?_⟩
  rw [← List.toFinset_card_of_nodup hl.nodup]
  refine hs.trans (Finset.card_le_card fun p hp => ?_)
  exact List.mem_toFinset.2 ((hmem p).2 ⟨(hfree p hp).1, (hfree p hp).2, not_false⟩)

/-- Of the pages behind the kernel, those that did not become page tables of the
kernel are free after boot. -/
theorem Booted.spare (h : Booted cfg k₀) :
    Spare (Managed cfg k₀) (fun _ => none) (cfg.npages - cfg.kernelEnd - 68) k₀ := by
  set tables := upperPdes.image fun d => pgnum (k₀.mem k₀.kernPgdir d) with htables
  refine ⟨Finset.Ico cfg.kernelEnd cfg.npages \ tables, ?_, fun p hp => ?_⟩
  · have h1 : tables.card ≤ 68 := card_upperPdes ▸ Finset.card_image_le
    have h2 := Finset.le_card_sdiff tables (Finset.Ico cfg.kernelEnd cfg.npages)
    rw [Nat.card_Ico] at h2
    omega
  · obtain ⟨hp, hnot⟩ := Finset.mem_sdiff.1 hp
    obtain ⟨h1, h2⟩ := Finset.mem_Ico.1 hp
    refine ⟨⟨cfg.unreserved_of_le h1 h2, fun hk => hnot ?_⟩, view_none.2 p⟩
    obtain ⟨d, hd, heq⟩ := h.tables p hk
    exact Finset.mem_image.2 ⟨d, hd, heq⟩

/-! ## The first environment -/

/-- A binary without segments. -/
def bareElf : Elf := ⟨elfMagic, 0#32, []⟩

/-- Environment 0 runs on processor 0, with `n` pages to spare. -/
structure Solo (cfg : BootConfig) (k₀ : Pmap) (n : ℕ) (m : Machine) : Prop where
  boot : Booted cfg k₀
  inv : KernInv (Managed cfg k₀) k₀ m.kern
  bounded : Bounded m.kern.dirs m.kern.pm
  spare : Spare (Managed cfg k₀) m.kern.dirs n m.kern.pm
  mode : m.mode 0 = .user
  cpu : m.cpuEnv 0 = some 0
  status : (m.kern.envs 0).envStatus = .running
  dir : ∃ d, m.kern.dirs 0 = some d

/-- The program has a page of stack, which it may write. -/
def HasStack (m : Machine) (pp : ℕ) : Prop :=
  (view m.kern.dirs m.kern.pm).pte (slot 0 stackVa) = mkPte pp (pteW ||| pteU)

/-- A step without a system call. -/
def QuietStep (m : Machine) (a : Event) : Prop := PageStep m a ∧ a.call = none

theorem QuietStep.not_syscall {i : ℕ} {inp : Inputs} {tf : Trapframe}
    (h : QuietStep m (.trap i inp tf)) : tf.trapno.toNat ≠ tSyscall := by
  intro hsys
  have hcall : (Event.trap i inp tf).call = some tf.call := if_pos hsys
  rw [h.2] at hcall
  cases hcall

theorem QuietStep.countOk {a : Event} (h : QuietStep m a) : a.CountOk m := by
  cases a with
  | trap => exact fun hsys => absurd hsys h.not_syscall
  | _ => exact trivial

/-- Nothing else has happened yet: no other environment exists, there is one to be
had, and the other processors have not started. -/
structure NothingElse (m : Machine) : Prop where
  free : ∀ e, e ≠ 0 → (m.kern.envs e).envStatus = .free
  list : ∃ a, m.kern.envFreeList = some a
  boot : ∀ j, j ≠ 0 → m.mode j = .boot ∧ m.cpuEnv j = none

/-- **The first program gets to run.** -/
theorem exists_solo (cfg : BootConfig) (n : ℕ) (hl : cfg.lapics = 0)
    (hroom : n + 71 ≤ cfg.npages - cfg.kernelEnd) :
    ∃ k₀ m pp, (jos cfg).Reach QuietStep m ∧ Solo cfg k₀ n m ∧
      HasStack m pp ∧ Managed cfg k₀ pp ∧ OnlyStack m.kern 0 ∧ NothingElse m := by
  obtain ⟨k₀, hboots⟩ := boots_of_room cfg (by omega) hl
  have hboot := boot_spec hboots
  obtain ⟨⟨l, hl, hlmem⟩, hhead, hdirs, hpm, -, hst0⟩ := envInit_spec k₀
  have hinv := envInit_kernInv hboot
  set m0 : Machine := ⟨envInit k₀, fun _ => none, fun _ => .boot⟩ with hm0
  have hb0 : Bounded m0.kern.dirs m0.kern.pm := envInit_bounded k₀
  have hs0 : Spare (Managed cfg k₀) m0.kern.dirs (2 * bareElf.pages + 1 + n) m0.kern.pm := by
    have := hboot.spare
    rw [hdirs]
    refine this.mono ?_
    show 2 * 1 + 1 + n ≤ _
    omega
  -- the environment is created
  obtain ⟨k1, e, hk1, hc, honly⟩ : ∃ k1 e, envCreate bareElf .user m0.kern = .ok () k1 ∧
      Created (Managed cfg k₀) k₀ m0.kern e n k1 ∧ OnlyStack k1 e := by
    have hwp := envCreate_wp bareElf .user hinv hboot.half hb0
      (fun ph hph => absurd hph List.not_mem_nil) hs0
    unfold wp at hwp
    split at hwp
    · rename_i u k1 heq
      obtain ⟨e, hc, honly⟩ := hwp
      exact ⟨k1, e, heq, hc, honly rfl⟩
    · exact hwp.elim
    · exact absurd ⟨rfl, rfl, by rw [hhead]; simp⟩ hwp.2
  obtain rfl : 0 = e := Option.mem_unique hhead hc.head
  set m1 : Machine := { m0 with kern := k1 } with hm1
  have hstep1 : (jos cfg).step m0 (.create bareElf .user) m1 := by
    refine ⟨fun _ => rfl, ?_⟩
    simp only [Event.exec]
    rw [hk1]
  have hok1 : PageStep m0 (.create bareElf .user) := by
    refine ⟨fun _ _ hf => (by simp [Event.call] at hf), hb0,
      fun ph hph => absurd hph List.not_mem_nil, ?_⟩
    exact (hs0.mono (by omega)).freeAtLeast hinv.pages
  have hfree : ∀ e, e ≠ 0 → (k1.envs e).envStatus = .free := fun e he => by
    rw [hc.others e he]
    exact hst0 e
  -- and picked by the scheduler
  obtain ⟨d, hd⟩ := hc.dir
  obtain ⟨pp, hM, hstack⟩ := hc.stack
  have hyield : (schedYield : KernM Unit) (m1.on 0) = .leave (ran (m1.on 0) 0) := by
    refine schedYield_only (by decide) hc.status (fun e he => ?_) hd
    by_contra hne
    have hst : (k1.envs e).envStatus = .runnable := he
    rw [hfree e hne] at hst
    cases hst
  have hstep2 : (jos cfg).step m1 (.start 0) (m1.back 0 (ran (m1.on 0) 0)) := by
    refine ⟨rfl, ?_⟩
    simp only [Event.exec, Machine.enter, hyield]
  have hok2 : PageStep m1 (.start 0) :=
    ⟨fun _ _ hf => (by simp [Event.call] at hf), hc.bounded, trivial⟩
  have hkd : (ran (m1.on 0) 0).dirs = k1.dirs := ran_dirs _ _
  refine ⟨k₀, m1.back 0 (ran (m1.on 0) 0), pp,
    .step (.step (.init ⟨k₀, hboots, rfl⟩) ⟨hok1, rfl⟩ hstep1) ⟨hok2, rfl⟩ hstep2,
    ⟨hboot, ?_, ?_, ?_, ?_, ?_, ?_, ⟨d, ?_⟩⟩, ?_, hM, ?_, fun e he => ?_, ?_, fun j hj =>
      ⟨Function.update_of_ne hj .., Function.update_of_ne hj ..⟩⟩
  · have hsafe : Safe _ k₀ True (schedYield : KernM Unit) (m1.on 0) := schedYield_safe
      ⟨hc.inv.withCurenv none fun _ hf => (by cases hf), fun _ => hc.bounded⟩
    rw [Safe, wp, hyield] at hsafe
    exact hsafe.inv
  · show Bounded (ran (m1.on 0) 0).dirs (ran (m1.on 0) 0).pm
    rw [hkd]
    exact hc.bounded
  · show Spare _ (ran (m1.on 0) 0).dirs n (ran (m1.on 0) 0).pm
    rw [hkd]
    exact hc.spare
  · simp [Machine.back]
  · simp [Machine.back]
  · show ((ran (m1.on 0) 0).envs 0).envStatus = _
    rw [ran_envs_self]
  · show (ran (m1.on 0) 0).dirs 0 = _
    rw [hkd, hd]
  · exact hstack
  · show OnlyStack (ran (m1.on 0) 0) 0
    rw [OnlyStack, hkd]
    exact honly
  · show ((ran (m1.on 0) 0).envs e).envStatus = _
    rw [ran_envs_of_ne _ he]
    exact hfree e he
  · -- the second environment of the list is still there
    cases l with
    | nil => exact absurd ((hlmem 0).2 (by decide)) List.not_mem_nil
    | cons a l =>
      obtain rfl : a = 0 := Option.mem_unique hl.1 hhead
      cases l with
      | nil => exact absurd ((hlmem 1).2 (by decide)) (by decide)
      | cons b l => exact ⟨b, (ran_envFreeList ..).trans (hc.freeList.trans hl.2.1)⟩

/-! ## System calls -/

/-- The trap frame of a system call. -/
def callTf (no a1 a2 a3 a4 a5 : Word) : Trapframe where
  regs := ⟨a4, a5, 0#32, 0#32, a3, a1, a2, no⟩
  es := gdUd
  ds := gdUd
  trapno := 48#32
  err := 0#32
  eip := 0#32
  cs := gdUt
  eflags := flIf
  esp := ustacktop
  ss := gdUd

theorem callTf_fromUser (no a1 a2 a3 a4 a5 : Word) : (callTf no a1 a2 a3 a4 a5).FromUser := by
  show gdUt &&& 3#16 = 3#16
  decide

/-- What the kernel of processor 0 works on once the trap frame is saved. -/
def Machine.saved (m : Machine) (tf : Trapframe) : Kern :=
  (m.on 0).saveTf 0 tf

theorem saved_dirs (m : Machine) (tf : Trapframe) : (m.saved tf).dirs = m.kern.dirs :=
  saveTf_dirs

theorem saved_status (m : Machine) (tf : Trapframe) :
    ((m.saved tf).envs 0).envStatus = (m.kern.envs 0).envStatus := by
  rfl

theorem Solo.saved_inv (h : Solo cfg k₀ n m) (tf : Trapframe) :
    KernInv (Managed cfg k₀) k₀ (m.saved tf) := by
  refine KernInv.saveTf (h.inv.withCurenv _ fun e he => ?_) 0 tf
  rw [h.cpu] at he
  cases he
  decide

/-- **A system call that returns** is a step, and leads to a state of the same
kind unless it maps a page too often. -/
theorem Solo.call (h : Solo cfg k₀ n m) (inp : Inputs) (no a1 a2 a3 a4 a5 : Word) {r : ℤ}
    (hrun : runCall inp (decodeCall no a1 a2 a3 a4 a5) (m.saved (callTf no a1 a2 a3 a4 a5)) =
      .ok r k₂)
    (hinv : KernInv (Managed cfg k₀) k₀ k₂) (hs : Spare (Managed cfg k₀) k₂.dirs n' k₂.pm)
    (hc : k₂.curenv = some 0) (hst : (k₂.envs 0).envStatus = .running)
    (hd : ∃ d, k₂.dirs 0 = some d) :
    ∃ m', (jos cfg).step m (.trap 0 inp (callTf no a1 a2 a3 a4 a5)) m' ∧
      m'.kern.pm = k₂.pm ∧ m'.kern.dirs = k₂.dirs ∧
      (Bounded k₂.dirs k₂.pm → Solo cfg k₀ n' m') ∧
      m' = m.back 0 (ran (k₂.setEnv 0 fun v => v.withRet r) 0) := by
  obtain ⟨d, hd⟩ := hd
  set k3 := ran (k₂.setEnv 0 fun v => v.withRet r) 0 with hk3
  have hrunning : ((m.on 0).envs 0).envStatus = .running := h.status
  have htrap : trap inp (callTf no a1 a2 a3 a4 a5) (m.on 0) = .leave k3 :=
    trap_call (callTf no a1 a2 a3 a4 a5) (callTf_fromUser ..) (Eq.refl 48) h.cpu
      (by rw [hrunning]; exact EnvStatus.noConfusion) hrun hc hst hd
  have hd3 : k3.dirs = k₂.dirs := by
    rw [ran_dirs]
    exact setEnv_dirs_same _ rfl
  have hp3 : k3.pm = k₂.pm := by
    rw [ran_pm]
    rfl
  have hinv3 : KernInv (Managed cfg k₀) k₀ k3 := by
    have hsafe : Safe _ k₀ False (envRun 0 : KernM Unit) _ := envRun_safe
      (KernOk.setEnv (e := 0) (k := k₂) ⟨hinv, False.elim⟩ (fun v => v.withRet r) rfl rfl)
      (by decide)
    rw [Safe, wp, envRun_leave (d := d) (by rw [setEnv_dirs_same _ rfl]; exact hd)] at hsafe
    exact hsafe.inv
  refine ⟨m.back 0 k3, ⟨Or.inl ⟨h.mode, callTf_fromUser ..⟩, ?_⟩, hp3, hd3, fun hb =>
    ⟨h.boot, hinv3, ?_, ?_, ?_, ?_, ?_, ⟨d, ?_⟩⟩, rfl⟩
  · simp only [Event.exec, Machine.enter, htrap]
  · show Bounded k3.dirs k3.pm
    rw [hd3, hp3]
    exact hb
  · show Spare _ k3.dirs n' k3.pm
    rw [hd3, hp3]
    exact hs
  · simp [Machine.back, hk3]
  · simp [Machine.back, hk3]
  · show (k3.envs 0).envStatus = _
    rw [ran_envs_self]
  · show k3.dirs 0 = _
    rw [hd3, hd]

/-- A machine with four megabytes of memory and one processor. -/
def smallPc : BootConfig where
  npages := 1024
  endPage := 400
  bootstack := 280
  percpuKstacks i := 288 + 8 * i
  lapicaddr := 0#32
  lapics := 0
  image := by decide
  fits := by decide
  npages_le := by decide

end OsLab.Jos
