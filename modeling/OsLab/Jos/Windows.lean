import OsLab.Jos.Solo

/-!
# The windows for user mode

Above `UTOP` a program may read two windows: `mem_init` maps a whole table of
`PTSIZE` bytes at `UPAGES` and at `UENVS`, however long the arrays `pages` and
`envs` are.  Behind the arrays lie the pages that `page_alloc` hands out.

* `readable_iff`: of the pages that are not its own, a program reads exactly
  those between the I/O hole and the end of the window at `UENVS`.
* `windows_expose`: that holds over every run.
* `window_leak`: on a machine with four megabytes that is every page behind the
  kernel.  After 162 environments have been created, the first of them can read
  the page directory of another one.
-/

namespace OsLab.Jos

open Exec Spaces

/-- In user mode, `e` can read page `p` at some address at or above `UTOP`. -/
def Readable (m : Machine) (e p : ℕ) : Prop :=
  ∃ d va, m.kern.dirs e = some d ∧ ¬ va < utop ∧ walk m.kern.pm d va pteU = some p

/-- Page `p` is mapped below `UTOP` in `e`, is its page directory, or is a page table
that the directory refers to. -/
def Owns (m : Machine) (e p : ℕ) : Prop :=
  (∃ x, x.1 = e ∧ (view m.kern.dirs m.kern.pm).page x = some p) ∨
  ∃ d, m.kern.dirs e = some d ∧
    (p = d ∨ ∃ i, Present (m.kern.pm.mem d i) ∧ pgnum (m.kern.pm.mem d i) = p)

variable {cfg : BootConfig} {k₀ : Pmap} {k : Kern} {m : Machine} {d e p q : ℕ} {va : Word}

/-! ## What a program can read -/

theorem walk_some {k : Pmap} {need : Word} (h : walk k d va need = some p) :
    (Present (k.mem d (pdx va)) ∧ k.mem d (pdx va) &&& need = need) ∧
    (Present (k.mem (pgnum (k.mem d (pdx va))) (ptx va)) ∧
      k.mem (pgnum (k.mem d (pdx va))) (ptx va) &&& need = need) ∧
    pgnum (k.mem (pgnum (k.mem d (pdx va))) (ptx va)) = p := by
  unfold walk at h
  simp only at h
  split at h
  · rename_i hpde
    split at h
    · rename_i hpte
      exact ⟨hpde, hpte, Option.some.inj h⟩
    · cases h
  · cases h

theorem pgnum_window {n : ℕ} (h : n < 2 ^ 20) : pgnum (page2pa n ||| pteP ||| pteU) = n := by
  rw [BitVec.or_assoc, pgnum_page2pa_or h (by decide)]

/-- The pages of a window are where booting put them. -/
theorem Window.entry (h : KernInv (Managed cfg k₀) k₀ k) (hk : KernelHalf (Managed cfg k₀) k₀)
    {i first : ℕ} (hw : Window k₀ i first) (hdir : k.dirs e = some d) (hi : nupde ≤ i)
    (hne : i ≠ pdx uvpt) {t : ℕ} (ht : t < nptentries) :
    (Present (k.pm.mem d i) ∧ k.pm.mem d i &&& pteU = pteU) ∧
    k.pm.mem (pgnum (k.pm.mem d i)) t = page2pa (first + t) ||| pteP ||| pteU := by
  obtain ⟨q, hpde, hq, hent⟩ := hw
  have hword : k.pm.mem d i = newPde q := by rw [h.half e d i hdir hi, if_neg hne, hpde]
  have hpres : Present (k₀.mem k₀.kernPgdir i) := by
    rw [hpde]
    exact present_newPde q
  have hM := (hk.upper i hi hne hpres).1
  rw [hpde, pgnum_newPde hq] at hM
  rw [hword, pgnum_newPde hq, h.kernel q hM, hent t ht]
  refine ⟨⟨present_newPde q, ?_⟩, rfl⟩
  rw [newPde, BitVec.or_assoc _ pteU, entry_and (by decide)]
  decide

theorem uenvs_pdx : pdx uenvs = 955 ∧ pdx upages = 956 := by decide

theorem BootConfig.windows_lt (cfg : BootConfig) {t : ℕ} (ht : t < nptentries) :
    cfg.pagesPage + t < 2 ^ 20 ∧ cfg.envsPage + t < 2 ^ 20 ∧ cfg.pagesPage ≤ cfg.envsPage ∧
      256 < cfg.pagesPage := by
  have h1 := cfg.fits
  have h2 := cfg.npages_le
  have h3 := cfg.image
  have h4 : extphysmem / pgsize = 256 := by decide
  have h5 : nptentries = 1024 := rfl
  simp only [BootConfig.envsPage, BootConfig.pagesPage]
  omega

/-- **What a program can read above `UTOP`**, apart from its own page tables. -/
theorem readable_iff (hboot : Booted cfg k₀) (h : KernInv (Managed cfg k₀) k₀ m.kern)
    (hdir : m.kern.dirs e = some d) (hp : cfg.Unreserved p) (hno : ¬ Owns m e p) :
    Readable m e p ↔ iophysmem / pgsize ≤ p ∧ p < cfg.envsPage + 1024 := by
  have hio : iophysmem / pgsize = 160 := by decide
  obtain ⟨hpe, hpp⟩ := uenvs_pdx
  constructor
  · rintro ⟨d', va, hd', hva, hwalk⟩
    obtain rfl : d = d' := Option.mem_unique hdir hd'
    obtain ⟨⟨hpde, -⟩, ⟨hpte, hU⟩, hpg⟩ := walk_some hwalk
    have hup := nupde_le_pdx hva
    have ht := ptx_lt va
    obtain ⟨hlt1, hlt2, hle, h256⟩ := cfg.windows_lt ht
    have hn : nptentries = 1024 := rfl
    by_cases huv : pdx va = pdx uvpt
    · -- the directory as its own page table
      have hword := h.half e d (pdx va) hdir hup
      rw [if_pos huv, BitVec.or_assoc] at hword
      have hself : pgnum (m.kern.pm.mem d (pdx va)) = d := by
        rw [hword]
        exact pgnum_page2pa_or (h.pages.managed_lt (h.pages.wf.dir_managed hdir)) (by decide)
      rw [hself] at hpte hpg
      exact absurd (Or.inr ⟨d, hdir, Or.inr ⟨_, hpte, hpg⟩⟩) hno
    by_cases hen : pdx va = pdx uenvs
    · obtain ⟨-, hent⟩ := Window.entry h hboot.half hboot.envs hdir (hen ▸ hup) (hen ▸ huv) ht
      rw [← hen] at hent
      rw [hent, pgnum_window hlt2] at hpg
      omega
    by_cases hpa : pdx va = pdx upages
    · obtain ⟨-, hent⟩ := Window.entry h hboot.half hboot.pages hdir (hpa ▸ hup) (hpa ▸ huv) ht
      rw [← hpa] at hent
      rw [hent, pgnum_window hlt1] at hpg
      omega
    -- elsewhere `PTE_U` is missing
    have hword := h.half e d (pdx va) hdir hup
    rw [if_neg huv] at hword
    rw [hword] at hpde hU
    obtain ⟨hM, -⟩ := hboot.half.upper _ hup huv hpde
    rw [h.kernel _ hM, hboot.other _ hup hen hpa huv hpde _ ht] at hU
    exact absurd hU (by decide)
  · rintro ⟨hlo, hhi⟩
    have hend : cfg.kernelEnd ≤ p := by
      by_contra hlt
      exact hp.2 (Or.inr (Or.inl ⟨hlo, by omega⟩))
    have hke : cfg.kernelEnd = cfg.envsPage + 31 := rfl
    obtain ⟨t, ht, rfl⟩ : ∃ t < 1024, p = cfg.envsPage + t := ⟨p - cfg.envsPage, by omega, by omega⟩
    obtain ⟨-, hlt, -⟩ := cfg.windows_lt (t := t) ht
    set v := 955 * 1024 + t with hv
    have hpdx : pdx (pageVa v) = pdx uenvs := by
      rw [pdx_pageVa (by omega)]
      omega
    have hptx : ptx (pageVa v) = t := by
      rw [ptx_pageVa (by omega)]
      omega
    obtain ⟨hpde, hent⟩ := Window.entry h hboot.half hboot.envs hdir (by decide) (by decide)
      (show t < nptentries from ht)
    refine ⟨d, pageVa v, hdir, ?_, ?_⟩
    · rw [BitVec.lt_def, utop_toNat, pageVa_toNat (by omega), show nupde = 955 from rfl]
      omega
    · unfold walk
      simp only [hpdx, hptx]
      rw [if_pos hpde, hent, if_pos, pgnum_window hlt]
      refine ⟨present_or present_or_pteP _, ?_⟩
      rw [entry_and (by decide)]
      decide

/-! ## A crowd of environments -/

/-- While the kernel starts, `n` environments have been created. -/
structure Crowd (cfg : BootConfig) (k₀ : Pmap) (r n : ℕ) (m : Machine) : Prop where
  inv : KernInv (Managed cfg k₀) k₀ m.kern
  bounded : Bounded m.kern.dirs m.kern.pm
  spare : Spare (Managed cfg k₀) m.kern.dirs r m.kern.pm
  boot : ∀ i, m.mode i = .boot
  free : ∃ l, IsChain (fun e => (m.kern.envs e).envLink) m.kern.envFreeList l ∧ nenv ≤ l.length + n
  alive : ∃ s : Finset ℕ, s.card = n ∧ ∀ e ∈ s, ∃ d, m.kern.dirs e = some d

/-- One more is created, if there are three pages for it. -/
theorem Crowd.create {r n : ℕ} (hboot : Booted cfg k₀) (h : Crowd cfg k₀ (3 + r) n m) (hn : n < nenv) :
    ∃ m', (jos cfg).step m (.create bareElf .user) m' ∧ PageStep m (.create bareElf .user) ∧
      Crowd cfg k₀ r (n + 1) m' := by
  obtain ⟨l, hl, hlen⟩ := h.free
  obtain ⟨s, hcard, halive⟩ := h.alive
  obtain ⟨l', hl', hnone⟩ := h.inv.freeEnvs
  obtain rfl := hl.det hl'
  obtain ⟨e, l, rfl⟩ : ∃ e t, l = e :: t := by
    cases l with
    | nil => exact absurd hlen (by simpa using hn)
    | cons e t => exact ⟨e, t, rfl⟩
  have hwp := envCreate_wp bareElf .user h.inv hboot.half h.bounded
    (fun ph hph => absurd hph List.not_mem_nil) (m := r) h.spare
  obtain ⟨k1, e', hk1, hc⟩ : ∃ k1 e', envCreate bareElf .user m.kern = .ok () k1 ∧
      Created (Managed cfg k₀) k₀ m.kern e' r k1 := by
    unfold wp at hwp
    split at hwp
    · rename_i u k1 heq
      obtain ⟨e', hc, -⟩ := hwp
      exact ⟨k1, e', heq, hc⟩
    · exact hwp.elim
    · exact absurd ⟨rfl, rfl, by rw [hl.1]; simp⟩ hwp.2
  obtain rfl : e = e' := Option.mem_unique hl.1 hc.head
  have hdirs : ∀ e', e' ≠ e → k1.dirs e' = m.kern.dirs e' := fun e' he' => by
    rw [Kern.dirs, hc.others e' he', Kern.dirs]
  have hes : e ∉ s := fun hmem => by
    obtain ⟨d, hd⟩ := halive e hmem
    rw [(hnone e (List.mem_cons_self ..)).2] at hd
    cases hd
  refine ⟨{ m with kern := k1 }, ⟨h.boot, ?_⟩, ⟨fun _ _ hf => (by simp [Event.call] at hf), h.bounded,
    fun ph hph => absurd hph List.not_mem_nil, ?_⟩,
    hc.inv, hc.bounded, hc.spare, h.boot, ⟨l, ?_, ?_⟩, insert e s, ?_, fun e' he' => ?_⟩
  · simp only [Event.exec, hk1]
  · exact (h.spare.mono (Nat.le_add_right 3 r)).freeAtLeast h.inv.pages
  · rw [hc.freeList]
    refine hl.2.congr fun y hy => ?_
    have hye : y ≠ e := fun heq => (List.nodup_cons.1 hl.nodup).1 (heq ▸ hy)
    rw [hc.others y hye]
  · rw [List.length_cons] at hlen
    omega
  · rw [Finset.card_insert_of_notMem hes, hcard]
  · rcases Finset.mem_insert.1 he' with rfl | hmem
    · exact hc.dir
    · obtain ⟨d, hd⟩ := halive e' hmem
      exact ⟨d, (hdirs e' fun heq => hes (heq ▸ hmem)).trans hd⟩

/-- An environment is created, with enough memory for it. -/
def CreateStep (m : Machine) (a : Event) : Prop :=
  PageStep m a ∧ ∃ binary type, a = .create binary type

/-- As many environments as there is room for can be created. -/
theorem exists_crowd (cfg : BootConfig) (r n : ℕ) (hl : cfg.lapics = 0)
    (hroom : 3 * n + r + 68 ≤ cfg.npages - cfg.kernelEnd) (hn : n ≤ nenv) :
    ∃ k₀ m, (jos cfg).Reach CreateStep m ∧ Booted cfg k₀ ∧ Crowd cfg k₀ r n m := by
  obtain ⟨k₀, hboots⟩ := boots_of_room cfg (by omega) hl
  have hboot := boot_spec hboots
  suffices hgo : ∀ j ≤ n, ∃ m, (jos cfg).Reach CreateStep m ∧ Crowd cfg k₀ (3 * (n - j) + r) j m by
    obtain ⟨m, hm, hcrowd⟩ := hgo n le_rfl
    rw [Nat.sub_self, Nat.zero_add] at hcrowd
    exact ⟨k₀, m, hm, hboot, hcrowd⟩
  intro j
  induction j with
  | zero =>
    intro _
    obtain ⟨⟨l, hchain, hmem⟩, -, hdirs, hpm, -, -⟩ := envInit_spec k₀
    refine ⟨⟨envInit k₀, fun _ => none, fun _ => .boot⟩, .init ⟨k₀, hboots, rfl⟩,
      envInit_kernInv hboot, envInit_bounded k₀, ?_, fun _ => rfl, ⟨l, hchain, ?_⟩, ∅, rfl, by simp⟩
    · rw [hdirs]
      exact hboot.spare.mono (by omega)
    · have hsub : Finset.range nenv ⊆ l.toFinset := fun e he =>
        List.mem_toFinset.2 ((hmem e).2 (Finset.mem_range.1 he))
      have h1 := (Finset.card_le_card hsub).trans (List.toFinset_card_le l)
      rwa [Finset.card_range] at h1
  | succ j ih =>
    intro hj
    obtain ⟨m, hm, hcrowd⟩ := ih (by omega)
    rw [show 3 * (n - j) + r = 3 + (3 * (n - (j + 1)) + r) by omega] at hcrowd
    obtain ⟨m', hstep, hok, hcrowd'⟩ := hcrowd.create hboot (by omega)
    exact ⟨m', .step hm ⟨hok, _, _, rfl⟩ hstep, hcrowd'⟩

/-- The directory of another environment is not among the pages of `e`. -/
theorem not_owns_dir (hboot : Booted cfg k₀) (h : KernInv (Managed cfg k₀) k₀ m.kern) {e' : ℕ}
    (hdir : m.kern.dirs e = some d) (hdir' : m.kern.dirs e' = some p) (hne : e' ≠ e) :
    ¬ Owns m e p := by
  have hwf := h.pages.wf
  have hdp : d ≠ p := by
    rintro rfl
    exact hne (hwf.dir_inj hdir' hdir)
  rintro (⟨x, -, hx⟩ | ⟨d', hd', heq | ⟨i, hpres, hpg⟩⟩)
  · exact hwf.page_ne_dir hx hdir'
  · exact hdp (Option.mem_unique hdir hd' |>.trans heq.symm)
  obtain rfl : d = d' := Option.mem_unique hdir hd'
  by_cases hi : i < nupde
  · exact hwf.table_ne_dir (view_table_some.2 ⟨d, hdir, hi, hpres, hpg⟩) hdir'
  have hword := h.half e d i hdir (Nat.le_of_not_lt hi)
  by_cases huv : i = pdx uvpt
  · rw [if_pos huv, BitVec.or_assoc] at hword
    rw [hword, pgnum_page2pa_or (h.pages.managed_lt (hwf.dir_managed hdir)) (by decide)] at hpg
    exact hdp hpg
  · rw [if_neg huv] at hword
    rw [hword] at hpres hpg
    exact (hboot.half.upper i (Nat.le_of_not_lt hi) huv hpres).1
      (hpg ▸ hwf.dir_managed hdir')

/-! ## What the windows show -/

/-- **The windows show what lies behind the arrays.**  Over every run, a page that
the allocator hands out and that `e` does not own is hidden from `e` exactly if it
lies below the I/O hole or behind the window at `UENVS`. -/
theorem windows_expose (cfg : BootConfig) (m : Machine) (h : (jos cfg).Reach PageStep m)
    (e d p : ℕ) (hdir : m.kern.dirs e = some d) (hp : cfg.Unreserved p) (hno : ¬ Owns m e p) :
    ¬ Readable m e p ↔ p < iophysmem / pgsize ∨ cfg.envsPage + 1024 ≤ p := by
  obtain ⟨k₀, hboot, hinv, -⟩ := MachInv.reach h
  rw [readable_iff hboot hinv hdir hp hno, not_and_or, not_le, not_lt]

/-- What the windows show of the directory of another environment. -/
theorem windows_expose_crowd : ∃ m e e' p, (jos smallPc).Reach PageStep m ∧ e' ≠ e ∧
    m.kern.dirs e' = some p ∧ smallPc.Unreserved p ∧
    (¬ Readable m e p ↔ p < iophysmem / pgsize ∨ smallPc.envsPage + 1024 ≤ p) := by
  obtain ⟨k₀, m, hcreate, hboot, hcrowd⟩ := exists_crowd smallPc 0 2 rfl (by decide) (by decide)
  have hreach : (jos smallPc).Reach PageStep m := hcreate.mono fun _ _ h => h.1
  obtain ⟨s, hcard, halive⟩ := hcrowd.alive
  obtain ⟨e, e', hee, rfl⟩ := Finset.card_eq_two.1 hcard
  obtain ⟨d, hdir⟩ := halive e (by simp)
  obtain ⟨p, hdir'⟩ := halive e' (by simp)
  have hp : smallPc.Unreserved p := (hcrowd.inv.pages.wf.dir_managed hdir').1
  exact ⟨m, e, e', p, hreach, hee.symm, hdir', hp, windows_expose smallPc m hreach e d p hdir hp
    (not_owns_dir hboot hcrowd.inv hdir hdir' hee.symm)⟩

/-- **One environment reads the page directory of another**, on a machine with four
megabytes: some of 162 environments have a directory behind the kernel. -/
theorem window_leak : ∃ m e e' p, (jos smallPc).Reach PageStep m ∧ e' ≠ e ∧
    (∃ d, m.kern.dirs e = some d) ∧ m.kern.dirs e' = some p ∧ smallPc.Unreserved p ∧
    ¬ Owns m e p ∧ Readable m e p := by
  obtain ⟨k₀, m, hcreate, hboot, hcrowd⟩ := exists_crowd smallPc 0 162 rfl (by decide) (by decide)
  have hreach : (jos smallPc).Reach PageStep m := hcreate.mono fun _ _ h => h.1
  obtain ⟨s, hcard, halive⟩ := hcrowd.alive
  have hwf := hcrowd.inv.pages.wf
  obtain ⟨e, he⟩ := Finset.card_pos.1 (by omega : 0 < s.card)
  obtain ⟨d, hdir⟩ := halive e he
  -- there are only 160 pages below the I/O hole
  obtain ⟨e', he', p, hdir', hlo⟩ : ∃ e' ∈ s.erase e, ∃ p, m.kern.dirs e' = some p ∧ 160 ≤ p := by
    by_contra hcon
    push Not at hcon
    have hle : (s.erase e).card ≤ (Finset.range 160).card := by
      refine Finset.card_le_card_of_injOn (fun e' => (m.kern.dirs e').getD 0) ?_ ?_
      · intro e' he'
        obtain ⟨p, hp⟩ := halive e' (Finset.mem_of_mem_erase he')
        simp only [hp, Option.getD_some]
        exact Finset.mem_coe.2 (Finset.mem_range.2 (hcon e' he' p hp))
      · intro e1 he1 e2 he2 heq
        obtain ⟨p1, hp1⟩ := halive e1 (Finset.mem_of_mem_erase he1)
        obtain ⟨p2, hp2⟩ := halive e2 (Finset.mem_of_mem_erase he2)
        simp only [hp1, hp2, Option.getD_some] at heq
        subst heq
        exact hwf.dir_inj hp1 hp2
    rw [Finset.card_erase_of_mem he, Finset.card_range] at hle
    omega
  have hne := Finset.ne_of_mem_erase he'
  have hno := not_owns_dir hboot hcrowd.inv hdir hdir' hne
  have hp : smallPc.Unreserved p := (hwf.dir_managed hdir').1
  refine ⟨m, e, e', p, hreach, hne, ⟨d, hdir⟩, hdir', hp, hno, ?_⟩
  refine (readable_iff hboot hcrowd.inv hdir hp hno).2 ⟨hlo, ?_⟩
  exact hp.1.trans_le (by decide)

end OsLab.Jos
