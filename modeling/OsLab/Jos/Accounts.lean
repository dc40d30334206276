import OsLab.Jos.Solo

/-!
# The books of the page allocator

* `pages_accounted`: **over every run**, each page is referenced as often as its
  `pp_ref` says and the free list holds exactly the pages with none.
* `kernel_intact`: the kernel's mappings stay as they were.
* `counters_never_wrap`: the sixteen bits of `pp_ref` are enough as long as no
  call maps a page that has 65535 mappings already.  Nothing in the kernel checks
  that: `counter_wraps` is a run of 65536 calls of `sys_page_map` after which a
  page has more mappings than `pp_ref` can hold.
-/

namespace OsLab.Jos

open Exec Spaces

/-- **The books of the page allocator are right in every reachable state.** -/
theorem pages_accounted (cfg : BootConfig) (m : Machine) (h : (jos cfg).Reach PageStep m)
    (hb : Bounded m.kern.dirs m.kern.pm) :
    let s := view m.kern.dirs m.kern.pm
    (∀ x, s.pte x = 0#32 ∨ Present (s.pte x)) ∧
    (∀ p, Managed cfg m.kern.pm p → (m.kern.pm.pages p).ppRef.toNat =
      s.mapCount p + refCount s.table tableSlots p + refCount s.dir dirSlots p) ∧
    (∃ l, IsChain m.kern.pm.link m.kern.pm.pageFreeList l ∧ l.Nodup ∧
      ∀ p, p ∈ l ↔ Managed cfg m.kern.pm p ∧ (m.kern.pm.pages p).ppRef = 0#16) ∧
    ∀ a : Event, a.PermsOk → a.HasRoom m → a.exec m ≠ .panic .pageFree := by
  intro s
  have hm := MachInv.reach h
  obtain ⟨k₀, hboot, hinv, -⟩ := id hm
  have hman := hinv.managed_iff hboot.half
  have hwf := hinv.pages.wf
  -- a page has one purpose, so the bound on its mappings bounds its references
  have hlt : ∀ p, s.refs p < 65536 := by
    intro p
    by_cases h1 : ∃ x, s.page x = some p
    · obtain ⟨x, hx⟩ := h1
      rw [hwf.refs_page hx]
      exact hb p
    by_cases h2 : ∃ x, s.table x = some p
    · obtain ⟨x, hx⟩ := h2
      rw [hwf.refs_table hx]
      decide
    by_cases h3 : ∃ e, s.dir e = some p
    · obtain ⟨e, he⟩ := h3
      rw [hwf.refs_dir he]
      decide
    push Not at h1 h2 h3
    rw [hwf.refs_eq_zero.2 ⟨h1, h2, h3⟩]
    decide
  have href : ∀ p, Managed cfg m.kern.pm p → (m.kern.pm.pages p).ppRef.toNat = s.refs p := by
    intro p hp
    rw [hinv.pages.book.ref_eq ((hman p).1 hp), BitVec.toNat_ofNat]
    exact Nat.mod_eq_of_lt (hlt p)
  refine ⟨hwf.pte_shape, href, ?_, fun a hperm hroom => (hm.step ⟨hperm, hb, hroom⟩).1⟩
  obtain ⟨l, hl, hmem⟩ := hinv.pages.book.free
  refine ⟨l, hl, hl.nodup, fun p => ?_⟩
  rw [hmem, ← hman p]
  constructor
  · rintro ⟨hp, h0, -⟩
    refine ⟨hp, BitVec.eq_of_toNat_eq ?_⟩
    rw [href p hp, h0]
    rfl
  · rintro ⟨hp, h0⟩
    refine ⟨hp, ?_, not_false⟩
    rw [← href p hp, h0]
    rfl

/-- A program that runs on a small machine: its pages are accounted for. -/
theorem pages_accounted_solo : ∃ m, (jos smallPc).Reach PageStep m ∧
    Bounded m.kern.dirs m.kern.pm ∧ m.mode 0 = .user ∧
    (∀ p, Managed smallPc m.kern.pm p → (m.kern.pm.pages p).ppRef.toNat =
      (view m.kern.dirs m.kern.pm).refs p) ∧
    ∃ l, IsChain m.kern.pm.link m.kern.pm.pageFreeList l ∧ l.Nodup ∧
      ∀ p, p ∈ l ↔ Managed smallPc m.kern.pm p ∧ (m.kern.pm.pages p).ppRef = 0#16 := by
  obtain ⟨k₀, m, pp, hreach, hsolo, -⟩ :=
    exists_solo smallPc 0 rfl (by decide)
  have hreach' : (jos smallPc).Reach PageStep m := hreach.mono fun _ _ h => h.1
  obtain ⟨-, href, hfree, -⟩ := pages_accounted smallPc m hreach' hsolo.bounded
  exact ⟨m, hreach', hsolo.bounded, hsolo.mode, href, hfree⟩

/-- The condition on the steps of a run under which no counter wraps. -/
def CountStep (m : Machine) (a : Event) : Prop := a.PermsOk ∧ a.HasRoom m ∧ a.CountOk m

/-- The invariant and the bound hold together in such runs. -/
theorem MachInv.reach_counts {cfg : BootConfig} {m : Machine} (h : (jos cfg).Reach CountStep m) :
    MachInv cfg m ∧ Bounded m.kern.dirs m.kern.pm := by
  refine h.invariant (I := fun m => MachInv cfg m ∧ Bounded m.kern.dirs m.kern.pm) ?_ ?_
  · intro m hm
    refine ⟨MachInv.start hm, ?_⟩
    obtain ⟨k₀, -, rfl⟩ := hm
    exact envInit_bounded k₀
  · rintro m a m' ⟨hm, hb⟩ ⟨hperm, hroom, hcount⟩ ⟨-, hexec⟩
    obtain ⟨hm', hb'⟩ := (hm.step ⟨hperm, hb, hroom⟩).2 m' hexec
    exact ⟨hm', hb' hcount⟩

/-- **No counter wraps**, and no page on the free list is mapped, in runs whose
calls do not map a page that has 65535 mappings already. -/
theorem counters_never_wrap (cfg : BootConfig) (m : Machine) (h : (jos cfg).Reach CountStep m) :
    (∀ p, (view m.kern.dirs m.kern.pm).mapCount p ≤ 65535) ∧
    ∀ l, IsChain m.kern.pm.link m.kern.pm.pageFreeList l →
      ∀ p ∈ l, (view m.kern.dirs m.kern.pm).mapCount p = 0 := by
  obtain ⟨⟨k₀, -, hk, -⟩, hb⟩ := MachInv.reach_counts h
  refine ⟨fun p => Nat.lt_succ_iff.1 (hb p), fun l hl p hp => ?_⟩
  obtain ⟨l', hl', hmem⟩ := hk.pages.book.free
  obtain rfl := hl.det hl'
  have h0 := ((hmem p).1 hp).2.1
  rw [refs] at h0
  omega

/-- The counters of a program that has just started. -/
theorem counters_never_wrap_solo : ∃ m, (jos smallPc).Reach CountStep m ∧ m.mode 0 = .user ∧
    ∀ p, (view m.kern.dirs m.kern.pm).mapCount p ≤ 65535 := by
  obtain ⟨k₀, m, pp, hreach, hsolo, -⟩ :=
    exists_solo smallPc 0 rfl (by decide)
  have hreach' : (jos smallPc).Reach CountStep m :=
    hreach.mono fun _ _ h => ⟨h.1.1, h.1.2.2, h.countOk⟩
  exact ⟨m, hreach', hsolo.mode, (counters_never_wrap smallPc m hreach').1⟩

/-- A call that maps the stack of the program once more, at the address of page `i`. -/
def mapStack (i : ℕ) : Event :=
  .trap 0 ⟨0#32, 0, none⟩ (callTf 5#32 0#32 stackVa 0#32 (pageVa i) (pteU ||| pteW ||| pteP))

theorem mapStack_call (i : ℕ) : (mapStack i).call =
    some (.pageMap 0#32 stackVa 0#32 (pageVa i) (pteU ||| pteW ||| pteP)) := rfl

/-- The program has mapped its stack at the first `i` pages of its memory. -/
structure MappedOften (k₀ : Pmap) (pp i : ℕ) (m : Machine) : Prop where
  solo : Solo smallPc k₀ (100 - (i + 1023) / 1024) m
  stack : HasStack m pp
  often : ∀ j < i, (view m.kern.dirs m.kern.pm).page (slot 0 (pageVa j)) = some pp

variable {k₀ : Pmap} {pp i : ℕ} {m : Machine}

theorem slot_pageVa (hi : i < 65536) : slot 0 (pageVa i) = (0, i / 1024, i % 1024) := by
  rw [slot, pdx_pageVa (by omega), ptx_pageVa (by omega)]

/-- As many mappings as slots. -/
theorem MappedOften.le_mapCount (h : MappedOften k₀ pp i m) (hi : i ≤ 65536) :
    i ≤ (view m.kern.dirs m.kern.pm).mapCount pp := by
  have hinj : Set.InjOn (fun j => slot 0 (pageVa j)) (Finset.range i : Set ℕ) := by
    intro j hj j' hj' heq
    have h1 := Finset.mem_range.1 hj
    have h2 := Finset.mem_range.1 hj'
    simp only [slot_pageVa (show j < 65536 by omega), slot_pageVa (show j' < 65536 by omega),
      Prod.mk.injEq] at heq
    omega
  calc i = ((Finset.range i).image fun j => slot 0 (pageVa j)).card := by
        rw [Finset.card_image_of_injOn hinj, Finset.card_range]
    _ ≤ (view m.kern.dirs m.kern.pm).mapCount pp := by
        refine Finset.card_le_card fun x hx => ?_
        obtain ⟨j, hj, rfl⟩ := Finset.mem_image.1 hx
        have hj' := Finset.mem_range.1 hj
        refine Finset.mem_filter.2 ⟨?_, h.often j hj'⟩
        rw [slot_pageVa (by omega)]
        refine mem_pteSlots.2 ⟨by decide, ?_, Nat.mod_lt _ (by decide)⟩
        show j / 1024 < 955
        omega

theorem stack_page (h : HasStack m pp) (hpp : pp < 2 ^ 20) :
    (view m.kern.dirs m.kern.pm).page (slot 0 stackVa) = some pp := by
  rw [page, show (view m.kern.dirs m.kern.pm).pte (slot 0 stackVa) = _ from h]
  exact target_eq_some.2 ⟨present_mkPte pp _, pgnum_mkPte hpp (by decide)⟩

/-- One more mapping. -/
theorem MappedOften.step (h : MappedOften k₀ pp i m) (hi : i < 65536)
    (hM : Managed smallPc k₀ pp) :
    ∃ m', (jos smallPc).step m (mapStack i) m' ∧
      (Bounded m'.kern.dirs m'.kern.pm → MappedOften k₀ pp (i + 1) m') := by
  set tf := callTf 5#32 0#32 stackVa 0#32 (pageVa i) (pteU ||| pteW ||| pteP) with htf
  have hk := h.solo.saved_inv tf
  have hd := saved_dirs m tf
  have hpm : (m.saved tf).pm = m.kern.pm := rfl
  obtain ⟨d, hdir⟩ := h.solo.dir
  have hpp := h.solo.inv.pages.managed_lt hM
  have hpg := stack_page h.stack hpp
  have hva : (pageVa i).toNat = i * 4096 := pageVa_toNat (by omega)
  have hbadva : ¬ BadVa (pageVa i) := by
    rintro (hle | hne)
    · have h1 : utop.toNat ≤ (pageVa i).toNat := hle
      have h2 : utop.toNat = 955 * 4194304 := utop_toNat
      omega
    · refine hne (BitVec.eq_of_toNat_eq ?_)
      rw [roundDown_toNat]
      omega
  have hslot : slot 0 stackVa ≠ slot 0 (pageVa i) := by
    refine slot_ne ?_
    rw [show stackVa.toNat = 4005548032 by decide]
    omega
  have hspare : ∃ r, Managed smallPc k₀ r ∧ (view m.kern.dirs m.kern.pm).refs r = 0 :=
    (h.solo.spare.mono (show 0 + 1 ≤ _ by omega)).exists
  obtain ⟨p', hcall, hmap⟩ := sysPageMap_self hk (by rw [hd, hpm]; exact h.solo.bounded)
    stackVa (pageVa i) (pteU ||| pteW ||| pteP) h.solo.cpu (by rw [hd]; exact hdir) (by decide) hbadva
    (by rw [hd, hpm]; exact hpg) (by decide) (by decide)
    (by rw [hd, hpm, show (view m.kern.dirs m.kern.pm).pte (slot 0 stackVa) = _ from h.stack,
          mkPte_and (by decide)]
        decide) (by rw [hd, hpm]; exact hspare)
  rw [hd, hpm] at hmap
  have hne : (view m.kern.dirs m.kern.pm).refs pp ≠ 0 := fun h0 =>
    (h.solo.inv.pages.wf.refs_eq_zero.1 h0).1 _ hpg
  -- a new table is needed only once in 1024 calls
  have hs : Spare (Managed smallPc k₀) m.kern.dirs (100 - (i + 1 + 1023) / 1024) p' := by
    by_cases h0 : i % 1024 = 0
    · obtain ⟨s, hcard, hfree⟩ := h.solo.spare
      refine hmap.spare h.solo.inv.pages.wf (s := s) (by omega) fun p hp => ?_
      exact ⟨(hfree p hp).1, (hfree p hp).2, fun heq => hne (heq ▸ (hfree p hp).2)⟩
    · refine hmap.spare_of_table h.solo.inv.pages.wf hne ?_ (h.solo.spare.mono (by omega))
      have hprev := h.often (i - 1) (by omega)
      rw [slot_pageVa (by omega)] at hprev
      obtain ⟨-, q, hq⟩ := h.solo.inv.pages.wf.pte_table
        (ne_zero_of_present (target_eq_some.1 hprev).1)
      rw [pdx_pageVa (by omega), show i / 1024 = (i - 1) / 1024 by omega, hq]
      simp
  obtain ⟨m', hstep, hpm', hd', hsolo, -⟩ := h.solo.call ⟨0#32, 0, none⟩ 5#32 0#32
    stackVa 0#32 (pageVa i) (pteU ||| pteW ||| pteP) hcall
    (hk.withPages (by rw [hd]; exact hmap.inv) (by rw [hd]; exact hmap.keeps))
    (by show Spare _ (m.saved tf).dirs (100 - (i + 1 + 1023) / 1024) p'; rw [hd]; exact hs) h.solo.cpu
    ((saved_status m tf).trans h.solo.status) ⟨d, by show (m.saved tf).dirs 0 = _; rw [hd, hdir]⟩
  have hdd : m'.kern.dirs = m.kern.dirs := hd'.trans hd
  refine ⟨m', hstep, fun hb => ⟨hsolo ?_, ?_, fun j hj => ?_⟩⟩
  · rw [← hd', ← hpm']
    exact hb
  · rw [HasStack, hdd, hpm', hmap.pte_other _ hslot]
    exact h.stack
  · rw [hdd, hpm', hmap.page_eq]
    by_cases hji : j = i
    · rw [hji, Function.update_self]
    · have hne' : slot 0 (pageVa j) ≠ slot 0 (pageVa i) := by
        refine slot_ne ?_
        rw [pageVa_toNat (by omega)]
        omega
      rw [Function.update_of_ne hne']
      exact h.often j (by omega)

/-- **A counter that wraps.**  A program maps its stack at 65536 more addresses,
with permissions it may ask for: its one page then has more mappings than `pp_ref`
can hold. -/
theorem counter_wraps : ∃ m p, (jos smallPc).Reach (fun m a => a.PermsOk ∧ a.HasRoom m) m ∧
    65535 < (view m.kern.dirs m.kern.pm).mapCount p := by
  obtain ⟨k₀, m0, pp, hreach, hsolo, hstack, hM, -⟩ :=
    exists_solo smallPc 100 rfl (by decide)
  have hreach0 : (jos smallPc).Reach (fun m a => a.PermsOk ∧ a.HasRoom m) m0 :=
    hreach.mono fun _ _ h => ⟨h.1.1, h.1.2.2⟩
  by_contra hcon
  push Not at hcon
  -- as long as nothing wraps, the program can go on
  have hgo : ∀ i ≤ 65536, ∃ m, (jos smallPc).Reach (fun m a => a.PermsOk ∧ a.HasRoom m) m ∧
      MappedOften k₀ pp i m := by
    intro i
    induction i with
    | zero => exact fun _ => ⟨m0, hreach0, hsolo, hstack, fun j hj => absurd hj (Nat.not_lt_zero j)⟩
    | succ i ih =>
      intro hi
      obtain ⟨m, hm, hoften⟩ := ih (by omega)
      obtain ⟨m', hstep, hnext⟩ := hoften.step (by omega) hM
      have hm' : (jos smallPc).Reach (fun m a => a.PermsOk ∧ a.HasRoom m) m' := by
        refine .step (a := mapStack i) hm ⟨fun call perm hcall hperm => ?_, trivial⟩ hstep
        rw [mapStack_call] at hcall
        obtain rfl := Option.some.inj hcall
        obtain rfl := Option.some.inj hperm
        decide
      exact ⟨m', hm', hnext fun p => Nat.lt_succ_of_le (hcon m' p hm')⟩
  obtain ⟨m, hm, hoften⟩ := hgo 65536 le_rfl
  have h1 := hoften.le_mapCount le_rfl
  have h2 := hcon m pp hm
  omega

end OsLab.Jos
