import OsLab.Jos.KernDir
import OsLab.Jos.KernSpec

/-!
# The state that booting leaves

`boot_spec`: whenever the kernel comes up, the pages on the free list are
exactly the unreserved ones that did not become page tables of the kernel, none
of them is referenced, and the upper half of the kernel's directory holds what
`mem_init` put there: the two windows for user mode at `UPAGES` and `UENVS`, and
nothing else that user mode may look at.

`boots_of_room`: with sixty-eight pages to spare it does come up.
-/

namespace OsLab.Jos

open Exec Spaces Function

/-! ## `page_init` -/

/-- The free list while `page_init` is at page `i`. -/
structure InitList (cfg : BootConfig) (i : ℕ) (l : List ℕ) (k : Pmap) : Prop where
  chain : IsChain k.link k.pageFreeList l
  mem_iff : ∀ p, p ∈ l ↔ p < i ∧ ¬ cfg.Reserved p
  ref : ∀ p ∈ l, (k.pages p).ppRef = 0#16

variable {l : List ℕ} {d : ℕ}

theorem pageInitLoop_spec (cfg : BootConfig) (n i : ℕ) {k : Pmap}
    (h : InitList cfg i l k) :
    ∃ l' k', pageInitLoop cfg n i k = .ok () k' ∧ InitList cfg (i + n) l' k' ∧
      k.SameLayout k' ∧ k'.mem = k.mem := by
  induction n generalizing i k l with
  | zero => exact ⟨l, k, rfl, h, Pmap.SameLayout.refl k, rfl⟩
  | succ n ih =>
    have hil : i ∉ l := fun hi => by
      have := ((h.mem_iff i).1 hi).1
      omega
    by_cases hres : cfg.Reserved i
    · set k1 : Pmap := { k with pages := update k.pages i ⟨none, 1#16⟩ } with hk1
      have hpages : ∀ p ∈ l, k1.pages p = k.pages p := by
        intro p hp
        have hpi : p ≠ i := fun heq => hil (heq ▸ hp)
        exact update_of_ne hpi _ _
      have h1 : InitList cfg (i + 1) l k1 := by
        refine ⟨h.chain.congr fun p hp => ?_, fun p => ?_, fun p hp => ?_⟩
        · rw [Pmap.link, hpages p hp, Pmap.link]
        · rw [h.mem_iff]
          constructor
          · rintro ⟨hlt, hp⟩
            exact ⟨by omega, hp⟩
          · rintro ⟨hlt, hp⟩
            refine ⟨?_, hp⟩
            have : p ≠ i := fun heq => hp (heq ▸ hres)
            omega
        · rw [hpages p hp]
          exact h.ref p hp
      obtain ⟨l', k', hk', hl', hlay, hmem⟩ := ih (i + 1) h1
      refine ⟨l', k', ?_, by rw [show i + (n + 1) = i + 1 + n by omega]; exact hl',
        ⟨hlay.1, hlay.2, hlay.3⟩, hmem⟩
      rw [pageInitLoop, modify_bind, if_pos hres, hk']
    · set k1 : Pmap := { k with
        pages := update k.pages i ⟨k.pageFreeList, 0#16⟩
        pageFreeList := some i } with hk1
      have hlink : k1.link = update k.link i k.pageFreeList := by
        funext p
        by_cases hp : p = i
        · subst hp
          simp [Pmap.link, hk1]
        · simp [Pmap.link, hk1, hp]
      have h1 : InitList cfg (i + 1) (i :: l) k1 := by
        refine ⟨?_, fun p => ?_, fun p hp => ?_⟩
        · rw [hlink]
          exact h.chain.push hil
        · rw [List.mem_cons, h.mem_iff]
          constructor
          · rintro (rfl | ⟨hlt, hp⟩)
            · exact ⟨by omega, hres⟩
            · exact ⟨by omega, hp⟩
          · rintro ⟨hlt, hp⟩
            by_cases hpi : p = i
            · exact Or.inl hpi
            · exact Or.inr ⟨by omega, hp⟩
        · by_cases hpi : p = i
          · subst hpi
            simp [hk1]
          · rcases List.mem_cons.1 hp with heq | hp
            · exact absurd heq hpi
            · simp only [hk1, update_of_ne hpi]
              exact h.ref p hp
      obtain ⟨l', k', hk', hl', hlay, hmem⟩ := ih (i + 1) h1
      refine ⟨l', k', ?_, by rw [show i + (n + 1) = i + 1 + n by omega]; exact hl',
        ⟨hlay.1, hlay.2, hlay.3⟩, hmem⟩
      rw [pageInitLoop, modify_bind, if_neg hres, hk']

namespace BootConfig

variable (cfg : BootConfig)

/-- The pages that `page_init` puts on the free list. -/
def Unreserved (p : ℕ) : Prop := p < cfg.npages ∧ ¬ cfg.Reserved p

theorem kernPgdir_reserved : cfg.Reserved cfg.kernPgdir := by
  have h := cfg.image
  have h1 : extphysmem / pgsize = 256 := by decide
  have h2 : iophysmem / pgsize = 160 := by decide
  refine Or.inr (Or.inl ⟨?_, ?_⟩)
  · rw [kernPgdir]
    omega
  · rw [kernPgdir, kernelEnd, envsPage, pagesPage]
    omega

theorem unreserved_of_le {p : ℕ} (h : cfg.kernelEnd ≤ p) (hp : p < cfg.npages) :
    cfg.Unreserved p := by
  have h3 : mpentryPaddr / pgsize = 7 := by decide
  have hk : cfg.kernelEnd = cfg.endPage + 1 + (cfg.npages * 8 + 4095) / 4096 + 31 := rfl
  refine ⟨hp, ?_⟩
  rintro (rfl | ⟨-, hlt⟩ | heq)
  · omega
  · omega
  · omega

end BootConfig

/-- The entries of the directory that `mem_init` fills. -/
def upperPdes : Finset ℕ := (Finset.Icc 955 1023).erase 957

theorem mem_upperPdes : d ∈ upperPdes ↔ d ≠ 957 ∧ 955 ≤ d ∧ d ≤ 1023 := by
  rw [upperPdes, Finset.mem_erase, Finset.mem_Icc]

theorem card_upperPdes : upperPdes.card = 68 := by decide

theorem pdx_uvpt : pdx uvpt = 957 := by decide

/-- The tables of the kernel are all above `UTOP`. -/
def NoUserTables (T : ℕ → Option ℕ) : Prop := ∀ d, d ∉ upperPdes → T d = none

theorem notMem_upperPdes (h : d < nupde) : d ∉ upperPdes := by
  intro hd
  have h1 := (mem_upperPdes.1 hd).2.1
  have h2 : nupde = 955 := rfl
  omega

theorem grows_noUserTables : Grows upperPdes NoUserTables := by
  intro T d p hT hd _ d' hd'
  rw [update_of_ne]
  · exact hT d' hd'
  · rintro rfl
    exact hd' hd

variable {cfg : BootConfig} {R : Prop} {k k' : Pmap} {E : ℕ → Word} {perm pa : Word} {v n b x : ℕ}

/-- The directory of the kernel during boot. -/
abbrev KBuild (cfg : BootConfig) (R : Prop) (E : ℕ → Word) (k : Pmap) : Prop :=
  Building cfg.kernPgdir cfg.Unreserved upperPdes R NoUserTables E k ∧
    k.npages = cfg.npages ∧ k.kernPgdir = cfg.kernPgdir

/-- **After `page_init`** the directory is empty and the list holds the unreserved
pages. -/
theorem initPages_spec (cfg : BootConfig) (R : Prop) (hfree : k.pageFreeList = none) (hnext : k.mmioNext = mmiobase)
    (hR : R → 68 ≤ cfg.npages - cfg.kernelEnd) :
    ∃ k', initPages cfg k = .ok () k' ∧ KBuild cfg R (fun _ => 0#32) k' ∧
      k'.mmioNext = mmiobase := by
  set k1 : Pmap := (({ k with npages := cfg.npages, kernPgdir := cfg.kernPgdir } : Pmap).zeroPage
    cfg.kernPgdir).setWord cfg.kernPgdir (pdx uvpt) (page2pa cfg.kernPgdir ||| pteU ||| pteP) with hk1
  have hinit : InitList cfg 0 [] k1 := by
    refine ⟨IsChain.nil_iff.2 hfree, fun p => ?_, fun p hp => absurd hp List.not_mem_nil⟩
    simp
  obtain ⟨l, k', hk', hl, hlay, hmem⟩ := pageInitLoop_spec cfg cfg.npages 0 hinit
  rw [Nat.zero_add] at hl
  have hnp : k'.npages = cfg.npages := hlay.npages
  have hkd : ∀ d, d ≠ pdx uvpt → k'.mem cfg.kernPgdir d = 0#32 := by
    intro d hd
    rw [hmem, mem_setWord, if_neg (fun hh => hd hh.2), mem_zeroPage, if_pos rfl]
  have hcover : ∀ p, cfg.Unreserved p ↔ p ∈ l := fun p => (hl.mem_iff p).symm
  refine ⟨k', ?_, ⟨⟨l, fun _ => none, ?_, ?_, fun _ _ => rfl⟩, hnp, hlay.kernPgdir⟩,
    hlay.mmioNext.trans hnext⟩
  · rw [initPages, modify_bind, modify_bind,
      modify_bind, hk']
  · have habs : ∀ {q : ℕ} {φ : Prop}, (none : Option ℕ) = some q → φ :=
      fun hf => absurd hf (by simp)
    refine ⟨?_, hl.chain, fun p hp => ?_, hl.ref, fun hmem => ?_, fun p => ?_, fun hf => habs hf,
      fun hf => habs hf, fun hf => habs hf, fun hf => habs hf, fun hf => habs hf, fun _ hd => ?_,
      fun hf => habs hf, fun hf => habs hf, fun _ _ => rfl⟩
    · rw [hnp]
      exact le_trans cfg.npages_le (by decide)
    · rw [hnp]
      exact ((hcover p).2 hp).1
    · exact ((hcover _).2 hmem).2 cfg.kernPgdir_reserved
    · rw [hcover]
      simp
    · rw [hkd _ hd]
      exact not_present_zero
  · intro hr
    -- the pages behind the kernel are all on the list
    have hsub : Finset.Ico cfg.kernelEnd cfg.npages ⊆ l.toFinset := by
      intro p hp
      rw [Finset.mem_Ico] at hp
      rw [List.mem_toFinset, ← hcover]
      exact cfg.unreserved_of_le hp.1 hp.2
    have h1 := Finset.card_le_card hsub
    rw [Nat.card_Ico] at h1
    have h2 := List.toFinset_card_le l
    have h3 := Finset.card_filter_le upperPdes fun d => (fun _ => none : ℕ → Option ℕ) d = none
    have h4 := hR hr
    rw [card_upperPdes] at h3
    unfold Room
    omega

/-! ## The mappings above `UTOP` -/

/-- A directory entry with something behind it has a table. -/
theorem KDir.table_of_entry {kd : ℕ} {U : ℕ → Prop} {T : ℕ → Option ℕ} {t : ℕ}
    (h : KDir kd U l T E k) (ht : t < 1024) (hne : E (d * 1024 + t) ≠ 0#32) : ∃ q, T d = some q := by
  cases hT : T d with
  | none => exact absurd (h.entry_none hT ht) hne
  | some q => exact ⟨q, rfl⟩

theorem in_upper (h : 955 * 1024 ≤ v) (hn : v + n ≤ 1024 * 1024)
    (hu : v + n ≤ 957 * 1024 ∨ 958 * 1024 ≤ v) :
    ∀ i < n, (v + i) / 1024 ∈ upperPdes ∧ (v + i) / 1024 ≠ pdx uvpt := by
  intro i hi
  rw [mem_upperPdes, pdx_uvpt]
  omega

/-- A region in the upper half. -/
theorem region_wp {va : Word} {s : ℕ} (hva : va = pageVa v)
    (hsize : (if s % pgsize ≠ 0 then s / pgsize + 1 else s / pgsize) = n)
    (hlo : 955 * 1024 ≤ v) (hhi : v + n ≤ 1024 * 1024)
    (hu : v + n ≤ 957 * 1024 ∨ 958 * 1024 ≤ v) (h : KBuild cfg R E k) :
    wp (bootMapRegion cfg.kernPgdir va s pa perm)
      (fun _ k' => KBuild cfg R (fillEntries E v n pa perm) k' ∧ k'.mmioNext = k.mmioNext)
      (fun _ => False) (fun _ => ¬ R) k := by
  refine wp_post (bootMapRegion_wp grows_noUserTables hva hsize hhi (in_upper hlo hhi hu) h.1)
    (fun _ k' hk' => ?_)
  exact ⟨⟨hk'.1, hk'.2.npages.trans h.2.1, hk'.2.kernPgdir.trans h.2.2⟩, hk'.2.mmioNext⟩

/-- The window for memory-mapped I/O starts at this page and ends before table 959. -/
@[irreducible] def mmioPage : ℕ := 958 * 1024

theorem mmioPage_eq : mmioPage = 958 * 1024 := by
  unfold mmioPage
  rfl

/-- **`mmio_map_region`** takes the next `n` pages of its window. -/
theorem mmioMapRegion_wp {size : Word} (hb : k.mmioNext = pageVa b)
    (hlo : mmioPage ≤ b) (hhi : b ≤ mmioPage + 1024) (hn : n ≤ 2)
    (hsize : roundUp (pa + size) - roundDown pa = BitVec.ofNat 32 (n * 4096))
    (h : KBuild cfg R E k) :
    wp (mmioMapRegion pa size)
      (fun r k' => r = pageVa b ∧ b + n < mmioPage + 1024 ∧
        KBuild cfg R (fillEntries E b n (roundDown pa) (ptePcd ||| ptePwt ||| pteW)) k' ∧
        k'.mmioNext = pageVa (b + n))
      (fun _ => False) (fun _ => R → mmioPage + 1024 ≤ b + n) k := by
  have hmp := mmioPage_eq
  have hsum : pageVa b + BitVec.ofNat 32 (n * 4096) = pageVa (b + n) := by
    rw [pageVa, pageVa, ← BitVec.ofNat_add, Nat.add_mul]
  have hlim : mmiolim ≤ pageVa (b + n) ↔ mmioPage + 1024 ≤ b + n := by
    rw [BitVec.le_def, pageVa_toNat (by omega), show mmiolim.toNat = 959 * 1024 * 4096 by decide]
    omega
  unfold mmioMapRegion
  rw [wp_bind, wp_read, wp_bind, wp_read]
  simp only [hsize, hb, hsum]
  by_cases hover : mmiolim ≤ pageVa (b + n)
  · rw [if_pos hover]
    exact fun _ => hlim.1 hover
  · rw [if_neg hover, wp_bind, h.2.2]
    rw [hlim] at hover
    have hnat : (BitVec.ofNat 32 (n * 4096)).toNat = n * 4096 := by
      rw [BitVec.toNat_ofNat]
      omega
    refine wp_conseq (region_wp (s := (BitVec.ofNat 32 (n * 4096)).toNat) (n := n) rfl ?_
      (by omega) (by omega) (Or.inr (by omega)) h) (fun _ k' hk' => ?_) (fun _ hf => hf)
      fun _ hr hR => absurd hR hr
    · rw [hnat, pgsize, Nat.mul_mod_left, Nat.mul_div_cancel _ (by decide)]
      rfl
    · refine ⟨rfl, by omega, ⟨?_, hk'.1.2.1, hk'.1.2.2⟩, rfl⟩
      obtain ⟨l, T, hkd, hrest⟩ := hk'.1.1
      exact ⟨l, T, ⟨hkd.1, hkd.2, hkd.3, hkd.4, hkd.5, hkd.6, hkd.7, hkd.8, hkd.9, hkd.10, hkd.11,
        hkd.12, hkd.13, hkd.14, hkd.15⟩, hrest⟩

/-- Clearing an entry that was made. -/
theorem clearKernPte_wp {P : Panic → Prop} (hv : v < 2 ^ 20) (hne : E v ≠ 0#32)
    (h : KBuild cfg R E k) :
    wp (clearKernPte cfg.kernPgdir (pageVa v))
      (fun _ k' => KBuild cfg R (update E v 0#32) k' ∧ k'.mmioNext = k.mmioNext)
      (fun _ => False) P k := by
  obtain ⟨⟨l, T, hkd, hroom, hT⟩, hnp, hkp⟩ := h
  obtain ⟨q, hq⟩ := hkd.table_of_entry (d := v / 1024) (t := v % 1024) (Nat.mod_lt _ (by decide))
    (by rw [Nat.div_add_mod']; exact hne)
  have hpdx := pdx_pageVa hv
  have hwalk := hkd.walk_found (pageVa v) (by rw [hpdx]; exact hq) false
  rw [clearKernPte, wp_bind]
  refine wp_of_ok hwalk ?_
  rw [ptx_pageVa hv]
  exact ⟨⟨⟨l, T, hkd.store hq, hroom, hT⟩, hnp, hkp⟩, rfl⟩

theorem fillEntries_page {pp : ℕ} (h : v ≤ x) (hx : x < v + n) :
    fillEntries E v n (page2pa pp) perm x = page2pa (pp + (x - v)) ||| pteP ||| perm := by
  rw [fillEntries, if_pos ⟨h, hx⟩, page2pa_add]

theorem fillEntries_off (h : ¬ (v ≤ x ∧ x < v + n)) :
    fillEntries E v n pa perm x = E x := by
  rw [fillEntries, if_neg h]

/-- The test of `mmio_map_region` leaves the window's table, empty again. -/
theorem mmioSelfTest_wp (hb : k.mmioNext = mmiobase) (h : KBuild cfg R (fun _ => 0#32) k) :
    wp (mmioSelfTest cfg.kernPgdir)
      (fun _ k' => KBuild cfg R (fun _ => 0#32) k' ∧ k'.mmioNext = pageVa (mmioPage + 3))
      (fun _ => False) (fun _ => ¬ R) k := by
  have hmp := mmioPage_eq
  rw [mmioSelfTest, wp_bind]
  refine wp_conseq (mmioMapRegion_wp (b := mmioPage) (n := 2) (by rw [hb, hmp]; decide) le_rfl (by omega)
    le_rfl (by decide) h) (fun mm1 k1 hk1 => ?_) (fun _ hf => hf) (fun _ hr hR => by have := hr hR; omega)
  obtain ⟨rfl, -, h₁, hb1⟩ := hk1
  rw [wp_bind]
  refine wp_conseq (mmioMapRegion_wp (b := mmioPage + 2) (n := 1) hb1 (by omega) (by omega) (by omega)
    (by decide) h₁) (fun mm2 k2 hk2 => ?_) (fun _ hf => hf) (fun _ hr hR => by have := hr hR; omega)
  obtain ⟨rfl, -, h₂, hb2⟩ := hk2
  -- the three entries that are there to be cleared
  set E2 := fillEntries (fillEntries (fun _ => 0#32) mmioPage 2 (roundDown 0#32)
    (ptePcd ||| ptePwt ||| pteW)) (mmioPage + 2) 1 (roundDown 0#32) (ptePcd ||| ptePwt ||| pteW)
    with hE2
  have hoff : ∀ x, ¬ (mmioPage ≤ x ∧ x < mmioPage + 3) → E2 x = 0#32 := by
    intro x hx
    rw [hE2, fillEntries, if_neg (by omega), fillEntries, if_neg (by omega)]
  have hon : ∀ x, mmioPage ≤ x → x < mmioPage + 3 → E2 x ≠ 0#32 := by
    intro x h1 h2
    have hfill : ∀ (F : ℕ → Word) (v n : ℕ), v ≤ x → x < v + n →
        fillEntries F v n (roundDown 0#32) (ptePcd ||| ptePwt ||| pteW) x ≠ 0#32 := by
      intro F v n hle hlt
      rw [fillEntries, if_pos ⟨hle, hlt⟩]
      exact ne_zero_of_present (present_or present_or_pteP _)
    by_cases hlast : x < mmioPage + 2
    · rw [hE2, fillEntries_off (by omega)]
      exact hfill _ _ _ h1 hlast
    · exact hfill _ _ _ (by omega) (by omega)
  rw [wp_bind]
  refine wp_post (clearKernPte_wp (by omega) (hon mmioPage le_rfl (by omega)) h₂)
    (fun _ k3 hk3 => ?_)
  obtain ⟨h₃, hb3⟩ := hk3
  rw [wp_bind, pageVa_succ]
  refine wp_post (clearKernPte_wp (by omega) ?_ h₃) (fun _ k4 hk4 => ?_)
  · rw [update_of_ne (by omega)]
    exact hon _ (by omega) (by omega)
  obtain ⟨h4, hb4⟩ := hk4
  refine wp_post (clearKernPte_wp (by omega) ?_ h4) (fun _ k5 hk5 => ?_)
  · rw [update_of_ne (by omega), update_of_ne (by omega)]
    exact hon _ (by omega) (by omega)
  obtain ⟨h5, hb5⟩ := hk5
  refine ⟨?_, by rw [hb5, hb4, hb3, hb2]⟩
  have hzero : update (update (update E2 mmioPage 0#32) (mmioPage + 1) 0#32)
      (mmioPage + 2) 0#32 = fun _ => 0#32 := by
    funext x
    by_cases h1 : x = mmioPage + 2
    · rw [h1, update_self]
    rw [update_of_ne h1]
    by_cases h2 : x = mmioPage + 1
    · rw [h2, update_self]
    rw [update_of_ne h2]
    by_cases h3 : x = mmioPage
    · rw [h3, update_self]
    rw [update_of_ne h3]
    exact hoff x (by omega)
  rwa [hzero] at h5

/-- What user mode may see of the kernel's upper half: the windows at `UPAGES` and
`UENVS`, each a whole page table from the start of its array on, and no more. -/
structure KernEntries (cfg : BootConfig) (E : ℕ → Word) : Prop where
  pages : ∀ t < 1024, E (956 * 1024 + t) = page2pa (cfg.pagesPage + t) ||| pteP ||| pteU
  envs : ∀ t < 1024, E (955 * 1024 + t) = page2pa (cfg.envsPage + t) ||| pteP ||| pteU
  other : ∀ x, x / 1024 ≠ 955 → x / 1024 ≠ 956 → E x &&& pteU = 0#32

/-- A region outside the two windows and without `PTE_U` keeps the windows. -/
theorem KernEntries.fill (h : KernEntries cfg E) (pp : ℕ)
    (hv : 957 * 1024 ≤ v) (hperm : (pteP ||| perm) &&& pteU = 0#32) :
    KernEntries cfg (fillEntries E v n (page2pa pp) perm) := by
  refine ⟨fun t ht => ?_, fun t ht => ?_, fun x h1 h2 => ?_⟩
  · rw [fillEntries_off (by omega), h.pages t ht]
  · rw [fillEntries_off (by omega), h.envs t ht]
  · by_cases hx : v ≤ x ∧ x < v + n
    · rw [fillEntries_page hx.1 hx.2, entry_and (by decide), hperm]
    · rw [fillEntries_off hx]
      exact h.other x h1 h2

/-- The directory with the two windows in it. -/
def KReady (cfg : BootConfig) (R : Prop) (k : Pmap) : Prop :=
  ∃ E, KernEntries cfg E ∧ KBuild cfg R E k

theorem mapKstacks_wp (n i : ℕ) (hn : i + n ≤ ncpuMax) (h : KReady cfg R k) :
    wp (mapKstacks cfg n i) (fun _ k' => KReady cfg R k' ∧ k'.mmioNext = k.mmioNext)
      (fun _ => False) (fun _ => ¬ R) k := by
  have hmax : ncpuMax = 8 := rfl
  induction n generalizing i k with
  | zero => exact ⟨h, rfl⟩
  | succ n ih =>
    obtain ⟨E, hE, hk⟩ := h
    rw [mapKstacks, wp_bind]
    have hva : kstacktop - BitVec.ofNat 32 kstksize - BitVec.ofNat 32 (i * (kstksize + kstkgap)) =
        pageVa (960 * 1024 - 8 - i * 16) := by
      have hi : i < 8 := by omega
      interval_cases i <;> decide
    refine wp_post (region_wp (n := 8) hva (by decide) (by omega) (by omega) (Or.inr (by omega)) hk)
      (fun _ k1 hk1 => ?_)
    refine wp_post (ih (i + 1) (by omega) ⟨_, hE.fill _ (by omega) (by decide), hk1.1⟩)
      (fun _ k2 hk2 => ⟨hk2.1, hk2.2.trans hk1.2⟩)

/-- **`mem_init`** maps the two windows for user mode and the rest for itself. -/
theorem mapKernel_wp (h : KBuild cfg R (fun _ => 0#32) k) :
    wp (mapKernel cfg) (fun _ k' => KReady cfg R k' ∧ k'.mmioNext = k.mmioNext)
      (fun _ => False) (fun _ => ¬ R) k := by
  rw [mapKernel, wp_bind]
  refine wp_post (region_wp (v := 956 * 1024) (n := 1024) (by decide) (by decide) (by omega)
    (by omega) (Or.inl (by omega)) h) (fun _ k1 hk1 => ?_)
  rw [wp_bind]
  refine wp_post (region_wp (v := 955 * 1024) (n := 1024) (by decide) (by decide) (by omega)
    (by omega) (Or.inl (by omega)) hk1.1) (fun _ k2 hk2 => ?_)
  rw [wp_bind]
  refine wp_post (region_wp (v := 960 * 1024 - 8) (n := 8) (by decide) (by decide) (by omega)
    (by omega) (Or.inr (by omega)) hk2.1) (fun _ k3 hk3 => ?_)
  rw [wp_bind]
  refine wp_post (region_wp (v := 960 * 1024) (n := 65536) (by decide) (by decide) (by omega)
    (by omega) (Or.inr (by omega)) hk3.1) (fun _ k4 hk4 => ?_)
  have hE2 : KernEntries cfg (fillEntries (fillEntries (fun _ => 0#32) (956 * 1024) 1024
      (page2pa cfg.pagesPage) pteU) (955 * 1024) 1024 (page2pa cfg.envsPage) pteU) := by
    refine ⟨fun t ht => ?_, fun t ht => ?_, fun x h1 h2 => ?_⟩
    · rw [fillEntries_off (by omega), fillEntries_page (by omega) (by omega), Nat.add_sub_cancel_left]
    · rw [fillEntries_page (by omega) (by omega), Nat.add_sub_cancel_left]
    · rw [fillEntries_off (by omega), fillEntries_off (by omega)]
      decide
  have hE4 := (hE2.fill (v := 960 * 1024 - 8) (n := 8) cfg.bootstack (by omega)
    (show (pteP ||| pteW) &&& pteU = 0#32 by decide)).fill (v := 960 * 1024) (n := 65536) 0
    (by omega) (show (pteP ||| pteW) &&& pteU = 0#32 by decide)
  refine wp_post (mapKstacks_wp ncpuMax 0 (by omega) ⟨_, hE4, hk4.1⟩)
    (fun _ k5 hk5 => ⟨hk5.1, ?_⟩)
  rw [hk5.2, hk4.2, hk3.2, hk2.2, hk1.2]

/-- The pages a local APIC takes: one, or two if its address is not aligned. -/
theorem lapic_size (pa : Word) :
    ∃ n ≤ 2, roundUp (pa + 4096#32) - roundDown pa = BitVec.ofNat 32 (n * 4096) := by
  refine ⟨if pa.toNat % 4096 = 0 then 1 else 2, by split <;> omega, ?_⟩
  apply BitVec.eq_of_toNat_eq
  have hup : (roundUp (pa + 4096#32)).toNat = (pa.toNat + 8191) % 2 ^ 32 / 4096 * 4096 := by
    have h1 : 4096#32 + (BitVec.ofNat 32 pgsize + -1#32) = 8191#32 := by decide
    rw [roundUp, roundDown_toNat, BitVec.sub_eq_add_neg, BitVec.add_assoc, BitVec.add_assoc, h1,
      BitVec.toNat_add, BitVec.toNat_ofNat]
  rw [BitVec.toNat_sub, roundDown_toNat, BitVec.toNat_ofNat]
  split <;> omega

theorem mapLapic_wp (n : ℕ) (hb : k.mmioNext = pageVa b) (hlo : mmioPage ≤ b)
    (hhi : b ≤ mmioPage + 1024) (hR : R → n = 0) (h : KReady cfg R k) :
    wp (mapLapic cfg n) (fun _ k' => KReady cfg R k') (fun _ => False) (fun _ => ¬ R) k := by
  have hmp := mmioPage_eq
  induction n generalizing b k with
  | zero => exact h
  | succ n ih =>
    have hno : ¬ R := fun hr => by have := hR hr; omega
    obtain ⟨E, hE, hk⟩ := h
    obtain ⟨m, hm, hsize⟩ := lapic_size cfg.lapicaddr
    rw [mapLapic, wp_bind]
    refine wp_conseq (mmioMapRegion_wp hb hlo hhi hm hsize hk) (fun _ k1 hk1 => ?_) (fun _ hf => hf)
      fun _ _ => hno
    obtain ⟨-, hlt, hk1, hb1⟩ := hk1
    rw [roundDown_eq_page2pa] at hk1
    exact ih hb1 (by omega) (by omega) (fun hr => absurd hr hno)
      ⟨_, hE.fill _ (by omega) (by decide), hk1⟩

/-! ## The state left behind -/

/-- A page table of the kernel. -/
def KernTable (k₀ : Pmap) (p : ℕ) : Prop :=
  ∃ d, nupde ≤ d ∧ d ≠ pdx uvpt ∧ Present (k₀.mem k₀.kernPgdir d) ∧
    pgnum (k₀.mem k₀.kernPgdir d) = p

/-- The pages left to the allocator: neither reserved by `page_init` nor made into
a page table of the kernel by `mem_init`. -/
def Managed (cfg : BootConfig) (k₀ : Pmap) (p : ℕ) : Prop := cfg.Unreserved p ∧ ¬ KernTable k₀ p

/-- Entry `d` of the kernel's directory is a window for user mode on the 1024
pages from `first` on. -/
def Window (k₀ : Pmap) (d first : ℕ) : Prop :=
  ∃ q, k₀.mem k₀.kernPgdir d = newPde q ∧ q < 2 ^ 20 ∧
    ∀ t < nptentries, k₀.mem q t = page2pa (first + t) ||| pteP ||| pteU

/-- What booting leaves. -/
structure Booted (cfg : BootConfig) (k₀ : Pmap) : Prop where
  npages : k₀.npages = cfg.npages
  half : KernelHalf (Managed cfg k₀) k₀
  inv : PageInv (Managed cfg k₀) (fun _ => none) k₀
  tables : ∀ p, KernTable k₀ p → ∃ d ∈ upperPdes, pgnum (k₀.mem k₀.kernPgdir d) = p
  pages : Window k₀ (pdx upages) cfg.pagesPage
  envs : Window k₀ (pdx uenvs) cfg.envsPage
  other : ∀ d, nupde ≤ d → d ≠ pdx uenvs → d ≠ pdx upages → d ≠ pdx uvpt →
    Present (k₀.mem k₀.kernPgdir d) →
    ∀ t < nptentries, k₀.mem (pgnum (k₀.mem k₀.kernPgdir d)) t &&& pteU = 0#32

/-- Without a directory there is nothing to refer to. -/
theorem view_none : (view (fun _ => none) k).Wf (fun _ => False) ∧
    ∀ p, (view (fun _ => none) k).refs p = 0 := by
  have htab : ∀ x, (view (fun _ => none) k).table x = none := fun ⟨e, d⟩ => view_table_none rfl
  have hpte : ∀ x, (view (fun _ => none) k).pte x = 0#32 :=
    fun ⟨e, d, t⟩ => view_pte_none (htab (e, d))
  have hpage : ∀ x, (view (fun _ => none) k).page x = none := fun x => by
    rw [page, hpte, target_zero]
  have habs : ∀ {q : ℕ} {φ : Prop}, (none : Option ℕ) = some q → φ :=
    fun hf => absurd hf (by simp)
  have hwf : (view (fun _ => none) k).Wf (fun _ => False) :=
    ⟨fun hf => habs hf, fun hf => habs hf, fun hf => habs hf,
      fun hf => habs ((htab _).symm.trans hf), fun hf => habs ((htab _).symm.trans hf),
      fun hf => habs ((htab _).symm.trans hf), fun hf => habs ((htab _).symm.trans hf),
      fun hne => absurd (hpte _) hne, fun x => Or.inl (hpte x),
      fun hf => habs ((hpage _).symm.trans hf), fun hf => habs ((hpage _).symm.trans hf),
      fun hf => habs ((hpage _).symm.trans hf)⟩
  refine ⟨hwf, fun p => hwf.refs_eq_zero.2 ⟨fun x hx => ?_, fun x hx => ?_, fun e he => ?_⟩⟩
  · exact habs ((hpage x).symm.trans hx)
  · exact habs ((htab x).symm.trans hx)
  · exact habs he

theorem Spaces.Wf.mono {M M' : ℕ → Prop} {s : Spaces} (h : s.Wf M) (hM : ∀ p, M p → M' p) :
    s.Wf M' :=
  ⟨h.dir_lt, fun hp => hM _ (h.dir_managed hp), h.dir_inj, h.table_dir,
    fun hq => hM _ (h.table_managed hq), h.table_inj, h.table_ne_dir, h.pte_table, h.pte_shape,
    fun hp => hM _ (h.page_managed hp), h.page_ne_dir, h.page_ne_table⟩

/-- A finished directory is the state the invariant of the kernel starts from. -/
theorem KReady.booted (h : KReady cfg R k) : Booted cfg k := by
  obtain ⟨E, hE, ⟨l, T, hk, -, hT⟩, hnp, hkp⟩ := h
  have hnu : nupde = 955 := rfl
  -- the entries that are present are those with a table
  have htab : ∀ d, d ≠ pdx uvpt → Present (k.mem k.kernPgdir d) →
      T d = some (pgnum (k.mem k.kernPgdir d)) := by
    intro d hd hpres
    rw [hkp] at hpres ⊢
    cases hTd : T d with
    | none => exact absurd hpres (hk.missing hTd hd)
    | some q => rw [(hk.table_present hTd).2]
  have hent : ∀ d, d ≠ pdx uvpt → Present (k.mem k.kernPgdir d) → ∀ t < nptentries,
      k.mem (pgnum (k.mem k.kernPgdir d)) t = E (d * 1024 + t) :=
    fun d hd hpres t ht => hk.entry (htab d hd hpres) ht
  have hkern : ∀ p, KernTable k p ↔ ∃ d, T d = some p := by
    intro p
    constructor
    · rintro ⟨d, -, hd, hpres, rfl⟩
      exact ⟨d, htab d hd hpres⟩
    · rintro ⟨d, hd⟩
      obtain ⟨hpres, hpg⟩ := hk.table_present hd
      refine ⟨d, ?_, hk.table_ne_uvpt hd, by rw [hkp]; exact hpres, by rw [hkp]; exact hpg⟩
      by_contra hlt
      rw [hT d (notMem_upperPdes (not_le.1 hlt))] at hd
      cases hd
  have hman : ∀ p, Managed cfg k p ↔ p ∈ l := by
    intro p
    rw [Managed, hkern, hk.cover]
    constructor
    · rintro ⟨hp, hn⟩
      exact hp.resolve_right hn
    · intro hp
      exact ⟨Or.inl hp, fun ⟨d, hd⟩ => hk.table_notMem hd hp⟩
  have hwindow : ∀ d first, d ≠ pdx uvpt → (∀ t < 1024, E (d * 1024 + t) =
      page2pa (first + t) ||| pteP ||| pteU) → Window k d first := by
    intro d first hd hfill
    have hne : E (d * 1024 + 0) ≠ 0#32 := by
      rw [hfill 0 (by omega)]
      exact ne_zero_of_present (present_or present_or_pteP _)
    obtain ⟨q, hq⟩ := hk.table_of_entry (by omega) hne
    refine ⟨q, by rw [hkp]; exact hk.table_pde hq, lt_of_lt_of_le (hk.table_lt hq) hk.npages_le, ?_⟩
    intro t ht
    rw [hk.entry hq ht, hfill t ht]
  refine ⟨hnp, ⟨?_, ?_, ?_⟩, ⟨hk.npages_le, ?_, fun p => le_rfl, ?_⟩, ?_, ?_, ?_, ?_⟩
  · rw [hman, hkp]
    exact hk.kd_notMem
  · intro d hd
    rw [hkp]
    refine hk.missing (hT d (notMem_upperPdes hd)) ?_
    rw [pdx_uvpt]
    omega
  · intro d hd hu hpres
    refine ⟨fun hM => hM.2 ((hkern _).2 ⟨d, htab d hu hpres⟩), fun t ht => ?_⟩
    rw [hent d hu hpres t ht]
    by_cases h1 : d = 955
    · rw [h1, hE.envs t ht, entry_and (by decide)]
      decide
    · by_cases h2 : d = 956
      · rw [h2, hE.pages t ht, entry_and (by decide)]
        decide
      · intro heq
        have h0 := hE.other (d * 1024 + t) (by have : t < 1024 := ht; omega)
          (by have : t < 1024 := ht; omega)
        have hU : (E (d * 1024 + t) &&& (pteU ||| pteW)) &&& pteU = pteU := by
          rw [heq]
          decide
        rw [BitVec.and_assoc, show (pteU ||| pteW) &&& pteU = pteU by decide, h0] at hU
        exact absurd hU (by decide)
  · exact view_none.1.mono fun _ hf => hf.elim
  · refine ⟨fun hp => ?_, fun {p} hp => ?_, ⟨l, hk.chain, fun p => ?_⟩, fun {p} _ hor => ?_⟩
    · rw [hnp]
      exact hp.1.1
    · rw [view_none.2 p]
      exact hk.free_ref p ((hman p).1 hp)
    · rw [hman, view_none.2 p]
      simp
    · rcases hor with hne | hf
      · exact absurd (view_none.2 p) hne
      · exact hf.elim
  · rintro p ⟨d, -, hd, hpres, hpg⟩
    refine ⟨d, ?_, hpg⟩
    by_contra hnot
    have := htab d hd hpres
    rw [hT d hnot] at this
    cases this
  · refine hwindow _ _ (by decide) fun t ht => ?_
    exact hE.pages t ht
  · refine hwindow _ _ (by decide) fun t ht => ?_
    exact hE.envs t ht
  · intro d _ h1 h2 h3 hpres t ht
    have h1' : d ≠ 955 := fun heq => h1 (by rw [heq]; decide)
    have h2' : d ≠ 956 := fun heq => h2 (by rw [heq]; decide)
    rw [hent d h3 hpres t ht]
    exact hE.other _ (by omega) (by omega)

theorem KReady.selfTest (h : KReady cfg R k) (hs : SelfTest k k') : KReady cfg R k' := by
  obtain ⟨E, hE, ⟨l, T, hk, hroom, hT⟩, hnp, hkp⟩ := h
  obtain ⟨l', hperm, hk'⟩ := hk.selfTest hs
  obtain ⟨-, -, -, -, -, hlay, -⟩ := hs
  refine ⟨E, hE, ⟨l', T, hk', fun hr => ?_, hT⟩, hlay.npages.trans hnp, hlay.kernPgdir.trans hkp⟩
  have := hroom hr
  rwa [Room, ← hperm.length_eq]

theorem KBuild.selfTest (h : KBuild cfg R E k) (hs : SelfTest k k') : KBuild cfg R E k' := by
  obtain ⟨⟨l, T, hk, hroom, hT⟩, hnp, hkp⟩ := h
  obtain ⟨l', hperm, hk'⟩ := hk.selfTest hs
  obtain ⟨-, -, -, -, -, hlay, -⟩ := hs
  refine ⟨⟨l', T, hk', fun hr => ?_, hT⟩, hlay.npages.trans hnp, hlay.kernPgdir.trans hkp⟩
  have := hroom hr
  rwa [Room, ← hperm.length_eq]

/-- The middle of `mem_init`: the test of `mmio_map_region` and the mappings. -/
theorem mapAll_wp (hb : k.mmioNext = mmiobase) (h : KBuild cfg R (fun _ => 0#32) k) :
    wp (mmioSelfTest cfg.kernPgdir >>= fun _ => mapKernel cfg)
      (fun _ k' => KReady cfg R k' ∧ k'.mmioNext = pageVa (mmioPage + 3))
      (fun _ => False) (fun _ => ¬ R) k := by
  rw [wp_bind]
  refine wp_post (mmioSelfTest_wp hb h) (fun _ k1 hk1 => ?_)
  refine wp_post (mapKernel_wp hk1.1) (fun _ k2 hk2 => ⟨hk2.1, ?_⟩)
  rw [hk2.2, hk1.2]

/-- **Whenever the kernel comes up, it does so in a good state.** -/
theorem boot_spec {k0 : Pmap} (h : Boots cfg k0) : Booted cfg k0 := by
  obtain ⟨k, k1, k2, k3, k4, hfree, hnext, hinit, hs1, hmap, hs2, hlapic⟩ := h
  obtain ⟨k1', hinit', hb1, hn1⟩ := initPages_spec cfg False hfree hnext
    fun hf => hf.elim
  rw [hinit] at hinit'
  cases hinit'
  have hmid := mapAll_wp (hs1.choose_spec.choose_spec.2.2.2.1.mmioNext.trans hn1)
    (KBuild.selfTest hb1 hs1)
  rw [wp, hmap] at hmid
  have hend := mapLapic_wp cfg.lapics (b := mmioPage + 3)
    (hs2.choose_spec.choose_spec.2.2.2.1.mmioNext.trans hmid.2) (by omega) (by omega)
    (fun hf => hf.elim) (hmid.1.selfTest hs2)
  rw [wp, hlapic] at hend
  exact hend.booted

theorem SelfTest.refl (hl : IsChain k.link k.pageFreeList l)
    (href : ∀ p ∈ l, (k.pages p).ppRef = 0#16) : SelfTest k k :=
  ⟨l, l, hl, hl, List.Perm.refl l, Pmap.SameLayout.refl k, fun _ _ => rfl, href, fun _ _ => rfl⟩

/-- With room for its page tables, the kernel comes up. -/
theorem boots_of_room (cfg : BootConfig) (hroom : 68 ≤ cfg.npages - cfg.kernelEnd)
    (hl : cfg.lapics = 0) : ∃ k0, Boots cfg k0 := by
  set k : Pmap := ⟨0, fun _ => ⟨none, 0#16⟩, none, 0, mmiobase, fun _ _ => 0#32⟩ with hk
  obtain ⟨k1, hinit, hb1, hn1⟩ := initPages_spec cfg True (k := k) rfl rfl
    fun _ => hroom
  have hmid := mapAll_wp hn1 hb1
  rw [wp] at hmid
  obtain ⟨⟨l, T, hkd, -⟩, -⟩ := id hb1
  split at hmid
  · rename_i u k3 hmap
    obtain ⟨⟨E, -, ⟨l3, T3, hkd3, -⟩, -⟩, -⟩ := hmid
    refine ⟨k3, k, k1, k1, k3, k3, rfl, rfl, hinit, .refl hkd.chain hkd.free_ref, hmap,
      .refl hkd3.chain hkd3.free_ref, ?_⟩
    rw [hl]
    rfl
  · exact hmid.elim
  · exact absurd trivial hmid

end OsLab.Jos
