import OsLab.Jos.Boot

/-!
# The kernel's page directory while it is being built

`KDir kd U l T E k` describes the directory on page `kd` during boot: `T d` is
the page table behind entry `d`, `E v` the entry for virtual page `v` (so entry
`t` of table `d` is `E (d * 1024 + t)`), `l` the free list, and `U` the pages
the list started with, each of which is still on it or has become a table.  The
entry for `UVPT`, by which the directory is its own page table, is left out.

`bootMapLoop_wp` and `bootMapRegion_wp` say what a call of `boot_map_region`
does to that description.  The proposition `R` stands for "there is memory
enough for the tables that may still be needed": without it a call may panic,
with it none does.
-/

namespace OsLab.Jos

open Exec Function

/-- The directory on page `kd` has the tables `T` with the entries `E`. -/
structure KDir (kd : ℕ) (U : ℕ → Prop) (l : List ℕ) (T : ℕ → Option ℕ) (E : ℕ → Word) (k : Pmap) :
    Prop where
  npages_le : k.npages ≤ 2 ^ 20
  chain : IsChain k.link k.pageFreeList l
  free_lt : ∀ p ∈ l, p < k.npages
  free_ref : ∀ p ∈ l, (k.pages p).ppRef = 0#16
  kd_notMem : kd ∉ l
  cover : ∀ p, U p ↔ p ∈ l ∨ ∃ d, T d = some p
  table_ne_uvpt : ∀ {d q}, T d = some q → d ≠ pdx uvpt
  table_pde : ∀ {d q}, T d = some q → k.mem kd d = newPde q
  table_lt : ∀ {d q}, T d = some q → q < k.npages
  table_notMem : ∀ {d q}, T d = some q → q ∉ l
  table_ne_kd : ∀ {d q}, T d = some q → q ≠ kd
  missing : ∀ {d}, T d = none → d ≠ pdx uvpt → ¬ Present (k.mem kd d)
  table_inj : ∀ {d d' q}, T d = some q → T d' = some q → d = d'
  entry : ∀ {d q t}, T d = some q → t < 1024 → k.mem q t = E (d * 1024 + t)
  entry_none : ∀ {d t}, T d = none → t < 1024 → E (d * 1024 + t) = 0#32

/-- There is a free page for every entry of `D` that has no table yet. -/
def Room (D : Finset ℕ) (l : List ℕ) (T : ℕ → Option ℕ) : Prop :=
  (D.filter fun d => T d = none).card ≤ l.length

/-- The virtual address of page `v`. -/
def pageVa (v : ℕ) : Word := BitVec.ofNat 32 (v * 4096)

variable {v : ℕ}

theorem pageVa_toNat (h : v < 2 ^ 20) : (pageVa v).toNat = v * 4096 := by
  rw [pageVa, BitVec.toNat_ofNat]
  omega

theorem pdx_pageVa (h : v < 2 ^ 20) : pdx (pageVa v) = v / 1024 := by
  rw [pdx_eq, pageVa_toNat h]
  omega

theorem ptx_pageVa (h : v < 2 ^ 20) : ptx (pageVa v) = v % 1024 := by
  rw [ptx_eq, pageVa_toNat h]
  omega

theorem pageVa_succ : pageVa v + BitVec.ofNat 32 pgsize = pageVa (v + 1) := by
  apply BitVec.eq_of_toNat_eq
  rw [BitVec.toNat_add, pageVa, pageVa, pgsize, BitVec.toNat_ofNat, BitVec.toNat_ofNat,
    BitVec.toNat_ofNat]
  omega

namespace KDir

variable {kd : ℕ} {U : ℕ → Prop} {l : List ℕ} {T : ℕ → Option ℕ} {E : ℕ → Word} {k k' : Pmap}
  {d p q : ℕ} {va : Word}

theorem table_present (h : KDir kd U l T E k) (hq : T d = some q) :
    Present (k.mem kd d) ∧ pgnum (k.mem kd d) = q := by
  rw [h.table_pde hq]
  exact ⟨present_newPde q, pgnum_newPde (lt_of_lt_of_le (h.table_lt hq) h.npages_le)⟩

theorem walk_found (h : KDir kd U l T E k) (va : Word) (hq : T (pdx va) = some q) (create : Bool) :
    pgdirWalk kd va create k = .ok (some (q, ptx va)) k := by
  obtain ⟨hpres, hpg⟩ := h.table_present hq
  rw [pgdirWalk, read_bind, if_pos hpres,
    pteSlot_ok (by rw [hpg]; exact h.table_lt hq), hpg]

/-- A missing table is made out of the first free page. -/
theorem walk_create (h : KDir kd U (p :: l) T E k) (va : Word) (hd : pdx va ≠ pdx uvpt)
    (hnone : T (pdx va) = none) :
    ∃ k', pgdirWalk kd va true k = .ok (some (p, ptx va)) k' ∧ k.SameLayout k' ∧
      KDir kd U l (update T (pdx va) (some p)) E k' := by
  have hhead : k.pageFreeList = some p := h.chain.1
  have hplt : p < k.npages := h.free_lt p (List.mem_cons_self ..)
  have hp20 : p < 2 ^ 20 := lt_of_lt_of_le hplt h.npages_le
  have hpg : pgnum (page2pa p) = p := pgnum_page2pa hp20
  have hpkd : p ≠ kd := by
    rintro rfl
    exact h.kd_notMem (List.mem_cons_self ..)
  have hpl : p ∉ l := (List.nodup_cons.1 h.chain.nodup).1
  have hpT : ∀ d', T d' ≠ some p := fun d' hd' => h.table_notMem hd' (List.mem_cons_self ..)
  set k1 : Pmap := (({ k with pageFreeList := (k.pages p).ppLink } : Pmap).setLink p none).zeroPage p
    with hk1
  have halloc : pageAlloc true k = .ok (some p) k1 := by
    rw [pageAlloc, read_bind, hhead]
    show (modify _ >>= _ : PmapM (Option ℕ)) k = _
    rw [modify_bind, modify_bind, if_pos rfl,
      bind_ok (kaddr_ok (by rw [hpg]; exact hplt)), hpg, modify_bind, pure_apply]
  set k2 : Pmap := (k1.setRef p ((k1.pages p).ppRef + 1#16)).setWord kd (pdx va) (newPde p) with hk2
  have hlink : k2.link = update k.link p none := by
    show ((k1.setRef p _).link) = _
    rw [Pmap.setRef_link]
    exact Pmap.setLink_link { k with pageFreeList := (k.pages p).ppLink } p none
  have hmem : ∀ r j, k2.mem r j = if r = kd ∧ j = pdx va then newPde p
      else if r = p then 0#32 else k.mem r j := by
    intro r j
    rw [mem_setWord, Pmap.setRef_mem, mem_zeroPage]
    rfl
  have hpde : ∀ d', d' ≠ pdx va → k2.mem kd d' = k.mem kd d' := by
    intro d' hne
    rw [hmem, if_neg (fun hh => hne hh.2), if_neg hpkd.symm]
  have htab : ∀ {d' r}, update T (pdx va) (some p) d' = some r →
      (T d' = some r ∧ d' ≠ pdx va) ∨ d' = pdx va ∧ r = p := by
    intro d' r hr
    by_cases hdd : d' = pdx va
    · rw [hdd, update_self] at hr
      exact Or.inr ⟨hdd, (Option.some.inj hr).symm⟩
    · rw [update_of_ne hdd] at hr
      exact Or.inl ⟨hr, hdd⟩
  refine ⟨k2, ?_, ⟨rfl, rfl, rfl⟩, h.npages_le, ?_, fun r hr => h.free_lt r (List.mem_cons_of_mem _ hr),
    ?_, fun hkd => h.kd_notMem (List.mem_cons_of_mem _ hkd), ?_, ?_, ?_, ?_, ?_, ?_, ?_, ?_, ?_, ?_⟩
  · have hnot := h.missing hnone hd
    rw [pgdirWalk, read_bind, if_neg hnot, if_pos rfl, bind_ok halloc]
    show pteSlot kd va k2 = _
    have hpd : pgnum (k2.mem kd (pdx va)) = p := by
      rw [hmem, if_pos ⟨rfl, rfl⟩, pgnum_newPde hp20]
    rw [pteSlot_ok (by rw [hpd]; exact hplt), hpd]
  · rw [hlink]
    exact (hhead ▸ h.chain).pop
  · intro r hr
    have hrp : r ≠ p := fun heq => hpl (heq ▸ hr)
    show ((k1.setRef p _).pages r).ppRef = _
    rw [Pmap.setRef_ppRef, if_neg hrp]
    show ((Pmap.setLink _ p none).pages r).ppRef = _
    rw [Pmap.setLink_ppRef]
    exact h.free_ref r (List.mem_cons_of_mem _ hr)
  · intro r
    rw [h.cover r, List.mem_cons]
    constructor
    · rintro ((rfl | hr) | ⟨d', hd'⟩)
      · exact Or.inr ⟨pdx va, update_self ..⟩
      · exact Or.inl hr
      · refine Or.inr ⟨d', ?_⟩
        rw [update_of_ne]
        · exact hd'
        · rintro rfl
          rw [hnone] at hd'
          cases hd'
    · rintro (hr | ⟨d', hd'⟩)
      · exact Or.inl (Or.inr hr)
      · rcases htab hd' with ⟨hT, -⟩ | ⟨-, rfl⟩
        · exact Or.inr ⟨d', hT⟩
        · exact Or.inl (Or.inl rfl)
  · intro d' r hr
    rcases htab hr with ⟨hT, -⟩ | ⟨rfl, -⟩
    · exact h.table_ne_uvpt hT
    · exact hd
  · intro d' r hr
    rcases htab hr with ⟨hT, hne⟩ | ⟨rfl, rfl⟩
    · rw [hpde d' hne]
      exact h.table_pde hT
    · rw [hmem, if_pos ⟨rfl, rfl⟩]
  · intro d' r hr
    rcases htab hr with ⟨hT, -⟩ | ⟨-, rfl⟩
    · exact h.table_lt hT
    · exact hplt
  · intro d' r hr
    rcases htab hr with ⟨hT, -⟩ | ⟨-, rfl⟩
    · exact fun hrl => h.table_notMem hT (List.mem_cons_of_mem _ hrl)
    · exact hpl
  · intro d' r hr
    rcases htab hr with ⟨hT, -⟩ | ⟨-, rfl⟩
    · exact h.table_ne_kd hT
    · exact hpkd
  · intro d' hr hne
    by_cases hdd : d' = pdx va
    · rw [hdd, update_self] at hr
      cases hr
    · rw [update_of_ne hdd] at hr
      rw [hpde d' hdd]
      exact h.missing hr hne
  · intro d1 d2 r h1 h2
    rcases htab h1 with ⟨hT1, -⟩ | ⟨rfl, rfl⟩ <;> rcases htab h2 with ⟨hT2, -⟩ | ⟨hd2, hr⟩
    · exact h.table_inj hT1 hT2
    · exact absurd (hr ▸ hT1) (hpT d1)
    · exact absurd hT2 (hpT d2)
    · exact hd2.symm
  · intro d' r t hr ht
    rcases htab hr with ⟨hT, -⟩ | ⟨rfl, rfl⟩
    · have hrp : r ≠ p := fun heq => hpT d' (heq ▸ hT)
      rw [hmem, if_neg (fun hh => h.table_ne_kd hT hh.1), if_neg hrp, h.entry hT ht]
    · rw [hmem, if_neg (fun hh => hpkd hh.1), if_pos rfl, h.entry_none hnone ht]
  · intro d' t hr ht
    by_cases hdd : d' = pdx va
    · rw [hdd, update_self] at hr
      cases hr
    · rw [update_of_ne hdd] at hr
      exact h.entry_none hr ht

/-- Storing entry `v % 1024` of table `v / 1024`. -/
theorem store {w : Word} (h : KDir kd U l T E k) (hq : T (v / 1024) = some q) :
    KDir kd U l T (update E v w) (k.setWord q (v % 1024) w) := by
  have hne : q ≠ kd := h.table_ne_kd hq
  have hpde : ∀ d, (k.setWord q (v % 1024) w).mem kd d = k.mem kd d :=
    fun d => mem_setWord_of_ne hne.symm
  refine ⟨h.npages_le, h.chain, h.free_lt, h.free_ref, h.kd_notMem, h.cover, h.table_ne_uvpt,
    fun hr => by rw [hpde]; exact h.table_pde hr, h.table_lt, h.table_notMem, h.table_ne_kd,
    fun hr hd => by rw [hpde]; exact h.missing hr hd, h.table_inj, ?_, ?_⟩
  · intro d r t hr ht
    rw [mem_setWord]
    by_cases hx : d * 1024 + t = v
    · have hd : d = v / 1024 := by omega
      have ht' : t = v % 1024 := by omega
      subst hd
      rw [hq] at hr
      obtain rfl := Option.some.inj hr
      rw [hx, update_self, if_pos ⟨rfl, ht'⟩]
    · rw [update_of_ne hx, if_neg, h.entry hr ht]
      rintro ⟨rfl, rfl⟩
      have := h.table_inj hr hq
      omega
  · intro d t hr ht
    rw [update_of_ne, h.entry_none hr ht]
    rintro rfl
    have hd : (d * 1024 + t) / 1024 = d := by omega
    rw [hd, hr] at hq
    cases hq

/-- The self tests do not reach the directory or its tables. -/
theorem selfTest (h : KDir kd U l T E k) (hs : SelfTest k k') :
    ∃ l', l.Perm l' ∧ KDir kd U l' T E k' := by
  obtain ⟨l1, l', hl1, hl', hperm, hlay, -, href, hmem⟩ := hs
  obtain rfl := h.chain.det hl1
  have hkd : k'.mem kd = k.mem kd := hmem kd h.kd_notMem
  refine ⟨l', hperm, by rw [hlay.npages]; exact h.npages_le, hl', ?_, ?_, ?_, ?_, h.table_ne_uvpt,
    ?_, ?_, ?_, h.table_ne_kd, ?_, h.table_inj, ?_, h.entry_none⟩
  · intro p hp
    rw [hlay.npages]
    exact h.free_lt p (hperm.mem_iff.2 hp)
  · exact fun p hp => href p (hperm.mem_iff.2 hp)
  · exact fun hp => h.kd_notMem (hperm.mem_iff.2 hp)
  · intro p
    rw [h.cover p, hperm.mem_iff]
  · intro d q hq
    rw [hkd]
    exact h.table_pde hq
  · intro d q hq
    rw [hlay.npages]
    exact h.table_lt hq
  · exact fun hq hql => h.table_notMem hq (hperm.mem_iff.2 hql)
  · intro d hd hne
    rw [hkd]
    exact h.missing hd hne
  · intro d q t hq ht
    rw [hmem q (h.table_notMem hq)]
    exact h.entry hq ht

end KDir

/-! ## Mapping a region -/

/-- The entries after `n` pages from `v` on are mapped to the pages from `pa` on. -/
def fillEntries (E : ℕ → Word) (v n : ℕ) (pa perm : Word) (x : ℕ) : Word :=
  if v ≤ x ∧ x < v + n then pa + BitVec.ofNat 32 ((x - v) * 4096) ||| pteP ||| perm else E x

theorem fillEntries_zero {pa perm : Word} : fillEntries E v 0 pa perm = E := by
  funext x
  rw [fillEntries, if_neg (by omega)]

theorem fillEntries_succ {n : ℕ} {pa perm : Word} :
    fillEntries (update E v (pa ||| pteP ||| perm)) (v + 1) n
      (pa + BitVec.ofNat 32 pgsize) perm = fillEntries E v (n + 1) pa perm := by
  funext x
  unfold fillEntries
  by_cases hx : x = v
  · subst hx
    rw [if_neg (by omega), update_self, if_pos (by omega), Nat.sub_self,
      BitVec.add_zero]
  · by_cases hin : v + 1 ≤ x ∧ x < v + 1 + n
    · have hsum : pa + BitVec.ofNat 32 pgsize + BitVec.ofNat 32 ((x - (v + 1)) * 4096) =
          pa + BitVec.ofNat 32 ((x - v) * 4096) := by
        rw [BitVec.add_assoc, ← BitVec.ofNat_add, pgsize,
          show 4096 + (x - (v + 1)) * 4096 = (x - v) * 4096 by omega]
      rw [if_pos hin, if_pos (by omega), hsum]
    · rw [if_neg hin, if_neg (by omega), update_of_ne hx]

/-- The directory during boot, with the list and the tables left open; `R`
promises that there is room for every table of `D`. -/
def Building (kd : ℕ) (U : ℕ → Prop) (D : Finset ℕ) (R : Prop) (P : (ℕ → Option ℕ) → Prop)
    (E : ℕ → Word) (k : Pmap) : Prop :=
  ∃ l T, KDir kd U l T E k ∧ (R → Room D l T) ∧ P T

/-- A property of the tables that making more of them in `D` does not destroy. -/
def Grows (D : Finset ℕ) (P : (ℕ → Option ℕ) → Prop) : Prop :=
  ∀ T d p, P T → d ∈ D → T d = none → P (Function.update T d (some p))

variable {T : ℕ → Option ℕ} {D : Finset ℕ}

theorem Room.pop {l : List ℕ} {d p : ℕ} (h : Room D (p :: l) T)
    (hd : d ∈ D) (hnone : T d = none) : Room D l (update T d (some p)) := by
  have hsub : (D.filter fun x => update T d (some p) x = none) ⊆
      (D.filter fun x => T x = none).erase d := by
    intro x hx
    rw [Finset.mem_filter] at hx
    have hxd : x ≠ d := by
      rintro rfl
      rw [update_self] at hx
      cases hx.2
    rw [update_of_ne hxd] at hx
    exact Finset.mem_erase.2 ⟨hxd, Finset.mem_filter.2 hx⟩
  have hmem : d ∈ D.filter fun x => T x = none := Finset.mem_filter.2 ⟨hd, hnone⟩
  have h1 := Finset.card_le_card hsub
  rw [Finset.card_erase_of_mem hmem] at h1
  have h2 : (D.filter fun x => T x = none).card ≤ l.length + 1 := h
  unfold Room
  omega

theorem Room.ne_nil {d : ℕ} (hd : d ∈ D) (hnone : T d = none) :
    ¬ Room D [] T := by
  intro h
  have hmem : d ∈ D.filter fun x => T x = none := Finset.mem_filter.2 ⟨hd, hnone⟩
  have hpos := Finset.card_pos.2 ⟨d, hmem⟩
  have h2 : (D.filter fun x => T x = none).card ≤ 0 := h
  omega

section Region

variable {kd : ℕ} {U : ℕ → Prop} {D : Finset ℕ} {R : Prop} {P : (ℕ → Option ℕ) → Prop}
  {E : ℕ → Word} {k : Pmap} {perm : Word}

/-- One round of `boot_map_region`: the walk. -/
theorem walk_building (hP : Grows D P) (hv : v < 2 ^ 20) (hD : v / 1024 ∈ D)
    (hu : v / 1024 ≠ pdx uvpt) (h : Building kd U D R P E k) :
    wp (pgdirWalk kd (pageVa v) true) (fun r k' => (r = none ∧ ¬ R) ∨
        ∃ q l T, r = some (q, v % 1024) ∧ KDir kd U l T E k' ∧ (R → Room D l T) ∧ P T ∧
          T (v / 1024) = some q ∧ k.SameLayout k')
      (fun _ => False) (fun _ => False) k := by
  obtain ⟨l, T, hk, hroom, hPT⟩ := h
  have hpdx := pdx_pageVa hv
  have hptx := ptx_pageVa hv
  cases hT : T (v / 1024) with
  | some q =>
    refine wp_of_ok (hk.walk_found _ (by rw [hpdx]; exact hT) true) (Or.inr ⟨q, l, T, ?_, hk, hroom,
      hPT, hT, Pmap.SameLayout.refl k⟩)
    rw [hptx]
  | none =>
    cases l with
    | nil =>
      refine wp_of_ok (a := none) (t := k) ?_ (Or.inl ⟨rfl, fun hR => Room.ne_nil hD hT (hroom hR)⟩)
      have hnot := hk.missing hT hu
      rw [← hpdx] at hnot
      have hempty : k.pageFreeList = none := IsChain.nil_iff.1 hk.chain
      have halloc : pageAlloc true k = .ok none k := by
        rw [pageAlloc, read_bind, hempty]
        rfl
      rw [pgdirWalk, read_bind, if_neg hnot, if_pos rfl, bind_ok halloc]
      rfl
    | cons p l =>
      obtain ⟨k', hk', hlay, hkd⟩ := hk.walk_create (pageVa v) (by rw [hpdx]; exact hu)
        (by rw [hpdx]; exact hT)
      rw [hpdx] at hkd
      refine wp_of_ok hk' (Or.inr ⟨p, l, _, ?_, hkd, fun hR => (hroom hR).pop hD hT,
        hP T _ p hPT hD hT, update_self .., hlay⟩)
      rw [hptx]

/-- **The loop of `boot_map_region`**, by induction on the number of pages left. -/
theorem bootMapLoop_wp (hP : Grows D P) (n v : ℕ) (pa : Word) (hv : v + n ≤ 2 ^ 20)
    (hD : ∀ i < n, (v + i) / 1024 ∈ D ∧ (v + i) / 1024 ≠ pdx uvpt)
    (h : Building kd U D R P E k) :
    wp (bootMapLoop kd perm n (pageVa v) pa)
      (fun _ k' => Building kd U D R P (fillEntries E v n pa perm) k' ∧ k.SameLayout k')
      (fun _ => False) (fun _ => ¬ R) k := by
  induction n generalizing v pa E k with
  | zero =>
    rw [fillEntries_zero]
    exact ⟨h, Pmap.SameLayout.refl k⟩
  | succ n ih =>
    obtain ⟨hDv, huv⟩ := hD 0 (by omega)
    rw [bootMapLoop, wp_bind]
    refine wp_conseq (walk_building hP (by omega) hDv huv h) (fun r k1 hr => ?_) (fun _ h => h)
      fun _ h => h.elim
    rcases hr with ⟨rfl, hR⟩ | ⟨q, l, T, rfl, hkd, hroom, hPT, hT, hlay⟩
    · exact hR
    · rw [wp_bind, wp_modify, pageVa_succ, ← fillEntries_succ]
      refine wp_post (ih (v + 1) _ (by omega) (fun i hi => ?_)
        ⟨l, T, hkd.store hT, hroom, hPT⟩) (fun _ k' hk' => ⟨hk'.1, ?_⟩)
      · have := hD (i + 1) (by omega)
        rwa [show v + (i + 1) = v + 1 + i by omega] at this
      · exact hlay.trans ⟨hk'.2.1, hk'.2.2, hk'.2.3⟩

/-- **`boot_map_region`** of `n` whole pages. -/
theorem bootMapRegion_wp {va : Word} {size n : ℕ} {pa : Word} (hP : Grows D P)
    (hva : va = pageVa v) (hsize : (if size % pgsize ≠ 0 then size / pgsize + 1 else size / pgsize) = n)
    (hv : v + n ≤ 2 ^ 20) (hD : ∀ i < n, (v + i) / 1024 ∈ D ∧ (v + i) / 1024 ≠ pdx uvpt)
    (h : Building kd U D R P E k) :
    wp (bootMapRegion kd va size pa perm)
      (fun _ k' => Building kd U D R P (fillEntries E v n pa perm) k' ∧ k.SameLayout k')
      (fun _ => False) (fun _ => ¬ R) k := by
  rw [bootMapRegion, hsize, hva]
  exact bootMapLoop_wp hP n v pa hv hD h

end Region

end OsLab.Jos
