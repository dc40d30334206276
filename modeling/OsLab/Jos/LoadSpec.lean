import OsLab.Jos.Load
import OsLab.Jos.SyscallSpec

/-!
# What loading does

`region_alloc` panics when a page cannot be allocated but does not look at the
result of `page_insert`, so a page is lost when there is none left for the page
table.  With two pages to spare for every page of the region neither happens;
`Spare` keeps count.

* `regionLoop_spec`: with pages to spare, every page of the region is mapped.
* `envCreate_wp`: with room for the binary, `env_create` keeps the invariant of
  the kernel; a binary without segments is always loaded.
-/

namespace OsLab.Jos

open Exec Spaces Function

section Spare

variable {M : ℕ → Prop} {dirs : ℕ → Option ℕ} {k k' : Pmap} {e pgdir pp n : ℕ} {va perm : Word}

/-! ## Pages to spare -/

/-- At least `n` of the pages of `M` are not referenced. -/
def Spare (M : ℕ → Prop) (dirs : ℕ → Option ℕ) (n : ℕ) (k : Pmap) : Prop :=
  ∃ s : Finset ℕ, n ≤ s.card ∧ ∀ p ∈ s, M p ∧ (view dirs k).refs p = 0

/-- The free list has at least `n` pages. -/
def Pmap.FreeAtLeast (k : Pmap) (n : ℕ) : Prop :=
  ∃ l, IsChain k.link k.pageFreeList l ∧ n ≤ l.length

theorem Spare.of_freeAtLeast (h : PageInv M dirs k) (hf : k.FreeAtLeast n) : Spare M dirs n k := by
  obtain ⟨l, hl, hn⟩ := hf
  obtain ⟨l', hl', hmem⟩ := h.book.free
  obtain rfl := hl.det hl'
  refine ⟨l.toFinset, by rwa [List.toFinset_card_of_nodup hl.nodup], fun p hp => ?_⟩
  obtain ⟨hM, hc, -⟩ := (hmem p).1 (List.mem_toFinset.1 hp)
  exact ⟨hM, hc⟩

theorem Spare.exists (h : Spare M dirs (n + 1) k) : ∃ p, M p ∧ (view dirs k).refs p = 0 := by
  obtain ⟨s, hs, hfree⟩ := h
  obtain ⟨p, hp⟩ := Finset.card_pos.1 (show 0 < s.card by omega)
  exact ⟨p, hfree p hp⟩

theorem Spare.mono {m : ℕ} (h : Spare M dirs n k) (hm : m ≤ n) : Spare M dirs m k := by
  obtain ⟨s, hs, hfree⟩ := h
  exact ⟨s, hm.trans hs, hfree⟩

namespace Mapped

section

variable (h : Mapped M dirs k e pp va perm k') (hk : (view dirs k).Wf M)

include h hk

/-- Only the page mapped and a new table are taken. -/
theorem refs_zero {r : ℕ}
    (h0 : (view dirs k).refs r = 0) (hpp : r ≠ pp)
    (hq : (view dirs k').table (e, pdx va) ≠ some r) : (view dirs k').refs r = 0 := by
  obtain ⟨h1, h2, h3⟩ := hk.refs_eq_zero.1 h0
  refine h.inv.wf.refs_eq_zero.2 ⟨fun x hx => ?_, fun x hx => ?_, h3⟩
  · by_cases hxs : x = slot e va
    · subst hxs
      exact hpp (Option.mem_unique hx h.page_self)
    · exact h1 x (by rw [page, ← h.pte_other x hxs]; exact hx)
  · rcases h.table x with heq | ⟨rfl, -⟩
    · exact h2 x (heq ▸ hx)
    · exact hq hx

/-- A mapping takes one page for a table at most. -/
theorem spare {s : Finset ℕ}
    (hs : n + 1 ≤ s.card) (hfree : ∀ p ∈ s, M p ∧ (view dirs k).refs p = 0 ∧ p ≠ pp) :
    Spare M dirs n k' := by
  obtain ⟨q, hq⟩ : ∃ q, ∀ r, r ≠ q → (view dirs k').table (e, pdx va) ≠ some r := by
    cases ht : (view dirs k').table (e, pdx va) with
    | none => exact ⟨0, fun r _ => by simp⟩
    | some q => exact ⟨q, fun r hr heq => hr (Option.some.inj heq).symm⟩
  have hc := Finset.pred_card_le_card_erase (s := s) (a := q)
  refine ⟨s.erase q, by omega, fun p hp => ?_⟩
  obtain ⟨hpq, hps⟩ := Finset.mem_erase.1 hp
  obtain ⟨hM, h0, hpp⟩ := hfree p hps
  exact ⟨hM, h.refs_zero hk h0 hpp (hq p hpq)⟩

/-- A mapping through a table that exists takes no page. -/
theorem spare_of_table (hpp : (view dirs k).refs pp ≠ 0) (htab : (view dirs k).table (e, pdx va) ≠ none)
    (hs : Spare M dirs n k) : Spare M dirs n k' := by
  obtain ⟨s, hs, hfree⟩ := hs
  refine ⟨s, hs, fun p hp => ?_⟩
  obtain ⟨hM, h0⟩ := hfree p hp
  refine ⟨hM, h.refs_zero hk h0 (fun heq => hpp (heq ▸ h0)) ?_⟩
  rcases h.table (e, pdx va) with heq | ⟨-, hnone, -⟩
  · rw [heq]
    exact (hk.refs_eq_zero.1 h0).2.1 _
  · exact absurd hnone htab

end

end Mapped

/-- Allocating a page takes just that page. -/
theorem Fresh.spare {zero : Bool} (h : Fresh M dirs zero k pp k')
    (hs : Spare M dirs (n + 1) k) : ∃ s : Finset ℕ, n ≤ s.card ∧
      ∀ p ∈ s, M p ∧ (view dirs k').refs p = 0 ∧ p ≠ pp := by
  obtain ⟨s, hs, hfree⟩ := hs
  have h1 := Finset.pred_card_le_card_erase (s := s) (a := pp)
  refine ⟨s.erase pp, by omega, fun p hp => ?_⟩
  obtain ⟨hpp, hps⟩ := Finset.mem_erase.1 hp
  rw [h.view_eq]
  exact ⟨(hfree p hps).1, (hfree p hps).2, hpp⟩

/-- **`sys_page_alloc`** succeeds if there are two pages to spare, one of them for a page
table. -/
theorem sysPageAlloc_succeeds {K : Kern} {k₀ : Pmap} {envid : Word} {d : ℕ} (h : KernInv M k₀ K)
    (hb : Bounded K.dirs K.pm) (hs : Spare M K.dirs (n + 2) K.pm) (hn : Names K envid true e)
    (hdir : K.dirs e = some d) (hva : ¬ BadVa va) (hperm : LowPerm perm) (hbad : ¬ BadPerm perm) :
    ∃ pp p1 p2, sysPageAlloc envid va perm K = .ok 0 { K with pm := p2 } ∧
      Fresh M K.dirs true K.pm pp p1 ∧ Mapped M K.dirs p1 e pp va perm p2 ∧ Bounded K.dirs p2 ∧
      Spare M K.dirs n p2 := by
  have hdlt := pdx_lt_of_not_badVa hva
  obtain ⟨pp, p1, hsome, hf⟩ : ∃ pp p1, pageAlloc true K.pm = .ok (some pp) p1 ∧
      Fresh M K.dirs true K.pm pp p1 := by
    rcases alloc_fresh h.pages true with ⟨-, hfull⟩ | hf
    · obtain ⟨r, hM, h0⟩ := hs.exists
      exact absurd h0 (hfull r hM)
    · exact hf
  obtain ⟨s, hcard, hfree⟩ := hf.spare hs
  obtain ⟨p2, hins, hmap⟩ : ∃ p2, pageInsert d pp va perm p1 = .ok 0 p2 ∧
      Mapped M K.dirs p1 e pp va perm p2 := by
    rcases insert_fresh h.pages hb hf hdir hdlt hperm with ⟨p2, -, -, -, hfull⟩ | hmap
    · obtain ⟨r, hr⟩ := Finset.card_pos.1 (by omega : 0 < s.card)
      obtain ⟨hM, h0, hne⟩ := hfree r hr
      rw [hf.view_eq] at h0
      exact ((hfull r hM).elim (fun hh => hh h0) hne).elim
    · exact hmap
  have hb1 : Bounded K.dirs p1 := fun r => by
    rw [hf.view_eq]
    exact hb r
  refine ⟨pp, p1, p2, ?_, hf, hmap, hmap.bounded (h.pages.wf.dir_lt hdir) hdlt hb1 ?_,
    hmap.spare hf.rep.wf hcard hfree⟩
  · have hdir1 : ({ K with pm := p1 } : Kern).dirs e = some d := hdir
    rw [sysPageAlloc, bind_ok (envid2env_of_names hn)]
    simp only
    rw [if_neg hva, if_neg hbad, bind_ok (pmap_ok hsome)]
    simp only
    rw [bind_ok (pgdirOf_some hdir1), bind_ok (pmap_ok hins), if_neg (by decide), pure_apply]
  · rw [hf.mapCount]
    decide

/-! ## A region of fresh pages -/

/-- What mapping `n` fresh pages from `va` on into the address space of `e` leaves. -/
structure Extended (M : ℕ → Prop) (dirs : ℕ → Option ℕ) (k : Pmap) (e : ℕ) (k' : Pmap) : Prop where
  inv : PageInv M dirs k'
  bounded : Bounded dirs k'
  keeps : Keeps M dirs k k'
  pte : ∀ x, x.1 ≠ e → (view dirs k').pte x = (view dirs k).pte x
  table : ∀ x, x.1 ≠ e → (view dirs k').table x = (view dirs k).table x

theorem Extended.refl (h : PageInv M dirs k) (hb : Bounded dirs k) (e : ℕ) :
    Extended M dirs k e k :=
  ⟨h, hb, Keeps.refl M dirs k, fun _ _ => rfl, fun _ _ => rfl⟩

theorem Extended.trans {k'' : Pmap} (h : Extended M dirs k e k') (h' : Extended M dirs k' e k'') :
    Extended M dirs k e k'' :=
  ⟨h'.inv, h'.bounded, h.keeps.trans h'.keeps, fun x hx => (h'.pte x hx).trans (h.pte x hx),
    fun x hx => (h'.table x hx).trans (h.table x hx)⟩

/-- Stores into mapped pages extend nothing. -/
theorem Stored.extended (h : Stored M dirs k k') (hb : Bounded dirs k) :
    Extended M dirs k e k' := by
  exact ⟨h.inv, h.bounded hb, h.keeps, fun x _ => by rw [h.view_eq], fun x _ => by rw [h.view_eq]⟩

/-- One page of the region. -/
theorem regionPage_spec (va perm : Word) (h : PageInv M dirs k) (hb : Bounded dirs k) (hdir : dirs e = some pgdir)
    (hd : pdx va < nupde) (hperm : LowPerm perm) (hs : Spare M dirs (n + 2) k) :
    ∃ pp k1 k', pageAlloc false k = .ok (some pp) k1 ∧ pageInsert pgdir pp va perm k1 = .ok 0 k' ∧
      Extended M dirs k e k' ∧ Spare M dirs n k' ∧
      (view dirs k').pte (slot e va) = mkPte pp perm ∧ M pp ∧
      (∀ x, x ≠ slot e va → (view dirs k').pte x = (view dirs k).pte x) := by
  have he := h.wf.dir_lt hdir
  rcases alloc_fresh h false with ⟨-, hfull⟩ | ⟨pp, k1, halloc, hf⟩
  · obtain ⟨p, hM, h0⟩ := hs.exists
    exact absurd h0 (hfull p hM)
  obtain ⟨s, hs, hfree⟩ := hf.spare hs
  rcases insert_fresh h hb hf hdir hd hperm with ⟨-, -, -, -, hfull⟩ | ⟨k', hins, hm⟩
  · obtain ⟨p, hp⟩ := Finset.card_pos.1 (show 0 < s.card by omega)
    obtain ⟨hM, h0, hpp⟩ := hfree p hp
    rw [hf.view_eq] at h0
    exact (hfull p hM).elim (fun hne => absurd h0 hne) fun heq => absurd heq hpp
  refine ⟨pp, k1, k', halloc, hins, ⟨hm.inv, ?_, hf.keeps.trans hm.keeps, ?_, ?_⟩, ?_, hm.pte_self,
    hf.managed, ?_⟩
  · refine hm.bounded he hd (fun r => ?_) (by rw [hf.mapCount]; decide)
    rw [hf.view_eq]
    exact hb r
  · intro x hx
    rw [hm.pte_other x fun heq => hx (by rw [heq]; rfl), hf.view_eq]
  · intro x hx
    rw [← hf.view_eq]
    refine (hm.table x).resolve_right fun hnew => hx ?_
    rw [hnew.1]
  · exact hm.spare hf.rep.wf hs hfree
  · intro x hx
    rw [hm.pte_other x hx, hf.view_eq]

/-- An address of the region stays below `UTOP`. -/
theorem region_va {i n : ℕ} (hi : i ≤ n) (hn : va.toNat + n * pgsize ≤ utop.toNat) :
    (va + BitVec.ofNat 32 (i * pgsize)).toNat = va.toNat + i * pgsize := by
  have hle : i * pgsize ≤ n * pgsize := Nat.mul_le_mul_right _ hi
  rw [BitVec.toNat_add_of_lt, BitVec.toNat_ofNat, Nat.mod_eq_of_lt (by omega)]
  rw [BitVec.toNat_ofNat]
  omega

/-- Addresses in different pages have different slots. -/
theorem slot_ne {va' : Word} (h : va.toNat / 4096 ≠ va'.toNat / 4096) : slot e va ≠ slot e va' := by
  intro heq
  have h1 : pdx va = pdx va' := congrArg (fun x => x.2.1) heq
  have h2 : ptx va = ptx va' := congrArg (fun x => x.2.2) heq
  rw [pdx_eq, pdx_eq] at h1
  rw [ptx_eq, ptx_eq] at h2
  omega

/-- **`region_alloc`** with two pages to spare for each page maps them all, by
induction on the number of pages left. -/
theorem regionLoop_spec {m : ℕ} (hdir : dirs e = some pgdir)
    (hn : va.toNat + n * pgsize ≤ utop.toNat) (h : PageInv M dirs k) (hb : Bounded dirs k)
    (hs : Spare M dirs (2 * n + m) k) :
    ∃ k', regionLoop pgdir n va k = .ok () k' ∧ Extended M dirs k e k' ∧ Spare M dirs m k' ∧
      (∀ i < n, ∃ pp, M pp ∧ (view dirs k').pte (slot e (va + BitVec.ofNat 32 (i * pgsize))) =
        mkPte pp (pteW ||| pteU)) ∧
      ∀ x, (∀ i < n, x ≠ slot e (va + BitVec.ofNat 32 (i * pgsize))) →
        (view dirs k').pte x = (view dirs k).pte x := by
  induction n generalizing va k with
  | zero =>
    exact ⟨k, rfl, .refl h hb e, by simpa using hs, fun i hi => absurd hi (Nat.not_lt_zero i),
      fun _ _ => rfl⟩
  | succ n ih =>
    have hp : pgsize = 4096 := rfl
    have hva0 : va + BitVec.ofNat 32 (0 * pgsize) = va := by simp
    have hnext : (va + BitVec.ofNat 32 (1 * pgsize)).toNat = va.toNat + 1 * pgsize :=
      region_va (by omega) hn
    obtain ⟨pp, k1, k2, halloc, hins, hext, hs2, hself, hM, hother⟩ :=
      regionPage_spec va (pteW ||| pteU) (n := 2 * n + m) h hb hdir
        (pdx_lt_nupde (by show va.toNat < utop.toNat; rw [hp] at hn; omega)) (by decide)
        (by convert hs using 1; omega)
    obtain ⟨k', hk', hext', hs', hmap', hother'⟩ := ih
      (show (va + BitVec.ofNat 32 pgsize).toNat + n * pgsize ≤ utop.toNat by
        rw [Nat.one_mul] at hnext; rw [hnext]; rw [hp] at hn ⊢; omega) hext.inv hext.bounded hs2
    have hshift : ∀ i, va + BitVec.ofNat 32 pgsize + BitVec.ofNat 32 (i * pgsize) =
        va + BitVec.ofNat 32 ((i + 1) * pgsize) := by
      intro i
      rw [BitVec.add_assoc, ← BitVec.ofNat_add, Nat.succ_mul, Nat.add_comm pgsize]
    have hne : ∀ i < n, slot e va ≠ slot e (va + BitVec.ofNat 32 ((i + 1) * pgsize)) := by
      intro i hi
      refine slot_ne ?_
      rw [region_va (by omega) hn, hp]
      omega
    refine ⟨k', ?_, hext.trans hext', hs', ?_, ?_⟩
    · rw [regionLoop, bind_ok halloc]
      show (pageInsert pgdir pp va (pteW ||| pteU) >>= _ : PmapM Unit) k1 = _
      rw [bind_ok hins, hk']
    · intro i hi
      cases i with
      | zero =>
        refine ⟨pp, hM, ?_⟩
        rw [hva0, hother' _ fun i hi => by rw [hshift]; exact hne i hi, hself]
      | succ i =>
        rw [← hshift]
        exact hmap' i (by omega)
    · intro x hx
      rw [hother' x fun i hi => by rw [hshift]; exact hx (i + 1) (by omega),
        hother x (by have := hx 0 (by omega); rwa [hva0] at this)]

/-- Stores below `UTOP` only touch mapped pages. -/
theorem kernFill_safe {k₀ : Pmap} (hdir : dirs e = some pgdir) (f : ℕ → BitVec 8) (n : ℕ)
    (hva : va.toNat + n ≤ utop.toNat) (h : Stored M dirs k₀ k) :
    StoreSafe M dirs k₀ (kernFill pgdir va f n) k := by
  induction n with
  | zero => exact h
  | succ n ih =>
    refine (ih (by omega)).bind fun k' h' => kernStore_safe hdir ?_ h'
    rw [BitVec.toNat_add_of_lt, BitVec.toNat_ofNat]
    · omega
    · rw [BitVec.toNat_ofNat]
      omega

theorem Stored.spare (h : Stored M dirs k k') (hs : Spare M dirs n k) : Spare M dirs n k' := by
  rwa [Spare, h.view_eq]

/-- Only the directory is taken. -/
theorem SpaceMade.spare {d : ℕ} (h : SpaceMade M dirs k e d k') (he : e < nenv)
    (hnone : dirs e = none) (hs : Spare M dirs (n + 1) k) :
    Spare M (update dirs e (some d)) n k' := by
  obtain ⟨s, hs, hfree⟩ := hs
  have hc := Finset.pred_card_le_card_erase (s := s) (a := d)
  refine ⟨s.erase d, by omega, fun p hp => ?_⟩
  obtain ⟨hpd, hps⟩ := Finset.mem_erase.1 hp
  have hr := refs_setDir (s := view dirs k) he (some d) p
  rw [h.view_eq]
  rw [view_dir, hnone] at hr
  simp only [reduceCtorEq, if_false, Option.some.injEq, if_neg (Ne.symm hpd)] at hr
  exact ⟨(hfree p hps).1, by rw [← (hfree p hps).2]; omega⟩

end Spare

/-! ## Loading a binary -/

/-- The pages `load_icode` allocates for a program header. -/
def Proghdr.pages (ph : Proghdr) : ℕ :=
  if ph.pType = elfProgLoad then regionPages ph.pVa ph.pMemsz else 0

/-- The pages `load_icode` allocates: those of the segments and one of stack. -/
def Elf.pages (binary : Elf) : ℕ := (binary.ph.map Proghdr.pages).sum + 1

/-- A segment lies below `UTOP`, and is no larger in the file than in memory. -/
def Proghdr.Fits (ph : Proghdr) : Prop :=
  ph.pType = elfProgLoad →
    ph.pVa.toNat + ph.pMemsz.toNat ≤ utop.toNat ∧ ph.pFilesz.toNat ≤ ph.pMemsz.toNat

section Loading

variable {M : ℕ → Prop} {k₀ : Pmap} {k : Kern} {e pgdir m : ℕ} {va len : Word}

/-- A region below `UTOP` ends there even when rounded to pages. -/
theorem regionPages_le (h : va.toNat + len.toNat ≤ utop.toNat) :
    (roundDown va).toNat + regionPages va len * pgsize ≤ utop.toNat := by
  have hu : utop.toNat = 955 * 4194304 := utop_toNat
  have hp : pgsize = 4096 := rfl
  have h1 : (va + len).toNat = va.toNat + len.toNat := BitVec.toNat_add_of_lt (by omega)
  have h2 : (va + len + BitVec.ofNat 32 pgsize - 1#32).toNat = va.toNat + len.toNat + 4095 := by
    rw [BitVec.toNat_sub_of_le, BitVec.toNat_add_of_lt, h1]
    · rfl
    · show _ + 4096 < _
      omega
    · show 1 ≤ (va + len + BitVec.ofNat 32 pgsize).toNat
      rw [BitVec.toNat_add_of_lt]
      · show 1 ≤ _ + 4096
        omega
      · show _ + 4096 < _
        omega
  have h3 : (roundUp (va + len)).toNat = (va.toNat + len.toNat + 4095) / 4096 * 4096 := by
    rw [roundUp, roundDown_toNat, h2]
  have h4 := roundDown_toNat va
  rw [regionPages, hp]
  omega

/-- What code that loads into `e` leaves: memory is added to `e`, and of the
environments only fields of `e` that do not matter here change. -/
structure Loaded (M : ℕ → Prop) (e m : ℕ) (k k' : Kern) : Prop where
  dirs : k'.dirs = k.dirs
  ext : Extended M k.dirs k.pm e k'.pm
  spare : Spare M k.dirs m k'.pm
  others : ∀ e', e' ≠ e → k'.envs e' = k.envs e'
  link : (k'.envs e).envLink = (k.envs e).envLink
  status : (k'.envs e).envStatus = (k.envs e).envStatus
  freeList : k'.envFreeList = k.envFreeList
  curenv : k'.curenv = k.curenv

namespace Loaded

variable {k' k'' : Kern}

theorem ofPages {p : Pmap} (hext : Extended M k.dirs k.pm e p) (hs : Spare M k.dirs m p) :
    Loaded M e m k { k with pm := p } :=
  ⟨rfl, hext, hs, fun _ _ => rfl, rfl, rfl, rfl, rfl⟩

theorem trans {m' : ℕ} (h : Loaded M e m' k k') (h' : Loaded M e m k' k'') :
    Loaded M e m k k'' := by
  have hext := h'.ext
  have hs := h'.spare
  rw [h.dirs] at hext hs
  exact ⟨h'.dirs.trans h.dirs, h.ext.trans hext, hs,
    fun e' he' => (h'.others e' he').trans (h.others e' he'), h'.link.trans h.link,
    h'.status.trans h.status, h'.freeList.trans h.freeList, h'.curenv.trans h.curenv⟩

/-- Assigning to a field of `e` that does not matter here. -/
theorem setEnv (h : Loaded M e m k k') (f : Env → Env)
    (hdir : ∀ v, (f v).envPgdir = v.envPgdir) (hlink : ∀ v, (f v).envLink = v.envLink)
    (hstatus : ∀ v, (f v).envStatus = v.envStatus) : Loaded M e m k (k'.setEnv e f) := by
  refine ⟨(setEnv_dirs_same f (hdir _)).trans h.dirs, h.ext, h.spare, fun e' he' => ?_, ?_, ?_,
    h.freeList, h.curenv⟩
  · rw [setEnv_envs_of_ne f he', h.others e' he']
  · rw [setEnv_envs_self, hlink, h.link]
  · rw [setEnv_envs_self, hstatus, h.status]

theorem kernInv (h : Loaded M e m k k') (hk : KernInv M k₀ k) : KernInv M k₀ k' := by
  have hlinks : (fun x => (k'.envs x).envLink) = fun x => (k.envs x).envLink := by
    funext x
    by_cases hx : x = e
    · rw [hx, h.link]
    · rw [h.others x hx]
  refine ⟨by rw [h.dirs]; exact h.ext.inv, hk.layout.trans h.ext.keeps.layout,
    fun q hq => (h.ext.keeps.unmanaged q hq).trans (hk.kernel q hq), ?_, ?_, ?_⟩
  · intro e' r d hr hd
    rw [h.dirs] at hr
    rw [← hk.half e' r d hr hd]
    exact h.ext.keeps.half e' r d hr hd
  · rw [hlinks, h.freeList, h.dirs]
    exact hk.freeEnvs
  · rw [h.curenv]
    exact hk.curenv_lt

end Loaded

theorem regionAlloc_spec (va len : Word) (hdir : k.dirs e = some pgdir) (h : PageInv M k.dirs k.pm)
    (hb : Bounded k.dirs k.pm) (hfit : va.toNat + len.toNat ≤ utop.toNat)
    (hs : Spare M k.dirs (2 * regionPages va len + m) k.pm) :
    ∃ p, regionAlloc e va len k = .ok () { k with pm := p } ∧ Extended M k.dirs k.pm e p ∧
      Spare M k.dirs m p ∧
      (∀ i < regionPages va len, ∃ pp, M pp ∧ (view k.dirs p).pte
        (slot e (roundDown va + BitVec.ofNat 32 (i * pgsize))) = mkPte pp (pteW ||| pteU)) ∧
      ∀ x, (∀ i < regionPages va len,
        x ≠ slot e (roundDown va + BitVec.ofNat 32 (i * pgsize))) →
        (view k.dirs p).pte x = (view k.dirs k.pm).pte x := by
  obtain ⟨p, hp, hext, hsp, hmap⟩ := regionLoop_spec hdir (regionPages_le hfit) h hb hs
  exact ⟨p, by rw [regionAlloc, bind_ok (pgdirOf_some hdir), pmap_ok hp], hext, hsp, hmap⟩

theorem loadSegment_wp {ph : Proghdr} (htype : ph.pType = elfProgLoad) (hdir : k.dirs e = some pgdir)
    (h : PageInv M k.dirs k.pm) (hb : Bounded k.dirs k.pm) (hfit : ph.Fits)
    (hs : Spare M k.dirs (2 * ph.pages + m) k.pm) :
    wp (loadSegment e ph) (fun _ k' => Loaded M e m k k') (fun _ => False)
      (fun r => r ≠ .pageFree) k := by
  obtain ⟨hva, hfile⟩ := hfit htype
  rw [Proghdr.pages, if_pos htype] at hs
  obtain ⟨p, hp, hext, hsp, -⟩ := regionAlloc_spec _ _ hdir h hb hva hs
  rw [loadSegment, wp, bind_ok hp, bind_ok (pgdirOf_some (k := { k with pm := p }) hdir)]
  show wp (_ : KernM Unit) _ _ _ _
  have hself : Stored M k.dirs p p := ⟨hext.inv, Keeps.refl _ _ _, rfl⟩
  rw [wp_bind]
  refine wp_zoom (wp_post (kernFill_safe (k := p) hdir _ ph.pMemsz.toNat hva hself)
    (fun _ p' hp' => ?_))
  refine wp_zoom (wp_post (kernFill_safe (k := p') hdir ph.bytes ph.pFilesz.toNat (by omega) hp')
    (fun _ p'' hp'' => ?_))
  exact .ofPages (hext.trans (hp''.extended hext.bounded)) (hp''.spare hsp)

/-- The loop of `load_icode`, by induction on the program headers. -/
theorem loadSegments_wp (phs : List Proghdr) (hdir : k.dirs e = some pgdir)
    (h : PageInv M k.dirs k.pm) (hb : Bounded k.dirs k.pm) (hfit : ∀ ph ∈ phs, ph.Fits)
    (hs : Spare M k.dirs (2 * (phs.map Proghdr.pages).sum + m) k.pm) :
    wp (loadSegments e phs) (fun _ k' => Loaded M e m k k' ∧ (phs = [] → k' = k)) (fun _ => False)
      (fun r => r ≠ .pageFree ∧ phs ≠ []) k := by
  induction phs generalizing k with
  | nil => exact ⟨.ofPages (.refl h hb e) (by simpa using hs), fun _ => rfl⟩
  | cons ph phs ih =>
    rw [List.map_cons, List.sum_cons] at hs
    have hrest : ∀ k', Loaded M e (2 * (phs.map Proghdr.pages).sum + m) k k' →
        wp (loadSegments e phs) (fun _ k'' => Loaded M e m k k'' ∧ (ph :: phs = [] → k'' = k))
          (fun _ => False) (fun r => r ≠ .pageFree ∧ ph :: phs ≠ []) k' := by
      intro k' hk'
      have hd := hk'.dirs
      refine wp_conseq (ih (by rw [hd]; exact hdir) (by rw [hd]; exact hk'.ext.inv)
        (by rw [hd]; exact hk'.ext.bounded) (fun ph hph => hfit ph (List.mem_cons_of_mem _ hph))
        (by rw [hd]; exact hk'.spare)) (fun _ k'' hk'' => ⟨hk'.trans hk''.1, nofun⟩)
        (fun _ hf => hf) fun r hr => ⟨hr.1, List.cons_ne_nil _ _⟩
    rw [loadSegments, wp_bind]
    by_cases htype : ph.pType = elfProgLoad
    · rw [when_pos htype]
      exact wp_conseq (loadSegment_wp (m := 2 * (phs.map Proghdr.pages).sum + m) htype hdir h hb
        (hfit ph (List.mem_cons_self ..)) (hs.mono (by omega))) (fun _ k' hk' => hrest k' hk')
        (fun _ hf => hf) fun r hr => ⟨hr, List.cons_ne_nil _ _⟩
    · rw [when_neg htype]
      exact hrest k (.ofPages (.refl h hb e) (hs.mono (by omega)))

/-! ## Creating an environment -/

/-- The lowest address of the initial stack. -/
def stackVa : Word := ustacktop - BitVec.ofNat 32 pgsize

/-- What `env_create` leaves, the new environment being `e`. -/
structure Created (M : ℕ → Prop) (k₀ : Pmap) (k : Kern) (e m : ℕ) (k' : Kern) : Prop where
  head : k.envFreeList = some e
  lt : e < nenv
  inv : KernInv M k₀ k'
  bounded : Bounded k'.dirs k'.pm
  spare : Spare M k'.dirs m k'.pm
  others : ∀ e', e' ≠ e → k'.envs e' = k.envs e'
  status : (k'.envs e).envStatus = .runnable
  freeList : k'.envFreeList = (k.envs e).envLink
  curenv : k'.curenv = k.curenv
  dir : ∃ d, k'.dirs e = some d
  pte : ∀ x, x.1 ≠ e → (view k'.dirs k'.pm).pte x = (view k.dirs k.pm).pte x
  stack : ∃ pp, M pp ∧ (view k'.dirs k'.pm).pte (slot e stackVa) = mkPte pp (pteW ||| pteU)

/-- Nothing but the stack is mapped in `e`. -/
def OnlyStack (k : Kern) (e : ℕ) : Prop :=
  ∀ x : ℕ × ℕ × ℕ, x.1 = e → x ≠ slot e stackVa → (view k.dirs k.pm).pte x = 0#32

/-- **`env_create`** with room for the binary keeps the invariant of the kernel,
and succeeds at least for a binary without segments. -/
theorem envCreate_wp (binary : Elf) (type : EnvType) (h : KernInv M k₀ k) (hk : KernelHalf M k₀)
    (hb : Bounded k.dirs k.pm) (hfit : ∀ ph ∈ binary.ph, ph.Fits)
    (hs : Spare M k.dirs (2 * binary.pages + 1 + m) k.pm) :
    wp (envCreate binary type)
      (fun _ k' => ∃ e, Created M k₀ k e m k' ∧ (binary.ph = [] → OnlyStack k' e)) (fun _ => False)
      (fun r => r ≠ .pageFree ∧
        ¬ (binary.ph = [] ∧ binary.eMagic = elfMagic ∧ k.envFreeList ≠ none)) k := by
  rw [envCreate, wp_bind]
  rcases envAlloc_spec h hk 0#32 with ⟨r, -, heq, hwhy⟩ |
    ⟨e, d, p, heq, hhead, he, hnone, hmade, hinv⟩
  · refine wp_of_ok heq ⟨Panic.noConfusion, ?_⟩
    rintro ⟨-, -, hne⟩
    rcases hwhy with hnone | hfull
    · exact hne hnone
    · obtain ⟨q, hM, h0⟩ := (show Spare M k.dirs (2 * binary.pages + m + 1) k.pm by
        convert hs using 1; omega).exists
      exact hfull q hM h0
  refine wp_of_ok heq ?_
  set k1 := afterAlloc k 0#32 e d p with hk1
  have hdirs : k1.dirs = update k.dirs e (some d) := afterAlloc_dirs ..
  -- from here on the new address space is filled; first the flags for the file server
  have hself : Loaded M e (2 * binary.pages + m) k1 k1 :=
    ⟨rfl, .refl hinv.pages (by rw [hdirs]; exact hmade.bounded hb) e,
      by rw [hdirs]; exact hmade.spare he hnone (hs.mono (by omega)), fun _ _ => rfl, rfl, rfl, rfl,
      rfl⟩
  rw [wp_bind]
  have hflags : wp (when (type = .fs) (modifyEnv e fun v =>
      { v with envTf := { v.envTf with eflags := v.envTf.eflags ||| flIopl3 } }) : KernM Unit)
      (fun _ k' => Loaded M e (2 * binary.pages + m) k1 k' ∧ k'.pm = k1.pm) (fun _ => False)
      (fun _ => False) k1 := by
    by_cases htype : type = .fs
    · rw [when_pos htype]
      exact ⟨hself.setEnv _ (fun _ => rfl) (fun _ => rfl) fun _ => rfl, rfl⟩
    · rw [when_neg htype]
      exact ⟨hself, rfl⟩
  refine wp_conseq hflags (fun _ k2 ⟨hk2, hpm2⟩ => ?_) (fun _ hf => hf) fun _ hf => hf.elim
  rw [loadIcode]
  by_cases hmagic : binary.eMagic ≠ elfMagic
  · rw [if_pos hmagic]
    exact ⟨Panic.noConfusion, fun hgood => hmagic hgood.2.1⟩
  rw [if_neg hmagic, wp_bind, wp_bind]
  have hd2 := hk2.dirs
  have hdir1 : k1.dirs e = some d := by rw [hdirs, update_self]
  refine wp_conseq (loadSegments_wp (k := k2) (m := 2 + m) binary.ph (by rw [hd2]; exact hdir1)
    (by rw [hd2]; exact hk2.ext.inv) (by rw [hd2]; exact hk2.ext.bounded) hfit
    (by rw [hd2]; exact hk2.spare.mono (by rw [Elf.pages]; omega))) (fun _ k3 hload => ?_)
    (fun _ hf => hf) fun r hr => ⟨hr.1, fun hgood => hr.2 hgood.1⟩
  obtain ⟨hk3, hnil⟩ := hload
  have hk13 := (hk2.trans hk3).setEnv (fun v =>
    { v with envTf := { v.envTf with eip := binary.eEntry } }) (fun _ => rfl) (fun _ => rfl)
    fun _ => rfl
  have hd3 := hk13.dirs
  obtain ⟨p4, hp4, hext4, hs4, hstack, hrest⟩ := regionAlloc_spec
    stackVa (BitVec.ofNat 32 pgsize) (m := m)
    (by rw [hd3]; exact hdir1) (by rw [hd3]; exact hk13.ext.inv)
    (by rw [hd3]; exact hk13.ext.bounded) (by decide)
    (by rw [hd3]; exact hk13.spare.mono (by rw [show regionPages stackVa _ = 1 by decide]))
  refine wp_of_ok hp4 ?_
  have hfin := (hk13.trans (.ofPages hext4 hs4)).setEnv (fun v => { v with envType := type })
    (fun _ => rfl) (fun _ => rfl) fun _ => rfl
  have hdf := hfin.dirs
  refine ⟨e, ⟨hhead, he, hfin.kernInv hinv, by rw [hdf]; exact hfin.ext.bounded,
    by rw [hdf]; exact hfin.spare, fun e' he' => ?_, ?_, hfin.freeList, hfin.curenv,
    ⟨d, by rw [hdf, hdir1]⟩, fun x hx => ?_, ?_⟩, fun hph x hx hne => ?_⟩
  · rw [hfin.others e' he']
    show update k.envs e _ e' = _
    rw [update_of_ne he']
  · rw [hfin.status]
    show (update k.envs e _ e).envStatus = _
    rw [update_self]
  · rw [hdf, hfin.ext.pte x hx, hdirs]
    show (view _ p).pte x = _
    rw [hmade.view_eq, setDir_pte]
  · obtain ⟨pp, hM, hpte⟩ := hstack 0 (by decide)
    refine ⟨pp, hM, ?_⟩
    rw [hdf, ← hd3, ← hpte]
    rfl
  · -- no segment was loaded, so before the stack nothing was mapped
    have hbefore : (view k1.dirs k1.pm).pte x = 0#32 := by
      obtain ⟨e', d', t'⟩ := x
      obtain rfl : e' = e := hx
      rw [hdirs]
      show (view _ p).pte _ = _
      rw [hmade.view_eq]
      exact view_pte_none (view_table_none hnone)
    have hrest' := hrest x fun i hi => by
      obtain rfl : i = 0 := by
        have h1 : regionPages stackVa (BitVec.ofNat 32 pgsize) = 1 := by decide
        omega
      exact hne
    rw [hdf, ← hd3]
    refine hrest'.trans ?_
    rw [hd3, ← hbefore]
    show (view k1.dirs k3.pm).pte x = _
    rw [hnil hph, hpm2]

end Loading

end OsLab.Jos
