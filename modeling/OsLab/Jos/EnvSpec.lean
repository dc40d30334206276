import OsLab.Jos.Frame
import OsLab.Jos.Env

/-!
# Creating and destroying address spaces

The loops of `env_free` take an address space apart entry by entry; `env_alloc`
builds an empty one out of a fresh page and a copy of the kernel's directory.

* `unmapTable_spec`, `freeTables_spec` — the two loops, each by induction on the
  number of entries left, with the entries already visited known to be clear.
* `dropSpace_spec` — `env_free` as far as memory is concerned: it always
  returns, every reference the environment held is given back, and nothing is
  left of its directory.
-/

namespace OsLab.Jos

open Exec Spaces Function

variable {M : ℕ → Prop} {dirs : ℕ → Option ℕ} {k k' : Pmap} {e pgdir p q d : ℕ}

theorem mapCount_clear_le (s : Spaces) (x : ℕ × ℕ × ℕ) (p : ℕ) :
    (s.setPte x 0#32).mapCount p ≤ s.mapCount p := by
  by_cases hx : x ∈ pteSlots
  · have h := mapCount_setPte (s := s) hx 0#32 p
    simp only [target_zero, reduceCtorEq, if_false] at h
    omega
  · rw [mapCount, setPte_page, refCount_update_of_notMem hx]
    exact le_rfl

theorem Unmapped.bounded {x : ℕ × ℕ × ℕ} (h : Unmapped M dirs k x k') (hb : Bounded dirs k) :
    Bounded dirs k' := by
  intro p
  rw [h.view_eq]
  exact lt_of_le_of_lt (mapCount_clear_le _ x p) (hb p)

/-! ## The inner loop -/

/-- What clearing the entries `[t, t + n)` of one table leaves. -/
structure Cleared (M : ℕ → Prop) (dirs : ℕ → Option ℕ) (k : Pmap) (e d t n : ℕ) (k' : Pmap) :
    Prop where
  inv : PageInv M dirs k'
  bounded : Bounded dirs k'
  keeps : Keeps M dirs k k'
  table : (view dirs k').table = (view dirs k).table
  clear : ∀ j, t ≤ j → j < t + n → (view dirs k').pte (e, d, j) = 0#32
  other : ∀ x, (∀ j, t ≤ j → j < t + n → x ≠ (e, d, j)) →
    (view dirs k').pte x = (view dirs k).pte x
  data : ∀ r, (∀ x, (view dirs k).table x ≠ some r) → k'.mem r = k.mem r

theorem slot_pgaddr {t : ℕ} (hd : d < nupde) (ht : t < nptentries) :
    slot e (pgaddr d t) = (e, d, t) := by
  have hd' : d < 1024 := lt_trans hd (by decide)
  rw [slot, pdx_pgaddr hd' ht, ptx_pgaddr hd' ht]

/-- The inner loop of `env_free`, by induction on the number of entries left. -/
theorem unmapTable_spec (hdir : dirs e = some pgdir) (hd : d < nupde) (n t : ℕ)
    (hn : t + n ≤ nptentries) (h : PageInv M dirs k) (hb : Bounded dirs k)
    (hq : (view dirs k).table (e, d) = some q) :
    ∃ k', unmapTable pgdir d q n t k = .ok () k' ∧ Cleared M dirs k e d t n k' := by
  induction n generalizing t k with
  | zero =>
    refine ⟨k, rfl, h, hb, Keeps.refl M dirs k, rfl, fun j h1 h2 => ?_, fun _ _ => rfl,
      fun _ _ => rfl⟩
    omega
  | succ n ih =>
    have ht : t < nptentries := by omega
    have hpte : (view dirs k).pte (e, d, t) = k.mem q t := view_pte hq ht
    -- one round: the entry is removed if it is present, and is zero otherwise
    obtain ⟨k1, hk1, hu⟩ : ∃ k1, when (Present (k.mem q t)) (pageRemove pgdir (pgaddr d t)) k =
        .ok () k1 ∧ Unmapped M dirs k (e, d, t) k1 := by
      by_cases hpres : Present (k.mem q t)
      · obtain ⟨k1, hrem, hu⟩ := remove_unmapped (pgaddr d t) h hb hdir
          (by rw [pdx_pgaddr (lt_trans hd (by decide)) ht]; exact hd)
        rw [slot_pgaddr hd ht] at hu
        exact ⟨k1, by rw [when_pos hpres, hrem], hu⟩
      · refine ⟨k, by rw [when_neg hpres, pure_apply], h, Keeps.refl M dirs k, ?_, fun _ _ => rfl⟩
        have h0 : (view dirs k).pte (e, d, t) = 0#32 :=
          (h.wf.pte_shape _).resolve_right (by rw [hpte]; exact hpres)
        rw [Spaces.setPte, update_eq_self_iff.2 h0.symm]
    have htab : (view dirs k1).table = (view dirs k).table := by
      rw [hu.view_eq, setPte_table]
    obtain ⟨k', hk', hc⟩ := ih (t + 1) (by omega) hu.inv (hu.bounded hb)
      (by rw [htab]; exact hq)
    refine ⟨k', ?_, hc.inv, hc.bounded, hu.keeps.trans hc.keeps, hc.table.trans htab, ?_, ?_, ?_⟩
    · rw [unmapTable, read_bind, bind_ok hk1, hk']
    · intro j h1 h2
      by_cases hj : j = t
      · subst hj
        rw [hc.other (e, d, j), hu.view_eq, setPte_pte, update_self]
        intro j' hj' _ heq
        have hjj : j = j' := congrArg (fun x => x.2.2) heq
        omega
      · exact hc.clear j (by omega) (by omega)
    · intro x hx
      rw [hc.other x fun j h1 h2 => hx j (by omega) (by omega), hu.view_eq, setPte_pte,
        update_of_ne (hx t le_rfl (by omega))]
    · intro r hr
      rw [hc.data r (by rw [htab]; exact hr), hu.data r hr]

/-! ## The outer loop -/

/-- What dropping the tables behind the directory entries from `d` on leaves. -/
structure Dropped (M : ℕ → Prop) (dirs : ℕ → Option ℕ) (k : Pmap) (e d n : ℕ) (k' : Pmap) :
    Prop where
  inv : PageInv M dirs k'
  bounded : Bounded dirs k'
  keeps : Keeps M dirs k k'
  clear : ∀ j, d ≤ j → j < d + n → (view dirs k').table (e, j) = none
  table : ∀ x, (∀ j, d ≤ j → j < d + n → x ≠ (e, j)) →
    (view dirs k').table x = (view dirs k).table x
  pte : ∀ x, x.1 ≠ e → (view dirs k').pte x = (view dirs k).pte x
  data : ∀ r, (∀ x, (view dirs k).table x ≠ some r) → (∀ e, dirs e ≠ some r) →
    k'.mem r = k.mem r

/-- The body of the outer loop: the table goes after its entries. -/
theorem freeTable_spec (hdir : dirs e = some pgdir) (hd : d < nupde) (h : PageInv M dirs k)
    (hb : Bounded dirs k) (hpres : Present (k.mem pgdir d)) :
    ∃ k', freeTable pgdir d (k.mem pgdir d) k = .ok () k' ∧ Dropped M dirs k e d 1 k' := by
  set q := pgnum (k.mem pgdir d) with hqdef
  have hq : (view dirs k).table (e, d) = some q := view_table_some.2 ⟨pgdir, hdir, hd, hpres, rfl⟩
  have hpa : pgnum (pteAddr (k.mem pgdir d)) = q := by
    rw [pteAddr_eq, pgnum_page2pa (pgnum_lt _)]
  obtain ⟨k1, hk1, hc⟩ := unmapTable_spec hdir hd nptentries 0 (by omega) h hb hq
  have hq1 : (view dirs k1).table (e, d) = some q := by
    rw [hc.table]
    exact hq
  have hzero : ∀ t, (view dirs k1).pte (e, d, t) = 0#32 := by
    intro t
    by_cases ht : t < nptentries
    · exact hc.clear t (Nat.zero_le t) (by omega)
    · exact view_pte_of_le (Nat.not_lt.1 ht)
  -- the directory entry is cleared: the table is no longer part of the graph
  set k2 := k1.setWord pgdir d 0#32 with hk2
  have hview2 : view dirs k2 = (view dirs k1).setTable (e, d) none := by
    rw [view_setWord_pde hc.inv.wf hdir hd hzero (by simp), target_zero]
  have hMq : M q := h.wf.table_managed hq
  have hrefs : ∀ r, (view dirs k2).refs r + (if q = r then 1 else 0) = (view dirs k1).refs r := by
    intro r
    have hs := refs_setTable (s := view dirs k1)
      (mem_tableSlots.2 ⟨h.wf.dir_lt hdir, hd⟩) none r
    rw [hq1] at hs
    simp only [Option.some.injEq, reduceCtorEq, if_false, Nat.add_zero] at hs
    rw [hview2]
    exact hs
  have hone : (view dirs k1).refs q = 1 := hc.inv.wf.refs_table hq1
  have hrep2 : Rep M dirs (view dirs k1).refs (fun _ => False) k2 := by
    refine ⟨hc.inv.npages_le, ?_, fun r => ?_, hc.inv.book.of_pages rfl rfl rfl⟩
    · rw [hview2]
      exact hc.inv.wf.dropTable hzero
    · have := hrefs r
      omega
  obtain ⟨k3, hk3, hbook, hlay, hmem⟩ := pageDecref_spec hrep2.book hMq (by omega) (by omega) id
  have hview3 : view dirs k3 = (view dirs k1).setTable (e, d) none :=
    (view_of_mem hmem).trans hview2
  have hrep3 : Rep M dirs (update (view dirs k1).refs q ((view dirs k1).refs q - 1))
      (fun _ => False) k3 := by
    refine ⟨by rw [hlay.npages]; exact hrep2.npages_le, by rw [view_of_mem hmem]; exact hrep2.wf,
      fun r => ?_, hbook⟩
    rw [view_of_mem hmem]
    have hr := hrefs r
    by_cases hrq : r = q
    · subst hrq
      rw [update_self, ← hr, if_pos rfl]
      omega
    · rw [update_of_ne hrq]
      omega
  have hinv3 : PageInv M dirs k3 := by
    refine hrep3.pageInv (fun r => ?_) fun _ => id
    rw [view_of_mem hmem]
    have hr := hrefs r
    by_cases hrq : r = q
    · subst hrq
      rw [update_self, ← hr, if_pos rfl]
      omega
    · rw [update_of_ne hrq, ← hr, if_neg (Ne.symm hrq)]
      omega
  have hkeep2 : Keeps M dirs k1 k2 := .of_pde ⟨rfl, rfl, rfl⟩ (h.wf.dir_managed hdir) hd rfl
  refine ⟨k3, ?_, hinv3, ?_, ?_, ?_, ?_, ?_, ?_⟩
  · have hlt : q < k.npages := h.table_lt hq
    have hlt2 : q < k2.npages := hrep2.book.managed_lt hMq
    rw [freeTable, bind_ok (kaddr_ok (by rw [hpa]; exact hlt)), hpa, bind_ok hk1,
      modify_bind, bind_ok (pa2page_ok (by rw [hpa]; exact hlt2)), hpa, hk3]
  · intro r
    rw [hview3]
    exact hc.bounded r
  · exact hc.keeps.trans (hkeep2.trans (.of_mem_eq hlay hmem))
  · intro j h1 h2
    obtain rfl : j = d := by omega
    rw [hview3, setTable_table, update_self]
  · intro x hx
    rw [hview3, setTable_table, update_of_ne (hx d le_rfl (by omega)), hc.table]
  · intro x hx
    rw [hview3]
    refine hc.other x fun j _ _ heq => hx ?_
    rw [heq]
  · intro r hr hnd
    have hne : r ≠ pgdir := fun heq => hnd e (heq ▸ hdir)
    rw [hmem, mem_setWord_page_of_ne hne, hc.data r hr]

/-- The outer loop of `env_free`, by induction on the number of entries left. -/
theorem freeTables_spec (hdir : dirs e = some pgdir) (n d : ℕ) (hn : d + n ≤ nupde)
    (h : PageInv M dirs k) (hb : Bounded dirs k) :
    ∃ k', freeTables pgdir n d k = .ok () k' ∧ Dropped M dirs k e d n k' := by
  induction n generalizing d k with
  | zero =>
    refine ⟨k, rfl, h, hb, Keeps.refl M dirs k, fun j h1 h2 => ?_, fun _ _ => rfl, fun _ _ => rfl,
      fun _ _ _ => rfl⟩
    omega
  | succ n ih =>
    have hd : d < nupde := by omega
    obtain ⟨k1, hk1, h₁⟩ : ∃ k1, when (Present (k.mem pgdir d))
        (freeTable pgdir d (k.mem pgdir d)) k = .ok () k1 ∧ Dropped M dirs k e d 1 k1 := by
      by_cases hpres : Present (k.mem pgdir d)
      · obtain ⟨k1, hk1, h₁⟩ := freeTable_spec hdir hd h hb hpres
        exact ⟨k1, by rw [when_pos hpres, hk1], h₁⟩
      · refine ⟨k, by rw [when_neg hpres, pure_apply], h, hb, Keeps.refl M dirs k,
          fun j h1 h2 => ?_, fun _ _ => rfl, fun _ _ => rfl, fun _ _ _ => rfl⟩
        obtain rfl : j = d := by omega
        rw [view_table_dir hdir hd, target, if_neg hpres]
    obtain ⟨k', hk', h'⟩ := ih (d + 1) (by omega) h₁.inv h₁.bounded
    refine ⟨k', ?_, h'.inv, h'.bounded, h₁.keeps.trans h'.keeps, ?_, ?_, ?_, ?_⟩
    · rw [freeTables, read_bind, bind_ok hk1, hk']
    · intro j h1 h2
      by_cases hj : j = d
      · subst hj
        rw [h'.table (e, j)]
        · exact h₁.clear j le_rfl (by omega)
        · intro j' hj' _ heq
          have hjj : j = j' := congrArg Prod.snd heq
          omega
      · exact h'.clear j (by omega) (by omega)
    · intro x hx
      rw [h'.table x fun j h1 h2 => hx j (by omega) (by omega),
        h₁.table x fun j h1 h2 => hx j h1 (by omega)]
    · intro x hx
      rw [h'.pte x hx, h₁.pte x hx]
    · intro r hr hnd
      rw [h'.data r ?_ hnd, h₁.data r hr hnd]
      -- a page that was no table before the round is none after it
      intro x hx
      by_cases hxe : x = (e, d)
      · rw [hxe, h₁.clear d le_rfl (by omega)] at hx
        cases hx
      · rw [h₁.table x] at hx
        · exact hr x hx
        · intro j h1 h2 heq
          obtain rfl : j = d := by omega
          exact hxe heq

/-! ## A whole address space -/

/-- What `env_free` does to memory: the loops over the tables, and then the
directory itself. -/
def dropSpace (pgdir : ℕ) : PmapM Unit := do
  freeTables pgdir (pdx utop) 0
  let pp ← pa2page (page2pa pgdir)
  pageDecref pp

/-- **Nothing is left of an address space that is taken apart**: all references
it held are gone, and the other spaces are as they were. -/
structure SpaceGone (M : ℕ → Prop) (dirs : ℕ → Option ℕ) (k : Pmap) (e : ℕ) (k' : Pmap) :
    Prop where
  inv : PageInv M (Function.update dirs e none) k'
  bounded : Bounded (Function.update dirs e none) k'
  keeps : Keeps M dirs k k'
  table : ∀ x, x.1 ≠ e →
    (view (Function.update dirs e none) k').table x = (view dirs k).table x
  pte : ∀ x, x.1 ≠ e → (view (Function.update dirs e none) k').pte x = (view dirs k).pte x
  data : ∀ r, (∀ x, (view dirs k).table x ≠ some r) → (∀ e, dirs e ≠ some r) →
    k'.mem r = k.mem r

theorem dropSpace_spec (hdir : dirs e = some pgdir) (h : PageInv M dirs k)
    (hb : Bounded dirs k) :
    ∃ k', dropSpace pgdir k = .ok () k' ∧ SpaceGone M dirs k e k' := by
  obtain ⟨k1, hk1, hd⟩ := freeTables_spec hdir nupde 0 (by omega) h hb
  have hnone : ∀ d, (view dirs k1).table (e, d) = none := by
    intro d
    by_cases hlt : d < nupde
    · exact hd.clear d (Nat.zero_le d) (by omega)
    · exact view_table_of_le (Nat.not_lt.1 hlt)
  have hview : view (update dirs e none) k1 = (view dirs k1).setDir e none :=
    view_dropDir hnone
  have hM : M pgdir := h.wf.dir_managed hdir
  have hone : (view dirs k1).refs pgdir = 1 := hd.inv.wf.refs_dir hdir
  have hrefs : ∀ r, (view (update dirs e none) k1).refs r +
      (if pgdir = r then 1 else 0) = (view dirs k1).refs r := by
    intro r
    have hs := refs_setDir (s := view dirs k1) (h.wf.dir_lt hdir) none r
    rw [view_dir, hdir] at hs
    simp only [Option.some.injEq, reduceCtorEq, if_false, Nat.add_zero] at hs
    rw [hview]
    exact hs
  obtain ⟨k2, hk2, hbook, hlay, hmem⟩ :=
    pageDecref_spec hd.inv.book hM (by omega) (by omega) id
  have hview2 : view (update dirs e none) k2 = (view dirs k1).setDir e none :=
    (view_of_mem hmem).trans hview
  have hrefs2 : ∀ r, update (view dirs k1).refs pgdir ((view dirs k1).refs pgdir - 1) r =
      (view (update dirs e none) k2).refs r := by
    intro r
    have hr := hrefs r
    rw [view_of_mem hmem]
    by_cases hrp : r = pgdir
    · subst hrp
      rw [update_self, ← hr, if_pos rfl]
      omega
    · rw [update_of_ne hrp, ← hr, if_neg (Ne.symm hrp)]
      omega
  have hrep : Rep M (update dirs e none)
      (update (view dirs k1).refs pgdir ((view dirs k1).refs pgdir - 1))
      (fun _ => False) k2 :=
    ⟨by rw [hlay.npages]; exact hd.inv.npages_le,
      by rw [hview2]; exact hd.inv.wf.dropDir hnone, fun r => (hrefs2 r).ge, hbook⟩
  refine ⟨k2, ?_, hrep.pageInv hrefs2 fun _ => id, ?_, ?_, ?_, ?_, ?_⟩
  · have hlt : pgdir < k1.npages := hd.inv.book.managed_lt hM
    have hpg : pgnum (page2pa pgdir) = pgdir := pgnum_page2pa (h.managed_lt hM)
    rw [dropSpace, pdx_utop, bind_ok hk1, bind_ok (pa2page_ok (by rw [hpg]; exact hlt)), hpg, hk2]
  · intro r
    rw [hview2]
    exact hd.bounded r
  · exact hd.keeps.trans (.of_mem_eq hlay hmem)
  · intro x hx
    rw [hview2]
    refine hd.table x fun j _ _ heq => hx ?_
    rw [heq]
  · intro x hx
    rw [hview2]
    exact hd.pte x hx
  · intro r hr hnd
    rw [hmem]
    exact hd.data r hr hnd

/-- What `env_setup_vm` does to memory once it has a page: the reference, the
copy of the kernel's directory, and the entry for `UVPT`. -/
def fillSpace (p : ℕ) (k : Pmap) : Pmap :=
  ((k.setRef p ((k.pages p).ppRef + 1#16)).copyPage p k.kernPgdir).setWord p (pdx uvpt)
    (page2pa p ||| pteP ||| pteU)

/-- **A new address space** is empty below `UTOP`; above, it is the kernel's
except for the window on its own page tables. -/
structure SpaceMade (M : ℕ → Prop) (dirs : ℕ → Option ℕ) (k : Pmap) (e p : ℕ) (k' : Pmap) :
    Prop where
  inv : PageInv M (Function.update dirs e (some p)) k'
  view_eq : view (Function.update dirs e (some p)) k' = (view dirs k).setDir e (some p)
  keeps : Keeps M dirs k k'
  managed : M p
  unused : (view dirs k).refs p = 0
  half : ∀ d, k'.mem p d =
    if d = pdx uvpt then page2pa p ||| pteP ||| pteU else k.mem k.kernPgdir d
  data : ∀ r, r ≠ p → k'.mem r = k.mem r

theorem fillSpace_spec {k1 : Pmap} (h : PageInv M dirs k) (hf : Fresh M dirs true k p k1)
    (he : e < nenv) (hnone : dirs e = none) (hkern : ¬ M k.kernPgdir)
    (hclear : ∀ d < nupde, ¬ Present (k.mem k.kernPgdir d)) :
    SpaceMade M dirs k e p (fillSpace p k1) := by
  obtain ⟨-, hnt, hnd⟩ := h.wf.refs_eq_zero.1 hf.unused
  rw [view_dir] at hnd
  have hne : k.kernPgdir ≠ p := by
    intro heq
    exact hkern (heq ▸ hf.managed)
  have hkd : k1.kernPgdir = k.kernPgdir := hf.keeps.layout.kernPgdir
  have hdata : ∀ r, r ≠ p → (fillSpace p k1).mem r = k1.mem r := by
    intro r hr
    rw [fillSpace, mem_setWord_page_of_ne hr]
    simp [Pmap.copyPage, hr]
  have hhalf : ∀ d, (fillSpace p k1).mem p d =
      if d = pdx uvpt then page2pa p ||| pteP ||| pteU else k.mem k.kernPgdir d := by
    intro d
    rw [fillSpace, mem_setWord]
    by_cases hd : d = pdx uvpt
    · rw [if_pos ⟨rfl, hd⟩, if_pos hd]
    · rw [if_neg (fun hh => hd hh.2), if_neg hd, ← hf.data k.kernPgdir hne, ← hkd]
      simp [Pmap.copyPage]
  have hview1 : view dirs (fillSpace p k1) = view dirs k :=
    (view_of_mem_eq_off hnd (by rw [hf.view_eq]; exact hnt) hdata).trans hf.view_eq
  have hview : view (update dirs e (some p)) (fillSpace p k1) =
      (view dirs k).setDir e (some p) := by
    rw [view_addDir hnone, hview1]
    intro d hd
    rw [hhalf, if_neg]
    · exact hclear d hd
    · rintro rfl
      exact absurd hd (by decide)
  have hrefs : ∀ r, update (view dirs k).refs p ((view dirs k).refs p + 1) r =
      (view (update dirs e (some p)) (fillSpace p k1)).refs r := by
    intro r
    have hs := refs_setDir (s := view dirs k) he (some p) r
    rw [view_dir, hnone] at hs
    rw [hview]
    simp only [Option.some.injEq, reduceCtorEq, if_false, Nat.add_zero] at hs
    by_cases hrp : r = p
    · subst hrp
      rw [update_self, hs, if_pos rfl]
    · rw [update_of_ne hrp, hs, if_neg (Ne.symm hrp), Nat.add_zero]
  have hbook : Book M (update (view dirs k).refs p ((view dirs k).refs p + 1))
      (fun r => r = p ∧ r ≠ p) (fillSpace p k1) :=
    ((pageIncref_book hf.rep.book (Or.inr rfl)).unhold
      (by rw [update_self]; omega)).of_pages rfl rfl rfl
  have hrep : Rep M (update dirs e (some p))
      (update (view dirs k).refs p ((view dirs k).refs p + 1))
      (fun r => r = p ∧ r ≠ p) (fillSpace p k1) :=
    ⟨hf.rep.npages_le, by rw [hview]; exact h.wf.addDir he hnone hf.managed hf.unused,
      fun r => (hrefs r).ge, hbook⟩
  refine ⟨hrep.pageInv hrefs fun r hh => hh.2 hh.1, hview, ?_, hf.managed, hf.unused, hhalf, ?_⟩
  · exact hf.keeps.trans (.of_page ⟨rfl, rfl, rfl⟩ hf.managed hnd hdata)
  · intro r hr
    rw [hdata r hr, hf.data r hr]

theorem SpaceMade.bounded (h : SpaceMade M dirs k e d k') (hb : Bounded dirs k) :
    Bounded (update dirs e (some d)) k' := by
  intro p
  rw [h.view_eq]
  exact hb p

end OsLab.Jos
