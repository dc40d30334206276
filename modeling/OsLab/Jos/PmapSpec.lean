import OsLab.Jos.View

/-!
# What the functions of `pmap.c` do to the user half

One theorem per function, for an environment `e` whose directory is `pgdir` and
an address in the user half.  Each says what the call returns, which entry of
the graph of references it changes, and how memory and the books move with it.

* `pgdirWalk_create` — a walk that may create the page table.
* `pageLookup_some`, `pageLookup_none` — the test `!(*pte) & PTE_P` of
  `page_lookup` does find out whether a page is mapped, because an entry of a
  well-formed table is zero or present.
* `pageRemove_spec`, `pageInsert_spec` — the two functions that edit mappings.
-/

namespace OsLab.Jos

open Exec Spaces Function

variable {M : ℕ → Prop} {dirs : ℕ → Option ℕ} {c c' : ℕ → ℕ} {H : ℕ → Prop} {k k' : Pmap}
  {e pgdir p q d pp t : ℕ} {va : Word}

/-- The slot of the environment `e` that an address selects. -/
def slot (e : ℕ) (va : Word) : ℕ × ℕ × ℕ := (e, pdx va, ptx va)

theorem slot_mem (he : e < nenv) (hd : pdx va < nupde) : slot e va ∈ pteSlots :=
  mem_pteSlots.2 ⟨he, hd, ptx_lt va⟩

/-! ## Walking -/

theorem pteSlot_ok (h : pgnum (k.mem pgdir (pdx va)) < k.npages) :
    pteSlot pgdir va k = .ok (some (pgnum (k.mem pgdir (pdx va)), ptx va)) k := by
  have hpg : pgnum (pteAddr (k.mem pgdir (pdx va))) = pgnum (k.mem pgdir (pdx va)) := by
    rw [pteAddr_eq, pgnum_page2pa (pgnum_lt _)]
  have hk : kaddr (pteAddr (k.mem pgdir (pdx va))) k = .ok (pgnum (k.mem pgdir (pdx va))) k := by
    rw [kaddr_ok (by rw [hpg]; exact h), hpg]
  rw [pteSlot, read_bind, bind_ok hk, pure_apply]

/-- An existing page table is found, and nothing changes. -/
theorem pgdirWalk_found (h : Rep M dirs c H k) (hdir : dirs e = some pgdir)
    (hq : (view dirs k).table (e, pdx va) = some q) (create : Bool) :
    pgdirWalk pgdir va create k = .ok (some (q, ptx va)) k := by
  obtain ⟨p, hp, -, hpres, rfl⟩ := view_table_some.1 hq
  rw [hdir] at hp
  obtain rfl := Option.some.inj hp
  rw [pgdirWalk, read_bind, if_pos hpres, pteSlot_ok (h.table_lt hq)]

theorem not_present_pde (hdir : dirs e = some pgdir) (hd : pdx va < nupde)
    (hq : (view dirs k).table (e, pdx va) = none) : ¬ Present (k.mem pgdir (pdx va)) := by
  rw [view_table_dir hdir hd] at hq
  intro hpres
  rw [target, if_pos hpres] at hq
  cases hq

/-- A missing page table is reported by a walk that may not create it. -/
theorem pgdirWalk_missing (hdir : dirs e = some pgdir) (hd : pdx va < nupde)
    (hq : (view dirs k).table (e, pdx va) = none) :
    pgdirWalk pgdir va false k = .ok none k := by
  rw [pgdirWalk, read_bind, if_neg (not_present_pde hdir hd hq)]
  rfl

/-- The directory entry that `pgdir_walk` makes for a new page table. -/
def newPde (q : ℕ) : Word := page2pa q ||| pteP ||| pteU ||| pteW

theorem newPde_eq : newPde q = page2pa q ||| (pteP ||| pteU ||| pteW) := by
  rw [newPde, BitVec.or_assoc, BitVec.or_assoc, BitVec.or_assoc]

theorem present_newPde (q : ℕ) : Present (newPde q) :=
  present_or (present_or present_or_pteP _) _

theorem pgnum_newPde (hq : q < 2 ^ 20) : pgnum (newPde q) = q := by
  rw [newPde_eq, pgnum_page2pa_or hq (by decide)]

theorem target_newPde (hq : q < 2 ^ 20) : target (newPde q) = some q :=
  target_eq_some.2 ⟨present_newPde q, pgnum_newPde hq⟩

/-- What a successful walk with `create` leaves: the table `q` is there in `k'`,
and either it was there before, or it is a fresh zeroed page that the directory
now refers to. -/
structure Walked (M : ℕ → Prop) (dirs : ℕ → Option ℕ) (c : ℕ → ℕ) (H : ℕ → Prop) (k : Pmap)
    (e pgdir d q : ℕ) (c' : ℕ → ℕ) (k' : Pmap) : Prop where
  rep : Rep M dirs c' H k'
  table : (view dirs k').table (e, d) = some q
  grown : (c' = c ∧ k' = k) ∨
    (view dirs k).table (e, d) = none ∧ M q ∧ c q = 0 ∧ ¬ H q ∧ c' = Function.update c q 1 ∧
      view dirs k' = (view dirs k).setTable (e, d) (some q) ∧ k.SameLayout k' ∧
      k'.mem = ((k.zeroPage q).setWord pgdir d (newPde q)).mem

section

variable (h : Rep M dirs c H k)

include h

/-- **A walk that may create the table** finds it, makes it out of a page nobody
uses, or fails because there is no such page, in which case nothing changes. -/
theorem pgdirWalk_create (hdir : dirs e = some pgdir)
    (hd : pdx va < nupde) :
    (pgdirWalk pgdir va true k = .ok none k ∧ (view dirs k).table (e, pdx va) = none ∧
      ∀ p, M p → c p ≠ 0 ∨ H p) ∨
    ∃ q c' k', pgdirWalk pgdir va true k = .ok (some (q, ptx va)) k' ∧
      Walked M dirs c H k e pgdir (pdx va) q c' k' := by
  cases hq : (view dirs k).table (e, pdx va) with
  | some q => exact Or.inr ⟨q, c, k, pgdirWalk_found h hdir hq true, h, hq, Or.inl ⟨rfl, rfl⟩⟩
  | none =>
    have hnot := not_present_pde hdir hd hq
    rw [pgdirWalk, read_bind, if_neg hnot, if_pos rfl]
    rcases pageAlloc_spec h.book h.npages_le true with ⟨hnone, hfull⟩ |
      ⟨q, k1, hsome, hM, hc, hH, hbook, hlay, hmem⟩
    · exact Or.inl ⟨bind_ok hnone, rfl, hfull⟩
    · rw [if_pos rfl] at hmem
      have hlt : q < 2 ^ 20 := h.managed_lt hM
      have hfree : (view dirs k).refs q = 0 := h.refs_eq_zero hc
      obtain ⟨-, hnt, hnd⟩ := h.wf.refs_eq_zero.1 hfree
      have hne : q ≠ pgdir := fun heq => hnd e (heq ▸ hdir)
      -- the state after the count and the directory entry are stored
      set k2 := k1.setRef q ((k1.pages q).ppRef + 1#16) with hk2
      set k3 := k2.setWord pgdir (pdx va) (newPde q) with hk3
      have hmem3 : k3.mem = ((k.zeroPage q).setWord pgdir (pdx va) (newPde q)).mem := by
        show (k2.setWord pgdir (pdx va) (newPde q)).mem = _
        simp only [Pmap.setWord, hk2, Pmap.setRef_mem, hmem]
      have hview1 : view dirs (k.zeroPage q) = view dirs k :=
        view_of_mem_eq_off hnd hnt fun r hr => by
          funext j
          rw [mem_zeroPage, if_neg hr]
      have hview3 : view dirs k3 = (view dirs k).setTable (e, pdx va) (some q) := by
        rw [view_of_mem hmem3, view_setWord_pde (M := M) (by rw [hview1]; exact h.wf) hdir hd,
          target_newPde hlt, hview1]
        · intro t
          rw [hview1, view_pte_none hq]
        · intro q' hq'
          rw [target_newPde hlt] at hq'
          obtain rfl := Option.some.inj hq'
          exact ⟨hne, fun t _ => by rw [mem_zeroPage, if_pos rfl]⟩
      have hwf3 : (view dirs k3).Wf M := by
        rw [hview3]
        exact h.wf.addTable hd hdir hq hM hfree
      have htable : (view dirs k3).table (e, pdx va) = some q := by
        rw [hview3, setTable_table, update_self]
      have hbook2 : Book M (update c q 1) H k2 := by
        have hb := (pageIncref_book (p := q) hbook (Or.inr (Or.inr rfl))).unhold (p := q)
          (by rw [update_self]; omega)
        rw [hc] at hb
        refine hb.congr (fun _ _ => rfl) fun p _ => ⟨fun hp => ⟨Or.inl hp, ?_⟩, fun hp =>
          hp.1.resolve_right hp.2⟩
        rintro rfl
        exact hH hp
      have hrefs : ∀ p, (view dirs k3).refs p ≤ update c q 1 p := by
        intro p
        have hs := refs_setTable (s := view dirs k)
          (mem_tableSlots.2 ⟨h.wf.dir_lt hdir, hd⟩) (some q) p
        rw [hview3]
        have hle := h.refs_le p
        by_cases hpq : p = q
        · subst hpq
          rw [update_self]
          simp only [if_true] at hs
          omega
        · rw [update_of_ne hpq]
          simp only [hq, Option.some.injEq, reduceCtorEq, if_false,
            if_neg (Ne.symm hpq)] at hs
          omega
      have hrep : Rep M dirs (update c q 1) H k3 :=
        ⟨by rw [show k3.npages = k.npages from hlay.npages]; exact h.npages_le, hwf3, hrefs,
          hbook2.of_pages rfl rfl rfl⟩
      refine Or.inr ⟨q, update c q 1, k3, ?_, hrep, htable,
        Or.inr ⟨hq, hM, hc, hH, rfl, hview3, ⟨hlay.1, hlay.2, hlay.3⟩, hmem3⟩⟩
      have hpde : pgnum (k3.mem pgdir (pdx va)) = q := by
        rw [mem_setWord, if_pos ⟨rfl, rfl⟩, pgnum_newPde hlt]
      rw [bind_ok hsome]
      show (pageIncref q >>= _ : PmapM (Option PtePtr)) k1 = _
      rw [bind_ok (pageIncref_apply q k1), modify_bind]
      show pteSlot pgdir va k3 = _
      rw [pteSlot_ok (by rw [hpde]; exact hrep.table_lt htable), hpde]

/-! ## Looking up -/

theorem page_slot_some (hp : (view dirs k).page (slot e va) = some p) :
    ∃ q, (view dirs k).table (e, pdx va) = some q ∧ Present (k.mem q (ptx va)) ∧
      pgnum (k.mem q (ptx va)) = p := by
  obtain ⟨hpres, hpg⟩ := target_eq_some.1 hp
  obtain ⟨-, q, hq⟩ := h.wf.pte_table (ne_zero_of_present hpres)
  rw [slot, view_pte hq (ptx_lt va)] at hpres hpg
  exact ⟨q, hq, hpres, hpg⟩

theorem page_slot_none (hp : (view dirs k).page (slot e va) = none) :
    (view dirs k).pte (slot e va) = 0#32 := by
  refine (h.wf.pte_shape _).resolve_right fun hpres => ?_
  rw [page, target, if_pos hpres] at hp
  cases hp

theorem pageLookup_some (hdir : dirs e = some pgdir)
    (hp : (view dirs k).page (slot e va) = some p) :
    ∃ q, (view dirs k).table (e, pdx va) = some q ∧
      k.mem q (ptx va) = (view dirs k).pte (slot e va) ∧
      pageLookup pgdir va k = .ok (some (p, (q, ptx va))) k := by
  obtain ⟨q, hq, hpres, hpg⟩ := page_slot_some h hp
  refine ⟨q, hq, (view_pte hq (ptx_lt va)).symm, ?_⟩
  have hpa : pgnum (pteAddr (k.mem q (ptx va))) = p := by
    rw [pteAddr_eq, pgnum_page2pa (pgnum_lt _), hpg]
  have hlt : p < k.npages := h.book.managed_lt (h.wf.page_managed hp)
  rw [pageLookup, bind_ok (pgdirWalk_found h hdir hq false)]
  show (read _ >>= _ : PmapM (Option (ℕ × PtePtr))) k = _
  rw [read_bind, if_neg (ne_zero_of_present hpres),
    bind_ok (pa2page_ok (by rw [hpa]; exact hlt)), hpa, pure_apply]

theorem pageLookup_none (hdir : dirs e = some pgdir)
    (hd : pdx va < nupde) (hp : (view dirs k).page (slot e va) = none) :
    pageLookup pgdir va k = .ok none k := by
  have h0 := page_slot_none h hp
  rw [pageLookup]
  cases hq : (view dirs k).table (e, pdx va) with
  | none =>
    rw [bind_ok (pgdirWalk_missing hdir hd hq)]
    rfl
  | some q =>
    rw [bind_ok (pgdirWalk_found h hdir hq false)]
    rw [slot, view_pte hq (ptx_lt va)] at h0
    show (read _ >>= _ : PmapM (Option (ℕ × PtePtr))) k = _
    rw [read_bind, if_pos h0, pure_apply]

/-! ## Removing -/

/-- Storing an entry of a table, with the books kept up to date by the caller. -/
theorem Rep.storePte {H' : ℕ → Prop} {k1 : Pmap} {w : Word} (hb : Book M c' H' k1) (hlay : k.SameLayout k1) (hmem : k1.mem = k.mem)
    (hq : (view dirs k).table (e, d) = some q) (ht : t < nptentries)
    (hw : w = 0#32 ∨ Present w ∧ M (pgnum w) ∧ (∀ x, (view dirs k).table x ≠ some (pgnum w)) ∧
      ∀ e, dirs e ≠ some (pgnum w))
    (hc : ∀ r, (view dirs k).refs r + (if target w = some r then 1 else 0) ≤
      c' r + (if (view dirs k).page (e, d, t) = some r then 1 else 0)) :
    Rep M dirs c' H' (k1.setWord q t w) ∧
      view dirs (k1.setWord q t w) = (view dirs k).setPte (e, d, t) w := by
  have hv1 : view dirs k1 = view dirs k := view_of_mem hmem
  have hview : view dirs (k1.setWord q t w) = (view dirs k).setPte (e, d, t) w := by
    rw [view_setWord_pte (M := M) (by rw [hv1]; exact h.wf) (by rw [hv1]; exact hq) ht, hv1]
  obtain ⟨hd, p, hp⟩ := h.wf.table_dir hq
  refine ⟨⟨?_, ?_, ?_, hb.of_pages rfl rfl rfl⟩, hview⟩
  · rw [show (k1.setWord q t w).npages = k.npages from hlay.npages]
    exact h.npages_le
  · rw [hview]
    exact h.wf.setPte ht hq hw
  · intro r
    have hs := refs_setPte (s := view dirs k) (mem_pteSlots.2 ⟨h.wf.dir_lt hp, hd, ht⟩) w r
    have hcr := hc r
    rw [hview]
    omega

/-- `page_remove` where nothing is mapped. -/
theorem pageRemove_none (hdir : dirs e = some pgdir)
    (hd : pdx va < nupde) (hp : (view dirs k).page (slot e va) = none) :
    pageRemove pgdir va k = .ok () k := by
  rw [pageRemove, bind_ok (pageLookup_none h hdir hd hp)]
  rfl

/-- **`page_remove`** clears the entry and gives its reference back. -/
theorem pageRemove_spec (hdir : dirs e = some pgdir)
    (hp : (view dirs k).page (slot e va) = some p) (hle : c p ≤ 65536) (hH : ¬ H p) :
    ∃ q k', pageRemove pgdir va k = .ok () k' ∧ (view dirs k).table (e, pdx va) = some q ∧
      Rep M dirs (update c p (c p - 1)) H k' ∧
      view dirs k' = (view dirs k).setPte (slot e va) 0#32 ∧ k.SameLayout k' ∧
      k'.mem = (k.setWord q (ptx va) 0#32).mem := by
  obtain ⟨q, hq, -, hlook⟩ := pageLookup_some h hdir hp
  have hpos : 0 < c p := by
    have hne : (view dirs k).refs p ≠ 0 := fun h0 => (h.wf.refs_eq_zero.1 h0).1 _ hp
    have := h.refs_le p
    omega
  obtain ⟨k1, hk1, hb, hlay, hmem⟩ :=
    pageDecref_spec h.book (h.wf.page_managed hp) hpos hle hH
  have hc : ∀ r, (view dirs k).refs r + (if target 0#32 = some r then 1 else 0) ≤
      update c p (c p - 1) r +
        (if (view dirs k).page (e, pdx va, ptx va) = some r then 1 else 0) := by
    intro r
    have hr := h.refs_le r
    rw [show (view dirs k).page (e, pdx va, ptx va) = some p from hp,
      if_neg (by simp)]
    by_cases hrp : r = p
    · subst hrp
      rw [update_self, if_pos rfl]
      omega
    · rw [update_of_ne hrp]
      omega
  obtain ⟨hrep, hview⟩ := h.storePte hb hlay hmem hq (ptx_lt va) (Or.inl rfl) hc
  refine ⟨q, k1.setWord q (ptx va) 0#32, ?_, hq, hrep, hview, ⟨hlay.1, hlay.2, hlay.3⟩, ?_⟩
  · rw [pageRemove, bind_ok hlook]
    show (pageDecref p >>= _ : PmapM Unit) k = _
    rw [bind_ok hk1, modify_apply]
  · simp only [Pmap.setWord, hmem]

end

/-! ## Inserting -/

/-- What a successful `page_insert` leaves. -/
structure Inserted (M : ℕ → Prop) (dirs : ℕ → Option ℕ) (c : ℕ → ℕ) (H : ℕ → Prop) (k : Pmap)
    (e pgdir pp : ℕ) (va perm : Word) (q : ℕ) (c₁ : ℕ → ℕ) (k₁ : Pmap) (c' : ℕ → ℕ) (k' : Pmap) :
    Prop where
  walked : Walked M dirs c H k e pgdir (pdx va) q c₁ k₁
  rep : Rep M dirs c' (fun r => H r ∧ r ≠ pp) k'
  view_eq : view dirs k' = (view dirs k₁).setPte (slot e va) (mkPte pp perm)
  count : ∀ r, c' r + (if (view dirs k₁).page (slot e va) = some r then 1 else 0) =
    c₁ r + (if pp = r then 1 else 0)
  layout : k.SameLayout k'
  mem_eq : k'.mem = ((k₁.setWord q (ptx va) (mkPte pp perm)).setWord pgdir (pdx va)
    (k₁.mem pgdir (pdx va) ||| perm)).mem

theorem Walked.layout (h : Walked M dirs c H k e pgdir d q c' k') : k.SameLayout k' := by
  rcases h.grown with ⟨-, rfl⟩ | ⟨-, -, -, -, -, -, hlay, -⟩
  · exact Pmap.SameLayout.refl _
  · exact hlay

/-- The old mapping of the slot is not touched by the walk. -/
theorem Walked.page_eq (e' : ℕ)
    (h : Walked M dirs c H k e pgdir d q c' k') :
    (view dirs k').page (e', d, t) = (view dirs k).page (e', d, t) := by
  rcases h.grown with ⟨-, rfl⟩ | ⟨-, -, -, -, -, hview, -, -⟩
  · rfl
  · rw [hview, setTable_page]

/-- A page with a count or a holder before the walk is not the new table. -/
theorem Walked.ne_table (h : Walked M dirs c H k e pgdir d q c' k') (hpp : c pp ≠ 0 ∨ H pp)
    (hnt : ∀ x, (view dirs k).table x ≠ some pp) :
    c' pp = c pp ∧ ∀ x, (view dirs k').table x ≠ some pp := by
  rcases h.grown with ⟨rfl, rfl⟩ | ⟨-, -, hc, hH, rfl, hview, -, -⟩
  · exact ⟨rfl, hnt⟩
  · have hne : pp ≠ q := by
      rintro rfl
      exact hpp.elim (fun hn => hn hc) hH
    refine ⟨update_of_ne hne _ _, fun x hx => ?_⟩
    rw [hview, setTable_table] at hx
    by_cases hxe : x = (e, d)
    · rw [hxe, update_self] at hx
      exact hne (Option.some.inj hx).symm
    · rw [update_of_ne hxe] at hx
      exact hnt x hx

/-- The middle of `page_insert`: what is mapped at the slot is taken away. -/
theorem clearSlot_spec (h : Rep M dirs c H k) (hdir : dirs e = some pgdir)
    (hq : (view dirs k).table (e, pdx va) = some q)
    (hle : ∀ r, (view dirs k).page (slot e va) = some r → c r ≤ 65536 ∧ ¬ H r) :
    ∃ c' k', when (Present (k.mem q (ptx va))) (pageRemove pgdir va) k = .ok () k' ∧
      Rep M dirs c' H k' ∧
      (∀ r, c' r + (if (view dirs k).page (slot e va) = some r then 1 else 0) = c r) ∧
      view dirs k' = (view dirs k).setPte (slot e va) 0#32 ∧ k.SameLayout k' ∧
      k'.mem = (k.setWord q (ptx va) 0#32).mem := by
  have hpte : (view dirs k).pte (slot e va) = k.mem q (ptx va) := view_pte hq (ptx_lt va)
  by_cases hpres : Present (k.mem q (ptx va))
  · obtain ⟨p, hp⟩ : ∃ p, (view dirs k).page (slot e va) = some p :=
      ⟨_, target_eq_some.2 ⟨by rw [hpte]; exact hpres, rfl⟩⟩
    obtain ⟨hcp, hHp⟩ := hle p hp
    obtain ⟨q', k', hk', hq', hrep, hview, hlay, hmem⟩ := pageRemove_spec h hdir hp hcp hHp
    rw [hq] at hq'
    obtain rfl := Option.some.inj hq'
    have hpos : 0 < c p := by
      have hne : (view dirs k).refs p ≠ 0 := fun h0 => (h.wf.refs_eq_zero.1 h0).1 _ hp
      have := h.refs_le p
      omega
    refine ⟨_, k', by rw [when_pos hpres, hk'], hrep, fun r => ?_, hview, hlay, hmem⟩
    rw [hp]
    by_cases hr : r = p
    · subst hr
      rw [update_self, if_pos rfl]
      omega
    · rw [update_of_ne hr, if_neg (by simpa using Ne.symm hr), Nat.add_zero]
  · have hp : (view dirs k).page (slot e va) = none := by
      rw [page, hpte, target, if_neg hpres]
    have h0 : k.mem q (ptx va) = 0#32 := by
      rw [← hpte]
      exact page_slot_none h hp
    refine ⟨c, k, by rw [when_neg hpres, pure_apply], h, fun r => ?_, ?_, Pmap.SameLayout.refl k, ?_⟩
    · rw [hp, if_neg (by simp), Nat.add_zero]
    · rw [Spaces.setPte, update_eq_self_iff.2 (by rw [hpte, h0])]
    · funext r j
      rw [mem_setWord]
      split
      · rename_i hrj
        rw [hrj.1, hrj.2, h0]
      · rfl

/-- **`page_insert`** maps the page, replacing what was mapped there, or finds no
page for the table it needs and changes nothing.  Re-inserting the page that is
already mapped is no special case: its count goes up before it goes down. -/
theorem pageInsert_spec {perm : Word} (h : Rep M dirs c H k)
    (hdir : dirs e = some pgdir) (hd : pdx va < nupde) (hM : M pp) (hpp : c pp ≠ 0 ∨ H pp)
    (hnt : ∀ x, (view dirs k).table x ≠ some pp) (hnd : ∀ e, dirs e ≠ some pp)
    (hperm : LowPerm perm) (hH : ∀ r, H r → c r = 0)
    (hle : ∀ r, (view dirs k).page (slot e va) = some r → c r < 65536) :
    (pageInsert pgdir pp va perm k = .ok (-eNoMem) k ∧ (view dirs k).table (e, pdx va) = none ∧
      ∀ p, M p → c p ≠ 0 ∨ H p) ∨
    ∃ q c1 k1 c' k', pageInsert pgdir pp va perm k = .ok 0 k' ∧
      Inserted M dirs c H k e pgdir pp va perm q c1 k1 c' k' := by
  rcases pgdirWalk_create h hdir hd with ⟨hwalk, hnone, hfull⟩ | ⟨q, c1, k1, hwalk, hw⟩
  · refine Or.inl ⟨?_, hnone, hfull⟩
    rw [pageInsert, bind_ok hwalk]
    rfl
  · refine Or.inr ?_
    obtain ⟨hcpp, hnt1⟩ := hw.ne_table hpp hnt
    have hq := hw.table
    have hr1 := hw.rep
    -- the books after the increment; the page is referenced, so nobody holds it
    set k2 := k1.setRef pp ((k1.pages pp).ppRef + 1#16) with hk2
    have hb2 : Book M (update c1 pp (c1 pp + 1)) (fun r => H r ∧ r ≠ pp) k2 :=
      (pageIncref_book hr1.book (by rw [hcpp]; exact hpp)).unhold
        (by rw [update_self]; omega)
    have hc2 : ∀ r, update c1 pp (c1 pp + 1) r = c1 r + (if pp = r then 1 else 0) := by
      intro r
      by_cases hr : r = pp
      · rw [hr, update_self, if_pos rfl]
      · rw [update_of_ne hr, if_neg (Ne.symm hr), Nat.add_zero]
    have hrep2 : Rep M dirs (update c1 pp (c1 pp + 1)) (fun r => H r ∧ r ≠ pp) k2 := by
      refine ⟨hr1.npages_le, hr1.wf, fun r => ?_, hb2⟩
      have h1 : (view dirs k2).refs r ≤ c1 r := hr1.refs_le r
      have h2 := hc2 r
      omega
    have hle2 : ∀ r, (view dirs k2).page (slot e va) = some r →
        update c1 pp (c1 pp + 1) r ≤ 65536 ∧ ¬ (H r ∧ r ≠ pp) := by
      intro r hr
      have hr' : (view dirs k).page (slot e va) = some r := (hw.page_eq e).symm.trans hr
      have hpos : c r ≠ 0 := fun h0 =>
        (h.wf.refs_eq_zero.1 (h.refs_eq_zero h0)).1 _ hr'
      have hc1 : c1 r = c r := (hw.ne_table (Or.inl hpos) fun x hx => h.wf.page_ne_table hr' hx).1
      have hlt := hle r hr'
      refine ⟨?_, fun hh => hpos (hH r hh.1)⟩
      rw [hc2]
      split <;> omega
    obtain ⟨c3, k3, hclear, hrep3, hc3, hview3, hlay3, hmem3⟩ :=
      clearSlot_spec hrep2 hdir (q := q) hq hle2
    have hpg : pgnum (mkPte pp perm) = pp := pgnum_mkPte (h.managed_lt hM) hperm
    have htarget : target (mkPte pp perm) = some pp :=
      target_eq_some.2 ⟨present_mkPte pp perm, hpg⟩
    have htab3 : (view dirs k3).table = (view dirs k1).table := by
      rw [hview3]
      rfl
    -- the books ran ahead of the graph by the reference that is stored now
    have hahead : ∀ r, (view dirs k3).refs r + (if target (mkPte pp perm) = some r then 1 else 0) ≤
        c3 r + (if (view dirs k3).page (e, pdx va, ptx va) = some r then 1 else 0) := by
      intro r
      have h1 := hc3 r
      have h2 := hc2 r
      have h3 := refs_setPte (s := view dirs k2) (slot_mem (h.wf.dir_lt hdir) hd) 0#32 r
      have h4 : (view dirs k2).refs r ≤ c1 r := hr1.refs_le r
      rw [target_zero] at h3
      rw [hview3, htarget]
      simp only [Option.some.injEq, reduceCtorEq, if_false] at h3 ⊢
      omega
    obtain ⟨hrep4, hview4⟩ := hrep3.storePte (w := mkPte pp perm) hrep3.book
      (Pmap.SameLayout.refl k3) rfl (by rw [htab3]; exact hq) (ptx_lt va)
      (Or.inr ⟨present_mkPte pp perm, by rw [hpg]; exact hM,
        by rw [hpg, htab3]; exact hnt1, by rw [hpg]; exact hnd⟩) hahead
    -- the directory entry keeps its page when the permission is added to it
    set k4 := k3.setWord q (ptx va) (mkPte pp perm) with hk4
    have hqne : pgdir ≠ q := by
      rintro rfl
      exact hr1.wf.table_ne_dir hq hdir
    have hpde4 : k4.mem pgdir (pdx va) = k1.mem pgdir (pdx va) := by
      rw [mem_setWord_of_ne hqne, hmem3, mem_setWord_of_ne hqne]
      rfl
    have hpde : Present (k1.mem pgdir (pdx va)) := by
      obtain ⟨p', hp', -, hpres, -⟩ := view_table_some.1 hq
      rw [hdir] at hp'
      obtain rfl := Option.some.inj hp'
      exact hpres
    have hsame : target (k1.mem pgdir (pdx va) ||| perm) = target (k4.mem pgdir (pdx va)) := by
      rw [hpde4, target, target, if_pos hpde, if_pos (present_or hpde perm), pgnum_or hperm]
    have hview5 := view_setWord_pde_same hrep4.wf hdir hsame
    refine ⟨q, c1, k1, c3, k4.setWord pgdir (pdx va) (k1.mem pgdir (pdx va) ||| perm), ?_, hw,
      ⟨hrep4.npages_le, ?_, ?_, hrep4.book.of_pages rfl rfl rfl⟩, ?_, ?_, ?_, ?_⟩
    · rw [pageInsert, bind_ok hwalk]
      show (pageIncref pp >>= _ : PmapM ℤ) k1 = _
      rw [bind_ok (pageIncref_apply pp k1), read_bind, bind_ok hclear, modify_bind, modify_bind, pure_apply, hpde4]
    · rw [hview5]
      exact hrep4.wf
    · rw [hview5]
      exact hrep4.refs_le
    · rw [hview5, hview4, hview3]
      simp only [Spaces.setPte, slot, update_idem]
      rfl
    · intro r
      have h1 := hc3 r
      have h2 := hc2 r
      have h3 : (view dirs k1).page (slot e va) = (view dirs k2).page (slot e va) := rfl
      rw [h3]
      omega
    · have hlay1 := hw.layout
      exact ⟨hlay3.npages.trans hlay1.npages, hlay3.kernPgdir.trans hlay1.kernPgdir,
        hlay3.mmioNext.trans hlay1.mmioNext⟩
    · funext r j
      rw [mem_setWord, mem_setWord, mem_setWord, mem_setWord, hmem3, mem_setWord]
      split
      · rfl
      · split <;> rfl

end OsLab.Jos
