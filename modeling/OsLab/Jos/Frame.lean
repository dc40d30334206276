import OsLab.Jos.PmapSpec

/-!
# What page operations leave alone

`Keeps M dirs k k'` collects what is true of every operation of `pmap.c` on the
user half: the pages outside `M` — the kernel's own memory — are not written,
and of a directory only the user half is.  It composes, so a system call keeps
what its parts keep.

The second half of the module turns `pageInsert_spec` into the two statements
the system calls need: `insert_mapped` for a page that is mapped already, and
`insert_fresh` for a page that `page_alloc` just handed out, which is given back
when the insertion fails.
-/

namespace OsLab.Jos

open Exec Spaces Function

/-- The kernel's memory and the kernel halves of all directories are as before. -/
structure Keeps (M : ℕ → Prop) (dirs : ℕ → Option ℕ) (k k' : Pmap) : Prop where
  layout : k.SameLayout k'
  unmanaged : ∀ q, ¬ M q → k'.mem q = k.mem q
  half : ∀ e p d, dirs e = some p → nupde ≤ d → k'.mem p d = k.mem p d

variable {M : ℕ → Prop} {dirs : ℕ → Option ℕ} {c c' : ℕ → ℕ} {H : ℕ → Prop} {k k' k'' k₁ : Pmap}
  {e pgdir p q pp r d : ℕ} {va perm w : Word} {zero : Bool}

namespace Keeps

theorem refl (M : ℕ → Prop) (dirs : ℕ → Option ℕ) (k : Pmap) : Keeps M dirs k k :=
  ⟨Pmap.SameLayout.refl k, fun _ _ => rfl, fun _ _ _ _ _ => rfl⟩

theorem trans (h : Keeps M dirs k k') (h' : Keeps M dirs k' k'') : Keeps M dirs k k'' :=
  ⟨h.layout.trans h'.layout, fun q hq => (h'.unmanaged q hq).trans (h.unmanaged q hq),
    fun e p d hp hd => (h'.half e p d hp hd).trans (h.half e p d hp hd)⟩

theorem of_mem_eq (hlay : k.SameLayout k') (hmem : k'.mem = k.mem) : Keeps M dirs k k' :=
  ⟨hlay, fun q _ => by rw [hmem], fun _ _ _ _ _ => by rw [hmem]⟩

/-- Filling a page of `M` that is not a directory. -/
theorem of_page (hlay : k.SameLayout k') (hM : M q) (hnd : ∀ e, dirs e ≠ some q)
    (hmem : ∀ r, r ≠ q → k'.mem r = k.mem r) : Keeps M dirs k k' := by
  refine ⟨hlay, fun r hr => hmem r ?_, fun e p d hp _ => ?_⟩
  · rintro rfl
    exact hr hM
  · rw [hmem p]
    rintro rfl
    exact hnd e hp

/-- Storing into the user half of a directory. -/
theorem of_pde (hlay : k.SameLayout k') (hM : M pgdir) (hd : d < nupde)
    (hmem : k'.mem = (k.setWord pgdir d w).mem) : Keeps M dirs k k' := by
  refine ⟨hlay, fun r hr => ?_, fun e p d' _ hd' => ?_⟩
  · funext j
    rw [hmem, mem_setWord, if_neg]
    rintro ⟨rfl, -⟩
    exact hr hM
  · rw [hmem, mem_setWord, if_neg]
    rintro ⟨-, rfl⟩
    omega

end Keeps

theorem mem_zeroPage_of_ne (h : r ≠ p) : (k.zeroPage p).mem r = k.mem r := by
  funext j
  rw [mem_zeroPage, if_neg h]

theorem mem_setWord_page_of_ne {i : ℕ} (h : r ≠ p) :
    (k.setWord p i w).mem r = k.mem r := by
  funext j
  rw [mem_setWord_of_ne h]

theorem Walked.keeps (h : Walked M dirs c H k e pgdir d q c' k')
    (hr : Rep M dirs c H k) (hdir : dirs e = some pgdir) (hd : d < nupde) :
    Keeps M dirs k k' := by
  rcases h.grown with ⟨-, rfl⟩ | ⟨-, hM, hc, -, -, -, hlay, hmem⟩
  · exact Keeps.refl M dirs k'
  · obtain ⟨-, -, hnd⟩ := hr.wf.refs_eq_zero.1 (hr.refs_eq_zero hc)
    have h1 : Keeps M dirs k (k.zeroPage q) :=
      .of_page ⟨rfl, rfl, rfl⟩ hM hnd fun r hr => mem_zeroPage_of_ne hr
    exact h1.trans (.of_pde ⟨hlay.1, hlay.2, hlay.3⟩ (hr.wf.dir_managed hdir) hd hmem)

/-- A page in use, other than a directory or a table, is not written by a walk. -/
theorem Walked.data (h : Walked M dirs c H k e pgdir d q c' k')
    (hdir : dirs e = some pgdir) (hr : c r ≠ 0 ∨ H r) (hnd : ∀ e, dirs e ≠ some r) :
    k'.mem r = k.mem r := by
  rcases h.grown with ⟨-, rfl⟩ | ⟨-, -, hc, hH, -, -, -, hmem⟩
  · rfl
  · have hrq : r ≠ q := by
      rintro rfl
      exact hr.elim (fun hn => hn hc) hH
    have hrd : r ≠ pgdir := by
      rintro rfl
      exact hnd e hdir
    rw [hmem, mem_setWord_page_of_ne hrd, mem_zeroPage_of_ne hrq]

namespace Inserted

variable {pp : ℕ} {perm : Word} {c₁ c' : ℕ → ℕ} {k₁ : Pmap}

section

variable (h : Inserted M dirs c H k e pgdir pp va perm q c₁ k₁ c' k')

include h

theorem keeps (hr : Rep M dirs c H k) (hdir : dirs e = some pgdir) (hd : pdx va < nupde) :
    Keeps M dirs k k' := by
  have hw := h.walked
  have hlay := h.layout
  have hlay1 := hw.layout
  have h1 : Keeps M dirs k₁ (k₁.setWord q (ptx va) (mkPte pp perm)) :=
    .of_page ⟨rfl, rfl, rfl⟩ (hw.rep.wf.table_managed hw.table)
      (fun e => hw.rep.wf.table_ne_dir hw.table) fun r hr => mem_setWord_page_of_ne hr
  have h2 : Keeps M dirs (k₁.setWord q (ptx va) (mkPte pp perm)) k' :=
    .of_pde ⟨hlay.npages.trans hlay1.npages.symm, hlay.kernPgdir.trans hlay1.kernPgdir.symm,
      hlay.mmioNext.trans hlay1.mmioNext.symm⟩ (hr.wf.dir_managed hdir) hd h.mem_eq
  exact (hw.keeps hr hdir hd).trans (h1.trans h2)

theorem data (hdir : dirs e = some pgdir) (hr : c r ≠ 0 ∨ H r) (hnd : ∀ e, dirs e ≠ some r)
    (hnt : ∀ x, (view dirs k).table x ≠ some r) : k'.mem r = k.mem r := by
  have hrd : r ≠ pgdir := by
    rintro rfl
    exact hnd e hdir
  have hrq : r ≠ q := by
    rintro rfl
    exact (h.walked.ne_table hr hnt).2 _ h.walked.table
  rw [h.mem_eq, mem_setWord_page_of_ne hrd, mem_setWord_page_of_ne hrq,
    h.walked.data hdir hr hnd]

/-- The books balance against the new graph when they did against the old one. -/
theorem exact_refs (hr : Rep M dirs c H k) (hdir : dirs e = some pgdir) (hd : pdx va < nupde) (hM : M pp)
    (hperm : LowPerm perm) (hc : ∀ r, c r = (view dirs k).refs r) (r : ℕ) :
    c' r = (view dirs k').refs r := by
  have hpg : target (mkPte pp perm) = some pp :=
    target_eq_some.2 ⟨present_mkPte pp perm, pgnum_mkPte (hr.managed_lt hM) hperm⟩
  have hslot : slot e va ∈ pteSlots := slot_mem (hr.wf.dir_lt hdir) hd
  have h1 := refs_setPte (s := view dirs k₁) hslot (mkPte pp perm) r
  have h2 := h.count r
  have h3 : c₁ r = (view dirs k₁).refs r := by
    rcases h.walked.grown with ⟨rfl, rfl⟩ | ⟨hnone, -, hcq, -, rfl, hview, -, -⟩
    · exact hc r
    · have h4 := refs_setTable (s := view dirs k)
        (mem_tableSlots.2 ⟨hr.wf.dir_lt hdir, hd⟩) (some q) r
      rw [hnone] at h4
      rw [hview]
      have hcr := hc r
      by_cases hrq : r = q
      · subst hrq
        rw [update_self]
        simp only [reduceCtorEq, if_false, if_true] at h4
        omega
      · rw [update_of_ne hrq]
        simp only [reduceCtorEq, if_false, Option.some.injEq, if_neg (Ne.symm hrq)] at h4
        omega
  rw [h.view_eq]
  rw [hpg] at h1
  simp only [Option.some.injEq] at h1
  omega

end

end Inserted

/-- What a successful insertion means for the graph: the slot now maps the page,
every other entry is as it was, and so is every table but for one that did not
exist. -/
structure Mapped (M : ℕ → Prop) (dirs : ℕ → Option ℕ) (k : Pmap) (e pp : ℕ) (va perm : Word)
    (k' : Pmap) : Prop where
  inv : PageInv M dirs k'
  keeps : Keeps M dirs k k'
  pte_self : (view dirs k').pte (slot e va) = mkPte pp perm
  page_self : (view dirs k').page (slot e va) = some pp
  pte_other : ∀ x, x ≠ slot e va → (view dirs k').pte x = (view dirs k).pte x
  table : ∀ x, (view dirs k').table x = (view dirs k).table x ∨
    x = (e, pdx va) ∧ (view dirs k).table x = none ∧
      ∃ q, (view dirs k').table x = some q ∧ M q ∧ (view dirs k).refs q = 0
  data : ∀ r, (view dirs k).mapCount r ≠ 0 ∨ r = pp → k'.mem r = k.mem r

theorem Inserted.mapped {c₁ : ℕ → ℕ}
    (h : Inserted M dirs c H k e pgdir pp va perm q c₁ k₁ c' k') (hr : Rep M dirs c H k)
    (hdir : dirs e = some pgdir) (hd : pdx va < nupde) (hM : M pp) (hpp : c pp ≠ 0 ∨ H pp)
    (hnd : ∀ e, dirs e ≠ some pp) (hnt : ∀ x, (view dirs k).table x ≠ some pp)
    (hperm : LowPerm perm) (hH : ∀ r, H r → r = pp)
    (hc : ∀ r, c r = (view dirs k).refs r) : Mapped M dirs k e pp va perm k' := by
  refine ⟨h.rep.pageInv (h.exact_refs hr hdir hd hM hperm hc) fun r hh => hh.2 (hH r hh.1),
    h.keeps hr hdir hd, ?_, ?_, ?_, ?_, ?_⟩
  · rw [h.view_eq, setPte_pte, update_self]
  · rw [page, h.view_eq, setPte_pte, update_self]
    exact target_eq_some.2 ⟨present_mkPte pp perm, pgnum_mkPte (hr.managed_lt hM) hperm⟩
  · intro x hx
    rw [h.view_eq, setPte_pte, update_of_ne hx]
    rcases h.walked.grown with ⟨-, rfl⟩ | ⟨-, -, -, -, -, hview, -, -⟩
    · rfl
    · rw [hview, setTable_pte]
  · intro x
    rw [h.view_eq, setPte_table]
    rcases h.walked.grown with ⟨-, rfl⟩ | ⟨hnone, hMq, hcq, -, -, hview, -, -⟩
    · exact Or.inl rfl
    · by_cases hx : x = (e, pdx va)
      · subst hx
        exact Or.inr ⟨rfl, hnone, q, h.walked.table, hMq, by rw [← hc, hcq]⟩
      · rw [hview, setTable_table, update_of_ne hx]
        exact Or.inl rfl
  · rintro r (hr0 | rfl)
    · have hmap : 0 < (view dirs k).mapCount r := Nat.pos_of_ne_zero hr0
      obtain ⟨x, -, hx⟩ := refCount_pos.1 hmap
      refine h.data hdir (Or.inl ?_) (fun e => hr.wf.page_ne_dir hx)
        fun y => hr.wf.page_ne_table hx
      rw [hc, hr.wf.refs_page hx]
      exact hr0
    · exact h.data hdir hpp hnd hnt

/-- The number of mappings of each page fits the sixteen-bit counter. -/
def Bounded (dirs : ℕ → Option ℕ) (k : Pmap) : Prop :=
  ∀ p, (view dirs k).mapCount p < 65536

theorem Mapped.page_eq (h : Mapped M dirs k e pp va perm k') :
    (view dirs k').page = update (view dirs k).page (slot e va) (some pp) := by
  funext x
  by_cases hx : x = slot e va
  · subst hx
    rw [h.page_self, update_self]
  · rw [update_of_ne hx, page, page, h.pte_other x hx]

/-- How a mapping moves the counts. -/
theorem Mapped.mapCount (h : Mapped M dirs k e pp va perm k')
    (he : e < nenv) (hd : pdx va < nupde) (r : ℕ) : (view dirs k').mapCount r +
      (if (view dirs k).page (slot e va) = some r then 1 else 0) =
      (view dirs k).mapCount r + if pp = r then 1 else 0 := by
  have := refCount_update (f := (view dirs k).page) (slot_mem he hd) (some pp) r
  rw [← h.page_eq] at this
  simp only [Option.some.injEq] at this
  exact this

/-- A page with a mapping to spare can be mapped once more. -/
theorem Mapped.bounded (h : Mapped M dirs k e pp va perm k')
    (he : e < nenv) (hd : pdx va < nupde) (hb : Bounded dirs k)
    (hpp : (view dirs k).mapCount pp < 65535) : Bounded dirs k' := by
  intro r
  have h1 := h.mapCount he hd r
  have h2 := hb r
  by_cases hr : pp = r
  · subst hr
    rw [if_pos rfl] at h1
    omega
  · rw [if_neg hr] at h1
    omega

/-- `page_insert` of a page that some environment has mapped. -/
theorem insert_mapped {x : ℕ × ℕ × ℕ} (h : PageInv M dirs k)
    (hb : Bounded dirs k) (hdir : dirs e = some pgdir) (hd : pdx va < nupde)
    (hp : (view dirs k).page x = some p) (hperm : LowPerm perm) :
    (pageInsert pgdir p va perm k = .ok (-eNoMem) k ∧ ∀ r, M r → (view dirs k).refs r ≠ 0) ∨
    ∃ k', pageInsert pgdir p va perm k = .ok 0 k' ∧ Mapped M dirs k e p va perm k' := by
  have hM := h.wf.page_managed hp
  have hne : (view dirs k).refs p ≠ 0 := fun h0 => (h.wf.refs_eq_zero.1 h0).1 x hp
  have hnt : ∀ y, (view dirs k).table y ≠ some p := fun y => h.wf.page_ne_table hp
  have hnd : ∀ e, dirs e ≠ some p := fun e => h.wf.page_ne_dir hp
  rcases pageInsert_spec h hdir hd hM (Or.inl hne) hnt hnd hperm (fun _ hf => hf.elim)
      (fun r hr => by rw [h.wf.refs_page hr]; exact hb r) with
    ⟨hins, -, hfull⟩ | ⟨q, c₁, k₁, c', k', hins, hi⟩
  · exact Or.inl ⟨hins, fun r hr => (hfull r hr).resolve_right id⟩
  · exact Or.inr ⟨k', hins, hi.mapped h hdir hd hM (Or.inl hne) hnd hnt hperm
      (fun _ hf => hf.elim) fun _ => rfl⟩

/-- A page fresh from `page_alloc`, zeroed or not, which nothing refers to yet. -/
structure Fresh (M : ℕ → Prop) (dirs : ℕ → Option ℕ) (zero : Bool) (k : Pmap) (pp : ℕ)
    (k' : Pmap) : Prop where
  rep : Rep M dirs (view dirs k).refs (fun r => r = pp) k'
  managed : M pp
  unused : (view dirs k).refs pp = 0
  view_eq : view dirs k' = view dirs k
  keeps : Keeps M dirs k k'
  data : ∀ r, r ≠ pp → k'.mem r = k.mem r
  zeroed : zero = true → ∀ i, k'.mem pp i = 0#32

theorem alloc_fresh (h : PageInv M dirs k) (zero : Bool) :
    (pageAlloc zero k = .ok none k ∧ ∀ r, M r → (view dirs k).refs r ≠ 0) ∨
    ∃ pp k', pageAlloc zero k = .ok (some pp) k' ∧ Fresh M dirs zero k pp k' := by
  rcases pageAlloc_spec h.book h.npages_le zero with ⟨hnone, hfull⟩ |
    ⟨pp, k', hsome, hM, hc, -, hbook, hlay, hmem⟩
  · exact Or.inl ⟨hnone, fun r hr => (hfull r hr).resolve_right id⟩
  · obtain ⟨-, hnt, hnd⟩ := h.wf.refs_eq_zero.1 hc
    have hdata : ∀ r, r ≠ pp → k'.mem r = k.mem r := by
      intro r hr
      rw [hmem]
      split
      · exact mem_zeroPage_of_ne hr
      · rfl
    have hview : view dirs k' = view dirs k := view_of_mem_eq_off hnd hnt hdata
    refine Or.inr ⟨pp, k', hsome, ⟨?_, ?_, ?_, ?_⟩, hM, hc, hview, .of_page hlay hM hnd hdata,
      hdata, ?_⟩
    · rw [hlay.npages]
      exact h.npages_le
    · rw [hview]
      exact h.wf
    · intro r
      rw [hview]
    · exact hbook.congr (fun _ _ => rfl) fun r _ => (or_iff_right not_false).symm
    · intro hz i
      rw [hmem, if_pos hz, mem_zeroPage, if_pos rfl]

/-- Nothing maps a fresh page. -/
theorem Fresh.mapCount (h : Fresh M dirs zero k pp k') :
    (view dirs k').mapCount pp = 0 := by
  have hu := h.unused
  rw [refs] at hu
  rw [h.view_eq]
  omega

/-- What allocating a page and failing to insert it leaves: the page is back on
the free list, with its old contents gone. -/
structure GivenBack (M : ℕ → Prop) (dirs : ℕ → Option ℕ) (k : Pmap) (pp : ℕ) (k' : Pmap) :
    Prop where
  inv : PageInv M dirs k'
  keeps : Keeps M dirs k k'
  view_eq : view dirs k' = view dirs k
  data : ∀ r, r ≠ pp → k'.mem r = k.mem r

/-- `page_insert` of the page just allocated, and `page_free` if it fails: the
end of `sys_page_alloc`. -/
theorem insert_fresh (h : PageInv M dirs k)
    (hb : Bounded dirs k) (hf : Fresh M dirs zero k pp k₁) (hdir : dirs e = some pgdir)
    (hd : pdx va < nupde) (hperm : LowPerm perm) :
    (∃ k2, pageInsert pgdir pp va perm k₁ = .ok (-eNoMem) k₁ ∧ pageFree pp k₁ = .ok () k2 ∧
      GivenBack M dirs k pp k2 ∧ ∀ r, M r → (view dirs k).refs r ≠ 0 ∨ r = pp) ∨
    ∃ k2, pageInsert pgdir pp va perm k₁ = .ok 0 k2 ∧ Mapped M dirs k₁ e pp va perm k2 := by
  obtain ⟨-, hnt, hnd⟩ := h.wf.refs_eq_zero.1 hf.unused
  have hnt1 : ∀ x, (view dirs k₁).table x ≠ some pp := by
    rw [hf.view_eq]
    exact hnt
  rcases pageInsert_spec hf.rep hdir hd hf.managed (Or.inr rfl) hnt1 hnd hperm
      (fun r hr => by rw [hr]; exact hf.unused)
      (fun r hr => by rw [hf.view_eq] at hr; rw [h.wf.refs_page hr]; exact hb r) with
    ⟨hins, -, hfull⟩ | ⟨q, c₁, k2, c', k', hins, hi⟩
  · obtain ⟨k2, hfree, hbook, hlay, hmem⟩ :=
      pageFree_spec hf.rep.book hf.managed hf.unused rfl
    have hview : view dirs k2 = view dirs k := (view_of_mem hmem).trans hf.view_eq
    have hrep : Rep M dirs (view dirs k).refs (fun r => r = pp ∧ r ≠ pp) k2 :=
      ⟨by rw [hlay.npages]; exact hf.rep.npages_le, by rw [hview]; exact h.wf,
        fun r => by rw [hview], hbook⟩
    refine Or.inl ⟨k2, hins, hfree, ⟨?_, ?_, hview, ?_⟩, hfull⟩
    · exact hrep.pageInv (fun r => by rw [hview]) fun r hh => hh.2 hh.1
    · exact hf.keeps.trans (.of_mem_eq hlay hmem)
    · intro r hr
      rw [hmem, hf.data r hr]
  · refine Or.inr ⟨k', hins, ?_⟩
    exact hi.mapped hf.rep hdir hd hf.managed (Or.inr rfl) hnd hnt1 hperm
      (fun r hr => hr) fun r => by rw [hf.view_eq]

/-- What removing the mapping of a slot leaves. -/
structure Unmapped (M : ℕ → Prop) (dirs : ℕ → Option ℕ) (k : Pmap) (x : ℕ × ℕ × ℕ) (k' : Pmap) :
    Prop where
  inv : PageInv M dirs k'
  keeps : Keeps M dirs k k'
  view_eq : view dirs k' = (view dirs k).setPte x 0#32
  data : ∀ r, (∀ x, (view dirs k).table x ≠ some r) → k'.mem r = k.mem r

/-- `page_remove` always returns, and leaves the slot empty. -/
theorem remove_unmapped (va : Word) (h : PageInv M dirs k) (hb : Bounded dirs k)
    (hdir : dirs e = some pgdir) (hd : pdx va < nupde) :
    ∃ k', pageRemove pgdir va k = .ok () k' ∧ Unmapped M dirs k (slot e va) k' := by
  cases hp : (view dirs k).page (slot e va) with
  | none =>
    refine ⟨k, pageRemove_none h hdir hd hp, h, Keeps.refl M dirs k, ?_, fun _ _ => rfl⟩
    rw [Spaces.setPte, update_eq_self_iff.2 (page_slot_none h hp).symm]
  | some p =>
    obtain ⟨q, k', hrem, hq, hrep, hview, hlay, hmem⟩ := pageRemove_spec h hdir hp
      (by rw [h.wf.refs_page hp]; exact (hb p).le) id
    refine ⟨k', hrem, hrep.pageInv (fun r => ?_) fun _ => id, ?_, hview, fun r hr => ?_⟩
    · have hslot : slot e va ∈ pteSlots := slot_mem (h.wf.dir_lt hdir) hd
      have h1 := refs_setPte (s := view dirs k) hslot 0#32 r
      rw [hview]
      rw [target_zero, hp] at h1
      by_cases hrp : r = p
      · subst hrp
        rw [update_self]
        simp only [reduceCtorEq, if_false, if_true] at h1
        omega
      · rw [update_of_ne hrp]
        simp only [reduceCtorEq, if_false, Option.some.injEq, if_neg (Ne.symm hrp)] at h1
        omega
    · exact .of_page hlay (h.wf.table_managed hq) (fun e => h.wf.table_ne_dir hq)
        fun r hr => by rw [hmem, mem_setWord_page_of_ne hr]
    · rw [hmem, mem_setWord_page_of_ne]
      rintro rfl
      exact hr _ hq

end OsLab.Jos
