import OsLab.Lib.Count
import OsLab.Jos.Mmu

/-!
# Address spaces as a graph of references

What the page tables of all environments amount to, with memory forgotten: who
owns which page directory, which page tables hang off it below `UTOP`, and what
each of their entries holds.  This is the abstract side of `pmap.c`.

* `Spaces.refs s p` is the number of references to the page `p`: entries that
  map it, directory entries that point to it as a table, and environments that
  have it as their directory.
* `Spaces.Wf M s` says that the pages `M` are used for one purpose each: a
  directory belongs to one environment, a table to one directory entry, and
  neither is ever mapped.
* `refs_setPte`, `refs_setTable` and `refs_setDir` say how the three kinds of
  reference change the count, and `Wf.setPte` and its siblings when such a
  change keeps the pages apart.
-/

namespace OsLab.Jos

open Function

/-- `NENV`. -/
def nenv : ℕ := 1024

/-- The user halves of all address spaces: `dir e` is the directory page of
environment `e`, `table (e, d)` the page table behind entry `d` of it, and
`pte (e, d, t)` entry `t` of that table. -/
@[ext]
structure Spaces where
  dir : ℕ → Option ℕ
  table : ℕ × ℕ → Option ℕ
  pte : ℕ × ℕ × ℕ → Word

/-- The slots that can hold a directory, a table or a mapping. -/
@[irreducible] def dirSlots : Finset ℕ := Finset.range nenv
@[irreducible] def tableSlots : Finset (ℕ × ℕ) := Finset.range nenv ×ˢ Finset.range nupde
@[irreducible] def pteSlots : Finset (ℕ × ℕ × ℕ) :=
  Finset.range nenv ×ˢ Finset.range nupde ×ˢ Finset.range nptentries

theorem mem_dirSlots {e : ℕ} : e ∈ dirSlots ↔ e < nenv := by
  rw [dirSlots, Finset.mem_range]

theorem mem_tableSlots {e d : ℕ} : (e, d) ∈ tableSlots ↔ e < nenv ∧ d < nupde := by
  unfold tableSlots
  exact Finset.mem_product.trans (and_congr Finset.mem_range Finset.mem_range)

theorem mem_pteSlots {e d t : ℕ} :
    (e, d, t) ∈ pteSlots ↔ e < nenv ∧ d < nupde ∧ t < nptentries := by
  unfold pteSlots
  exact Finset.mem_product.trans (and_congr Finset.mem_range
    (Finset.mem_product.trans (and_congr Finset.mem_range Finset.mem_range)))

variable {x : ℕ × ℕ × ℕ}

namespace Spaces

variable {M : ℕ → Prop} {s : Spaces} {e d t p q : ℕ} {w : Word}

/-- The page a word maps when it is used as an entry. -/
def target (w : Word) : Option ℕ := if Present w then some (pgnum w) else none

theorem target_eq_some : target w = some p ↔ Present w ∧ pgnum w = p := by
  unfold target
  split <;> simp_all

@[simp] theorem target_zero : target 0#32 = none := by decide

/-- The page mapped by an entry. -/
def page (s : Spaces) (x : ℕ × ℕ × ℕ) : Option ℕ := target (s.pte x)

/-- The number of entries that map `p`. -/
def mapCount (s : Spaces) (p : ℕ) : ℕ := refCount s.page pteSlots p

/-- The number of references to `p` of any kind. -/
def refs (s : Spaces) (p : ℕ) : ℕ :=
  s.mapCount p + refCount s.table tableSlots p + refCount s.dir dirSlots p

def setPte (s : Spaces) (x : ℕ × ℕ × ℕ) (w : Word) : Spaces :=
  { s with pte := Function.update s.pte x w }

def setTable (s : Spaces) (x : ℕ × ℕ) (q : Option ℕ) : Spaces :=
  { s with table := Function.update s.table x q }

def setDir (s : Spaces) (e : ℕ) (p : Option ℕ) : Spaces :=
  { s with dir := Function.update s.dir e p }

@[simp] theorem setPte_dir : (s.setPte x w).dir = s.dir := rfl
@[simp] theorem setPte_table : (s.setPte x w).table = s.table := rfl
@[simp] theorem setPte_pte (x : ℕ × ℕ × ℕ) : (s.setPte x w).pte = update s.pte x w := rfl
@[simp] theorem setTable_dir (x : ℕ × ℕ) (o : Option ℕ) : (s.setTable x o).dir = s.dir := rfl
@[simp] theorem setTable_table (x : ℕ × ℕ) (o : Option ℕ) :
    (s.setTable x o).table = update s.table x o := rfl
@[simp] theorem setTable_pte (x : ℕ × ℕ) (o : Option ℕ) : (s.setTable x o).pte = s.pte := rfl
@[simp] theorem setTable_page (x : ℕ × ℕ) (o : Option ℕ) : (s.setTable x o).page = s.page := rfl
@[simp] theorem setDir_dir (o : Option ℕ) : (s.setDir e o).dir = update s.dir e o := rfl
@[simp] theorem setDir_table (o : Option ℕ) : (s.setDir e o).table = s.table := rfl
@[simp] theorem setDir_pte (o : Option ℕ) : (s.setDir e o).pte = s.pte := rfl
@[simp] theorem setDir_page (o : Option ℕ) : (s.setDir e o).page = s.page := rfl

theorem setPte_page :
    (s.setPte x w).page = update s.page x (target w) := by
  funext y
  by_cases h : y = x
  · subst h
    simp [page, setPte]
  · simp [page, setPte, h]

/-! ## How a change moves the counts -/

theorem mapCount_setPte (hx : x ∈ pteSlots) (w : Word) (p : ℕ) :
    (s.setPte x w).mapCount p + (if s.page x = some p then 1 else 0) =
      s.mapCount p + (if target w = some p then 1 else 0) := by
  rw [mapCount, setPte_page]
  exact refCount_update hx (target w) p

theorem refs_setPte (hx : x ∈ pteSlots) (w : Word) (p : ℕ) :
    (s.setPte x w).refs p + (if s.page x = some p then 1 else 0) =
      s.refs p + (if target w = some p then 1 else 0) := by
  have h := mapCount_setPte (s := s) hx w p
  simp only [refs, setPte_table, setPte_dir]
  omega

theorem refs_setTable {x : ℕ × ℕ} (hx : x ∈ tableSlots) (o : Option ℕ) (p : ℕ) :
    (s.setTable x o).refs p + (if s.table x = some p then 1 else 0) =
      s.refs p + (if o = some p then 1 else 0) := by
  have h := refCount_update (f := s.table) hx o p
  simp only [refs, mapCount, setTable_page, setTable_dir, setTable_table]
  omega

theorem refs_setDir (he : e < nenv) (o : Option ℕ) (p : ℕ) :
    (s.setDir e o).refs p + (if s.dir e = some p then 1 else 0) =
      s.refs p + (if o = some p then 1 else 0) := by
  have h := refCount_update (f := s.dir) (S := dirSlots) (mem_dirSlots.2 he) o p
  simp only [refs, mapCount, setDir_page, setDir_table, setDir_dir]
  omega

theorem refs_eq_zero : s.refs p = 0 ↔ (∀ x ∈ pteSlots, s.page x ≠ some p) ∧
    (∀ x ∈ tableSlots, s.table x ≠ some p) ∧ ∀ e ∈ dirSlots, s.dir e ≠ some p := by
  rw [refs, Nat.add_eq_zero_iff, Nat.add_eq_zero_iff, mapCount, refCount_eq_zero,
    refCount_eq_zero, refCount_eq_zero, and_assoc]

end Spaces

/-! ## Pages with one purpose -/

/-- Every page of `M` that is referenced is referenced in one way only: as the
directory of one environment, as the table of one directory entry, or as a page
mapped by entries; and only pages of `M` are referenced. -/
structure Spaces.Wf (M : ℕ → Prop) (s : Spaces) : Prop where
  dir_lt : ∀ {e p}, s.dir e = some p → e < nenv
  dir_managed : ∀ {e p}, s.dir e = some p → M p
  dir_inj : ∀ {e e' p}, s.dir e = some p → s.dir e' = some p → e = e'
  table_dir : ∀ {e d q}, s.table (e, d) = some q → d < nupde ∧ ∃ p, s.dir e = some p
  table_managed : ∀ {x q}, s.table x = some q → M q
  table_inj : ∀ {x y q}, s.table x = some q → s.table y = some q → x = y
  table_ne_dir : ∀ {x e q}, s.table x = some q → s.dir e ≠ some q
  pte_table : ∀ {e d t}, s.pte (e, d, t) ≠ 0#32 → t < nptentries ∧ ∃ q, s.table (e, d) = some q
  pte_shape : ∀ x, s.pte x = 0#32 ∨ Present (s.pte x)
  page_managed : ∀ {x p}, s.page x = some p → M p
  page_ne_dir : ∀ {x e p}, s.page x = some p → s.dir e ≠ some p
  page_ne_table : ∀ {x y p}, s.page x = some p → s.table y ≠ some p

namespace Spaces.Wf

variable {M : ℕ → Prop} {s : Spaces} {e d t p q : ℕ} {w : Word}

section

variable (h : s.Wf M)

include h

theorem table_slot {x : ℕ × ℕ} (hx : s.table x = some q) : x ∈ tableSlots := by
  obtain ⟨hd, p, hp⟩ := h.table_dir hx
  exact mem_tableSlots.2 ⟨h.dir_lt hp, hd⟩

theorem pte_slot (hx : s.pte x ≠ 0#32) : x ∈ pteSlots := by
  obtain ⟨ht, q, hq⟩ := h.pte_table hx
  have hs := mem_tableSlots.1 (h.table_slot hq)
  exact mem_pteSlots.2 ⟨hs.1, hs.2, ht⟩

theorem page_slot (hx : s.page x = some p) : x ∈ pteSlots :=
  h.pte_slot (ne_zero_of_present (target_eq_some.1 hx).1)

/-- With the slots out of the way: a page is unreferenced when nothing names it. -/
theorem refs_eq_zero : s.refs p = 0 ↔ (∀ x, s.page x ≠ some p) ∧
    (∀ x, s.table x ≠ some p) ∧ ∀ e, s.dir e ≠ some p := by
  rw [Spaces.refs_eq_zero]
  constructor
  · rintro ⟨h1, h2, h3⟩
    exact ⟨fun x hx => h1 x (h.page_slot hx) hx, fun x hx => h2 x (h.table_slot hx) hx,
      fun e he => h3 e (mem_dirSlots.2 (h.dir_lt he)) he⟩
  · rintro ⟨h1, h2, h3⟩
    exact ⟨fun x _ => h1 x, fun x _ => h2 x, fun e _ => h3 e⟩

/-- A directory is referenced exactly once, by the environment it belongs to. -/
theorem refs_dir (hp : s.dir e = some p) : s.refs p = 1 := by
  have h1 : s.mapCount p = 0 :=
    refCount_eq_zero.2 fun x _ hx => h.page_ne_dir hx hp
  have h2 : refCount s.table tableSlots p = 0 :=
    refCount_eq_zero.2 fun x _ hx => h.table_ne_dir hx hp
  have h3 : refCount s.dir dirSlots p ≤ 1 :=
    refCount_le_one fun i _ j _ hi hj => h.dir_inj hi hj
  have h4 : 0 < refCount s.dir dirSlots p :=
    refCount_pos.2 ⟨e, mem_dirSlots.2 (h.dir_lt hp), hp⟩
  rw [Spaces.refs]
  omega

/-- A page table is referenced exactly once, by its directory entry. -/
theorem refs_table {x : ℕ × ℕ} (hq : s.table x = some q) : s.refs q = 1 := by
  have h1 : s.mapCount q = 0 :=
    refCount_eq_zero.2 fun y _ hy => h.page_ne_table hy hq
  have h2 : refCount s.dir dirSlots q = 0 :=
    refCount_eq_zero.2 fun e _ he => h.table_ne_dir hq he
  have h3 : refCount s.table tableSlots q ≤ 1 :=
    refCount_le_one fun i _ j _ hi hj => h.table_inj hi hj
  have h4 : 0 < refCount s.table tableSlots q := refCount_pos.2 ⟨x, h.table_slot hq, hq⟩
  rw [Spaces.refs]
  omega

/-- A mapped page is referenced by its mappings only. -/
theorem refs_page (hp : s.page x = some p) :
    s.refs p = s.mapCount p := by
  have h1 : refCount s.table tableSlots p = 0 :=
    refCount_eq_zero.2 fun y _ hy => h.page_ne_table hp hy
  have h2 : refCount s.dir dirSlots p = 0 :=
    refCount_eq_zero.2 fun e _ he => h.page_ne_dir hp he
  rw [Spaces.refs]
  omega

/-- Writing an entry of an existing table, either with zero or with a mapping of
a page that is neither a directory nor a table. -/
theorem setPte (ht : t < nptentries) (hq : s.table (e, d) = some q)
    (hw : w = 0#32 ∨ Present w ∧ M (pgnum w) ∧ (∀ x, s.table x ≠ some (pgnum w)) ∧
      ∀ e, s.dir e ≠ some (pgnum w)) : (s.setPte (e, d, t) w).Wf M := by
  -- a mapping of the new space is an old one or the one just written
  have hpage : ∀ {x p}, (s.setPte (e, d, t) w).page x = some p →
      s.page x = some p ∨ M p ∧ (∀ x, s.table x ≠ some p) ∧ ∀ e, s.dir e ≠ some p := by
    intro x p hx
    rw [setPte_page] at hx
    by_cases hxe : x = (e, d, t)
    · subst hxe
      rw [update_self, target_eq_some] at hx
      obtain ⟨hpres, rfl⟩ := hx
      rcases hw with rfl | ⟨_, hM, htab, hdir⟩
      · exact absurd hpres not_present_zero
      · exact Or.inr ⟨hM, htab, hdir⟩
    · rw [update_of_ne hxe] at hx
      exact Or.inl hx
  have hpte : ∀ x, (s.setPte (e, d, t) w).pte x = if x = (e, d, t) then w else s.pte x := by
    intro x
    simp [Spaces.setPte, update_apply]
  refine ⟨h.dir_lt, h.dir_managed, h.dir_inj, h.table_dir, h.table_managed, h.table_inj,
    h.table_ne_dir, ?_, ?_, ?_, ?_, ?_⟩
  · intro e' d' t' hne
    rw [hpte] at hne
    split at hne
    · rename_i heq
      cases heq
      exact ⟨ht, q, hq⟩
    · exact h.pte_table hne
  · intro x
    rw [hpte]
    split
    · exact hw.imp_right fun h => h.1
    · exact h.pte_shape x
  · intro x p hx
    rcases hpage hx with hx | hx
    · exact h.page_managed hx
    · exact hx.1
  · intro x e' p hx
    rcases hpage hx with hx | hx
    · exact h.page_ne_dir hx
    · exact hx.2.2 e'
  · intro x y p hx
    rcases hpage hx with hx | hx
    · exact h.page_ne_table hx
    · exact hx.2.1 y

/-- Hanging a fresh page off a directory entry as a page table. -/
theorem addTable (hd : d < nupde) (hp : s.dir e = some p)
    (hnone : s.table (e, d) = none) (hM : M q) (hfree : s.refs q = 0) :
    (s.setTable (e, d) (some q)).Wf M := by
  obtain ⟨hf1, hf2, hf3⟩ := h.refs_eq_zero.1 hfree
  have htab : ∀ {x r}, (s.setTable (e, d) (some q)).table x = some r →
      s.table x = some r ∨ x = (e, d) ∧ r = q := by
    intro x r hx
    by_cases hxe : x = (e, d)
    · subst hxe
      rw [setTable_table, update_self] at hx
      exact Or.inr ⟨rfl, (Option.some.inj hx).symm⟩
    · rw [setTable_table, update_of_ne hxe] at hx
      exact Or.inl hx
  refine ⟨h.dir_lt, h.dir_managed, h.dir_inj, ?_, ?_, ?_, ?_, ?_, h.pte_shape, h.page_managed,
    h.page_ne_dir, ?_⟩
  · intro e' d' r hx
    rcases htab hx with hx | ⟨heq, _⟩
    · exact h.table_dir hx
    · obtain ⟨rfl, rfl⟩ := Prod.mk.inj heq
      exact ⟨hd, p, hp⟩
  · intro x r hx
    rcases htab hx with hx | ⟨_, rfl⟩
    · exact h.table_managed hx
    · exact hM
  · intro x y r hx hy
    rcases htab hx with hx | ⟨rfl, rfl⟩ <;> rcases htab hy with hy | ⟨hy, hr⟩
    · exact h.table_inj hx hy
    · exact absurd (hr ▸ hx) (hf2 x)
    · exact absurd hy (hf2 y)
    · exact hy.symm
  · intro x e' r hx
    rcases htab hx with hx | ⟨_, rfl⟩
    · exact h.table_ne_dir hx
    · exact hf3 e'
  · intro e' d' t' hne
    obtain ⟨ht, r, hr⟩ := h.pte_table hne
    refine ⟨ht, r, ?_⟩
    rw [setTable_table, update_of_ne ?_]
    · exact hr
    · rintro heq
      rw [heq, hnone] at hr
      exact absurd hr (by simp)
  · intro x y r hx hy
    rcases htab hy with hy | ⟨_, rfl⟩
    · exact h.page_ne_table hx hy
    · exact hf1 x hx

/-- Taking away a page table all of whose entries are clear. -/
theorem dropTable (hclear : ∀ t, s.pte (e, d, t) = 0#32) :
    (s.setTable (e, d) none).Wf M := by
  have htab : ∀ {x r}, (s.setTable (e, d) none).table x = some r → s.table x = some r := by
    intro x r hx
    by_cases hxe : x = (e, d)
    · subst hxe
      exact absurd hx (by simp)
    · rwa [setTable_table, update_of_ne hxe] at hx
  refine ⟨h.dir_lt, h.dir_managed, h.dir_inj, fun hx => h.table_dir (htab hx),
    fun hx => h.table_managed (htab hx), fun hx hy => h.table_inj (htab hx) (htab hy),
    fun hx => h.table_ne_dir (htab hx), ?_, h.pte_shape, h.page_managed, h.page_ne_dir,
    fun hx hy => h.page_ne_table hx (htab hy)⟩
  intro e' d' t' hne
  obtain ⟨ht, r, hr⟩ := h.pte_table hne
  refine ⟨ht, r, ?_⟩
  rw [setTable_table, update_of_ne ?_]
  · exact hr
  · rintro heq
    cases heq
    exact hne (hclear t')

/-- Giving an environment without a directory a fresh page as its directory. -/
theorem addDir (he : e < nenv) (hnone : s.dir e = none) (hM : M p)
    (hfree : s.refs p = 0) : (s.setDir e (some p)).Wf M := by
  obtain ⟨hf1, hf2, hf3⟩ := h.refs_eq_zero.1 hfree
  have hdir : ∀ {e' r}, (s.setDir e (some p)).dir e' = some r →
      s.dir e' = some r ∨ e' = e ∧ r = p := by
    intro e' r hx
    by_cases hxe : e' = e
    · subst hxe
      rw [setDir_dir, update_self] at hx
      exact Or.inr ⟨rfl, (Option.some.inj hx).symm⟩
    · rw [setDir_dir, update_of_ne hxe] at hx
      exact Or.inl hx
  refine ⟨?_, ?_, ?_, ?_, h.table_managed, h.table_inj, ?_, h.pte_table, h.pte_shape,
    h.page_managed, ?_, h.page_ne_table⟩
  · intro e' r hx
    rcases hdir hx with hx | ⟨rfl, _⟩
    · exact h.dir_lt hx
    · exact he
  · intro e' r hx
    rcases hdir hx with hx | ⟨_, rfl⟩
    · exact h.dir_managed hx
    · exact hM
  · intro e1 e2 r h1 h2
    rcases hdir h1 with h1 | ⟨rfl, rfl⟩ <;> rcases hdir h2 with h2 | ⟨h2, hr⟩
    · exact h.dir_inj h1 h2
    · exact absurd (hr ▸ h1) (hf3 e1)
    · exact absurd h2 (hf3 e2)
    · exact h2.symm
  · intro e' d' r hx
    obtain ⟨hd, r', hr'⟩ := h.table_dir hx
    refine ⟨hd, r', ?_⟩
    rw [setDir_dir, update_of_ne ?_]
    · exact hr'
    · rintro rfl
      rw [hnone] at hr'
      exact absurd hr' (by simp)
  · intro x e' r hx hy
    rcases hdir hy with hy | ⟨_, rfl⟩
    · exact h.table_ne_dir hx hy
    · exact hf2 x hx
  · intro x e' r hx hy
    rcases hdir hy with hy | ⟨_, rfl⟩
    · exact h.page_ne_dir hx hy
    · exact hf1 x hx

/-- Taking away a directory with no tables left. -/
theorem dropDir (hclear : ∀ d, s.table (e, d) = none) : (s.setDir e none).Wf M := by
  have hdir : ∀ {e' r}, (s.setDir e none).dir e' = some r → s.dir e' = some r := by
    intro e' r hx
    by_cases hxe : e' = e
    · subst hxe
      exact absurd hx (by simp)
    · rwa [setDir_dir, update_of_ne hxe] at hx
  refine ⟨fun hx => h.dir_lt (hdir hx), fun hx => h.dir_managed (hdir hx),
    fun hx hy => h.dir_inj (hdir hx) (hdir hy), ?_, h.table_managed, h.table_inj,
    fun hx hy => h.table_ne_dir hx (hdir hy), h.pte_table, h.pte_shape, h.page_managed,
    fun hx hy => h.page_ne_dir hx (hdir hy), h.page_ne_table⟩
  intro e' d' r hx
  obtain ⟨hd, r', hr'⟩ := h.table_dir hx
  refine ⟨hd, r', ?_⟩
  rw [setDir_dir, update_of_ne ?_]
  · exact hr'
  · rintro rfl
    rw [setDir_table, hclear d'] at hx
    exact absurd hx (by simp)

end

end Spaces.Wf

end OsLab.Jos
