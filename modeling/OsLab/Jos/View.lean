import OsLab.Jos.Book
import OsLab.Jos.Spaces

/-!
# What the page tables in memory mean

The link between memory and the graph of references: `view dirs k` reads the
page tables of all environments out of physical memory, `dirs e` being the page
that holds the directory of environment `e`.

A store into memory is a change of the graph: clearing or writing an entry of a
table is `Spaces.setPte` (`view_setWord_pte`), hanging a zeroed page off a
directory is `Spaces.setTable` (`view_setWord_pde`), and a store to any page
that is neither a directory nor a table changes nothing (`view_congr`).

`Rep M dirs c H k` then ties the two halves of `pmap.c` together: the graph is
well formed and the allocator's books account for every reference in it.
-/

namespace OsLab.Jos

open Spaces Function

/-- The page table behind entry `d` of the directory of environment `e`. -/
def tableAt (dirs : ℕ → Option ℕ) (k : Pmap) (x : ℕ × ℕ) : Option ℕ :=
  match dirs x.1 with
  | none => none
  | some p => if x.2 < nupde then target (k.mem p x.2) else none

/-- The user halves of all address spaces, read out of memory. -/
def view (dirs : ℕ → Option ℕ) (k : Pmap) : Spaces where
  dir := dirs
  table := tableAt dirs k
  pte x := match tableAt dirs k (x.1, x.2.1) with
    | none => 0#32
    | some q => if x.2.2 < nptentries then k.mem q x.2.2 else 0#32

section Reading

variable {M : ℕ → Prop} {dirs : ℕ → Option ℕ} {k k' : Pmap} {e d t p q i : ℕ} {w : Word}

@[simp] theorem view_dir : (view dirs k).dir = dirs := rfl

theorem view_table_some : (view dirs k).table (e, d) = some q ↔
    ∃ p, dirs e = some p ∧ d < nupde ∧ Present (k.mem p d) ∧ pgnum (k.mem p d) = q := by
  show tableAt dirs k (e, d) = some q ↔ _
  rw [tableAt]
  cases hp : dirs e with
  | none => simp
  | some p =>
    by_cases hd : d < nupde
    · simp [hd, target_eq_some]
    · simp [hd]

/-- The table slot of an environment with a directory reads the directory. -/
theorem view_table_dir (hp : dirs e = some p) (hd : d < nupde) :
    (view dirs k).table (e, d) = target (k.mem p d) := by
  show tableAt dirs k (e, d) = _
  simp [tableAt, hp, hd]

theorem view_table_none (hp : dirs e = none) : (view dirs k).table (e, d) = none := by
  show tableAt dirs k (e, d) = _
  simp [tableAt, hp]

theorem view_table_of_le (hd : nupde ≤ d) : (view dirs k).table (e, d) = none := by
  show tableAt dirs k (e, d) = _
  cases hp : dirs e <;> simp [tableAt, hp, Nat.not_lt.2 hd]

theorem view_pte (hq : (view dirs k).table (e, d) = some q) (ht : t < nptentries) :
    (view dirs k).pte (e, d, t) = k.mem q t := by
  have hq' : tableAt dirs k (e, d) = some q := hq
  simp [view, hq', ht]

theorem view_pte_none (hq : (view dirs k).table (e, d) = none) :
    (view dirs k).pte (e, d, t) = 0#32 := by
  have hq' : tableAt dirs k (e, d) = none := hq
  simp [view, hq']

theorem view_pte_of_le (ht : nptentries ≤ t) : (view dirs k).pte (e, d, t) = 0#32 := by
  cases hq : tableAt dirs k (e, d) <;> simp [view, hq, Nat.not_lt.2 ht]

/-! ## How a store changes the view -/

theorem mem_setWord (j r : ℕ) :
    (k.setWord p i w).mem r j = if r = p ∧ j = i then w else k.mem r j := by
  by_cases hr : r = p
  · subst hr
    by_cases hj : j = i
    · subst hj
      simp [Pmap.setWord]
    · simp [Pmap.setWord, hj]
  · simp [Pmap.setWord, hr]

theorem mem_setWord_of_ne {j r : ℕ} (h : r ≠ p) : (k.setWord p i w).mem r j = k.mem r j := by
  rw [mem_setWord, if_neg fun hh => h hh.1]

theorem mem_zeroPage (j r : ℕ) : (k.zeroPage p).mem r j = if r = p then 0#32 else k.mem r j := by
  by_cases hr : r = p
  · subst hr
    simp [Pmap.zeroPage]
  · simp [Pmap.zeroPage, hr]

theorem view_of_mem (h : k'.mem = k.mem) : view dirs k' = view dirs k := by
  have ht : tableAt dirs k' = tableAt dirs k := by
    funext x
    rw [tableAt, h, tableAt]
  rw [view, ht, h, view]

/-- Two views agree when their directories and tables do, entry by entry. -/
theorem view_ext {s : Spaces} (hdir : s.dir = dirs)
    (htab : ∀ e d, (view dirs k).table (e, d) = s.table (e, d))
    (hpte : ∀ e d t, (view dirs k).pte (e, d, t) = s.pte (e, d, t)) : view dirs k = s := by
  exact Spaces.ext hdir.symm (funext fun ⟨e, d⟩ => htab e d) (funext fun ⟨e, d, t⟩ => hpte e d t)

theorem view_table_congr
    (h : ∀ p, dirs e = some p → d < nupde → target (k'.mem p d) = target (k.mem p d)) :
    (view dirs k').table (e, d) = (view dirs k).table (e, d) := by
  cases hp : dirs e with
  | none => rw [view_table_none hp, view_table_none hp]
  | some p =>
    by_cases hd : d < nupde
    · rw [view_table_dir hp hd, view_table_dir hp hd, h p hp hd]
    · rw [view_table_of_le (Nat.not_lt.1 hd), view_table_of_le (Nat.not_lt.1 hd)]

theorem view_pte_congr {dirs' : ℕ → Option ℕ}
    (htab : (view dirs' k').table (e, d) = (view dirs k).table (e, d))
    (h : ∀ q, (view dirs k).table (e, d) = some q → t < nptentries → k'.mem q t = k.mem q t) :
    (view dirs' k').pte (e, d, t) = (view dirs k).pte (e, d, t) := by
  cases hq : (view dirs k).table (e, d) with
  | none => rw [view_pte_none hq, view_pte_none (htab.trans hq)]
  | some q =>
    by_cases hlt : t < nptentries
    · rw [view_pte hq hlt, view_pte (htab.trans hq) hlt, h q hq hlt]
    · rw [view_pte_of_le (Nat.not_lt.1 hlt), view_pte_of_le (Nat.not_lt.1 hlt)]

/-- The view only looks at the directories and at the tables. -/
theorem view_congr (hdir : ∀ e p, dirs e = some p → ∀ d < nupde, k'.mem p d = k.mem p d)
    (htab : ∀ x q, (view dirs k).table x = some q → ∀ t < nptentries, k'.mem q t = k.mem q t) :
    view dirs k' = view dirs k := by
  have ht : ∀ e d, (view dirs k').table (e, d) = (view dirs k).table (e, d) := fun e d =>
    view_table_congr fun p hp hd => by rw [hdir e p hp d hd]
  exact view_ext rfl ht fun e d t => view_pte_congr (ht e d) fun q hq hlt => htab _ q hq t hlt

/-- A page that nothing uses as a directory or a table can be filled at will. -/
theorem view_of_mem_eq_off {r : ℕ} (hd : ∀ e, dirs e ≠ some r) (ht : ∀ x, (view dirs k).table x ≠ some r)
    (hmem : ∀ q, q ≠ r → k'.mem q = k.mem q) : view dirs k' = view dirs k := by
  refine view_congr (fun e p hp d _ => ?_) fun x q hq t _ => ?_
  · rw [hmem p]
    rintro rfl
    exact hd e hp
  · rw [hmem q]
    rintro rfl
    exact ht x hq

/-- Storing an entry of a page table. -/
theorem view_setWord_pte (h : (view dirs k).Wf M) (hq : (view dirs k).table (e, d) = some q)
    (ht : t < nptentries) : view dirs (k.setWord q t w) = (view dirs k).setPte (e, d, t) w := by
  have htab : ∀ e' d', (view dirs (k.setWord q t w)).table (e', d') =
      (view dirs k).table (e', d') := by
    refine fun e' d' => view_table_congr fun p hp _ => ?_
    rw [mem_setWord_of_ne]
    rintro rfl
    exact h.table_ne_dir hq hp
  refine view_ext rfl htab fun e' d' t' => ?_
  rw [setPte_pte]
  by_cases hx : (e', d', t') = (e, d, t)
  · rw [hx, update_self, view_pte ((htab e d).trans hq) ht, mem_setWord,
      if_pos ⟨rfl, rfl⟩]
  · rw [update_of_ne hx]
    refine view_pte_congr (htab e' d') fun q' hq' _ => ?_
    rw [mem_setWord, if_neg]
    rintro ⟨rfl, rfl⟩
    obtain ⟨rfl, rfl⟩ := Prod.mk.inj (h.table_inj hq' hq)
    exact hx rfl

/-- The tables after a store to a directory. -/
theorem view_table_setWord_pde (h : (view dirs k).Wf M) (hp : dirs e = some p) (hd : d < nupde)
    (e' d' : ℕ) : (view dirs (k.setWord p d w)).table (e', d') =
      ((view dirs k).setTable (e, d) (target w)).table (e', d') := by
  rw [setTable_table]
  by_cases hx : (e', d') = (e, d)
  · obtain ⟨rfl, rfl⟩ := Prod.mk.inj hx
    rw [update_self, view_table_dir hp hd, mem_setWord, if_pos ⟨rfl, rfl⟩]
  · rw [update_of_ne hx]
    refine view_table_congr fun p' hp' _ => ?_
    rw [mem_setWord, if_neg]
    rintro ⟨rfl, rfl⟩
    exact hx (by rw [h.dir_inj hp' hp])

/-- Storing a directory entry, between the empty entry and one for a table all
of whose entries are clear. -/
theorem view_setWord_pde (h : (view dirs k).Wf M) (hp : dirs e = some p) (hd : d < nupde)
    (hold : ∀ t, (view dirs k).pte (e, d, t) = 0#32)
    (hnew : ∀ q, target w = some q → q ≠ p ∧ ∀ t < nptentries, k.mem q t = 0#32) :
    view dirs (k.setWord p d w) = (view dirs k).setTable (e, d) (target w) := by
  have htab := view_table_setWord_pde (w := w) h hp hd
  refine view_ext rfl htab fun e' d' t => ?_
  rw [setTable_pte]
  have htab' := htab e' d'
  rw [setTable_table] at htab'
  by_cases hx : (e', d') = (e, d)
  · obtain ⟨rfl, rfl⟩ := Prod.mk.inj hx
    rw [update_self] at htab'
    rw [hold]
    cases hq : target w with
    | none => exact view_pte_none (htab'.trans hq)
    | some q =>
      by_cases hlt : t < nptentries
      · rw [view_pte (htab'.trans hq) hlt, mem_setWord_of_ne (hnew q hq).1]
        exact (hnew q hq).2 t hlt
      · exact view_pte_of_le (Nat.not_lt.1 hlt)
  · rw [update_of_ne hx] at htab'
    refine view_pte_congr htab' fun q hq _ => mem_setWord_of_ne ?_
    rintro rfl
    exact h.table_ne_dir hq hp

/-- A directory entry that keeps its page keeps the view. -/
theorem view_setWord_pde_same (h : (view dirs k).Wf M) (hp : dirs e = some p)
    (hw : target w = target (k.mem p d)) : view dirs (k.setWord p d w) = view dirs k := by
  have htab : ∀ e' d', (view dirs (k.setWord p d w)).table (e', d') =
      (view dirs k).table (e', d') := by
    refine fun e' d' => view_table_congr fun p' _ _ => ?_
    rw [mem_setWord]
    split_ifs with hx
    · rw [hw, hx.1, hx.2]
    · rfl
  refine view_ext rfl htab fun e' d' t => view_pte_congr (htab e' d') fun q hq _ => mem_setWord_of_ne ?_
  rintro rfl
  exact h.table_ne_dir hq hp

/-! ## How a new or a dropped directory changes the view -/

/-- A directory whose user half is clear adds no table. -/
theorem view_addDir (hnone : dirs e = none) (hclear : ∀ d < nupde, ¬ Present (k.mem p d)) :
    view (update dirs e (some p)) k = (view dirs k).setDir e (some p) := by
  have htab : ∀ e' d', (view (update dirs e (some p)) k).table (e', d') =
      (view dirs k).table (e', d') := by
    intro e' d'
    by_cases hd : d' < nupde
    · by_cases he : e' = e
      · subst he
        rw [view_table_dir (update_self ..) hd, view_table_none hnone, target,
          if_neg (hclear d' hd)]
      · show tableAt _ k (e', d') = tableAt dirs k (e', d')
        simp [tableAt, he]
    · rw [view_table_of_le (Nat.not_lt.1 hd), view_table_of_le (Nat.not_lt.1 hd)]
  exact view_ext rfl htab fun e' d' t => view_pte_congr (htab e' d') fun _ _ _ => rfl

/-- Dropping a directory without tables. -/
theorem view_dropDir (hclear : ∀ d, (view dirs k).table (e, d) = none) :
    view (update dirs e none) k = (view dirs k).setDir e none := by
  have htab : ∀ e' d', (view (update dirs e none) k).table (e', d') =
      (view dirs k).table (e', d') := by
    intro e' d'
    by_cases he : e' = e
    · subst he
      rw [view_table_none (update_self ..), hclear]
    · show tableAt _ k (e', d') = tableAt dirs k (e', d')
      simp [tableAt, he]
  exact view_ext rfl htab fun e' d' t => view_pte_congr (htab e' d') fun _ _ _ => rfl

end Reading

/-! ## The two halves together -/

/-- Memory holds a well-formed graph of references, and the allocator's books
give each page at least as many references as the graph has.  `c` and `H` are
the books' counts and held pages (see `Book`). -/
structure Rep (M : ℕ → Prop) (dirs : ℕ → Option ℕ) (c : ℕ → ℕ) (H : ℕ → Prop) (k : Pmap) :
    Prop where
  npages_le : k.npages ≤ 2 ^ 20
  wf : (view dirs k).Wf M
  refs_le : ∀ p, (view dirs k).refs p ≤ c p
  book : Book M c H k

/-- The state between two calls of the kernel: the books are exact. -/
def PageInv (M : ℕ → Prop) (dirs : ℕ → Option ℕ) (k : Pmap) : Prop :=
  Rep M dirs (view dirs k).refs (fun _ => False) k

namespace Rep

variable {M : ℕ → Prop} {dirs : ℕ → Option ℕ} {c : ℕ → ℕ} {H : ℕ → Prop} {k : Pmap} {p q : ℕ}

theorem managed_lt (h : Rep M dirs c H k) (hp : M p) : p < 2 ^ 20 :=
  lt_of_lt_of_le (h.book.managed_lt hp) h.npages_le

theorem refs_eq_zero (h : Rep M dirs c H k) (hp : c p = 0) : (view dirs k).refs p = 0 :=
  Nat.le_zero.1 (hp ▸ h.refs_le p)

theorem pageInv (h : Rep M dirs c H k) (hc : ∀ p, c p = (view dirs k).refs p)
    (hH : ∀ p, ¬ H p) : PageInv M dirs k :=
  ⟨h.npages_le, h.wf, fun _ => le_rfl, h.book.congr (fun p _ => (hc p).symm)
    fun p _ => iff_of_false not_false (hH p)⟩

theorem table_lt (h : Rep M dirs c H k) {x : ℕ × ℕ} (hq : (view dirs k).table x = some q) :
    q < k.npages :=
  h.book.managed_lt (h.wf.table_managed hq)

end Rep

end OsLab.Jos
