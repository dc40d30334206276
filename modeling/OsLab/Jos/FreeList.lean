import OsLab.Jos.Book

/-!
# Reordering the free list: `check_page_free_list(1)`

Before the kernel's own page directory is loaded only the first 4 MB are mapped, so the check first moves
the free pages there to the front.  The pass threads two chains through the link fields it is following:
`tp[0]` and `tp[1]` point to the places where the next page of each kind is to be stored.

* `free_list_reordered`: the list afterwards is the pages of the first 4 MB followed by the others, in the
  order in which they were.
-/

namespace OsLab.Jos

open Function

/-- A place that holds a `struct PageInfo *`: `pp1`, `pp2`, or the `pp_link` of a page. -/
abbrev Cell := Bool ⊕ ℕ

/-- `PDX(page2pa(pp)) >= pdx_limit`, the limit being 1. -/
def pagetype (pp : ℕ) : Bool := decide (1 ≤ pdx (page2pa pp))

/-- The loop, if it ends within so many rounds. -/
def reorderLoop :
    ℕ → Option ℕ → (Cell → Option ℕ) → (Bool → Cell) → Option ((Cell → Option ℕ) × (Bool → Cell))
  | _, none, m, tp => some (m, tp)
  | 0, some _, _, _ => none
  | n + 1, some pp, m, tp =>
    let m' := update m (tp (pagetype pp)) (some pp)
    -- `pp = pp->pp_link` reads what the store has left there
    reorderLoop n (m' (.inr pp)) m' (update tp (pagetype pp) (.inr pp))

/-- `*tp[1] = 0` and `*tp[0] = pp2`. -/
def splice (m : Cell → Option ℕ) (tp : Bool → Cell) : Cell → Option ℕ :=
  let m' := update m (tp true) none
  update m' (tp false) (m' (.inl true))

/-- The pass; `pps` is what `pp1` and `pp2` hold before they are set. -/
def reorderFreeList (n : ℕ) (pps : Bool → Option ℕ) (k : Pmap) : Option Pmap :=
  (reorderLoop n k.pageFreeList (Sum.elim pps k.link) .inl).map fun (m, tp) =>
    { k with
      pages := fun p => { k.pages p with ppLink := splice m tp (.inr p) }
      pageFreeList := splice m tp (.inl false) }

/-! ## Segments of a chain -/

/-- Following the links from the cell `c` visits `l` and comes to the cell `q`. -/
def Segment (m : Cell → Option ℕ) : Cell → List ℕ → Cell → Prop
  | c, [], q => q = c
  | c, a :: l, q => m c = some a ∧ Segment m (.inr a) l q

variable {m : Cell → Option ℕ} {c q x : Cell} {l r : List ℕ} {a : ℕ} {v : Option ℕ} {k : Pmap} {n : ℕ}

theorem Segment.mem (h : Segment m c l q) : q ∈ c :: l.map .inr := by
  induction l generalizing c with
  | nil => simp [show q = c from h]
  | cons a l ih => exact List.mem_cons_of_mem c (by simpa using ih h.2)

/-- A store at another place. -/
theorem Segment.frame (h : Segment m c l q) (hx : x ∉ c :: l.map .inr) : Segment (update m x v) c l q := by
  induction l generalizing c with
  | nil => exact h
  | cons a l ih =>
    rw [List.mem_cons, not_or] at hx
    refine ⟨?_, ih h.2 hx.2⟩
    rw [update_of_ne (Ne.symm hx.1)]
    exact h.1

/-- A store at the end. -/
theorem Segment.store (h : Segment m c l q) (hnodup : (c :: l.map .inr).Nodup) :
    Segment (update m q v) c l q := by
  induction l generalizing c with
  | nil => exact h
  | cons a l ih =>
    obtain ⟨hc, hnodup⟩ := List.nodup_cons.1 hnodup
    refine ⟨?_, ih h.2 hnodup⟩
    rw [update_of_ne]
    · exact h.1
    · rintro rfl
      exact hc h.2.mem

theorem Segment.snoc (h : Segment m c l q) (hq : m q = some a) : Segment m c (l ++ [a]) (.inr a) := by
  induction l generalizing c with
  | nil =>
    obtain rfl : q = c := h
    exact ⟨hq, rfl⟩
  | cons b l ih => exact ⟨h.1, ih h.2⟩

/-- A segment that leads to a chain. -/
theorem Segment.chain (h : Segment m c l q) (hr : IsChain (m ∘ .inr) (m q) r) :
    IsChain (m ∘ .inr) (m c) (l ++ r) := by
  induction l generalizing c with
  | nil =>
    obtain rfl : q = c := h
    exact hr
  | cons a l ih => exact ⟨h.1, ih h.2⟩

/-! ## The pass -/

/-- The pages of one kind. -/
def ofType (t : Bool) (l : List ℕ) : List ℕ := l.filter (pagetype · == t)

/-- Each of the two chains has the pages of its kind, up to the place where the next one goes. -/
def Threaded (m : Cell → Option ℕ) (tp : Bool → Cell) (l : List ℕ) : Prop :=
  ∀ t, Segment m (.inl t) (ofType t l) (tp t)

theorem nodup_cells {t : Bool} (h : l.Nodup) : (Sum.inl t :: (ofType t l).map Sum.inr).Nodup := by
  have hfilter : (ofType t l).Nodup := h.filter _
  simp [List.nodup_map_iff Sum.inr_injective, hfilter]

namespace Threaded

variable {tp : Bool → Cell} {t t' : Bool}

/-- The place for the next page of one kind is on no other chain. -/
theorem apart (h : Threaded m tp l) (ht : t ≠ t') : tp t ∉ Sum.inl t' :: (ofType t' l).map Sum.inr := by
  have hmem := (h t).mem
  intro hmem'
  cases hq : tp t <;> simp_all [ofType]

theorem ne (h : Threaded m tp l) (ha : a ∉ l) : Sum.inr a ≠ tp t := by
  have hmem := (h t).mem
  intro heq
  simp [← heq, ofType, ha] at hmem

/-- One round. -/
theorem step (h : Threaded m tp l) (hl : l.Nodup) (a : ℕ) :
    Threaded (update m (tp (pagetype a)) (some a)) (update tp (pagetype a) (.inr a)) (l ++ [a]) := by
  intro t
  by_cases ht : t = pagetype a
  · subst ht
    rw [update_self, show ofType (pagetype a) (l ++ [a]) = ofType (pagetype a) l ++ [a] by simp [ofType]]
    exact ((h _).store (nodup_cells hl)).snoc (update_self ..)
  · rw [update_of_ne ht, show ofType t (l ++ [a]) = ofType t l by simp [ofType, Ne.symm ht]]
    exact (h t).frame (h.apart (Ne.symm ht))

/-- The whole loop: `r` is still to be visited, and its links have not been written. -/
theorem loop {pp : Option ℕ} (h : Threaded m tp l) (hr : IsChain (m ∘ .inr) pp r) (hnodup : (l ++ r).Nodup)
    (hn : r.length ≤ n) : ∃ m' tp', reorderLoop n pp m tp = some (m', tp') ∧ Threaded m' tp' (l ++ r) := by
  induction r generalizing n pp m tp l with
  | nil =>
    obtain rfl : pp = none := hr
    exact ⟨m, tp, by simp [reorderLoop], by simpa using h⟩
  | cons a r ih =>
    obtain ⟨rfl, hr⟩ := hr
    obtain ⟨n, rfl⟩ : ∃ n', n = n' + 1 := ⟨n - 1, by simp at hn; omega⟩
    have hkeep : ∀ y ∈ a :: r, update m (tp (pagetype a)) (some a) (.inr y) = m (.inr y) :=
      fun y hy => update_of_ne (h.ne fun hmem => (List.nodup_append.1 hnodup).2.2 y hmem y hy rfl) ..
    rw [reorderLoop, hkeep a List.mem_cons_self]
    rw [List.append_cons] at hnodup ⊢
    have hl : l.Nodup := hnodup.of_append_left.of_append_left
    exact ih (h.step hl a) (hr.congr fun y hy => hkeep y (List.mem_cons_of_mem a hy)) hnodup (by simpa using hn)

/-- The two stores after the loop. -/
theorem splice (h : Threaded m tp l) (hl : l.Nodup) :
    IsChain (splice m tp ∘ .inr) (splice m tp (.inl false)) (ofType false l ++ ofType true l) := by
  have hapart : tp false ∉ .inl true :: (ofType true l).map .inr := h.apart nofun
  have hlow : Segment (Jos.splice m tp) (.inl false) (ofType false l) (tp false) :=
    ((h false).frame (h.apart (t := true) nofun)).store (nodup_cells hl)
  have hhigh : Segment (Jos.splice m tp) (.inl true) (ofType true l) (tp true) :=
    ((h true).store (nodup_cells hl)).frame hapart
  have hend : Jos.splice m tp (tp true) = none := by
    rw [Jos.splice, update_of_ne, update_self]
    rintro heq
    exact hapart (heq ▸ (h true).mem)
  have hpp2 : Jos.splice m tp (tp false) = Jos.splice m tp (.inl true) := by
    rw [Jos.splice, update_self, update_of_ne (List.ne_of_not_mem_cons hapart).symm]
  have hhighs := hhigh.chain (r := []) hend
  rw [List.append_nil, ← hpp2] at hhighs
  exact hlow.chain hhighs

end Threaded

/-- **The pages of the first 4 MB come first**, and within the two groups the order stays. -/
theorem free_list_reordered (h : IsChain k.link k.pageFreeList l) (hn : l.length ≤ n) (pps : Bool → Option ℕ) :
    ∃ k', reorderFreeList n pps k = some k' ∧
      IsChain k'.link k'.pageFreeList (ofType false l ++ ofType true l) ∧
      (ofType false l ++ ofType true l).Perm l := by
  have hstart : Threaded (Sum.elim pps k.link) .inl [] := fun t => rfl
  obtain ⟨m, tp, hrun, hm⟩ := hstart.loop h h.nodup hn
  have hperm := List.filter_append_perm (pagetype · == false) l
  rw [reorderFreeList, hrun]
  exact ⟨_, rfl, hm.splice h.nodup, by simpa [ofType] using hperm⟩

/-- Pages at 4 MB, 12 KB and 8 MB. -/
theorem free_list_reordered_three : ∃ k' : Pmap, IsChain k'.link k'.pageFreeList [3, 1024, 2048] := by
  let link : ℕ → Option ℕ := fun p => if p = 1024 then some 3 else if p = 3 then some 2048 else none
  let k : Pmap := ⟨4096, fun p => ⟨link p, 0⟩, some 1024, 0, 0, fun _ _ => 0⟩
  have hchain : IsChain k.link k.pageFreeList [1024, 3, 2048] := ⟨rfl, rfl, rfl, rfl⟩
  obtain ⟨k', -, hk', -⟩ := free_list_reordered hchain (Nat.le_refl 3) fun _ => none
  exact ⟨k', hk'⟩

end OsLab.Jos
