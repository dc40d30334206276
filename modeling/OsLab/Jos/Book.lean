import OsLab.Lib.Chain
import OsLab.Jos.Pmap

/-!
# The books of the page allocator

`page_alloc`, `page_free` and the reference counts, with the page tables left
out of the picture.  `Book M c H k` says that the allocator's own data — the
`pp_ref` and `pp_link` fields and the free list — account for the pages `M` as
follows: page `p` has `c p` references, and the pages `H` have been taken off
the free list by someone who has not referenced them yet.

Each function of the allocator moves the books by one entry: `pageAlloc_spec`
hands out a page that nobody references, `pageIncref_book` and
`pageDecref_spec` move a count, and `pageFree_spec` puts a held page back.  The
sixteen-bit counter is exact modulo 65536, and `pageDecref_spec` is where that
matters: it needs the count to be at most 65536 to know that reaching zero
means having no reference left.
-/

namespace OsLab.Jos

open Exec Function

/-- Everything but the allocator's data and the contents of memory. -/
structure Pmap.SameLayout (k k' : Pmap) : Prop where
  npages : k'.npages = k.npages
  kernPgdir : k'.kernPgdir = k.kernPgdir
  mmioNext : k'.mmioNext = k.mmioNext

theorem Pmap.SameLayout.refl (k : Pmap) : k.SameLayout k := ⟨rfl, rfl, rfl⟩

theorem Pmap.SameLayout.trans {k1 k2 k3 : Pmap} (h : k1.SameLayout k2) (h' : k2.SameLayout k3) :
    k1.SameLayout k3 :=
  ⟨h'.npages.trans h.npages, h'.kernPgdir.trans h.kernPgdir, h'.mmioNext.trans h.mmioNext⟩

/-- The link field of every page. -/
def Pmap.link (k : Pmap) (p : ℕ) : Option ℕ := (k.pages p).ppLink

/-- The allocator's data say that each page `p` of `M` has `c p` references, and
that the free list holds exactly the unreferenced pages that are not held. -/
structure Book (M : ℕ → Prop) (c : ℕ → ℕ) (H : ℕ → Prop) (k : Pmap) : Prop where
  managed_lt : ∀ {p}, M p → p < k.npages
  ref_eq : ∀ {p}, M p → (k.pages p).ppRef = BitVec.ofNat 16 (c p)
  free : ∃ l, IsChain k.link k.pageFreeList l ∧ ∀ p, p ∈ l ↔ M p ∧ c p = 0 ∧ ¬ H p
  link_none : ∀ {p}, M p → c p ≠ 0 ∨ H p → k.link p = none

/-! ## The record updates -/

namespace Pmap

variable (k : Pmap) (p q : ℕ)

@[simp] theorem setRef_link (r : BitVec 16) : (k.setRef p r).link = k.link := by
  funext x
  by_cases h : x = p
  · subst h
    simp [link, setRef]
  · simp [link, setRef, h]

theorem setLink_link (l : Option ℕ) : (k.setLink p l).link = update k.link p l := by
  funext x
  by_cases h : x = p
  · subst h
    simp [link, setLink]
  · simp [link, setLink, h]

theorem setLink_ppRef (l : Option ℕ) : ((k.setLink p l).pages q).ppRef = (k.pages q).ppRef := by
  by_cases h : q = p
  · subst h
    simp [setLink]
  · simp [setLink, h]

theorem setRef_ppRef (r : BitVec 16) :
    ((k.setRef p r).pages q).ppRef = if q = p then r else (k.pages q).ppRef := by
  by_cases h : q = p
  · subst h
    simp [setRef]
  · simp [setRef, h]

@[simp] theorem setRef_mem (r : BitVec 16) : (k.setRef p r).mem = k.mem := rfl
@[simp] theorem setRef_pageFreeList (r : BitVec 16) :
    (k.setRef p r).pageFreeList = k.pageFreeList := rfl

end Pmap

theorem kaddr_ok {k : Pmap} {pa : Word} (h : pgnum pa < k.npages) :
    kaddr pa k = .ok (pgnum pa) k := by
  rw [kaddr, read_bind, if_neg (Nat.not_le.2 h), pure_apply]

theorem pa2page_ok {k : Pmap} {pa : Word} (h : pgnum pa < k.npages) :
    pa2page pa k = .ok (pgnum pa) k := by
  rw [pa2page, read_bind, if_neg (Nat.not_le.2 h), pure_apply]

/-! ## Sixteen-bit counts -/

theorem ofNat16_succ (n : ℕ) : BitVec.ofNat 16 (n + 1) = BitVec.ofNat 16 n + 1#16 := by
  rw [BitVec.ofNat_add]

theorem ofNat16_pred {n : ℕ} (h : 0 < n) :
    BitVec.ofNat 16 (n - 1) = BitVec.ofNat 16 n - 1#16 := by
  obtain ⟨m, rfl⟩ : ∃ m, n = m + 1 := ⟨n - 1, by omega⟩
  rw [ofNat16_succ, Nat.add_sub_cancel, BitVec.add_sub_cancel]

theorem ofNat16_eq_zero {n : ℕ} (h : n < 65536) : BitVec.ofNat 16 n = 0#16 ↔ n = 0 := by
  rw [← BitVec.toNat_inj, BitVec.toNat_ofNat, BitVec.toNat_ofNat]
  omega

namespace Book

variable {M : ℕ → Prop} {c c' : ℕ → ℕ} {H H' : ℕ → Prop} {k k' : Pmap} {p q : ℕ}

theorem congr (h : Book M c H k) (hc : ∀ p, M p → c' p = c p) (hH : ∀ p, M p → (H' p ↔ H p)) :
    Book M c' H' k := by
  obtain ⟨l, hl, hmem⟩ := h.free
  refine ⟨h.managed_lt, fun hp => by rw [hc _ hp]; exact h.ref_eq hp, ⟨l, hl, fun p => ?_⟩,
    fun {p} hp hor => h.link_none hp (by rw [← hc p hp, ← hH p hp]; exact hor)⟩
  rw [hmem]
  constructor
  · rintro ⟨hp, h0, hn⟩
    exact ⟨hp, by rw [hc p hp]; exact h0, by rw [hH p hp]; exact hn⟩
  · rintro ⟨hp, h0, hn⟩
    exact ⟨hp, by rw [← hc p hp]; exact h0, by rw [← hH p hp]; exact hn⟩

/-- The books do not look at memory. -/
theorem of_pages (h : Book M c H k) (hn : k'.npages = k.npages) (hp : k'.pages = k.pages)
    (hf : k'.pageFreeList = k.pageFreeList) : Book M c H k' := by
  have hlink : k'.link = k.link := by
    funext x
    rw [Pmap.link, hp, Pmap.link]
  refine ⟨?_, ?_, ?_, ?_⟩
  · rw [hn]
    exact h.managed_lt
  · rw [hp]
    exact h.ref_eq
  · rw [hlink, hf]
    exact h.free
  · rw [hlink]
    exact h.link_none

/-- Someone who references a page need not hold it any more. -/
theorem unhold (h : Book M c H k) (hp : c p ≠ 0) : Book M c (fun q => H q ∧ q ≠ p) k := by
  obtain ⟨l, hl, hmem⟩ := h.free
  refine ⟨h.managed_lt, h.ref_eq, ⟨l, hl, fun q => ?_⟩, fun hq hor => h.link_none hq ?_⟩
  · rw [hmem]
    constructor
    · rintro ⟨hM, h0, hn⟩
      exact ⟨hM, h0, fun hh => hn hh.1⟩
    · rintro ⟨hM, h0, hn⟩
      refine ⟨hM, h0, fun hh => hn ⟨hh, ?_⟩⟩
      rintro rfl
      exact hp h0
  · exact hor.imp_right fun hh => hh.1

end Book

variable {M : ℕ → Prop} {c : ℕ → ℕ} {H : ℕ → Prop} {k : Pmap} {p : ℕ}

theorem pageIncref_apply (p : ℕ) (k : Pmap) :
    pageIncref p k = .ok () (k.setRef p ((k.pages p).ppRef + 1#16)) := rfl

/-- `pp->pp_ref++`. -/
theorem pageIncref_book (h : Book M c H k) (hp : c p ≠ 0 ∨ H p) :
    Book M (update c p (c p + 1)) H (k.setRef p ((k.pages p).ppRef + 1#16)) := by
  obtain ⟨l, hl, hmem⟩ := h.free
  refine ⟨h.managed_lt, ?_, ⟨l, by simpa using hl, ?_⟩, ?_⟩
  · intro q hq
    rw [Pmap.setRef_ppRef]
    by_cases hqp : q = p
    · subst hqp
      rw [if_pos rfl, update_self, ofNat16_succ (c q), h.ref_eq hq]
    · rw [if_neg hqp, update_of_ne hqp, h.ref_eq hq]
  · intro q
    rw [hmem]
    by_cases hqp : q = p
    · -- a page someone references or holds was not on the list, and is not now
      subst hqp
      rw [update_self]
      constructor
      · rintro ⟨_, h0, hn⟩
        exact (hp.elim (fun hc => hc h0) hn).elim
      · rintro ⟨_, h0, _⟩
        omega
    · rw [update_of_ne hqp]
  · intro q hq hor
    rw [Pmap.setRef_link]
    by_cases hqp : q = p
    · subst hqp
      exact h.link_none hq hp
    · rw [update_of_ne hqp] at hor
      exact h.link_none hq hor

/-- The page `q` has been taken from the front of the free list and cleared. -/
def taken (p : Pmap) (q : ℕ) : Pmap :=
  (({ p with pageFreeList := p.link q } : Pmap).setLink q none).zeroPage (pgnum (page2pa q))

/-- `page_alloc(ALLOC_ZERO)`, whatever the state of the books: it takes the page at the
head of the list, or there is none. -/
theorem pageAlloc_takes {p : Pmap} : wp (pageAlloc true)
    (fun o p' => o = none ∧ p' = p ∧ p.pageFreeList = none ∨
      ∃ q, o = some q ∧ p' = taken p q ∧ p.pageFreeList = some q)
    (fun _ => False) (fun _ => True) p := by
  rw [pageAlloc, wp_bind, wp_read]
  cases hfree : p.pageFreeList with
  | none => exact Or.inl ⟨rfl, rfl, rfl⟩
  | some q =>
    rw [wp_bind, wp_modify, wp_bind, wp_modify, if_pos rfl, wp_bind, kaddr, wp_bind, wp_read]
    split
    · trivial
    · exact Or.inr ⟨q, rfl, rfl, rfl⟩

/-- `page_alloc` hands out a page nobody references, and fails only when there
is none.  The page it hands out is held from then on. -/
theorem pageAlloc_spec (h : Book M c H k) (hn : k.npages ≤ 2 ^ 20) (zero : Bool) :
    (pageAlloc zero k = .ok none k ∧ ∀ p, M p → c p ≠ 0 ∨ H p) ∨
    ∃ p k', pageAlloc zero k = .ok (some p) k' ∧ M p ∧ c p = 0 ∧ ¬ H p ∧
      Book M c (fun q => H q ∨ q = p) k' ∧ k.SameLayout k' ∧
      k'.mem = if zero then (k.zeroPage p).mem else k.mem := by
  obtain ⟨l, hl, hmem⟩ := h.free
  cases l with
  | nil =>
    refine Or.inl ⟨?_, fun p hp => ?_⟩
    · rw [pageAlloc, read_bind, IsChain.nil_iff.1 hl]
      rfl
    · by_contra hcon
      push Not at hcon
      exact absurd ((hmem p).2 ⟨hp, hcon⟩) List.not_mem_nil
  | cons p l =>
    obtain ⟨hhead, -⟩ := id hl
    rw [hhead] at hl
    obtain ⟨hMp, h0, hHp⟩ := (hmem p).1 (List.mem_cons_self ..)
    have hpl : p ∉ l := (List.nodup_cons.1 hl.nodup).1
    -- the state after the two assignments, before the page is cleared
    set k1 : Pmap := ({ k with pageFreeList := (k.pages p).ppLink } : Pmap).setLink p none with hk1
    have hbook : Book M c (fun q => H q ∨ q = p) k1 := by
      refine ⟨h.managed_lt, ?_, ⟨l, ?_, ?_⟩, ?_⟩
      · intro q hq
        rw [Pmap.setLink_ppRef]
        exact h.ref_eq hq
      · rw [Pmap.setLink_link]
        exact hl.pop
      · intro q
        have hq := hmem q
        rw [List.mem_cons] at hq
        constructor
        · intro hql
          obtain ⟨hM, hc, hH⟩ := hq.1 (Or.inr hql)
          refine ⟨hM, hc, ?_⟩
          rintro (hh | rfl)
          · exact hH hh
          · exact hpl hql
        · rintro ⟨hM, hc, hH⟩
          push Not at hH
          exact (hq.2 ⟨hM, hc, hH.1⟩).resolve_left hH.2
      · intro q hq hor
        rw [Pmap.setLink_link]
        by_cases hqp : q = p
        · rw [hqp, update_self]
        · rw [update_of_ne hqp]
          refine h.link_none hq (hor.imp_right fun hh => hh.resolve_right hqp)
    have hlay : k.SameLayout k1 := ⟨rfl, rfl, rfl⟩
    have hk : kaddr (page2pa p) k1 = .ok p k1 := by
      have hlt : p < k1.npages := hbook.managed_lt hMp
      have hpg : pgnum (page2pa p) = p := pgnum_page2pa (lt_of_lt_of_le hlt hn)
      rw [kaddr_ok (by rw [hpg]; exact hlt), hpg]
    refine Or.inr ⟨p, if zero then k1.zeroPage p else k1, ?_, hMp, h0, hHp, ?_, ?_, ?_⟩
    · rw [pageAlloc, read_bind, hhead]
      cases zero with
      | false => rfl
      | true =>
        show (kaddr (page2pa p) >>= _ : PmapM (Option ℕ)) k1 = _
        rw [bind_ok hk]
        rfl
    · cases zero with
      | false => exact hbook
      | true => exact hbook.of_pages rfl rfl rfl
    · cases zero with
      | false => exact hlay
      | true => exact ⟨rfl, rfl, rfl⟩
    · cases zero <;> rfl

/-- `page_free` of a held page does not panic and puts it back. -/
theorem pageFree_spec (h : Book M c H k) (hM : M p) (h0 : c p = 0) (hH : H p) :
    ∃ k', pageFree p k = .ok () k' ∧ Book M c (fun q => H q ∧ q ≠ p) k' ∧
      k.SameLayout k' ∧ k'.mem = k.mem := by
  obtain ⟨l, hl, hmem⟩ := h.free
  have hpl : p ∉ l := fun hp => ((hmem p).1 hp).2.2 hH
  have href : (k.pages p).ppRef = 0#16 := by
    rw [h.ref_eq hM, h0]
  have hlink : (k.pages p).ppLink = none := h.link_none hM (Or.inr hH)
  refine ⟨{ k.setLink p k.pageFreeList with pageFreeList := some p }, ?_, ?_, ⟨rfl, rfl, rfl⟩, rfl⟩
  · rw [pageFree, read_bind, if_neg (by rw [href, hlink]; simp)]
    rfl
  · refine ⟨h.managed_lt, ?_, ⟨p :: l, ?_, ?_⟩, ?_⟩
    · intro q hq
      exact (Pmap.setLink_ppRef k p q _).trans (h.ref_eq hq)
    · show IsChain (k.setLink p k.pageFreeList).link (some p) (p :: l)
      rw [Pmap.setLink_link]
      exact hl.push hpl
    · intro q
      rw [List.mem_cons, hmem]
      constructor
      · rintro (rfl | ⟨hq, hc, hn⟩)
        · exact ⟨hM, h0, fun hh => hh.2 rfl⟩
        · exact ⟨hq, hc, fun hh => hn hh.1⟩
      · rintro ⟨hq, hc, hn⟩
        by_cases hqp : q = p
        · exact Or.inl hqp
        · exact Or.inr ⟨hq, hc, fun hh => hn ⟨hh, hqp⟩⟩
    · intro q hq hor
      show (k.setLink p k.pageFreeList).link q = none
      rw [Pmap.setLink_link, update_of_ne]
      · exact h.link_none hq (hor.imp_right fun hh => hh.1)
      · rintro rfl
        rcases hor with hc | hh
        · exact hc h0
        · exact hh.2 rfl

/-- `page_decref` takes one reference away and frees the page with the last.
The bound is what makes "the counter reads zero" mean "no reference left". -/
theorem pageDecref_spec (h : Book M c H k) (hM : M p) (hpos : 0 < c p) (hle : c p ≤ 65536)
    (hH : ¬ H p) :
    ∃ k', pageDecref p k = .ok () k' ∧ Book M (update c p (c p - 1)) H k' ∧
      k.SameLayout k' ∧ k'.mem = k.mem := by
  obtain ⟨l, hl, hmem⟩ := h.free
  set k1 : Pmap := k.setRef p ((k.pages p).ppRef - 1#16) with hk1
  have hpl : p ∉ l := fun hp => by have := ((hmem p).1 hp).2.1; omega
  -- after the decrement the page is held: it is off the list whatever its count
  have hbook : Book M (update c p (c p - 1)) (fun q => H q ∨ q = p) k1 := by
    refine ⟨h.managed_lt, ?_, ⟨l, by simpa [hk1] using hl, ?_⟩, ?_⟩
    · intro q hq
      rw [Pmap.setRef_ppRef]
      by_cases hqp : q = p
      · subst hqp
        rw [if_pos rfl, update_self, ofNat16_pred hpos, h.ref_eq hq]
      · rw [if_neg hqp, update_of_ne hqp, h.ref_eq hq]
    · intro q
      by_cases hqp : q = p
      · subst hqp
        exact ⟨fun hq => absurd hq hpl, fun hq => absurd (Or.inr rfl) hq.2.2⟩
      · rw [hmem]
        simp [hqp]
    · intro q hq hor
      rw [Pmap.setRef_link]
      by_cases hqp : q = p
      · subst hqp
        exact h.link_none hq (Or.inl (by omega))
      · rw [update_of_ne hqp] at hor
        exact h.link_none hq (hor.imp_right fun hh => hh.resolve_right hqp)
  have hHeq : ∀ q, M q → (H q ↔ (fun q => H q ∨ q = p) q ∧ q ≠ p) := by
    intro q _
    constructor
    · intro hq
      refine ⟨Or.inl hq, ?_⟩
      rintro rfl
      exact hH hq
    · rintro ⟨hq, hne⟩
      exact hq.resolve_right hne
  have hread : (k1.pages p).ppRef = BitVec.ofNat 16 (c p - 1) := by
    rw [hbook.ref_eq hM, update_self]
  by_cases hz : c p - 1 = 0
  · obtain ⟨k', hk', hb', hlay, hm⟩ := pageFree_spec hbook hM
      (by rw [update_self]; exact hz) (Or.inr rfl)
    refine ⟨k', ?_, hb'.congr (fun _ _ => rfl) hHeq, ⟨hlay.1, hlay.2, hlay.3⟩, hm⟩
    rw [pageDecref, modify_bind, read_bind,
      if_pos (by rw [hread, hz]), hk']
  · refine ⟨k1, ?_, (hbook.unhold (p := p) (by rw [update_self]; exact hz)).congr
      (fun _ _ => rfl) hHeq, ⟨rfl, rfl, rfl⟩, rfl⟩
    rw [pageDecref, modify_bind, read_bind, if_neg ?_,
      pure_apply]
    rw [hread, ofNat16_eq_zero (by omega)]
    exact hz

end OsLab.Jos
