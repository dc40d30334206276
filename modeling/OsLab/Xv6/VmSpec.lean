import OsLab.Xv6.Vm

/-!
# Page directories own their pages

What the functions of `vm.c` do with pages, on every path through them.  `Owns K X s H` says that the pages of the free list
and those of `H` together are `X`; a function that is given the pages of a directory gives back those of the
directory as it leaves it, and nothing else.  `Costs s s' n b` says how many free pages are enough for success.

* `mapUser_spec`, `mapKernel_spec`: what `mappages` adds.
* `deallocuvm_spec`, `freevm_spec`: what is freed.
* `setupkvm_spec`, `allocuvm_spec`, `copyuvm_spec`: what is built, or taken down again after a failure.
-/

namespace OsLab.Xv6.Vm

open Exec Function

variable {K : Kernel} {X H : Multiset Page} {s s' s'' : Kmem} {d d' : Space} {v n oldsz k k' : ℕ} {x : Page} {j w u : Bool}

/-! ## Memory -/

/-- The pages of the free list and those in `H` are the pages in `X`. -/
structure Holds (K : Kernel) (X : Multiset Page) (j : Bool) (s : Kmem) (H : Multiset Page) : Prop where
  total : ↑s.free + H = X
  junk : s.junk = j
  valid : ∀ x ∈ X, K.Valid x

/-- And the free list is sound. -/
abbrev Owns (K : Kernel) (X : Multiset Page) (s : Kmem) (H : Multiset Page) : Prop := Holds K X false s H

/-- There are at least `n` free pages, and `kalloc` does not fail as long as there are any. -/
def Kmem.Plenty (s : Kmem) (n : ℕ) : Prop := (∀ k, s.short k = false) ∧ n ≤ s.free.length

/-- With `k` free pages all goes well, and no more than these are used. -/
def Costs (s s' : Kmem) (k : ℕ) (b : Prop) : Prop := ∀ n, s.Plenty (n + k) → b ∧ s'.Plenty n

theorem Kmem.Plenty.mono {m : ℕ} (h : s.Plenty n) (hle : m ≤ n) : s.Plenty m := ⟨h.1, hle.trans h.2⟩

theorem Costs.refl (s : Kmem) : Costs s s 0 True := fun _ h => ⟨trivial, h⟩

theorem Costs.weaken {b b' : Prop} (h : Costs s s' k b) (hle : k ≤ k') (hb : b → b') : Costs s s' k' b' := by
  intro n hn
  obtain ⟨hgood, hrest⟩ := h n (hn.mono (Nat.add_le_add_left hle n))
  exact ⟨hb hgood, hrest⟩

/-- One thing after the other. -/
theorem Costs.trans {b b' : Prop} (h : Costs s s' k b) (h' : b → Costs s' s'' k' b') :
    Costs s s'' (k + k') b' := by
  intro n hn
  obtain ⟨hgood, hrest⟩ := h (n + k') (hn.mono (by omega))
  exact h' hgood n hrest

/-- What would not have happened with enough memory. -/
theorem Costs.absurd {b b' : Prop} (h : Costs s s' k b) (hb : ¬ b) : Costs s s'' k b' :=
  fun n hn => (hb (h n hn).1).elim

theorem Holds.congr {H' : Multiset Page} (h : Holds K X j s H) (heq : H = H') : Holds K X j s H' := heq ▸ h

/-- The memory after a call of `kalloc`. -/
def Kmem.after (s : Kmem) (l : List Page) : Kmem := { s with free := l, short := fun k => s.short (k + 1) }

theorem kalloc_short (h : s.short 0 = true) : kalloc s = .ok none (s.after s.free) := if_pos h

theorem kalloc_nil (h : s.short 0 = false) (hfree : s.free = []) (hjunk : s.junk = false) :
    kalloc s = .ok none (s.after []) := by
  rw [kalloc, h, hfree, Kmem.after, hjunk]
  rfl

theorem kalloc_cons {l : List Page} (h : s.short 0 = false) (hfree : s.free = x :: l) :
    kalloc s = .ok (some x) (s.after l) := by
  rw [kalloc, h, hfree]
  rfl

theorem kalloc_spec (h : Owns K X s H) :
    Ok kalloc (fun r s' => Owns K X s' (held r + H) ∧ Costs s s' 1 (r.isSome = true)) s := by
  obtain ⟨htotal, hjunk, hvalid⟩ := h
  cases hshort : s.short 0 with
  | true =>
    refine ⟨none, _, kalloc_short hshort, ⟨?_, hjunk, hvalid⟩, fun n hn => ?_⟩
    · rw [held_none, zero_add]
      exact htotal
    · rw [hn.1 0] at hshort
      cases hshort
  | false =>
    cases hfree : s.free with
    | nil =>
      refine ⟨none, _, kalloc_nil hshort hfree hjunk, ⟨?_, hjunk, hvalid⟩, fun n hn => ?_⟩
      · rw [held_none, zero_add, ← htotal, hfree]
        rfl
      · have hlen := hn.2
        rw [hfree] at hlen
        exact absurd hlen (Nat.not_succ_le_zero n)
    | cons x l =>
      refine ⟨some x, _, kalloc_cons hshort hfree, ⟨?_, hjunk, hvalid⟩, fun n hn => ⟨rfl, fun k => hn.1 (k + 1), ?_⟩⟩
      · rw [← htotal, hfree]
        show ↑l + ({x} + H) = {x} + ↑l + H
        abel
      · have hlen := hn.2
        rw [hfree] at hlen
        exact Nat.le_of_succ_le_succ hlen

theorem kfree_valid (h : K.Valid x) : kfree K x s = .ok () { s with free := x :: s.free } := if_pos h

theorem kfree_spec (h : Holds K X j s ({x} + H)) :
    Ok (kfree K x) (fun _ s' => Holds K X j s' H ∧ Costs s s' 0 True) s := by
  obtain ⟨htotal, hjunk, hvalid⟩ := h
  have hmem : x ∈ X := by
    rw [← htotal]
    exact Multiset.mem_add.2 (Or.inr (Multiset.mem_add.2 (Or.inl (Multiset.mem_singleton_self x))))
  refine ⟨(), _, kfree_valid (hvalid x hmem), ⟨?_, hjunk, hvalid⟩, fun n hn => ⟨trivial, hn.1, ?_⟩⟩
  · rw [← htotal, ← Multiset.cons_coe, ← Multiset.singleton_add]
    abel
  · exact hn.2.trans (Nat.le_succ _)

/-! ## Directories -/

/-- The number of virtual pages below `KERNBASE`. -/
def nuser : ℕ := 524288

/-- The number of pages of `[0, sz)`. -/
def npages (sz : ℕ) : ℕ := (sz + pgsize - 1) / pgsize

namespace Space

/-- The pages that are mapped for the user. -/
def userPages (d : Space) : Multiset Page := holdings (fun v => (d.pte v).map Pte.page) (Finset.range nuser)

/-- The pages that belong to the directory. -/
def pages (d : Space) : Multiset Page := {d.page} + holdings d.table (Finset.range 1024) + d.userPages

/-- What is true of every directory. -/
structure Wf (d : Space) : Prop where
  bound : ∀ i, 1024 ≤ i → d.table i = none
  /-- between `PHYSTOP` and `DEVSPACE` nothing is mapped -/
  hole : ∀ i, 568 ≤ i → i < 1016 → d.table i = none
  table : ∀ v, d.table (v / 1024) = none → d.pte v = none
  kernel : ∀ v e, nuser ≤ v → d.pte v = some e → e.user = false

/-- The directory has page tables that the other has not, but only where `T` says. -/
structure Grown (T : ℕ → Prop) (d d' : Space) : Prop where
  page : d'.page = d.page
  keep : ∀ i x, d.table i = some x → d'.table i = some x
  other : ∀ i, ¬ T i → d'.table i = d.table i

theorem Grown.refl (T : ℕ → Prop) (d : Space) : Grown T d d := ⟨rfl, fun _ _ h => h, fun _ _ => rfl⟩

variable {T : ℕ → Prop} {i : ℕ}

theorem Grown.trans {d'' : Space} (h : Grown T d d') (h' : Grown T d' d'') : Grown T d d'' :=
  ⟨h'.page.trans h.page, fun i x hx => h'.keep i x (h.keep i x hx), fun i hi => (h'.other i hi).trans (h.other i hi)⟩

theorem Grown.mono {T' : ℕ → Prop} (h : Grown T d d') (himp : ∀ i, T i → T' i) : Grown T' d d' :=
  ⟨h.page, h.keep, fun i hi => h.other i fun hT => hi (himp i hT)⟩

theorem Grown.table_ne (h : Grown T d d') (hi : d.table i ≠ none) : d'.table i ≠ none := by
  obtain ⟨x, hx⟩ := Option.ne_none_iff_exists'.1 hi
  rw [h.keep i x hx]
  exact nofun

/-! ### Changes -/

theorem setPte_pte (w : ℕ) (e : Option Pte) : (d.setPte v e).pte w = if w = v then e else d.pte w :=
  update_apply ..

theorem grown_setPte {e : Option Pte} : Grown T d (d.setPte v e) :=
  ⟨rfl, fun _ _ h => h, fun _ _ => rfl⟩

theorem Wf.setPte (h : d.Wf) (e : Option Pte) (ht : e ≠ none → d.table (v / 1024) ≠ none)
    (hu : ∀ p, e = some p → nuser ≤ v → p.user = false) : (d.setPte v e).Wf where
  bound := h.bound
  hole := h.hole
  table w hw := by
    rw [setPte_pte]
    split
    · rename_i heq
      subst heq
      by_contra hne
      exact ht hne hw
    · exact h.table w hw
  kernel w p hw hp := by
    rw [setPte_pte] at hp
    split at hp
    · rename_i heq
      subst heq
      exact hu p hp hw
    · exact h.kernel w p hw hp

theorem setPte_userPages (hv : v < nuser) (e : Option Pte) :
    (d.setPte v e).userPages + held ((d.pte v).map Pte.page) = d.userPages + held (e.map Pte.page) := by
  have hcomp : (fun w => ((d.setPte v e).pte w).map Pte.page) =
      update (fun w => (d.pte w).map Pte.page) v (e.map Pte.page) := by
    funext w
    rw [setPte_pte, update_apply]
    split <;> rfl
  rw [userPages, hcomp]
  exact holdings_update (Finset.mem_range.2 hv) _

theorem setPte_pages (hv : v < nuser) (e : Option Pte) :
    (d.setPte v e).pages + held ((d.pte v).map Pte.page) = d.pages + held (e.map Pte.page) := by
  rw [pages, add_assoc, setPte_userPages hv, ← add_assoc]
  rfl

theorem setPte_pages_kernel (hv : nuser ≤ v) (e : Option Pte) : (d.setPte v e).pages = d.pages := by
  have huser : (d.setPte v e).userPages = d.userPages := by
    refine holdings_congr fun w hw => ?_
    rw [setPte_pte, if_neg]
    have hlt := Finset.mem_range.1 hw
    omega
  rw [pages, huser]
  rfl

/-- A new page table hides nothing. -/
theorem Wf.setTable_pte (h : d.Wf) (hi : d.table i = none) : (d.setTable i x).pte = d.pte := by
  funext w
  show (if w / 1024 = i then none else d.pte w) = d.pte w
  split
  · rename_i heq
    subst heq
    exact (h.table w hi).symm
  · rfl

theorem setTable_table {j : ℕ} : (d.setTable i x).table j = if j = i then some x else d.table j :=
  update_apply ..

theorem Wf.setTable (h : d.Wf) (hi : d.table i = none) (hlt : i < 1024) (hhole : i < 568 ∨ 1016 ≤ i) :
    (d.setTable i x).Wf where
  bound j hj := by
    rw [setTable_table, if_neg (by omega)]
    exact h.bound j hj
  hole j hlo hhi := by
    rw [setTable_table, if_neg (by omega)]
    exact h.hole j hlo hhi
  table w hw := by
    rw [h.setTable_pte hi]
    rw [setTable_table] at hw
    split at hw
    · cases hw
    · exact h.table w hw
  kernel w e hw he := by
    rw [h.setTable_pte hi] at he
    exact h.kernel w e hw he

theorem grown_setTable (hi : d.table i = none) : Grown (· = i) d (d.setTable i x) where
  page := rfl
  keep j y hj := by
    rw [setTable_table, if_neg]
    · exact hj
    · rintro rfl
      rw [hi] at hj
      cases hj
  other j hj := by rw [setTable_table, if_neg hj]

theorem Wf.setTable_pages (h : d.Wf) (hi : d.table i = none) (hlt : i < 1024) :
    (d.setTable i x).pages = {x} + d.pages := by
  have htable := holdings_update (f := d.table) (Finset.mem_range.2 hlt) (some x)
  rw [hi, held_none, add_zero, held_some] at htable
  have huser : (d.setTable i x).userPages = d.userPages := by
    rw [userPages, h.setTable_pte hi]
    rfl
  rw [pages, pages, huser]
  show {d.page} + holdings (update d.table i (some x)) _ + _ = _
  rw [htable]
  abel

end Space

open Space

/-! ## `mappages` -/

/-- What `walkpgdir` leaves. -/
structure Walked (d : Space) (v : ℕ) (r : Space × Bool) : Prop where
  wf : r.1.Wf
  pte : r.1.pte = d.pte
  grown : Grown (· = v / 1024) d r.1
  found : r.2 = true → r.1.table (v / 1024) ≠ none

/-- A virtual page that may be mapped. -/
def Mappable (v : ℕ) : Prop := v < 581632 ∨ 1040384 ≤ v ∧ v < 1048576

/-- The number of page tables that there are not yet: 1 or 0. -/
def missing (d : Space) (v : ℕ) : ℕ := if d.table (v / 1024) = none then 1 else 0

theorem walkpgdir_fail (ht : d.table (v / 1024) = none) (hk : kalloc s = .ok none s') :
    walkpgdir d v true s = .ok (d, false) s' := by
  rw [walkpgdir, ht]
  exact bind_ok hk

theorem walkpgdir_new (ht : d.table (v / 1024) = none) (hk : kalloc s = .ok (some x) s') :
    walkpgdir d v true s = .ok (d.setTable (v / 1024) x, true) s' := by
  rw [walkpgdir, ht]
  exact bind_ok hk

theorem walkpgdir_spec (hwf : d.Wf) (hv : Mappable v) (h : Owns K X s (d.pages + H)) :
    Ok (walkpgdir d v true) (fun r s' => Owns K X s' (r.1.pages + H) ∧ Walked d v r ∧
      Costs s s' (missing d v) (r.2 = true)) s := by
  cases ht : d.table (v / 1024) with
  | some y =>
    have hne : d.table (v / 1024) ≠ none := by rw [ht]; exact nofun
    refine ⟨(d, true), s, by rw [walkpgdir, ht]; rfl, h, ⟨hwf, rfl, .refl _ d, fun _ => hne⟩, ?_⟩
    rw [missing, if_neg hne]
    exact (Costs.refl s).weaken le_rfl fun _ => rfl
  | none =>
    obtain ⟨r, s', hk, howns, hcost⟩ := kalloc_spec h
    have hlt : v / 1024 < 1024 := by unfold Mappable at hv; omega
    have hhole : v / 1024 < 568 ∨ 1016 ≤ v / 1024 := by unfold Mappable at hv; omega
    rw [missing, if_pos ht]
    cases r with
    | none =>
      refine ⟨(d, false), s', walkpgdir_fail ht hk, ?_, ⟨hwf, rfl, .refl _ d, nofun⟩, hcost.weaken le_rfl nofun⟩
      rw [held_none, zero_add] at howns
      exact howns
    | some x =>
      refine ⟨_, s', walkpgdir_new ht hk, ?_, ⟨hwf.setTable ht hlt hhole, hwf.setTable_pte ht, grown_setTable ht, fun _ => ?_⟩,
        hcost.weaken le_rfl fun _ => rfl⟩
      · refine howns.congr ?_
        rw [hwf.setTable_pages ht hlt, held_some, add_assoc]
      · rw [setTable_table, if_pos rfl]
        exact nofun

/-- One page more. -/
theorem mapLoop_succ {r : Space × Bool} (hr : walkpgdir d v true s = .ok r s') (hpte : r.1.pte v = none) :
    mapLoop w u (n + 1) d v x s =
      if r.2 = false then .ok (r.1, false) s'
      else mapLoop w u n (r.1.setPte v (some ⟨x, w, u⟩)) (v + 1) (x + 1) s' := by
  rw [mapLoop, bind_ok hr, hpte]
  split <;> rfl

/-- `mappages` for one page of the user: on success it belongs to the directory. -/
theorem mapUser_spec (hwf : d.Wf) (hv : v < nuser) (hnone : d.pte v = none)
    (h : Owns K X s (d.pages + ({x} + H))) :
    Ok (mapLoop w u 1 d v x) (fun r s' => r.1.Wf ∧ Grown (fun _ => True) d r.1 ∧
      (r.2 = true → Owns K X s' (r.1.pages + H) ∧ r.1.pte = update d.pte v (some ⟨x, w, u⟩)) ∧
      (r.2 = false → Owns K X s' (r.1.pages + ({x} + H)) ∧ r.1.pte = d.pte) ∧ Costs s s' 1 (r.2 = true)) s := by
  have hmap : Mappable v := by unfold nuser at hv; unfold Mappable; omega
  obtain ⟨r, s', hr, howns, hw, hcost⟩ := walkpgdir_spec hwf hmap h
  have hpte : r.1.pte v = none := by rw [hw.pte, hnone]
  have hmissing : missing d v ≤ 1 := by unfold missing; split <;> omega
  have hrun := mapLoop_succ (w := w) (u := u) (n := 0) (x := x) hr hpte
  have hgrown : Grown (fun _ => True) d r.1 := hw.grown.mono fun _ _ => trivial
  cases hfound : r.2 with
  | false =>
    rw [if_pos hfound] at hrun
    exact ⟨_, s', hrun, hw.wf, hgrown, nofun, fun _ => ⟨howns, hw.pte⟩, hcost.weaken hmissing (by rw [hfound]; exact nofun)⟩
  | true =>
    rw [if_neg (by rw [hfound]; exact nofun)] at hrun
    refine ⟨_, s', hrun, ?_, hgrown.trans grown_setPte, fun _ => ⟨?_, ?_⟩, nofun, hcost.weaken hmissing fun _ => rfl⟩
    · exact hw.wf.setPte _ (fun _ => hw.found hfound) fun p _ hge => absurd hv (Nat.not_lt.2 hge)
    · have hpages := setPte_pages (d := r.1) hv (some ⟨x, w, u⟩)
      rw [hpte] at hpages
      refine howns.congr ?_
      rw [← add_assoc]
      exact congrArg (· + H) ((add_zero _).symm.trans hpages).symm
    · show update r.1.pte v _ = _
      rw [hw.pte]

/-- The page tables that are missing for `n` virtual pages. -/
def tablesNeeded (d : Space) (v n : ℕ) : ℕ := if n = 0 then 0 else (v + n - 1) / 1024 - v / 1024 + missing d v

theorem tablesNeeded_le : tablesNeeded d v n ≤ n / 1024 + 2 := by
  have hmissing : missing d v ≤ 1 := by unfold missing; split <;> omega
  unfold tablesNeeded
  split
  · omega
  · omega

/-- After the first page. -/
theorem tablesNeeded_succ (ht : d'.table (v / 1024) ≠ none) :
    missing d v + tablesNeeded d' (v + 1) n ≤ tablesNeeded d v (n + 1) := by
  rw [tablesNeeded, tablesNeeded, if_neg (Nat.succ_ne_zero n)]
  split
  · omega
  · by_cases heq : (v + 1) / 1024 = v / 1024
    · have hzero : missing d' (v + 1) = 0 := by rw [missing, heq, if_neg ht]
      omega
    · have hle : missing d' (v + 1) ≤ 1 := by unfold missing; split <;> omega
      omega

/-- What `mappages` leaves after it has mapped `n` pages of the kernel. -/
structure MappedKernel (d : Space) (v n : ℕ) (r : Space × Bool) : Prop where
  wf : r.1.Wf
  grown : Grown (fun i => v / 1024 ≤ i ∧ i ≤ (v + n - 1) / 1024) d r.1
  other : ∀ w, w < v ∨ v + n ≤ w → r.1.pte w = d.pte w
  found : r.2 = true → ∀ w, v ≤ w → w < v + n → r.1.table (w / 1024) ≠ none

/-- `mappages` for pages of the kernel: none of them belong to the directory, but the page tables do. -/
theorem mapKernel_spec (hwf : d.Wf) (hv : nuser ≤ v) (hmap : ∀ u, v ≤ u → u < v + n → Mappable u)
    (hnone : ∀ u, v ≤ u → u < v + n → d.pte u = none) (h : Owns K X s (d.pages + H)) :
    Ok (mapLoop w false n d v x) (fun r s' => Owns K X s' (r.1.pages + H) ∧ MappedKernel d v n r ∧
      Costs s s' (tablesNeeded d v n) (r.2 = true)) s := by
  induction n generalizing d v x s with
  | zero =>
    refine ⟨(d, true), s, rfl, h, ⟨hwf, .refl _ d, fun _ _ => rfl, fun _ u hu hlt => ?_⟩, ?_⟩
    · omega
    · exact (Costs.refl s).weaken (Nat.zero_le _) fun _ => rfl
  | succ n ih =>
    obtain ⟨r, s', hr, howns, hw, hcost⟩ := walkpgdir_spec hwf (hmap v le_rfl (by omega)) h
    have hpte : r.1.pte v = none := by rw [hw.pte, hnone v le_rfl (by omega)]
    have hrun := mapLoop_succ (w := w) (u := false) (n := n) (x := x) hr hpte
    have hgrown : Grown (fun i => v / 1024 ≤ i ∧ i ≤ (v + (n + 1) - 1) / 1024) d r.1 :=
      hw.grown.mono fun i hi => by omega
    cases hfound : r.2 with
    | false =>
      rw [if_pos hfound] at hrun
      have hle : missing d v ≤ tablesNeeded d v (n + 1) := by
        rw [tablesNeeded, if_neg (Nat.succ_ne_zero n)]
        omega
      exact ⟨_, s', hrun, howns, ⟨hw.wf, hgrown, fun u _ => by rw [hw.pte], nofun⟩,
        hcost.weaken hle (by rw [hfound]; exact nofun)⟩
    | true =>
      rw [if_neg (by rw [hfound]; exact nofun)] at hrun
      have hwf' : (r.1.setPte v (some ⟨x, w, false⟩)).Wf :=
        hw.wf.setPte _ (fun _ => hw.found hfound) fun p hp _ => by rw [← Option.some.inj hp]
      have hpages := setPte_pages_kernel (d := r.1) hv (some ⟨x, w, false⟩)
      have hother : ∀ u, u ≠ v → (r.1.setPte v (some ⟨x, w, false⟩)).pte u = d.pte u := by
        intro u hu
        rw [setPte_pte, if_neg hu, hw.pte]
      have howns' : Owns K X s' ((r.1.setPte v (some ⟨x, w, false⟩)).pages + H) := howns.congr (by rw [hpages])
      obtain ⟨r', s'', hr', howns'', hm, hcost'⟩ := ih (d := r.1.setPte v (some ⟨x, w, false⟩)) (v := v + 1) (x := x + 1)
        hwf' (by omega) (fun u hu hlt => hmap u (by omega) (by omega))
        (fun u hu hlt => by rw [hother u (by omega)]; exact hnone u (by omega) (by omega)) howns'
      have hgrown' : Grown (fun i => v / 1024 ≤ i ∧ i ≤ (v + (n + 1) - 1) / 1024) r.1 r'.1 :=
        (grown_setPte).trans (hm.grown.mono fun i hi => by omega)
      refine ⟨r', s'', hrun.trans hr', howns'', ⟨hm.wf, hgrown.trans hgrown', fun u hu => ?_, fun hgood u hu hlt => ?_⟩, ?_⟩
      · rw [hm.other u (by omega), hother u (by omega)]
      · by_cases heq : u = v
        · rw [heq]
          exact hgrown'.table_ne (hw.found hfound)
        · exact hm.found hgood u (by omega) (by omega)
      · exact (hcost.trans fun _ => hcost').weaken (tablesNeeded_succ (hw.found hfound)) id

/-! ## `deallocuvm` and `freevm` -/

/-- The entries from `lo` to `hi` have been removed. -/
structure Trimmed (d : Space) (lo hi : ℕ) (d' : Space) : Prop where
  wf : d'.Wf
  page : d'.page = d.page
  table : d'.table = d.table
  pte : ∀ w, d'.pte w = if lo ≤ w ∧ w < hi then none else d.pte w

theorem Trimmed.grown {lo hi : ℕ} (h : Trimmed d lo hi d') : Grown (fun _ => True) d d' :=
  ⟨h.page, fun i x hx => by rw [h.table]; exact hx, fun i _ => by rw [h.table]⟩

theorem lt_npages {w sz : ℕ} : w < npages sz ↔ w * pgsize < sz := by
  unfold npages pgsize
  omega

theorem npages_le_nuser {sz : ℕ} (h : sz ≤ kernbase) : npages sz ≤ nuser := by
  unfold npages nuser pgsize
  unfold kernbase at h
  omega

/-- The entry of a page that is not present is nothing to remove. -/
theorem Trimmed.skip {lo lo' hi : ℕ} (h : Trimmed d lo' hi d') (hle : lo ≤ lo')
    (hnone : ∀ w, lo ≤ w → w < lo' → d.pte w = none) : Trimmed d lo hi d' where
  wf := h.wf
  page := h.page
  table := h.table
  pte w := by
    rw [h.pte]
    by_cases hlo : lo ≤ w
    · by_cases hlo' : lo' ≤ w
      · exact if_congr (and_congr (iff_of_true hlo' hlo) Iff.rfl) rfl rfl
      · have hw := hnone w hlo (Nat.lt_of_not_le hlo')
        rw [if_neg fun hc => hlo' hc.1, hw, ite_self]
    · rw [if_neg fun hc => hlo (hle.trans hc.1), if_neg fun hc => hlo hc.1]

theorem deallocLoop_spec {q : ℕ} (hwf : d.Wf) (hmax : oldsz ≤ kernbase) (hfuel : oldsz ≤ (q + n) * pgsize)
    (h : Holds K X j s (d.pages + H)) :
    Ok (deallocLoop K oldsz n d (q * pgsize)) (fun d' s' => Holds K X j s' (d'.pages + H) ∧
      Trimmed d q (npages oldsz) d' ∧ Costs s s' 0 True) s := by
  induction n generalizing d q s with
  | zero =>
    refine ⟨d, s, rfl, h, ⟨hwf, rfl, rfl, fun w => ?_⟩, .refl s⟩
    rw [if_neg]
    rintro ⟨hlo, hhi⟩
    rw [lt_npages] at hhi
    exact absurd (hhi.trans_le hfuel) (Nat.not_lt.2 (Nat.mul_le_mul_right _ hlo))
  | succ n ih =>
    have hq : q * pgsize / pgsize = q := Nat.mul_div_cancel q (by decide)
    have hnext : q * pgsize + pgsize = (q + 1) * pgsize := (Nat.succ_mul q pgsize).symm
    by_cases hlt : q * pgsize < oldsz
    · have hquser : q < nuser := (lt_npages.2 hlt).trans_le (npages_le_nuser hmax)
      have hfuel' : oldsz ≤ (q + 1 + n) * pgsize := by
        rw [show q + 1 + n = q + (n + 1) by omega]
        exact hfuel
      rw [deallocLoop, if_pos hlt, hq]
      cases ht : d.table (q / 1024) with
      | none =>
        have hle : q + 1 ≤ (q / 1024 + 1) * 1024 := by omega
        obtain ⟨d', s', hr, howns, htrim, hcost⟩ := ih (q := (q / 1024 + 1) * 1024) hwf
          (hfuel'.trans (Nat.mul_le_mul_right _ (Nat.add_le_add_right hle n))) h
        refine ⟨d', s', hr, howns, htrim.skip (by omega) fun w hlo hhi => hwf.table w ?_, hcost⟩
        rw [show w / 1024 = q / 1024 by omega]
        exact ht
      | some y =>
        cases hp : d.pte q with
        | none =>
          obtain ⟨d', s', hr, howns, htrim, hcost⟩ := ih (q := q + 1) hwf hfuel' h
          refine ⟨d', s', ?_, howns, htrim.skip (Nat.le_succ q) fun w hlo hhi => ?_, hcost⟩
          · rw [hnext]
            exact hr
          · rw [show w = q by omega]
            exact hp
        | some e =>
          have hpages := setPte_pages (d := d) hquser none
          rw [hp] at hpages
          have hpages' : (d.setPte q none).pages + {e.page} = d.pages := hpages.trans (add_zero _)
          have hhave : Holds K X j s ({e.page} + ((d.setPte q none).pages + H)) := by
            refine h.congr ?_
            rw [← hpages']
            abel
          obtain ⟨⟨⟩, s1, hfree, howns1, hcost1⟩ := kfree_spec hhave
          have hwf1 : (d.setPte q none).Wf := hwf.setPte none (fun hne => absurd rfl hne) nofun
          obtain ⟨d', s', hr, howns, htrim, hcost⟩ := ih (q := q + 1) hwf1 hfuel' howns1
          refine ⟨d', s', ?_, howns, ⟨htrim.wf, htrim.page, htrim.table, fun w => ?_⟩, hcost1.trans fun _ => hcost⟩
          · refine (bind_ok hfree).trans ?_
            rw [hnext]
            exact hr
          · rw [htrim.pte, setPte_pte]
            by_cases hw : w = q
            · subst hw
              rw [if_neg (by omega), if_pos rfl, if_pos ⟨le_rfl, lt_npages.2 hlt⟩]
            · rw [if_neg hw]
              exact if_congr (by omega) rfl rfl
    · refine ⟨d, s, by rw [deallocLoop, if_neg hlt]; rfl, h, ⟨hwf, rfl, rfl, fun w => ?_⟩, .refl s⟩
      rw [if_neg]
      rintro ⟨hlo, hhi⟩
      rw [lt_npages] at hhi
      exact hlt ((Nat.mul_le_mul_right _ hlo).trans_lt hhi)

theorem deallocuvm_spec (newsz : ℕ) (hwf : d.Wf) (hmax : oldsz ≤ kernbase) (h : Holds K X j s (d.pages + H)) :
    Ok (deallocuvm K d oldsz newsz) (fun r s' => Holds K X j s' (r.1.pages + H) ∧
      Trimmed d (npages newsz) (npages oldsz) r.1 ∧ r.2 = min oldsz newsz ∧ Costs s s' 0 True) s := by
  by_cases hge : newsz ≥ oldsz
  · refine ⟨(d, oldsz), s, by rw [deallocuvm, if_pos hge]; rfl, h, ⟨hwf, rfl, rfl, fun w => ?_⟩, ?_, .refl s⟩
    · rw [if_neg]
      rintro ⟨hlo, hhi⟩
      rw [lt_npages] at hhi
      exact absurd (lt_npages.2 (hhi.trans_le hge)) (Nat.not_lt.2 hlo)
    · exact (min_eq_left hge).symm
  · have hfuel : oldsz ≤ (npages newsz + (oldsz / pgsize + 1)) * pgsize := by unfold npages pgsize; omega
    obtain ⟨d', s', hr, howns, htrim, hcost⟩ := deallocLoop_spec hwf hmax hfuel h
    refine ⟨(d', newsz), s', ?_, howns, htrim, (min_eq_right (by omega)).symm, hcost⟩
    rw [deallocuvm, if_neg hge]
    exact bind_ok hr

theorem freeTables_spec {l : List ℕ} (h : Holds K X j s ((l.map fun i => held (d.table i)).sum + H)) :
    Ok (freeTables K d l) (fun _ s' => Holds K X j s' H ∧ Costs s s' 0 True) s := by
  induction l generalizing s with
  | nil =>
    refine ⟨(), s, rfl, h.congr ?_, .refl s⟩
    exact zero_add H
  | cons i l ih =>
    rw [List.map_cons, List.sum_cons, add_assoc] at h
    cases ht : d.table i with
    | none =>
      rw [ht, held_none, zero_add] at h
      rw [freeTables, ht]
      exact ih h
    | some y =>
      rw [ht] at h
      obtain ⟨⟨⟩, s1, hfree, howns1, hcost1⟩ := kfree_spec h
      obtain ⟨⟨⟩, s', hr, howns, hcost⟩ := ih howns1
      refine ⟨(), s', ?_, howns, hcost1.trans fun _ => hcost⟩
      rw [freeTables, ht]
      exact (bind_ok hfree).trans hr

theorem holdings_range (f : ℕ → Option Page) (m : ℕ) :
    holdings f (Finset.range m) = ((List.range m).map fun i => held (f i)).sum := by
  rw [holdings]
  rfl

/-- **`freevm` gives back everything that belongs to the directory.** -/
theorem freevm_spec (hwf : d.Wf) (h : Holds K X j s (d.pages + H)) :
    Ok (freevm K d) (fun _ s' => Holds K X j s' H ∧ Costs s s' 0 True) s := by
  obtain ⟨r, s1, hr, howns1, htrim, -, hcost1⟩ := deallocuvm_spec 0 hwf (le_refl kernbase) h
  have hnone : r.1.userPages = 0 := by
    refine holdings_eq_zero fun w hw => ?_
    have hlt : w < npages kernbase := Finset.mem_range.1 hw
    rw [htrim.pte, if_pos ⟨Nat.zero_le w, hlt⟩]
    rfl
  have hhave : Holds K X j s1 (((List.range 1024).map fun i => held (r.1.table i)).sum + ({r.1.page} + H)) := by
    refine howns1.congr ?_
    rw [Space.pages, hnone, holdings_range]
    abel
  obtain ⟨⟨⟩, s2, hr2, howns2, hcost2⟩ := freeTables_spec hhave
  obtain ⟨⟨⟩, s', hfree, howns, hcost⟩ := kfree_spec howns2
  refine ⟨(), s', ?_, howns, hcost1.trans fun _ => hcost2.trans fun _ => hcost⟩
  exact (bind_ok hr).trans ((bind_ok hr2).trans hfree)

end OsLab.Xv6.Vm
