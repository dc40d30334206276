import OsLab.Xv6.VmSpec

/-!
# Directories are built and taken down again

* `setupkvm_spec`: a new directory with the kernel's mappings.
* `allocuvm_spec`: all pages up to the new size are mapped, or the directory is as it was.
* `copyuvm_spec`: a directory with as many pages as the other, unless a page of that is not present.
-/

namespace OsLab.Xv6.Vm

open Exec Space Function

variable {K : Kernel} {X H : Multiset Page} {s s' : Kmem} {d d' pgdir : Space} {n oldsz newsz q : ℕ}

/-! ## `setupkvm` -/

namespace Kmap

/-- The first virtual page. -/
def first (k : Kmap) : ℕ := k.virt / pgsize

/-- How many virtual pages. -/
def count (k : Kmap) : ℕ := (k.virt + (k.physEnd - k.physStart) - 1) % 2 ^ 32 / pgsize + 1 - k.first

/-- The entries are for different pages of the kernel, in ascending order, from `lo` on. -/
def Ascend : ℕ → List Kmap → Prop
  | _, [] => True
  | lo, k :: l => lo ≤ k.first ∧ (∀ v, k.first ≤ v → v < k.first + k.count → Mappable v) ∧ Ascend (k.first + k.count) l

/-- How many page tables are enough for the entries. -/
def cost (l : List Kmap) : ℕ := (l.map fun k => k.count / 1024 + 2).sum

end Kmap

/-- What `kmapLoop` leaves. -/
structure KernelPart (l : List Kmap) (d : Space) (r : Space × Bool) : Prop where
  wf : r.1.Wf
  user : ∀ w < nuser, r.1.pte w = d.pte w
  grown : Grown (fun _ => True) d r.1
  found : r.2 = true → ∀ k ∈ l, ∀ w, k.first ≤ w → w < k.first + k.count → r.1.table (w / 1024) ≠ none

theorem kmapLoop_spec {l : List Kmap} (lo : ℕ) (hwf : d.Wf) (hlo : nuser ≤ lo) (hnone : ∀ w, lo ≤ w → d.pte w = none)
    (hl : Kmap.Ascend lo l) (h : Owns K X s (d.pages + H)) :
    Ok (kmapLoop l d) (fun r s' => Owns K X s' (r.1.pages + H) ∧ KernelPart l d r ∧
      Costs s s' (Kmap.cost l) (r.2 = true)) s := by
  induction l generalizing d lo s with
  | nil =>
    refine ⟨(d, true), s, rfl, h, ⟨hwf, fun _ _ => rfl, .refl _ d, fun _ k hk => nomatch hk⟩, ?_⟩
    exact (Costs.refl s).weaken (Nat.zero_le _) fun _ => rfl
  | cons k l ih =>
    obtain ⟨hfirst, hmap, hl⟩ := hl
    obtain ⟨r, s1, hr, howns1, hm, hcost1⟩ := mapKernel_spec (w := k.writable) (n := k.count) (x := k.physStart / pgsize) hwf
      (hlo.trans hfirst) hmap (fun u hu _ => hnone u (hfirst.trans hu)) h
    have hrun : mappages d k.virt (k.physEnd - k.physStart) k.physStart k.writable false s = .ok r s1 := hr
    have hsum : Kmap.cost (k :: l) = k.count / 1024 + 2 + Kmap.cost l := List.sum_cons ..
    have huser : ∀ w < nuser, r.1.pte w = d.pte w := fun w hw => hm.other w (Or.inl (by omega))
    have hgrown : Grown (fun _ => True) d r.1 := hm.grown.mono fun _ _ => trivial
    have hcost : Costs s s1 (k.count / 1024 + 2) (r.2 = true) := hcost1.weaken tablesNeeded_le id
    cases hgood : r.2 with
    | false =>
      refine ⟨(r.1, false), s1, ?_, howns1, ⟨hm.wf, huser, hgrown, nofun⟩, ?_⟩
      · rw [kmapLoop, bind_ok hrun, if_pos hgood]
        rfl
      · exact hcost.weaken (by omega) (by rw [hgood]; exact nofun)
    | true =>
      have hnone' : ∀ w, k.first + k.count ≤ w → r.1.pte w = none := by
        intro w hw
        rw [hm.other w (Or.inr hw)]
        exact hnone w (by omega)
      obtain ⟨r', s', hr', howns, hpart, hcost'⟩ := ih (k.first + k.count) hm.wf (by omega) hnone' hl howns1
      refine ⟨r', s', ?_, howns, ⟨hpart.wf, fun w hw => (hpart.user w hw).trans (huser w hw), hgrown.trans hpart.grown, ?_⟩, ?_⟩
      · rw [kmapLoop, bind_ok hrun, if_neg (by rw [hgood]; exact nofun)]
        exact hr'
      · intro hgood' j hj w hw hlt
        rcases List.mem_cons.1 hj with rfl | hj
        · exact hpart.grown.table_ne (hm.found hgood w hw hlt)
        · exact hpart.found hgood' j hj w hw hlt
      · exact hcost.trans fun _ => hcost'

/-- The kernel's part of the address space in pages, in the order of `kmap`. -/
def kmapPages (K : Kernel) : List (ℕ × ℕ) :=
  [(524288, 256), (524544, K.data / 4096 - 256), (524288 + K.data / 4096, 57344 - K.data / 4096), (1040384, 8192)]

theorem kmap_pages : (kmap K).map (fun k => (k.first, k.count)) = kmapPages K := by
  have haligned : K.data % 4096 = 0 := K.data_aligned
  have hlt : K.data < 0xE000000 := K.data_lt
  have htext : (⟨kernbase + extmem, extmem, K.data, false⟩ : Kmap).first = 524544 ∧
      (⟨kernbase + extmem, extmem, K.data, false⟩ : Kmap).count = K.data / 4096 - 256 := by
    simp only [Kmap.count, Kmap.first, kernbase, extmem, pgsize, true_and]
    omega
  have hdata : (⟨kernbase + K.data, K.data, phystop, true⟩ : Kmap).first = 524288 + K.data / 4096 ∧
      (⟨kernbase + K.data, K.data, phystop, true⟩ : Kmap).count = 57344 - K.data / 4096 := by
    simp only [Kmap.count, Kmap.first, kernbase, phystop, pgsize]
    omega
  rw [kmap, List.map_cons, List.map_cons, List.map_cons, htext.1, htext.2, hdata.1, hdata.2]
  rfl

theorem ascend_kmap : Kmap.Ascend nuser (kmap K) := by
  have hgt : 0x100000 < K.data := K.data_gt
  have hlt : K.data < 0xE000000 := K.data_lt
  have hpages := kmap_pages (K := K)
  simp only [kmap, kmapPages, List.map_cons, List.map_nil, List.cons.injEq, Prod.mk.injEq, and_true] at hpages
  obtain ⟨⟨hf1, hc1⟩, ⟨hf2, hc2⟩, ⟨hf3, hc3⟩, hf4, hc4⟩ := hpages
  simp only [kmap, Kmap.Ascend, hf1, hc1, hf2, hc2, hf3, hc3, hf4, hc4, nuser, Mappable, and_true]
  refine ⟨le_rfl, fun v _ _ => ?_, le_rfl, fun v _ _ => ?_, ?_, fun v _ _ => ?_, ?_, fun v _ _ => ?_⟩ <;> omega

/-- The page tables for the devices are there. -/
def Space.Dev (d : Space) : Prop := ∀ i, 1016 ≤ i → i < 1024 → d.table i ≠ none

theorem Space.Dev.grown {T : ℕ → Prop} (h : d.Dev) (hg : Grown T d d') : d'.Dev :=
  fun i hlo hhi => hg.table_ne (h i hlo hhi)

theorem cost_kmap : Kmap.cost (kmap K) ≤ 130 := by
  have hcost : Kmap.cost (kmap K) = ((kmapPages K).map fun k => k.2 / 1024 + 2).sum := by
    rw [← kmap_pages]
    rfl
  have hlt : K.data < 0xE000000 := K.data_lt
  rw [hcost]
  simp only [kmapPages, List.map_cons, List.map_nil, List.sum_cons, List.sum_nil]
  omega

/-- The directory as `memset` leaves it. -/
theorem empty_wf (x : Page) : (⟨x, fun _ => none, fun _ => none⟩ : Space).Wf :=
  ⟨fun _ _ => rfl, fun _ _ _ => rfl, fun _ _ => rfl, nofun⟩

theorem empty_pages (x : Page) : (⟨x, fun _ => none, fun _ => none⟩ : Space).pages = {x} := by
  have htable : holdings (fun _ : ℕ => (none : Option Page)) (Finset.range 1024) = 0 := holdings_eq_zero fun _ _ => rfl
  have huser : (⟨x, fun _ => none, fun _ => none⟩ : Space).userPages = 0 := holdings_eq_zero fun _ _ => rfl
  rw [Space.pages, huser, htable, add_zero, add_zero]

/-- A directory in which nothing is mapped for the user. -/
structure Fresh (d : Space) : Prop where
  wf : d.Wf
  dev : d.Dev
  none : ∀ w < nuser, d.pte w = none

/-- **`setupkvm` returns a new directory, or has kept nothing.** -/
theorem setupkvm_spec (h : Owns K X s H) :
    Ok (setupkvm K) (fun r s' => (r = none → Owns K X s' H) ∧
      (∀ d, r = some d → Owns K X s' (d.pages + H) ∧ Fresh d) ∧ Costs s s' 131 (r.isSome = true)) s := by
  obtain ⟨o, s1, hk, howns1, hcost1⟩ := kalloc_spec h
  cases o with
  | none =>
    refine ⟨none, s1, bind_ok hk, fun _ => ?_, nofun, hcost1.absurd nofun |>.weaken (by omega) id⟩
    rw [held_none, zero_add] at howns1
    exact howns1
  | some x =>
    have hhave : Owns K X s1 ((⟨x, fun _ => none, fun _ => none⟩ : Space).pages + H) := by
      rw [empty_pages]
      exact howns1
    obtain ⟨r, s2, hr, howns2, hpart, hcost2⟩ := kmapLoop_spec nuser (empty_wf x) le_rfl (fun _ _ => rfl) (ascend_kmap (K := K)) hhave
    have hle : 1 + Kmap.cost (kmap K) ≤ 131 := Nat.add_le_add_left cost_kmap 1
    have hcost : Costs s s2 131 (r.2 = true) := (hcost1.trans fun _ => hcost2).weaken hle id
    cases hgood : r.2 with
    | false =>
      obtain ⟨⟨⟩, s', hfree, howns, -⟩ := freevm_spec hpart.wf howns2
      refine ⟨none, s', ?_, fun _ => howns, nofun, hcost.absurd (by rw [hgood]; exact nofun)⟩
      refine (bind_ok hk).trans ((bind_ok hr).trans ?_)
      rw [if_pos hgood]
      exact bind_ok hfree
    | true =>
      refine ⟨some r.1, s2, ?_, nofun, ?_, hcost.weaken le_rfl fun _ => rfl⟩
      · refine (bind_ok hk).trans ((bind_ok hr).trans ?_)
        rw [if_neg (by rw [hgood]; exact nofun)]
        rfl
      · rintro d ⟨⟩
        refine ⟨howns2, hpart.wf, fun i hlo hhi => ?_, hpart.user⟩
        -- the last entry of `kmap` is for the devices
        have hmem : (⟨devspace, devspace, 2 ^ 32, true⟩ : Kmap) ∈ kmap K := by simp [kmap]
        have hfirst : (⟨devspace, devspace, 2 ^ 32, true⟩ : Kmap).first = 1040384 := rfl
        have hcount : (⟨devspace, devspace, 2 ^ 32, true⟩ : Kmap).count = 8192 := rfl
        have hfound := hpart.found hgood _ hmem (i * 1024) (by rw [hfirst]; omega) (by rw [hfirst, hcount]; omega)
        rw [Nat.mul_div_cancel i (by decide)] at hfound
        exact hfound

/-! ## `allocuvm` -/

/-- Exactly the pages of `[0, sz)` are mapped for the user. -/
structure Mapped (d : Space) (sz : ℕ) : Prop where
  present : ∀ w < npages sz, (d.pte w).isSome = true
  above : ∀ w, npages sz ≤ w → w < nuser → d.pte w = none

/-- What the loop of `allocuvm` leaves. -/
structure Alloced (lo hi q n : ℕ) (d : Space) (r : Space × Bool) : Prop where
  wf : r.1.Wf
  grown : Grown (fun _ => True) d r.1
  present : r.2 = true → ∀ w, q ≤ w → w < q + n → (r.1.pte w).isSome = true
  other : r.2 = true → ∀ w, w < q ∨ q + n ≤ w → r.1.pte w = d.pte w
  failed : r.2 = false → ∀ w, r.1.pte w = if lo ≤ w ∧ w < hi then none else d.pte w

theorem mappages_page {mem : ℕ} {w u : Bool} (hq : q < nuser) :
    mappages d (q * pgsize) pgsize (mem * pgsize) w u = mapLoop w u 1 d q mem := by
  have hlt : q < 524288 := hq
  have hfirst : q * pgsize / pgsize = q := Nat.mul_div_cancel q (by decide)
  have hlast : (q * pgsize + pgsize - 1) % 2 ^ 32 / pgsize = q := by
    unfold pgsize
    omega
  rw [mappages, hfirst, hlast, Nat.add_sub_cancel_left, Nat.mul_div_cancel mem (by decide)]

theorem allocLoop_spec (hwf : d.Wf) (hmax : newsz < kernbase) (hq : npages oldsz ≤ q)
    (hn : q + n = npages newsz ∨ n = 0) (hnone : ∀ w, q ≤ w → w < nuser → d.pte w = none) (h : Owns K X s (d.pages + H)) :
    Ok (allocLoop K oldsz newsz n d (q * pgsize)) (fun r s' => Owns K X s' (r.1.pages + H) ∧
      Alloced (npages oldsz) (npages newsz) q n d r ∧ Costs s s' (2 * n) (r.2 = true)) s := by
  induction n generalizing d q s with
  | zero =>
    refine ⟨(d, true), s, rfl, h, ⟨hwf, .refl _ d, fun _ w hlo hhi => ?_, fun _ _ _ => rfl, nofun⟩, ?_⟩
    · omega
    · exact (Costs.refl s).weaken (Nat.zero_le _) fun _ => rfl
  | succ n ih =>
    have hq' : q < npages newsz := by omega
    have huser : q < nuser := hq'.trans_le (npages_le_nuser hmax.le)
    have hnext : q * pgsize + pgsize = (q + 1) * pgsize := (Nat.succ_mul q pgsize).symm
    obtain ⟨o, s1, hk, howns1, hcost1⟩ := kalloc_spec h
    cases o with
    | none =>
      rw [held_none, zero_add] at howns1
      obtain ⟨r, s', hr, howns, htrim, -, -⟩ := deallocuvm_spec oldsz hwf hmax.le howns1
      refine ⟨(r.1, false), s', ?_, howns, ⟨htrim.wf, htrim.grown, nofun, nofun, fun _ => htrim.pte⟩,
        (hcost1.absurd nofun).weaken (by omega) id⟩
      exact (bind_ok hk).trans (bind_ok hr)
    | some mem =>
      have hhave : Owns K X s1 (d.pages + ({mem} + H)) := by
        refine howns1.congr ?_
        rw [held_some]
        abel
      obtain ⟨r, s2, hr, hwf2, hgrown2, hgood2, hbad2, hcost2⟩ := mapUser_spec (w := true) (u := true) hwf huser
        (hnone q le_rfl huser) hhave
      have hmap : mappages d (q * pgsize) pgsize (mem * pgsize) true true s1 = .ok r s2 := by
        rw [mappages_page huser]
        exact hr
      have hcost : Costs s s2 2 (r.2 = true) := hcost1.trans fun _ => hcost2
      cases hgood : r.2 with
      | false =>
        obtain ⟨howns2, hpte⟩ := hbad2 hgood
        obtain ⟨r', s3, hr', howns3, htrim, -, -⟩ := deallocuvm_spec oldsz hwf2 hmax.le howns2
        obtain ⟨⟨⟩, s', hfree, howns, -⟩ := kfree_spec (x := mem) (H := r'.1.pages + H) (howns3.congr (by abel))
        refine ⟨(r'.1, false), s', ?_, howns, ⟨htrim.wf, hgrown2.trans htrim.grown, nofun, nofun, fun _ w => ?_⟩,
          (hcost.absurd (by rw [hgood]; exact nofun)).weaken (by omega) id⟩
        · refine (bind_ok hk).trans ((bind_ok hmap).trans ?_)
          rw [if_pos hgood]
          exact (bind_ok hr').trans (bind_ok hfree)
        · rw [htrim.pte, hpte]
      | true =>
        obtain ⟨howns2, hpte⟩ := hgood2 hgood
        have hother : ∀ w, w ≠ q → r.1.pte w = d.pte w := fun w hw => by rw [hpte, update_of_ne hw]
        obtain ⟨r', s', hr', howns, ha, hcost'⟩ := ih (q := q + 1) hwf2 (by omega) (by omega)
          (fun w hlo hhi => (hother w (by omega)).trans (hnone w (by omega) hhi)) howns2
        refine ⟨r', s', ?_, howns, ⟨ha.wf, hgrown2.trans ha.grown, fun hgood' w hlo hhi => ?_, fun hgood' w hw => ?_,
          fun hbad w => ?_⟩, ?_⟩
        · refine (bind_ok hk).trans ((bind_ok hmap).trans ?_)
          rw [if_neg (by rw [hgood]; exact nofun), hnext]
          exact hr'
        · by_cases hw : w = q
          · rw [hw, ha.other hgood' q (by omega), hpte, update_self]
            rfl
          · exact ha.present hgood' w (by omega) (by omega)
        · rw [ha.other hgood' w (by omega), hother w (by omega)]
        · rw [ha.failed hbad w]
          by_cases hw : w = q
          · rw [hw, if_pos ⟨hq, hq'⟩, if_pos ⟨hq, hq'⟩]
          · rw [hother w hw]
        · exact (hcost.trans fun _ => hcost').weaken (by omega) id

/-- What `allocuvm` leaves: the pages up to the size that it returns, or the pages that there were. -/
structure Resized (oldsz newsz : ℕ) (d : Space) (r : Space × ℕ) : Prop where
  wf : r.1.Wf
  grown : Grown (fun _ => True) d r.1
  failed : r.2 = 0 → r.1.pte = d.pte
  size : r.2 ≠ 0 → r.2 = max oldsz newsz ∧ newsz < kernbase
  present : r.2 ≠ 0 → ∀ w, npages oldsz ≤ w → w < npages r.2 → (r.1.pte w).isSome = true
  other : r.2 ≠ 0 → ∀ w, w < npages oldsz ∨ npages r.2 ≤ w → r.1.pte w = d.pte w

/-- **`allocuvm` maps all the pages up to the new size, or leaves none of the new ones.** -/
theorem allocuvm_spec (newsz : ℕ) (hwf : d.Wf) (hnone : ∀ w, npages oldsz ≤ w → w < nuser → d.pte w = none)
    (h : Owns K X s (d.pages + H)) :
    Ok (allocuvm K d oldsz newsz) (fun r s' => Owns K X s' (r.1.pages + H) ∧ Resized oldsz newsz d r ∧
      Costs s s' (2 * npages newsz) (newsz < kernbase → r.2 = max oldsz newsz)) s := by
  by_cases hmax : newsz ≥ kernbase
  · refine ⟨(d, 0), s, by rw [allocuvm, if_pos hmax]; rfl, h,
      ⟨hwf, .refl _ d, fun _ => rfl, fun h => absurd rfl h, fun h => absurd rfl h, fun h => absurd rfl h⟩, ?_⟩
    exact (Costs.refl s).weaken (Nat.zero_le _) fun _ hlt => absurd hlt (Nat.not_lt.2 hmax)
  · by_cases hlt : newsz < oldsz
    · refine ⟨(d, oldsz), s, by rw [allocuvm, if_neg hmax, if_pos hlt]; rfl, h, ⟨hwf, .refl _ d, fun _ => rfl,
        fun _ => ⟨(max_eq_left hlt.le).symm, Nat.lt_of_not_le hmax⟩, fun _ w hlo hhi => ?_, fun _ _ _ => rfl⟩, ?_⟩
      · exact absurd hhi (Nat.not_lt.2 hlo)
      · exact (Costs.refl s).weaken (Nat.zero_le _) fun _ _ => (max_eq_left hlt.le).symm
    · have hmax' : newsz < kernbase := Nat.lt_of_not_le hmax
      have hle : npages oldsz ≤ npages newsz := by unfold npages pgsize; omega
      have hcount : (newsz - pgroundup oldsz + pgsize - 1) / pgsize = npages newsz - npages oldsz := by
        unfold pgroundup npages pgsize
        omega
      have hsize : max oldsz newsz = newsz := max_eq_right (Nat.le_of_not_lt hlt)
      obtain ⟨r, s', hr, howns, ha, hcost⟩ := allocLoop_spec (n := npages newsz - npages oldsz) hwf hmax' le_rfl
        (Or.inl (by omega)) hnone h
      have hrun : allocuvm K d oldsz newsz s = .ok (r.1, if r.2 then newsz else 0) s' := by
        rw [allocuvm, if_neg hmax, if_neg hlt, hcount]
        exact bind_ok hr
      refine ⟨_, s', hrun, howns, ?_, hcost.weaken (by omega) fun hgood _ => by rw [hsize]; exact if_pos hgood⟩
      cases hgood : r.2 with
      | false =>
        refine ⟨ha.wf, ha.grown, fun _ => ?_, fun h => absurd rfl h, fun h => absurd rfl h, fun h => absurd rfl h⟩
        funext w
        rw [ha.failed hgood w]
        split
        · rename_i hrange
          exact (hnone w hrange.1 (hrange.2.trans_le (npages_le_nuser hmax'.le))).symm
        · rfl
      | true =>
        refine ⟨ha.wf, ha.grown, fun hzero => ?_, fun _ => ⟨hsize.symm, hmax'⟩,
          fun _ w hlo hhi => ha.present hgood w hlo ?_, fun _ w hw => ha.other hgood w ?_⟩
        · have hnew : newsz = 0 := hzero
          have hall : npages newsz = 0 := by rw [hnew]; rfl
          funext w
          exact ha.other hgood w (by omega)
        · have hhi' : w < npages newsz := hhi
          omega
        · have hw' : w < npages oldsz ∨ npages newsz ≤ w := hw
          omega

/-- All pages up to the size are still mapped, whatever `allocuvm` returns. -/
theorem Resized.mapped {r : Space × ℕ} (h : Resized oldsz newsz d r) (hm : Mapped d oldsz) :
    Mapped r.1 (if r.2 = 0 then oldsz else r.2) := by
  split
  · rename_i hzero
    exact ⟨by rw [h.failed hzero]; exact hm.present, by rw [h.failed hzero]; exact hm.above⟩
  · rename_i hne
    have hle : npages oldsz ≤ npages r.2 := by
      have hsize : oldsz ≤ r.2 := (h.size hne).1 ▸ le_max_left ..
      unfold npages pgsize
      omega
    refine ⟨fun w hw => ?_, fun w hlo hhi => ?_⟩
    · by_cases hold : w < npages oldsz
      · rw [h.other hne w (Or.inl hold)]
        exact hm.present w hold
      · exact h.present hne w (Nat.le_of_not_lt hold) hw
    · rw [h.other hne w (Or.inr hlo)]
      exact hm.above w (hle.trans hlo) hhi

/-! ## `copyuvm` -/

/-- What the loop of `copyuvm` leaves. -/
structure Copied (q n : ℕ) (d : Space) (r : Space × Bool) : Prop where
  wf : r.1.Wf
  grown : Grown (fun _ => True) d r.1
  present : r.2 = true → ∀ w, q ≤ w → w < q + n → (r.1.pte w).isSome = true
  other : r.2 = true → ∀ w, w < q ∨ q + n ≤ w → r.1.pte w = d.pte w

/-- The panics of `copyuvm`. -/
def Panic.Copy (e : Panic) : Prop := e = .pteShouldExist ∨ e = .pageNotPresent

theorem copyLoop_spec (hp : pgdir.Wf) (hwf : d.Wf) (hn : q + n ≤ nuser)
    (hnone : ∀ w, q ≤ w → w < nuser → d.pte w = none) (h : Owns K X s (d.pages + H)) :
    wp (copyLoop K pgdir n d (q * pgsize)) (fun r s' => Owns K X s' (r.1.pages + H) ∧ Copied q n d r ∧
      Costs s s' (2 * n) (r.2 = true)) (fun _ => False)
      (fun e => e.Copy ∧ ∃ w, q ≤ w ∧ w < q + n ∧ pgdir.pte w = none) s := by
  induction n generalizing d q s with
  | zero =>
    refine ⟨h, ⟨hwf, .refl _ d, fun _ w hlo hhi => ?_, fun _ _ _ => rfl⟩, (Costs.refl s).weaken (Nat.zero_le _) fun _ => rfl⟩
    omega
  | succ n ih =>
    have huser : q < nuser := by omega
    have hq : q * pgsize / pgsize = q := Nat.mul_div_cancel q (by decide)
    have hnext : q * pgsize + pgsize = (q + 1) * pgsize := (Nat.succ_mul q pgsize).symm
    rw [copyLoop, hq]
    cases ht : pgdir.table (q / 1024) with
    | none => exact ⟨Or.inl rfl, q, le_rfl, by omega, hp.table q ht⟩
    | some y =>
      cases he : pgdir.pte q with
      | none => exact ⟨Or.inr rfl, q, le_rfl, by omega, he⟩
      | some e =>
        obtain ⟨o, s1, hk, howns1, hcost1⟩ := kalloc_spec h
        refine wp_step hk ?_
        cases o with
        | none =>
          rw [held_none, zero_add] at howns1
          exact ⟨howns1, ⟨hwf, .refl _ d, nofun, nofun⟩, (hcost1.absurd nofun).weaken (by omega) id⟩
        | some mem =>
          have hhave : Owns K X s1 (d.pages + ({mem} + H)) := by
            refine howns1.congr ?_
            rw [held_some]
            abel
          obtain ⟨r, s2, hr, hwf2, hgrown2, hgood2, hbad2, hcost2⟩ := mapUser_spec (w := e.writable) (u := e.user) hwf huser
            (hnone q le_rfl huser) hhave
          have hmap : mappages d (q * pgsize) pgsize (mem * pgsize) e.writable e.user s1 = .ok r s2 := by
            rw [mappages_page huser]
            exact hr
          have hcost : Costs s s2 2 (r.2 = true) := hcost1.trans fun _ => hcost2
          refine wp_step hmap ?_
          cases hgood : r.2 with
          | false =>
            obtain ⟨howns2, -⟩ := hbad2 hgood
            obtain ⟨⟨⟩, s', hfree, howns, -⟩ := kfree_spec (x := mem) (H := r.1.pages + H) (howns2.congr (by abel))
            refine wp_step hfree ⟨howns, ⟨hwf2, hgrown2, nofun, nofun⟩, ?_⟩
            exact (hcost.absurd (by rw [hgood]; exact nofun)).weaken (by omega) id
          | true =>
            obtain ⟨howns2, hpte⟩ := hgood2 hgood
            have hother : ∀ w, w ≠ q → r.1.pte w = d.pte w := fun w hw => by rw [hpte, update_of_ne hw]
            rw [hnext]
            refine wp_conseq (ih (q := q + 1) hwf2 (by omega)
              (fun w hlo hhi => (hother w (by omega)).trans (hnone w (by omega) hhi)) howns2) ?_ (fun _ hl => hl) ?_
            · rintro r' s' ⟨howns, hc, hcost'⟩
              refine ⟨howns, ⟨hc.wf, hgrown2.trans hc.grown, fun hgood' w hlo hhi => ?_, fun hgood' w hw => ?_⟩, ?_⟩
              · by_cases hw : w = q
                · rw [hw, hc.other hgood' q (by omega), hpte, update_self]
                  rfl
                · exact hc.present hgood' w (by omega) (by omega)
              · rw [hc.other hgood' w (by omega), hother w (by omega)]
              · exact (hcost.trans fun _ => hcost').weaken (by omega) id
            · rintro p ⟨hcopy, w, hlo, hhi, hw⟩
              exact ⟨hcopy, w, by omega, by omega, hw⟩

/-- **`copyuvm` returns a directory with the pages of `[0, sz)`, or has kept nothing.**  It panics only if one of these is
not present. -/
theorem copyuvm_spec {sz : ℕ} (hp : pgdir.Wf) (hsz : sz ≤ kernbase) (h : Owns K X s H) :
    wp (copyuvm K pgdir sz) (fun r s' => (r = none → Owns K X s' H) ∧
      (∀ d, r = some d → Owns K X s' (d.pages + H) ∧ d.Wf ∧ d.Dev ∧ Mapped d sz) ∧
      Costs s s' (131 + 2 * npages sz) (r.isSome = true)) (fun _ => False)
      (fun e => e.Copy ∧ ∃ w < npages sz, pgdir.pte w = none) s := by
  obtain ⟨o, s1, hk, hnone1, hsome1, hcost1⟩ := setupkvm_spec h
  refine wp_step hk ?_
  cases o with
  | none => exact ⟨fun _ => hnone1 rfl, nofun, (hcost1.absurd nofun).weaken (by omega) id⟩
  | some d =>
    obtain ⟨howns1, hfresh⟩ := hsome1 d rfl
    refine wp_bind.2 (wp_conseq (copyLoop_spec (n := npages sz) (q := 0) hp hfresh.wf
      ((Nat.zero_add _).trans_le (npages_le_nuser hsz)) (fun w _ hw => hfresh.none w hw) howns1) ?_ (fun _ hl => hl) ?_)
    · rintro r s2 ⟨howns2, hc, hcost2⟩
      have hcost : Costs s s2 (131 + 2 * npages sz) (r.2 = true) := hcost1.trans fun _ => hcost2
      cases hgood : r.2 with
      | false =>
        obtain ⟨⟨⟩, s', hfree, howns, -⟩ := freevm_spec hc.wf howns2
        exact wp_step hfree ⟨fun _ => howns, nofun, hcost.absurd (by rw [hgood]; exact nofun)⟩
      | true =>
        refine ⟨nofun, ?_, hcost.weaken le_rfl fun _ => rfl⟩
        rintro d' ⟨⟩
        refine ⟨howns2, hc.wf, hfresh.dev.grown hc.grown, fun w hw => ?_, fun w hlo hhi => ?_⟩
        · exact hc.present hgood w (Nat.zero_le w) (by omega)
        · rw [hc.other hgood w (by omega)]
          exact hfresh.none w hhi
    · rintro e ⟨hcopy, w, -, hw, hpte⟩
      exact ⟨hcopy, w, by omega, hpte⟩

end OsLab.Xv6.Vm
