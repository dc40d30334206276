import OsLab.Xv6.VmBuild

/-!
# `exec` builds a new directory

* `loadSegments_spec`: the pages of the program.
* `setupStack_spec`: for arguments of less than 32 MB the stack is written to pages of the new directory only.
* `execNew_spec`: `exec` returns a directory in which all pages up to the size are mapped, or has kept nothing.
-/

namespace OsLab.Xv6.Vm

open Exec Space

variable {K : Kernel} {X H : Multiset Page} {s s' : Kmem} {d d' : Space} {n sz va len v : ℕ} {word : BitVec 32} {img : Image}

/-! ## The program -/

theorem Mapped.table_ne (hm : Mapped d sz) (hwf : d.Wf) {w : ℕ} (hw : w < npages sz) : d.table (w / 1024) ≠ none := by
  intro ht
  have hpresent := hm.present w hw
  rw [hwf.table w ht] at hpresent
  cases hpresent

theorem loadLoop_spec (reads : ℕ → Bool) (hwf : d.Wf) (hm : Mapped d sz) (hv : v + n ≤ npages sz) :
    Ok (loadLoop d reads n v) (fun _ s' => s' = s) s := by
  induction n generalizing v with
  | zero => exact ⟨true, s, rfl, rfl⟩
  | succ n ih =>
    obtain ⟨x, hx⟩ := Option.ne_none_iff_exists'.1 (hm.table_ne hwf (w := v) (by omega))
    obtain ⟨e, he⟩ := Option.isSome_iff_exists.1 (hm.present v (by omega))
    rw [loadLoop, hx, he]
    cases hread : reads v with
    | false => exact ⟨false, s, rfl, rfl⟩
    | true => exact ih (by omega)

/-- What the loop through the program headers leaves. -/
structure Loaded (r : Space × Option ℕ) : Prop where
  wf : r.1.Wf
  dev : r.1.Dev
  mapped : ∀ sz, r.2 = some sz → sz < kernbase ∧ Mapped r.1 sz

/-- A segment lies below the size that `allocuvm` returns for it. -/
theorem segment_le {vaddr memsz filesz : BitVec 32} (hmem : ¬ memsz < filesz) (hwrap : ¬ vaddr + memsz < vaddr)
    (halign : vaddr.toNat % pgsize = 0) (hle : (vaddr + memsz).toNat ≤ sz) :
    vaddr.toNat / pgsize + (filesz.toNat + pgsize - 1) / pgsize ≤ npages sz := by
  have hfile : filesz.toNat ≤ memsz.toNat := Nat.le_of_not_lt hmem
  have hlt : ¬ (vaddr + memsz).toNat < vaddr.toNat := hwrap
  rw [BitVec.toNat_add] at hlt hle
  unfold npages pgsize at *
  omega

theorem loadSegments_spec {l : List (Option Ph)} (hwf : d.Wf) (hdev : d.Dev) (hsz : sz < kernbase) (hm : Mapped d sz)
    (h : Owns K X s (d.pages + H)) :
    Ok (loadSegments K l d sz) (fun r s' => Owns K X s' (r.1.pages + H) ∧ Loaded r) s := by
  induction l generalizing d sz s with
  | nil =>
    refine ⟨(d, some sz), s, rfl, h, hwf, hdev, ?_⟩
    rintro _ ⟨⟩
    exact ⟨hsz, hm⟩
  | cons o l ih =>
    have hstop : ∀ {d : Space} {s : Kmem}, d.Wf → d.Dev → Owns K X s (d.pages + H) →
        Ok (pure (d, none) : VM (Space × Option ℕ)) (fun r s' => Owns K X s' (r.1.pages + H) ∧ Loaded r) s :=
      fun hwf hdev h => ⟨_, _, rfl, h, hwf, hdev, nofun⟩
    cases o with
    | none => exact hstop hwf hdev h
    | some ph =>
      rw [loadSegments]
      by_cases hload : ph.load = false
      · rw [if_pos hload]
        exact ih hwf hdev hsz hm h
      rw [if_neg hload]
      by_cases hmem : ph.memsz < ph.filesz
      · rw [if_pos hmem]
        exact hstop hwf hdev h
      rw [if_neg hmem]
      by_cases hwrap : ph.vaddr + ph.memsz < ph.vaddr
      · rw [if_pos hwrap]
        exact hstop hwf hdev h
      rw [if_neg hwrap]
      obtain ⟨r, s1, hr, howns, hres, -⟩ := allocuvm_spec (ph.vaddr + ph.memsz).toNat hwf hm.above h
      have hdev' : r.1.Dev := hdev.grown hres.grown
      refine Ok.step hr ?_
      by_cases hzero : r.2 = 0
      · rw [if_pos hzero]
        exact hstop hres.wf hdev' howns
      rw [if_neg hzero]
      by_cases halign : ph.vaddr.toNat % pgsize ≠ 0
      · rw [if_pos halign]
        exact hstop hres.wf hdev' howns
      rw [if_neg halign]
      obtain ⟨hsize, hnew⟩ := hres.size hzero
      have hm' : Mapped r.1 r.2 := by
        have hmapped := hres.mapped hm
        rw [if_neg hzero] at hmapped
        exact hmapped
      have hle := segment_le hmem hwrap (Decidable.not_not.1 halign) (hsize ▸ le_max_right sz _)
      obtain ⟨ok, s2, hok, rfl⟩ := loadLoop_spec (s := s1) ph.reads hres.wf hm' hle
      refine Ok.step hok ?_
      cases ok with
      | false => exact hstop hres.wf hdev' howns
      | true => exact ih hres.wf hdev' (hsize ▸ max_lt hsz hnew) hm' howns

theorem clearpteu_spec (hwf : d.Wf) (hdev : d.Dev) (hm : Mapped d sz) (hsz : sz < kernbase) (hv : v < npages sz) :
    Ok (clearpteu d v) (fun d' s' => s' = s ∧ d'.pages = d.pages ∧ d'.table = d.table ∧ d'.Wf ∧ d'.Dev ∧ Mapped d' sz) s := by
  obtain ⟨x, hx⟩ := Option.ne_none_iff_exists'.1 (hm.table_ne hwf hv)
  obtain ⟨e, he⟩ := Option.isSome_iff_exists.1 (hm.present v hv)
  have huser : v < nuser := hv.trans_le (npages_le_nuser hsz.le)
  refine ⟨d.setPte v (some { e with user := false }), s, ?_, rfl, ?_, rfl, ?_, hdev, fun w hw => ?_, fun w hlo hhi => ?_⟩
  · rw [clearpteu, hx, he]
    rfl
  · have hpages := setPte_pages (d := d) huser (some { e with user := false })
    rw [he] at hpages
    exact add_right_cancel hpages
  · exact hwf.setPte _ (fun _ => hm.table_ne hwf hv) fun p hp _ => by rw [← Option.some.inj hp]
  · rw [setPte_pte]
    split
    · rfl
    · exact hm.present w hw
  · rw [setPte_pte, if_neg (by omega)]
    exact hm.above w hlo hhi

/-! ## The stack -/

/-- Where there is a page table, `uva2ka` reads nothing from address 0. -/
theorem uva2ka_ne_null (h : d.table (v / 1024) ≠ none) : uva2ka d v ≠ .null := by
  obtain ⟨x, hx⟩ := Option.ne_none_iff_exists'.1 h
  rw [uva2ka, hx]
  cases d.pte v with
  | none => exact nofun
  | some e =>
    show (if e.user then Ka.page e.page else Ka.no) ≠ _
    split <;> exact nofun

theorem uva2ka_dev (hwf : d.Wf) (hdev : d.Dev) (hlo : 1040384 ≤ v) (hhi : v < 1048576) : uva2ka d v = .no := by
  obtain ⟨x, hx⟩ := Option.ne_none_iff_exists'.1 (hdev (v / 1024) (by omega) (by omega))
  rw [uva2ka, hx]
  cases hp : d.pte v with
  | none => rfl
  | some e =>
    have hnuser : nuser ≤ v := (by decide : nuser ≤ 1040384).trans hlo
    show (if e.user then Ka.page e.page else Ka.no) = _
    rw [hwf.kernel v e hnuser hp]
    rfl

/-- In pages that are mapped. -/
theorem copyoutLoop_mapped (hwf : d.Wf) (hm : Mapped d sz) (hva : len = 0 ∨ va + len ≤ sz) :
    Ok (copyoutLoop d word n va len) (fun _ s' => s' = s) s := by
  induction n generalizing va len with
  | zero => exact ⟨true, s, rfl, rfl⟩
  | succ n ih =>
    rw [copyoutLoop]
    by_cases hlen : len = 0
    · rw [if_pos hlen]
      exact ⟨true, s, rfl, rfl⟩
    rw [if_neg hlen]
    have hpage : va / pgsize < npages sz := by
      rw [lt_npages]
      have hle : va / pgsize * pgsize ≤ va := Nat.div_mul_le_self va pgsize
      omega
    have hka := uva2ka_ne_null (hm.table_ne hwf hpage)
    cases h : uva2ka d (va / pgsize) with
    | no => exact ⟨false, s, rfl, rfl⟩
    | null => exact absurd h hka
    | page x =>
      refine ih ?_
      unfold pgrounddown pgsize
      omega

theorem copyout_mapped (word : BitVec 32) (hwf : d.Wf) (hm : Mapped d sz) (hva : va + len ≤ sz) :
    Ok (copyout d word va len) (fun _ s' => s' = s) s := copyoutLoop_mapped hwf hm (Or.inr hva)

/-- Among the devices nothing is copied. -/
theorem copyout_dev (hwf : d.Wf) (hdev : d.Dev) (hlo : devspace ≤ va) (hhi : va < 2 ^ 32) (hlen : 0 < len) :
    copyout d word va len s = .ok false s := by
  obtain ⟨n, rfl⟩ := Nat.exists_eq_add_of_lt hlen
  have hka : uva2ka d (va / pgsize) = .no := uva2ka_dev hwf hdev
    ((Nat.le_div_iff_mul_le (by decide)).2 hlo) (Nat.div_lt_of_lt_mul hhi)
  rw [copyout, copyoutLoop, hka]
  rfl

/-- The stack pointer after `k` bytes have been pushed, if they are no more than 32 MB. -/
theorem sub_sp (sp : ℕ) {k : ℕ} (hk : k ≤ 2 ^ 25) :
    (sp + 2 ^ 32 - k) % 2 ^ 32 + k ≤ sp ∨ devspace ≤ (sp + 2 ^ 32 - k) % 2 ^ 32 ∧ (sp + 2 ^ 32 - k) % 2 ^ 32 < 2 ^ 32 := by
  unfold devspace
  omega

theorem sub_sp_round (sp : ℕ) {k : ℕ} (hk : k ≤ 2 ^ 25) :
    (sp + 2 ^ 32 - k) % 2 ^ 32 / 4 * 4 + k ≤ sp ∨
      devspace ≤ (sp + 2 ^ 32 - k) % 2 ^ 32 / 4 * 4 ∧ (sp + 2 ^ 32 - k) % 2 ^ 32 / 4 * 4 < 2 ^ 32 := by
  have hsub := sub_sp sp hk
  unfold devspace at hsub ⊢
  omega

/-- What is pushed is written to pages of the new directory, or not at all. -/
theorem copyout_sp (word : BitVec 32) {sp k : ℕ} (hwf : d.Wf) (hdev : d.Dev) (hm : Mapped d sz) (hsp : sp ≤ sz)
    (hva : va + k ≤ sp ∨ devspace ≤ va ∧ va < 2 ^ 32) (hk : 0 < k) :
    Ok (copyout d word va k) (fun r s' => s' = s ∧ (r = true → va ≤ sp)) s := by
  rcases hva with hle | ⟨hlo, hhi⟩
  · obtain ⟨r, s', hr, hs⟩ := copyout_mapped (s := s) word hwf hm (hle.trans hsp)
    exact ⟨r, s', hr, hs, fun _ => by omega⟩
  · exact ⟨false, s, copyout_dev hwf hdev hlo hhi hk, rfl, nofun⟩

theorem pushArgs_spec (word : BitVec 32) {l : List ℕ} {argc sp : ℕ} (hwf : d.Wf) (hdev : d.Dev) (hm : Mapped d sz)
    (hsp : sp ≤ sz) (hl : ∀ len ∈ l, len < 2 ^ 25) (hargc : argc ≤ maxarg) :
    Ok (pushArgs d word l argc sp) (fun r s' => s' = s ∧ ∀ sp', r = some sp' → sp' ≤ sz ∧ argc + l.length ≤ maxarg) s := by
  induction l generalizing argc sp with
  | nil =>
    refine ⟨some sp, s, rfl, rfl, ?_⟩
    rintro _ ⟨⟩
    exact ⟨hsp, hargc⟩
  | cons len l ih =>
    rw [pushArgs]
    by_cases hmax : argc ≥ maxarg
    · rw [if_pos hmax]
      exact ⟨none, s, rfl, rfl, nofun⟩
    rw [if_neg hmax]
    have hva := sub_sp_round sp (hl len List.mem_cons_self)
    obtain ⟨ok, s', hok, rfl, hle⟩ := copyout_sp (s := s) word hwf hdev hm hsp hva (Nat.succ_pos len)
    refine Ok.step hok ?_
    cases ok with
    | false => exact ⟨none, s', rfl, rfl, nofun⟩
    | true =>
      refine (ih ((hle rfl).trans hsp) (fun x hx => hl x (List.mem_cons_of_mem _ hx)) (by omega)).mono ?_
      rintro r s2 ⟨rfl, hr⟩
      refine ⟨rfl, fun sp' h => ⟨(hr sp' h).1, ?_⟩⟩
      have hlen := (hr sp' h).2
      rw [List.length_cons]
      omega

/-- **For arguments of less than 32 MB the stack is written to pages of the new directory only.** -/
theorem setupStack_spec (hwf : d.Wf) (hdev : d.Dev) (hm : Mapped d sz)
    (hargs : ∀ len ∈ img.args, len < 2 ^ 25) : Ok (setupStack d img sz) (fun _ s' => s' = s) s := by
  obtain ⟨r, s', hr, rfl, hsp⟩ := pushArgs_spec (s := s) img.word hwf hdev hm le_rfl hargs (Nat.zero_le maxarg)
  refine Ok.step hr ?_
  cases r with
  | none => exact ⟨false, s', rfl, rfl⟩
  | some sp =>
    obtain ⟨hle, hlen⟩ := hsp sp rfl
    have hk : (3 + img.args.length + 1) * 4 ≤ 2 ^ 25 := by
      have hmax : 0 + img.args.length ≤ 32 := hlen
      omega
    refine (copyout_sp img.word hwf hdev hm hle (sub_sp sp hk) (by omega)).mono ?_
    rintro _ _ ⟨hs, -⟩
    exact hs

/-! ## `exec` -/

/-- A directory that a process can run with. -/
structure Runs (d : Space) (sz : ℕ) : Prop where
  wf : d.Wf
  dev : d.Dev
  size : 0 < sz ∧ sz < kernbase
  mapped : Mapped d sz

/-- **`exec` returns a directory in which all pages up to the size are mapped, or has kept nothing.** -/
theorem execNew_spec (hargs : ∀ len ∈ img.args, len < 2 ^ 25) (h : Owns K X s H) :
    Ok (execNew K img) (fun r s' => (r = none → Owns K X s' H) ∧
      ∀ p, r = some p → Owns K X s' (p.1.pages + H) ∧ Runs p.1 p.2) s := by
  have hfail : ∀ {d : Space} {s : Kmem}, d.Wf → Owns K X s (d.pages + H) →
      Ok (freevm K d >>= fun _ => pure none : VM (Option (Space × ℕ))) (fun r s' => (r = none → Owns K X s' H) ∧
        ∀ p, r = some p → Owns K X s' (p.1.pages + H) ∧ Runs p.1 p.2) s := by
    intro d s hwf h
    obtain ⟨⟨⟩, s', hfree, howns, -⟩ := freevm_spec hwf h
    exact ⟨none, s', bind_ok hfree, fun _ => howns, nofun⟩
  rw [execNew]
  by_cases helf : img.elf = false
  · rw [if_pos helf]
    exact ⟨none, s, rfl, fun _ => h, nofun⟩
  rw [if_neg helf]
  obtain ⟨o, s1, hk, hnone1, hsome1, -⟩ := setupkvm_spec h
  refine Ok.step hk ?_
  cases o with
  | none => exact ⟨none, s1, rfl, fun _ => hnone1 rfl, nofun⟩
  | some d =>
    obtain ⟨howns1, hfresh⟩ := hsome1 d rfl
    have hzero : Mapped d 0 := ⟨fun w hw => absurd hw (Nat.not_lt_zero w), fun w _ hw => hfresh.none w hw⟩
    obtain ⟨r, s2, hr, howns2, hload⟩ := loadSegments_spec (l := img.ph) hfresh.wf hfresh.dev (by decide) hzero howns1
    refine Ok.step hr ?_
    cases hsz : r.2 with
    | none => exact hfail hload.wf howns2
    | some sz =>
      obtain ⟨hlt, hm⟩ := hload.mapped sz hsz
      have hround : npages (pgroundup sz) = npages sz := by unfold npages pgroundup pgsize; omega
      have habove : ∀ w, npages (pgroundup sz) ≤ w → w < nuser → r.1.pte w = none := by
        rw [hround]
        exact hm.above
      have hm' : Mapped r.1 (pgroundup sz) := ⟨by rw [hround]; exact hm.present, habove⟩
      obtain ⟨r', s3, hr', howns3, hres, -⟩ := allocuvm_spec (pgroundup sz + 2 * pgsize) hload.wf habove howns2
      have hdev' : r'.1.Dev := hload.dev.grown hres.grown
      refine Ok.step hr' ?_
      by_cases hbad : r'.2 = 0
      · rw [if_pos hbad]
        exact hfail hres.wf howns3
      rw [if_neg hbad]
      obtain ⟨hsize, hnew⟩ := hres.size hbad
      have hsize' : r'.2 = pgroundup sz + 2 * pgsize := hsize.trans (max_eq_right (Nat.le_add_right ..))
      have hmapped : Mapped r'.1 r'.2 := by
        have hmapped := hres.mapped hm'
        rw [if_neg hbad] at hmapped
        exact hmapped
      have hlt' : r'.2 < kernbase := hsize' ▸ hnew
      have hguard : r'.2 / pgsize - 2 < npages r'.2 := by
        unfold npages pgsize
        omega
      obtain ⟨d', s4, hd', rfl, hpages, -, hwf', hdev'', hmapped'⟩ := clearpteu_spec (s := s3) hres.wf hdev' hmapped hlt' hguard
      refine Ok.step hd' ?_
      have howns4 : Owns K X s4 (d'.pages + H) := howns3.congr (by rw [hpages])
      obtain ⟨ok, s5, hok, rfl⟩ := setupStack_spec (s := s4) hwf' hdev'' hmapped' hargs
      refine Ok.step hok ?_
      cases ok with
      | false => exact hfail hwf' howns4
      | true =>
        refine ⟨some (d', r'.2), s5, rfl, nofun, ?_⟩
        rintro _ ⟨⟩
        exact ⟨howns4, hwf', hdev'', ⟨Nat.pos_of_ne_zero hbad, hlt'⟩, hmapped'⟩

end OsLab.Xv6.Vm
