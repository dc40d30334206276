import OsLab.Xv6.MemCalls

/-!
# Pages in every run

* `page_ownership`: in every run in which no string of 32 MB or more is passed to `exec`, each page is in exactly one place.
* `file_refs_counted`: the counts of files are the numbers of their descriptors.
* `memory_mapped`: in every such run in which no process gives up all its memory, all pages of a process up to its size are
  mapped, and `copyuvm` does not panic.
* `exec_leaks`, `sbrk_unmaps`: what happens otherwise.
-/

namespace OsLab.Xv6.Memory

open Vm Files Exec

variable {K : Kernel} {X H : Multiset Page} {s : State} {m m' : Kmem} {p q : Slot} {n sz : ℕ} {x : Page}
  {r : Space × List Page × Page × Space} {d : Space}

/-! ## Boot -/

theorem freerange_spec (h : Owns K X m (↑(List.range' x n) + H)) :
    Ok (freerange K n x) (fun _ m' => Owns K X m' H ∧ m'.free.length = m.free.length + n ∧ m'.short = m.short) m := by
  induction n generalizing m x with
  | zero => exact ⟨(), m, rfl, h.congr (zero_add H), rfl, rfl⟩
  | succ n ih =>
    have hhave : Owns K X m ({x} + (↑(List.range' (x + 1) n) + H)) := by
      refine h.congr ?_
      rw [List.range'_succ, ← Multiset.cons_coe, ← Multiset.singleton_add, add_assoc]
    have hmem : x ∈ X := by
      rw [← hhave.total]
      exact Multiset.mem_add.2 (Or.inr (Multiset.mem_add.2 (Or.inl (Multiset.mem_singleton_self x))))
    have hfree := kfree_valid (s := m) (hhave.valid x hmem)
    obtain ⟨⟨⟩, m1, hrun, howns, -⟩ := kfree_spec hhave
    have hm1 : m1 = { m with free := x :: m.free } := by
      rw [hfree] at hrun
      injection hrun with _ heq
      exact heq.symm
    refine Ok.step hrun ((ih howns).mono ?_)
    rintro _ m2 ⟨howns2, hlen, hshort⟩
    refine ⟨howns2, ?_, ?_⟩
    · rw [hlen, hm1]
      show m.free.length + 1 + n = _
      omega
    · rw [hshort, hm1]

theorem startothers_spec (h : Owns K X m H) (hplenty : m.Plenty n) {k : ℕ} (hk : k ≤ n) :
    Ok (startothers k) (fun l m' => Owns K X m' (↑l + H) ∧ m'.Plenty (n - k)) m := by
  induction k generalizing m n H with
  | zero => exact ⟨[], m, rfl, h.congr (zero_add H).symm, hplenty⟩
  | succ k ih =>
    obtain ⟨o, m1, hkalloc, howns, hcost⟩ := kalloc_spec h
    obtain ⟨hsome, hplenty1⟩ := hcost (n - 1) (hplenty.mono (by omega))
    obtain ⟨x, rfl⟩ := Option.isSome_iff_exists.1 hsome
    obtain ⟨l, m2, hrun, howns2, hplenty2⟩ := ih howns hplenty1 (by omega)
    refine ⟨x :: l, m2, ?_, howns2.congr ?_, hplenty2.mono (by omega)⟩
    · exact (bind_ok hkalloc).trans (bind_ok hrun)
    · rw [← Multiset.cons_coe, ← Multiset.singleton_add, held_some]
      abel

/-- What is there when `main` has ended. -/
structure Booted (K : Kernel) (r : Space × List Page × Page × Space) (m : Kmem) : Prop where
  owns : Owns K (pool K) m ({r.2.2.1} + r.2.2.2.pages + (r.1.pages + ↑r.2.1))
  runs : Runs r.2.2.2 pgsize
  plenty : m.Plenty 56000

/-- The pages that are freed in `main`. -/
theorem pool_eq : pool K = ↑(List.range' K.first (1024 - K.first)) + ↑(List.range' 1024 (phystop / pgsize - 1024)) := by
  have hle : K.first ≤ 1024 := K.first_le.trans (by decide)
  have hsplit : List.range' K.first (1024 - K.first) ++ List.range' (K.first + (1024 - K.first)) 56320 =
      List.range' K.first (1024 - K.first + 56320) := List.range'_append_1 ..
  rw [Nat.add_sub_cancel' hle] at hsplit
  rw [pool, Multiset.coe_add]
  have hlast : phystop / pgsize - 1024 = 56320 := rfl
  rw [hlast, hsplit, show 1024 - K.first + 56320 = 57344 - K.first from by omega]

/-- **There is enough memory for `main`.** -/
theorem bootPages_spec {ncpu : ℕ} (hncpu : ncpu ≤ 8) : Ok (bootPages K ncpu) (Booted K) nothing := by
  have h0 : Owns K (pool K) nothing (↑(List.range' K.first (1024 - K.first)) + ↑(List.range' 1024 (phystop / pgsize - 1024))) :=
    ⟨(zero_add _).trans pool_eq.symm, rfl, fun x hx => mem_pool.1 hx⟩
  obtain ⟨⟨⟩, m1, hrun1, howns1, hlen1, hshort1⟩ := freerange_spec h0
  have hplenty1 : m1.Plenty (381 + 131) := by
    refine ⟨fun k => by rw [hshort1]; rfl, ?_⟩
    have hle : K.first ≤ 512 := K.first_le
    omega
  obtain ⟨o2, m2, hrun2, -, hsome2, hcost2⟩ := setupkvm_spec howns1
  obtain ⟨hsome, hplenty2⟩ := hcost2 381 hplenty1
  obtain ⟨kpgdir, rfl⟩ := Option.isSome_iff_exists.1 hsome
  obtain ⟨howns2, -⟩ := hsome2 kpgdir rfl
  obtain ⟨l, m3, hrun3, howns3, hplenty3⟩ := startothers_spec howns2 hplenty2 (k := ncpu - 1) (by omega)
  have h3 : Owns K (pool K) m3 (↑(List.range' 1024 (phystop / pgsize - 1024)) + (kpgdir.pages + ↑l)) :=
    howns3.congr (by abel)
  obtain ⟨⟨⟩, m4, hrun4, howns4, hlen4, hshort4⟩ := freerange_spec h3
  have hplenty4 : m4.Plenty (56000 + 1 + 1 + 131 + 1) := by
    refine ⟨fun k => by rw [hshort4]; exact hplenty3.1 k, ?_⟩
    rw [hlen4]
    show 56134 ≤ m3.free.length + 56320
    omega
  obtain ⟨o5, m5, hrun5, howns5, hcost5⟩ := kalloc_spec howns4
  obtain ⟨hsome, hplenty5⟩ := hcost5 _ hplenty4
  obtain ⟨kstack, rfl⟩ := Option.isSome_iff_exists.1 hsome
  obtain ⟨o6, m6, hrun6, -, hsome6, hcost6⟩ := setupkvm_spec howns5
  obtain ⟨hsome, hplenty6⟩ := hcost6 _ hplenty5
  obtain ⟨pgdir, rfl⟩ := Option.isSome_iff_exists.1 hsome
  obtain ⟨howns6, hfresh⟩ := hsome6 pgdir rfl
  obtain ⟨o7, m7, hrun7, howns7, hcost7⟩ := kalloc_spec howns6
  obtain ⟨hsome, hplenty7⟩ := hcost7 _ hplenty6
  obtain ⟨mem, rfl⟩ := Option.isSome_iff_exists.1 hsome
  have h7 : Owns K (pool K) m7 (pgdir.pages + ({mem} + ({kstack} + (kpgdir.pages + ↑l)))) := by
    refine howns7.congr ?_
    rw [held_some, held_some]
    abel
  have huser : 0 < nuser := by decide
  obtain ⟨r, m8, hrun8, hwf, hgrown, hgood, -, hcost8⟩ := mapUser_spec (w := true) (u := true) hfresh.wf huser
    (hfresh.none 0 huser) h7
  obtain ⟨hr, hplenty8⟩ := hcost8 _ hplenty7
  obtain ⟨howns8, hpte⟩ := hgood hr
  have hmap : mappages pgdir 0 pgsize (mem * pgsize) true true m7 = .ok r m8 := by
    have hpage : mappages pgdir (0 * pgsize) pgsize (mem * pgsize) true true = mapLoop true true 1 pgdir 0 mem :=
      mappages_page huser
    rw [Nat.zero_mul] at hpage
    rw [hpage]
    exact hrun8
  refine ⟨(kpgdir, l, kstack, r.1), m8, ?_, howns8.congr (by abel), ⟨hwf, hfresh.dev.grown hgrown, by decide, ?_⟩, hplenty8⟩
  · refine (bind_ok hrun1).trans ((bind_ok hrun2).trans ((bind_ok hrun3).trans ((bind_ok hrun4).trans ?_)))
    exact (bind_ok hrun5).trans ((bind_ok hrun6).trans ((bind_ok hrun7).trans (bind_ok hmap)))
  · have hone : npages pgsize = 1 := rfl
    refine ⟨fun w hw => ?_, fun w hlo hhi => ?_⟩
    · rw [hpte, show w = 0 from by omega]
      rfl
    · rw [hpte, Function.update_of_ne (by omega)]
      exact hfresh.none w hhi

theorem booted_inv (h : Booted K r m) : Inv K (booted m r) 0 ∧ (booted m r).Full := by
  have hother : ∀ q ≠ 0, (booted m r).proc q = ⟨.unused, none, none, 0, none⟩ := fun q hq => if_neg hq
  have hbut : (booted m r).procPagesBut 0 = 0 := by
    rw [State.procPagesBut]
    refine Finset.sum_eq_zero fun q hq => ?_
    rw [hother q (Finset.ne_of_mem_erase hq)]
    rfl
  have hpipe : (booted m r).pipePages = 0 := holdings_eq_zero fun _ _ => rfl
  have hrest : (booted m r).rest = {r.2.2.1} + r.2.2.2.pages + (r.1.pages + ↑r.2.1) := by
    rw [State.rest_eq _ 0, State.restBut, hbut, hpipe, add_zero, add_zero]
    rfl
  have hrefs : (booted m r).files.refs = 0 := holdings_eq_zero fun _ _ => rfl
  refine ⟨⟨?_, fun q => ?_, fun f => ?_, fun _ _ => rfl, fun _ _ _ => rfl, ?_, fun _ _ h => by cases h⟩, fun q d hd => ?_⟩
  · rw [hrest]
    exact h.owns
  · by_cases hq : q = 0
    · subst hq
      exact ⟨fun h => (by cases h), fun h => (by cases h), fun _ => ⟨_, _, rfl, rfl, dir_of_runs h.runs⟩⟩
    · rw [hother q hq]
      exact ⟨fun _ => ⟨rfl, rfl⟩, fun h => (by cases h), fun hst => by rcases hst with hst | hst <;> cases hst⟩
  · rw [hrefs]
    rfl
  · constructor <;> intros <;> contradiction
  · by_cases hq : q = 0
    · subst hq
      cases hd
      exact h.runs.mapped.present
    · rw [hother q hq] at hd
      cases hd

theorem Start.inv (h : Start K s) : Inv K s 0 ∧ s.Full := by
  obtain ⟨ncpu, hncpu, r, m, hrun, rfl⟩ := h
  obtain ⟨r', m', hrun', hbooted⟩ := bootPages_spec (K := K) hncpu
  rw [hrun] at hrun'
  cases hrun'
  exact booted_inv hbooted

/-- Some kernel. -/
def kernel : Kernel := ⟨0x108000, 0x116, by decide, by decide, by decide, by decide, by decide⟩

theorem exists_booted (K : Kernel) : ∃ r m, Booted K r m ∧ Start K (booted m r) := by
  obtain ⟨r, m, hrun, hbooted⟩ := bootPages_spec (K := K) (by decide : 1 ≤ 8)
  exact ⟨r, m, hbooted, 1, by decide, r, m, hrun, rfl⟩

theorem Booted.restart (h : Booted K r m) :
    Booted K r { m with short := fun _ => false } :=
  ⟨⟨h.owns.total, h.owns.junk, h.owns.valid⟩, h.runs, fun _ => rfl, h.plenty.2⟩

/-! ## Runs -/

theorem Inv.begin {F : Multiset FileId} (h : Inv K s F) (a : Event) : Inv K (s.begin a) F :=
  h.setMem ⟨h.owns.total, h.owns.junk, h.owns.valid⟩

theorem reach_inv (h : (system K).Reach (fun _ a => a.call.Short) s) : Inv K s 0 := by
  refine h.invariant (I := fun s => Inv K s 0) (fun s hs => hs.inv.1) ?_
  rintro s a s' hinv hshort ⟨henabled, hrun⟩
  have hspec := perform_spec (hinv.begin a) henabled.1 hshort
  rw [wp, hrun] at hspec
  exact hspec.1

theorem reach_full (h : (system K).Reach (fun s a => a.call.Short ∧ s.NotAll a.proc a.call) s) : Inv K s 0 ∧ s.Full := by
  refine h.invariant (I := fun s => Inv K s 0 ∧ s.Full) (fun s hs => hs.inv) ?_
  rintro s a s' ⟨hinv, hfull⟩ ⟨hshort, hall⟩ ⟨henabled, hrun⟩
  have hspec := perform_spec (hinv.begin a) henabled.1 hshort
  rw [wp, hrun] at hspec
  exact ⟨hspec.1, hspec.2 (hfull.congr rfl) hall⟩

/-! ## Each page is in one place -/

/-- All places: the free list, the kernel since boot, the processes with their kernel stacks, directories, page tables and user
pages, and the pipes. -/
def State.owned (s : State) : Multiset Page := ↑s.mem.free + s.kernelPages + s.procPages + s.pipePages

/-- **Each page is in exactly one place**, in every run in which no string of 32 MB or more is passed to `exec`.  An entry of
the process table that is not in use has no pages, and a pipe is one that a process has open. -/
theorem page_ownership (h : (system K).Reach (fun _ a => a.call.Short) s) :
    (∀ x ∈ pool K, s.owned.count x = 1) ∧ (∀ x ∈ s.owned, x ∈ pool K) ∧
    (∀ p, (s.proc p).state = .unused → (s.proc p).pages = 0) ∧
    ∀ x e, s.pipe x = some e → ∃ p fd f w, (s.proc p).state ≠ .unused ∧ (s.proc p).state ≠ .zombie ∧
      s.files.ofile (p, fd) = some f ∧ s.kind f = some (.pipe x w) := by
  have hinv := reach_inv h
  have howned : s.owned = pool K := by
    rw [← hinv.owns.total, State.owned, State.rest]
    abel
  refine ⟨fun x hx => ?_, fun x hx => howned ▸ hx, fun p hp => ?_, fun x e he => ?_⟩
  · rw [howned]
    exact Multiset.count_eq_one_of_mem pool_nodup hx
  · obtain ⟨hk, hd⟩ := (hinv.sound p).unused hp
    rw [Proc.pages, hk, hd]
    rfl
  · obtain ⟨w, hw⟩ : ∃ w, e.side w = true := by
      rcases hinv.pipes.some x e he with hw | hw
      · exact ⟨true, hw⟩
      · exact ⟨false, hw⟩
    obtain ⟨f, hf⟩ := hinv.pipes.used x e w he hw
    have href : (s.files.file f).ref ≠ 0 := by
      intro hzero
      cases (hinv.unused f hzero).symm.trans hf
    have hmem : f ∈ s.files.refs := by
      rw [← Multiset.count_pos]
      have hcount := hinv.counted f
      rw [add_zero] at hcount
      omega
    rw [Table.refs, mem_holdings] at hmem
    obtain ⟨⟨q, fd⟩, -, hofile⟩ := hmem
    refine ⟨q, fd, f, w, fun hst => ?_, fun hst => ?_, hofile, hf⟩
    · cases (hinv.closed q (Or.inl hst) fd).symm.trans hofile
    · cases (hinv.closed q (Or.inr hst) fd).symm.trans hofile

theorem page_ownership_boot : ∃ s, Start kernel s ∧ ∀ x ∈ pool kernel, s.owned.count x = 1 := by
  obtain ⟨r, m, -, hstart⟩ := exists_booted kernel
  exact ⟨_, hstart, (page_ownership (.init hstart)).1⟩

/-- The word that names the page `x` as present and for the user. -/
def pteWord (x : ℕ) : BitVec 32 := BitVec.ofNat 32 (x * 4096 + 5)

theorem pteWord_spec {x : ℕ} (hx : x < 57344) :
    ((pteWord x).getLsbD 0 && (pteWord x).getLsbD 2) = true ∧ (pteWord x).toNat / pgsize = x := by
  have htoNat : (pteWord x).toNat = x * 4096 + 5 := by
    rw [pteWord, BitVec.toNat_ofNat]
    omega
  refine ⟨?_, ?_⟩
  · rw [Bool.and_eq_true]
    constructor
    · rw [BitVec.getLsbD, Nat.testBit_eq_decide_div_mod_eq, decide_eq_true_iff]
      omega
    · rw [BitVec.getLsbD, Nat.testBit_eq_decide_div_mod_eq, decide_eq_true_iff]
      omega
  · unfold pgsize
    omega

/-- The last page before the devices has no page table: `copyout` writes to the page that the word names, and fails at the
next one. -/
theorem copyout_wild {l : List Page} {len : ℕ} (hwf : d.Wf) (hdev : d.Dev) (hx : x < 57344)
    (hfree : m.free = x :: l) (hlen : pgsize < len) :
    copyout d (pteWord x) 0xFDFFF000 len m = .ok false { m with free := [x], junk := true } := by
  obtain ⟨hbits, hpage⟩ := pteWord_spec hx
  obtain ⟨k, rfl⟩ : ∃ k, len = k + 1 + 1 := ⟨len - 2, by unfold pgsize at hlen; omega⟩
  have hnull : uva2ka d (0xFDFFF000 / pgsize) = .null := by
    rw [uva2ka, show 0xFDFFF000 / pgsize / 1024 = 1015 from rfl, hwf.hole 1015 (by decide) (by decide)]
  have hclobber : clobber x m = .ok () { m with free := [x], junk := true } := by
    rw [clobber, if_pos (by rw [hfree]; exact List.mem_cons_self), hfree, List.idxOf_cons_self]
    rfl
  have hnext : uva2ka d (0xFE000000 / pgsize) = .no := uva2ka_dev hwf hdev (by decide) (by decide)
  have hlen' : ¬ k + 1 + 1 - (pgsize - 0xFDFFF000 % pgsize) = 0 := by
    omega
  rw [copyout, copyoutLoop, if_neg (Nat.succ_ne_zero _), hnull]
  dsimp only
  rw [if_neg (by rw [hbits]; decide), if_pos ⟨rfl, hlen.le⟩, hpage, bind_ok hclobber,
    show (pgrounddown 0xFDFFF000 + pgsize) % 2 ^ 32 = 0xFE000000 from rfl, copyoutLoop, if_neg hlen', hnext]
  rfl

/-- The string. -/
def longString : ℕ := 2 ^ 25 + 12287

/-- The program that calls `exec` has the word at address 0. -/
def wildImage (x : Page) : Image := ⟨true, [], [longString], pteWord x⟩

/-- **`exec` with a string of more than 32 MB loses pages.** -/
theorem execNew_wild (h : Owns K X m H) (hX : ∀ x ∈ X, x < 57344) (hplenty : m.Plenty 200) :
    ∃ x y l P, y ∈ l ∧ X = x ::ₘ (↑l + P + H) ∧ ∃ m', execNew K (wildImage x) m = .ok none m' ∧ (↑m'.free : Multiset Page) = x ::ₘ P := by
  obtain ⟨o, m1, hrun1, -, hsome1, hcost1⟩ := setupkvm_spec h
  obtain ⟨hsome, hplenty1⟩ := hcost1 69 hplenty
  obtain ⟨d, rfl⟩ := Option.isSome_iff_exists.1 hsome
  obtain ⟨howns1, hfresh⟩ := hsome1 d rfl
  have hzero : Mapped d 0 := ⟨fun w hw => absurd hw (Nat.not_lt_zero w), fun w _ hw => hfresh.none w hw⟩
  obtain ⟨r, m2, hrun2, howns2, hres, hcost2⟩ := allocuvm_spec 8192 hfresh.wf hzero.above howns1
  obtain ⟨hsize, hplenty2⟩ := hcost2 60 (hplenty1.mono (by decide))
  have hsize' : r.2 = 8192 := hsize (by decide)
  have hdev : r.1.Dev := hfresh.dev.grown hres.grown
  have hmapped : Mapped r.1 8192 := by
    have hm := hres.mapped hzero
    rw [hsize'] at hm
    exact hm
  obtain ⟨d', m3, hrun3, rfl, hpages, -, hwf', hdev', hmapped'⟩ := clearpteu_spec (s := m2) (v := 0) hres.wf hdev hmapped (by decide) (by decide)
  have howns3 : Owns K X m3 (d'.pages + H) := howns2.congr (by rw [hpages])
  obtain ⟨x, y, l, hfree⟩ : ∃ x y l, m3.free = x :: y :: l := by
    have hlen := hplenty2.2
    match hm : m3.free with
    | [] =>
      rw [hm] at hlen
      exact absurd hlen (by decide)
    | [_] =>
      rw [hm] at hlen
      exact absurd hlen (by show ¬ 60 ≤ 1; decide)
    | x :: y :: l => exact ⟨x, y, l, rfl⟩
  have hmem : ∀ z, z ∈ m3.free ∨ z ∈ d'.pages → z ∈ X := by
    intro z hz
    rw [← howns3.total]
    rcases hz with hz | hz
    · exact Multiset.mem_add.2 (Or.inl hz)
    · exact Multiset.mem_add.2 (Or.inr (Multiset.mem_add.2 (Or.inl hz)))
  have hx : x ∈ X := hmem x (Or.inl (by rw [hfree]; exact List.mem_cons_self))
  have hholds : Holds K ({x} + d'.pages) true { m3 with free := [x], junk := true } (d'.pages + 0) := by
    refine ⟨?_, rfl, fun z hz => ?_⟩
    · rw [add_zero]
      rfl
    · rcases Multiset.mem_add.1 hz with hz | hz
      · rw [Multiset.mem_singleton.1 hz]
        exact howns3.valid x hx
      · exact howns3.valid z (hmem z (Or.inr hz))
  obtain ⟨⟨⟩, m5, hfreevm, hholds', -⟩ := freevm_spec hwf' hholds
  have hcopy : copyout d' (pteWord x) 0xFDFFF000 (longString + 1) m3 = .ok false { m3 with free := [x], junk := true } :=
    copyout_wild hwf' hdev' (hX x hx) hfree (by decide)
  have hpush : pushArgs d' (pteWord x) [longString] 0 8192 m3 = .ok none { m3 with free := [x], junk := true } := by
    rw [pushArgs, if_neg (by decide), show (8192 + 2 ^ 32 - (longString + 1)) % 2 ^ 32 / 4 * 4 = 0xFDFFF000 from by decide, bind_ok hcopy]
    rfl
  have hstack : setupStack d' (wildImage x) 8192 m3 = .ok false { m3 with free := [x], junk := true } := bind_ok hpush
  refine ⟨x, y, y :: l, d'.pages, List.mem_cons_self, ?_, m5, ?_, ?_⟩
  · rw [← howns3.total, hfree, ← Multiset.cons_coe, Multiset.cons_add, add_assoc]
  · refine (bind_ok hrun1).trans ((bind_ok pure_apply).trans ?_)
    refine (bind_ok hrun2).trans ?_
    rw [hsize']
    refine (bind_ok hrun3).trans ((bind_ok hstack).trans ?_)
    exact bind_ok hfreevm
  · rw [← add_zero (m5.free : Multiset Page), hholds'.total, Multiset.singleton_add]

/-- How much memory the process asks for. -/
def growth : BitVec 32 := BitVec.ofNat 32 (2 ^ 25 + 2 ^ 14)

/-- The process has enough memory for the string. -/
theorem sbrk_long (h : Booted K r m) :
    ∃ d mem, perform K 0 (.sbrk growth) (booted m r) =
        .ok () (((booted m r).setMem mem).setProc 0 (((booted m r).proc 0).resize (d, 33574912))) ∧
      Inv K (((booted m r).setMem mem).setProc 0 (((booted m r).proc 0).resize (d, 33574912))) 0 ∧ mem.Plenty 200 := by
  have hinv := (booted_inv h).1
  have howns := hinv.owns_dir (p := 0) rfl rfl
  have hdir : Dir r.2.2.2 4096 := dir_of_runs h.runs
  obtain ⟨r', mem, hr, howns', hres, hcost⟩ := allocuvm_spec 33574912 hdir.wf hdir.above howns
  obtain ⟨hsize, hplenty⟩ := hcost 200 (h.plenty.mono (by decide))
  obtain ⟨d, k⟩ := r'
  obtain rfl : k = 33574912 := hsize (by decide)
  have hsz : ((booted m r).proc 0).sz = 4096 := rfl
  have hpgdir : ((booted m r).proc 0).pgdir = some r.2.2.2 := rfl
  have hr' : allocuvm K r.2.2.2 ((booted m r).proc 0).sz (BitVec.ofNat 32 ((booted m r).proc 0).sz + growth).toNat
      (booted m r).mem = .ok (d, 33574912) mem := by
    rw [hsz]
    exact hr
  have hpos : 0 < growth.toInt := by decide
  refine ⟨d, mem, bind_ok (growproc_grow hpgdir hpos hr'), ?_, hplenty⟩
  exact hinv.setDir rfl rfl howns' (hdir.resized hres)

/-- **A string of more than 32 MB loses pages.**  `exec` returns -1, and a page is on no list and belongs to nobody. -/
theorem exec_leaks : ∃ s, (system kernel).Reach (fun _ _ => True) s ∧ ∃ x ∈ pool kernel, x ∉ s.owned := by
  obtain ⟨r, m, hbooted, hstart⟩ := exists_booted kernel
  obtain ⟨d, mem, hrun, hinv, hplenty⟩ := sbrk_long hbooted.restart
  set s := (booted { m with short := fun _ => false } r).setMem mem |>.setProc 0
    (((booted { m with short := fun _ => false } r).proc 0).resize (d, 33574912)) with hs
  have hreach : (system kernel).Reach (fun _ _ => True) s := by
    refine .step (.init hstart) (a := ⟨0, .sbrk growth, fun _ => false⟩) trivial ⟨⟨rfl, nofun⟩, ?_⟩
    exact hrun
  have hproc : s.proc 0 = ((booted { m with short := fun _ => false } r).proc 0).resize (d, 33574912) := State.setProc_self _
  have hplenty' : Kmem.Plenty { s.mem with short := fun _ => false } 200 := ⟨fun _ => rfl, hplenty.2⟩
  have howns : Owns kernel (pool kernel) { s.mem with short := fun _ => false } s.rest :=
    ⟨hinv.owns.total, hinv.owns.junk, hinv.owns.valid⟩
  obtain ⟨x, y, l, P, hy, hpool, m', hexec, hfree⟩ := execNew_wild howns (fun z hz => (mem_pool.1 hz).2) hplenty'
  have hvm : vm (execNew kernel (wildImage x)) (s.setMem { s.mem with short := fun _ => false }) =
      .ok none ((s.setMem { s.mem with short := fun _ => false }).setMem m') := vm_ok hexec
  have hfail : exec kernel 0 (wildImage x) (s.setMem { s.mem with short := fun _ => false }) =
      .ok false ((s.setMem { s.mem with short := fun _ => false }).setMem m') := bind_ok hvm
  have hstep : (system kernel).step s ⟨0, .exec (wildImage x), fun _ => false⟩
      ((s.setMem { s.mem with short := fun _ => false }).setMem m') := by
    refine ⟨⟨by rw [hproc]; rfl, ?_⟩, bind_ok hfail⟩
    rintro img ⟨⟩ len hlen
    rw [List.mem_singleton.1 hlen]
    exact (by decide : longString < 33574912)
  have hnodup := pool_nodup (K := kernel)
  rw [hpool, Multiset.nodup_cons] at hnodup
  obtain ⟨hx, hrest⟩ := hnodup
  obtain ⟨hrest, -, hdisj⟩ := Multiset.nodup_add.1 hrest
  obtain ⟨-, -, hdisj'⟩ := Multiset.nodup_add.1 hrest
  refine ⟨_, hreach.step trivial hstep, y, ?_, fun hmem => ?_⟩
  · rw [hpool]
    exact Multiset.mem_cons_of_mem (Multiset.mem_add.2 (Or.inl (Multiset.mem_add.2 (Or.inl hy))))
  · have howned : State.owned ((s.setMem { s.mem with short := fun _ => false }).setMem m') = x ::ₘ P + s.rest := by
      rw [← hfree, ← State.setMem_rest (s := s) m', State.owned, State.rest]
      abel
    rw [howned] at hmem
    rcases Multiset.mem_add.1 hmem with hmem | hmem
    · rcases Multiset.mem_cons.1 hmem with rfl | hmem
      · exact hx (Multiset.mem_add.2 (Or.inl (Multiset.mem_add.2 (Or.inl hy))))
      · exact Multiset.disjoint_left.1 hdisj' hy hmem
    · exact Multiset.disjoint_left.1 hdisj (Multiset.mem_add.2 (Or.inl hy)) hmem

/-! ## All memory is mapped -/

/-- `fetchint`: whether the address is accepted. -/
def fetchint (sz : ℕ) (addr : BitVec 32) : Bool := !(decide (addr.toNat ≥ sz) || decide ((addr + 4).toNat > sz))

/-- `argptr`: whether the block is accepted. -/
def argptr (sz : ℕ) (i size : BitVec 32) : Bool :=
  !(decide (size.toInt < 0) || decide (i.toNat ≥ sz) || decide ((i + size).toNat > sz))

/-- `fetchstr`: the length of the string. -/
def fetchstr (mem : ℕ → BitVec 8) (sz : ℕ) (addr : BitVec 32) : Option ℕ :=
  if addr.toNat ≥ sz then none else (List.range (sz - addr.toNat)).find? fun k => mem (addr.toNat + k) = 0

/-- The kernel can read and write the byte. -/
def Backed (d : Space) (a : ℕ) : Prop := (d.pte (a / pgsize)).isSome = true

/-- What can be accessed if everything below the size can. -/
structure Accessible (d : Space) (sz : ℕ) : Prop where
  below : ∀ a < sz, Backed d a
  fetchint : ∀ addr, fetchint sz addr = true → ∀ k < 4, Backed d (addr.toNat + k)
  argptr : ∀ i size, argptr sz i size = true → ∀ k < size.toNat, Backed d (i.toNat + k)
  fetchstr : ∀ mem addr len, fetchstr mem sz addr = some len → ∀ k ≤ len, Backed d (addr.toNat + k)

theorem accessible (hsz : sz < kernbase) (h : ∀ a < sz, Backed d a) : Accessible d sz where
  below := h
  fetchint addr haddr k hk := by
    refine h _ ?_
    rw [Memory.fetchint, Bool.not_eq_true', Bool.or_eq_false_iff, decide_eq_false_iff_not, decide_eq_false_iff_not, BitVec.toNat_add] at haddr
    have hlt : sz < 2147483648 := hsz
    have hfour : (4 : BitVec 32).toNat = 4 := rfl
    omega
  argptr i size hi k hk := by
    refine h _ ?_
    rw [Memory.argptr, Bool.not_eq_true', Bool.or_eq_false_iff, Bool.or_eq_false_iff, decide_eq_false_iff_not, decide_eq_false_iff_not,
      decide_eq_false_iff_not, BitVec.toNat_add, BitVec.toInt_eq_toNat_cond] at hi
    have hlt : sz < 2147483648 := hsz
    split at hi <;> omega
  fetchstr mem addr len hlen k hk := by
    refine h _ ?_
    rw [Memory.fetchstr] at hlen
    split at hlen
    · cases hlen
    · have hmem := List.mem_range.1 (List.mem_of_find?_eq_some hlen)
      omega

/-- **All pages of a process up to its size are mapped**, in every run in which no process gives up all its memory and no
string of 32 MB or more is passed to `exec`; and no system call ends in a panic of `copyuvm`. -/
theorem memory_mapped (h : (system K).Reach (fun s a => a.call.Short ∧ s.NotAll a.proc a.call) s)
    (hp : (s.proc p).state = .live) :
    (∃ d, (s.proc p).pgdir = some d ∧ Accessible d (s.proc p).sz) ∧
    ∀ c short, c.Short → ∀ e, perform K p c (s.begin ⟨p, c, short⟩) = .panic e → e ≠ .pteShouldExist ∧ e ≠ .pageNotPresent := by
  obtain ⟨hinv, hfull⟩ := reach_full h
  obtain ⟨x, d, -, hd, hdir⟩ := (hinv.sound p).used (Or.inl hp)
  refine ⟨⟨d, hd, accessible hdir.size.2 fun a ha => hfull p d hd _ ?_⟩, fun c short hshort e hrun => ?_⟩
  · rw [lt_npages]
    exact (Nat.div_mul_le_self a pgsize).trans_lt ha
  · have hspec := perform_spec (hinv.begin ⟨p, c, short⟩) hp hshort
    rw [wp, hrun] at hspec
    rcases hspec with ⟨-, hnot⟩ | ⟨rfl, -⟩
    · exact absurd (hfull.congr rfl) hnot
    · simp

theorem memory_mapped_boot :
    ∃ s d, Start kernel s ∧ (s.proc 0).pgdir = some d ∧ (s.proc 0).sz = pgsize ∧ Accessible d (s.proc 0).sz := by
  obtain ⟨r, m, -, hstart⟩ := exists_booted kernel
  obtain ⟨⟨d, hd, haccessible⟩, -⟩ := memory_mapped (p := 0) (.init hstart) rfl
  exact ⟨_, d, hstart, hd, rfl, haccessible⟩

/-- After `growproc(-sz)`. -/
theorem growproc_all (h : Booted K r m) :
    ∃ d mem, growproc K 0 (-4096) (booted m r) =
        .ok false (((booted m r).setMem mem).setProc 0 (((booted m r).proc 0).resize (d, 0))) ∧
      d.pte 0 = none ∧ d.table 0 ≠ none ∧ Inv K (((booted m r).setMem mem).setProc 0 (((booted m r).proc 0).resize (d, 0))) 0 ∧
      mem.Plenty 56000 := by
  have hinv := (booted_inv h).1
  have howns := hinv.owns_dir (p := 0) rfl rfl
  obtain ⟨r', mem, hr, howns', htrim, hmin, hcost⟩ := deallocuvm_spec 0 h.runs.wf (by decide : 4096 ≤ kernbase) howns
  obtain ⟨d, k⟩ := r'
  obtain rfl : k = 0 := hmin
  have hnone : d.pte 0 = none := by rw [htrim.pte, if_pos (by decide)]
  have htable : d.table 0 ≠ none := by
    rw [htrim.table]
    exact h.runs.mapped.table_ne h.runs.wf (w := 0) (by decide)
  have hsz : ((booted m r).proc 0).sz = 4096 := rfl
  have hpgdir : ((booted m r).proc 0).pgdir = some r.2.2.2 := rfl
  have hr' : deallocuvm K r.2.2.2 ((booted m r).proc 0).sz (BitVec.ofNat 32 ((booted m r).proc 0).sz + (-4096)).toNat
      (booted m r).mem = .ok (d, 0) mem := by
    rw [hsz]
    exact hr
  have hneg : (-4096 : BitVec 32).toInt < 0 := by decide
  refine ⟨d, mem, growproc_shrink hpgdir hneg hr', hnone, htable, ?_, (hcost 56000 h.plenty).2⟩
  exact hinv.setDir rfl rfl howns' ((dir_of_runs h.runs).trimmed htrim)

/-- `copyuvm` finds that the first page is not there. -/
theorem copyuvm_missing (h : Owns K X m H) (hplenty : m.Plenty 131) (hsz : 0 < sz) (ht : d.table 0 ≠ none)
    (hp : d.pte 0 = none) : copyuvm K d sz m = .panic .pageNotPresent := by
  obtain ⟨o, m1, hrun, -, -, hcost⟩ := setupkvm_spec h
  obtain ⟨hsome, -⟩ := hcost 0 hplenty
  obtain ⟨d', rfl⟩ := Option.isSome_iff_exists.1 hsome
  obtain ⟨x, hx⟩ := Option.ne_none_iff_exists'.1 ht
  obtain ⟨k, hk⟩ : ∃ k, (sz + pgsize - 1) / pgsize = k + 1 := Nat.exists_eq_succ_of_ne_zero (by unfold pgsize; omega)
  have hloop : copyLoop K d (k + 1) d' 0 m1 = .panic .pageNotPresent := by
    rw [copyLoop, show 0 / pgsize = 0 from rfl, hx, hp]
    rfl
  rw [copyuvm, bind_ok hrun]
  rw [hk]
  exact bind_panic hloop

theorem allocproc_new (h : Inv K s 0) (hplenty : s.mem.Plenty (n + 1)) (hq : (s.proc q).state = .unused) :
    ∃ np x mem, allocproc s = .ok (some np) ((s.setMem mem).setProc np { s.proc np with state := .embryo, kstack := some x }) ∧
      (s.proc np).state = .unused ∧ mem.Plenty n ∧ Owns K (pool K) mem ({x} + s.rest) := by
  cases hfirst : s.first fun v => v.state = .unused with
  | none =>
    have hall := List.find?_eq_none.1 hfirst q (List.mem_finRange q)
    exact absurd (decide_eq_true hq) hall
  | some np =>
    obtain ⟨o, mem, hk, howns, hcost⟩ := kalloc_spec h.owns
    obtain ⟨hsome, hplenty'⟩ := hcost n hplenty
    obtain ⟨x, rfl⟩ := Option.isSome_iff_exists.1 hsome
    refine ⟨np, x, mem, ?_, of_decide_eq_true (first_state hfirst), hplenty', howns⟩
    rw [allocproc, read_bind, hfirst]
    exact bind_ok (vm_ok hk)

theorem vm_panic {α : Type} {f : VM α} {e : Panic} (h : f s.mem = .panic e) : vm f s = .panic e := by
  rw [vm, zoom, h]

/-- `fork` panics if the first page is not there. -/
theorem fork_missing (h : Inv K s 0) (hplenty : s.mem.Plenty 132) (hq : (s.proc q).state = .unused)
    (hlive : (s.proc p).state = .live) (hd : (s.proc p).pgdir = some d) (ht : d.table 0 ≠ none) (hp : d.pte 0 = none) :
    fork K p s = .panic .pageNotPresent := by
  obtain ⟨np, x, mem, halloc, hunused, hplenty', howns⟩ := allocproc_new (n := 131) h hplenty hq
  obtain ⟨-, d0, -, hd0, hdir⟩ := (h.sound p).used (Or.inl hlive)
  have hne : p ≠ np := by
    rintro rfl
    cases hlive.symm.trans hunused
  have hproc : ((s.setMem mem).setProc np { s.proc np with state := .embryo, kstack := some x }).proc p = s.proc p :=
    State.setProc_of_ne _ hne
  have hnp : ((s.setMem mem).setProc np { s.proc np with state := .embryo, kstack := some x }).proc np =
      { s.proc np with state := .embryo, kstack := some x } := State.setProc_self _
  refine (bind_ok halloc).trans ((read_bind).trans ((read_bind).trans ?_))
  rw [hproc, hnp, hd]
  exact bind_panic (vm_panic (copyuvm_missing howns hplenty' hdir.size.1 ht hp))

/-- **`sbrk(-sz)` frees all pages, returns -1 and keeps the size.**  The next `fork` panics. -/
theorem sbrk_unmaps : ∃ s, (system kernel).Reach (fun _ _ => True) s ∧ (s.proc 0).state = .live ∧ 0 < (s.proc 0).sz ∧
    (∃ d, (s.proc 0).pgdir = some d ∧ ¬ Backed d 0) ∧
    perform kernel 0 .fork (s.begin ⟨0, .fork, fun _ => false⟩) = .panic .pageNotPresent := by
  obtain ⟨r, m, hbooted, hstart⟩ := exists_booted kernel
  obtain ⟨d, mem, hrun, hpte, htable, hinv, hplenty⟩ := growproc_all hbooted.restart
  set s := (booted { m with short := fun _ => false } r).setMem mem |>.setProc 0
    (((booted { m with short := fun _ => false } r).proc 0).resize (d, 0)) with hs
  have hreach : (system kernel).Reach (fun _ _ => True) s := by
    refine .step (.init hstart) (a := ⟨0, .sbrk (-4096), fun _ => false⟩) trivial ⟨⟨rfl, nofun⟩, ?_⟩
    exact bind_ok hrun
  have hproc : s.proc 0 = ((booted { m with short := fun _ => false } r).proc 0).resize (d, 0) := State.setProc_self _
  have hother : (s.proc 1).state = .unused := by
    rfl
  refine ⟨s, hreach, by rw [hproc]; rfl, by rw [hproc]; exact (by decide : 0 < pgsize), ⟨d, by rw [hproc]; rfl, ?_⟩, ?_⟩
  · rw [Backed, show 0 / pgsize = 0 from rfl, hpte]
    exact nofun
  · refine bind_panic (fork_missing (q := 1) (d := d) (hinv.begin ⟨0, .fork, fun _ => false⟩) ⟨fun _ => rfl, ?_⟩ hother ?_ ?_ htable hpte)
    · exact (by decide : 132 ≤ 56000).trans hplenty.2
    · rfl
    · rfl

end OsLab.Xv6.Memory
