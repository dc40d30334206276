import OsLab.Xv6.MemRun

/-!
# What `growproc` returns

`allocuvm` and `deallocuvm` return the new size, and 0 if they have failed; and they compare sizes without a sign.

* **`growproc_right_iff`**: `growproc(n)` does what it should if and only if something is left of the memory.
* `growproc_wrong`: if nothing is left, all pages are freed, and it returns -1; if less than nothing is left, it does nothing
  and returns 0.
-/

namespace OsLab.Xv6.Memory

open Vm Files Exec

variable {K : Kernel} {s : State} {F : Multiset FileId} {p : Slot} {n : BitVec 32} {d : Space}

/-- What `growproc` should do: if it returns 0, the size has grown by `n`, and the pages below it and no others are mapped;
if it returns -1, the size and the pages are as before. -/
def GrowsRight (K : Kernel) (s : State) (p : Slot) (n : BitVec 32) : Prop :=
  ∃ ok s' d d', growproc K p n s = .ok ok s' ∧ (s.proc p).pgdir = some d ∧ (s'.proc p).pgdir = some d' ∧
    (ok = true → ((s'.proc p).sz : ℤ) = (s.proc p).sz + n.toInt ∧ (s'.proc p).sz < kernbase ∧ Mapped d' (s'.proc p).sz) ∧
    (ok = false → (s'.proc p).sz = (s.proc p).sz ∧ ∀ w < nuser, d'.pte w = d.pte w)

/-- What that means for the directory and the size that `allocuvm` or `deallocuvm` has returned. -/
theorem growsRight_iff {r : Space × ℕ} {mem : Kmem} (hd : (s.proc p).pgdir = some d)
    (hrun : growproc K p n s = .ok (decide (r.2 ≠ 0)) ((s.setMem mem).setProc p ((s.proc p).resize r))) :
    GrowsRight K s p n ↔ (r.2 ≠ 0 → (r.2 : ℤ) = (s.proc p).sz + n.toInt ∧ r.2 < kernbase ∧ Mapped r.1 r.2) ∧
      (r.2 = 0 → ∀ w < nuser, r.1.pte w = d.pte w) := by
  have hproc : ((s.setMem mem).setProc p ((s.proc p).resize r)).proc p = (s.proc p).resize r := State.setProc_self _
  constructor
  · rintro ⟨ok, s', d1, d', hrun', hd1, hd', hgood, hbad⟩
    obtain ⟨rfl, rfl⟩ := Outcome.ok.inj (hrun.symm.trans hrun')
    obtain rfl := Option.mem_unique hd hd1
    rw [hproc] at hgood hbad hd'
    obtain rfl : r.1 = d' := Option.some.inj hd'
    refine ⟨fun hne => ?_, fun hzero => (hbad (decide_eq_false (not_not.2 hzero))).2⟩
    have hsize : ((s.proc p).resize r).sz = r.2 := if_neg hne
    rw [hsize] at hgood
    exact hgood (decide_eq_true hne)
  · rintro ⟨hgood, hbad⟩
    refine ⟨_, _, d, r.1, hrun, hd, by rw [hproc]; rfl, fun hok => ?_, fun hok => ?_⟩
    · have hne := of_decide_eq_true hok
      have hsize : ((s.proc p).resize r).sz = r.2 := if_neg hne
      rw [hproc, hsize]
      exact hgood hne
    · have hzero : r.2 = 0 := not_not.1 (of_decide_eq_false hok)
      have hsize : ((s.proc p).resize r).sz = (s.proc p).sz := if_pos hzero
      rw [hproc]
      exact ⟨hsize, hbad hzero⟩

/-- The size after the addition, which has no sign. -/
theorem newsz_eq {sz : ℕ} (hsz : sz < kernbase) : (BitVec.ofNat 32 sz + n).toNat =
    if 0 ≤ (sz : ℤ) + n.toInt then ((sz : ℤ) + n.toInt).toNat else ((sz : ℤ) + n.toInt + 2 ^ 32).toNat := by
  have hlt : sz < 2147483648 := hsz
  rw [BitVec.toNat_add, BitVec.toNat_ofNat, BitVec.toInt_eq_toNat_cond]
  split_ifs <;> omega

theorem growproc_zero (hd : (s.proc p).pgdir = some d) (hzero : n.toInt = 0) : growproc K p n s = .ok true s := by
  rw [growproc, read_bind, hd]
  dsimp only
  rw [if_neg (by omega), if_neg (by omega)]
  rfl

/-- **When nothing is added**, `growproc` returns 0 unless all of the memory is removed. -/
theorem growproc_accepts_iff (h : Inv K s F) (hlive : (s.proc p).state = .live) (hn : n.toInt ≤ 0) :
    (∃ s', growproc K p n s = .ok true s') ↔ ((s.proc p).sz : ℤ) + n.toInt ≠ 0 := by
  obtain ⟨x, d, hk, hd, hdir⟩ := (h.sound p).used (Or.inl hlive)
  obtain ⟨hpos, hmax⟩ := hdir.size
  rcases hn.lt_or_eq with hneg | hzero
  · obtain ⟨r, mem, hr, -, -, hmin, -⟩ :=
      deallocuvm_spec (BitVec.ofNat 32 (s.proc p).sz + n).toNat hdir.wf hmax.le (h.owns_dir hk hd)
    have hn' := n.le_toInt
    rw [newsz_eq hmax] at hmin
    have hiff : r.2 ≠ 0 ↔ ((s.proc p).sz : ℤ) + n.toInt ≠ 0 := by
      split_ifs at hmin <;> omega
    rw [growproc_shrink hd hneg hr, ← hiff]
    constructor
    · rintro ⟨s', hrun⟩
      exact of_decide_eq_true (Outcome.ok.inj hrun).1
    · intro hne
      rw [decide_eq_true hne]
      exact ⟨_, rfl⟩
  · exact iff_of_true ⟨s, growproc_zero hd hzero⟩ (by omega)

/-- **When `growproc` does what it should**: unless it is asked to remove all of the memory, or more. -/
theorem growproc_right_iff (h : Inv K s F) (hlive : (s.proc p).state = .live) (hfull : s.Full) :
    GrowsRight K s p n ↔ 0 < ((s.proc p).sz : ℤ) + n.toInt := by
  obtain ⟨x, d, hk, hd, hdir⟩ := (h.sound p).used (Or.inl hlive)
  have howns := h.owns_dir hk hd
  have hmapped : Mapped d (s.proc p).sz := ⟨hfull p d hd, hdir.above⟩
  obtain ⟨hpos, hmax⟩ := hdir.size
  have hn' := n.le_toInt
  have hnew := newsz_eq (n := n) hmax
  rcases lt_trichotomy n.toInt 0 with hneg | hzero | hgrow
  · obtain ⟨r, mem, hr, -, htrim, hmin, -⟩ := deallocuvm_spec (BitVec.ofNat 32 (s.proc p).sz + n).toNat hdir.wf hmax.le howns
    rw [growsRight_iff hd (growproc_shrink hd hneg hr)]
    generalize (BitVec.ofNat 32 (s.proc p).sz + n).toNat = newsz at hnew htrim hmin
    rcases lt_trichotomy ((s.proc p).sz + n.toInt) 0 with hless | hall | hleft
    · -- the new size seems to be greater
      rw [if_neg (by omega)] at hnew
      refine iff_of_false (fun hright => ?_) (by omega)
      omega
    · -- the first page is gone
      rw [hall] at hnew
      have hp : 0 < npages (s.proc p).sz := lt_npages.2 (by rw [Nat.zero_mul]; exact hpos)
      refine iff_of_false (fun hright => ?_) (by omega)
      have hkept := hright.2 (by omega) 0 (by unfold nuser; omega)
      have hpresent := hmapped.present 0 hp
      rw [← hkept, htrim.pte, hnew, if_pos ⟨Nat.zero_le _, hp⟩] at hpresent
      cases hpresent
    · rw [if_pos hleft.le] at hnew
      obtain rfl : newsz = r.2 := by omega
      refine iff_of_true ⟨fun _ => ⟨by omega, by omega, fun w hw => ?_, fun w hlo hhi => ?_⟩, fun h0 => by omega⟩ hleft
      · rw [htrim.pte, if_neg (by omega)]
        exact hmapped.present w (hw.trans_le (npages_mono (by omega)))
      · rw [htrim.pte]
        split_ifs with hin
        · rfl
        · exact hmapped.above w (by omega) hhi
  · refine iff_of_true ⟨true, s, d, d, growproc_zero hd hzero, hd, hd, fun _ => ⟨by omega, hmax, hmapped⟩, nofun⟩ (by omega)
  · obtain ⟨r, mem, hr, -, hres, -⟩ := allocuvm_spec (BitVec.ofNat 32 (s.proc p).sz + n).toNat hdir.wf hdir.above howns
    rw [growsRight_iff hd (growproc_grow hd hgrow hr)]
    rw [if_pos (by omega)] at hnew
    refine iff_of_true ⟨fun hne => ?_, fun h0 w _ => by rw [hres.failed h0]⟩ (by omega)
    obtain ⟨hsize, hlt⟩ := hres.size hne
    have hmapped' := hres.mapped hmapped
    rw [if_neg hne] at hmapped'
    exact ⟨by omega, by omega, hmapped'⟩

theorem growproc_right_boot : ∃ s, Start kernel s ∧ GrowsRight kernel s 0 4096 := by
  obtain ⟨r, m, hbooted, hstart⟩ := exists_booted kernel
  obtain ⟨hinv, hfull⟩ := booted_inv hbooted
  exact ⟨_, hstart, (growproc_right_iff (p := 0) hinv rfl hfull).2 (by decide : 0 < ((4096 : ℕ) : ℤ) + (4096 : BitVec 32).toInt)⟩

/-- **All of the memory, and more than that.**  `init` has one page.  If it gives up 4096 bytes, then -1 is returned and the
page is gone; if it gives up 4097, then 0 is returned and the size is as before. -/
theorem growproc_wrong : ∃ s d, Start kernel s ∧ (s.proc 0).pgdir = some d ∧ (s.proc 0).sz = 4096 ∧ (d.pte 0).isSome = true ∧
    (∃ s' d', growproc kernel 0 (-4096) s = .ok false s' ∧ (s'.proc 0).pgdir = some d' ∧ d'.pte 0 = none) ∧
    (∃ s', growproc kernel 0 (-4097) s = .ok true s' ∧ (s'.proc 0).sz = 4096) ∧
    ¬ GrowsRight kernel s 0 (-4096) ∧ ¬ GrowsRight kernel s 0 (-4097) := by
  obtain ⟨r, m, hbooted, hstart⟩ := exists_booted kernel
  obtain ⟨hinv, hfull⟩ := booted_inv hbooted
  have hd : ((booted m r).proc 0).pgdir = some r.2.2.2 := rfl
  have hpresent : (r.2.2.2.pte 0).isSome = true := hfull 0 _ hd 0 (by decide : 0 < npages 4096)
  obtain ⟨d', mem, hrun, hnone, -⟩ := growproc_all hbooted
  have hsz : ((booted m r).proc 0).sz = 4096 := rfl
  have hmore : deallocuvm kernel r.2.2.2 ((booted m r).proc 0).sz (BitVec.ofNat 32 ((booted m r).proc 0).sz + (-4097)).toNat
      (booted m r).mem = .ok (r.2.2.2, 4096) m := by
    rw [hsz]
    rfl
  have hrun' := growproc_shrink hd (by decide : (-4097 : BitVec 32).toInt < 0) hmore
  refine ⟨_, _, hstart, hd, rfl, hpresent, ⟨_, d', hrun, ?_, hnone⟩, ⟨_, hrun', ?_⟩, fun hright => ?_, fun hright => ?_⟩
  · rfl
  · rfl
  · have hkept := ((growsRight_iff (r := (d', 0)) hd hrun).1 hright).2 rfl 0 (by decide +kernel)
    rw [← hkept, hnone] at hpresent
    cases hpresent
  · have hsize := (((growsRight_iff hd hrun').1 hright).1 (by decide : 4096 ≠ 0)).1
    exact absurd hsize (by decide : ((4096 : ℕ) : ℤ) ≠ (4096 : ℕ) + (-4097 : BitVec 32).toInt)

end OsLab.Xv6.Memory
