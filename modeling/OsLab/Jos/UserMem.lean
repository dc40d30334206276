import OsLab.Jos.EnvMoves

/-!
# Pointers from user programs: `user_mem_check` and what relies on it

`user_mem_check` decides for every pointer that a user program passes to the kernel whether the kernel may follow it.

* `userMemCheck_eq`: it answers with the first page of its loop that may not be accessed.
* **`userMemCheck_right_iff`**: the answer is the right one exactly if the sums it computes do not wrap around, apart from
  a wrapped range whose first page is refused anyway.  `userMemCheck_wraps` is a range above `ULIM` that is accepted.
* **`cputs_right_iff`**: `sys_cputs` reads only what was checked exactly if there is a zero byte in it.
* **`frame_below_iff`**: a nested page fault puts its frame below the stack pointer, unless the exception stack is
  exactly full.
-/

namespace OsLab.Jos

open Exec

variable {k : Pmap} {pgdir j : ℕ} {va len perm i p x : Word} {n a : ℕ} {precision : ℤ}

/-! ## Pages that may be accessed -/

/-- The entry for the page of an address, if there is a page table for it. -/
def Pmap.entry (k : Pmap) (pgdir : ℕ) (va : Word) : Option Word :=
  if Present (k.mem pgdir (pdx va)) then some (k.mem (pgnum (k.mem pgdir (pdx va))) (ptx va)) else none

/-- The page of an address is present, with all bits of `perm`. -/
def Grants (k : Pmap) (pgdir : ℕ) (perm va : Word) : Prop :=
  ∃ w ∈ k.entry pgdir va, Present w ∧ w &&& perm = perm

/-- The test in the loop of `user_mem_check`. -/
def Allowed (k : Pmap) (pgdir : ℕ) (perm va : Word) : Prop := va < ulim ∧ Grants k pgdir perm va

instance : Decidable (Grants k pgdir perm va) := by
  unfold Grants
  cases k.entry pgdir va with
  | none => exact isFalse (by simp)
  | some w => exact decidable_of_iff (Present w ∧ w &&& perm = perm) (by simp)

instance : Decidable (Allowed k pgdir perm va) := inferInstanceAs (Decidable (_ ∧ _))

/-- The page tables are in physical memory. -/
def Walkable (k : Pmap) (pgdir : ℕ) : Prop := ∀ d, Present (k.mem pgdir d) → pgnum (k.mem pgdir d) < k.npages

theorem pgdirWalk_eq (h : Walkable k pgdir) (va : Word) : pgdirWalk pgdir va false k =
    .ok (if Present (k.mem pgdir (pdx va)) then some (pgnum (k.mem pgdir (pdx va)), ptx va) else none) k := by
  rw [pgdirWalk, read_bind]
  by_cases hp : Present (k.mem pgdir (pdx va))
  · rw [if_pos hp, if_pos hp, pteSlot_ok (h _ hp)]
  · rw [if_neg hp, if_neg hp]
    rfl

/-! ## The loop -/

/-- The first page that may not be accessed, of `n` pages from `i` on, as the loop reports it. -/
def firstBad (k : Pmap) (pgdir : ℕ) (va perm : Word) : ℕ → Word → Option Word
  | 0, _ => none
  | n + 1, i => if Allowed k pgdir perm i then firstBad k pgdir va perm n (i + BitVec.ofNat 32 pgsize)
    else some (if i < va then va else i)

theorem userMemLoop_eq (h : Walkable k pgdir) :
    userMemLoop pgdir va perm n i k = .ok (firstBad k pgdir va perm n i) k := by
  induction n generalizing i with
  | zero => rfl
  | succ n ih =>
    rw [userMemLoop, bind_ok (pgdirWalk_eq h i), read_bind]
    by_cases hp : Present (k.mem pgdir (pdx i))
    · have hentry : k.entry pgdir i = some (k.mem (pgnum (k.mem pgdir (pdx i))) (ptx i)) := if_pos hp
      rw [if_pos hp, firstBad]
      by_cases ha : Allowed k pgdir perm i
      · rw [if_pos ha, if_neg, ih]
        obtain ⟨hlt, w, hw, hpres, hperm⟩ := ha
        cases hentry.symm.trans hw
        have hle : ¬ ulim ≤ i := BitVec.not_le.2 hlt
        simp [hle, hpres, hperm]
      · rw [if_neg ha, if_pos]
        · rfl
        have hbad : ulim ≤ i ∨ ¬ Present (k.mem (pgnum (k.mem pgdir (pdx i))) (ptx i)) ∨
            k.mem (pgnum (k.mem pgdir (pdx i))) (ptx i) &&& perm ≠ perm := by
          by_contra hgood
          push Not at hgood
          exact ha ⟨BitVec.not_le.1 hgood.1, _, hentry, hgood.2.1, hgood.2.2⟩
        exact decide_eq_true hbad
    · have ha : ¬ Allowed k pgdir perm i := by
        rintro ⟨-, w, hw, -⟩
        have hentry : k.entry pgdir i = none := if_neg hp
        rw [hentry] at hw
        cases hw
      rw [if_neg hp, firstBad, if_neg ha]
      rfl

/-- The number of rounds of the loop. -/
def checkPages (va len : Word) : ℕ := ((roundUp (va + len)).toNat - (roundDown va).toNat) / pgsize

/-- **What `user_mem_check` answers.** -/
theorem userMemCheck_eq (h : Walkable k pgdir) (va len perm : Word) :
    userMemCheck pgdir va len perm k = .ok (firstBad k pgdir va perm (checkPages va len) (roundDown va)) k :=
  userMemLoop_eq h

/-- Page `j` of the loop. -/
def pageAt (i : Word) (j : ℕ) : Word := i + BitVec.ofNat 32 (j * pgsize)

theorem pageAt_zero : pageAt i 0 = i := by
  exact BitVec.add_zero i

theorem pageAt_succ : pageAt (i + BitVec.ofNat 32 pgsize) j = pageAt i (j + 1) := by
  rw [pageAt, pageAt, BitVec.add_assoc, ← BitVec.ofNat_add, Nat.succ_mul, Nat.add_comm]

theorem firstBad_none : firstBad k pgdir va perm n i = none ↔
    ∀ j < n, Allowed k pgdir perm (pageAt i j) := by
  induction n generalizing i with
  | zero => exact ⟨fun _ j hj => absurd hj (Nat.not_lt_zero j), fun _ => rfl⟩
  | succ n ih =>
    rw [firstBad]
    by_cases ha : Allowed k pgdir perm i
    · rw [if_pos ha, ih]
      constructor
      · intro hall j hj
        cases j with
        | zero => rwa [pageAt_zero]
        | succ j =>
          rw [← pageAt_succ]
          exact hall j (by omega)
      · intro hall j hj
        rw [pageAt_succ]
        exact hall (j + 1) (by omega)
    · rw [if_neg ha]
      refine ⟨nofun, fun hall => absurd ?_ ha⟩
      have h0 := hall 0 (by omega)
      rwa [pageAt_zero] at h0

theorem firstBad_some (h : firstBad k pgdir va perm n i = some x) :
    ∃ j < n, ¬ Allowed k pgdir perm (pageAt i j) ∧
      (∀ j' < j, Allowed k pgdir perm (pageAt i j')) ∧
      x = if pageAt i j < va then va else pageAt i j := by
  induction n generalizing i with
  | zero => cases h
  | succ n ih =>
    rw [firstBad] at h
    by_cases ha : Allowed k pgdir perm i
    · rw [if_pos ha] at h
      obtain ⟨j, hj, hbad, hbefore, rfl⟩ := ih h
      rw [pageAt_succ] at hbad
      refine ⟨j + 1, by omega, hbad, fun j' hj' => ?_, by rw [pageAt_succ]⟩
      cases j' with
      | zero => rwa [pageAt_zero]
      | succ j' =>
        rw [← pageAt_succ]
        exact hbefore j' (by omega)
    · rw [if_neg ha] at h
      refine ⟨0, by omega, by rwa [pageAt_zero], fun j' hj' => absurd hj' (Nat.not_lt_zero j'), ?_⟩
      rw [pageAt_zero]
      exact (Option.some.inj h).symm

/-! ## The whole check -/

/-- The right answer: `none` exactly if the range ends at or below `ULIM` and every page of it is present with all bits of
`perm`; otherwise the lowest address of it that may not be accessed.  Addresses are unbounded. -/
structure CheckRight (k : Pmap) (pgdir : ℕ) (va len perm : Word) (r : Option Word) : Prop where
  accepts : r = none ↔ va.toNat + len.toNat ≤ ulim.toNat ∧
    ∀ a, va.toNat ≤ a → a < va.toNat + len.toNat → Grants k pgdir perm (BitVec.ofNat 32 a)
  lowest : ∀ x, r = some x → va.toNat ≤ x.toNat ∧ x.toNat < va.toNat + len.toNat ∧ ¬ Allowed k pgdir perm x ∧
    ∀ a, va.toNat ≤ a → a < x.toNat → Allowed k pgdir perm (BitVec.ofNat 32 a)

theorem ulim_toNat : ulim.toNat = 980992 * 4096 := by decide

/-- All addresses of a page are treated alike. -/
theorem allowed_congr {va' : Word} (h : va.toNat / 4096 = va'.toNat / 4096) :
    Allowed k pgdir perm va ↔ Allowed k pgdir perm va' := by
  have hd : pdx va = pdx va' := by
    rw [pdx_eq, pdx_eq]
    omega
  have ht : ptx va = ptx va' := by rw [ptx_eq, ptx_eq, h]
  have hlim : va < ulim ↔ va' < ulim := by
    rw [BitVec.lt_def, BitVec.lt_def, ulim_toNat]
    omega
  rw [Allowed, Allowed, Grants, Grants, Pmap.entry, Pmap.entry, hd, ht, hlim]

theorem roundUp_toNat : (roundUp x).toNat = (x.toNat + 4095) % 2 ^ 32 / 4096 * 4096 := by
  rw [roundUp, roundDown_toNat, BitVec.toNat_sub, BitVec.toNat_add]
  show (2 ^ 32 - 1 + (x.toNat + 4096) % 2 ^ 32) % 2 ^ 32 / 4096 * 4096 = _
  omega

theorem checkPages_eq :
    checkPages va len = ((va + len).toNat + 4095) % 2 ^ 32 / 4096 - va.toNat / 4096 := by
  rw [checkPages, roundUp_toNat, roundDown_toNat, pgsize]
  omega

/-- Page `j` of the loop, as a number. -/
theorem pageAt_toNat (h : va.toNat / 4096 + j < 2 ^ 20) :
    (pageAt (roundDown va) j).toNat = (va.toNat / 4096 + j) * 4096 := by
  rw [pageAt, BitVec.toNat_add, roundDown_toNat, BitVec.toNat_ofNat, pgsize]
  omega

theorem toNat_ofNat_lt (h : a < 2 ^ 32) : (BitVec.ofNat 32 a : Word).toNat = a := by
  rw [BitVec.toNat_ofNat, Nat.mod_eq_of_lt h]

/-- The loop looks at every page of a range that does not wrap around. -/
theorem checkRight_of_le (hlen : len ≠ 0#32) (h : va.toNat + len.toNat ≤ 2 ^ 32 - 4096) :
    CheckRight k pgdir va len perm (firstBad k pgdir va perm (checkPages va len) (roundDown va)) := by
  have hpos : 0 < len.toNat := Nat.pos_of_ne_zero fun hz => hlen (BitVec.eq_of_toNat_eq hz)
  have hsum : (va + len).toNat = va.toNat + len.toNat := by
    rw [BitVec.toNat_add]
    omega
  have hpages : checkPages va len = (va.toNat + len.toNat + 4095) / 4096 - va.toNat / 4096 := by
    rw [checkPages_eq]
    omega
  have hpage : ∀ j < checkPages va len, (pageAt (roundDown va) j).toNat = (va.toNat / 4096 + j) * 4096 :=
    fun j hj => pageAt_toNat (by omega)
  -- an address of the range lies in one of the pages
  have hof : ∀ a, va.toNat ≤ a → a < va.toNat + len.toNat → ∃ j < checkPages va len, a / 4096 = va.toNat / 4096 + j ∧
      (Allowed k pgdir perm (BitVec.ofNat 32 a) ↔ Allowed k pgdir perm (pageAt (roundDown va) j)) := by
    intro a hlo hhi
    have hj : a / 4096 - va.toNat / 4096 < checkPages va len := by omega
    refine ⟨a / 4096 - va.toNat / 4096, hj, by omega, allowed_congr ?_⟩
    rw [toNat_ofNat_lt (by omega), hpage _ hj]
    omega
  constructor
  · rw [firstBad_none]
    constructor
    · intro hall
      have hallowed : ∀ a, va.toNat ≤ a → a < va.toNat + len.toNat → Allowed k pgdir perm (BitVec.ofNat 32 a) := by
        intro a hlo hhi
        obtain ⟨j, hj, -, hiff⟩ := hof a hlo hhi
        exact hiff.2 (hall j hj)
      refine ⟨?_, fun a hlo hhi => (hallowed a hlo hhi).2⟩
      have hlast := (hallowed (va.toNat + len.toNat - 1) (by omega) (by omega)).1
      rw [BitVec.lt_def, toNat_ofNat_lt (by omega)] at hlast
      omega
    · rintro ⟨hlim, hgrants⟩ j hj
      -- the first address of the range in this page
      have hlo : va.toNat ≤ max va.toNat ((va.toNat / 4096 + j) * 4096) := le_max_left ..
      have hhi : max va.toNat ((va.toNat / 4096 + j) * 4096) < va.toNat + len.toNat := by omega
      have hall : Allowed k pgdir perm (BitVec.ofNat 32 (max va.toNat ((va.toNat / 4096 + j) * 4096))) := by
        refine ⟨?_, hgrants _ hlo hhi⟩
        rw [BitVec.lt_def, toNat_ofNat_lt (by omega)]
        omega
      refine (allowed_congr ?_).1 hall
      rw [toNat_ofNat_lt (by omega), hpage j hj]
      omega
  · intro x hx
    obtain ⟨j, hj, hbad, hbefore, rfl⟩ := firstBad_some hx
    have hjn := hpage j hj
    -- the reported address is in page `j`, and it is the first one of the range there
    obtain ⟨hxpage, hxlo, hxhi, hxfirst⟩ : (if pageAt (roundDown va) j < va then va else pageAt (roundDown va) j).toNat / 4096 =
          va.toNat / 4096 + j ∧
        va.toNat ≤ (if pageAt (roundDown va) j < va then va else pageAt (roundDown va) j).toNat ∧
        (if pageAt (roundDown va) j < va then va else pageAt (roundDown va) j).toNat < va.toNat + len.toNat ∧
        ∀ a, va.toNat ≤ a → a < (if pageAt (roundDown va) j < va then va else pageAt (roundDown va) j).toNat →
          a / 4096 < va.toNat / 4096 + j := by
      split
      · rename_i hlt
        rw [BitVec.lt_def] at hlt
        refine ⟨by omega, le_rfl, by omega, fun a _ ha => by omega⟩
      · rename_i hlt
        rw [BitVec.lt_def] at hlt
        exact ⟨by omega, by omega, by omega, fun a _ ha => by omega⟩
    refine ⟨hxlo, hxhi, fun hall => hbad ?_, fun a hlo hhi => ?_⟩
    · refine (allowed_congr ?_).1 hall
      omega
    · obtain ⟨j', hj', hpg, hiff⟩ := hof a hlo (by omega)
      have := hxfirst a hlo hhi
      exact hiff.2 (hbefore j' (by omega))

/-- **When the answer of `user_mem_check` is right**: if the sum and its rounding do not wrap around; or if the sum does wrap
around, to an address in the page of `va`, and this page may not be accessed. -/
theorem userMemCheck_right_iff (h : Walkable k pgdir) (hlen : len ≠ 0#32) :
    (∃ r, userMemCheck pgdir va len perm k = .ok r k ∧ CheckRight k pgdir va len perm r) ↔
      (va + len).toNat ≤ 2 ^ 32 - 4096 ∧ (va.toNat + len.toNat < 2 ^ 32 ∨
        ((roundDown va).toNat < (va + len).toNat ∧ ¬ Allowed k pgdir perm va)) := by
  have hsum : (va + len).toNat = (va.toNat + len.toNat) % 2 ^ 32 := BitVec.toNat_add ..
  have hulim := ulim_toNat
  have hres : (∃ r, userMemCheck pgdir va len perm k = .ok r k ∧ CheckRight k pgdir va len perm r) ↔
      CheckRight k pgdir va len perm (firstBad k pgdir va perm (checkPages va len) (roundDown va)) := by
    rw [userMemCheck_eq h]
    constructor
    · rintro ⟨r, hr, hright⟩
      cases hr
      exact hright
    · exact fun hright => ⟨_, rfl, hright⟩
  rw [hres]
  -- above `ULIM` nothing must be accepted
  have hno : ulim.toNat < va.toNat + len.toNat →
      firstBad k pgdir va perm (checkPages va len) (roundDown va) = none →
      ¬ CheckRight k pgdir va len perm (firstBad k pgdir va perm (checkPages va len) (roundDown va)) := by
    intro hgt hnone hright
    have := (hright.accepts.1 hnone).1
    omega
  by_cases hround : (va + len).toNat ≤ 2 ^ 32 - 4096
  · by_cases hwrap : va.toNat + len.toNat < 2 ^ 32
    · exact iff_of_true (checkRight_of_le hlen (by omega)) ⟨hround, Or.inl hwrap⟩
    · have hpages : checkPages va len = ((va + len).toNat + 4095) / 4096 - va.toNat / 4096 := by
        rw [checkPages_eq]
        omega
      have hdown := roundDown_toNat va
      by_cases hsame : (roundDown va).toNat < (va + len).toNat
      · -- one round, for the page of `va`
        have hone : checkPages va len = 1 := by omega
        have hpage : Allowed k pgdir perm (roundDown va) ↔ Allowed k pgdir perm va := allowed_congr (by omega)
        by_cases ha : Allowed k pgdir perm va
        · refine iff_of_false (hno (by omega) ?_) fun hcond => ?_
          · rw [hone, firstBad, if_pos (hpage.2 ha)]
            rfl
          · rcases hcond.2 with hlt | ⟨-, hna⟩
            · exact hwrap hlt
            · exact hna ha
        · refine iff_of_true ?_ ⟨hround, Or.inr ⟨hsame, ha⟩⟩
          have hva' : (if roundDown va < va then va else roundDown va) = va := by
            split
            · rfl
            · rename_i hlt
              rw [BitVec.lt_def] at hlt
              exact BitVec.eq_of_toNat_eq (by omega)
          rw [hone, firstBad, if_neg (fun hp => ha (hpage.1 hp)), hva']
          refine ⟨⟨nofun, fun hacc => ?_⟩, fun x hx => ?_⟩
          · omega
          · obtain rfl := Option.some.inj hx
            refine ⟨le_rfl, ?_, ha, fun a hlo hhi => absurd hhi (Nat.not_lt.2 hlo)⟩
            omega
      · refine iff_of_false (hno (by omega) ?_) fun hcond => ?_
        · have hzero : checkPages va len = 0 := by omega
          rw [hzero]
          rfl
        · rcases hcond.2 with hlt | ⟨hlt, -⟩
          · exact hwrap hlt
          · exact hsame hlt
  · refine iff_of_false (hno (by omega) ?_) fun hcond => hround hcond.1
    have hzero : checkPages va len = 0 := by
      rw [checkPages_eq]
      omega
    rw [hzero]
    rfl

/-- A directory without any page table. -/
def noPages : Pmap := ⟨1, fun _ => ⟨none, 0#16⟩, none, 0, mmiobase, fun _ _ => 0#32⟩

theorem walkable_noPages : Walkable noPages 0 := fun _ hp => absurd hp not_present_zero

theorem userMemCheck_right_at : ∃ r, userMemCheck 0 0x1000#32 1#32 pteU noPages = .ok r noPages ∧
    CheckRight noPages 0 0x1000#32 1#32 pteU r :=
  (userMemCheck_right_iff walkable_noPages (by decide)).2 ⟨by decide, Or.inl (by decide)⟩

/-- The last page of the address space is accepted, although it lies above `ULIM` and nothing is mapped: the end of the range
wraps around to 0, and the loop is not entered. -/
theorem userMemCheck_wraps : userMemCheck 0 0xFFFFF000#32 0x1000#32 pteU noPages = .ok none noPages ∧
    ¬ CheckRight noPages 0 0xFFFFF000#32 0x1000#32 pteU none := by
  refine ⟨rfl, fun hright => ?_⟩
  have hle := (hright.accepts.1 rfl).1
  revert hle
  decide

/-! ## `sys_cputs` -/

/-- The byte at an address, if the kernel can read it. -/
def Pmap.byteAt (k : Pmap) (pgdir : ℕ) (va : Word) : Option (BitVec 8) :=
  (walk k pgdir va 0#32).map fun p => k.loadByte p (pgoff va)

/-- The addresses that the loop of `vprintfmt` for a string reads, up to one that faults. -/
def printReads (k : Pmap) (pgdir : ℕ) : ℕ → Word → ℤ → List Word
  | 0, _, _ => []
  | n + 1, p, precision => p :: match k.byteAt pgdir p with
    | none => []
    | some ch =>
      if ch = 0#8 then []
      else if precision < 0 then printReads k pgdir n (p + 1#32) precision
      else if 0 ≤ precision - 1 then printReads k pgdir n (p + 1#32) (precision - 1)
      else []

theorem kernLoad_some {ch : BitVec 8} (h : k.byteAt pgdir p = some ch) : kernLoad pgdir p k = .ok ch k := by
  obtain ⟨q, hq, rfl⟩ := Option.map_eq_some_iff.1 h
  refine (read_bind).trans ?_
  rw [hq]
  rfl

theorem kernLoad_none (h : k.byteAt pgdir p = none) : kernLoad pgdir p k = .panic .kernelPageFault := by
  have hq : walk k pgdir p 0#32 = none := Option.map_eq_none_iff.1 h
  refine (read_bind).trans ?_
  rw [hq]
  rfl

/-- **These are all the reads**: the loop ends normally if all of them can be made, and faults otherwise. -/
theorem printStr_eq : printStr pgdir n p precision k =
    if ∀ x ∈ printReads k pgdir n p precision, (k.byteAt pgdir x).isSome then .ok () k else .panic .kernelPageFault := by
  induction n generalizing p precision with
  | zero => exact (if_pos fun x hx => by cases hx).symm
  | succ n ih =>
    rw [printStr]
    cases hb : k.byteAt pgdir p with
    | none =>
      rw [bind_panic (kernLoad_none hb), if_neg]
      intro hall
      have := hall p (by rw [printReads]; exact List.mem_cons_self ..)
      rw [hb] at this
      cases this
    | some ch =>
      rw [bind_ok (kernLoad_some hb), printReads, hb]
      have hfirst : (k.byteAt pgdir p).isSome := by rw [hb]; rfl
      by_cases hz : ch = 0#8
      · simp [hz, hfirst]
      · by_cases hneg : precision < 0
        · simp only [hz, hneg, if_false, if_true, ih, List.forall_mem_cons, hfirst, true_and]
        · by_cases hmore : 0 ≤ precision - 1
          · simp only [hz, hneg, hmore, if_false, if_true, ih, List.forall_mem_cons, hfirst, true_and]
          · simp only [hz, hneg, hmore, if_false, List.forall_mem_cons, hfirst, true_and]
            exact (if_pos fun x hx => by cases hx).symm

theorem ofNat_succ_add (p : Word) (j : ℕ) : p + 1#32 + BitVec.ofNat 32 j = p + BitVec.ofNat 32 (j + 1) := by
  rw [BitVec.add_assoc, Nat.add_comm, BitVec.ofNat_add]

/-- The loop does not go past a byte that is zero or cannot be read. -/
theorem printReads_le {z : ℕ}
    (hz : ∀ ch, k.byteAt pgdir (p + BitVec.ofNat 32 z) = some ch → ch = 0#8)
    (hx : x ∈ printReads k pgdir n p precision) : ∃ j ≤ z, x = p + BitVec.ofNat 32 j := by
  induction n generalizing p precision z with
  | zero => cases hx
  | succ n ih =>
    rw [printReads, List.mem_cons] at hx
    rcases hx with rfl | hx
    · exact ⟨0, Nat.zero_le _, (BitVec.add_zero x).symm⟩
    cases hb : k.byteAt pgdir p with
    | none =>
      rw [hb] at hx
      cases hx
    | some ch =>
      rw [hb] at hx
      simp only at hx
      have hrest : ∀ precision', x ∈ printReads k pgdir n (p + 1#32) precision' → ch ≠ 0#8 →
          ∃ j ≤ z, x = p + BitVec.ofNat 32 j := by
        intro precision' hx' hne
        cases z with
        | zero =>
          rw [show p + BitVec.ofNat 32 0 = p from BitVec.add_zero p] at hz
          exact absurd (hz ch hb) hne
        | succ z =>
          obtain ⟨j, hj, rfl⟩ := ih (z := z) (by rw [ofNat_succ_add]; exact hz) hx'
          exact ⟨j + 1, by omega, by rw [ofNat_succ_add]⟩
      split at hx
      · cases hx
      · rename_i hne
        split at hx
        · exact hrest _ hx hne
        · split at hx
          · exact hrest _ hx hne
          · cases hx

/-- After bytes that are not zero the next one is read, even if the precision does not allow for it. -/
theorem mem_printReads {m : ℕ} (hn : m < n) (hm : (m : ℤ) ≤ precision)
    (hnz : ∀ j < m, ∃ ch, k.byteAt pgdir (p + BitVec.ofNat 32 j) = some ch ∧ ch ≠ 0#8) :
    p + BitVec.ofNat 32 m ∈ printReads k pgdir n p precision := by
  induction m generalizing n p precision with
  | zero =>
    obtain ⟨n, rfl⟩ := Nat.exists_eq_succ_of_ne_zero (Nat.pos_iff_ne_zero.1 hn)
    rw [show p + BitVec.ofNat 32 0 = p from BitVec.add_zero p]
    exact List.mem_cons_self ..
  | succ m ih =>
    obtain ⟨n, rfl⟩ := Nat.exists_eq_succ_of_ne_zero (Nat.ne_zero_of_lt hn)
    obtain ⟨ch, hch, hne⟩ := hnz 0 (by omega)
    rw [show p + BitVec.ofNat 32 0 = p from BitVec.add_zero p] at hch
    have hmore : (m : ℤ) ≤ precision - 1 := by push_cast at hm; omega
    have hpos : 0 ≤ precision - 1 := by omega
    rw [printReads, hch]
    simp only [hne, if_false, hpos, if_true]
    rw [if_neg (show ¬ precision < 0 by omega), ← ofNat_succ_add p m]
    refine List.mem_cons_of_mem _ (ih (Nat.lt_of_succ_lt_succ hn) hmore fun j hj => ?_)
    rw [ofNat_succ_add]
    exact hnz (j + 1) (by omega)

/-- The user addresses that `sys_cputs` reads: a null pointer prints as a string of the kernel. -/
def cputsReads (k : Pmap) (pgdir : ℕ) (s len : Word) : List Word :=
  if s = 0#32 then [] else printReads k pgdir (2 ^ 32) s len.toInt

/-- `sys_cputs` reads only the range that was checked; so it does not fault if that lies below `ULIM`. -/
structure CputsRight (k : Kern) (pgdir : ℕ) (s len : Word) : Prop where
  reads : ∀ x ∈ cputsReads k.pm pgdir s len, s.toNat ≤ x.toNat ∧ x.toNat < s.toNat + len.toNat
  quiet : s.toNat + len.toNat ≤ ulim.toNat → sysCputs s len k = .ok () k

/-- Some byte of the string is zero, or cannot be read at all. -/
def Ends (k : Pmap) (pgdir : ℕ) (s len : Word) : Prop :=
  ∃ j < len.toNat, ∀ ch, k.byteAt pgdir (s + BitVec.ofNat 32 j) = some ch → ch = 0#8

variable {K : Kern} {c : ℕ} {s : Word}

theorem add_ofNat_toNat (h : s.toNat + j < 2 ^ 32) : (s + BitVec.ofNat 32 j).toNat = s.toNat + j := by
  rw [BitVec.toNat_add, BitVec.toNat_ofNat]
  omega

/-- A page that is granted can be read. -/
theorem byteAt_isSome (h : Grants k pgdir perm va) : (k.byteAt pgdir va).isSome := by
  obtain ⟨w, hw, hpres, -⟩ := h
  have hpde : Present (k.mem pgdir (pdx va)) := by
    by_contra hnot
    rw [Pmap.entry, if_neg hnot] at hw
    cases hw
  rw [Pmap.entry, if_pos hpde] at hw
  obtain rfl := Option.some.inj hw
  have hwalk : walk k pgdir va 0#32 = some (pgnum (k.mem (pgnum (k.mem pgdir (pdx va))) (ptx va))) := by
    rw [walk]
    simp only [BitVec.and_zero, hpde, hpres, and_self, if_true]
  rw [Pmap.byteAt, hwalk]
  rfl

/-- What is left of `sys_cputs` once the range is accepted. -/
theorem sysCputs_accepted (hc : K.curenv = some c) (hd : K.dirs c = some pgdir)
    (hacc : userMemCheck pgdir s len pteU K.pm = .ok none K.pm) :
    sysCputs s len K = (when (s ≠ 0#32) (pmap (printStr pgdir (2 ^ 32) s len.toInt))) K := by
  have henv : thisenv K = .ok c K := by
    refine (read_bind).trans ?_
    rw [hc]
    rfl
  have hdir : pgdirOf c K = .ok pgdir K := by
    refine (read_bind).trans ?_
    rw [hd]
    rfl
  have hassert : userMemAssert c s len 0#32 K = .ok () K := by
    refine (bind_ok hdir).trans ((bind_ok (pmap_ok (p := K.pm) (a := none) ?_)).trans rfl)
    exact hacc
  rw [sysCputs, bind_ok henv, bind_ok hassert, bind_ok hdir]

/-- **When `sys_cputs` reads only what was checked**: if the pointer is null, or if a byte of the range is zero.  Otherwise it
also reads the byte after the range. -/
theorem cputs_right_iff (hw : Walkable K.pm pgdir) (hc : K.curenv = some c) (hd : K.dirs c = some pgdir)
    (hacc : userMemCheck pgdir s len pteU K.pm = .ok none K.pm) (hlen : len.toNat < 2 ^ 31)
    (hwrap : s.toNat + len.toNat ≤ 2 ^ 32) :
    CputsRight K pgdir s len ↔ s = 0#32 ∨ Ends K.pm pgdir s len := by
  have hprec : len.toInt = len.toNat := BitVec.toInt_eq_toNat_of_lt (by omega)
  constructor
  · intro hright
    by_contra hcond
    obtain ⟨hs, hends⟩ := not_or.1 hcond
    have hnz : ∀ j < len.toNat, ∃ ch, K.pm.byteAt pgdir (s + BitVec.ofNat 32 j) = some ch ∧ ch ≠ 0#8 := by
      intro j hj
      by_contra hno
      refine hends ⟨j, hj, fun ch hch => ?_⟩
      by_contra hne
      exact hno ⟨ch, hch, hne⟩
    have hmem : s + BitVec.ofNat 32 len.toNat ∈ cputsReads K.pm pgdir s len := by
      rw [cputsReads, if_neg hs]
      exact mem_printReads (by omega) (by omega) hnz
    have hin := hright.reads _ hmem
    rw [BitVec.toNat_add, BitVec.toNat_ofNat] at hin
    omega
  · intro hcond
    have hreads : ∀ x ∈ cputsReads K.pm pgdir s len, s.toNat ≤ x.toNat ∧ x.toNat < s.toNat + len.toNat := by
      intro x hx
      rw [cputsReads] at hx
      split at hx
      · cases hx
      · rename_i hs
        obtain ⟨z, hz, hstop⟩ := hcond.resolve_left hs
        obtain ⟨j, hj, rfl⟩ := printReads_le hstop hx
        rw [add_ofNat_toNat (by omega)]
        omega
    refine ⟨hreads, fun hlim => ?_⟩
    rw [sysCputs_accepted hc hd hacc]
    by_cases hs : s = 0#32
    · rw [when_neg (by simpa using hs)]
      rfl
    rw [when_pos hs]
    refine (pmap_ok (p := K.pm) ?_).trans rfl
    rw [printStr_eq, if_pos]
    intro x hx
    -- what is read lies in the range, and all of this is granted
    have hin := hreads x (by rw [cputsReads, if_neg hs]; exact hx)
    have hlen0 : len ≠ 0#32 := by
      rintro rfl
      have : (0#32 : Word).toNat = 0 := rfl
      omega
    have hulim := ulim_toNat
    have hright : CheckRight K.pm pgdir s len pteU none := by
      have hr : CheckRight K.pm pgdir s len pteU (firstBad K.pm pgdir s pteU (checkPages s len) (roundDown s)) :=
        checkRight_of_le hlen0 (by omega)
      rw [userMemCheck_eq hw] at hacc
      injection hacc with hnone
      rwa [hnone] at hr
    have hgrant := (hright.accepts.1 rfl).2 x.toNat hin.1 hin.2
    rw [BitVec.ofNat_toNat] at hgrant
    exact byteAt_isSome hgrant

/-- An environment that runs alone, with the page directory in page 0. -/
def loneEnv (upcall : Word) : Env where
  envTf := initialTf
  envLink := none
  envId := 0x1000#32
  envParentId := 0#32
  envType := .user
  envStatus := .running
  envRuns := 1#32
  envPgdir := some 0
  envPgfaultUpcall := upcall
  envIpcRecving := false
  envIpcDstva := 0#32
  envIpcValue := 0#32
  envIpcFrom := 0#32
  envIpcPerm := 0#32

def lone (p : Pmap) (upcall : Word) : Kern := ⟨p, fun _ => loneEnv upcall, none, some 0⟩

/-- One page is mapped, at `va`: page 1 is its table, and page 2, whose last word has four letters, the page itself. -/
def onePage (va : Word) : Pmap := { noPages with
  npages := 3
  mem := fun p i => if p = 0 ∧ i = pdx va then 0x1007#32 else if p = 1 ∧ i = ptx va then 0x2007#32
    else if p = 2 ∧ i = 1023 then 0x41414141#32 else 0#32 }

theorem walkable_onePage (va : Word) : Walkable (onePage va) 0 := by
  intro d hp
  have hmem : (onePage va).mem 0 d = if d = pdx va then 0x1007#32 else 0#32 := by
    show (if 0 = 0 ∧ d = pdx va then 0x1007#32 else _) = _
    simp
  rw [hmem] at hp ⊢
  split
  · show pgnum 0x1007#32 < 3
    decide
  · rename_i hne
    rw [if_neg hne] at hp
    exact absurd hp not_present_zero

theorem cputs_right_at : CputsRight (lone (onePage 0x1000#32) 0#32) 0 0x1FF8#32 8#32 :=
  (cputs_right_iff (walkable_onePage 0x1000#32) rfl rfl (userMemCheck_eq (walkable_onePage 0x1000#32) ..)
    (by decide) (by decide)).2 (Or.inr ⟨0, by decide, by decide⟩)

/-- A string that ends exactly at the end of the mapped page makes the kernel fault. -/
theorem cputs_reads_past : 0x2000#32 ∈ cputsReads (onePage 0x1000#32) 0 0x1FFC#32 4#32 ∧
    sysCputs 0x1FFC#32 4#32 (lone (onePage 0x1000#32) 0#32) = .panic .kernelPageFault := by
  have hmem : 0x1FFC#32 + BitVec.ofNat 32 4 ∈ printReads (onePage 0x1000#32) 0 (2 ^ 32) 0x1FFC#32 (4#32 : Word).toInt :=
    mem_printReads (by decide) (by decide) (by decide)
  refine ⟨hmem, ?_⟩
  have hdir : (lone (onePage 0x1000#32) 0#32).dirs 0 = some 0 := rfl
  rw [sysCputs_accepted rfl hdir (userMemCheck_eq (walkable_onePage 0x1000#32) ..), when_pos (by decide)]
  refine pmap_panic ?_
  rw [printStr_eq, if_neg]
  intro hall
  have hlast := hall _ hmem
  revert hlast
  decide

/-! ## Nested page faults -/

variable {tf : Trapframe} {inp : Inputs}

/-- Where `page_fault_handler` puts the frame, if it does not destroy the environment. -/
def framePlace (K : Kern) (c pgdir : ℕ) (tf : Trapframe) : Option Word :=
  if (K.envs c).envPgfaultUpcall = 0#32 then none
  else if firstBad K.pm pgdir (utrapframeTop tf - utrapframeRoom) (pteU ||| pteW)
      (checkPages (utrapframeTop tf - utrapframeRoom) utrapframeRoom) (roundDown (utrapframeTop tf - utrapframeRoom)) = none then
    some (utrapframeTop tf - utrapframeRoom)
  else none

/-- The end of `page_fault_handler`: the frame is written at `utr`, and the environment goes on in its upcall. -/
def enterUpcall (inp : Inputs) (tf : Trapframe) (c pgdir : ℕ) (upcall utr : Word) : KernM Unit := do
  pmap (kernStoreWords pgdir utr (utrapframe inp.cr2 tf))
  modifyEnv c fun v => { v with envTf := { v.envTf with eip := upcall, esp := utr } }
  envRun c

/-- Nothing comes after the destruction of the current environment. -/
theorem bind_envDestroy {m : KernM Unit} {f : Unit → KernM Unit} (hc : K.curenv = some c) (hm : m K = envDestroy c K) :
    (m >>= f) K = envDestroy c K := by
  have hwp := envDestroy_current hc
  rw [wp] at hwp
  rw [bind_apply, hm]
  cases hout : envDestroy c K with
  | ok u K' =>
    rw [hout] at hwp
    exact hwp.elim
  | leave K' => rfl
  | panic e => rfl

/-- **What `page_fault_handler` does** for a fault in user mode. -/
theorem pageFaultHandler_eq (hw : Walkable K.pm pgdir) (hc : K.curenv = some c) (hd : K.dirs c = some pgdir)
    (hu : tf.cs &&& 3#16 ≠ 0#16) : pageFaultHandler inp tf K =
      match framePlace K c pgdir tf with
      | none => envDestroy c K
      | some utr => enterUpcall inp tf c pgdir (K.envs c).envPgfaultUpcall utr K := by
  have henv : thisenv K = .ok c K := by
    refine (read_bind).trans ?_
    rw [hc]
    rfl
  have hdir : pgdirOf c K = .ok pgdir K := by
    refine (read_bind).trans ?_
    rw [hd]
    rfl
  rw [pageFaultHandler, if_neg hu, bind_ok henv, read_bind]
  by_cases hup : (K.envs c).envPgfaultUpcall = 0#32
  · rw [if_neg (by simpa using hup), framePlace, if_pos hup]
  rw [if_pos hup, framePlace, if_neg hup]
  have hcheck := pmap_ok (k := K) (userMemCheck_eq hw (utrapframeTop tf - utrapframeRoom) utrapframeRoom
    ((pteU ||| pteW) ||| pteU))
  rw [show (pteU ||| pteW) ||| pteU = pteU ||| pteW from by decide] at hcheck
  have hassert : userMemAssert c (utrapframeTop tf - utrapframeRoom) utrapframeRoom (pteU ||| pteW) K = _ :=
    (bind_ok hdir).trans ((bind_ok hcheck).trans rfl)
  cases hbad : firstBad K.pm pgdir (utrapframeTop tf - utrapframeRoom) (pteU ||| pteW)
      (checkPages (utrapframeTop tf - utrapframeRoom) utrapframeRoom) (roundDown (utrapframeTop tf - utrapframeRoom)) with
  | none =>
    rw [hbad] at hassert
    exact (bind_ok hassert).trans (bind_ok hdir)
  | some x =>
    rw [hbad] at hassert
    exact bind_envDestroy hc hassert

/-- The handler destroys the environment, or it writes its frame, with the scratch word above it, below the stack pointer
of the fault. -/
def FrameBelow (inp : Inputs) (tf : Trapframe) (K : Kern) (c pgdir : ℕ) : Prop :=
  match framePlace K c pgdir tf with
  | none => pageFaultHandler inp tf K = envDestroy c K
  | some utr => pageFaultHandler inp tf K = enterUpcall inp tf c pgdir (K.envs c).envPgfaultUpcall utr K ∧
      utr.toNat + utrapframeRoom.toNat ≤ tf.esp.toNat

/-- **When a nested fault keeps what is on the exception stack**: if the stack is not exactly full, or if the environment
is destroyed. -/
theorem frame_below_iff (hw : Walkable K.pm pgdir) (hc : K.curenv = some c) (hd : K.dirs c = some pgdir)
    (hu : tf.cs &&& 3#16 ≠ 0#16) (hlo : uxstack ≤ tf.esp) (hhi : tf.esp < uxstacktop) :
    FrameBelow inp tf K c pgdir ↔ tf.esp ≠ uxstack ∨ framePlace K c pgdir tf = none := by
  have hstack : uxstack.toNat = 0xEEBFF000 := by decide
  have hroom : utrapframeRoom.toNat = 56 := by decide
  have heq : pageFaultHandler inp tf K = _ := pageFaultHandler_eq hw hc hd hu
  rw [FrameBelow]
  cases hplace : framePlace K c pgdir tf with
  | none =>
    rw [hplace] at heq
    exact iff_of_true heq (Or.inr rfl)
  | some utr =>
    rw [hplace] at heq
    have hutr : utr = utrapframeTop tf - utrapframeRoom := by
      rw [framePlace] at hplace
      split at hplace
      · cases hplace
      · split at hplace
        · exact (Option.some.inj hplace).symm
        · cases hplace
    rw [BitVec.le_def] at hlo
    by_cases hfull : tf.esp = uxstack
    · refine iff_of_false (fun hbelow => ?_) fun hcond => ?_
      · have htf : utrapframeTop tf = uxstacktop := if_neg fun hin => by
          rw [hfull] at hin
          exact absurd hin.1 (by decide)
        have hle := hbelow.2
        rw [hutr, htf, hfull] at hle
        exact absurd hle (by decide)
      · exact hcond.elim (fun hne => hne hfull) nofun
    · refine iff_of_true ⟨heq, ?_⟩ (Or.inl hfull)
      have hne : tf.esp.toNat ≠ uxstack.toNat := fun h => hfull (BitVec.eq_of_toNat_eq h)
      have htf : utrapframeTop tf = tf.esp := by
        refine if_pos ⟨?_, BitVec.lt_def.2 hhi⟩
        show uxstack < tf.esp
        rw [BitVec.lt_def]
        omega
      rw [hutr, htf, BitVec.toNat_sub]
      omega

/-- A frame of a fault on the exception stack, with the stack pointer at `esp`. -/
def faultTf (esp : Word) : Trapframe := { initialTf with esp := esp }

theorem frame_below_at : FrameBelow ⟨0#32, 0, none⟩ (faultTf (uxstack + 100#32)) (lone (onePage uxstack) 0x800000#32) 0 0 :=
  (frame_below_iff (walkable_onePage uxstack) rfl rfl (by decide) (by decide) (by decide)).2 (Or.inl (by decide))

/-- The exception stack is exactly full, and the frame is put at its top again. -/
theorem frame_overwrites : framePlace (lone (onePage uxstack) 0x800000#32) 0 0 (faultTf uxstack) = some (uxstacktop - 56#32) ∧
    ¬ FrameBelow ⟨0#32, 0, none⟩ (faultTf uxstack) (lone (onePage uxstack) 0x800000#32) 0 0 := by
  have hplace : framePlace (lone (onePage uxstack) 0x800000#32) 0 0 (faultTf uxstack) = some (uxstacktop - 56#32) := by decide
  refine ⟨hplace, fun hbelow => ?_⟩
  have hle := hbelow.2
  revert hle
  decide

end OsLab.Jos
