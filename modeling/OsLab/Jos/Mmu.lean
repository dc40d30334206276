import Mathlib.Tactic

/-!
# The x86 memory-management unit as JOS sees it

The words and macros of `inc/mmu.h`, `inc/memlayout.h` and `inc/types.h`:
32-bit words, the split of a linear address into directory index, table index
and offset, the flag bits of a page-table entry, and the map of the address
space.

Physical pages are named by their number, `PGNUM` of their physical address.
The lemmas of this file are what the rest of the kernel model uses about bits:
an entry built as `page2pa pp | perm | PTE_P` with a permission word below 4096
names the page `pp` (`pgnum_mkPte`), carries the permission in its low twelve
bits (`pteFlags_mkPte`), and keeps naming `pp` when more permission bits are
or-ed in (`pgnum_or`).
-/

namespace OsLab.Jos

/-- A 32-bit word: `uint32_t`, `uintptr_t`, `physaddr_t`, `pde_t` and `pte_t`. -/
abbrev Word := BitVec 32

/-! ## Paging constants -/

def npdentries : ℕ := 1024
def nptentries : ℕ := 1024
def pgsize : ℕ := 4096
def ptsize : ℕ := pgsize * nptentries

def pteP : Word := 0x001#32
def pteW : Word := 0x002#32
def pteU : Word := 0x004#32
def ptePwt : Word := 0x008#32
def ptePcd : Word := 0x010#32
/-- The bits the hardware leaves to software. -/
def pteAvail : Word := 0xE00#32
/-- The flags a system call may ask for. -/
def pteSyscall : Word := pteAvail ||| pteP ||| pteW ||| pteU

/-- `PGNUM(la)`. -/
def pgnum (la : Word) : ℕ := (la >>> 12).toNat

/-- `PDX(la)`. -/
def pdx (la : Word) : ℕ := ((la >>> 22) &&& 0x3FF#32).toNat

/-- `PTX(la)`. -/
def ptx (la : Word) : ℕ := ((la >>> 12) &&& 0x3FF#32).toNat

/-- `PGOFF(la)`. -/
def pgoff (la : Word) : ℕ := (la &&& 0xFFF#32).toNat

/-- `PGADDR(d, t, 0)`. -/
def pgaddr (d t : ℕ) : Word := (BitVec.ofNat 32 d <<< 22) ||| (BitVec.ofNat 32 t <<< 12)

/-- `PTE_ADDR(pte)`. -/
def pteAddr (pte : Word) : Word := pte &&& ~~~0xFFF#32

/-- The twelve flag bits of an entry. -/
def pteFlags (pte : Word) : Word := pte &&& 0xFFF#32

/-- `page2pa(pp)`: a page is named by its index in `pages`. -/
def page2pa (pp : ℕ) : Word := BitVec.ofNat 32 pp <<< 12

/-- `ROUNDDOWN(a, PGSIZE)`. -/
def roundDown (a : Word) : Word := a - a % BitVec.ofNat 32 pgsize

/-- `ROUNDUP(a, PGSIZE)`. -/
def roundUp (a : Word) : Word := roundDown (a + BitVec.ofNat 32 pgsize - 1#32)

/-! ## The address space -/

def kernbase : Word := 0xF0000000#32
def kstacktop : Word := kernbase
def kstksize : ℕ := 8 * pgsize
def kstkgap : ℕ := 8 * pgsize
def mmiolim : Word := kstacktop - BitVec.ofNat 32 ptsize
def mmiobase : Word := mmiolim - BitVec.ofNat 32 ptsize
def ulim : Word := mmiobase
def uvpt : Word := ulim - BitVec.ofNat 32 ptsize
def upages : Word := uvpt - BitVec.ofNat 32 ptsize
def uenvs : Word := upages - BitVec.ofNat 32 ptsize
def utop : Word := uenvs
def uxstacktop : Word := utop

/-- `UXSTACKTOP - PGSIZE`: the page of the exception stack. -/
def uxstack : Word := uxstacktop - BitVec.ofNat 32 pgsize

def ustacktop : Word := utop - BitVec.ofNat 32 (2 * pgsize)
def pftemp : Word := BitVec.ofNat 32 (ptsize + ptsize - pgsize)

/-- `IOPHYSMEM`, `EXTPHYSMEM` and `MPENTRY_PADDR`, as physical addresses. -/
def iophysmem : ℕ := 0x0A0000
def extphysmem : ℕ := 0x100000
def mpentryPaddr : ℕ := 0x7000

/-- The page directory entries below `UTOP`: the user half of a directory. -/
def nupde : ℕ := 955

theorem pdx_utop : pdx utop = nupde := by decide

/-! ## Indices -/

theorem pgnum_eq (la : Word) : pgnum la = la.toNat / 4096 := by
  rw [pgnum, BitVec.toNat_ushiftRight, Nat.shiftRight_eq_div_pow]

theorem pgnum_lt (la : Word) : pgnum la < 2 ^ 20 := by
  rw [pgnum_eq]
  omega

theorem toNat_and_low10 (x : Word) : (x &&& 0x3FF#32).toNat = x.toNat % 1024 := by
  exact Nat.and_two_pow_sub_one_eq_mod x.toNat 10

theorem pdx_eq (la : Word) : pdx la = la.toNat / 4194304 := by
  rw [pdx, toNat_and_low10, BitVec.toNat_ushiftRight]
  omega

theorem ptx_eq (la : Word) : ptx la = la.toNat / 4096 % 1024 := by
  rw [ptx, toNat_and_low10, BitVec.toNat_ushiftRight, Nat.shiftRight_eq_div_pow]

theorem ptx_lt (la : Word) : ptx la < nptentries := by
  rw [ptx_eq]
  exact Nat.mod_lt _ (by decide)

theorem utop_toNat : utop.toNat = nupde * 4194304 := by decide

/-- An address below `UTOP` lies in the user half of the directory. -/
theorem pdx_lt_nupde {va : Word} (h : va < utop) : pdx va < nupde := by
  rw [BitVec.lt_def, utop_toNat] at h
  rw [pdx_eq]
  omega

theorem nupde_le_pdx {va : Word} (h : ¬ va < utop) : nupde ≤ pdx va := by
  rw [BitVec.lt_def, utop_toNat] at h
  rw [pdx_eq]
  omega

theorem pgaddr_toNat {d t : ℕ} (hd : d < 1024) (ht : t < 1024) :
    (pgaddr d t).toNat = d * 4194304 + t * 4096 := by
  have h1 : (BitVec.ofNat 32 d <<< 22).toNat = d <<< 22 := by
    simp only [BitVec.toNat_shiftLeft, BitVec.toNat_ofNat, Nat.shiftLeft_eq]
    omega
  have h2 : (BitVec.ofNat 32 t <<< 12).toNat = t * 4096 := by
    simp only [BitVec.toNat_shiftLeft, BitVec.toNat_ofNat, Nat.shiftLeft_eq]
    omega
  rw [pgaddr, BitVec.toNat_or, h1, h2, ← Nat.shiftLeft_add_eq_or_of_lt (by omega),
    Nat.shiftLeft_eq]

theorem pdx_pgaddr {d t : ℕ} (hd : d < 1024) (ht : t < 1024) : pdx (pgaddr d t) = d := by
  rw [pdx_eq, pgaddr_toNat hd ht]
  omega

theorem ptx_pgaddr {d t : ℕ} (hd : d < 1024) (ht : t < 1024) : ptx (pgaddr d t) = t := by
  rw [ptx_eq, pgaddr_toNat hd ht]
  omega

/-! ## Entries -/

/-- A permission word that stays inside the twelve flag bits. -/
def LowPerm (perm : Word) : Prop := perm.toNat < 4096

instance (perm : Word) : Decidable (LowPerm perm) := inferInstanceAs (Decidable (_ < _))

theorem toNat_and_low12 (x : Word) : (x &&& 0xFFF#32).toNat = x.toNat % 4096 := by
  exact Nat.and_two_pow_sub_one_eq_mod x.toNat 12

variable {pp : ℕ}

theorem page2pa_toNat (h : pp < 2 ^ 20) : (page2pa pp).toNat = pp <<< 12 := by
  simp only [page2pa, BitVec.toNat_shiftLeft, BitVec.toNat_ofNat, Nat.shiftLeft_eq]
  omega

variable {perm w : Word}

theorem page2pa_or_toNat (h : pp < 2 ^ 20) (hperm : LowPerm perm) :
    (page2pa pp ||| perm).toNat = pp * 4096 + perm.toNat := by
  rw [BitVec.toNat_or, page2pa_toNat h, ← Nat.shiftLeft_add_eq_or_of_lt hperm, Nat.shiftLeft_eq]

theorem pgnum_page2pa_or (h : pp < 2 ^ 20) (hperm : LowPerm perm) :
    pgnum (page2pa pp ||| perm) = pp := by
  have := hperm
  unfold LowPerm at this
  rw [pgnum_eq, page2pa_or_toNat h hperm]
  omega

theorem pgnum_page2pa (h : pp < 2 ^ 20) : pgnum (page2pa pp) = pp := by
  rw [pgnum_eq, page2pa_toNat h]
  omega

theorem getLsbD_low12 {i : ℕ} (hi : i < 32) : (0xFFF#32).getLsbD i = decide (i < 12) := by
  interval_cases i <;> rfl

/-- The address part of an entry is the address of the page it names. -/
theorem pteAddr_eq : pteAddr w = page2pa (pgnum w) := by
  apply BitVec.eq_of_getLsbD_eq
  intro i hi
  simp only [pteAddr, page2pa, pgnum, BitVec.getLsbD_and, BitVec.getLsbD_shiftLeft,
    BitVec.ofNat_toNat, BitVec.setWidth_eq, BitVec.getLsbD_ushiftRight, BitVec.getLsbD_not,
    getLsbD_low12 hi]
  by_cases h : i < 12
  · simp [h]
  · rw [show 12 + (i - 12) = i by omega]
    simp [h, hi]

/-- Or-ing in permission bits does not change the page an entry names. -/
theorem pgnum_or (hperm : LowPerm perm) : pgnum (w ||| perm) = pgnum w := by
  have h0 : perm.toNat >>> 12 = 0 := by
    rw [Nat.shiftRight_eq_div_pow]
    exact Nat.div_eq_of_lt hperm
  rw [pgnum, pgnum, BitVec.toNat_ushiftRight, BitVec.toNat_ushiftRight, BitVec.toNat_or,
    Nat.shiftRight_or_distrib, h0, Nat.or_zero]

/-- `*entry & PTE_P`. -/
def Present (w : Word) : Prop := w &&& pteP ≠ 0#32

instance (w : Word) : Decidable (Present w) := inferInstanceAs (Decidable (_ ≠ _))

theorem present_iff : Present w ↔ w.getLsbD 0 = true := by
  have hand : (w &&& pteP).toNat = w.toNat % 2 := by
    exact Nat.and_two_pow_sub_one_eq_mod w.toNat 1
  have hbit : w.getLsbD 0 = decide (w.toNat % 2 = 1) := by
    rw [← BitVec.testBit_toNat, Nat.testBit_zero]
  rw [Present, Ne, ← BitVec.toNat_inj, hand, hbit]
  simp

@[simp] theorem not_present_zero : ¬ Present 0#32 := by decide

theorem present_or_pteP : Present (w ||| pteP) := by
  rw [present_iff]
  simp [pteP]

theorem present_or (h : Present w) (v : Word) : Present (w ||| v) := by
  rw [present_iff] at h ⊢
  rw [BitVec.getLsbD_or, h, Bool.true_or]

theorem ne_zero_of_present (h : Present w) : w ≠ 0#32 := by
  rintro rfl
  exact not_present_zero h

/-- The entry `page2pa(pp) | perm | PTE_P` that the kernel writes for a page. -/
def mkPte (pp : ℕ) (perm : Word) : Word := page2pa pp ||| perm ||| pteP

theorem lowPerm_or {p q : Word} (hp : LowPerm p) (hq : LowPerm q) : LowPerm (p ||| q) := by
  exact Nat.or_lt_two_pow (n := 12) hp hq

theorem present_mkPte (pp : ℕ) (perm : Word) : Present (mkPte pp perm) := present_or_pteP

theorem pgnum_mkPte (h : pp < 2 ^ 20) (hperm : LowPerm perm) :
    pgnum (mkPte pp perm) = pp := by
  rw [mkPte, pgnum_or (by decide), pgnum_page2pa_or h hperm]

theorem pteFlags_mkPte (h : pp < 2 ^ 20) (hperm : LowPerm perm) :
    pteFlags (mkPte pp perm) = perm ||| pteP := by
  have hlow : LowPerm (perm ||| pteP) := lowPerm_or hperm (by decide)
  have h' := hlow
  unfold LowPerm at h'
  rw [← BitVec.toNat_inj, pteFlags, mkPte, BitVec.or_assoc, toNat_and_low12,
    page2pa_or_toNat h hlow]
  omega

/-- `perm` asks for nothing outside `PTE_SYSCALL`. -/
def PermOk (perm : Word) : Prop := perm &&& ~~~pteSyscall = 0#32

instance (perm : Word) : Decidable (PermOk perm) := inferInstanceAs (Decidable (_ = _))

theorem PermOk.lowPerm (h : PermOk perm) : LowPerm perm := by
  have heq : perm &&& pteSyscall = perm := by
    apply BitVec.eq_of_getLsbD_eq
    intro i hi
    have hbit : (perm &&& ~~~pteSyscall).getLsbD i = false := by rw [h]; simp
    cases hp : perm.getLsbD i <;> simp_all
  have hle : (perm &&& pteSyscall).toNat ≤ pteSyscall.toNat := by
    exact Nat.and_le_right
  rw [heq] at hle
  exact lt_of_le_of_lt hle (by decide)

/-! ## Page addresses -/

theorem page2pa_toNat_mod : (page2pa pp).toNat = pp * 4096 % 2 ^ 32 := by
  simp only [page2pa, BitVec.toNat_shiftLeft, BitVec.toNat_ofNat, Nat.shiftLeft_eq]
  omega

theorem page2pa_add {i : ℕ} : page2pa pp + BitVec.ofNat 32 (i * 4096) = page2pa (pp + i) := by
  apply BitVec.eq_of_toNat_eq
  rw [BitVec.toNat_add, page2pa_toNat_mod, page2pa_toNat_mod, BitVec.toNat_ofNat]
  omega

/-- The address of a page has no flag bits. -/
theorem page2pa_and_low (pp : ℕ) (hw : LowPerm w) : page2pa pp &&& w = 0#32 := by
  apply BitVec.eq_of_getLsbD_eq
  intro i hi
  rw [page2pa]
  by_cases hlow : i < 12
  · simp [hlow]
  · have hbit : w.getLsbD i = false := by
      have hpow : 2 ^ 12 ≤ 2 ^ i := Nat.pow_le_pow_right (by decide) (Nat.not_lt.1 hlow)
      exact Nat.testBit_lt_two_pow (lt_of_lt_of_le hw hpow)
    simp [hbit]

/-- The flags of an entry made of a page address and flag bits. -/
theorem entry_and (hw : LowPerm w) :
    (page2pa pp ||| pteP ||| perm) &&& w = (pteP ||| perm) &&& w := by
  have hor : ∀ a b : Word, (a ||| b) &&& w = (a &&& w) ||| (b &&& w) := by
    intro a b
    apply BitVec.eq_of_getLsbD_eq
    intro i _
    simp only [BitVec.getLsbD_and, BitVec.getLsbD_or, Bool.and_or_distrib_right]
  rw [BitVec.or_assoc, hor, page2pa_and_low pp hw, BitVec.zero_or]

/-- The same, for an entry that `page_insert` makes. -/
theorem mkPte_and (hw : LowPerm w) :
    mkPte pp perm &&& w = (perm ||| pteP) &&& w := by
  rw [mkPte, BitVec.or_assoc, BitVec.or_comm perm pteP, ← BitVec.or_assoc, entry_and hw]

theorem roundDown_toNat (a : Word) : (roundDown a).toNat = a.toNat / 4096 * 4096 := by
  have hmod : (a % BitVec.ofNat 32 pgsize).toNat = a.toNat % 4096 := by
    rfl
  rw [roundDown, BitVec.toNat_sub_of_le]
  · omega
  · rw [BitVec.le_def]
    omega

theorem roundDown_eq_page2pa (a : Word) : roundDown a = page2pa (pgnum a) := by
  apply BitVec.eq_of_toNat_eq
  rw [roundDown_toNat, page2pa_toNat_mod, pgnum_eq]
  omega

end OsLab.Jos
