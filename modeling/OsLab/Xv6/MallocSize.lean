import OsLab.Xv6.Sbrk
import OsLab.Xv6.UmallocSpec

/-!
# The sizes in `malloc`

`malloc` rounds what is asked for to headers, `morecore` turns headers into bytes, and `growproc` takes them as a number
with a sign: three words that may wrap around, each for other requests.

* **`malloc_sizes_iff`**: the block that `malloc` returns is large enough, and `sbrk` is not made to shrink the memory, if
  and only if fewer than 2³¹ - 15 bytes are asked for — or more, but `sbrk` is made to remove exactly what there is, which
  it refuses.
* `malloc_short`: a block of one header for 2³² - 1 bytes, and 2³¹ - 8 bytes less than before for 2³¹ bytes.
-/

namespace OsLab.Xv6.Umalloc

open Exec Function

variable {K : Vm.Kernel} {σ : Memory.State} {F : Multiset Files.FileId} {p : Files.Slot} {nbytes : ℕ}

/-- What `morecore` passes to `sbrk` for `malloc(nbytes)`. -/
def increment (nbytes : ℕ) : BitVec 32 :=
  BitVec.ofNat 32 ((if Heap.units nbytes < 4096 then 4096 else Heap.units nbytes) * headerSize)

/-- **The sizes are right** for a request of the process `p`. -/
structure SizesRight (K : Vm.Kernel) (σ : Memory.State) (p : Files.Slot) (nbytes : ℕ) : Prop where
  /-- `malloc` returns null, or a block of `1 + ⌈nbytes / 8⌉` headers in the memory that `sbrk` has returned -/
  block : ∀ base lo s, Inv base lo s → ∀ oks, (oks.headD false = true → 0 < (increment nbytes).toInt) →
    ∃ N r, (∀ fuel, N ≤ fuel → s.heap.malloc base fuel oks nbytes = some r) ∧
      (r.1 = 0 ∨ 1 + (nbytes + 7) / 8 ≤ r.2.size (r.1 - headerSize) ∧ lo ≤ r.1 - headerSize ∧
        r.2.stop (r.1 - headerSize) ≤ r.2.brk)
  /-- `sbrk` accepts only what adds memory -/
  accepts : ∀ σ', Memory.growproc K p (increment nbytes) σ = .ok true σ' → 0 < (increment nbytes).toInt

/-- `sbrk` is made to add memory. -/
theorem increment_pos_iff (hn : nbytes + 7 < 2 ^ 32) : 0 < (increment nbytes).toInt ↔ nbytes + 15 < 2 ^ 31 := by
  have hunits : Heap.units nbytes = (nbytes + 7) / 8 + 1 := by
    rw [Heap.units, headerSize, Nat.mod_eq_of_lt (by omega)]
    rfl
  rw [increment, BitVec.toInt_eq_toNat_cond, BitVec.toNat_ofNat, hunits, headerSize]
  split_ifs <;> omega

/-- The sum of the size and what is asked for wraps around. -/
theorem units_wrap (hwrap : 2 ^ 32 ≤ nbytes + 7) (hn : nbytes < 2 ^ 32) : Heap.units nbytes = 1 := by
  rw [Heap.units, headerSize]
  omega

/-- Before the first call, with memory from 16 on. -/
def fresh : State := ⟨⟨fun _ => 0, fun _ => 0, 0, 16⟩, fun _ => none⟩

theorem fresh_inv : Inv 8 16 fresh := by
  refine ⟨⟨by decide, by decide, le_refl 16, by decide⟩, Or.inl ⟨rfl, rfl, fun _ => rfl⟩⟩

/-- One header is cut off the end of the memory that `morecore` gets. -/
theorem fresh_malloc (hunits : Heap.units nbytes = 1) :
    ∃ h, fresh.heap.malloc 8 3 [true] nbytes = some (32784, h) ∧ h.size 32776 = 1 := by
  rw [Heap.malloc, hunits]
  exact ⟨_, rfl, rfl⟩

/-- **The block is too short** if the sum wraps around. -/
theorem not_sizesRight (hwrap : 2 ^ 32 ≤ nbytes + 7) (hn : nbytes < 2 ^ 32) : ¬ SizesRight K σ p nbytes := by
  intro hright
  have hunits := units_wrap hwrap hn
  have hpos : 0 < (increment nbytes).toInt := by
    rw [increment, hunits]
    decide
  obtain ⟨N, r, hall, hr⟩ := hright.block 8 16 fresh fresh_inv [true] fun _ => hpos
  obtain ⟨h, hrun, hsize⟩ := fresh_malloc hunits
  have hmore : fresh.heap.malloc 8 (max 3 N) [true] nbytes = some (32784, h) := scan_mono hrun (Nat.le_max_left 3 N)
  obtain rfl : r = (32784, h) := Option.some.inj ((hall _ (Nat.le_max_right 3 N)).symm.trans hmore)
  rcases hr with hzero | ⟨hlarge, -⟩
  · exact absurd (show 32784 = 0 from hzero) (by decide)
  · have hlarge' : 1 + (nbytes + 7) / 8 ≤ h.size 32776 := hlarge
    omega

/-- A block that is large enough. -/
theorem Given.large {base lo n : ℕ} {live : ℕ → Option ℕ} {r : ℕ × Heap} (hg : Given base lo live n r) :
    r.1 = 0 ∨ 1 + (n + 7) / 8 ≤ r.2.size (r.1 - headerSize) ∧ lo ≤ r.1 - headerSize ∧
      r.2.stop (r.1 - headerSize) ≤ r.2.brk := by
  obtain ⟨-, ⟨hzero, -⟩ | ⟨-, -, F, hh⟩⟩ := hg
  · exact Or.inl hzero
  have hlive : update live (r.1 - headerSize) (some n) (r.1 - headerSize) = some n := update_self ..
  have hfits := hh.fits _ n hlive
  rw [headerSize] at hfits ⊢
  exact Or.inr ⟨by omega, hh.tiling.low _ (live_block hlive), hh.tiling.high _ (live_block hlive)⟩

/-- **When the sizes are right.** -/
theorem malloc_sizes_iff (h : Memory.Inv K σ F) (hlive : (σ.proc p).state = .live) (hn : nbytes < 2 ^ 32) :
    SizesRight K σ p nbytes ↔
      nbytes + 15 < 2 ^ 31 ∨ nbytes + 7 < 2 ^ 32 ∧ ((σ.proc p).sz : ℤ) + (increment nbytes).toInt = 0 := by
  by_cases hwrap : 2 ^ 32 ≤ nbytes + 7
  · exact iff_of_false (not_sizesRight hwrap hn) (by omega)
  have hsmall : nbytes + 7 < 2 ^ 32 := by omega
  have hpos := increment_pos_iff hsmall
  constructor
  · intro hright
    by_contra hcond
    obtain ⟨hlarge, hne⟩ := not_or.1 hcond
    have hneg : (increment nbytes).toInt ≤ 0 := by omega
    obtain ⟨σ', hrun⟩ := (Memory.growproc_accepts_iff h hlive hneg).2 fun hzero => hne ⟨hsmall, hzero⟩
    have hadds := hright.accepts σ' hrun
    omega
  · intro hcond
    refine ⟨fun base lo s hi oks hoks => ?_, fun σ' hrun => ?_⟩
    · obtain ⟨N, r, hall, hgiven⟩ := hi.malloc hsmall oks fun hok => units_lt (hpos.1 (hoks hok))
      exact ⟨N, r, hall, hgiven.large⟩
    · rcases hcond with hlt | ⟨-, hzero⟩
      · exact hpos.2 hlt
      · by_contra hneg
        exact (Memory.growproc_accepts_iff h hlive (by omega)).1 ⟨σ', hrun⟩ hzero

theorem malloc_sizes_boot : ∃ σ, Memory.Start Memory.kernel σ ∧ SizesRight Memory.kernel σ 0 100 := by
  obtain ⟨r, m, hbooted, hstart⟩ := Memory.exists_booted Memory.kernel
  obtain ⟨hinv, -⟩ := Memory.booted_inv hbooted
  exact ⟨_, hstart, (malloc_sizes_iff (p := 0) hinv rfl (by decide)).2 (Or.inl (by decide))⟩

/-- **Requests near 2³² and 2³¹.**  `malloc(2³² - 1)` returns a block of one header; for 2³¹ bytes `init`, which has one page,
is made to give up 2³¹ - 8 bytes, and `sbrk` says that it has. -/
theorem malloc_short : ∃ σ, Memory.Start Memory.kernel σ ∧ ¬ SizesRight Memory.kernel σ 0 (2 ^ 32 - 1) ∧
    ¬ SizesRight Memory.kernel σ 0 (2 ^ 31) ∧
    (∃ h, fresh.heap.malloc 8 3 [true] (2 ^ 32 - 1) = some (32784, h) ∧ h.size 32776 = 1) ∧
    (increment (2 ^ 31)).toInt = -2147483640 ∧
    ∃ σ', Memory.growproc Memory.kernel 0 (increment (2 ^ 31)) σ = .ok true σ' := by
  obtain ⟨r, m, hbooted, hstart⟩ := Memory.exists_booted Memory.kernel
  obtain ⟨hinv, -⟩ := Memory.booted_inv hbooted
  have hneg : (increment (2 ^ 31)).toInt = -2147483640 := by decide
  have hrun : ∃ σ', Memory.growproc Memory.kernel 0 (increment (2 ^ 31)) (Memory.booted m r) = .ok true σ' := by
    refine (Memory.growproc_accepts_iff hinv rfl (by omega)).2 ?_
    rw [hneg]
    exact (by decide : ((4096 : ℕ) : ℤ) + -2147483640 ≠ 0)
  refine ⟨_, hstart, not_sizesRight (by decide) (by decide), fun hright => ?_, fresh_malloc (units_wrap (by decide) (by decide)), hneg,
    hrun⟩
  obtain ⟨σ', hrun'⟩ := hrun
  have hadds := hright.accepts σ' hrun'
  omega

end OsLab.Xv6.Umalloc
