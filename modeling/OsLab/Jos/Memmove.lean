import OsLab.Lib.Copy

/-!
# `memmove` of JOS: `lib/string.c`

With `ASM`, `memmove` copies by `rep movsl` if both addresses and the length are multiples of 4, and by
`rep movsb` otherwise; without it, by a loop over the bytes.  Blocks do not wrap around, so that a pointer is
used only where it is below `2 ^ 32`; the end of the source, which is compared with `dst`, is computed in 32 bits.
-/

namespace OsLab.Jos.Memmove

open Copy

/-- `memmove`, with `ASM`. -/
def memmove (m : ℕ → BitVec 8) (dst src n : ℕ) : ℕ → BitVec 8 :=
  if src < dst ∧ dst < (src + n) % 2 ^ 32 then
    -- `std`
    if (src + n) % 4 = 0 ∧ (dst + n) % 4 = 0 ∧ n % 4 = 0 then copyDown 4 (n / 4) m (dst + n - 4) (src + n - 4)
    else copyDown 1 n m (dst + n - 1) (src + n - 1)
  else
    -- `cld`
    if src % 4 = 0 ∧ dst % 4 = 0 ∧ n % 4 = 0 then copyUp 4 (n / 4) m dst src
    else copyUp 1 n m dst src

/-- `memmove`, without `ASM`. -/
def memmovePlain (m : ℕ → BitVec 8) (dst src n : ℕ) : ℕ → BitVec 8 := Copy.memmove m dst src n

variable {m : ℕ → BitVec 8} {dst src n : ℕ}

theorem memmove_eq_move (hd : dst + n ≤ 2 ^ 32) : memmove m dst src n = move m dst src n := by
  rw [memmove]
  split
  case isTrue h =>
    split
    case isTrue h4 => exact copyDown_eq_move (Nat.mul_div_cancel' (Nat.dvd_of_mod_eq_zero h4.2.2)) h.1.le
    case isFalse => exact copyDown_eq_move (Nat.one_mul n) h.1.le
  case isFalse h =>
    split
    case isTrue h4 => exact copyUp_eq_move (Nat.mul_div_cancel' (Nat.dvd_of_mod_eq_zero h4.2.2)) (apart hd h)
    case isFalse => exact copyUp_eq_move (Nat.one_mul n) (apart hd h)

/-- **The two variants of `memmove` agree**, for every alignment and overlap: the bytes of the source are at
the destination, and all others are as before. -/
theorem memmove_variants_agree (m : ℕ → BitVec 8) (dst src n : ℕ) (hd : dst + n ≤ 2 ^ 32) :
    memmove m dst src n = memmovePlain m dst src n ∧
      (∀ k < n, memmovePlain m dst src n (dst + k) = m (src + k)) ∧
      ∀ x, x < dst ∨ dst + n ≤ x → memmovePlain m dst src n x = m x := by
  have hplain : memmovePlain m dst src n = move m dst src n := Copy.memmove_eq_move hd
  refine ⟨(memmove_eq_move hd).trans hplain.symm, fun k hk => ?_, fun x hx => ?_⟩
  · rw [hplain, move_add hk]
  · rw [hplain, move_of_not _ _ hx]

/-- Words that overlap, with the destination above the source. -/
theorem memmove_variants_agree_words :
    memmove (fun x => BitVec.ofNat 8 x) 4 0 8 = memmovePlain (fun x => BitVec.ofNat 8 x) 4 0 8 :=
  (memmove_variants_agree _ 4 0 8 (by decide)).1

end OsLab.Jos.Memmove
