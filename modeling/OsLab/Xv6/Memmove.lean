import OsLab.Lib.Copy

/-!
# The two functions `memmove` of xv6: `string.c` and `ulib.c`

That of the kernel copies downwards if the destination begins inside the source; that of user programs always
copies upwards, so that it repeats the first bytes of the source there.
-/

namespace OsLab.Xv6.Memmove

open Copy

/-- `memmove` of `string.c`. -/
def memmove (m : ℕ → BitVec 8) (dst src n : ℕ) : ℕ → BitVec 8 := Copy.memmove m dst src n

/-- `memmove` of `ulib.c`, whose `n` is an `int`: from `2 ^ 31` on it is negative. -/
def ulibMemmove (m : ℕ → BitVec 8) (vdst vsrc n : ℕ) : ℕ → BitVec 8 :=
  if n < 2 ^ 31 then copyUp 1 n m vdst vsrc else m

/-- **The two functions agree exactly if** the destination does not begin inside the source, or the source repeats
itself at the distance of the two; that of `string.c` is always right. -/
theorem memmoves_agree_iff (m : ℕ → BitVec 8) (dst src n : ℕ) (hn : n < 2 ^ 31) (hd : dst + n ≤ 2 ^ 32) :
    memmove m dst src n = move m dst src n ∧
      (ulibMemmove m dst src n = memmove m dst src n ↔
        (src < dst → ∀ x, dst ≤ x → x < src + n → m (x - (dst - src)) = m x)) := by
  have hright : memmove m dst src n = move m dst src n := memmove_eq_move hd
  refine ⟨hright, ?_⟩
  rw [hright, ulibMemmove, if_pos hn]
  by_cases hlt : src < dst
  · rw [copyUp_eq_move_iff hlt, imp_iff_right hlt]
  · exact iff_of_true (copyUp_eq_move (Nat.one_mul n) (Or.inl (Nat.le_of_not_lt hlt))) fun h => absurd h hlt

/-- A byte is moved up by one place. -/
theorem memmoves_agree_iff_one :
    ulibMemmove (fun x => BitVec.ofNat 8 x) 1 0 1 = memmove (fun x => BitVec.ofNat 8 x) 1 0 1 :=
  (memmoves_agree_iff _ 1 0 1 (by decide) (by decide)).2.2 fun _ x h1 h2 => by omega

/-- Two bytes are moved up by one place: the second is lost. -/
theorem ulib_memmove_overlap : ulibMemmove (fun x => BitVec.ofNat 8 x) 1 0 2 2 = 0#8 ∧
    memmove (fun x => BitVec.ofNat 8 x) 1 0 2 2 = 1#8 := by
  decide

end OsLab.Xv6.Memmove
