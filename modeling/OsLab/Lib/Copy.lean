import Mathlib.Tactic

/-!
# Copying in a memory

`move` copies a block as a whole.  `copyUp` and `copyDown` copy it unit by unit, upwards from the first
unit or downwards from the last.

* `copyUp_eq_move`, `copyDown_eq_move`: they do the same if no cell is overwritten before it is read.
* `memmove_eq_move`: `memmove` chooses the direction rightly.
* `copyUp_repeats`: cells copied upwards to a place above the source repeat what is below that place.
-/

namespace OsLab.Copy

variable {α : Type*} {m : ℕ → α} {d s w n k x : ℕ}

/-- The memory with the `n` cells from `s` on copied to `d`, all of them read before one is written. -/
def move (m : ℕ → α) (d s n : ℕ) : ℕ → α := fun x => if d ≤ x ∧ x < d + n then m (s + (x - d)) else m x

/-- `n` units of `w` cells are copied; `d` and `s` go up. -/
def copyUp (w : ℕ) : ℕ → (ℕ → α) → ℕ → ℕ → ℕ → α
  | 0, m, _, _ => m
  | n + 1, m, d, s => copyUp w n (move m d s w) (d + w) (s + w)

/-- `n` units of `w` cells are copied; `d` and `s` go down. -/
def copyDown (w : ℕ) : ℕ → (ℕ → α) → ℕ → ℕ → ℕ → α
  | 0, m, _, _ => m
  | n + 1, m, d, s => copyDown w n (move m d s w) (d - w) (s - w)

theorem move_add (h : k < n) : move m d s n (d + k) = m (s + k) := by
  rw [move, if_pos ⟨Nat.le_add_right d k, by omega⟩, Nat.add_sub_cancel_left]

theorem move_of_not (m : ℕ → α) (s : ℕ) (h : x < d ∨ d + n ≤ x) : move m d s n x = m x := if_neg (by omega)

theorem move_zero (m : ℕ → α) (d s : ℕ) : move m d s 0 = m := funext fun x => move_of_not m s (by omega)

/-- A block is moved in two parts, if the second part is not overwritten by the first. -/
theorem move_move (h : d ≤ s ∨ s + w + n ≤ d) :
    move (move m d s w) (d + w) (s + w) n = move m d s (w + n) := by
  funext x
  by_cases hlo : x < d
  · rw [move_of_not _ _ (by omega), move_of_not _ _ (by omega), move_of_not _ _ (by omega)]
  obtain ⟨k, rfl⟩ := Nat.exists_eq_add_of_le (Nat.le_of_not_lt hlo)
  by_cases hk : k < w
  · rw [move_of_not _ _ (by omega), move_add hk, move_add (by omega)]
  obtain ⟨j, rfl⟩ := Nat.exists_eq_add_of_le (Nat.le_of_not_lt hk)
  by_cases hj : j < n
  · rw [← Nat.add_assoc d, move_add hj, move_of_not _ _ (by omega), Nat.add_assoc d, move_add (by omega),
      Nat.add_assoc s]
  · rw [move_of_not _ _ (by omega), move_of_not _ _ (by omega), move_of_not _ _ (by omega)]

/-- The same, with the second part first. -/
theorem move_move_above (h : s ≤ d) : move (move m (d + n) (s + n) w) d s n = move m d s (n + w) := by
  funext x
  by_cases hlo : x < d
  · rw [move_of_not _ _ (by omega), move_of_not _ _ (by omega), move_of_not _ _ (by omega)]
  obtain ⟨k, rfl⟩ := Nat.exists_eq_add_of_le (Nat.le_of_not_lt hlo)
  by_cases hk : k < n
  · rw [move_add hk, move_of_not _ _ (by omega), move_add (by omega)]
  obtain ⟨j, rfl⟩ := Nat.exists_eq_add_of_le (Nat.le_of_not_lt hk)
  rw [move_of_not _ _ (by omega)]
  by_cases hj : j < w
  · rw [← Nat.add_assoc d, move_add hj, Nat.add_assoc d, move_add (by omega), Nat.add_assoc s]
  · rw [move_of_not _ _ (by omega), move_of_not _ _ (by omega)]

theorem copyUp_eq_move (hn : w * k = n) (h : d ≤ s ∨ s + n ≤ d) : copyUp w k m d s = move m d s n := by
  subst hn
  induction k generalizing m d s with
  | zero => exact (move_zero m d s).symm
  | succ k ih =>
    rw [Nat.mul_succ] at h
    rw [copyUp, ih (by omega), move_move (by omega), Nat.mul_succ, Nat.add_comm]

theorem copyDown_eq_move (hn : w * k = n) (h : s ≤ d) :
    copyDown w k m (d + n - w) (s + n - w) = move m d s n := by
  subst hn
  induction k generalizing m with
  | zero => exact (move_zero m d s).symm
  | succ k ih =>
    rw [Nat.mul_succ, ← Nat.add_assoc, ← Nat.add_assoc, Nat.add_sub_cancel, Nat.add_sub_cancel, copyDown, ih,
      move_move_above h]

/-- `memmove`, cell by cell and with pointers of 32 bits: downwards if the destination begins inside the
source. -/
def memmove (m : ℕ → α) (dst src n : ℕ) : ℕ → α :=
  if src < dst ∧ dst < (src + n) % 2 ^ 32 then copyDown 1 n m (dst + n - 1) (src + n - 1)
  else copyUp 1 n m dst src

/-- The test for overlap is right if the destination does not wrap around. -/
theorem apart (hd : d + n ≤ 2 ^ 32) (h : ¬ (s < d ∧ d < (s + n) % 2 ^ 32)) : d ≤ s ∨ s + n ≤ d := by
  omega

theorem memmove_eq_move (hd : d + n ≤ 2 ^ 32) : memmove m d s n = move m d s n := by
  rw [memmove]
  split
  case isTrue h => exact copyDown_eq_move (Nat.one_mul n) h.1.le
  case isFalse h => exact copyUp_eq_move (Nat.one_mul n) (apart hd h)

/-! ## Cells copied upwards to a place above the source -/

theorem copyUp_of_not (h : x < d ∨ d + n ≤ x) : copyUp 1 n m d s x = m x := by
  induction n generalizing m d s with
  | zero => rfl
  | succ n ih => rw [copyUp, ih (by omega), move_of_not _ _ (by omega)]

/-- Every cell is like the one it is copied from, when all is done. -/
theorem copyUp_repeats (h : s < d) (hk : k < n) : copyUp 1 n m d s (d + k) = copyUp 1 n m d s (s + k) := by
  induction n generalizing m d s k with
  | zero => exact absurd hk (Nat.not_lt_zero k)
  | succ n ih =>
    rw [copyUp]
    cases k with
    | zero =>
      rw [copyUp_of_not (by omega), copyUp_of_not (by omega), move_add Nat.one_pos,
        move_of_not _ _ (by omega)]
    | succ k => rw [Nat.add_comm k 1, ← Nat.add_assoc, ← Nat.add_assoc, ih (by omega) (by omega)]

/-- Copying upwards to a place above the source is right if and only if the source repeats itself at the
distance of the two places. -/
theorem copyUp_eq_move_iff (h : s < d) :
    copyUp 1 n m d s = move m d s n ↔ ∀ x, d ≤ x → x < s + n → m (x - (d - s)) = m x := by
  constructor
  · intro heq x hd hx
    have hrep := copyUp_repeats (m := m) (n := n) h (show x - s < n by omega)
    rw [heq, move_add (by omega), Nat.add_sub_of_le (by omega)] at hrep
    rw [hrep, ← Nat.add_sub_of_le hd, move_add (by omega)]
    congr 1
    omega
  · intro hper
    funext x
    by_cases hx : x < d ∨ d + n ≤ x
    · rw [copyUp_of_not hx, move_of_not _ _ hx]
    obtain ⟨k, rfl⟩ := Nat.exists_eq_add_of_le (show d ≤ x by omega)
    have hk : k < n := by omega
    rw [move_add hk]
    -- the cells are known in the order in which they are copied
    induction k using Nat.strong_induction_on with
    | _ k ih =>
      rw [copyUp_repeats h hk]
      by_cases hlo : s + k < d
      · rw [copyUp_of_not (Or.inl hlo)]
      · obtain ⟨j, hj⟩ := Nat.exists_eq_add_of_le (Nat.le_of_not_lt hlo)
        rw [hj, ih j (by omega) (by omega) (by omega), ← hper (d + j) (by omega) (by omega)]
        congr 1
        omega

end OsLab.Copy
