import Mathlib.Tactic

/-!
# Words in a memory of bytes

A memory is a function from 32-bit addresses to bytes; words are little-endian, need not be
aligned, and may wrap around the end of memory.  How far `x` lies above `a` is
`(x - a).toNat`, so `x` is one of the `n` bytes from `a` on if this is less than `n`.

* `load_store`: a word is read back.
* `load_congr`, `store_of_far`: what a load depends on, and what a store leaves.
* `load_storeWords`, `storeWords_of_far`: the same for consecutive words.
* `writes` are single bytes written one after another.
-/

namespace OsLab.Bytes

open Function

/-- A memory of bytes. -/
abbrev Mem := BitVec 32 → BitVec 8

variable {m m' : Mem} {a x w : BitVec 32} {ws : List (BitVec 32)} {i n : ℕ}

/-- Byte `i` of a word, the lowest first. -/
def byte (w : BitVec 32) (i : ℕ) : BitVec 8 := w.extractLsb' (8 * i) 8

/-- The word at `a`. -/
def load (m : Mem) (a : BitVec 32) : BitVec 32 := m (a + 3#32) ++ m (a + 2#32) ++ m (a + 1#32) ++ m a

/-- The memory with a word stored at `a`. -/
def store (m : Mem) (a w : BitVec 32) : Mem := fun x =>
  if (x - a).toNat < 4 then byte w (x - a).toNat else m x

/-- The memory with consecutive words stored from `a` on. -/
def storeWords (m : Mem) (a : BitVec 32) : List (BitVec 32) → Mem
  | [] => m
  | w :: ws => storeWords (store m a w) (a + 4#32) ws

/-- The memory with bytes written one after another. -/
def writes (m : Mem) (l : List (BitVec 32 × BitVec 8)) : Mem :=
  l.foldl (fun m w => Function.update m w.1 w.2) m

/-- The `n` bytes from `a` on, if they do not wrap around. -/
theorem dist_lt_iff (h : a.toNat + n ≤ 2 ^ 32) :
    (x - a).toNat < n ↔ a.toNat ≤ x.toNat ∧ x.toNat < a.toNat + n := by
  bv_omega

theorem store_of_far (h : 4 ≤ (x - a).toNat) : store m a w x = m x :=
  if_neg (Nat.not_lt.2 h)

theorem store_at (h : (x - a).toNat = i) (hi : i < 4) : store m a w x = byte w i := by
  rw [store, h, if_pos hi]

theorem add_sub_self : a + x - a = x := by
  rw [BitVec.add_comm, BitVec.add_sub_cancel]

/-- A load depends on four bytes. -/
theorem load_congr (h : ∀ i < 4, m (a + BitVec.ofNat 32 i) = m' (a + BitVec.ofNat 32 i)) :
    load m a = load m' a := by
  have h0 := h 0 (by decide)
  rw [show a + BitVec.ofNat 32 0 = a from BitVec.add_zero a] at h0
  rw [load, load, h0, h 1 (by decide), h 2 (by decide), h 3 (by decide)]

theorem byte_append : byte w 3 ++ byte w 2 ++ byte w 1 ++ byte w 0 = w := by
  refine BitVec.eq_of_getLsbD_eq fun i hi => ?_
  simp only [byte, BitVec.getLsbD_append, BitVec.getLsbD_extractLsb']
  by_cases h0 : i < 8
  · simp [h0]
  by_cases h1 : i < 16
  · simp [h0, show i - 8 < 8 by omega, show 8 + (i - 8) = i by omega]
  by_cases h2 : i < 24
  · simp [h0, show ¬ i - 8 < 8 by omega, show i - 8 - 8 < 8 by omega, show 16 + (i - 8 - 8) = i by omega]
  · simp [h0, show ¬ i - 8 < 8 by omega, show ¬ i - 8 - 8 < 8 by omega,
      show i - 8 - 8 - 8 < 8 by omega, show 24 + (i - 8 - 8 - 8) = i by omega]

/-- **A word is read back.** -/
theorem load_store (m : Mem) (a w : BitVec 32) : load (store m a w) a = w := by
  have hat : ∀ i < 4, store m a w (a + BitVec.ofNat 32 i) = byte w i := fun i hi =>
    store_at (by rw [add_sub_self, BitVec.toNat_ofNat, Nat.mod_eq_of_lt (by omega)]) hi
  have h0 := hat 0 (by decide)
  rw [show a + BitVec.ofNat 32 0 = a from BitVec.add_zero a] at h0
  rw [load, hat 3 (by decide), hat 2 (by decide), hat 1 (by decide), h0, byte_append]

theorem storeWords_of_far (hn : 4 * ws.length ≤ (x - a).toNat) : storeWords m a ws x = m x := by
  induction ws generalizing m a with
  | nil => rfl
  | cons w ws ih =>
    rw [List.length_cons] at hn
    rw [storeWords, ih, store_of_far (by omega)]
    bv_omega

/-- **Consecutive words are read back.** -/
theorem load_storeWords (hn : 4 * ws.length < 2 ^ 32) (hi : ws[i]? = some w) :
    load (storeWords m a ws) (a + BitVec.ofNat 32 (4 * i)) = w := by
  induction ws generalizing m a i with
  | nil => cases hi
  | cons v ws ih =>
    rw [List.length_cons] at hn
    rw [storeWords]
    cases i with
    | zero =>
      obtain rfl : v = w := Option.some.inj hi
      rw [show a + BitVec.ofNat 32 (4 * 0) = a from BitVec.add_zero a, ← load_store m a v]
      refine load_congr fun j hj => ?_
      rw [load_store, storeWords_of_far]
      have hj' : (a + BitVec.ofNat 32 j - (a + 4#32)).toNat = 2 ^ 32 - 4 + j := by bv_omega
      omega
    | succ i =>
      rw [← ih (m := store m a v) (a := a + 4#32) (by omega) hi]
      congr 1
      rw [BitVec.add_assoc, Nat.mul_succ, Nat.add_comm, BitVec.ofNat_add]

/-! ## Bytes -/

variable {l : List (BitVec 32 × BitVec 8)}

theorem writes_append {l' : List (BitVec 32 × BitVec 8)} :
    writes m (l ++ l') = writes (writes m l) l' := List.foldl_append

/-- What is at `x` afterwards depends only on what was there. -/
theorem writes_congr (h : m x = m' x) : writes m l x = writes m' l x := by
  induction l generalizing m m' with
  | nil => exact h
  | cons w l ih =>
    refine ih ?_
    show update m w.1 w.2 x = update m' w.1 w.2 x
    by_cases hx : x = w.1
    · rw [hx, update_self, update_self]
    · rw [update_of_ne hx, update_of_ne hx, h]

theorem writes_of_forall_ne (h : ∀ w ∈ l, x ≠ w.1) : writes m l x = m x := by
  induction l generalizing m with
  | nil => rfl
  | cons w l ih =>
    rw [List.forall_mem_cons] at h
    exact (ih h.2).trans (update_of_ne h.1 _ _)

end OsLab.Bytes
