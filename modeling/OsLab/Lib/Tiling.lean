import Mathlib.Tactic

/-!
# Intervals cut into blocks

`Tiling u lo hi B sz`: the blocks that begin at the addresses `B`, of `sz a` units of `u` bytes each, lie between `lo` and
`hi`, do not overlap and leave nothing out.

* `Tiling.split`, `Tiling.merge`, `Tiling.grow`: a block is cut in two, two blocks that touch are made one, and a block is
  added at the end.
-/

namespace OsLab

open Function

variable {u lo hi : ℕ} {B B' : Set ℕ} {sz sz' : ℕ → ℕ} {a b k : ℕ}

/-- The blocks of an interval. -/
structure Tiling (u lo hi : ℕ) (B : Set ℕ) (sz : ℕ → ℕ) : Prop where
  pos : ∀ a ∈ B, 0 < sz a
  low : ∀ a ∈ B, lo ≤ a
  high : ∀ a ∈ B, a + u * sz a ≤ hi
  apart : ∀ a ∈ B, ∀ b ∈ B, a < b → a + u * sz a ≤ b
  cover : ∀ x, lo ≤ x → x < hi → ∃ a ∈ B, a ≤ x ∧ x < a + u * sz a
  aligned : ∀ a ∈ B, u ∣ a

namespace Tiling

theorem congr (h : Tiling u lo hi B sz) (hB : B' = B) (hsz : ∀ a ∈ B, sz' a = sz a) : Tiling u lo hi B' sz' := by
  subst hB
  refine ⟨fun a ha => ?_, h.low, fun a ha => ?_, fun a ha b hb hab => ?_, fun x hlo hhi => ?_, h.aligned⟩
  · rw [hsz a ha]
    exact h.pos a ha
  · rw [hsz a ha]
    exact h.high a ha
  · rw [hsz a ha]
    exact h.apart a ha b hb hab
  · obtain ⟨a, ha, hax⟩ := h.cover x hlo hhi
    refine ⟨a, ha, ?_⟩
    rw [hsz a ha]
    exact hax

/-- A block is cut in two; the second part has `k` units. -/
theorem split (h : Tiling u lo hi B sz) (hu : 0 < u) (ha : a ∈ B) (hk : 0 < k) (hlt : k < sz a) (hb : b = a + u * (sz a - k)) :
    Tiling u lo hi (insert b B) (update (update sz a (sz a - k)) b k) := by
  have hsum : a + u * sz a = b + u * k := by
    rw [hb, Nat.add_assoc, ← Nat.mul_add, Nat.sub_add_cancel hlt.le]
  have hab : a < b := by
    rw [hb]
    exact Nat.lt_add_of_pos_right (Nat.mul_pos hu (Nat.sub_pos_of_lt hlt))
  have hbk : b < b + u * k := Nat.lt_add_of_pos_right (Nat.mul_pos hu hk)
  have hhigh := h.high a ha
  have hlow := h.low a ha
  have hnew : b ∉ B := by
    intro hb'
    have := h.apart a ha b hb' hab
    omega
  have hszb : update (update sz a (sz a - k)) b k b = k := update_self ..
  have hsza : update (update sz a (sz a - k)) b k a = sz a - k := by
    rw [update_of_ne hab.ne, update_self]
  have hszc : ∀ c ∈ B, c ≠ a → update (update sz a (sz a - k)) b k c = sz c := by
    intro c hc hca
    have hcb : c ≠ b := fun h => hnew (h ▸ hc)
    rw [update_of_ne hcb, update_of_ne hca]
  -- the end of a block is where it was, or at `b`
  have hend : ∀ c ∈ B, c + u * update (update sz a (sz a - k)) b k c = if c = a then b else c + u * sz c := by
    intro c hc
    split_ifs with hca
    · rw [hca, hsza, hb]
    · rw [hszc c hc hca]
  refine ⟨fun c hc => ?_, fun c hc => ?_, fun c hc => ?_, fun c hc d hd hcd => ?_, fun x hlo hhi => ?_, fun c hc => ?_⟩
  · rcases hc with rfl | hc
    · rw [hszb]
      exact hk
    · by_cases hca : c = a
      · rw [hca]
        omega
      · rw [hszc c hc hca]
        exact h.pos c hc
  · rcases hc with rfl | hc
    · omega
    · exact h.low c hc
  · rcases hc with rfl | hc
    · rw [hszb]
      omega
    · rw [hend c hc]
      split_ifs
      · omega
      · exact h.high c hc
  · rcases hc with rfl | hc
    · rw [hszb]
      rcases hd with rfl | hd
      · omega
      · have := h.apart a ha d hd (by omega)
        omega
    · rw [hend c hc]
      rcases hd with rfl | hd
      · split_ifs with hca
        · exact le_rfl
        · -- `c` is a block before `b`, and so before `a`
          have hca' : c < a := by
            refine lt_of_le_of_ne (not_lt.1 fun hac => ?_) hca
            have := h.apart a ha c hc hac
            omega
          have := h.apart c hc a ha hca'
          omega
      · split_ifs with hca
        · have := h.apart a ha d hd (hca ▸ hcd)
          omega
        · exact h.apart c hc d hd hcd
  · obtain ⟨c, hc, hcx, hxc⟩ := h.cover x hlo hhi
    by_cases hca : c = a
    · subst hca
      by_cases hxb : x < b
      · exact ⟨c, Or.inr hc, hcx, by rw [hsza, ← hb]; exact hxb⟩
      · exact ⟨b, Or.inl rfl, not_lt.1 hxb, by rw [hszb, ← hsum]; exact hxc⟩
    · exact ⟨c, Or.inr hc, hcx, by rw [hszc c hc hca]; exact hxc⟩
  · rcases hc with rfl | hc
    · rw [hb]
      exact Dvd.dvd.add (h.aligned a ha) (dvd_mul_right u _)
    · exact h.aligned c hc

/-- Two blocks that touch are made one. -/
theorem merge (h : Tiling u lo hi B sz) (hu : 0 < u) (ha : a ∈ B) (hb : b ∈ B) (htouch : a + u * sz a = b) :
    Tiling u lo hi (B \ {b}) (update sz a (sz a + sz b)) := by
  have hab : a < b := by
    rw [← htouch]
    exact Nat.lt_add_of_pos_right (Nat.mul_pos hu (h.pos a ha))
  have hend : a + u * (sz a + sz b) = b + u * sz b := by
    rw [Nat.mul_add, ← Nat.add_assoc, htouch]
  have hends : ∀ c, c + u * update sz a (sz a + sz b) c = if c = a then b + u * sz b else c + u * sz c := by
    intro c
    split_ifs with hca
    · rw [hca, update_self, hend]
    · rw [update_of_ne hca]
  refine ⟨fun c hc => ?_, fun c hc => h.low c hc.1, fun c hc => ?_, fun c hc d hd hcd => ?_, fun x hlo hhi => ?_,
    fun c hc => h.aligned c hc.1⟩
  · by_cases hca : c = a
    · rw [hca, update_self]
      exact Nat.lt_add_right _ (h.pos a ha)
    · rw [update_of_ne hca]
      exact h.pos c hc.1
  · rw [hends]
    split_ifs
    · exact h.high b hb
    · exact h.high c hc.1
  · rw [hends]
    split_ifs with hca
    · -- a block after `a` that is not `b` is after `b`
      subst hca
      have hle := h.apart c ha d hd.1 hcd
      exact h.apart b hb d hd.1 (lt_of_le_of_ne (htouch ▸ hle) (Ne.symm hd.2))
    · exact h.apart c hc.1 d hd.1 hcd
  · obtain ⟨c, hc, hcx, hxc⟩ := h.cover x hlo hhi
    by_cases hcb : c = b
    · refine ⟨a, ⟨ha, hab.ne⟩, by omega, ?_⟩
      rw [hends, if_pos rfl]
      exact hcb ▸ hxc
    · refine ⟨c, ⟨hc, hcb⟩, hcx, ?_⟩
      rw [hends]
      split_ifs with hca
      · subst hca
        omega
      · exact hxc

/-- A block of `k` units is added at the end. -/
theorem grow (h : Tiling u lo hi B sz) (hu : 0 < u) (hlohi : lo ≤ hi) (hal : u ∣ hi) (hk : 0 < k) :
    Tiling u lo (hi + u * k) (insert hi B) (update sz hi k) ∧ hi ∉ B := by
  have hpos : ∀ c ∈ B, c < c + u * sz c := fun c hc => Nat.lt_add_of_pos_right (Nat.mul_pos hu (h.pos c hc))
  have hnew : hi ∉ B := by
    intro hhi
    have := h.high hi hhi
    have := hpos hi hhi
    omega
  have hsz : ∀ c ∈ B, update sz hi k c = sz c := by
    intro c hc
    have hne : c ≠ hi := fun h => hnew (h ▸ hc)
    rw [update_of_ne hne]
  refine ⟨⟨fun c hc => ?_, fun c hc => ?_, fun c hc => ?_, fun c hc d hd hcd => ?_, fun x hlo hhi => ?_, fun c hc => ?_⟩, hnew⟩
  · rcases hc with rfl | hc
    · rw [update_self]
      exact hk
    · rw [hsz c hc]
      exact h.pos c hc
  · rcases hc with rfl | hc
    · exact hlohi
    · exact h.low c hc
  · rcases hc with rfl | hc
    · rw [update_self]
    · rw [hsz c hc]
      exact (h.high c hc).trans (Nat.le_add_right ..)
  · rcases hc with rfl | hc
    · rcases hd with rfl | hd
      · omega
      · have := h.high d hd
        omega
    · rw [hsz c hc]
      rcases hd with rfl | hd
      · exact h.high c hc
      · exact h.apart c hc d hd hcd
  · by_cases hx : x < hi
    · obtain ⟨c, hc, hcx⟩ := h.cover x hlo hx
      refine ⟨c, Or.inr hc, ?_⟩
      rw [hsz c hc]
      exact hcx
    · refine ⟨hi, Or.inl rfl, not_lt.1 hx, ?_⟩
      rw [update_self]
      exact hhi
  · rcases hc with rfl | hc
    · exact hal
    · exact h.aligned c hc

end Tiling

end OsLab
