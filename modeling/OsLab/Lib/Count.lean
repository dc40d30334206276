import Mathlib.Tactic
import Mathlib.Data.Finset.Card

/-!
# Counting references

`refCount f S p` is the number of slots in `S` that hold `p`, for a partial
assignment `f` of contents to slots.  A reference count is right when it equals
such a number, and every operation that keeps it right changes one slot at a
time: `refCount_update` is the one equation behind all of them.
-/

namespace OsLab

open Function

variable {ι κ : Type} [DecidableEq ι] [DecidableEq κ]

/-- The number of slots in `S` that hold `p`. -/
def refCount (f : ι → Option κ) (S : Finset ι) (p : κ) : ℕ :=
  (S.filter fun i => f i = some p).card

variable {f g : ι → Option κ} {S : Finset ι} {i : ι} {p : κ}

omit [DecidableEq ι] in
theorem refCount_congr (h : ∀ i ∈ S, f i = g i) : refCount f S p = refCount g S p := by
  unfold refCount
  congr 1
  refine Finset.filter_congr fun i hi => ?_
  rw [h i hi]

/-- **Changing one slot.**  The slot stops counting for what it held and starts
counting for what it holds now. -/
theorem refCount_update (hi : i ∈ S) (v : Option κ) (p : κ) :
    refCount (update f i v) S p + (if f i = some p then 1 else 0) =
      refCount f S p + (if v = some p then 1 else 0) := by
  have hrest : ∀ g : ι → Option κ, refCount g S p =
      refCount g (S.erase i) p + (if g i = some p then 1 else 0) := by
    intro g
    unfold refCount
    conv_lhs => rw [← Finset.insert_erase hi, Finset.filter_insert]
    split
    · rw [Finset.card_insert_of_notMem (by simp)]
    · rw [add_zero]
  have hsame : refCount (update f i v) (S.erase i) p = refCount f (S.erase i) p :=
    refCount_congr fun j hj => update_of_ne (Finset.ne_of_mem_erase hj) _ _
  rw [hrest (update f i v), hrest f, update_self]
  omega

/-- A slot outside `S` does not count. -/
theorem refCount_update_of_notMem (hi : i ∉ S) (v : Option κ) :
    refCount (update f i v) S p = refCount f S p :=
  refCount_congr fun j hj => update_of_ne (by rintro rfl; exact hi hj) _ _

omit [DecidableEq ι] in
theorem refCount_eq_zero : refCount f S p = 0 ↔ ∀ i ∈ S, f i ≠ some p := by
  rw [refCount, Finset.card_eq_zero, Finset.filter_eq_empty_iff]

omit [DecidableEq ι] in
theorem refCount_pos : 0 < refCount f S p ↔ ∃ i ∈ S, f i = some p := by
  rw [refCount, Finset.card_pos, Finset.filter_nonempty_iff]

omit [DecidableEq ι] in
/-- A content held by at most one slot is counted at most once. -/
theorem refCount_le_one (h : ∀ i ∈ S, ∀ j ∈ S, f i = some p → f j = some p → i = j) :
    refCount f S p ≤ 1 := by
  rw [refCount, Finset.card_le_one]
  intro i hi j hj
  rw [Finset.mem_filter] at hi hj
  exact h i hi.1 j hj.1 hi.2 hj.2

/-- Two contents together are counted at most as often as a third if every slot that holds one of them has
a slot of its own that holds the third. -/
theorem refCount_add_le {q r : κ} (hne : p ≠ q) {g : ι → ι} (hinj : Function.Injective g)
    (hmaps : ∀ i ∈ S, f i = some p ∨ f i = some q → g i ∈ S ∧ f (g i) = some r) :
    refCount f S p + refCount f S q ≤ refCount f S r := by
  have hdisj : Disjoint (S.filter fun i => f i = some p) (S.filter fun i => f i = some q) :=
    Finset.disjoint_filter.2 fun i _ hp hq => hne (Option.mem_unique hp hq)
  rw [refCount, refCount, ← Finset.card_union_of_disjoint hdisj, ← Finset.filter_or]
  refine Finset.card_le_card_of_injOn g (fun i hi => ?_) hinj.injOn
  obtain ⟨hmem, hi⟩ := Finset.mem_filter.1 hi
  exact Finset.mem_coe.2 (Finset.mem_filter.2 (hmaps i hmem hi))

end OsLab
