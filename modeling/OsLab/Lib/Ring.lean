import Mathlib.Tactic
import Mathlib.Data.List.Chain
import Mathlib.Dynamics.PeriodicPts.Defs

/-!
# Singly linked rings

Links are a function `next` on nodes.  `IsRing next h l` says that they lead from `h` through the nodes `l` back to `h`,
with no node twice.

* `IsRing.insert`, `IsRing.remove`: the two ways links are edited.
* `IsRing.reach`: from any node the links lead to any other one.
* `IsRing.walk`, `IsRing.walkAround`: a loop along the links comes to the first node that passes a test.
-/

namespace OsLab.Rings

open Function

variable {α : Type} {next next' : α → α} {a b h z : α} {l l' l₁ l₂ : List α}

/-- The links lead from each node of the list to the one after it. -/
def Linked (next : α → α) (l : List α) : Prop := l.IsChain fun a b => next a = b

theorem linked_split : Linked next (l₁ ++ a :: l₂) ↔ Linked next (l₁ ++ [a]) ∧ Linked next (a :: l₂) :=
  List.isChain_split

theorem linked_cons_cons : Linked next (a :: b :: l) ↔ next a = b ∧ Linked next (b :: l) := List.isChain_cons_cons

theorem linked_singleton : Linked next [a] := List.isChain_singleton _

/-- The link of the last node does not matter. -/
theorem Linked.congr (hl : Linked next (l ++ [z])) (heq : ∀ x ∈ l, next' x = next x) : Linked next' (l ++ [z]) := by
  induction l with
  | nil => exact linked_singleton
  | cons x l ih =>
    have hx : next' x = next x := heq x List.mem_cons_self
    cases l with
    | nil =>
      obtain ⟨hxz, -⟩ := linked_cons_cons.1 hl
      exact linked_cons_cons.2 ⟨hx.trans hxz, linked_singleton⟩
    | cons y l =>
      obtain ⟨hxy, hrest⟩ := linked_cons_cons.1 hl
      exact linked_cons_cons.2 ⟨hx.trans hxy, ih hrest fun w hw => heq w (List.mem_cons_of_mem x hw)⟩

theorem Linked.iterate (hl : Linked next (a :: l ++ [z])) : next^[l.length + 1] a = z := by
  induction l generalizing a with
  | nil => exact (linked_cons_cons.1 hl).1
  | cons b l ih =>
    obtain ⟨hab, hrest⟩ := linked_cons_cons.1 hl
    rw [Function.iterate_succ_apply, hab]
    exact ih hrest

/-- The links lead from `h` through `l` back to `h`. -/
structure IsRing (next : α → α) (h : α) (l : List α) : Prop where
  linked : Linked next (h :: l ++ [h])
  nodup : (h :: l).Nodup

namespace IsRing

section

variable (hr : IsRing next h l)

include hr

/-- The parts of a ring before and after a node. -/
theorem split (hl : h :: l = l₁ ++ a :: l₂) :
    Linked next (l₁ ++ [a]) ∧ Linked next (a :: l₂ ++ [h]) ∧ a ∉ l₁ ∧ a ∉ l₂ ∧ ∀ x ∈ l₁, x ∉ l₂ := by
  have hlinked := hr.linked
  have hnodup := hr.nodup
  rw [hl, List.append_assoc, List.cons_append, linked_split] at hlinked
  rw [hl, List.nodup_append', List.nodup_cons] at hnodup
  obtain ⟨-, ⟨ha2, -⟩, hdisj⟩ := hnodup
  exact ⟨hlinked.1, hlinked.2, fun h => hdisj h List.mem_cons_self, ha2, fun x hx h => hdisj hx (List.mem_cons_of_mem a h)⟩

theorem congr (heq : ∀ x ∈ h :: l, next' x = next x) : IsRing next' h l :=
  ⟨hr.linked.congr heq, hr.nodup⟩

/-- What a node is linked to. -/
theorem next_eq (hl : h :: l = l₁ ++ a :: l₂) : (l₂ ++ [h]).head? = some (next a) := by
  obtain ⟨-, hlinked, -⟩ := hr.split hl
  cases l₂ with
  | nil | cons => exact congrArg some (linked_cons_cons.1 hlinked).1.symm

theorem next_mem (ha : a ∈ h :: l) : next a ∈ h :: l := by
  obtain ⟨l₁, l₂, hl⟩ := List.append_of_mem ha
  have hmem := List.mem_of_mem_head? (hr.next_eq hl)
  rcases List.mem_append.1 hmem with hmem | hmem
  · rw [hl]
    exact List.mem_append_right l₁ (List.mem_cons_of_mem a hmem)
  · rw [List.mem_singleton.1 hmem]
    exact List.mem_cons_self

theorem iterate_mem (ha : a ∈ h :: l) (i : ℕ) : next^[i] a ∈ h :: l := by
  induction i with
  | zero => exact ha
  | succ i ih =>
    rw [Function.iterate_succ_apply']
    exact hr.next_mem ih

variable [DecidableEq α]

/-- `b->next = a->next; a->next = b`. -/
theorem insert (hl : h :: l = l₁ ++ a :: l₂) (hb : b ∉ h :: l) (hl' : h :: l' = l₁ ++ a :: b :: l₂) :
    IsRing (update (update next b (next a)) a b) h l' := by
  obtain ⟨hbefore, hafter, ha1, ha2, -⟩ := hr.split hl
  rw [hl, List.mem_append, List.mem_cons, not_or, not_or] at hb
  obtain ⟨hb1, hba, hb2⟩ := hb
  have hsame : ∀ x, x ≠ a → x ≠ b → update (update next b (next a)) a b x = next x := by
    intro x hxa hxb
    rw [update_of_ne hxa, update_of_ne hxb]
  have hlink : update (update next b (next a)) a b b = next a := by
    rw [update_of_ne hba, update_self]
  refine ⟨?_, ?_⟩
  · rw [hl', List.append_assoc, List.cons_append, linked_split, List.cons_append, linked_cons_cons]
    refine ⟨hbefore.congr fun x hx => hsame x (fun h => ha1 (h ▸ hx)) fun h => hb1 (h ▸ hx), update_self .., ?_⟩
    have hrest : ∀ x ∈ l₂, update (update next b (next a)) a b x = next x :=
      fun x hx => hsame x (fun h => ha2 (h ▸ hx)) fun h => hb2 (h ▸ hx)
    cases l₂ with
    | nil => exact linked_cons_cons.2 ⟨hlink.trans (linked_cons_cons.1 hafter).1, linked_singleton⟩
    | cons c l₂ =>
      obtain ⟨hac, hafter⟩ := linked_cons_cons.1 hafter
      exact linked_cons_cons.2 ⟨hlink.trans hac, Linked.congr (l := c :: l₂) hafter hrest⟩
  · have hnodup := hr.nodup
    rw [hl] at hnodup
    rw [hl', List.append_cons, List.nodup_middle, List.nodup_cons, List.append_assoc]
    refine ⟨?_, hnodup⟩
    simp only [List.mem_append, List.singleton_append, List.mem_cons]
    tauto

/-- `a->next = a->next->next`. -/
theorem remove (hl : h :: l = l₁ ++ a :: b :: l₂) (hl' : h :: l' = l₁ ++ a :: l₂) :
    IsRing (update next a (next b)) h l' := by
  obtain ⟨hbefore, hafter, ha1, ha2, -⟩ := hr.split hl
  obtain ⟨-, hafter⟩ := linked_cons_cons.1 hafter
  rw [List.mem_cons, not_or] at ha2
  refine ⟨?_, ?_⟩
  · rw [hl', List.append_assoc, List.cons_append, linked_split]
    have hsame : ∀ x, x ≠ a → update next a (next b) x = next x := fun x hx => update_of_ne hx _ _
    refine ⟨hbefore.congr fun x hx => hsame x fun h => ha1 (h ▸ hx), ?_⟩
    have hrest : ∀ x ∈ l₂, update next a (next b) x = next x := fun x hx => hsame x fun h => ha2.2 (h ▸ hx)
    cases l₂ with
    | nil => exact linked_cons_cons.2 ⟨(update_self ..).trans (linked_cons_cons.1 hafter).1, linked_singleton⟩
    | cons c l₂ =>
      obtain ⟨hbc, hafter⟩ := linked_cons_cons.1 hafter
      exact linked_cons_cons.2 ⟨(update_self ..).trans hbc, Linked.congr (l := c :: l₂) hafter hrest⟩
  · rw [hl']
    refine hr.nodup.sublist ?_
    rw [hl]
    exact ((List.sublist_cons_self b l₂).cons_cons a).append_left l₁

omit [DecidableEq α]

/-- From any node the links lead to any other one. -/
theorem reach (ha : a ∈ h :: l) (hb : b ∈ h :: l) : ∃ i, next^[i] a = b := by
  obtain ⟨l₁, l₂, hl⟩ := List.append_of_mem ha
  have hhome : next^[l₂.length + 1] a = h := (hr.split hl).2.1.iterate
  obtain ⟨m1, m2, hm⟩ := List.append_of_mem hb
  cases m1 with
  | nil =>
    obtain rfl : h = b := (List.cons.inj hm).1
    exact ⟨_, hhome⟩
  | cons c m1 =>
    obtain rfl : h = c := (List.cons.inj hm).1
    have hout : next^[m1.length + 1] h = b := (hr.split hm).1.iterate
    refine ⟨m1.length + 1 + (l₂.length + 1), ?_⟩
    rw [Function.iterate_add_apply, hhome, hout]

/-- A loop along the links comes to the first node that passes the test. -/
theorem walk {P : α → Prop} (ha : a ∈ h :: l) (hb : b ∈ h :: l) (hP : P b) :
    ∃ i, P (next^[i] a) ∧ ∀ j < i, ¬ P (next^[j] a) := by
  classical
  obtain ⟨i, hi⟩ := hr.reach ha hb
  have hex : ∃ i, P (next^[i] a) := ⟨i, hi ▸ hP⟩
  exact ⟨Nat.find hex, Nat.find_spec hex, fun j hj => Nat.find_min hex hj⟩

/-- A loop along the links that begins after `a` and stops at `a` at the latest: it comes to a node that passes the test, or
there is none. -/
theorem walkAround (P : α → Prop) (ha : a ∈ h :: l) :
    ∃ i, (∀ j < i, ¬ P (next^[j] (next a)) ∧ next^[j] (next a) ≠ a) ∧
      (P (next^[i] (next a)) ∨ next^[i] (next a) = a ∧ ∀ b ∈ h :: l, ¬ P b) := by
  obtain ⟨i, hi, hmin⟩ := hr.walk (P := fun x => P x ∨ x = a) (hr.next_mem ha) ha (Or.inr rfl)
  have hbefore : ∀ j < i, ¬ P (next^[j] (next a)) ∧ next^[j] (next a) ≠ a := fun j hj => not_or.1 (hmin j hj)
  refine ⟨i, hbefore, ?_⟩
  by_cases hP : P (next^[i] (next a))
  · exact Or.inl hP
  have hback : next^[i] (next a) = a := hi.resolve_left hP
  refine Or.inr ⟨hback, fun b hb hPb => ?_⟩
  -- all nodes have been seen
  obtain ⟨m, rfl⟩ := hr.reach ha hb
  have hperiod : Function.IsPeriodicPt next (i + 1) a := hback
  rw [← hperiod.iterate_mod_apply] at hPb
  have hlt := Nat.mod_lt m (Nat.succ_pos i)
  cases hmod : m % (i + 1) with
  | zero =>
    rw [hmod] at hPb
    rw [hback] at hP
    exact hP hPb
  | succ j =>
    rw [hmod] at hPb hlt
    exact (hbefore j (Nat.lt_of_succ_lt_succ hlt)).1 hPb

end

end IsRing

end OsLab.Rings
