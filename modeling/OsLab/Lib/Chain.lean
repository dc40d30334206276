import Mathlib.Tactic

/-!
# Singly linked lists threaded through an array

A free list is usually not a list at all: it is a head pointer and a link field
in every record, and the records on the list are whatever the links reach.
`IsChain link head l` says that following `link` from `head` visits exactly the
records `l`, in that order, and then stops.

* `IsChain.det`: a head reaches only one list.
* `IsChain.nodup`: a chain never comes back to a record it has visited, so it
  is acyclic.
* `IsChain.push`, `IsChain.pop` and `IsChain.frame` are the three things an
  allocator does: put a record in front, take the front one off, and write the
  link of a record that is not on the list.
-/

namespace OsLab

open Function

/-- Following `link` from `head` visits exactly `l` and stops. -/
def IsChain (link : ℕ → Option ℕ) : Option ℕ → List ℕ → Prop
  | head, [] => head = none
  | head, a :: l => head = some a ∧ IsChain link (link a) l

namespace IsChain

variable {link link' : ℕ → Option ℕ} {head : Option ℕ} {a x : ℕ} {l l' : List ℕ}

@[simp] theorem nil_iff : IsChain link head [] ↔ head = none := Iff.rfl

@[simp] theorem cons_iff :
    IsChain link head (a :: l) ↔ head = some a ∧ IsChain link (link a) l := Iff.rfl

section

variable (h : IsChain link head l)

include h

/-- A head reaches only one list. -/
theorem det (h' : IsChain link head l') : l = l' := by
  induction l generalizing head l' with
  | nil =>
    cases l' with
    | nil => rfl
    | cons b t =>
      rw [h] at h'
      exact absurd h'.1 (by simp)
  | cons a t ih =>
    obtain ⟨ha, ht⟩ := h
    cases l' with
    | nil =>
      rw [ha] at h'
      exact absurd h' (by simp)
    | cons b t' =>
      obtain ⟨hb, ht'⟩ := h'
      have hab : a = b := Option.mem_unique ha hb
      subst hab
      rw [ih ht ht']

/-- Every record on a chain starts a chain of its own, a suffix of the first. -/
theorem exists_suffix (hx : x ∈ l) :
    ∃ t, x :: t <:+ l ∧ IsChain link (some x) (x :: t) := by
  induction l generalizing head with
  | nil => exact absurd hx List.not_mem_nil
  | cons a t ih =>
    obtain ⟨ha, ht⟩ := h
    rcases List.mem_cons.1 hx with rfl | hxt
    · exact ⟨t, List.suffix_refl _, rfl, ht⟩
    · obtain ⟨u, hu, hc⟩ := ih ht hxt
      exact ⟨u, hu.trans (List.suffix_cons a t), hc⟩

/-- A chain is acyclic: no record is visited twice. -/
theorem nodup : l.Nodup := by
  induction l generalizing head with
  | nil => exact List.nodup_nil
  | cons a t ih =>
    obtain ⟨ha, ht⟩ := h
    refine List.nodup_cons.2 ⟨fun hmem => ?_, ih ht⟩
    -- a second visit to `a` would start the same chain again, but a shorter one
    obtain ⟨u, hu, hc⟩ := ht.exists_suffix hmem
    have heq : a :: u = a :: t := det hc ⟨rfl, ht⟩
    have hlen := hu.length_le
    rw [heq, List.length_cons] at hlen
    omega

theorem congr (hl : ∀ y ∈ l, link' y = link y) :
    IsChain link' head l := by
  induction l generalizing head with
  | nil => exact h
  | cons a t ih =>
    obtain ⟨ha, ht⟩ := h
    refine ⟨ha, ?_⟩
    rw [hl a (List.mem_cons_self ..)]
    exact ih ht fun y hy => hl y (List.mem_cons_of_mem _ hy)

/-- Writing the link of a record that is not on the chain changes nothing. -/
theorem frame (hx : x ∉ l) (v : Option ℕ) :
    IsChain (update link x v) head l := by
  refine h.congr fun y hy => update_of_ne ?_ _ _
  rintro rfl
  exact hx hy

/-- Putting a record in front. -/
theorem push (hx : x ∉ l) :
    IsChain (update link x head) (some x) (x :: l) := by
  refine ⟨rfl, ?_⟩
  rw [update_self]
  exact h.frame hx head

end

/-- Taking the front record off and clearing its link. -/
theorem pop (h : IsChain link (some a) (a :: l)) :
    IsChain (update link a none) (link a) l :=
  h.2.frame (List.nodup_cons.1 h.nodup).1 none

/-- The head is on the list. -/
theorem head_mem (h : IsChain link head l) (ha : head = some a) : a ∈ l := by
  cases l with
  | nil =>
    rw [nil_iff.1 h] at ha
    cases ha
  | cons b t =>
    obtain rfl : b = a := Option.mem_unique h.1 ha
    exact List.mem_cons_self ..

end IsChain

end OsLab
