import Mathlib.Tactic

/-!
# Doubly linked cycles

Links are two functions `next` and `prev` on nodes.  `Path next prev a l z` says that from `a` the
links lead through the nodes `l` to `z`, and back; `Cycle next prev h l` that they lead from the head
`h` through `l` back to `h`, with no node twice.

* `Cycle.unlink` and `Cycle.pushFront`: the two ways links are edited;
* `Cycle.scan_next`, `Cycle.scan_prev`: a loop along the links finds the first node of `l`, or of `l`
  backwards, that passes a test.
-/

namespace OsLab.DList

open Function

variable {α : Type} [DecidableEq α] {next prev next' prev' : α → α} {a b h z : α} {l l₁ l₂ : List α}

/-- From `a` the links lead through `l` to `z`, in both directions. -/
def Path (next prev : α → α) : α → List α → α → Prop
  | a, [], z => next a = z ∧ prev z = a
  | a, b :: l, z => next a = b ∧ prev b = a ∧ Path next prev b l z

omit [DecidableEq α] in
theorem path_append : Path next prev a (l₁ ++ b :: l₂) z ↔
    Path next prev a l₁ b ∧ Path next prev b l₂ z := by
  induction l₁ generalizing a with
  | nil => exact and_assoc.symm
  | cons c l₁ ih =>
    rw [List.cons_append, Path, Path, ih]
    tauto

omit [DecidableEq α] in
/-- A path depends only on the links of its nodes. -/
theorem Path.congr (h : Path next prev a l z) (hn : ∀ x ∈ a :: l, next' x = next x)
    (hp : ∀ x ∈ l ++ [z], prev' x = prev x) : Path next' prev' a l z := by
  induction l generalizing a with
  | nil => exact ⟨(hn a List.mem_cons_self).trans h.1, (hp z List.mem_cons_self).trans h.2⟩
  | cons b l ih =>
    obtain ⟨h1, h2, h3⟩ := h
    refine ⟨(hn a List.mem_cons_self).trans h1, (hp b List.mem_cons_self).trans h2, ih h3 ?_ ?_⟩
    · exact fun x hx => hn x (List.mem_cons_of_mem a hx)
    · exact fun x hx => hp x (List.mem_cons_of_mem b hx)

omit [DecidableEq α] in
theorem Path.prev_mem (h : Path next prev a l b) : prev b ∈ a :: l := by
  induction l generalizing a with
  | nil => exact h.2 ▸ List.mem_cons_self
  | cons c l ih => exact List.mem_cons_of_mem a (ih h.2.2)

/-- The end of a path is bent from `b` to `n`. -/
theorem Path.redirect {n : α} (h : Path next prev a l b) (hnd : (a :: l).Nodup) (hn : n ∉ l) :
    Path (update next (prev b) n) (update prev n (prev b)) a l n := by
  induction l generalizing a with
  | nil =>
    rw [h.2]
    exact ⟨update_self .., update_self ..⟩
  | cons c l ih =>
    obtain ⟨h1, h2, h3⟩ := h
    have hmem : prev b ∈ c :: l := h3.prev_mem
    have ha : a ≠ prev b := fun heq => (List.nodup_cons.1 hnd).1 (heq ▸ hmem)
    have hc : c ≠ n := fun heq => hn (heq ▸ List.mem_cons_self)
    refine ⟨?_, ?_, ih h3 (List.nodup_cons.1 hnd).2 fun hmem => hn (List.mem_cons_of_mem c hmem)⟩
    · rw [update_of_ne ha, h1]
    · rw [update_of_ne hc, h2]

/-! ## Cycles -/

/-- The links lead from `h` through `l` back to `h`, with no node twice. -/
structure Cycle (next prev : α → α) (h : α) (l : List α) : Prop where
  path : Path next prev h l h
  nodup : (h :: l).Nodup

omit [DecidableEq α] in
theorem Cycle.next_ne (hc : Cycle next prev h (l₁ ++ b :: l₂)) : b ≠ next b := by
  have hnd := hc.nodup
  rw [← List.cons_append, List.nodup_append'] at hnd
  obtain ⟨-, hnd, hdisj⟩ := hnd
  have hpath := (path_append.1 hc.path).2
  cases l₂ with
  | nil =>
    rw [hpath.1]
    exact fun heq => hdisj List.mem_cons_self (heq ▸ List.mem_cons_self)
  | cons n l₂ =>
    rw [hpath.1]
    exact fun heq => (List.nodup_cons.1 hnd).1 (heq ▸ List.mem_cons_self)

/-- `b->next->prev = b->prev; b->prev->next = b->next`. -/
theorem Cycle.unlink (hc : Cycle next prev h (l₁ ++ b :: l₂)) :
    Cycle (update next (prev b) (next b)) (update prev (next b) (prev b)) h
      (l₁ ++ l₂) := by
  obtain ⟨hpath, hnodup⟩ := hc
  obtain ⟨h1, h2⟩ := path_append.1 hpath
  have hnd : (h :: (l₁ ++ l₂)).Nodup :=
    hnodup.sublist (((List.sublist_cons_self b l₂).append_left l₁).cons_cons h)
  refine ⟨?_, hnd⟩
  rw [← List.cons_append, List.nodup_append'] at hnd
  obtain ⟨hnd1, hnd2, hdisj⟩ := hnd
  cases l₂ with
  | nil =>
    rw [List.append_nil, h2.1]
    exact h1.redirect hnd1 (List.nodup_cons.1 hnd1).1
  | cons n l₂ =>
    obtain ⟨hbn, -, h3⟩ := h2
    rw [hbn]
    have hn : n ∉ h :: l₁ := fun hmem => hdisj hmem List.mem_cons_self
    refine path_append.2 ⟨h1.redirect hnd1 fun hmem => hn (List.mem_cons_of_mem h hmem), h3.congr ?_ ?_⟩
    · intro x hx
      refine update_of_ne (fun heq => ?_) _ _
      exact hdisj h1.prev_mem (heq ▸ hx)
    · intro x hx
      refine update_of_ne (fun heq => ?_) _ _
      rcases List.mem_append.1 hx with hx | hx
      · exact (List.nodup_cons.1 hnd2).1 (heq ▸ hx)
      · rw [List.mem_singleton] at hx
        exact hn (heq ▸ hx ▸ List.mem_cons_self)

/-- `b->next = head.next; b->prev = &head; head.next->prev = b; head.next = b`. -/
theorem Cycle.pushFront (hc : Cycle next prev h l) (hb : b ∉ h :: l) :
    Cycle (update (update next b (next h)) h b)
      (update (update prev b h) (next h) b) h (b :: l) := by
  have hbh : b ≠ h := fun heq => hb (heq ▸ List.mem_cons_self)
  have hbl : b ∉ l := fun hmem => hb (List.mem_cons_of_mem h hmem)
  have hhl : h ∉ l := (List.nodup_cons.1 hc.nodup).1
  refine ⟨⟨update_self .., ?_, ?_⟩, ?_⟩
  · have hne : b ≠ next h := by
      cases l with
      | nil => rw [hc.path.1]; exact hbh
      | cons c l => rw [hc.path.1]; exact fun heq => hbl (heq ▸ List.mem_cons_self)
    rw [update_of_ne hne, update_self]
  · cases l with
    | nil =>
      obtain ⟨h1, -⟩ := hc.path
      refine ⟨?_, ?_⟩
      · rw [update_of_ne hbh, update_self, h1]
      · rw [h1, update_self]
    | cons c l =>
      obtain ⟨h1, -, h3⟩ := hc.path
      rw [h1]
      refine ⟨?_, update_self .., h3.congr ?_ ?_⟩
      · rw [update_of_ne hbh, update_self]
      · intro x hx
        have hxh : x ≠ h := fun heq => hhl (heq ▸ hx)
        have hxb : x ≠ b := fun heq => hbl (heq ▸ hx)
        rw [update_of_ne hxh, update_of_ne hxb]
      · intro x hx
        have hxc : x ≠ c := by
          rintro rfl
          rcases List.mem_append.1 hx with hx | hx
          · exact (List.nodup_cons.1 (List.nodup_cons.1 hc.nodup).2).1 hx
          · rw [List.mem_singleton] at hx
            exact hhl (hx ▸ List.mem_cons_self)
        have hxb : x ≠ b := by
          rintro rfl
          rcases List.mem_append.1 hx with hx | hx
          · exact hbl (List.mem_cons_of_mem c hx)
          · exact hbh (List.mem_singleton.1 hx)
        rw [update_of_ne hxc, update_of_ne hxb]
  · refine List.nodup_cons.2 ⟨fun hmem => ?_, List.nodup_cons.2 ⟨hbl, (List.nodup_cons.1 hc.nodup).2⟩⟩
    rcases List.mem_cons.1 hmem with heq | hmem
    · exact hbh heq.symm
    · exact hhl hmem

/-! ## Loops along the links -/

/-- `for (b = start; b != stop; b = step(b)) if (test(b)) return b;`, for at most `fuel` rounds. -/
def scan (step : α → α) (stop : α) (test : α → Bool) : ℕ → α → Option α
  | 0, _ => none
  | fuel + 1, b => if b = stop then none else if test b then some b else scan step stop test fuel (step b)

theorem Path.scan_next (hp : Path next prev a l z) (hz : z ∉ l) (test : α → Bool) {fuel : ℕ}
    (hf : l.length < fuel) : scan next z test fuel (next a) = l.find? test := by
  induction l generalizing a fuel with
  | nil =>
    obtain ⟨fuel, rfl⟩ : ∃ n, fuel = n + 1 := ⟨fuel - 1, by rw [List.length_nil] at hf; omega⟩
    rw [scan, if_pos hp.1]
    rfl
  | cons b l ih =>
    obtain ⟨fuel, rfl⟩ : ∃ n, fuel = n + 1 := ⟨fuel - 1, by rw [List.length_cons] at hf; omega⟩
    obtain ⟨h1, -, h3⟩ := hp
    have hb : b ≠ z := fun heq => hz (heq ▸ List.mem_cons_self)
    rw [h1, scan, if_neg hb, List.find?_cons]
    cases test b with
    | true => rfl
    | false =>
      exact ih h3 (fun hmem => hz (List.mem_cons_of_mem b hmem)) (Nat.lt_of_succ_lt_succ hf)

omit [DecidableEq α] in
/-- A path read backwards. -/
theorem Path.reverse (hp : Path next prev a l z) : Path prev next z l.reverse a := by
  induction l generalizing a with
  | nil => exact ⟨hp.2, hp.1⟩
  | cons b l ih =>
    obtain ⟨h1, h2, h3⟩ := hp
    rw [List.reverse_cons]
    exact path_append.2 ⟨ih h3, h2, h1⟩

theorem Cycle.scan_next (hc : Cycle next prev h l) (test : α → Bool) {fuel : ℕ} (hf : l.length < fuel) :
    scan next h test fuel (next h) = l.find? test :=
  hc.path.scan_next (List.nodup_cons.1 hc.nodup).1 test hf

theorem Cycle.scan_prev (hc : Cycle next prev h l) (test : α → Bool) {fuel : ℕ} (hf : l.length < fuel) :
    scan prev h test fuel (prev h) = l.reverse.find? test := by
  refine hc.path.reverse.scan_next ?_ test (by rw [List.length_reverse]; exact hf)
  rw [List.mem_reverse]
  exact (List.nodup_cons.1 hc.nodup).1

end OsLab.DList
