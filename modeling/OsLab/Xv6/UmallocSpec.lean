import OsLab.Xv6.Umalloc
import Mathlib.Order.CompletePartialOrder

/-!
# The heap is a ring of free blocks between live ones

* `Loose`: the ring from `base` is in the order of the addresses, and the free and the live blocks cut up the memory from
  `sbrk`.
* `Heaped`: and no two free blocks touch.
* `Heaped.free`, `Heaped.malloc`: the functions return, and keep this.
* **`heap_sound`**: so it is in every run.
-/

namespace OsLab.Xv6.Umalloc

open Rings Function

variable {base lo fuel i : ℕ} {h h' : Heap} {live : ℕ → Option ℕ} {F F' l₁ l₂ : List ℕ} {a b c p bp n x : ℕ}

/-- The blocks: the free ones `F` and the live ones. -/
def blocks (F : List ℕ) (live : ℕ → Option ℕ) : Set ℕ := {a | a ∈ F ∨ live a ≠ none}

theorem live_block (ha : live a = some n) : a ∈ blocks F live := Or.inr (by rw [ha]; exact Option.some_ne_none n)

/-- The ring and the blocks; neighbours may touch. -/
structure Loose (base lo : ℕ) (h : Heap) (live : ℕ → Option ℕ) (F : List ℕ) : Prop where
  ring : IsRing h.ptr base F
  sorted : (base :: F).Pairwise (· < ·)
  tiling : Tiling headerSize lo h.brk (blocks F live) h.size
  used : ∀ a ∈ F, live a = none
  fits : ∀ a n, live a = some n → n + headerSize ≤ headerSize * h.size a
  baseSize : h.size base = 0

/-- The memory that `sbrk` returns is above `base`. -/
structure Placed (base lo : ℕ) (h : Heap) : Prop where
  null : 0 < base
  low : base + headerSize ≤ lo
  high : lo ≤ h.brk
  aligned : headerSize ∣ h.brk

theorem Placed.congr (hp : Placed base lo h) (hbrk : h'.brk = h.brk) : Placed base lo h' :=
  ⟨hp.null, hp.low, hbrk ▸ hp.high, hbrk ▸ hp.aligned⟩

/-- **The heap**: the ring with no neighbours that touch. -/
structure Heaped (base lo : ℕ) (h : Heap) (live : ℕ → Option ℕ) (F : List ℕ) : Prop extends Loose base lo h live F where
  freep : h.freep ∈ base :: F
  gaps : ∀ a ∈ F, h.stop a ≠ h.ptr a

/-! ## Lists that begin with `base` -/

theorem exists_tail (hF : base :: F = l₁ ++ p :: l₂) (l : List ℕ) : ∃ F', base :: F' = l₁ ++ p :: l := by
  cases l₁ with
  | nil =>
    obtain ⟨rfl, -⟩ := List.cons.inj hF
    exact ⟨l, rfl⟩
  | cons y l₁ =>
    obtain ⟨rfl, -⟩ := List.cons.inj hF
    exact ⟨l₁ ++ p :: l, rfl⟩

theorem mem_split (hF : base :: F = l₁ ++ p :: l₂) : p ∈ base :: F := by
  rw [hF]
  exact List.mem_append_right _ List.mem_cons_self

/-- One node more. -/
theorem mem_insert (hF : base :: F = l₁ ++ p :: l₂) (hF' : base :: F' = l₁ ++ p :: b :: l₂) : x ∈ F' ↔ x ∈ F ∨ x = b := by
  cases l₁ with
  | nil =>
    rw [(List.cons.inj hF).2, (List.cons.inj hF').2, List.mem_cons]
    exact or_comm
  | cons y l₁ =>
    rw [List.cons_append] at hF hF'
    rw [(List.cons.inj hF).2, (List.cons.inj hF').2]
    simp only [List.mem_append, List.mem_cons]
    tauto

namespace Loose

section

variable (hl : Loose base lo h live F)

include hl

theorem above (ha : a ∈ F) : base < a := List.rel_of_pairwise_cons hl.sorted ha

theorem base_not_mem : base ∉ F := fun hmem => lt_irrefl _ (hl.above hmem)

theorem pos (ha : a ∈ blocks F live) : a < h.stop a :=
  Nat.lt_add_of_pos_right (Nat.mul_pos (by decide) (hl.tiling.pos a ha))

/-- What is before a node, and what is after it. -/
theorem split (hF : base :: F = l₁ ++ p :: l₂) : l₁.Pairwise (· < ·) ∧
    ((∀ x ∈ l₂, p < x) ∧ l₂.Pairwise (· < ·)) ∧ ∀ x ∈ l₁, ∀ y ∈ p :: l₂, x < y := by
  rw [← List.pairwise_cons, ← List.pairwise_append, ← hF]
  exact hl.sorted

/-- What comes after a node. -/
theorem next (hF : base :: F = l₁ ++ p :: l₂) :
    l₂ = [] ∧ h.ptr p = base ∨ ∃ l, l₂ = h.ptr p :: l ∧ p < h.ptr p ∧ ∀ x ∈ l, h.ptr p < x := by
  have hnext := hl.ring.next_eq hF
  obtain ⟨-, ⟨hp, hrest⟩, -⟩ := hl.split hF
  cases l₂ with
  | nil => exact Or.inl ⟨rfl, (Option.some.inj hnext).symm⟩
  | cons y l =>
    obtain rfl : y = h.ptr p := Option.some.inj hnext
    exact Or.inr ⟨l, rfl, hp _ List.mem_cons_self, fun x hx => List.rel_of_pairwise_cons hrest hx⟩

/-- A block that touches a free one is followed by it in the ring. -/
theorem touch (ha : a ∈ F) (hb : b ∈ F) (htouch : h.stop a = b) : h.ptr a = b := by
  have hab : a < b := htouch ▸ hl.pos (Or.inl ha)
  obtain ⟨l₁, l₂, hF⟩ := List.append_of_mem (List.mem_cons_of_mem base ha)
  have hb2 : b ∈ l₂ := by
    have hmem : b ∈ l₁ ++ a :: l₂ := hF ▸ List.mem_cons_of_mem base hb
    rcases List.mem_append.1 hmem with hmem | hmem
    · exact absurd ((hl.split hF).2.2 b hmem a List.mem_cons_self) (lt_asymm hab)
    · exact (List.mem_cons.1 hmem).resolve_left hab.ne'
  rcases hl.next hF with ⟨rfl, -⟩ | ⟨l, rfl, hlt, hrest⟩
  · exact absurd hb2 List.not_mem_nil
  rcases List.mem_cons.1 hb2 with hb | hmem
  · exact hb.symm
  -- the next block would lie inside the first
  · have hnext : h.ptr a ∈ F := by
      have hmem : h.ptr a ∈ base :: F := by
        rw [hF]
        exact List.mem_append_right _ (List.mem_cons_of_mem _ List.mem_cons_self)
      refine (List.mem_cons.1 hmem).resolve_left fun heq => ?_
      have := hl.above ha
      omega
    have hapart := hl.tiling.apart a (Or.inl ha) (h.ptr a) (Or.inl hnext) hlt
    have hafter := hrest b hmem
    rw [Heap.stop] at htouch
    omega

/-- **A live block is linked in**, after the last free block before it. -/
theorem link (hbp : live bp = some n) (hF : base :: F = l₁ ++ p :: l₂) (hp : p < bp)
    (hafter : ∀ x ∈ l₂, bp < x) (hF' : base :: F' = l₁ ++ p :: bp :: l₂) :
    Loose base lo (h.link p bp) (update live bp none) F' := by
  obtain ⟨h1, ⟨hp2, h2⟩, hcross⟩ := hl.split hF
  have hbefore : ∀ x ∈ l₁, x < bp := fun x hx => (hcross x hx p List.mem_cons_self).trans hp
  have hbase : base < bp := by
    cases l₁ with
    | nil =>
      obtain rfl : base = p := (List.cons.inj hF).1
      exact hp
    | cons y l₁ =>
      obtain rfl : base = y := (List.cons.inj hF).1
      exact hbefore base List.mem_cons_self
  have hnew : bp ∉ base :: F := by
    intro hmem
    rcases List.mem_cons.1 hmem with rfl | hmem
    · exact lt_irrefl _ hbase
    · rw [hl.used bp hmem] at hbp
      cases hbp
  refine ⟨hl.ring.insert hF hnew hF', ?_, hl.tiling.congr ?_ fun _ _ => rfl, fun x hx => ?_, fun x m hx => ?_, hl.baseSize⟩
  · rw [hF', List.pairwise_append, List.pairwise_cons, List.pairwise_cons]
    refine ⟨h1, ⟨fun x hx => ?_, hafter, h2⟩, fun x hx y hy => ?_⟩
    · rcases List.mem_cons.1 hx with rfl | hx
      · exact hp
      · exact hp2 x hx
    · rcases List.mem_cons.1 hy with rfl | hy
      · exact hcross x hx y List.mem_cons_self
      rcases List.mem_cons.1 hy with rfl | hy
      · exact hbefore x hx
      · exact hcross x hx y (List.mem_cons_of_mem p hy)
  · ext x
    show x ∈ F' ∨ update live bp none x ≠ none ↔ x ∈ F ∨ live x ≠ none
    rw [mem_insert hF hF']
    by_cases hx : x = bp
    · subst hx
      simp [hbp]
    · simp [hx]
  · by_cases hxb : x = bp
    · rw [hxb, update_self]
    · rw [update_of_ne hxb]
      exact hl.used x (((mem_insert hF hF').1 hx).resolve_right hxb)
  · by_cases hxb : x = bp
    · rw [hxb, update_self] at hx
      cases hx
    · rw [update_of_ne hxb] at hx
      exact hl.fits x m hx

/-- The node `p` is left out of the ring. -/
theorem without (hF : base :: F = l₁ ++ a :: p :: l₂) :
    ∃ F', base :: F' = l₁ ++ a :: l₂ ∧ IsRing (update h.ptr a (h.ptr p)) base F' ∧ (base :: F').Pairwise (· < ·) ∧
      p ∉ F' ∧ ∀ x, x ∈ F ↔ x ∈ F' ∨ x = p := by
  obtain ⟨F', hF'⟩ := exists_tail hF l₂
  have hsub : (base :: F').Sublist (base :: F) := by
    rw [hF, hF']
    exact ((List.sublist_cons_self _ l₂).cons_cons a).append_left l₁
  refine ⟨F', hF', hl.ring.remove hF hF', hl.sorted.sublist hsub, fun hin => ?_, fun x => mem_insert hF' hF⟩
  have hin' : p ∈ l₁ ++ a :: l₂ := hF' ▸ List.mem_cons_of_mem base hin
  have hnodup := hl.ring.nodup
  rw [hF, List.append_cons, List.nodup_middle, List.nodup_cons, List.append_assoc] at hnodup
  exact hnodup.1 hin'

/-- **Two neighbours that touch** are made one. -/
theorem absorb (ha : a ∈ F) (htouch : h.stop a = h.ptr a) :
    ∃ F', Loose base lo (h.absorb a) live F' ∧ h.ptr a ∈ F ∧ ∀ x, x ∈ F ↔ x ∈ F' ∨ x = h.ptr a := by
  obtain ⟨l₁, l₂, hF⟩ := List.append_of_mem (List.mem_cons_of_mem base ha)
  have hstop := hl.pos (Or.inl ha)
  have habove := hl.above ha
  rcases hl.next hF with ⟨-, hnext⟩ | ⟨l, rfl, hlt, hrest⟩
  · -- the ring does not go on upwards
    omega
  obtain ⟨F', -, hring, hsorted, hnotin, hmem⟩ := hl.without hF
  have hb : h.ptr a ∈ F := (hmem _).2 (Or.inr rfl)
  refine ⟨F', ⟨hring, hsorted, ?_, fun x hx => hl.used x ((hmem x).2 (Or.inl hx)), fun x m hx => ?_, ?_⟩, hb, hmem⟩
  · refine (hl.tiling.merge (by decide) (Or.inl ha) (Or.inl hb) htouch).congr ?_ fun _ _ => rfl
    ext x
    show x ∈ F' ∨ live x ≠ none ↔ (x ∈ F ∨ live x ≠ none) ∧ x ≠ h.ptr a
    rw [hmem]
    constructor
    · rintro (hx | hx)
      · exact ⟨Or.inl (Or.inl hx), fun heq => hnotin (heq ▸ hx)⟩
      · exact ⟨Or.inr hx, fun heq => hx (heq ▸ hl.used _ hb)⟩
    · rintro ⟨(hx | rfl) | hx, hne⟩
      · exact Or.inl hx
      · exact absurd rfl hne
      · exact Or.inr hx
  · have hxa : x ≠ a := by
      rintro rfl
      rw [hl.used x ha] at hx
      cases hx
    show m + headerSize ≤ headerSize * update h.size a _ x
    rw [update_of_ne hxa]
    exact hl.fits x m hx
  · show update h.size a _ base = 0
    rw [update_of_ne habove.ne]
    exact hl.baseSize

/-- The block `a` is joined with the one after it if they touch. -/
theorem join (ha : h.stop a = h.ptr a → a ∈ F)
    (hgap : h.ptr a ∈ F → h.stop (h.ptr a) ≠ h.ptr (h.ptr a)) :
    ∃ F', Loose base lo (h.joined a) live F' ∧ (∀ x ∈ F', x ∈ F) ∧ (∀ x ∈ F, x ≤ a → x ∈ F') ∧
      (∀ x, x ≠ a → (h.joined a).stop x = h.stop x ∧ (h.joined a).ptr x = h.ptr x) ∧
      (h.joined a).stop a ≠ (h.joined a).ptr a ∧ (h.joined a).brk = h.brk ∧
      ∀ x ∈ F, ∃ y ∈ F', h.size x ≤ (h.joined a).size y := by
  by_cases htouch : h.stop a = h.ptr a
  · have hjoin : h.joined a = h.absorb a := if_pos htouch
    rw [hjoin]
    obtain ⟨F', hl', hb, hmem⟩ := hl.absorb (ha htouch) htouch
    have hpos := hl.pos (Or.inl (ha htouch))
    have hsize : (h.absorb a).size a = h.size a + h.size (h.ptr a) := update_self ..
    have hstop : (h.absorb a).stop a = h.stop (h.ptr a) := by
      rw [Heap.stop, hsize, Nat.mul_add, ← Nat.add_assoc, ← Heap.stop, htouch, Heap.stop]
    have hptr : (h.absorb a).ptr a = h.ptr (h.ptr a) := update_self ..
    have hkeep : ∀ x ∈ F, x ≤ a → x ∈ F' := by
      intro x hx hxa
      refine ((hmem x).1 hx).resolve_right fun heq => ?_
      omega
    have ha' : a ∈ F' := hkeep a (ha htouch) le_rfl
    refine ⟨F', hl', fun x hx => (hmem x).2 (Or.inl hx), hkeep, fun x hx => ?_, ?_, rfl, fun x hx => ?_⟩
    · refine ⟨?_, update_of_ne hx _ _⟩
      show x + headerSize * update h.size a _ x = _
      rw [update_of_ne hx, Heap.stop]
    · rw [hstop, hptr]
      exact hgap hb
    · rcases (hmem x).1 hx with hx' | rfl
      · by_cases hxa : x = a
        · subst hxa
          exact ⟨x, hx', by rw [hsize]; exact Nat.le_add_right ..⟩
        · refine ⟨x, hx', le_of_eq ?_⟩
          show _ = update h.size a _ x
          rw [update_of_ne hxa]
      · exact ⟨a, ha', by rw [hsize]; exact Nat.le_add_left ..⟩
  · have hjoin : h.joined a = h := if_neg htouch
    rw [hjoin]
    exact ⟨F, hl, fun _ h => h, fun _ h _ => h, fun _ _ => ⟨rfl, rfl⟩, htouch, rfl, fun x hx => ⟨x, hx, le_rfl⟩⟩

end

end Loose

/-! ## `free` -/

/-- The place of an address in the order of the nodes. -/
theorem exists_place {y : ℕ} {l : List ℕ} (hsorted : (y :: l).Pairwise (· < ·)) (hy : y < bp) (hbp : bp ∉ l) :
    ∃ l₁ p l₂, y :: l = l₁ ++ p :: l₂ ∧ p < bp ∧ ∀ x ∈ l₂, bp < x := by
  induction l generalizing y with
  | nil => exact ⟨[], y, [], rfl, hy, fun x hx => absurd hx List.not_mem_nil⟩
  | cons z l ih =>
    obtain ⟨hyz, hsorted⟩ := List.pairwise_cons.1 hsorted
    rw [List.mem_cons, not_or] at hbp
    rcases lt_or_gt_of_ne hbp.1 with hlt | hgt
    · refine ⟨[], y, z :: l, rfl, hy, fun x hx => ?_⟩
      rcases List.mem_cons.1 hx with rfl | hx
      · exact hlt
      · exact hlt.trans (List.rel_of_pairwise_cons hsorted hx)
    · obtain ⟨l₁, p, l₂, hl, hp, hafter⟩ := ih hsorted hgt hbp.2
      exact ⟨y :: l₁, p, l₂, congrArg (y :: ·) hl, hp, hafter⟩

/-- The loop of `free` ends at `p`. -/
def Heap.Here (h : Heap) (bp p : ℕ) : Prop := (p < bp ∧ bp < h.ptr p) ∨ (h.ptr p ≤ p ∧ (p < bp ∨ bp < h.ptr p))

theorem freeSearch_here (hi : h.Here bp (h.ptr^[i] a)) (hmin : ∀ j < i, ¬ h.Here bp (h.ptr^[j] a)) (hfuel : i < fuel) :
    h.freeSearch bp fuel a = some (h.ptr^[i] a) := by
  induction i generalizing a fuel with
  | zero =>
    obtain ⟨fuel, rfl⟩ := Nat.exists_eq_succ_of_ne_zero (Nat.ne_of_gt hfuel)
    rw [Heap.freeSearch]
    split_ifs with h1 h2
    · rfl
    · rfl
    · exact absurd hi (not_or.2 ⟨h1, h2⟩)
  | succ i ih =>
    obtain ⟨fuel, rfl⟩ := Nat.exists_eq_succ_of_ne_zero (Nat.ne_of_gt (Nat.zero_lt_of_lt hfuel))
    have hnot : ¬ h.Here bp a := hmin 0 (Nat.succ_pos i)
    obtain ⟨h1, h2⟩ := not_or.1 hnot
    rw [Heap.freeSearch, if_neg h1, if_neg h2]
    exact ih hi (fun j hj => hmin (j + 1) (Nat.succ_lt_succ hj)) (Nat.lt_of_succ_lt_succ hfuel)

namespace Loose

/-- **The place is unique**: the loop ends at the last free block before `bp`. -/
theorem here_iff (hl : Loose base lo h live F) (hbase : base < bp) (hF : base :: F = l₁ ++ p :: l₂) (hp : p < bp)
    (hafter : ∀ x ∈ l₂, bp < x) (hx : x ∈ base :: F) : h.Here bp x ↔ x = p := by
  constructor
  · intro hhere
    obtain ⟨m1, m2, hm⟩ := List.append_of_mem hx
    -- a node other than `p` is before it, or after `bp`
    have hcases : ∀ y ∈ base :: F, y ≤ p ∨ bp < y := by
      intro y hy
      rw [hF] at hy
      rcases List.mem_append.1 hy with hy | hy
      · exact Or.inl ((hl.split hF).2.2 y hy p List.mem_cons_self).le
      rcases List.mem_cons.1 hy with rfl | hy
      · exact Or.inl le_rfl
      · exact Or.inr (hafter y hy)
    have hpmem : p ∈ base :: F := mem_split hF
    have hpm : p ≤ x ∨ p ∈ m2 := by
      rw [hm] at hpmem
      rcases List.mem_append.1 hpmem with hpm | hpm
      · exact Or.inl ((hl.split hm).2.2 p hpm x List.mem_cons_self).le
      rcases List.mem_cons.1 hpm with rfl | hpm
      · exact Or.inl le_rfl
      · exact Or.inr hpm
    have hxp := hcases x hx
    rcases hl.next hm with ⟨rfl, hnext⟩ | ⟨l, rfl, hlt, hrest⟩
    · have hpx : p ≤ x := hpm.resolve_right List.not_mem_nil
      rcases hhere with ⟨h1, h2⟩ | ⟨-, h2⟩
      · omega
      · omega
    · rcases hhere with ⟨h1, h2⟩ | ⟨h1, -⟩
      · rcases hpm with hpx | hpm
        · omega
        · -- the node after `x` is not after `p`
          have hle : h.ptr x ≤ p := by
            rcases List.mem_cons.1 hpm with hpm | hpm
            · exact hpm.ge
            · exact (hrest p hpm).le
          omega
      · omega
  · rintro rfl
    rcases hl.next hF with ⟨rfl, hnext⟩ | ⟨l, rfl, hlt, hrest⟩
    · refine Or.inr ⟨?_, Or.inl hp⟩
      rw [hnext]
      rcases List.mem_cons.1 hx with rfl | hx
      · exact le_rfl
      · exact (hl.above hx).le
    · exact Or.inl ⟨hp, hafter _ List.mem_cons_self⟩

end Loose

/-- A live block is not in the ring, and above `base`. -/
theorem Loose.outside (hl : Loose base lo h live F) (hplaced : Placed base lo h) (hbp : live bp = some n) : base < bp ∧ bp ∉ F := by
  have hlow := hl.tiling.low bp (live_block hbp)
  have hbelow := hplaced.low
  rw [headerSize] at hbelow
  refine ⟨by omega, fun hmem => ?_⟩
  rw [hl.used bp hmem] at hbp
  cases hbp

section

variable (hh : Heaped base lo h live F) (hplaced : Placed base lo h)

include hh hplaced

theorem Heaped.freep_ne : h.freep ≠ 0 := by
  have hnull := hplaced.null
  rcases List.mem_cons.1 hh.freep with heq | hmem
  · omega
  · have := hh.above hmem
    omega

/-- **The loop of `free` ends**, at the last free block before the one that is freed. -/
theorem Heaped.search (hbp : live bp = some n) :
    ∃ N l₁ p l₂, base :: F = l₁ ++ p :: l₂ ∧ p < bp ∧ (∀ x ∈ l₂, bp < x) ∧
      ∀ fuel, N ≤ fuel → h.freeSearch bp fuel h.freep = some p := by
  obtain ⟨hbase, hnotin⟩ := hh.outside hplaced hbp
  obtain ⟨l₁, p, l₂, hF, hp, hafter⟩ := exists_place hh.sorted hbase hnotin
  have hpmem : p ∈ base :: F := mem_split hF
  have hhere := fun x hx => hh.here_iff (x := x) hbase hF hp hafter hx
  obtain ⟨i, hi, hmin⟩ := hh.ring.walk (P := h.Here bp) hh.freep hpmem ((hhere p hpmem).2 rfl)
  have hfound : h.ptr^[i] h.freep = p := (hhere _ (hh.ring.iterate_mem hh.freep i)).1 hi
  refine ⟨i + 1, l₁, p, l₂, hF, hp, hafter, fun fuel hfuel => ?_⟩
  rw [freeSearch_here hi hmin hfuel, hfound]

/-- **The rest of `free`**: the block is linked in, and joined with its neighbours. -/
theorem Heaped.insert (hbp : live bp = some n)
    (hF : base :: F = l₁ ++ p :: l₂) (hp : p < bp) (hafter : ∀ x ∈ l₂, bp < x) :
    (h.freeInsert bp p).brk = h.brk ∧ ∃ F', Heaped base lo (h.freeInsert bp p) (update live bp none) F' ∧
      ∃ a ∈ F', h.size bp ≤ (h.freeInsert bp p).size a := by
  have hl := hh.toLoose
  obtain ⟨hbase, hnotin⟩ := hl.outside hplaced hbp
  have hpmem : p ∈ base :: F := mem_split hF
  -- the node after `p` is `base`, or a free block after `bp`
  have hnext : h.ptr p = base ∨ h.ptr p ∈ F ∧ bp < h.ptr p := by
    rcases hl.next hF with ⟨-, hnext⟩ | ⟨l, hl2, -, -⟩
    · exact Or.inl hnext
    · have hlt : bp < h.ptr p := hafter _ (hl2 ▸ List.mem_cons_self)
      refine Or.inr ⟨(List.mem_cons.1 (hl.ring.next_mem hpmem)).resolve_left ?_, hlt⟩
      exact fun heq => by omega
  have hpos := hl.pos (live_block hbp : bp ∈ blocks F live)
  have hself : h.ptr p ≠ bp := by
    rcases hnext with hnext | ⟨-, hlt⟩
    · rw [hnext]
      exact hbase.ne
    · exact hlt.ne'
  have hgood : h.stop bp ≠ h.ptr p ∨ h.ptr p ≠ p := by
    by_cases heq : h.ptr p = p
    · left
      omega
    · exact Or.inr heq
  rw [Heap.freeInsert_eq hp.ne hself hgood]
  obtain ⟨F1, hF1⟩ := exists_tail hF (bp :: l₂)
  have hl1 := hl.link hbp hF hp hafter hF1
  have hmem1 : ∀ x, x ∈ F1 ↔ x ∈ F ∨ x = bp := fun x => mem_insert hF hF1
  have hptrp : (h.link p bp).ptr p = bp := update_self ..
  have hptrb : (h.link p bp).ptr bp = h.ptr p := by
    show update (update h.ptr bp (h.ptr p)) p bp bp = _
    rw [update_of_ne hp.ne', update_self]
  have hgaps1 : ∀ x ∈ F1, x ≠ p → x ≠ bp → (h.link p bp).stop x ≠ (h.link p bp).ptr x := by
    intro x hx hxp hxb
    have hptr : (h.link p bp).ptr x = h.ptr x := by
      show update (update h.ptr bp (h.ptr p)) p bp x = _
      rw [update_of_ne hxp, update_of_ne hxb]
    rw [hptr]
    exact hh.gaps x (((hmem1 x).1 hx).resolve_right hxb)
  have hafter1 : (h.link p bp).ptr bp ∈ F1 → (h.link p bp).stop ((h.link p bp).ptr bp) ≠ (h.link p bp).ptr ((h.link p bp).ptr bp) := by
    rw [hptrb]
    intro hmem
    rcases hnext with hnext | ⟨-, hlt⟩
    · exact absurd (hnext ▸ hmem) hl1.base_not_mem
    · exact hgaps1 _ hmem (by omega) hlt.ne'
  obtain ⟨F2, hl2, hsub2, hkeep2, hsame2, hgap2, hbrk2, hsize2⟩ := hl1.join (fun _ => (hmem1 bp).2 (Or.inr rfl)) hafter1
  have hptr2 : ((h.link p bp).joined bp).ptr p = bp := (hsame2 p hp.ne).2.trans hptrp
  have hpin : ((h.link p bp).joined bp).stop p = ((h.link p bp).joined bp).ptr p → p ∈ F2 := by
    intro htouch
    refine hkeep2 p ((hmem1 p).2 (Or.inl ((List.mem_cons.1 hpmem).resolve_left ?_))) hp.le
    rintro rfl
    rw [(hsame2 p hp.ne).1] at htouch
    have hzero : (h.link p bp).stop p = p := by
      rw [Heap.stop, hl1.baseSize]
      rfl
    omega
  obtain ⟨F3, hl3, hsub3, hkeep3, hsame3, hgap3, hbrk3, hsize3⟩ := hl2.join hpin fun _ => by
    rw [hptr2]
    exact hgap2
  refine ⟨hbrk3.trans hbrk2, F3, ⟨⟨hl3.ring, hl3.sorted, hl3.tiling, hl3.used, hl3.fits, hl3.baseSize⟩, ?_, fun x hx => ?_⟩, ?_⟩
  · rcases List.mem_cons.1 hpmem with rfl | hmem
    · exact List.mem_cons_self
    · exact List.mem_cons_of_mem base (hkeep3 p (hkeep2 p ((hmem1 p).2 (Or.inl hmem)) hp.le) le_rfl)
  · show (((h.link p bp).joined bp).joined p).stop x ≠ (((h.link p bp).joined bp).joined p).ptr x
    by_cases hxp : x = p
    · rw [hxp]
      exact hgap3
    rw [(hsame3 x hxp).1, (hsame3 x hxp).2]
    by_cases hxb : x = bp
    · rw [hxb]
      exact hgap2
    rw [(hsame2 x hxb).1, (hsame2 x hxb).2]
    exact hgaps1 x (hsub2 x (hsub3 x hx)) hxp hxb
  · obtain ⟨y, hy, hle⟩ := hsize2 bp ((hmem1 bp).2 (Or.inr rfl))
    obtain ⟨z, hz, hle'⟩ := hsize3 y hy
    exact ⟨z, hz, hle.trans hle'⟩

/-- **`free` returns**, and the block is free, by itself or as a part of a larger block. -/
theorem Heaped.free (hbp : live bp = some n) :
    ∃ N h', (∀ fuel, N ≤ fuel → h.free fuel (bp + headerSize) = some h') ∧ h'.brk = h.brk ∧
      ∃ F', Heaped base lo h' (update live bp none) F' ∧ ∃ a ∈ F', h.size bp ≤ h'.size a := by
  obtain ⟨N, l₁, p, l₂, hF, hp, hafter, hsearch⟩ := hh.search hplaced hbp
  refine ⟨N, h.freeInsert bp p, fun fuel hfuel => ?_, hh.insert hplaced hbp hF hp hafter⟩
  rw [Heap.free, Nat.add_sub_cancel, hsearch fuel hfuel, Option.map_some]

end

/-! ## `malloc` -/

variable {nunits prevp fuel' nbytes nu : ℕ} {r : ℕ × Heap}

/-- What `malloc` makes of the heap when it returns `r`. -/
def Given (base lo : ℕ) (live : ℕ → Option ℕ) (n : ℕ) (r : ℕ × Heap) : Prop :=
  Placed base lo r.2 ∧
  ((r.1 = 0 ∧ ∃ F', Heaped base lo r.2 live F') ∨
    headerSize < r.1 ∧ live (r.1 - headerSize) = none ∧
      ∃ F', Heaped base lo r.2 (Function.update live (r.1 - headerSize) (some n)) F')

/-- The whole block is taken out of the ring. -/
theorem Heaped.unlink (hh : Heaped base lo h live F) (hF : base :: F = l₁ ++ prevp :: p :: l₂) (hpF : p ∈ F)
    (hn : n + headerSize ≤ headerSize * h.size p) :
    ∃ F', Heaped base lo { h.setPtr prevp (h.ptr p) with freep := prevp } (update live p (some n)) F' := by
  have hl := hh.toLoose
  obtain ⟨F', hF', hring, hsorted, hnotin, hmem⟩ := hl.without hF
  have hlt : prevp < p := (hl.split hF).2.1.1 p List.mem_cons_self
  refine ⟨F', ⟨⟨hring, hsorted, hl.tiling.congr ?_ fun _ _ => rfl, fun x hx => ?_, fun x m hx => ?_, hl.baseSize⟩,
    ?_, fun x hx => ?_⟩⟩
  · ext x
    show x ∈ F' ∨ update live p (some n) x ≠ none ↔ x ∈ F ∨ live x ≠ none
    rw [hmem]
    by_cases hx : x = p
    · simp [hx]
    · simp [hx]
  · have hxp : x ≠ p := fun heq => hnotin (heq ▸ hx)
    rw [update_of_ne hxp]
    exact hl.used x ((hmem x).2 (Or.inl hx))
  · by_cases hxp : x = p
    · rw [hxp, update_self] at hx
      obtain rfl := Option.some.inj hx
      rw [hxp]
      exact hn
    · rw [update_of_ne hxp] at hx
      exact hl.fits x m hx
  · exact mem_split hF'
  · show h.stop x ≠ update h.ptr prevp (h.ptr p) x
    have hxF : x ∈ F := (hmem x).2 (Or.inl hx)
    by_cases hxp : x = prevp
    · subst hxp
      rw [update_self]
      -- the block ends before `p`, and the next one is behind `p`
      have hapart : h.stop x ≤ p := hl.tiling.apart x (Or.inl hxF) p (Or.inl hpF) hlt
      have hpos := hl.pos (Or.inl hxF)
      have habove := hl.above hxF
      rw [List.append_cons] at hF
      rcases hl.next hF with ⟨-, hnext⟩ | ⟨l, -, hafter, -⟩
      · omega
      · omega
    · rw [update_of_ne hxp]
      exact hh.gaps x hxF

/-- The end of the block is cut off. -/
theorem Heaped.cut (hh : Heaped base lo h live F) (hprev : prevp ∈ base :: F) (hpF : p ∈ F) (hpos : 0 < nunits)
    (hlt : nunits < h.size p) (hb : b = (h.setSize p (h.size p - nunits)).stop p) (hn : n + headerSize ≤ headerSize * nunits) :
    p < b ∧ live b = none ∧
      Heaped base lo { (h.setSize p (h.size p - nunits)).setSize b nunits with freep := prevp } (update live b (some n)) F := by
  have hl := hh.toLoose
  have hbeq : b = p + headerSize * (h.size p - nunits) := by
    rw [hb]
    show _ + _ * update h.size p _ p = _
    rw [update_self]
  have hsplit := hl.tiling.split (by decide) (Or.inl hpF) hpos hlt hbeq
  have hpb : p < b := by
    rw [hbeq]
    exact Nat.lt_add_of_pos_right (Nat.mul_pos (by decide) (Nat.sub_pos_of_lt hlt))
  -- there is no block at `b` yet
  have hfresh : b ∉ blocks F live := by
    intro hmem
    have hapart := hl.tiling.apart p (Or.inl hpF) b hmem hpb
    rw [headerSize] at hapart hbeq
    omega
  obtain ⟨hbF, hblive⟩ := not_or.1 hfresh
  have hlive : live b = none := not_not.1 hblive
  have hbase := hl.above hpF
  have hsize : ∀ x, x ≠ p → x ≠ b → update (update h.size p (h.size p - nunits)) b nunits x = h.size x := by
    intro x hxp hxb
    rw [update_of_ne hxb, update_of_ne hxp]
  refine ⟨hpb, hlive, ⟨hl.ring, hl.sorted, hsplit.congr ?_ fun _ _ => rfl, fun x hx => ?_, fun x m hx => ?_, ?_⟩, hprev, fun x hx => ?_⟩
  · ext x
    show x ∈ F ∨ update live b (some n) x ≠ none ↔ x = b ∨ x ∈ F ∨ live x ≠ none
    by_cases hx : x = b
    · simp [hx]
    · simp [hx]
  · have hxb : x ≠ b := fun heq => hbF (heq ▸ hx)
    rw [update_of_ne hxb]
    exact hl.used x hx
  · show m + headerSize ≤ headerSize * update (update h.size p (h.size p - nunits)) b nunits x
    by_cases hxb : x = b
    · rw [hxb, update_self] at hx
      obtain rfl := Option.some.inj hx
      rw [hxb, update_self]
      exact hn
    · rw [update_of_ne hxb] at hx
      have hxp : x ≠ p := by
        rintro rfl
        rw [hl.used x hpF] at hx
        cases hx
      rw [hsize x hxp hxb]
      exact hl.fits x m hx
  · show update (update h.size p (h.size p - nunits)) b nunits base = 0
    rw [hsize base hbase.ne (hbase.trans hpb).ne]
    exact hl.baseSize
  · show x + headerSize * update (update h.size p (h.size p - nunits)) b nunits x ≠ h.ptr x
    have hxb : x ≠ b := fun heq => hbF (heq ▸ hx)
    by_cases hxp : x = p
    · subst hxp
      rw [update_of_ne hxb, update_self, ← hbeq]
      intro heq
      rcases List.mem_cons.1 (hl.ring.next_mem (List.mem_cons_of_mem base hx)) with hnext | hnext
      · omega
      · exact hbF (heq ▸ hnext)
    · rw [hsize x hxp hxb]
      exact hh.gaps x hx

/-- **A block that is large enough** is taken out of the ring, or its end is cut off. -/
theorem Heaped.allocate (hh : Heaped base lo h live F) (hplaced : Placed base lo h) (hprev : prevp ∈ base :: F) (hp : h.ptr prevp = p)
    (hpos : 0 < nunits) (hlarge : nunits ≤ h.size p) (hn : n + headerSize ≤ headerSize * nunits) :
    Given base lo live n (h.allocate nunits prevp p) := by
  have hl := hh.toLoose
  -- the block is not `base`
  have hpF : p ∈ F := by
    refine (List.mem_cons.1 (hp ▸ hl.ring.next_mem hprev)).resolve_left ?_
    rintro rfl
    rw [hl.baseSize] at hlarge
    omega
  have hnull : 0 < p := hplaced.null.trans (hl.above hpF)
  obtain ⟨l₁, m, hF⟩ := List.append_of_mem hprev
  rcases hl.next hF with ⟨-, hnext⟩ | ⟨l₂, hm, hlt, -⟩
  · rw [hp] at hnext
    exact absurd (hnext ▸ hpF) hl.base_not_mem
  rw [hp] at hm
  subst hm
  rw [Heap.allocate]
  by_cases hexact : h.size p = nunits
  · rw [if_pos hexact]
    refine ⟨hplaced.congr rfl, Or.inr ⟨Nat.lt_add_of_pos_left hnull, ?_, ?_⟩⟩
    · exact hl.used p hpF
    · exact hh.unlink hF hpF (hexact ▸ hn)
  · rw [if_neg hexact]
    obtain ⟨hpb, hlive, hcut⟩ := hh.cut hprev hpF hpos (lt_of_le_of_ne hlarge (Ne.symm hexact)) rfl hn
    refine ⟨hplaced.congr rfl, Or.inr ⟨Nat.lt_add_of_pos_left (hnull.trans hpb), ?_, ?_⟩⟩
    · exact hlive
    · exact ⟨F, hcut⟩

/-- The loop of `malloc` passes blocks that are too small. -/
theorem scan_skip (hr : IsRing h.ptr base F) (hprev : prevp ∈ base :: F) (hp : h.ptr prevp = p)
    (hskip : ∀ j < i, ¬ nunits ≤ h.size (h.ptr^[j] p) ∧ h.ptr^[j] p ≠ h.freep) :
    ∃ q ∈ base :: F, h.ptr q = h.ptr^[i] p ∧
      ∀ fuel oks, Heap.scan nunits (fuel + i) oks prevp p h = Heap.scan nunits fuel oks q (h.ptr^[i] p) h := by
  induction i generalizing prevp p with
  | zero => exact ⟨prevp, hprev, hp, fun _ _ => rfl⟩
  | succ i ih =>
    obtain ⟨q, hq, hptr, hscan⟩ := ih (hp ▸ hr.next_mem hprev) rfl fun j hj => hskip (j + 1) (Nat.succ_lt_succ hj)
    refine ⟨q, hq, hptr, fun fuel oks => ?_⟩
    have hfirst : ¬ nunits ≤ h.size p ∧ p ≠ h.freep := hskip 0 (Nat.succ_pos i)
    rw [← Nat.add_assoc, Heap.scan, if_neg hfirst.1, if_neg hfirst.2]
    exact hscan fuel oks

/-- **`morecore`** adds a block that is large enough. -/
theorem Heaped.morecore (hh : Heaped base lo h live F) (hplaced : Placed base lo h) (hnu : nu < 2 ^ 28) :
    ∃ N h', (∀ fuel, N ≤ fuel → h.morecore fuel true nu = some (h'.freep, h')) ∧ Placed base lo h' ∧
      ∃ F', Heaped base lo h' live F' ∧ ∃ a ∈ F', nu ≤ h'.size a := by
  have hl := hh.toLoose
  obtain ⟨m, hm, hle, hbig, hlt⟩ : ∃ m, (if nu < 4096 then 4096 else nu) = m ∧ nu ≤ m ∧ 0 < m ∧ m < 2 ^ 28 := by
    refine ⟨_, rfl, ?_⟩
    split_ifs <;> omega
  have hbytes : m * headerSize % 2 ^ 32 = headerSize * m := by
    rw [headerSize]
    omega
  obtain ⟨hgrow, hfresh⟩ := hl.tiling.grow (by decide) hplaced.high hplaced.aligned hbig
  obtain ⟨hbrkF, hbrklive⟩ := not_or.1 hfresh
  have hnone : live h.brk = none := not_not.1 hbrklive
  have hbase : base ≠ h.brk := by
    have hlow := hplaced.low
    have hhigh := hplaced.high
    rw [headerSize] at hlow
    omega
  -- the new memory is a live block for a moment
  have hplaced' : Placed base lo ({ h with brk := h.brk + headerSize * m }.setSize h.brk m) :=
    ⟨hplaced.null, hplaced.low, hplaced.high.trans (Nat.le_add_right ..), Dvd.dvd.add hplaced.aligned (dvd_mul_right ..)⟩
  have hnew : Heaped base lo ({ h with brk := h.brk + headerSize * m }.setSize h.brk m) (update live h.brk (some 0)) F := by
    refine ⟨⟨hl.ring, hl.sorted, hgrow.congr ?_ fun _ _ => rfl, fun x hx => ?_, fun x k hx => ?_, ?_⟩, hh.freep, fun x hx => ?_⟩
    · ext x
      show x ∈ F ∨ update live h.brk (some 0) x ≠ none ↔ x = h.brk ∨ x ∈ F ∨ live x ≠ none
      by_cases hx : x = h.brk
      · simp [hx]
      · simp [hx]
    · have hxb : x ≠ h.brk := fun heq => hbrkF (heq ▸ hx)
      rw [update_of_ne hxb]
      exact hl.used x hx
    · show k + headerSize ≤ headerSize * update h.size h.brk m x
      by_cases hxb : x = h.brk
      · rw [hxb, update_self] at hx
        obtain rfl := Option.some.inj hx
        rw [hxb, update_self, headerSize]
        omega
      · rw [update_of_ne hxb] at hx ⊢
        exact hl.fits x k hx
    · show update h.size h.brk m base = 0
      rw [update_of_ne hbase]
      exact hl.baseSize
    · show x + headerSize * update h.size h.brk m x ≠ h.ptr x
      have hxb : x ≠ h.brk := fun heq => hbrkF (heq ▸ hx)
      rw [update_of_ne hxb]
      exact hh.gaps x hx
  obtain ⟨N, h', hfree, hbrk, F', hh', a, ha, hsize⟩ := hnew.free hplaced' (update_self ..)
  have hback : update (update live h.brk (some 0)) h.brk none = live := by
    rw [update_idem, ← hnone, update_eq_self]
  rw [hback] at hh'
  have hsizeb : ({ h with brk := h.brk + headerSize * m }.setSize h.brk m).size h.brk = m := update_self ..
  rw [hsizeb] at hsize
  refine ⟨N, h', fun fuel hfuel => ?_, hplaced'.congr hbrk, F', hh', a, ha,
    hle.trans hsize⟩
  simp only [Heap.morecore, Heap.sbrk, hm, hbytes, if_true]
  rw [hfree fuel hfuel, Option.map_some]

/-- `nunits` units are enough. -/
theorem units_spec (hn : nbytes + 7 < 2 ^ 32) :
    0 < Heap.units nbytes ∧ nbytes + headerSize ≤ headerSize * Heap.units nbytes := by
  rw [Heap.units, headerSize]
  omega

theorem units_lt (hn : nbytes + 15 < 2 ^ 31) : Heap.units nbytes < 2 ^ 28 := by
  rw [Heap.units, headerSize]
  omega

/-- **`malloc` returns**, and what it returns is a block, or null. -/
theorem Heaped.scan (hh : Heaped base lo h live F) (hplaced : Placed base lo h) (hn : nbytes + 7 < 2 ^ 32) (oks : List Bool)
    (hoks : oks.headD false = true → Heap.units nbytes < 2 ^ 28) :
    ∃ N r, (∀ fuel, N ≤ fuel → Heap.scan (Heap.units nbytes) fuel oks h.freep (h.ptr h.freep) h = some r) ∧
      Given base lo live nbytes r := by
  obtain ⟨hpos, hfits⟩ := units_spec hn
  obtain ⟨i, hskip, hend⟩ := hh.ring.walkAround (Heap.units nbytes ≤ h.size ·) hh.freep
  obtain ⟨q, hq, hptr, hscan⟩ := scan_skip hh.ring hh.freep rfl hskip
  rcases hend with hlarge | ⟨hback, hnone⟩
  · refine ⟨1 + i, _, fun fuel hfuel => ?_, hh.allocate hplaced hq hptr hpos hlarge hfits⟩
    obtain ⟨k, rfl⟩ := Nat.exists_eq_add_of_le hfuel
    rw [show 1 + i + k = k + 1 + i by omega, hscan, Heap.scan, if_pos hlarge]
  -- once around the ring, and no block is large enough
  have hsmall : ¬ Heap.units nbytes ≤ h.size (h.ptr^[i] (h.ptr h.freep)) := by
    rw [hback]
    exact hnone _ hh.freep
  cases hok : oks.headD false with
  | false =>
    refine ⟨1 + i, (0, h), fun fuel hfuel => ?_, hplaced, Or.inl ⟨rfl, F, hh⟩⟩
    obtain ⟨k, rfl⟩ := Nat.exists_eq_add_of_le hfuel
    rw [show 1 + i + k = k + 1 + i by omega, hscan, Heap.scan, if_neg hsmall, if_pos hback, hok]
    rfl
  | true =>
    obtain ⟨N, h', hmore, hplaced', F', hh', a, ha, hsize⟩ := hh.morecore hplaced (hoks hok)
    obtain ⟨i', hskip', hend'⟩ := hh'.ring.walkAround (Heap.units nbytes ≤ h'.size ·) hh'.freep
    have hlarge : Heap.units nbytes ≤ h'.size (h'.ptr^[i'] (h'.ptr h'.freep)) :=
      hend'.resolve_right fun hno => hno.2 a (List.mem_cons_of_mem base ha) hsize
    obtain ⟨q', hq', hptr', hscan'⟩ := scan_skip hh'.ring hh'.freep rfl hskip'
    have hnull := hh'.freep_ne hplaced'
    refine ⟨N + 1 + i' + 1 + i, _, fun fuel hfuel => ?_, hh'.allocate hplaced' hq' hptr' hpos hlarge hfits⟩
    obtain ⟨k, rfl⟩ := Nat.exists_eq_add_of_le hfuel
    rw [show N + 1 + i' + 1 + i + k = N + 1 + i' + k + 1 + i by omega, hscan, Heap.scan, if_neg hsmall, if_pos hback, hok,
      hmore _ (by omega)]
    show (if h'.freep = 0 then _ else _) = _
    rw [if_neg hnull, show N + 1 + i' + k = N + k + 1 + i' by omega, hscan', Heap.scan, if_pos hlarge]

/-! ## More rounds -/

theorem freeSearch_mono {q : ℕ} (hrun : h.freeSearch bp fuel p = some q) (hle : fuel ≤ fuel') :
    h.freeSearch bp fuel' p = some q := by
  induction fuel generalizing p fuel' with
  | zero => cases hrun
  | succ fuel ih =>
    obtain ⟨k, rfl⟩ := Nat.exists_eq_succ_of_ne_zero (Nat.ne_of_gt (Nat.zero_lt_of_lt hle))
    rw [Heap.freeSearch] at hrun ⊢
    split_ifs at hrun ⊢ with h1 h2
    · exact hrun
    · exact hrun
    · exact ih hrun (Nat.le_of_succ_le_succ hle)

theorem free_mono {ap : ℕ} (hrun : h.free fuel ap = some h') (hle : fuel ≤ fuel') : h.free fuel' ap = some h' := by
  obtain ⟨q, hq, hins⟩ := Option.map_eq_some_iff.1 hrun
  exact Option.map_eq_some_iff.2 ⟨q, freeSearch_mono hq hle, hins⟩

theorem morecore_mono {ok : Bool} (hrun : h.morecore fuel ok nu = some r) (hle : fuel ≤ fuel') :
    h.morecore fuel' ok nu = some r := by
  cases ok with
  | false => exact hrun
  | true =>
    obtain ⟨h', hfree, hr⟩ := Option.map_eq_some_iff.1 hrun
    exact Option.map_eq_some_iff.2 ⟨h', free_mono hfree hle, hr⟩

theorem scan_mono {oks : List Bool} (hrun : Heap.scan nunits fuel oks prevp p h = some r)
    (hle : fuel ≤ fuel') : Heap.scan nunits fuel' oks prevp p h = some r := by
  induction fuel generalizing prevp p h fuel' oks with
  | zero => cases hrun
  | succ fuel ih =>
    obtain ⟨k, rfl⟩ := Nat.exists_eq_succ_of_ne_zero (Nat.ne_of_gt (Nat.zero_lt_of_lt hle))
    have hle' : fuel ≤ k := Nat.le_of_succ_le_succ hle
    rw [Heap.scan] at hrun ⊢
    split_ifs at hrun ⊢ with h1 h2
    · exact hrun
    · cases hmore : h.morecore fuel (oks.headD false) nunits with
      | none =>
        rw [hmore] at hrun
        cases hrun
      | some q =>
        rw [hmore] at hrun
        rw [morecore_mono hmore hle']
        obtain ⟨p', h'⟩ := q
        replace hrun : (if p' = 0 then some (0, h') else Heap.scan nunits fuel oks.tail p' (h'.ptr p') h') = some r := hrun
        show (if p' = 0 then some (0, h') else Heap.scan nunits k oks.tail p' (h'.ptr p') h') = some r
        split_ifs at hrun ⊢ with hzero
        · exact hrun
        · exact ih hrun hle'
    · exact ih hrun hle'

/-! ## Runs -/

variable {s s' : State} {e : Event}

structure Inv (base lo : ℕ) (s : State) : Prop where
  placed : Placed base lo s.heap
  heap : (s.heap.freep = 0 ∧ s.heap.brk = lo ∧ ∀ a, s.live a = none) ∨ ∃ F, Heaped base lo s.heap s.live F

/-- The ring, at the first call too. -/
theorem Inv.prepare (hi : Inv base lo s) :
    Placed base lo (s.heap.prepare base) ∧ ∃ F, Heaped base lo (s.heap.prepare base) s.live F := by
  rw [Heap.prepare]
  rcases hi.heap with ⟨hzero, hbrk, hlive⟩ | ⟨F, hh⟩
  · rw [if_pos hzero]
    have hblocks : ∀ a, a ∉ blocks [] s.live := by
      rintro a (ha | ha)
      · exact absurd ha List.not_mem_nil
      · exact ha (hlive a)
    refine ⟨hi.placed.congr rfl, [],
      ⟨⟨⟨?_, List.nodup_singleton _⟩, List.pairwise_singleton _ _, ?_, fun a ha => absurd ha List.not_mem_nil, fun a n ha => ?_, ?_⟩,
        List.mem_cons_self, fun a ha => absurd ha List.not_mem_nil⟩⟩
    · exact linked_cons_cons.2 ⟨update_self .., linked_singleton⟩
    · refine ⟨fun a ha => absurd ha (hblocks a), fun a ha => absurd ha (hblocks a), fun a ha => absurd ha (hblocks a),
        fun a ha => absurd ha (hblocks a), fun x hlo hhi => ?_, fun a ha => absurd ha (hblocks a)⟩
      have hhi' : x < s.heap.brk := hhi
      omega
    · rw [hlive] at ha
      cases ha
    · exact update_self ..
  · rw [if_neg (hh.freep_ne hi.placed)]
    exact ⟨hi.placed, F, hh⟩

/-- **`malloc` returns** in every state. -/
theorem Inv.malloc (hi : Inv base lo s) (hn : nbytes + 7 < 2 ^ 32) (oks : List Bool)
    (hoks : oks.headD false = true → Heap.units nbytes < 2 ^ 28) :
    ∃ N r, (∀ fuel, N ≤ fuel → s.heap.malloc base fuel oks nbytes = some r) ∧ Given base lo s.live nbytes r := by
  obtain ⟨hplaced, F, hh⟩ := hi.prepare
  exact hh.scan hplaced hn oks hoks

theorem Given.inv (hg : Given base lo live n r) :
    Inv base lo ⟨r.2, if r.1 = 0 then live else update live (r.1 - headerSize) (some n)⟩ := by
  obtain ⟨hplaced, ⟨hzero, hh⟩ | ⟨hpos, -, hh⟩⟩ := hg
  · refine ⟨hplaced, Or.inr ?_⟩
    rw [if_pos hzero]
    exact hh
  · refine ⟨hplaced, Or.inr ?_⟩
    rw [if_neg (Nat.ne_of_gt (Nat.zero_lt_of_lt hpos))]
    exact hh

/-- What a program writes to its blocks does not matter. -/
theorem Heaped.writes (hh : Heaped base lo s.heap s.live F) (hplaced : Placed base lo s.heap) (hw : s.Writes h) :
    Heaped base lo h s.live F := by
  obtain ⟨hfreep, hbrk, hsame⟩ := hw
  have hl := hh.toLoose
  have hblock : ∀ x ∈ blocks F s.live, h.ptr x = s.heap.ptr x ∧ h.size x = s.heap.size x := by
    intro x hx
    refine hsame x fun a n ha => ?_
    rcases Nat.lt_or_ge a x with hlt | hge
    · exact Or.inr (hl.tiling.apart a (live_block ha) x hx hlt)
    · exact Or.inl hge
  have hbase : h.ptr base = s.heap.ptr base ∧ h.size base = s.heap.size base := by
    refine hsame base fun a n ha => Or.inl ?_
    have hlow := hl.tiling.low a (live_block ha)
    have hbelow := hplaced.low
    omega
  refine ⟨⟨hl.ring.congr fun x hx => ?_, hl.sorted, ?_, hl.used, fun a n ha => ?_, hbase.2.trans hl.baseSize⟩, hfreep ▸ hh.freep,
    fun x hx => ?_⟩
  · rcases List.mem_cons.1 hx with rfl | hx
    · exact hbase.1
    · exact (hblock x (Or.inl hx)).1
  · rw [hbrk]
    exact hl.tiling.congr rfl fun x hx => (hblock x hx).2
  · rw [(hblock a (live_block ha)).2]
    exact hl.fits a n ha
  · rw [Heap.stop, (hblock x (Or.inl hx)).1, (hblock x (Or.inl hx)).2]
    exact hh.gaps x hx

theorem Inv.step (hi : Inv base lo s) (hs : Step base s e s') : Inv base lo s' := by
  cases hs with
  | @malloc nbytes fuel ap oks h hn hrun =>
    obtain ⟨N, r, hall, hgiven⟩ := hi.malloc (show nbytes + 7 < 2 ^ 32 by omega) oks fun _ => units_lt (by omega)
    have hmore := scan_mono hrun (Nat.le_max_left fuel N)
    obtain rfl : r = (ap, h) := Option.some.inj ((hall _ (Nat.le_max_right fuel N)).symm.trans hmore)
    exact hgiven.inv
  | @free bp fuel n h hlive hrun =>
    rcases hi.heap with ⟨-, -, hnone⟩ | ⟨F, hh⟩
    · rw [hnone] at hlive
      cases hlive
    obtain ⟨N, h', hall, hbrk, F', hh', -⟩ := hh.free hi.placed hlive
    have hmore := free_mono hrun (Nat.le_max_left fuel N)
    obtain rfl : h' = h := Option.some.inj ((hall _ (Nat.le_max_right fuel N)).symm.trans hmore)
    exact ⟨hi.placed.congr hbrk, Or.inr ⟨F', hh'⟩⟩
  | @write h hw =>
    refine ⟨hi.placed.congr hw.2.1, ?_⟩
    rcases hi.heap with ⟨hzero, hbrk, hnone⟩ | ⟨F, hh⟩
    · exact Or.inl ⟨hw.1.trans hzero, hw.2.1.trans hbrk, hnone⟩
    · exact Or.inr ⟨F, hh.writes hi.placed hw⟩

/-! ## The result -/

/-- The heap with the free blocks `F` is **sound**. -/
structure Sound (base lo : ℕ) (s : State) (F : List ℕ) : Prop where
  /-- from the first call on, the free list is a ring from `base` -/
  ring : s.heap.freep ≠ 0 → IsRing s.heap.ptr base F
  /-- in the order of the addresses, up to the last block, which is linked to `base` -/
  rising : (base :: F).Pairwise (· < ·)
  disjoint : ∀ a ∈ blocks F s.live, ∀ b ∈ blocks F s.live, a ≠ b →
    Disjoint (Set.Ico a (s.heap.stop a)) (Set.Ico b (s.heap.stop b))
  cover : ⋃ a ∈ blocks F s.live, Set.Ico a (s.heap.stop a) = Set.Ico lo s.heap.brk
  used : ∀ a ∈ F, s.live a = none
  separate : ∀ a ∈ F, ∀ b ∈ F, s.heap.stop a ≠ b
  /-- a live block has room for what was asked for -/
  fits : ∀ a n, s.live a = some n → headerSize ∣ a ∧ a + headerSize + n ≤ s.heap.stop a
  /-- the loop of `free` ends -/
  search : ∀ a n, s.live a = some n → ∃ N, ∀ fuel, N ≤ fuel → (s.heap.freeSearch a fuel s.heap.freep).isSome

/-- **`malloc(n)` returns** null, or a new block with room for `n` bytes, aligned to the header size. -/
def Returns (base : ℕ) (s : State) : Prop :=
  ∀ n < 2 ^ 30, ∀ oks, ∃ N r, (∀ fuel, N ≤ fuel → s.heap.malloc base fuel oks n = some r) ∧
    (r.1 = 0 ∨ headerSize < r.1 ∧ headerSize ∣ r.1 ∧ s.live (r.1 - headerSize) = none ∧ r.1 + n ≤ r.2.stop (r.1 - headerSize))

theorem Heaped.sound (hh : Heaped base lo s.heap s.live F) (hplaced : Placed base lo s.heap) : Sound base lo s F := by
  have hl := hh.toLoose
  refine ⟨fun _ => hl.ring, hl.sorted, fun a ha b hb hab => ?_, ?_, hl.used, fun a ha b hb htouch => ?_, fun a n ha => ?_,
    fun a n ha => ?_⟩
  · rw [Set.Ico_disjoint_Ico]
    rcases lt_or_gt_of_ne hab with hlt | hgt
    · have hapart := hl.tiling.apart a ha b hb hlt
      exact (min_le_left _ _).trans (hapart.trans (le_max_right _ _))
    · have hapart := hl.tiling.apart b hb a ha hgt
      exact (min_le_right _ _).trans (hapart.trans (le_max_left _ _))
  · ext x
    simp only [Set.mem_iUnion, Set.mem_Ico, exists_prop]
    constructor
    · rintro ⟨a, ha, hax, hxa⟩
      exact ⟨(hl.tiling.low a ha).trans hax, hxa.trans_le (hl.tiling.high a ha)⟩
    · rintro ⟨hlo, hhi⟩
      exact hl.tiling.cover x hlo hhi
  · exact hh.gaps a ha (htouch.trans (hl.touch ha hb htouch).symm)
  · have hfits := hl.fits a n ha
    refine ⟨hl.tiling.aligned a (live_block ha), ?_⟩
    rw [Heap.stop]
    omega
  · obtain ⟨N, -, p, -, -, -, -, hsearch⟩ := hh.search hplaced ha
    exact ⟨N, fun fuel hfuel => by rw [hsearch fuel hfuel]; rfl⟩

/-- Before the first call. -/
theorem sound_empty (hzero : s.heap.freep = 0) (hbrk : s.heap.brk = lo) (hlive : ∀ a, s.live a = none) :
    Sound base lo s [] := by
  have hblocks : ∀ a, a ∉ blocks [] s.live := by
    rintro a (ha | ha)
    · exact absurd ha List.not_mem_nil
    · exact ha (hlive a)
  have hnone : ∀ a n, s.live a ≠ some n := by
    intro a n ha
    rw [hlive] at ha
    cases ha
  refine ⟨fun hne => absurd hzero hne, List.pairwise_singleton _ _, fun a ha => absurd ha (hblocks a), ?_,
    fun a ha => absurd ha List.not_mem_nil, fun a ha => absurd ha List.not_mem_nil, fun a n ha => absurd ha (hnone a n),
    fun a n ha => absurd ha (hnone a n)⟩
  rw [hbrk]
  ext x
  simp [hblocks]

theorem Inv.returns (hi : Inv base lo s) : Returns base s := by
  intro n hn oks
  obtain ⟨N, r, hall, hgiven⟩ := hi.malloc (show n + 7 < 2 ^ 32 by omega) oks fun _ => units_lt (by omega)
  refine ⟨N, r, hall, ?_⟩
  obtain ⟨hplaced, ⟨hzero, -⟩ | ⟨hpos, hnew, F, hh⟩⟩ := hgiven
  · exact Or.inl hzero
  have hlive : update s.live (r.1 - headerSize) (some n) (r.1 - headerSize) = some n := update_self ..
  have hfits := hh.fits _ n hlive
  have hal := hh.tiling.aligned _ (live_block hlive)
  refine Or.inr ⟨hpos, (Nat.dvd_sub_iff_left hpos.le (dvd_refl _)).1 hal, hnew, ?_⟩
  rw [Heap.stop]
  omega

/-- **The heap of a program**, in every run of calls of `malloc` and `free` and of writes to live blocks. -/
theorem heap_sound (hbase : 0 < base) (hlo : base + headerSize ≤ lo) (hal : headerSize ∣ lo)
    (h : (system base lo).Reach (fun _ _ => True) s) : (∃ F, Sound base lo s F) ∧ Returns base s := by
  have hi : Inv base lo s := by
    refine h.invariant (fun s hs => ?_) fun s e s' hi _ hs => hi.step hs
    exact ⟨⟨hbase, hlo, hs.brk.ge, hs.brk ▸ hal⟩, Or.inl ⟨hs.freep, hs.brk, hs.live⟩⟩
  refine ⟨?_, hi.returns⟩
  rcases hi.heap with ⟨hzero, hbrk, hlive⟩ | ⟨F, hh⟩
  · exact ⟨[], sound_empty hzero hbrk hlive⟩
  · exact ⟨F, hh.sound hi.placed⟩

/-- Ten bytes are asked for, and `sbrk` returns memory at 0x1000. -/
theorem heap_sound_malloc : ∃ s : State, s.live 0x8FE8 = some 10 ∧ ∃ F, Sound 0x100 0x1000 s F := by
  have hstart : (system 0x100 0x1000).init ⟨⟨fun _ => 0, fun _ => 0, 0, 0x1000⟩, fun _ => none⟩ := ⟨rfl, rfl, fun _ => rfl⟩
  have hrun : Heap.malloc ⟨fun _ => 0, fun _ => 0, 0, 0x1000⟩ 0x100 3 [true] 10 = some (0x8FF0, _) := rfl
  have hstep : (system 0x100 0x1000).step ⟨⟨fun _ => 0, fun _ => 0, 0, 0x1000⟩, fun _ => none⟩ (.malloc 10) _ :=
    Step.malloc (by decide) hrun
  exact ⟨_, by decide, (heap_sound (by decide) (by decide) (by decide) (System.Reach.step (.init hstart) trivial hstep)).1⟩

end OsLab.Xv6.Umalloc
