import OsLab.Xv6.Proc
import Mathlib.Data.List.MinMax
import Mathlib.Data.Prod.Lex

/-!
# Which process `scheduler` chooses

* `choose_eq_argmin`: the loop looks for the first of the runnable processes with the least `key`, the priority from
  above and then the time of creation.
* `choose_some`, `choose_none`: what that means.
-/

namespace OsLab.Xv6.Ptable.Table

variable {s : Table} {p q c : Slot}

/-- By what processes are compared. -/
def key (s : Table) (p : Slot) : ℕᵒᵈ ×ₗ ℤ :=
  toLex (OrderDual.toDual (s.proc p).priority.toNat, (s.proc p).ctime.toInt)

theorem prefer_iff : s.Prefer p c ↔ s.key p < s.key c := by
  rw [Prod.Lex.lt_iff]
  refine or_congr BitVec.lt_def (and_congr_left' ?_)
  exact BitVec.toNat_inj.symm

def runnable (s : Table) : List Slot := (List.finRange nproc).filter fun p => (s.proc p).state = .runnable

theorem mem_runnable : p ∈ s.runnable ↔ (s.proc p).state = .runnable := by
  rw [runnable, List.mem_filter, decide_eq_true_iff]
  exact and_iff_right (List.mem_finRange p)

/-- **The loop of `scheduler` is a search for the least key.** -/
theorem choose_eq_argmin : s.choose = s.runnable.argmin s.key := by
  rw [choose, List.argmin, runnable, List.foldl_filter]
  congr 1
  funext ch p
  rw [consider.eq_def]
  by_cases hp : (s.proc p).state = .runnable
  · rw [if_neg (not_not.2 hp), if_pos (decide_eq_true hp)]
    cases ch with
    | none => rfl
    | some c => exact if_congr prefer_iff rfl rfl
  · rw [if_pos hp, if_neg (by rw [decide_eq_true_iff]; exact hp)]

/-- In a list that increases, what comes first is less. -/
theorem le_of_idxOf_le {l : List Slot} (hl : l.SortedLT) (hp : p ∈ l) (hq : q ∈ l) (h : l.idxOf p ≤ l.idxOf q) : p ≤ q := by
  have hmono := hl.strictMono_get.monotone
    (a := ⟨l.idxOf p, List.idxOf_lt_length_of_mem hp⟩) (b := ⟨l.idxOf q, List.idxOf_lt_length_of_mem hq⟩) h
  rwa [List.idxOf_get, List.idxOf_get] at hmono

theorem choose_some (h : s.choose = some c) :
    (s.proc c).state = .runnable ∧ ∀ q, (s.proc q).state = .runnable →
      (s.proc q).priority ≤ (s.proc c).priority ∧ ((s.proc q).priority = (s.proc c).priority →
        (s.proc c).ctime.toInt ≤ (s.proc q).ctime.toInt ∧ ((s.proc q).ctime = (s.proc c).ctime → c ≤ q)) := by
  rw [choose_eq_argmin] at h
  obtain ⟨hc, hleast, hfirst⟩ := List.mem_argmin_iff.1 h
  refine ⟨mem_runnable.1 hc, fun q hq => ?_⟩
  have hq' := mem_runnable.2 hq
  have hle := hleast q hq'
  rw [Prod.Lex.le_iff] at hle
  have hsorted : s.runnable.SortedLT := ((List.sortedLT_finRange nproc).pairwise.filter _).sortedLT
  refine ⟨?_, fun heq => ⟨?_, fun hct => ?_⟩⟩
  · rcases hle with hlt | ⟨heq, -⟩
    · exact BitVec.le_def.2 (le_of_lt (OrderDual.toDual_lt_toDual.1 hlt))
    · exact BitVec.le_def.2 (le_of_eq (OrderDual.toDual.injective heq).symm)
  · rcases hle with hlt | ⟨-, hle⟩
    · exact absurd (congrArg BitVec.toNat heq) (ne_of_lt (OrderDual.toDual_lt_toDual.1 hlt))
    · exact hle
  · refine le_of_idxOf_le hsorted hc hq' (hfirst q hq' ?_)
    rw [key, key, heq, hct]

theorem choose_none : s.choose = none ↔ ∀ p, (s.proc p).state ≠ .runnable := by
  rw [choose_eq_argmin, List.argmin_eq_none, List.eq_nil_iff_forall_not_mem]
  exact forall_congr' fun p => not_congr mem_runnable

end OsLab.Xv6.Ptable.Table
