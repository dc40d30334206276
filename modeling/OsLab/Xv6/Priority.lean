import OsLab.Xv6.ProcSteps

/-!
# Priorities

`setpriority` looks for the pid in the whole table and stores whatever it is given.

* `setpriority_right_iff`: it does what it should only for one of the four levels, and if the first entry with the pid
  is in use.
* **`priority_careful`**: in a run with such calls only, every priority is one of the four levels.
* `setpriority_unchecked`: `setpriority(1, 7)` returns 0, and `setpriority(0, 1)` too.
-/

namespace OsLab.Xv6.Ptable.Table

variable {s s' : Table} {p q : Slot} {v : Proc} {a : Event} {pid pr : BitVec 32}

/-- The number of priorities, `low` to `v_high`. -/
def levels : BitVec 32 := 4

/-- `p` is the process with the pid. -/
def Has (s : Table) (pid : BitVec 32) (p : Slot) : Prop := (s.proc p).state ≠ .unused ∧ (s.proc p).pid = pid

/-- What `setpriority` should do: it returns 0 if and only if there is such a process and such a level, and then gives the
process the level; otherwise it returns -1 and does nothing. -/
def SetsRight (s : Table) (pid pr : BitVec 32) : Prop :=
  ((s.setpriority pid pr).1 = 0 ↔ (∃ p, s.Has pid p) ∧ pr < levels) ∧
  ((s.setpriority pid pr).1 = 0 →
    ∃ p, s.Has pid p ∧ (s.setpriority pid pr).2 = s.setProc p { s.proc p with priority := pr }) ∧
  ((s.setpriority pid pr).1 ≠ 0 → s.setpriority pid pr = (-1, s))

/-- If an entry has the pid, then `pr` is a level, and the first such entry is in use; or the pid is there twice and
nothing changes. -/
def Settable (s : Table) (pid pr : BitVec 32) : Prop :=
  ∀ p, first (fun p => (s.proc p).pid = pid) = some p → pr < levels ∧ ((s.proc p).state ≠ .unused ∨
    (s.proc p).priority = pr ∧ ∃ q, s.Has pid q ∧ (s.proc q).priority = pr)

theorem setProc_priority_eq (h : (s.proc p).priority = pr) : s.setProc p { s.proc p with priority := pr } = s := by
  rw [← h]
  show { s with proc := Function.update s.proc p (s.proc p) } = s
  rw [Function.update_eq_self]

theorem setpriority_right_iff : s.SetsRight pid pr ↔ s.Settable pid pr := by
  rw [SetsRight, Settable, setpriority]
  cases hfirst : first (fun p => (s.proc p).pid = pid) with
  | none =>
    have hno : ¬ ∃ p, s.Has pid p := by
      rintro ⟨p, -, hp⟩
      have := first_isSome (P := fun p => decide ((s.proc p).pid = pid)) (decide_eq_true hp)
      rw [hfirst] at this
      cases this
    refine iff_of_true ⟨⟨by simp, fun h => absurd h.1 hno⟩, by simp, fun _ => rfl⟩ (by simp)
  | some p =>
    have hpid : (s.proc p).pid = pid := of_decide_eq_true (first_eq_some hfirst)
    constructor
    · rintro ⟨hzero, hchange, -⟩ _ ⟨⟩
      obtain ⟨q, hq, heq⟩ := hchange rfl
      refine ⟨(hzero.1 rfl).2, ?_⟩
      by_cases hst : (s.proc p).state = .unused
      · -- the entry of another process has been written
        have hne : q ≠ p := by
          rintro rfl
          exact hq.1 hst
        have hp : (s.proc p).priority = pr := by
          have := congrArg (fun s' => (s'.proc p).priority) heq
          simp only [setProc_self, setProc_of_ne _ _ hne.symm] at this
          exact this.symm
        have hq' : (s.proc q).priority = pr := by
          have := congrArg (fun s' => (s'.proc q).priority) heq
          simp only [setProc_self, setProc_of_ne _ _ hne] at this
          exact this
        exact Or.inr ⟨hp, q, hq, hq'⟩
      · exact Or.inl hst
    · intro h
      obtain ⟨hlevel, hst | ⟨hp, q, hq, hq'⟩⟩ := h p rfl
      · exact ⟨⟨fun _ => ⟨⟨p, hst, hpid⟩, hlevel⟩, fun _ => rfl⟩, fun _ => ⟨p, ⟨hst, hpid⟩, rfl⟩, fun h => absurd rfl h⟩
      · refine ⟨⟨fun _ => ⟨⟨q, hq⟩, hlevel⟩, fun _ => rfl⟩, fun _ => ⟨q, hq, ?_⟩, fun h => absurd rfl h⟩
        exact (setProc_priority_eq hp).trans (setProc_priority_eq hq').symm

/-! ## Runs -/

/-- The calls of `setpriority` are such that it does what it should. -/
def PrioritiesOk (s : Table) : Event → Prop
  | .setpriority pid pr => s.Settable pid pr
  | _ => True

/-- All priorities are levels, also in entries that are not in use. -/
def Levels (s : Table) : Prop := ∀ p, (s.proc p).priority < levels

theorem Levels.setProc (h : s.Levels) (hv : v.priority < levels) : (s.setProc p v).Levels := by
  intro q
  by_cases hqp : q = p
  · rw [hqp, setProc_self]
    exact hv
  · rw [setProc_of_ne _ _ hqp]
    exact h q

theorem Levels.wakeup1 (h : s.Levels) (chan : Option Chan) : (s.wakeup1 chan).Levels := by
  intro q
  show (Proc.wake chan (s.proc q)).priority < levels
  rw [Proc.wake]
  split
  · exact h q
  · exact h q

theorem Levels.leave (h : s.Levels) (p : Slot) : (s.leave p).Levels := by
  have habandon : (s.abandon p).Levels := by
    intro q
    show (if _ then _ else _ : Proc).priority < levels
    split
    · exact h q
    · exact h q
  exact habandon.setProc (habandon p)

theorem Levels.forkStep {ok : Bool} (h : s.Levels) (hs : s.forkStep p ok = some s') : s'.Levels := by
  rw [Table.forkStep] at hs
  split at hs
  case h_1 np _ | h_3 np _ =>
    cases ok with
    | true => exact Option.some.inj hs ▸ h
    | false => exact Option.some.inj hs ▸ h.setProc (h np)
  case h_2 np _ => exact Option.some.inj hs ▸ h.setProc (by show 0#32 < 4#32; decide)
  case h_4 np _ => exact Option.some.inj hs ▸ h.setProc (h p)
  case h_5 np _ => exact Option.some.inj hs ▸ h.setProc (h np)
  case h_6 => cases hs

theorem Levels.round (h : s.Levels) {clear : Proc → Proc} (hclear : clear = Proc.clear ∨ clear = Proc.clearsch) :
    (s.round p clear).Levels := by
  rw [Table.round]
  split
  · rename_i q _
    have hq : (clear (s.proc q)).priority < levels := by
      rcases hclear with rfl | rfl
      · show 0#32 < 4#32
        decide
      · exact h q
    exact h.setProc hq
  · split
    · exact h.setProc (h p)
    · exact h

theorem Levels.step (h : s.Levels) (hok : s.PrioritiesOk a) (hs : s.step a = some s') : s'.Levels := by
  cases a with
  | fork p =>
    rw [Table.step] at hs
    split_ifs at hs
    obtain rfl := Option.some.inj hs
    rw [allocproc]
    split
    · exact h
    · exact h.setProc (h _)
  | forkStep p ok =>
    rw [Table.step] at hs
    split_ifs at hs
    exact h.forkStep hs
  | exit p =>
    rw [Table.step] at hs
    split_ifs at hs
    obtain rfl := Option.some.inj hs
    rw [Table.exit]
    split
    · exact ((h.wakeup1 _).wakeup1 _).leave p
    · exact (h.wakeup1 _).leave p
  | wait p | waitsch p =>
    rw [Table.step] at hs
    split_ifs at hs
    exact Option.some.inj hs ▸ h
  | round p =>
    rw [Table.step] at hs
    split_ifs at hs
    split at hs
    case h_1 => exact Option.some.inj hs ▸ h.round (Or.inl rfl)
    case h_2 => exact Option.some.inj hs ▸ h.round (Or.inr rfl)
    case h_3 => cases hs
  | sleep p chan | fault p | yield p =>
    rw [Table.step] at hs
    split_ifs at hs
    exact Option.some.inj hs ▸ h.setProc (h p)
  | wakeup chan => exact Option.some.inj hs ▸ h.wakeup1 _
  | kill pid =>
    obtain rfl := Option.some.inj hs
    rw [Table.kill]
    split
    · exact h
    · exact h.setProc (h _)
  | setpriority pid pr =>
    obtain rfl := Option.some.inj hs
    rw [Table.setpriority]
    split
    · exact h
    · exact h.setProc (hok _ ‹_›).1
  | schedule =>
    obtain ⟨p, -, rfl⟩ := Option.map_eq_some_iff.1 hs
    exact h.setProc (h p)
  | tick | updatestatistics => exact Option.some.inj hs ▸ h

theorem Start.levels (h : s.Start) : s.Levels := by
  intro p
  by_cases hp : p = s.initproc
  · rw [hp, h.init]
    decide
  · rw [h.other p hp]
    decide

/-- **`setpriority` where it checks its arguments.**  For every table it does what it should if and only if the call is one
for which the missing checks make no difference.  In a run with such calls only, the priority of every process is one
of the four levels, a child gets the one of its parent, and what `waitsch` reports is the index of a level. -/
theorem priority_careful (s : Table) :
    (∀ pid pr, SetsRight s pid pr ↔ s.Settable pid pr) ∧
    (system.Reach PrioritiesOk s → (∀ p, (s.proc p).priority < levels) ∧
      (∀ p np ok s', s.pc p = .inherit np → s.step (.forkStep p ok) = some s' →
        (s'.proc np).priority = (s.proc p).priority) ∧
      ∀ p q, (s.report p q).pr < levels) := by
  refine ⟨fun pid pr => setpriority_right_iff, fun h => ?_⟩
  have hlevels : s.Levels := h.invariant (fun s hs => hs.levels) fun s a s' h hok hs => h.step hok hs
  refine ⟨hlevels, fun p np ok s' hpc hs => ?_, fun p q => hlevels p⟩
  rw [step] at hs
  split_ifs at hs
  rw [Table.forkStep, hpc] at hs
  obtain rfl := Option.some.inj hs
  show ((s.setProc np _).proc np).priority = _
  rw [setProc_self]

theorem priority_careful_boot : (boot.report 0 1).pr < levels := ((priority_careful boot).2 (.init start_boot)).2.2 0 1

/-- **A priority that is no level, and a process that does not exist.**  `init` gets the priority 7, and `setpriority(0, 1)`
returns 0 though nobody has the pid 0. -/
theorem setpriority_unchecked : system.Reach (fun _ _ => True) boot ∧
    boot.setpriority 1 7 = (0, boot.setProc 0 { boot.proc 0 with priority := 7 }) ∧ ¬ SetsRight boot 1 7 ∧
    (boot.setpriority 0 1).1 = 0 ∧ (∀ p, (boot.proc p).state ≠ .unused → (boot.proc p).pid ≠ 0) := by
  refine ⟨.init start_boot, rfl, fun h => ?_, rfl, by decide⟩
  exact absurd (h.1.1 rfl).2 (by decide)

end OsLab.Xv6.Ptable.Table
