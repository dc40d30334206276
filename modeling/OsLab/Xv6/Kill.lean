import OsLab.Xv6.ProcSteps

/-!
# `kill`

`kill` looks for the pid in the whole table.  A process that has been reaped leaves the pid 0 behind, and a `fork`
that fails its own pid; and `killed` is cleared where a process is reaped, not where one is made.

* `kill_careful`: as long as nobody names such a pid, `kill` finds the process with the pid, and processes start
  without the mark.
* `kill_unused`: `kill(0)` returns 0, and the next process that is made starts with the mark.
-/

namespace OsLab.Xv6.Ptable

variable {s s' : Table} {p q np : Slot} {v : Proc} {a : Event}

namespace Table

/-- `kill` does not name a pid that is stored in an unused entry, `fork` does not give a process the pid of another
one, and does not give up a process that has been marked. -/
def Careful (s : Table) : Event → Prop
  | .kill pid => ∀ p, (s.proc p).state = .unused → (s.proc p).pid ≠ pid
  | .fork _ => ∀ p, (s.proc p).state ≠ .unused → (s.proc p).pid ≠ s.nextpid
  | .forkStep p false => ∀ np, (s.pc p).child = some np → (s.proc np).killed = false
  | _ => True

/-- Unused entries are not marked, and processes have different pids. -/
structure Clean (s : Table) : Prop where
  killed : ∀ p, (s.proc p).state = .unused → (s.proc p).killed = false
  pid : ∀ p q, (s.proc p).state ≠ .unused → (s.proc q).state ≠ .unused → (s.proc p).pid = (s.proc q).pid → p = q

theorem Clean.of_le (h : s.Clean) (hkilled : ∀ q, (s'.proc q).state = .unused → (s'.proc q).killed = false)
    (hused : ∀ q, (s'.proc q).state ≠ .unused → (s.proc q).state ≠ .unused ∧ (s'.proc q).pid = (s.proc q).pid) :
    s'.Clean := by
  refine ⟨hkilled, fun q r hq hr heq => ?_⟩
  rw [(hused q hq).2, (hused r hr).2] at heq
  exact h.pid q r (hused q hq).1 (hused r hr).1 heq

theorem Clean.mild (h : s.Clean) (hm : Mild s s')
    (hkilled : ∀ q, (s.proc q).state = .unused → (s'.proc q).killed = (s.proc q).killed) : s'.Clean := by
  refine h.of_le (fun q hq => ?_) fun q hq => ?_
  · rw [(hm.proc q).eq_iff (not_live_unused rfl)] at hq
    rw [hkilled q hq]
    exact h.killed q hq
  · rw [Ne, (hm.proc q).eq_iff (not_live_unused rfl)] at hq
    exact ⟨hq, (hm.proc q).pid⟩

/-- A single process changes that is not unused. -/
theorem Clean.moves {pc : Pc} (h : s.Clean) (hm : Moves s s' p np v pc) (hnp : (s.proc np).state ≠ .unused)
    (hpid : v.state ≠ .unused → v.pid = (s.proc np).pid) (hkilled : v.state = .unused → v.killed = false) : s'.Clean := by
  refine h.of_le (fun q hq => ?_) fun q hq => ?_
  · by_cases hqn : q = np
    · rw [hqn, hm.self] at hq ⊢
      exact hkilled hq
    · rw [hm.other q hqn] at hq ⊢
      exact h.killed q hq
  · by_cases hqn : q = np
    · rw [hqn, hm.self] at hq ⊢
      exact ⟨hnp, hpid hq⟩
    · rw [hm.other q hqn] at hq ⊢
      exact ⟨hq, rfl⟩

theorem Clean.take (h : s.Clean) (hpid : ∀ q, (s.proc q).state ≠ .unused → (s.proc q).pid ≠ s.nextpid) :
    (s.take p np).Clean := by
  have hm := moves_take s p np
  refine ⟨fun q hq => ?_, fun q r hq hr heq => ?_⟩
  · have hqn : q ≠ np := by
      rintro rfl
      rw [hm.self] at hq
      cases hq
    rw [hm.other q hqn] at hq ⊢
    exact h.killed q hq
  · by_cases hqn : q = np <;> by_cases hrn : r = np
    · rw [hqn, hrn]
    · rw [hm.other r hrn] at hr heq
      rw [hqn, hm.self] at heq
      exact absurd heq.symm (hpid r hr)
    · rw [hm.other q hqn] at hq heq
      rw [hrn, hm.self] at heq
      exact absurd heq (hpid q hq)
    · rw [hm.other q hqn] at hq heq
      rw [hm.other r hrn] at hr heq
      exact h.pid q r hq hr heq

theorem Clean.leave (h : s.Clean) (hlive : (s.proc p).state.Live) : (s.leave p).Clean := by
  refine h.of_le (fun q hq => ?_) fun q hq => ?_
  · have hqp : q ≠ p := by
      rintro rfl
      cases (leave_state_self s q).symm.trans hq
    rw [leave_state_of_ne s hqp] at hq
    rw [leave_keeps Proc.killed (fun _ _ => rfl) fun _ _ => rfl]
    exact h.killed q hq
  · refine ⟨fun hu => ?_, leave_keeps Proc.pid (fun _ _ => rfl) (fun _ _ => rfl) s p q⟩
    by_cases hqp : q = p
    · exact not_live_unused (hqp ▸ hu) hlive
    · rw [leave_state_of_ne s hqp] at hq
      exact hq hu

theorem Clean.step (h : s.Clean) (hinv : s.Inv) (hok : s.Careful a) (hs : s.step a = some s') : s'.Clean := by
  cases step_change hs with
  | quiet hq => exact h.mild hq.toMild fun q hun => hq.killed q (not_live_unused hun)
  | kill pid =>
    refine h.mild (mild_kill pid) fun q hun => ?_
    rw [kill]
    split
    · rfl
    · rename_i p hp
      have hqp : q ≠ p := by
        rintro rfl
        exact hok q hun (of_decide_eq_true (first_eq_some hp))
      rw [setProc_of_ne _ _ hqp]
  | tick => exact h.mild (mild_tick s) fun _ _ => rfl
  | updatestatistics => exact h.mild (mild_updatestatistics s) fun _ _ => rfl
  | take hp hnp => exact h.take hok
  | @kalloc | @copy => exact h.of_le h.killed fun q hq => ⟨hq, rfl⟩
  | @setUp p np _ hp =>
    obtain ⟨-, hemb, -⟩ := hinv.making hp rfl
    exact h.moves (moves_fork s p np) (by rw [hemb]; simp) (fun _ => rfl) (by simp [hemb])
  | @inherit p np _ hp =>
    obtain ⟨-, hemb, -⟩ := hinv.making hp rfl
    exact h.moves (moves_fork s p np) (by rw [hemb]; simp) (fun _ => rfl) (by simp [hemb])
  | @drop p np hp =>
    have hc : (s.pc p).child = some np := by
      rcases hp with hp | hp
      · exact (hinv.making hp rfl).1
      · exact (hinv.making hp rfl).1
    have hemb := (hinv.child p np hc).2
    exact h.moves (moves_setState s p np .unused) (by rw [hemb]; simp) (fun _ => rfl) fun _ => hok np hc
  | @launch p np _ hp =>
    obtain ⟨-, hemb, -⟩ := hinv.making hp rfl
    exact h.moves (moves_setState s p np .runnable) (by rw [hemb]; simp) (fun _ => rfl) (by simp)
  | @leave p s1 hq hp hpc hinit =>
    have h1 : s1.Clean := h.mild hq.toMild fun q hun => hq.killed q (not_live_unused hun)
    exact h1.leave ((hq.proc p).live.2 (Or.inr (Or.inr hp.1)))
  | @reap p q clear hrun hno hparent hz hclear =>
    have hq : (s.proc q).state ≠ .unused := by
      rw [hz]
      simp
    have hm := moves_reap s p q clear
    rcases hclear with rfl | rfl
    · exact h.moves hm hq (fun hu => absurd rfl hu) fun _ => rfl
    · exact h.moves hm hq (fun hu => absurd rfl hu) fun _ => rfl

theorem Start.clean (h : s.Start) : s.Clean := by
  refine ⟨fun p hp => ?_, fun p q hp hq _ => (h.used hp).trans (h.used hq).symm⟩
  by_cases heq : p = s.initproc
  · rw [heq, h.init]
  · rw [h.other p heq]

theorem reach_clean (h : system.Reach Careful s) : s.Clean := by
  have hboth : s.Inv ∧ s.Clean := by
    refine h.invariant (I := fun s => s.Inv ∧ s.Clean) (fun s hs => ⟨hs.inv, hs.clean⟩) ?_
    rintro s a s' ⟨hinv, hc⟩ hok hs
    exact ⟨hinv.step hs, hc.step hinv hok hs⟩
  exact hboth.2

/-- What `kill` finds, if it does not name a pid that is stored in an unused entry. -/
theorem Clean.kill_eq (h : s.Clean) {pid : BitVec 32} (hp : (s.proc p).state ≠ .unused) (hpid : (s.proc p).pid = pid)
    (hno : ∀ q, (s.proc q).state = .unused → (s.proc q).pid ≠ pid) :
    s.kill pid = (0, s.setProc p (Proc.kill (s.proc p))) := by
  obtain ⟨q, hq⟩ := Option.isSome_iff_exists.1
    (first_isSome (P := fun q => decide ((s.proc q).pid = pid)) (decide_eq_true hpid))
  have hqpid : (s.proc q).pid = pid := of_decide_eq_true (first_eq_some hq)
  have hqp : q = p := h.pid q p (fun hu => hno q hu hqpid) hp (hqpid.trans hpid.symm)
  rw [kill, hq, hqp]

/-- **`kill` marks the process that it names, and no other.**  This holds in every run in which `kill` never names
a pid that is stored in an unused entry of the table. -/
theorem kill_careful (h : system.Reach Careful s) :
    (∀ pid, s.Careful (.kill pid) →
      ((s.kill pid).1 = 0 ↔ ∃ p, (s.proc p).state ≠ .unused ∧ (s.proc p).pid = pid) ∧
      (∀ p, (s.proc p).state ≠ .unused → (s.proc p).pid = pid →
        ∀ q, ((s.kill pid).2.proc q).killed = true ↔ q = p ∨ (s.proc q).killed = true) ∧
      ((s.kill pid).1 ≠ 0 → (s.kill pid).2 = s)) ∧
    ∀ p np s', s.step (.fork p) = some s' → (s'.pc p).child = some np →
      (s'.proc np).killed = false := by
  have hclean := reach_clean h
  refine ⟨fun pid hno => ⟨⟨fun hk => ?_, ?_⟩, fun p hp hpid q => ?_, fun hk => ?_⟩, fun p np s' hs hc => ?_⟩
  · rw [kill] at hk
    split at hk
    · cases hk
    · rename_i p hp
      have hpid : (s.proc p).pid = pid := of_decide_eq_true (first_eq_some hp)
      exact ⟨p, fun hu => hno p hu hpid, hpid⟩
  · rintro ⟨p, hp, hpid⟩
    rw [hclean.kill_eq hp hpid hno]
  · rw [hclean.kill_eq hp hpid hno]
    by_cases hqp : q = p
    · rw [hqp, setProc_self]
      exact ⟨fun _ => Or.inl rfl, fun _ => rfl⟩
    · rw [setProc_of_ne _ _ hqp]
      exact ⟨Or.inr, fun hk => hk.resolve_left hqp⟩
  · rw [kill] at hk ⊢
    split at hk
    · rfl
    · exact absurd rfl hk
  · rw [step] at hs
    split_ifs at hs with hidle
    obtain rfl := Option.some.inj hs
    rw [allocproc] at hc ⊢
    split at hc
    · rw [hidle.2] at hc
      cases hc
    · rename_i n hn
      have hm := moves_take s p n
      rw [hm.pcSelf] at hc
      obtain rfl := Option.some.inj hc
      rw [hm.self]
      exact hclean.killed _ (of_decide_eq_true (first_eq_some hn))

/-- After `kill(1)`. -/
theorem kill_careful_init : ((boot.kill 1).2.proc 0).killed = true := by
  have hno : boot.Careful (.kill 1) := by
    intro p hp
    by_cases heq : p = 0
    · subst heq
      cases hp
    · rw [start_boot.other p heq]
      decide
  exact (((kill_careful (.init start_boot)).1 1 hno).2.1 0 nofun rfl 0).2 (Or.inl rfl)

/-- **`kill(0)` returns 0 though no process has the pid 0, and the next process that is made starts with the
mark.** -/
theorem kill_unused :
    ∃ s s' p, system.Reach (fun _ _ => True) s ∧ (∀ q, (s.proc q).state ≠ .unused → (s.proc q).pid ≠ 0) ∧
      (s.kill 0).1 = 0 ∧ (s.kill 0).2.run (forked 0) = some s' ∧
      (s.proc p).state = .unused ∧ (s'.proc p).state = .runnable ∧ (s'.proc p).killed = true := by
  refine ⟨boot.dispatch 0, _, 1, reach_booted, fun q hq => ?_, by decide, rfl, rfl, rfl, rfl⟩
  by_cases hq0 : q = 0
  · rw [hq0]
    decide
  · refine absurd ?_ hq
    rw [dispatch, setProc_of_ne _ _ hq0, start_boot.other q hq0]

end Table

end OsLab.Xv6.Ptable
