import OsLab.Xv6.ProcSteps

/-!
# Times and statistics

* `Times`: the times of a process count the calls of `updatestatistics` since it was made, and `ctime` is the tick
  at which it was made, all modulo `2 ^ 32`.
* `scheduler_sound`: what `scheduler` chooses, and that nobody is dispatched before an older process of the same
  priority, for the first `2 ^ 31` ticks.
* `waitsch_report`: `waitsch` reports the times of its caller.
-/

namespace OsLab.Xv6.Ptable

open Function

variable {s s' : Table} {p q np : Slot} {v : Proc} {a : Event}

/-- The call of `fork` has set the times of the new process. -/
def Pc.Past (pc : Pc) (np : Slot) : Prop := pc = .copy np ∨ pc = .inherit np ∨ pc = .ready np

theorem Pc.Past.child {pc : Pc} (h : pc.Past np) : pc.child = some np := by
  rcases h with rfl | rfl | rfl <;> rfl

namespace Table

/-- The times of the process have been set. -/
def Made (s : Table) (q : Slot) : Prop :=
  (s.proc q).state.Live ∨ (s.proc q).state = .zombie ∨ ∃ p, (s.pc p).Past q

/-- The times of the process are right. -/
structure Timed (s : Table) (q : Slot) : Prop where
  ctime : (s.proc q).ctime = BitVec.ofNat 32 (s.past.created q)
  created : s.past.created q ≤ s.past.ticks
  rutime : (s.proc q).rutime = BitVec.ofNat 32 (s.past.stats q).running
  retime : (s.proc q).retime = BitVec.ofNat 32 (s.past.stats q).runnable
  sltime : (s.proc q).sltime = BitVec.ofNat 32 (s.past.stats q).sleeping

structure Times (s : Table) : Prop where
  ticks : s.ticks = BitVec.ofNat 32 s.past.ticks
  made : ∀ q, s.Made q → s.Timed q
  embryo : ∀ q, (s.proc q).state = .embryo → s.past.stats q = ⟨0, 0, 0⟩

theorem Timed.of_eq (h : s.Timed q) (hclock : (s'.proc q).ctime = (s.proc q).ctime ∧ (s'.proc q).rutime = (s.proc q).rutime ∧
    (s'.proc q).retime = (s.proc q).retime ∧ (s'.proc q).sltime = (s.proc q).sltime)
    (hstats : s'.past.stats q = s.past.stats q) (hcreated : s'.past.created q = s.past.created q)
    (hticks : s.past.ticks ≤ s'.past.ticks) : s'.Timed q := by
  obtain ⟨h1, h2, h3, h4⟩ := hclock
  refine ⟨?_, ?_, ?_, ?_, ?_⟩
  · rw [h1, hcreated]
    exact h.ctime
  · rw [hcreated]
    exact h.created.trans hticks
  · rw [h2, hstats]
    exact h.rutime
  · rw [h3, hstats]
    exact h.retime
  · rw [h4, hstats]
    exact h.sltime

theorem Times.still (h : s.Times) (hst : Still s s') (hmade : ∀ q, s'.Made q → s.Made q)
    (hemb : ∀ q, (s'.proc q).state = .embryo → (s.proc q).state = .embryo) : s'.Times := by
  refine ⟨?_, fun q hq => ?_, fun q hq => ?_⟩
  · rw [hst.ticks, hst.total]
    exact h.ticks
  · exact (h.made q (hmade q hq)).of_eq (hst.clock q) (congrFun hst.stats q) (congrFun hst.created q) (le_of_eq hst.total.symm)
  · rw [hst.stats]
    exact h.embryo q (hemb q hq)

theorem Mild.made (hm : Mild s s') (h : s'.Made q) : s.Made q := by
  rcases h with hl | hz | ⟨p, hp⟩
  · exact Or.inl ((hm.proc q).live.1 hl)
  · exact Or.inr (Or.inl (((hm.proc q).eq_iff (not_live_zombie rfl)).1 hz))
  · have hpc := hm.pc_eq (hm.child.1 hp.child)
    exact Or.inr (Or.inr ⟨p, hpc ▸ hp⟩)

/-- The new process changes, but not its times, and its maker goes on. -/
theorem still_fork (s : Table) (p np : Slot) (pc : Pc) {v : Proc} (hclock : v.ctime = (s.proc np).ctime ∧
    v.rutime = (s.proc np).rutime ∧ v.retime = (s.proc np).retime ∧ v.sltime = (s.proc np).sltime) :
    Still s ((s.setProc np v).setPc p pc) :=
  (still_setProc s np hclock).trans (still_setPc _ p pc)

/-- Whose times have been set after a step of `fork` or `wait`. -/
theorem Moves.made {pc : Pc} (hm : Moves s s' p np v pc) (hinv : s.Inv) (h : s'.Made q) :
    s.Made q ∧ (q = np → (s.proc np).state = .embryo) ∨ q = np ∧ (v.state.Live ∨ v.state = .zombie) ∨ pc.Past q := by
  rcases h with hl | hz | ⟨r, hr⟩
  · by_cases hqn : q = np
    · rw [hqn, hm.self] at hl
      exact Or.inr (Or.inl ⟨hqn, Or.inl hl⟩)
    · rw [hm.other q hqn] at hl
      exact Or.inl ⟨Or.inl hl, fun hno => absurd hno hqn⟩
  · by_cases hqn : q = np
    · rw [hqn, hm.self] at hz
      exact Or.inr (Or.inl ⟨hqn, Or.inr hz⟩)
    · rw [hm.other q hqn] at hz
      exact Or.inl ⟨Or.inr (Or.inl hz), fun hno => absurd hno hqn⟩
  · by_cases hrp : r = p
    · rw [hrp, hm.pcSelf] at hr
      exact Or.inr (Or.inr hr)
    · rw [hm.pcOther r hrp] at hr
      exact Or.inl ⟨Or.inr (Or.inr ⟨r, hr⟩), fun hqn => hqn ▸ (hinv.child r q hr.child).2⟩

/-- A stage of `fork`. -/
theorem Times.moves {pc : Pc} (h : s.Times) (hinv : s.Inv) (hst : Still s s') (hm : Moves s s' p np v pc)
    (hpc : ∀ q, pc.Past q → (s.pc p).Past q) (hv : v.state = .embryo → (s.proc np).state = .embryo)
    (hlive : v.state.Live ∨ v.state = .zombie → s.Made np) : s'.Times := by
  refine h.still hst (fun q hq => ?_) fun q hq => ?_
  · rcases hm.made hinv hq with ⟨hq, -⟩ | ⟨rfl, hl⟩ | hpast
    · exact hq
    · exact hlive hl
    · exact Or.inr (Or.inr ⟨p, hpc q hpast⟩)
  · by_cases hqn : q = np
    · rw [hqn, hm.self] at hq
      exact hqn ▸ hv hq
    · rwa [hm.other q hqn] at hq

theorem Times.take (h : s.Times) (hinv : s.Inv) (hun : (s.proc np).state = .unused) : (s.take p np).Times := by
  have hm := moves_take s p np
  have hstats : ∀ {q}, q ≠ np → (s.take p np).past.stats q = s.past.stats q := fun hq => update_of_ne hq _ _
  refine ⟨h.ticks, fun q hq => ?_, fun q hq => ?_⟩
  · rcases hm.made hinv hq with ⟨hq, hemb⟩ | ⟨-, hl | hz⟩ | hpast | hpast | hpast
    · have hqn : q ≠ np := fun heq => nomatch hun.symm.trans (hemb heq)
      refine (h.made q hq).of_eq ?_ (hstats hqn) rfl le_rfl
      rw [hm.other q hqn]
      exact ⟨rfl, rfl, rfl, rfl⟩
    · exact absurd hl (not_live_embryo rfl)
    all_goals contradiction
  · by_cases hqn : q = np
    · subst hqn
      exact update_self ..
    · rw [hm.other q hqn] at hq
      rw [hstats hqn]
      exact h.embryo q hq

/-- The times of a new process are set. -/
theorem Times.setUp (h : s.Times) (hinv : s.Inv) (hp : s.pc p = .init np) : (s.setUp p np).Times := by
  have hm : Moves s (s.setUp p np) p np _ (.copy np) := moves_fork s p np
  have hemb := (hinv.making hp rfl).2.1
  refine ⟨h.ticks, fun q hq => ?_, fun q hq => ?_⟩
  · by_cases hqn : q = np
    · subst hqn
      have hself : (s.setUp p q).past.created q = s.past.ticks := update_self ..
      have hstats : (s.setUp p q).past.stats q = ⟨0, 0, 0⟩ := h.embryo q hemb
      refine ⟨?_, ?_, ?_, ?_, ?_⟩
      · rw [hm.self, hself]
        exact h.ticks
      · rw [hself]
        exact le_refl _
      · rw [hm.self, hstats]
        rfl
      · rw [hm.self, hstats]
        rfl
      · rw [hm.self, hstats]
        rfl
    · have hmade : s.Made q := by
        rcases hm.made hinv hq with ⟨hq, -⟩ | ⟨heq, -⟩ | hpast
        · exact hq
        · exact absurd heq hqn
        · exact absurd (Option.some.inj hpast.child).symm hqn
      refine (h.made q hmade).of_eq ?_ rfl (update_of_ne hqn _ _) le_rfl
      rw [hm.other q hqn]
      exact ⟨rfl, rfl, rfl, rfl⟩
  · refine h.embryo q ?_
    by_cases hqn : q = np
    · exact hqn ▸ hemb
    · rwa [hm.other q hqn] at hq

/-- A counter and what it counts. -/
theorem count_tick {st st' : PState} {c : BitVec 32} {n : ℕ} (h : c = BitVec.ofNat 32 n) :
    (if st = st' then c + 1 else c) = BitVec.ofNat 32 (if st = st' then n + 1 else n) := by
  split
  · rw [h, BitVec.ofNat_add]
    rfl
  · exact h

theorem Times.updatestatistics (h : s.Times) : s.updatestatistics.Times := by
  refine ⟨h.ticks, fun q hq => ?_, fun q hq => ?_⟩
  · have ht := h.made q ((mild_updatestatistics s).made hq)
    exact ⟨ht.ctime, ht.created, count_tick ht.rutime, count_tick ht.retime, count_tick ht.sltime⟩
  · have hq : (s.proc q).state = .embryo := hq
    show Stats.tick (s.proc q).state (s.past.stats q) = _
    rw [hq, h.embryo q hq]
    rfl

theorem Times.tick (h : s.Times) : s.tick.Times := by
  refine ⟨?_, fun q hq => ?_, h.embryo⟩
  · show s.ticks + 1 = BitVec.ofNat 32 (s.past.ticks + 1)
    rw [h.ticks, BitVec.ofNat_add]
    rfl
  · have ht := h.made q ((mild_tick s).made hq)
    exact ⟨ht.ctime, Nat.le_succ_of_le ht.created, ht.rutime, ht.retime, ht.sltime⟩

theorem still_leave (s : Table) (p : Slot) : Still s (s.leave p) := by
  have hkeeps := fun (f : Proc → BitVec 32) h1 h2 q => leave_keeps f h1 h2 s p q
  exact ⟨fun q => ⟨hkeeps Proc.ctime (fun _ _ => rfl) (fun _ _ => rfl) q, hkeeps Proc.rutime (fun _ _ => rfl) (fun _ _ => rfl) q,
    hkeeps Proc.retime (fun _ _ => rfl) (fun _ _ => rfl) q, hkeeps Proc.sltime (fun _ _ => rfl) (fun _ _ => rfl) q⟩,
    rfl, rfl, rfl, rfl⟩

theorem Times.leave (h : s.Times) (hlive : (s.proc p).state.Live) : (s.leave p).Times := by
  refine h.still (still_leave s p) (fun q hq => ?_) fun q hq => ?_
  · by_cases hqp : q = p
    · rw [hqp]
      exact Or.inl hlive
    · rw [Made, leave_state_of_ne s hqp] at hq
      exact hq
  · by_cases hqp : q = p
    · rw [hqp, leave_state_self] at hq
      cases hq
    · rwa [leave_state_of_ne s hqp] at hq

/-- The process that is reaped loses its times. -/
theorem Times.reap {clear : Proc → Proc} (h : s.Times) (hinv : s.Inv) (hz : (s.proc q).state = .zombie)
    (hstate : (clear (s.proc q)).state = .unused) : (s.reap p q clear).Times := by
  have hm := moves_reap s p q clear
  refine ⟨h.ticks, fun r hr => ?_, fun r hr => ?_⟩
  · rcases hm.made hinv hr with ⟨hr, hemb⟩ | ⟨-, hl | hrz⟩ | hpast
    · have hrq : r ≠ q := fun heq => nomatch hz.symm.trans (hemb heq)
      refine (h.made r hr).of_eq ?_ rfl rfl le_rfl
      rw [hm.other r hrq]
      exact ⟨rfl, rfl, rfl, rfl⟩
    · exact absurd hl (not_live_unused hstate)
    · cases hstate.symm.trans hrz
    · cases hpast.child
  · have hrq : r ≠ q := by
      rintro rfl
      rw [hm.self, hstate] at hr
      cases hr
    rw [hm.other r hrq] at hr
    exact h.embryo r hr

theorem Times.step (h : s.Times) (hinv : s.Inv) (hs : s.step a = some s') : s'.Times := by
  have hno : ∀ {p np pc}, s.pc p = pc → pc.child = some np →
      ¬ ((s.proc np).state.Live ∨ (s.proc np).state = .zombie) := by
    rintro p np pc hp hc (hl | hz)
    · exact not_live_embryo (hinv.making hp hc).2.1 hl
    · cases (hinv.making hp hc).2.1.symm.trans hz
  cases step_change hs with
  | quiet hq => exact h.still hq.toStill (fun q => hq.toMild.made) fun q => ((hq.proc q).eq_iff (not_live_embryo rfl)).1
  | kill pid => exact h.still (still_kill s pid) (fun q => (mild_kill pid).made) fun q =>
      (((mild_kill pid).proc q).eq_iff (not_live_embryo rfl)).1
  | tick => exact h.tick
  | updatestatistics => exact h.updatestatistics
  | take hp hnp => exact h.take hinv hnp
  | @kalloc p np hp =>
    refine h.moves hinv (still_setPc s p _) (moves_setPc s p np) (fun q hq => ?_) id fun hl => absurd hl (hno hp rfl)
    rcases hq with hq | hq | hq <;> cases hq
  | @copy p np hp =>
    refine h.moves hinv (still_setPc s p _) (moves_setPc s p np) (fun q hq => ?_) id fun hl => absurd hl (hno hp rfl)
    obtain rfl := Option.some.inj hq.child
    exact Or.inl hp
  | @inherit p np _ hp =>
    refine h.moves hinv (still_fork s p np _ ⟨rfl, rfl, rfl, rfl⟩) (moves_fork s p np) (fun q hq => ?_)
      id fun hl => absurd hl (hno hp rfl)
    obtain rfl := Option.some.inj hq.child
    exact Or.inr (Or.inl hp)
  | setUp hp => exact h.setUp hinv hp
  | @drop p np hp =>
    refine h.moves hinv (still_fork s p np _ ⟨rfl, rfl, rfl, rfl⟩) (moves_setState s p np .unused)
      (fun q hq => nomatch hq.child) nofun ?_
    rintro (hl | hz)
    · exact absurd hl (not_live_unused rfl)
    · cases hz
  | @launch p np _ hp =>
    exact h.moves hinv (still_fork s p np _ ⟨rfl, rfl, rfl, rfl⟩) (moves_setState s p np .runnable)
      (fun q hq => nomatch hq.child) nofun fun _ => Or.inr (Or.inr ⟨p, Or.inr (Or.inr hp)⟩)
  | @leave p s1 hq hp hpc hinit =>
    have h1 := h.still hq.toStill (fun q => hq.toMild.made) fun q => ((hq.proc q).eq_iff (not_live_embryo rfl)).1
    exact h1.leave ((hq.proc p).live.2 (Or.inr (Or.inr hp.1)))
  | reap hrun hno hparent hz hclear =>
    rcases hclear with rfl | rfl
    · exact h.reap hinv hz rfl
    · exact h.reap hinv hz rfl

theorem Start.times (h : s.Start) : s.Times := by
  refine ⟨?_, fun q hq => ?_, fun q hq => ?_⟩
  · rw [h.ticks, h.total]
    rfl
  · have hqi : q = s.initproc := by
      by_contra hne
      rw [Made, h.other q hne] at hq
      rcases hq with hl | hz | ⟨p, hp⟩
      · exact not_live_unused rfl hl
      · cases hz
      · have hc := hp.child
        rw [h.pc p] at hc
        cases hc
    subst hqi
    refine ⟨?_, ?_, ?_, ?_, ?_⟩
    · rw [h.init, h.created]
      rfl
    · rw [h.created]
      exact Nat.zero_le _
    · rw [h.init, h.stats]
      rfl
    · rw [h.init, h.stats]
      rfl
    · rw [h.init, h.stats]
      rfl
  · by_cases hqi : q = s.initproc
    · rw [hqi, h.init] at hq
      cases hq
    · rw [h.other q hqi] at hq
      cases hq

theorem reach_times {ok : Table → Event → Prop} (h : system.Reach ok s) : s.Times := by
  have hboth : s.Inv ∧ s.Times := by
    refine h.invariant (I := fun s => s.Inv ∧ s.Times) (fun s hs => ⟨hs.inv, hs.times⟩) ?_
    rintro s a s' ⟨hinv, ht⟩ - hs
    exact ⟨hinv.step hs, ht.step hinv hs⟩
  exact hboth.2

/-! ## Priority scheduling -/

/-- **`scheduler` chooses a runnable process of the greatest priority, of these one with the least `ctime`, and of
these the first.**  In a run of the system nobody is dispatched before a process that is older, if no process has been
made after `2 ^ 31` ticks. -/
theorem scheduler_sound (s : Table) :
    ((∀ s', s.step .schedule = some s' → ∃ c, s' = s.dispatch c ∧ (s.proc c).state = .runnable ∧
        ∀ q, (s.proc q).state = .runnable → (s.proc q).priority ≤ (s.proc c).priority ∧
          ((s.proc q).priority = (s.proc c).priority → (s.proc c).ctime.toInt ≤ (s.proc q).ctime.toInt ∧
            ((s.proc q).ctime = (s.proc c).ctime → c ≤ q))) ∧
      (s.step .schedule = none ↔ ∀ p, (s.proc p).state ≠ .runnable)) ∧
    (system.Reach (fun _ _ => True) s → (∀ q, (s.proc q).state = .runnable → s.past.created q < 2 ^ 31) →
      ∀ c, s.choose = some c → ∀ q, (s.proc q).state = .runnable → (s.proc q).priority ≤ (s.proc c).priority ∧
        ((s.proc q).priority = (s.proc c).priority → s.past.created c ≤ s.past.created q)) := by
  refine ⟨⟨fun s' hs => ?_, ?_⟩, fun hr hearly c hc q hq => ?_⟩
  · obtain ⟨c, hc, rfl⟩ := Option.map_eq_some_iff.1 hs
    exact ⟨c, rfl, choose_some hc⟩
  · rw [← choose_none]
    exact Option.map_eq_none_iff
  · obtain ⟨hrun, hbest⟩ := choose_some hc
    have htimes := reach_times hr
    have hctime : ∀ r, (s.proc r).state = .runnable → (s.proc r).ctime.toInt = s.past.created r := by
      intro r hr
      have ht := htimes.made r (Or.inl (Or.inr (Or.inl hr)))
      rw [ht.ctime, toInt_ofNat (hearly r hr)]
    refine ⟨(hbest q hq).1, fun heq => ?_⟩
    have hle := ((hbest q hq).2 heq).1
    rw [hctime c hrun, hctime q hq] at hle
    exact Int.ofNat_le.1 hle

theorem scheduler_sound_boot :
    boot.choose = some 0 ∧ ∀ q, (boot.proc q).state = .runnable → (boot.proc q).priority ≤ (boot.proc 0).priority := by
  have hchoose : boot.choose = some 0 := by decide
  refine ⟨hchoose, fun q hq => ?_⟩
  exact ((scheduler_sound boot).2 (.init start_boot) (fun _ _ => Nat.two_pow_pos 31) 0 hchoose q hq).1

/-- Time passes. -/
def wait (s : Table) (n : ℕ) : Table :=
  { s with ticks := s.ticks + BitVec.ofNat 32 n, past := { s.past with ticks := s.past.ticks + n } }

theorem reach_wait (h : system.Reach (fun _ _ => True) s) (n : ℕ) : system.Reach (fun _ _ => True) (s.wait n) := by
  induction n with
  | zero =>
    have hzero : s.wait 0 = s := by
      rw [wait, BitVec.add_zero]
      rfl
    rw [hzero]
    exact h
  | succ n ih =>
    have hnext : (s.wait n).tick = s.wait (n + 1) := by
      rw [wait, wait, BitVec.ofNat_add, ← BitVec.add_assoc]
      rfl
    exact ih.step (a := Event.tick) trivial (congrArg some hnext)

/-- **After `2 ^ 31` ticks the younger of two processes is dispatched first.**  `ctime` is an `int`. -/
theorem scheduler_wrapped :
    ∃ s c q, system.Reach (fun _ _ => True) s ∧ s.choose = some c ∧ (s.proc q).state = .runnable ∧
      (s.proc q).priority = (s.proc c).priority ∧ s.past.created q < s.past.created c := by
  obtain ⟨s, hs, hp⟩ := exists_run (reach_wait reach_booted (2 ^ 31 - 1)) (l := forked 0 ++ .tick :: forked 0)
    (fun s => s.choose = some 2 ∧ (s.proc 1).state = .runnable ∧ (s.proc 1).priority = (s.proc 2).priority ∧
      s.past.created 1 < s.past.created 2) (by decide +kernel)
  exact ⟨s, 2, 1, hs, hp⟩

/-! ## `waitsch` -/

/-- The report is one about the process `q`. -/
structure Report.About (r : Report) (s : Table) (q : Slot) : Prop where
  pid : r.pid = (s.proc q).pid
  rutime : r.rutime.toInt = (s.past.stats q).running
  retime : r.retime.toInt = (s.past.stats q).runnable
  sltime : r.sltime.toInt = (s.past.stats q).sleeping
  pr : r.pr = (s.proc q).priority

/-- A counter of type `int` after `n` steps. -/
def counter (n : ℕ) : ℤ := (BitVec.ofNat 32 n).toInt

/-- **`waitsch` reports the times and the priority of its caller.**  The report is right only where they agree with
those of the child. -/
theorem waitsch_report (h : system.Reach (fun _ _ => True) s) (hpc : s.pc p = .waitsch) (hrun : (s.proc p).state = .running)
    (hz : s.findZombie p = some q) :
    s.step (.round p) = some (s.reap p q Proc.clearsch) ∧
      ((s.report p q).About s q ↔
        counter (s.past.stats p).running = (s.past.stats q).running ∧
        counter (s.past.stats p).runnable = (s.past.stats q).runnable ∧
        counter (s.past.stats p).sleeping = (s.past.stats q).sleeping ∧ (s.proc p).priority = (s.proc q).priority) := by
  have ht := (reach_times h).made p (Or.inl (Or.inr (Or.inr hrun)))
  constructor
  · rw [step, if_pos hrun, hpc]
    dsimp only
    rw [round, hz]
  · rw [counter, counter, counter, ← ht.rutime, ← ht.retime, ← ht.sltime]
    exact ⟨fun hr => ⟨hr.rutime, hr.retime, hr.sltime, hr.pr⟩, fun h => ⟨rfl, h.1, h.2.1, h.2.2.1, h.2.2.2⟩⟩

/-- A child of `init` that has exited, at the time of `waitsch`. -/
theorem waitsch_report_fresh :
    ∃ s, system.Reach (fun _ _ => True) s ∧ s.findZombie 0 = some 1 ∧ (s.report 0 1).About s 1 := by
  obtain ⟨s, hs, hpc, hrun, hz, hsame⟩ := exists_run reach_booted (l := forked 0 ++ [.schedule, .exit 1, .waitsch 0])
    (fun s => s.pc 0 = .waitsch ∧ (s.proc 0).state = .running ∧ s.findZombie 0 = some 1 ∧
      counter (s.past.stats 0).running = (s.past.stats 1).running ∧
      counter (s.past.stats 0).runnable = (s.past.stats 1).runnable ∧
      counter (s.past.stats 0).sleeping = (s.past.stats 1).sleeping ∧ (s.proc 0).priority = (s.proc 1).priority)
    (by decide +kernel)
  exact ⟨s, hs, hz, (waitsch_report hs hpc hrun hz).2.2 hsame⟩

/-- **The parent has run during a call of `updatestatistics`, and the child has another priority: `waitsch` reports a
running time of 1 and the priority 0.** -/
theorem waitsch_report_parent :
    ∃ s, system.Reach (fun _ _ => True) s ∧ s.pc 0 = .waitsch ∧ (s.proc 0).state = .running ∧ s.findZombie 0 = some 1 ∧
      (s.past.stats 1).running = 0 ∧ (s.proc 1).priority = 3 ∧ s.report 0 1 = ⟨2, 1, 0, 0, 0⟩ ∧
      ¬ (s.report 0 1).About s 1 := by
  obtain ⟨s, hs, hpc, hrun, hz, hrutime, hpr, hreport⟩ := exists_run reach_booted
    (l := .updatestatistics :: forked 0 ++ [.setpriority 2 3, .schedule, .exit 1, .waitsch 0])
    (fun s => s.pc 0 = .waitsch ∧ (s.proc 0).state = .running ∧ s.findZombie 0 = some 1 ∧ (s.past.stats 1).running = 0 ∧
      (s.proc 1).priority = 3 ∧ s.report 0 1 = ⟨2, 1, 0, 0, 0⟩) (by decide +kernel)
  refine ⟨s, hs, hpc, hrun, hz, hrutime, hpr, hreport, fun hr => ?_⟩
  have htime := hr.rutime
  rw [hreport, hrutime] at htime
  exact absurd htime (by decide)

end Table

end OsLab.Xv6.Ptable
