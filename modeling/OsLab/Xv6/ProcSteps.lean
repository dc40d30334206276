import OsLab.Xv6.ProcInv
import OsLab.Xv6.Scheduler

/-!
# The steps of the process table

* `Change` and `step_change`: what a step can do, in thirteen cases.
* `Inv.step`, `reach_inv`: the invariant holds in every state reached.
-/

namespace OsLab.Xv6.Ptable

variable {s s' s1 : Table} {p q np : Slot} {v : Proc} {a : Event}

theorem Past.Same.trans {a b c : Past} (h : a.Same b) (h' : b.Same c) : a.Same c :=
  ⟨h'.forks.trans h.forks, h'.born.trans h.born, h'.mother.trans h.mother, h'.exited.trans h.exited,
    h'.reapers.trans h.reapers⟩

namespace Table

/-! ## What a step can do -/

/-- The times stand still. -/
structure Still (s s' : Table) : Prop where
  clock : ∀ p, (s'.proc p).ctime = (s.proc p).ctime ∧ (s'.proc p).rutime = (s.proc p).rutime ∧
    (s'.proc p).retime = (s.proc p).retime ∧ (s'.proc p).sltime = (s.proc p).sltime
  ticks : s'.ticks = s.ticks
  total : s'.past.ticks = s.past.ticks
  stats : s'.past.stats = s.past.stats
  created : s'.past.created = s.past.created

/-- Besides, nobody is marked who does not live. -/
structure Quiet (s s' : Table) : Prop extends Mild s s', Still s s' where
  killed : ∀ p, ¬ (s.proc p).state.Live → (s'.proc p).killed = (s.proc p).killed

theorem Still.refl (s : Table) : Still s s := ⟨fun _ => ⟨rfl, rfl, rfl, rfl⟩, rfl, rfl, rfl, rfl⟩

variable {s2 : Table} {pc : Pc} {v : Proc}

theorem Still.trans (h : Still s s1) (h' : Still s1 s2) : Still s s2 := by
  refine ⟨fun p => ?_, h'.ticks.trans h.ticks, h'.total.trans h.total, h'.stats.trans h.stats, h'.created.trans h.created⟩
  obtain ⟨h1, h2, h3, h4⟩ := h.clock p
  obtain ⟨h1', h2', h3', h4'⟩ := h'.clock p
  exact ⟨h1'.trans h1, h2'.trans h2, h3'.trans h3, h4'.trans h4⟩

theorem still_setProc (s : Table) (p : Slot) (hclock : v.ctime = (s.proc p).ctime ∧ v.rutime = (s.proc p).rutime ∧
    v.retime = (s.proc p).retime ∧ v.sltime = (s.proc p).sltime) : Still s (s.setProc p v) := by
  refine ⟨fun q => ?_, rfl, rfl, rfl, rfl⟩
  by_cases hqp : q = p
  · rw [hqp, setProc_self]
    exact hclock
  · rw [setProc_of_ne _ _ hqp]
    exact ⟨rfl, rfl, rfl, rfl⟩

theorem still_setPc (s : Table) (p : Slot) (pc : Pc) : Still s (s.setPc p pc) :=
  ⟨fun _ => ⟨rfl, rfl, rfl, rfl⟩, rfl, rfl, rfl, rfl⟩

theorem still_kill (s : Table) (pid : BitVec 32) : Still s (s.kill pid).2 := by
  rw [kill]
  split
  · exact Still.refl s
  · exact still_setProc s _ ⟨rfl, rfl, rfl, rfl⟩

theorem Quiet.refl (s : Table) : Quiet s s := ⟨Mild.refl s, Still.refl s, fun _ _ => rfl⟩

theorem quiet_setProc (hsame : Same (s.proc p) v) (hclock : v.ctime = (s.proc p).ctime ∧ v.rutime = (s.proc p).rutime ∧
    v.retime = (s.proc p).retime ∧ v.sltime = (s.proc p).sltime)
    (hkilled : ¬ (s.proc p).state.Live → v.killed = (s.proc p).killed) : Quiet s (s.setProc p v) := by
  refine ⟨mild_setProc hsame, still_setProc s p hclock, fun q hq => ?_⟩
  by_cases hqp : q = p
  · subst hqp
    rw [setProc_self]
    exact hkilled hq
  · rw [setProc_of_ne _ _ hqp]

theorem quiet_setPc (hpc : pc.child = none) (hno : (s.pc p).child = none) (hlive : (s.proc p).state.Live) :
    Quiet s (s.setPc p pc) :=
  ⟨mild_setPc hpc hno hlive, still_setPc s p pc, fun _ _ => rfl⟩

theorem quiet_wakeup1 (s : Table) (chan : Option Chan) : Quiet s (s.wakeup1 chan) := by
  have hkeeps : ∀ {α : Type} (f : Proc → α), (∀ v st, f { v with state := st } = f v) →
      ∀ v : Proc, f (v.wake chan) = f v := by
    intro α f hf v
    rw [Proc.wake]
    split
    · rw [hf]
    · rfl
  exact ⟨⟨fun _ => same_wake, fun _ => Or.inl rfl, rfl, rfl, Past.Same.refl _⟩,
    ⟨fun p => ⟨hkeeps Proc.ctime (fun _ _ => rfl) _, hkeeps Proc.rutime (fun _ _ => rfl) _,
      hkeeps Proc.retime (fun _ _ => rfl) _, hkeeps Proc.sltime (fun _ _ => rfl) _⟩, rfl, rfl, rfl, rfl⟩,
    fun p _ => hkeeps Proc.killed (fun _ _ => rfl) _⟩

theorem Same.trans {v1 v2 : Proc} (h : Same v v1) (h' : Same v1 v2) : Same v v2 := by
  refine ⟨h'.parent.trans h.parent, h'.pid.trans h.pid, ?_⟩
  rcases h'.state with heq | ⟨h1, h2⟩
  · rw [heq]
    exact h.state
  · exact Or.inr ⟨h.live.1 h1, h2⟩

theorem Mild.trans (h : Mild s s1) (h' : Mild s1 s2) : Mild s s2 := by
  refine ⟨fun p => (h.proc p).trans (h'.proc p), fun p => ?_, h'.nextpid.trans h.nextpid, h'.initproc.trans h.initproc,
    h.past.trans h'.past⟩
  rcases h'.pc p with heq' | ⟨h2, h1, hlive⟩
  · rw [heq']
    exact h.pc p
  · rcases h.pc p with heq | ⟨-, hno, hlive'⟩
    · exact Or.inr ⟨h2, by rw [← heq]; exact h1, (h.proc p).live.1 hlive⟩
    · exact Or.inr ⟨h2, hno, hlive'⟩

theorem Quiet.trans (h : Quiet s s1) (h' : Quiet s1 s2) : Quiet s s2 := by
  refine ⟨h.toMild.trans h'.toMild, h.toStill.trans h'.toStill, fun p hp => ?_⟩
  have hp1 : ¬ (s1.proc p).state.Live := fun hl => hp ((h.proc p).live.1 hl)
  exact (h'.killed p hp1).trans (h.killed p hp)

/-- What a step does: thirteen cases. -/
inductive Change (s : Table) : Event → Table → Prop
  | quiet {a : Event} {s' : Table} (h : Quiet s s') : Change s a s'
  | kill (pid : BitVec 32) : Change s (.kill pid) (s.kill pid).2
  | tick : Change s .tick s.tick
  | updatestatistics : Change s .updatestatistics s.updatestatistics
  | take {p np : Slot} (hp : s.Idle p) (hnp : (s.proc np).state = .unused) : Change s (.fork p) (s.take p np)
  | kalloc {p np : Slot} (hp : s.pc p = .kalloc np) : Change s (.forkStep p true) (s.setPc p (.init np))
  | setUp {p np : Slot} {ok : Bool} (hp : s.pc p = .init np) : Change s (.forkStep p ok) (s.setUp p np)
  | copy {p np : Slot} (hp : s.pc p = .copy np) : Change s (.forkStep p true) (s.setPc p (.inherit np))
  | inherit {p np : Slot} {ok : Bool} (hp : s.pc p = .inherit np) : Change s (.forkStep p ok) (s.inherit p np)
  | drop {p np : Slot} (hp : s.pc p = .kalloc np ∨ s.pc p = .copy np) :
      Change s (.forkStep p false) ((s.setState np .unused).setPc p .idle)
  | launch {p np : Slot} {ok : Bool} (hp : s.pc p = .ready np) :
      Change s (.forkStep p ok) ((s.setState np .runnable).setPc p .idle)
  | leave {p : Slot} {s₁ : Table} (hq : Quiet s s₁) (hp : s.Idle p) (hpc : s₁.pc p = .idle) (hinit : p ≠ s.initproc) :
      Change s (.exit p) (s₁.leave p)
  | reap {p q : Slot} {clear : Proc → Proc} (hrun : (s.proc p).state = .running) (hno : (s.pc p).child = none)
      (hparent : (s.proc q).parent = some p) (hz : (s.proc q).state = .zombie)
      (hclear : clear = Proc.clear ∨ clear = Proc.clearsch) : Change s (.round p) (s.reap p q clear)

/-! ## Every step is one of these -/

/-- A change of the state of a process that lives. -/
theorem quiet_state {st : PState} {chan : Option Chan} (hlive : (s.proc p).state.Live) (hst : st.Live) :
    Quiet s (s.setProc p { s.proc p with state := st, chan := chan }) :=
  quiet_setProc ⟨rfl, rfl, Or.inr ⟨hlive, hst⟩⟩ ⟨rfl, rfl, rfl, rfl⟩ fun _ => rfl

theorem change_forkStep {ok : Bool} (h : s.forkStep p ok = some s') : Change s (.forkStep p ok) s' := by
  rw [forkStep] at h
  split at h
  case h_1 np hpc =>
    cases ok with
    | true => exact Option.some.inj h ▸ .kalloc hpc
    | false => exact Option.some.inj h ▸ .drop (Or.inl hpc)
  case h_2 np hpc => exact Option.some.inj h ▸ .setUp hpc
  case h_3 np hpc =>
    cases ok with
    | true => exact Option.some.inj h ▸ .copy hpc
    | false => exact Option.some.inj h ▸ .drop (Or.inr hpc)
  case h_4 np hpc => exact Option.some.inj h ▸ .inherit hpc
  case h_5 np hpc => exact Option.some.inj h ▸ .launch hpc
  case h_6 => cases h

theorem change_exit (hp : s.Idle p) (hinit : p ≠ s.initproc) : Change s (.exit p) (s.exit p) := by
  have h1 := quiet_wakeup1 s ((s.proc p).parent.map .proc)
  rw [exit]
  split
  · exact .leave (h1.trans (quiet_wakeup1 _ _)) hp hp.2 hinit
  · exact .leave h1 hp hp.2 hinit

theorem change_round {clear : Proc → Proc} (hrun : (s.proc p).state = .running) (hno : (s.pc p).child = none)
    (hclear : clear = Proc.clear ∨ clear = Proc.clearsch) : Change s (.round p) (s.round p clear) := by
  have hlive : (s.proc p).state.Live := Or.inr (Or.inr hrun)
  rw [round]
  split
  · rename_i q hq
    obtain ⟨hparent, hz⟩ := of_decide_eq_true (first_eq_some hq)
    exact .reap hrun hno hparent hz hclear
  · split
    · exact .quiet (quiet_state hlive (Or.inl rfl))
    · exact .quiet (quiet_setPc rfl hno hlive)

theorem step_change (h : s.step a = some s') : Change s a s' := by
  cases a with
  | fork p =>
    rw [step] at h
    split_ifs at h with hp
    obtain rfl := Option.some.inj h
    rw [allocproc]
    split
    · exact .quiet (Quiet.refl s)
    · rename_i np hnp
      exact .take hp (of_decide_eq_true (first_eq_some hnp))
  | forkStep p ok =>
    rw [step] at h
    split_ifs at h
    exact change_forkStep h
  | exit p =>
    rw [step] at h
    split_ifs at h with hp
    exact Option.some.inj h ▸ change_exit hp.1 hp.2
  | wait p =>
    rw [step] at h
    split_ifs at h with hp
    refine Option.some.inj h ▸ .quiet (quiet_setPc rfl ?_ (Or.inr (Or.inr hp.1)))
    rw [hp.2]
    rfl
  | waitsch p =>
    rw [step] at h
    split_ifs at h with hp
    refine Option.some.inj h ▸ .quiet (quiet_setPc rfl ?_ (Or.inr (Or.inr hp.1)))
    rw [hp.2]
    rfl
  | round p =>
    rw [step] at h
    split_ifs at h with hrun
    split at h
    case h_1 hpc => exact Option.some.inj h ▸ change_round hrun (by rw [hpc]; rfl) (Or.inl rfl)
    case h_2 hpc => exact Option.some.inj h ▸ change_round hrun (by rw [hpc]; rfl) (Or.inr rfl)
    case h_3 => cases h
  | sleep p chan =>
    rw [step] at h
    split_ifs at h with hp
    exact Option.some.inj h ▸ .quiet (quiet_state (Or.inr (Or.inr hp.1)) (Or.inl rfl))
  | wakeup chan => exact Option.some.inj h ▸ .quiet (quiet_wakeup1 s _)
  | kill pid => exact Option.some.inj h ▸ .kill pid
  | fault p =>
    rw [step] at h
    split_ifs at h with hp
    obtain rfl := Option.some.inj h
    exact .quiet (quiet_setProc ⟨rfl, rfl, Or.inl rfl⟩ ⟨rfl, rfl, rfl, rfl⟩ fun hno => absurd (Or.inr (Or.inr hp.1)) hno)
  | setpriority pid pr =>
    obtain rfl := Option.some.inj h
    rw [setpriority]
    split
    · exact .quiet (Quiet.refl s)
    · exact .quiet (quiet_setProc ⟨rfl, rfl, Or.inl rfl⟩ ⟨rfl, rfl, rfl, rfl⟩ fun _ => rfl)
  | yield p =>
    rw [step] at h
    split_ifs at h with hrun
    exact Option.some.inj h ▸ .quiet (quiet_state (Or.inr (Or.inr hrun)) (Or.inr (Or.inl rfl)))
  | schedule =>
    obtain ⟨p, hp, rfl⟩ := Option.map_eq_some_iff.1 h
    exact .quiet (quiet_state (Or.inr (Or.inl (choose_some hp).1)) (Or.inr (Or.inr rfl)))
  | tick => exact Option.some.inj h ▸ .tick
  | updatestatistics => exact Option.some.inj h ▸ .updatestatistics

/-! ## The invariant -/

theorem moves_fork (s : Table) {past : Past} (p np : Slot) :
    Moves s { s.setProc np v with pc := Function.update s.pc p pc, past := past } p np v pc :=
  ⟨fun _ hq => setProc_of_ne _ _ hq, setProc_self .., fun _ hq => Function.update_of_ne hq _ _, Function.update_self .., rfl⟩

theorem moves_setPc (s : Table) (p np : Slot) : Moves s (s.setPc p pc) p np (s.proc np) pc :=
  ⟨fun _ _ => rfl, rfl, fun _ hq => setPc_of_ne _ _ hq, setPc_self .., rfl⟩

theorem Inv.step (h : s.Inv) (hs : s.step a = some s') : s'.Inv := by
  cases step_change hs with
  | quiet hq => exact h.mild hq.toMild
  | kill pid => exact h.mild (mild_kill pid)
  | tick => exact h.mild (mild_tick s)
  | updatestatistics => exact h.mild (mild_updatestatistics s)
  | take hp hnp => exact h.take (Or.inr (Or.inr hp.1)) hp.2 hnp
  | @kalloc p np hp =>
    obtain ⟨hc, hemb, hparent⟩ := h.making hp rfl
    exact h.advance (moves_setPc s p np) hc rfl hemb rfl hparent rfl (Past.Same.refl _)
  | @setUp p np _ hp =>
    obtain ⟨hc, hemb, hparent⟩ := h.making hp rfl
    exact h.advance (moves_fork s p np) hc rfl hemb rfl hparent rfl ⟨rfl, rfl, rfl, rfl, rfl⟩
  | @copy p np hp =>
    obtain ⟨hc, hemb, hparent⟩ := h.making hp rfl
    exact h.advance (moves_setPc s p np) hc rfl hemb rfl hparent rfl (Past.Same.refl _)
  | @inherit p np _ hp =>
    obtain ⟨hc, hemb, -⟩ := h.making hp rfl
    refine h.advance (moves_fork s p np) hc rfl hemb rfl ?_ rfl (Past.Same.refl _)
    rw [if_pos rfl]
  | drop hp =>
    rcases hp with hp | hp
    · exact h.drop (by rw [hp]; rfl) (by rw [hp]; exact nofun)
    · exact h.drop (by rw [hp]; rfl) (by rw [hp]; exact nofun)
  | launch hp => exact h.launch hp
  | @leave p s1 hq hp hpc hinit =>
    refine (h.mild hq.toMild).leave ((hq.proc p).live.2 (Or.inr (Or.inr hp.1))) hpc ?_
    rw [hq.initproc]
    exact hinit
  | reap hrun hno hparent hz hclear =>
    rcases hclear with rfl | rfl
    · exact h.reap hno hz rfl rfl
    · exact h.reap hno hz rfl rfl

theorem Start.used (h : s.Start) (hp : (s.proc p).state ≠ .unused) : p = s.initproc := by
  by_contra hne
  rw [h.other p hne] at hp
  exact hp rfl

theorem Start.inv (h : s.Start) : s.Inv := by
  have hstate : ∀ p ≠ s.initproc, (s.proc p).state = .unused := by
    intro p hp
    rw [h.other p hp]
  have hinit : (s.proc s.initproc).state = .runnable := by rw [h.init]
  have hno : ∀ {p np}, (s.pc p).child ≠ some np := by
    intro p np hc
    rw [h.pc p] at hc
    cases hc
  refine ⟨⟨?_, by rw [h.init], fun p hp => ?_, fun p hp hst => ?_⟩,
    ⟨fun p np hc => absurd hc hno, fun p q np hc => absurd hc hno, fun np hnp => ?_, fun p _ => h.pc p,
      fun p np hc => absurd hc hno⟩,
    ⟨fun p hp => ?_, ?_, fun p hp => ?_, fun p q hp hq _ => (h.used hp).trans (h.used hq).symm⟩⟩
  · rw [hinit]
    exact Or.inr (Or.inl rfl)
  · have hne : p ≠ s.initproc := by
      rintro rfl
      cases hinit.symm.trans hp
    rw [h.other p hne]
  · rcases hst with hst | hst
    · exact absurd hst (not_live_unused (hstate p hp))
    · cases (hstate p hp).symm.trans hst
  · have hne : np = s.initproc := h.used (by rw [hnp]; exact nofun)
    rw [hne, hinit] at hnp
    cases hnp
  · rw [h.used hp, h.init, h.born]
    rfl
  · rw [h.nextpid, h.forks]
    rfl
  · rw [h.used hp, h.born]
    exact Nat.zero_le _

/-- **The invariant holds in every state reached.** -/
theorem reach_inv {ok : Table → Event → Prop} (h : system.Reach ok s) : s.Inv :=
  h.invariant (I := Inv) (fun _ h => h.inv) fun _ _ _ h _ hs => h.step hs

/-- An `int` that has not wrapped. -/
theorem toInt_ofNat {n : ℕ} (h : n < 2 ^ 31) : (BitVec.ofNat 32 n).toInt = n := by
  have hmod : (BitVec.ofNat 32 n).toNat = n := by
    rw [BitVec.toNat_ofNat, Nat.mod_eq_of_lt (by omega)]
  rw [BitVec.toInt_eq_toNat_of_lt (by omega), hmod]

/-- The events take place one after the other. -/
def run (s : Table) : List Event → Option Table
  | [] => some s
  | a :: l => (s.step a).bind fun s' => s'.run l

variable {l : List Event}

theorem reach_run (h : system.Reach (fun _ _ => True) s) (hrun : s.run l = some s') :
    system.Reach (fun _ _ => True) s' := by
  induction l generalizing s with
  | nil => exact Option.some.inj hrun ▸ h
  | cons a l ih =>
    obtain ⟨s1, hs1, hrun⟩ := Option.bind_eq_some_iff.1 hrun
    exact ih (h.step trivial hs1) hrun

/-- What can be computed of the state after a run. -/
theorem exists_run (h : system.Reach (fun _ _ => True) s) (P : Table → Prop) [DecidablePred P]
    (hrun : ((s.run l).any fun s' => decide (P s')) = true) : ∃ s', system.Reach (fun _ _ => True) s' ∧ P s' := by
  obtain ⟨s', hs', hp⟩ := (Option.any_eq_true _ _).1 hrun
  exact ⟨s', reach_run h hs', of_decide_eq_true hp⟩

/-- The first process runs. -/
theorem reach_booted : system.Reach (fun _ _ => True) (boot.dispatch 0) := by
  have hchoose : boot.choose = some 0 := by decide
  have hrun : boot.step .schedule = some (boot.dispatch 0) := congrArg (Option.map boot.dispatch) hchoose
  exact (System.Reach.init start_boot).step trivial hrun

/-- A process makes another one. -/
def forked (p : Slot) : List Event := .fork p :: List.replicate 5 (.forkStep p true)

end Table

end OsLab.Xv6.Ptable
