import OsLab.Lib.Run

/-!
# `sleep` and `wakeup`

Any number of threads run on any number of processors.  Each channel has a lock, by which the data are guarded that
its sleepers wait for; the lock may be `ptable.lock` itself.  A sleeper holds the lock, finds its condition false and
calls `sleep`; whoever holds the lock may change the data; `wakeup` is called with or without the lock.  The locks are
spin locks: a step that takes one is possible only while the lock is free.

* `Inv.step`: who holds what, and that a sleeper's condition is false as long as it holds the lock.
* `no_lost_wakeup`: nobody sleeps on a channel while its condition has been true since the end of a call of `wakeup`.
-/

namespace OsLab.Xv6.Sleep

open Function

/-- Which lock belongs to a channel, and for what a thread waits that sleeps on it. -/
structure Discipline (ι κ Λ δ : Type) where
  ptable : Λ
  lockOf : κ → Λ
  cond : ι → κ → δ → Bool

inductive Run where
  | sleeping
  | runnable
  | running
  deriving DecidableEq

/-- Where a thread is. -/
inductive Pc (κ Λ : Type) where
  /-- it holds no lock -/
  | idle
  /-- it holds a lock -/
  | inside (lk : Λ)
  /-- it has found its condition false, and calls `sleep` -/
  | calls (c : κ)
  /-- in `sleep`, with `ptable.lock` and `lk` -/
  | both (c : κ)
  /-- in `sleep`, with `ptable.lock` -/
  | ready (c : κ)
  /-- in `sched` -/
  | away (c : κ)
  /-- in `sleep`, back from `sched` with `ptable.lock` -/
  | back (c : κ)
  /-- in `sleep`, before `lk` is taken again -/
  | last (c : κ)
  /-- `sleep` has returned -/
  | returned (c : κ)
  deriving DecidableEq

structure State (ι κ Λ δ : Type) where
  held : Λ → Option ι
  data : Λ → δ
  run : ι → Run
  chan : ι → Option κ
  pc : ι → Pc κ Λ

inductive Event (ι κ Λ δ : Type) where
  | acquire (p : ι) (lk : Λ)
  | release (p : ι) (lk : Λ)
  /-- the data guarded by the lock are changed -/
  | modify (p : ι) (lk : Λ) (d : δ)
  /-- the condition is false -/
  | test (p : ι) (c : κ)
  /-- the steps of `sleep` -/
  | lock (p : ι) (c : κ)
  | unlock (p : ι) (c : κ)
  | enter (p : ι) (c : κ)
  | dispatch (p : ι) (c : κ)
  | tidy (p : ι) (c : κ)
  | regain (p : ι) (c : κ)
  /-- the caller of `sleep` goes on -/
  | resume (p : ι) (c : κ)
  | wakeup (p : ι) (c : κ)
  | kill (p : ι)

variable {ι κ Λ δ : Type} [DecidableEq ι]

namespace State

variable (s : State ι κ Λ δ)

def setPc (p : ι) (v : Pc κ Λ) : State ι κ Λ δ := { s with pc := Function.update s.pc p v }

def acquire [DecidableEq Λ] (lk : Λ) (p : ι) : State ι κ Λ δ := { s with held := Function.update s.held lk (some p) }

def release [DecidableEq Λ] (lk : Λ) : State ι κ Λ δ := { s with held := Function.update s.held lk none }

def setRun (p : ι) (v : Run) : State ι κ Λ δ := { s with run := Function.update s.run p v }

def setChan (p : ι) (v : Option κ) : State ι κ Λ δ := { s with chan := Function.update s.chan p v }

/-- `wakeup1`. -/
def wakeup1 [DecidableEq κ] (c : κ) : State ι κ Λ δ :=
  { s with run := fun p => if s.run p = .sleeping ∧ s.chan p = some c then .runnable else s.run p }

/-- `kill`, for the process that is found. -/
def kill (p : ι) : State ι κ Λ δ := if s.run p = .sleeping then s.setRun p .runnable else s

/-- The thread may call `wakeup`, or `wakeup1` if it holds `ptable.lock`. -/
def MayWake (D : Discipline ι κ Λ δ) (p : ι) : Prop :=
  s.pc p = .inside D.ptable ∨ (s.pc p = .idle ∨ ∃ lk, s.pc p = .inside lk) ∧ s.held D.ptable = none

/-- The condition for which `p` waits on the channel. -/
def cond (D : Discipline ι κ Λ δ) (p : ι) (c : κ) : Bool := D.cond p c (s.data (D.lockOf c))

/-- What is done in a step, and when it is possible. -/
inductive Step [DecidableEq κ] [DecidableEq Λ] (D : Discipline ι κ Λ δ) (s : State ι κ Λ δ) : Event ι κ Λ δ → State ι κ Λ δ → Prop
  | acquire {p : ι} {lk : Λ} (hpc : s.pc p = .idle) (hfree : s.held lk = none) :
      Step D s (.acquire p lk) ((s.acquire lk p).setPc p (.inside lk))
  | release {p : ι} {lk : Λ} (hpc : s.pc p = .inside lk) : Step D s (.release p lk) ((s.release lk).setPc p .idle)
  | modify {p : ι} {lk : Λ} (d : δ) (hpc : s.pc p = .inside lk) :
      Step D s (.modify p lk d) { s with data := Function.update s.data lk d }
  | test {p : ι} {c : κ} (hpc : s.pc p = .inside (D.lockOf c)) (hcond : s.cond D p c = false) :
      Step D s (.test p c) (s.setPc p (.calls c))
  -- `if(lk != &ptable.lock){ acquire(&ptable.lock); release(lk); }`
  | lock {p : ι} {c : κ} (hpc : s.pc p = .calls c) (hlk : D.lockOf c ≠ D.ptable) (hfree : s.held D.ptable = none) :
      Step D s (.lock p c) ((s.acquire D.ptable p).setPc p (.both c))
  | skip {p : ι} {c : κ} (hpc : s.pc p = .calls c) (hlk : D.lockOf c = D.ptable) : Step D s (.lock p c) (s.setPc p (.ready c))
  | unlock {p : ι} {c : κ} (hpc : s.pc p = .both c) :
      Step D s (.unlock p c) ((s.release (D.lockOf c)).setPc p (.ready c))
  -- `p->chan = chan; p->state = SLEEPING; sched()`; the scheduler releases `ptable.lock`
  | enter {p : ι} {c : κ} (hpc : s.pc p = .ready c) :
      Step D s (.enter p c) ((((s.setChan p (some c)).setRun p .sleeping).release D.ptable).setPc p (.away c))
  -- the scheduler takes `ptable.lock` and switches to the process
  | dispatch {p : ι} {c : κ} (hpc : s.pc p = .away c) (hrun : s.run p = .runnable) (hfree : s.held D.ptable = none) :
      Step D s (.dispatch p c) (((s.setRun p .running).acquire D.ptable p).setPc p (.back c))
  -- `p->chan = 0; if(lk != &ptable.lock){ release(&ptable.lock); acquire(lk); }`
  | tidy {p : ι} {c : κ} (hpc : s.pc p = .back c) (hlk : D.lockOf c ≠ D.ptable) :
      Step D s (.tidy p c) (((s.setChan p none).release D.ptable).setPc p (.last c))
  | tidySame {p : ι} {c : κ} (hpc : s.pc p = .back c) (hlk : D.lockOf c = D.ptable) :
      Step D s (.tidy p c) ((s.setChan p none).setPc p (.returned c))
  | regain {p : ι} {c : κ} (hpc : s.pc p = .last c) (hfree : s.held (D.lockOf c) = none) :
      Step D s (.regain p c) ((s.acquire (D.lockOf c) p).setPc p (.returned c))
  | resume {p : ι} {c : κ} (hpc : s.pc p = .returned c) : Step D s (.resume p c) (s.setPc p (.inside (D.lockOf c)))
  | wakeup {p : ι} {c : κ} (hwake : s.MayWake D p) : Step D s (.wakeup p c) (s.wakeup1 c)
  | kill {p : ι} (hfree : s.held D.ptable = none) : Step D s (.kill p) (s.kill p)

/-- Nobody holds a lock or sleeps. -/
structure Start (s : State ι κ Λ δ) : Prop where
  held : ∀ lk, s.held lk = none
  run : ∀ p, s.run p = .running
  chan : ∀ p, s.chan p = none
  pc : ∀ p, s.pc p = .idle

end State

def system [DecidableEq κ] [DecidableEq Λ] (D : Discipline ι κ Λ δ) : System (State ι κ Λ δ) (Event ι κ Λ δ) where
  init := State.Start
  step := State.Step D

/-! ## Who holds what -/

/-- The locks that a thread holds. -/
def Pc.Holds (D : Discipline ι κ Λ δ) : Pc κ Λ → Λ → Prop
  | .inside lk', lk => lk = lk'
  | .calls c, lk | .returned c, lk => lk = D.lockOf c
  | .both c, lk => lk = D.ptable ∨ lk = D.lockOf c
  | .ready _, lk | .back _, lk => lk = D.ptable
  | .idle, _ | .away _, _ | .last _, _ => False

namespace State

variable {D : Discipline ι κ Λ δ} {s s' : State ι κ Λ δ} {p q : ι} {c : κ} {lk : Λ} {v w : Pc κ Λ} {a : Event ι κ Λ δ}

@[simp] theorem setPc_run : (s.setPc p v).run = s.run := rfl

@[simp] theorem setPc_chan : (s.setPc p v).chan = s.chan := rfl

omit [DecidableEq ι] in
@[simp] theorem acquire_run [DecidableEq Λ] : (s.acquire lk p).run = s.run := rfl

omit [DecidableEq ι] in
@[simp] theorem release_run [DecidableEq Λ] : (s.release lk).run = s.run := rfl

omit [DecidableEq ι] in
@[simp] theorem release_chan [DecidableEq Λ] : (s.release lk).chan = s.chan := rfl

@[simp] theorem setRun_chan (v : Run) : (s.setRun p v).chan = s.chan := rfl

@[simp] theorem setRun_run (v : Run) : (s.setRun p v).run = update s.run p v := rfl

@[simp] theorem setChan_chan (v : Option κ) : (s.setChan p v).chan = update s.chan p v := rfl

/-- Every lock is held by the thread that is where the lock is needed, and by no other. -/
def Locked (D : Discipline ι κ Λ δ) (s : State ι κ Λ δ) : Prop := ∀ p lk, s.held lk = some p ↔ (s.pc p).Holds D lk

theorem Locked.keep (h : s.Locked D) (hheld : s'.held = s.held) (hpc : s'.pc = update s.pc p v)
    (hv : ∀ lk, v.Holds D lk ↔ (s.pc p).Holds D lk) : s'.Locked D := by
  intro q lk
  rw [hheld, hpc]
  by_cases hq : q = p
  · subst hq
    rw [update_self, hv]
    exact h q lk
  · rw [update_of_ne hq]
    exact h q lk

theorem Locked.acquire [DecidableEq Λ] (h : s.Locked D) (hfree : s.held lk = none) (hheld : s'.held = update s.held lk (some p))
    (hpc : s'.pc = update s.pc p v) (hv : ∀ lk', v.Holds D lk' ↔ lk' = lk ∨ (s.pc p).Holds D lk') : s'.Locked D := by
  intro q lk'
  rw [hheld, hpc]
  by_cases hq : q = p
  · subst hq
    rw [update_self, hv]
    by_cases hl : lk' = lk
    · subst hl
      rw [update_self]
      exact ⟨fun _ => Or.inl rfl, fun _ => rfl⟩
    · rw [update_of_ne hl, or_iff_right hl]
      exact h q lk'
  · rw [update_of_ne hq, ← h q lk']
    by_cases hl : lk' = lk
    · subst hl
      rw [update_self, hfree]
      exact ⟨fun heq => absurd (Option.some.inj heq).symm hq, nofun⟩
    · rw [update_of_ne hl]

theorem Locked.release [DecidableEq Λ] (h : s.Locked D) (hp : (s.pc p).Holds D lk) (hheld : s'.held = update s.held lk none)
    (hpc : s'.pc = update s.pc p v) (hv : ∀ lk', v.Holds D lk' ↔ lk' ≠ lk ∧ (s.pc p).Holds D lk') : s'.Locked D := by
  intro q lk'
  have hmine := (h p lk).2 hp
  rw [hheld, hpc]
  by_cases hq : q = p
  · subst hq
    rw [update_self, hv]
    by_cases hl : lk' = lk
    · subst hl
      rw [update_self]
      exact ⟨nofun, fun hne => absurd rfl hne.1⟩
    · rw [update_of_ne hl, and_iff_right hl]
      exact h q lk'
  · rw [update_of_ne hq, ← h q lk']
    by_cases hl : lk' = lk
    · subst hl
      rw [update_self, hmine]
      exact ⟨nofun, fun heq => absurd (Option.some.inj heq).symm hq⟩
    · rw [update_of_ne hl]

theorem Locked.step [DecidableEq κ] [DecidableEq Λ] (h : s.Locked D) (hboth : ∀ p c, s.pc p = .both c → D.lockOf c ≠ D.ptable) (hs : Step D s a s') :
    s'.Locked D := by
  cases hs with
  | acquire hpc hfree =>
    refine h.acquire hfree rfl rfl fun lk' => ?_
    rw [hpc]
    exact ⟨Or.inl, fun hor => hor.resolve_right id⟩
  | @release p lk hpc =>
    refine h.release (by rw [hpc]; rfl) rfl rfl fun lk' => ?_
    rw [hpc]
    exact ⟨False.elim, fun hne => hne.1 hne.2⟩
  | modify d hpc => exact h
  | test hpc hcond =>
    refine h.keep rfl rfl fun lk' => ?_
    rw [hpc]
    rfl
  | lock hpc hlk hfree =>
    refine h.acquire hfree rfl rfl fun lk' => ?_
    rw [hpc]
    rfl
  | @skip p c hpc hlk =>
    refine h.keep rfl rfl fun lk' => ?_
    rw [hpc]
    show lk' = D.ptable ↔ lk' = D.lockOf c
    rw [hlk]
  | @unlock p c hpc =>
    have hne := hboth p c hpc
    refine h.release (by rw [hpc]; exact Or.inr rfl) rfl rfl fun lk' => ?_
    rw [hpc]
    constructor
    · rintro rfl
      exact ⟨hne.symm, Or.inl rfl⟩
    · exact fun hlk' => hlk'.2.resolve_right hlk'.1
  | @enter p c hpc =>
    refine h.release (by rw [hpc]; rfl) rfl rfl fun lk' => ?_
    rw [hpc]
    exact ⟨False.elim, fun hne => hne.1 hne.2⟩
  | dispatch hpc hrun hfree =>
    refine h.acquire hfree rfl rfl fun lk' => ?_
    rw [hpc]
    exact ⟨Or.inl, fun hor => hor.resolve_right id⟩
  | tidy hpc hlk =>
    refine h.release (by rw [hpc]; rfl) rfl rfl fun lk' => ?_
    rw [hpc]
    exact ⟨False.elim, fun hne => hne.1 hne.2⟩
  | @tidySame p c hpc hlk =>
    refine h.keep rfl rfl fun lk' => ?_
    rw [hpc]
    show lk' = D.lockOf c ↔ lk' = D.ptable
    rw [hlk]
  | regain hpc hfree =>
    refine h.acquire hfree rfl rfl fun lk' => ?_
    rw [hpc]
    exact ⟨Or.inl, fun hor => hor.resolve_right id⟩
  | resume hpc =>
    refine h.keep rfl rfl fun lk' => ?_
    rw [hpc]
    rfl
  | wakeup hwake => exact h
  | kill hfree =>
    rw [State.kill]
    split
    · exact h
    · exact h

/-! ## The invariant -/

/-- The thread has found its condition false, and still holds the lock. -/
def Tested (s : State ι κ Λ δ) (p : ι) (c : κ) : Prop := s.pc p = .calls c ∨ s.pc p = .both c

/-- The thread is on the way to sleep, and holds `ptable.lock`. -/
def Leaving (s : State ι κ Λ δ) (p : ι) (c : κ) : Prop := s.pc p = .both c ∨ s.pc p = .ready c

structure Inv (D : Discipline ι κ Λ δ) (s : State ι κ Λ δ) : Prop where
  locked : s.Locked D
  both : ∀ p c, s.pc p = .both c → D.lockOf c ≠ D.ptable
  cond : ∀ p c, s.Tested p c → s.cond D p c = false
  chan : ∀ p c, s.chan p = some c → s.pc p = .away c ∨ s.pc p = .back c

/-- One thread goes on, and the data stay what they are. -/
theorem Inv.move (h : s.Inv D) (hlocked : s'.Locked D) (hpc : s'.pc = update s.pc p v) (hdata : s'.data = s.data)
    (hboth : ∀ c, v = .both c → D.lockOf c ≠ D.ptable) (hcond : ∀ c, v = .calls c ∨ v = .both c → s.cond D p c = false)
    (hchan : ∀ q ≠ p, s'.chan q = s.chan q) (hself : ∀ c, s'.chan p = some c → v = .away c ∨ v = .back c) : s'.Inv D := by
  have hother : ∀ {q}, q ≠ p → s'.pc q = s.pc q := by
    intro q hq
    rw [hpc, update_of_ne hq]
  have hpcp : s'.pc p = v := by
    rw [hpc, update_self]
  refine ⟨hlocked, fun q c hq => ?_, fun q c hq => ?_, fun q c hq => ?_⟩
  · by_cases hqp : q = p
    · rw [hqp, hpcp] at hq
      exact hboth c hq
    · rw [hother hqp] at hq
      exact h.both q c hq
  · rw [State.cond, hdata]
    by_cases hqp : q = p
    · subst hqp
      rw [Tested, hpcp] at hq
      exact hcond c hq
    · rw [Tested, hother hqp] at hq
      exact h.cond q c hq
  · by_cases hqp : q = p
    · subst hqp
      rw [hpcp]
      exact hself c hq
    · rw [hchan q hqp] at hq
      rw [hother hqp]
      exact h.chan q c hq

omit [DecidableEq ι] in
/-- A thread that is not in `sched` has no channel. -/
theorem Inv.no_chan (h : s.Inv D) (haway : ∀ c, s.pc p ≠ .away c) (hback : ∀ c, s.pc p ≠ .back c) (c : κ) :
    s.chan p ≠ some c := by
  intro hc
  rcases h.chan p c hc with hpc | hpc
  · exact haway c hpc
  · exact hback c hpc

/-- The thread has no channel, and goes on anywhere but to sleep. -/
theorem Inv.plain (h : s.Inv D) (hlocked : s'.Locked D) (hpc : s'.pc = update s.pc p v) (hdata : s'.data = s.data)
    (hchan : s'.chan = s.chan) (hw : s.pc p = w) (hno : ∀ c, w ≠ .away c ∧ w ≠ .back c) (hv : ∀ c, v ≠ .calls c ∧ v ≠ .both c) :
    s'.Inv D := by
  refine h.move hlocked hpc hdata (fun c hc => absurd hc (hv c).2) (fun c hc => ?_) (fun q _ => congrFun hchan q) fun c hc => ?_
  · rcases hc with hc | hc
    · exact absurd hc (hv c).1
    · exact absurd hc (hv c).2
  · rw [hchan] at hc
    exact absurd hc (h.no_chan (fun c' => hw ▸ (hno c').1) (fun c' => hw ▸ (hno c').2) c)

variable [DecidableEq κ] [DecidableEq Λ]

omit [DecidableEq ι] [DecidableEq κ] in
/-- Whoever holds a lock changes the data that it guards. -/
theorem Inv.modify (h : s.Inv D) (hpc : s.pc p = .inside lk) (d : δ) :
    Inv D { s with data := update s.data lk d } := by
  refine ⟨h.locked, h.both, fun q c hq => ?_, h.chan⟩
  -- whoever has tested its condition holds the lock, and that is not `p`
  have hq' : (s.pc q).Holds D (D.lockOf c) := by
    rcases hq with hq | hq
    · have hq : s.pc q = .calls c := hq
      rw [hq]
      rfl
    · have hq : s.pc q = .both c := hq
      rw [hq]
      exact Or.inr rfl
  have hne : D.lockOf c ≠ lk := by
    rintro rfl
    have hp : (s.pc p).Holds D (D.lockOf c) := by
      rw [hpc]
      rfl
    have heq := ((h.locked p _).2 hp).symm.trans ((h.locked q _).2 hq')
    obtain rfl := Option.some.inj heq
    rcases hq with hq | hq
    · cases hpc.symm.trans hq
    · cases hpc.symm.trans hq
  have hold := h.cond q c hq
  rw [State.cond] at hold ⊢
  dsimp only
  rwa [update_of_ne hne]

theorem Inv.step (h : s.Inv D) (hs : Step D s a s') : s'.Inv D := by
  have hlocked := h.locked.step h.both hs
  cases hs with
  | acquire hpc hfree =>
    exact h.plain hlocked rfl rfl rfl hpc (fun _ => ⟨nofun, nofun⟩) fun _ => ⟨nofun, nofun⟩
  | release hpc =>
    exact h.plain hlocked rfl rfl rfl hpc (fun _ => ⟨nofun, nofun⟩) fun _ => ⟨nofun, nofun⟩
  | modify d hpc => exact h.modify hpc d
  | test hpc hcond =>
    refine h.move hlocked rfl rfl nofun ?_ (fun _ _ => rfl) fun c hc =>
      absurd hc (h.no_chan (by rw [hpc]; exact nofun) (by rw [hpc]; exact nofun) c)
    rintro c (hc | hc)
    · exact Pc.calls.inj hc ▸ hcond
    · cases hc
  | @lock p c hpc hlk hfree =>
    refine h.move hlocked rfl rfl (fun c' hc => Pc.both.inj hc ▸ hlk) ?_ (fun _ _ => rfl) fun c hc =>
      absurd hc (h.no_chan (by rw [hpc]; exact nofun) (by rw [hpc]; exact nofun) c)
    rintro c' (hc | hc)
    · cases hc
    · exact Pc.both.inj hc ▸ h.cond p c (Or.inl hpc)
  | skip hpc hlk =>
    exact h.plain hlocked rfl rfl rfl hpc (fun _ => ⟨nofun, nofun⟩) fun _ => ⟨nofun, nofun⟩
  | unlock hpc =>
    exact h.plain hlocked rfl rfl rfl hpc (fun _ => ⟨nofun, nofun⟩) fun _ => ⟨nofun, nofun⟩
  | @enter p c hpc =>
    refine h.move hlocked rfl rfl nofun (by rintro c (hc | hc) <;> cases hc)
      (fun q hq => by simp [hq]) fun c' hc => ?_
    simp only [setPc_chan, release_chan, setRun_chan, setChan_chan, update_self] at hc
    exact Or.inl (congrArg Pc.away (Option.some.inj hc))
  | @dispatch p c hpc hrun hfree =>
    refine h.move hlocked rfl rfl nofun (by rintro c (hc | hc) <;> cases hc) (fun _ _ => rfl) fun c' hc => ?_
    rcases h.chan p c' hc with hp | hp
    · exact Or.inr (congrArg Pc.back (Pc.away.inj (hpc.symm.trans hp)))
    · cases hpc.symm.trans hp
  | @tidy p c hpc hlk =>
    refine h.move hlocked rfl rfl nofun (by rintro c (hc | hc) <;> cases hc)
      (fun q hq => by simp [hq]) fun c' hc => ?_
    simp at hc
  | @tidySame p c hpc hlk =>
    refine h.move hlocked rfl rfl nofun (by rintro c (hc | hc) <;> cases hc)
      (fun q hq => by simp [hq]) fun c' hc => ?_
    simp at hc
  | regain hpc hfree =>
    exact h.plain hlocked rfl rfl rfl hpc (fun _ => ⟨nofun, nofun⟩) fun _ => ⟨nofun, nofun⟩
  | resume hpc =>
    exact h.plain hlocked rfl rfl rfl hpc (fun _ => ⟨nofun, nofun⟩) fun _ => ⟨nofun, nofun⟩
  | wakeup hwake => exact ⟨h.locked, h.both, h.cond, h.chan⟩
  | kill hfree =>
    rw [State.kill]
    split
    · exact ⟨h.locked, h.both, h.cond, h.chan⟩
    · exact h

omit [DecidableEq ι] [DecidableEq κ] [DecidableEq Λ] in
theorem Start.inv (h : s.Start) : s.Inv D := by
  refine ⟨fun p lk => ?_, fun p c hp => ?_, fun p c hp => ?_, fun p c hp => ?_⟩
  · rw [h.held, h.pc]
    exact ⟨nofun, False.elim⟩
  · rw [h.pc] at hp
    cases hp
  · rw [Tested, h.pc] at hp
    rcases hp with hp | hp <;> cases hp
  · rw [h.chan] at hp
    cases hp

theorem reach_inv {ok : State ι κ Λ δ → Event ι κ Λ δ → Prop} (h : (system D).Reach ok s) : s.Inv D :=
  h.invariant (I := Inv D) (fun _ h => h.inv) fun _ _ _ h _ hs => h.step hs

/-! ## No wakeup is lost -/

/-- The thread does not sleep on the channel, and is not on the way to it. -/
structure Up (s : State ι κ Λ δ) (p : ι) (c : κ) : Prop where
  awake : ¬ (s.run p = .sleeping ∧ s.chan p = some c)
  staying : ¬ s.Leaving p c

omit [DecidableEq ι] [DecidableEq Λ] in
/-- After `wakeup`, everybody is up: whoever is on the way to sleep holds `ptable.lock`. -/
theorem Inv.up_wakeup (h : s.Inv D) {r : ι} (hwake : s.MayWake D r) : (s.wakeup1 c).Up p c := by
  constructor
  · rintro ⟨hrun, hchan⟩
    have hrun : (if s.run p = .sleeping ∧ s.chan p = some c then Run.runnable else s.run p) = .sleeping := hrun
    split_ifs at hrun with hp
    exact hp ⟨hrun, hchan⟩
  · intro hp
    have hholds : (s.pc p).Holds D D.ptable := by
      rcases hp with hp | hp
      · have hp : s.pc p = .both c := hp
        rw [hp]
        exact Or.inl rfl
      · have hp : s.pc p = .ready c := hp
        rw [hp]
        rfl
    have hheld := (h.locked p D.ptable).2 hholds
    rcases hwake with hr | ⟨-, hfree⟩
    · have hr' : (s.pc r).Holds D D.ptable := by
        rw [hr]
        rfl
      obtain rfl := Option.some.inj (hheld.symm.trans ((h.locked r D.ptable).2 hr'))
      rcases hp with hp | hp
      · cases hr.symm.trans hp
      · cases hr.symm.trans hp
    · cases hfree.symm.trans hheld

omit [DecidableEq κ] [DecidableEq Λ] in
/-- One thread goes on, and it is not `p` on the way to sleep on `c`. -/
theorem Up.move {r : ι} (h : s.Up p c) (hpc : s'.pc = update s.pc r v) (hleave : r = p → v ≠ .both c ∧ v ≠ .ready c)
    (hrun : s'.run p = .sleeping → s'.chan p = some c → s.run p = .sleeping ∧ s.chan p = some c) : s'.Up p c := by
  refine ⟨fun hs => h.awake (hrun hs.1 hs.2), fun hp => ?_⟩
  rw [Leaving, hpc] at hp
  by_cases hpr : p = r
  · subst hpr
    rw [update_self] at hp
    rcases hp with hp | hp
    · exact (hleave rfl).1 hp
    · exact (hleave rfl).2 hp
  · rw [update_of_ne hpr] at hp
    exact h.staying hp

/-- As long as the condition is true, the thread stays up. -/
theorem Up.step (h : s.Up p c) (hinv : s.Inv D) (hcond : s.cond D p c = true) (hs : Step D s a s') : s'.Up p c := by
  have htested : ¬ s.Tested p c := by
    intro ht
    cases hcond.symm.trans (hinv.cond p c ht)
  cases hs with
  | acquire | release => exact h.move rfl (fun _ => ⟨nofun, nofun⟩) fun h1 h2 => ⟨h1, h2⟩
  | modify d hpc => exact ⟨h.awake, h.staying⟩
  | test hpc hcond => exact h.move rfl (fun _ => ⟨nofun, nofun⟩) fun h1 h2 => ⟨h1, h2⟩
  | @lock r c' hpc hlk hfree =>
    refine h.move rfl ?_ fun h1 h2 => ⟨h1, h2⟩
    rintro rfl
    refine ⟨fun heq => htested ?_, nofun⟩
    rw [← Pc.both.inj heq]
    exact Or.inl hpc
  | @skip r c' hpc hlk =>
    refine h.move rfl ?_ fun h1 h2 => ⟨h1, h2⟩
    rintro rfl
    refine ⟨nofun, fun heq => htested ?_⟩
    rw [← Pc.ready.inj heq]
    exact Or.inl hpc
  | @unlock r c' hpc =>
    refine h.move rfl ?_ fun h1 h2 => ⟨h1, h2⟩
    rintro rfl
    refine ⟨nofun, fun heq => htested ?_⟩
    rw [← Pc.ready.inj heq]
    exact Or.inr hpc
  | @enter r c' hpc =>
    refine h.move rfl (fun _ => ⟨nofun, nofun⟩) fun h1 h2 => ?_
    by_cases hpr : p = r
    · subst hpr
      simp only [setPc_chan, release_chan, setRun_chan, setChan_chan, update_self] at h2
      rw [Option.some.inj h2] at hpc
      exact absurd (Or.inr hpc) h.staying
    · simp [hpr] at h1 h2
      exact ⟨h1, h2⟩
  | @dispatch r c' hpc hrun hfree =>
    refine h.move rfl (fun _ => ⟨nofun, nofun⟩) fun h1 h2 => ?_
    by_cases hpr : p = r
    · simp [hpr] at h1
    · simp [hpr] at h1
      exact ⟨h1, h2⟩
  | @tidy r c' hpc hlk =>
    refine h.move rfl (fun _ => ⟨nofun, nofun⟩) fun h1 h2 => ⟨h1, ?_⟩
    by_cases hpr : p = r
    · simp [hpr] at h2
    · simpa [hpr] using h2
  | @tidySame r c' hpc hlk =>
    refine h.move rfl (fun _ => ⟨nofun, nofun⟩) fun h1 h2 => ⟨h1, ?_⟩
    by_cases hpr : p = r
    · simp [hpr] at h2
    · simpa [hpr] using h2
  | regain | resume => exact h.move rfl (fun _ => ⟨nofun, nofun⟩) fun h1 h2 => ⟨h1, h2⟩
  | wakeup hwake =>
    refine ⟨fun hs => h.awake ⟨?_, hs.2⟩, h.staying⟩
    have hrun := hs.1
    rw [wakeup1] at hrun
    dsimp only at hrun
    split_ifs at hrun
    exact hrun
  | @kill r hfree =>
    rw [State.kill]
    split
    · refine ⟨fun hs => h.awake ⟨?_, hs.2⟩, h.staying⟩
      by_cases hpr : p = r
      · have hrun := hs.1
        simp [hpr] at hrun
      · simpa [hpr] using hs.1
    · exact h

/-- **No wakeup is lost.**  After a call of `wakeup` on the channel, in any number of steps during which its condition is
true, no thread sleeps on the channel; and when `sleep` returns, the lock is held again and there is no channel. -/
theorem no_lost_wakeup (h : (system D).Reach (fun _ _ => True) s) :
    (∀ r p c s₁ s₂, Step D s (.wakeup r c) s₁ → (system D).Steps (fun t _ => t.cond D p c = true) s₁ s₂ →
      ¬ (s₂.run p = .sleeping ∧ s₂.chan p = some c)) ∧
    ∀ p c, s.pc p = .returned c → s.held (D.lockOf c) = some p ∧ s.chan p = none := by
  have hinv := reach_inv h
  refine ⟨fun r p c s₁ s₂ hw hsteps => ?_, fun p c hp => ⟨?_, ?_⟩⟩
  · have hfirst : s₁.Inv D ∧ s₁.Up p c := by
      refine ⟨hinv.step hw, ?_⟩
      cases hw with
      | wakeup hwake => exact hinv.up_wakeup hwake
    refine (hsteps.invariant (I := fun t : State ι κ Λ δ => t.Inv D ∧ t.Up p c) hfirst ?_).2.awake
    rintro t a t' ⟨ht, hup⟩ hcond hs
    exact ⟨ht.step hs, hup.step ht hcond hs⟩
  · refine (hinv.locked p _).2 ?_
    rw [hp]
    rfl
  · refine Option.eq_none_iff_forall_ne_some.2 fun c' => hinv.no_chan ?_ ?_ c'
    · rw [hp]
      exact nofun
    · rw [hp]
      exact nofun

/-- Two threads, and a channel whose lock is not `ptable.lock`. -/
def pair : Discipline (Fin 2) Unit Bool Bool where
  ptable := true
  lockOf _ := false
  cond _ _ d := d

def pairStart : State (Fin 2) Unit Bool Bool := ⟨fun _ => none, fun _ => false, fun _ => .running, fun _ => none, fun _ => .idle⟩

/-- The first thread sleeps; the second one makes the condition true, and wakes it up before it releases the lock. -/
theorem no_lost_wakeup_pair :
    ∃ s s₁, (system pair).Reach (fun _ _ => True) s ∧ s.run 0 = .sleeping ∧ s.chan 0 = some () ∧ s.cond pair 0 () = true ∧
      Step pair s (.wakeup 1 ()) s₁ ∧ ¬ (s₁.run 0 = .sleeping ∧ s₁.chan 0 = some ()) := by
  have hstart : (system pair).Reach (fun _ _ => True) pairStart :=
    .init ⟨fun _ => rfl, fun _ => rfl, fun _ => rfl, fun _ => rfl⟩
  have h1 := hstart.step trivial (.acquire rfl rfl : Step pair _ (.acquire 0 false) _)
  have h2 := h1.step trivial (.test rfl rfl : Step pair _ (.test 0 ()) _)
  have h3 := h2.step trivial (.lock rfl nofun rfl : Step pair _ (.lock 0 ()) _)
  have h4 := h3.step trivial (.unlock rfl : Step pair _ (.unlock 0 ()) _)
  have h5 := h4.step trivial (.enter rfl : Step pair _ (.enter 0 ()) _)
  have h6 := h5.step trivial (.acquire rfl rfl : Step pair _ (.acquire 1 false) _)
  have h7 := h6.step trivial (.modify true rfl : Step pair _ (.modify 1 false true) _)
  refine ⟨_, _, h7, rfl, rfl, rfl, .wakeup (Or.inr ⟨Or.inr ⟨false, rfl⟩, rfl⟩), ?_⟩
  exact (no_lost_wakeup h7).1 1 0 () _ _ (.wakeup (Or.inr ⟨Or.inr ⟨false, rfl⟩, rfl⟩)) Relation.ReflTransGen.refl

end State

end OsLab.Xv6.Sleep
