import OsLab.Xv6.Proc

/-!
# The invariant of the process table

* `Table.Inv` has three parts: who is whose parent (`Family`), who is being made by whom (`Making`), and what
  the pids are (`Numbers`).
* `Mild`: most steps only move processes between sleeping, runnable and running.
* `Inv.take`, `Inv.advance`, `Inv.drop`, `Inv.launch`, `Inv.leave`, `Inv.reap`: the others, from the allocation of a
  process to its end.
-/

namespace OsLab.Xv6.Ptable

open Function

variable {s s' : Table} {p q np : Slot} {v : Proc} {st : PState}

/-- The process exists, and has not exited. -/
def PState.Live (st : PState) : Prop := st = .sleeping ∨ st = .runnable ∨ st = .running

/-- The process that a call of `fork` is making. -/
def Pc.child : Pc → Option Slot
  | .kalloc np | .init np | .copy np | .inherit np | .ready np => some np
  | _ => none

/-- Nobody is made, exits or is reaped. -/
structure Past.Same (a b : Past) : Prop where
  forks : b.forks = a.forks
  born : b.born = a.born
  mother : b.mother = a.mother
  exited : b.exited = a.exited
  reapers : b.reapers = a.reapers

theorem Past.Same.refl (a : Past) : a.Same a := ⟨rfl, rfl, rfl, rfl, rfl⟩

namespace Table

variable {P : Slot → Bool} {v' : Proc} {pc : Pc}

theorem first_eq_some (h : first P = some p) : P p = true := List.find?_some h

/-- The first of the entries is no later than any other. -/
theorem first_isSome (h : P p = true) : (first P).isSome := by
  rw [first, List.find?_isSome]
  exact ⟨p, List.mem_finRange p, h⟩

@[simp] theorem setProc_self (s : Table) (p : Slot) (v : Proc) : (s.setProc p v).proc p = v := update_self ..

theorem setProc_of_ne (s : Table) (v : Proc) (h : q ≠ p) : (s.setProc p v).proc q = s.proc q :=
  update_of_ne h _ _

@[simp] theorem setPc_self (s : Table) (p : Slot) (v : Pc) : (s.setPc p v).pc p = v := update_self ..

theorem setPc_of_ne (s : Table) (v : Pc) (h : q ≠ p) : (s.setPc p v).pc q = s.pc q := update_of_ne h _ _

/-- Who is whose parent. -/
structure Family (s : Table) : Prop where
  init : (s.proc s.initproc).state.Live
  initParent : (s.proc s.initproc).parent = none
  unused : ∀ p, (s.proc p).state = .unused → (s.proc p).parent = none
  parent : ∀ p ≠ s.initproc, (s.proc p).state.Live ∨ (s.proc p).state = .zombie →
    ∃ q, (s.proc p).parent = some q ∧ (s.proc q).state.Live

/-- Who is being made by whom. -/
structure Making (s : Table) : Prop where
  /-- a process that is in `fork` lives, and what it makes is an embryo -/
  child : ∀ p np, (s.pc p).child = some np → (s.proc p).state.Live ∧ (s.proc np).state = .embryo
  unique : ∀ p q np, (s.pc p).child = some np → (s.pc q).child = some np → p = q
  embryo : ∀ np, (s.proc np).state = .embryo → ∃ p, (s.pc p).child = some np
  /-- only processes that live are in a function -/
  pc : ∀ p, ¬ (s.proc p).state.Live → s.pc p = .idle
  /-- the parent of an embryo is set when everything is ready -/
  ready : ∀ p np, (s.pc p).child = some np → if s.pc p = .ready np then (s.proc np).parent = some p else (s.proc np).parent = none

/-- Processes are numbered, and the number gives the pid. -/
structure Numbers (s : Table) : Prop where
  pid : ∀ p, (s.proc p).state ≠ .unused → (s.proc p).pid = BitVec.ofNat 32 (s.past.born p + 1)
  nextpid : s.nextpid = BitVec.ofNat 32 (s.past.forks + 2)
  born : ∀ p, (s.proc p).state ≠ .unused → s.past.born p ≤ s.past.forks
  bornInj : ∀ p q, (s.proc p).state ≠ .unused → (s.proc q).state ≠ .unused → s.past.born p = s.past.born q → p = q

/-- The invariant. -/
structure Inv (s : Table) : Prop extends s.Family, s.Making, s.Numbers

theorem not_live_unused (h : st = .unused) : ¬ st.Live := by
  subst h
  rintro (h | h | h) <;> cases h

theorem not_live_embryo (h : st = .embryo) : ¬ st.Live := by
  subst h
  rintro (h | h | h) <;> cases h

theorem not_live_zombie (h : st = .zombie) : ¬ st.Live := by
  subst h
  rintro (h | h | h) <;> cases h

/-- What a call of `fork` is making. -/
theorem Inv.making (h : s.Inv) (hp : s.pc p = pc) (hc : pc.child = some np) :
    (s.pc p).child = some np ∧ (s.proc np).state = .embryo ∧
      if pc = .ready np then (s.proc np).parent = some p else (s.proc np).parent = none := by
  subst hp
  exact ⟨hc, (h.child p np hc).2, h.ready p np hc⟩

/-! ## What a step has to keep -/

/-- Those who lived live; whoever lives now or has exited has the parent it had, or a parent that lived. -/
theorem Family.of_le (h : s.Family) (hinit : s'.initproc = s.initproc)
    (hlive : ∀ q, (s.proc q).state.Live → (s'.proc q).state.Live)
    (hparent : ∀ q, (s'.proc q).state.Live ∨ (s'.proc q).state = .zombie →
      ((s.proc q).state.Live ∨ (s.proc q).state = .zombie) ∧ (s'.proc q).parent = (s.proc q).parent ∨
        ¬ (s.proc q).state.Live ∧ ∃ r, (s'.proc q).parent = some r ∧ (s.proc r).state.Live)
    (hunused : ∀ q, (s'.proc q).state = .unused → (s'.proc q).parent = none) : s'.Family where
  init := by
    rw [hinit]
    exact hlive _ h.init
  initParent := by
    rw [hinit]
    rcases hparent _ (Or.inl (hlive _ h.init)) with ⟨-, heq⟩ | ⟨hno, -⟩
    · rw [heq]
      exact h.initParent
    · exact absurd h.init hno
  unused := hunused
  parent q hq hst := by
    rw [hinit] at hq
    rcases hparent q hst with ⟨hst', heq⟩ | ⟨-, r, hr, hl⟩
    · obtain ⟨r, hr, hl⟩ := h.parent q hq hst'
      exact ⟨r, by rw [heq, hr], hlive r hl⟩
    · exact ⟨r, hr, hlive r hl⟩

/-- The same calls of `fork` make the same processes. -/
theorem Making.of_eq (h : s.Making) (hchild : ∀ p np, (s'.pc p).child = some np ↔ (s.pc p).child = some np)
    (hfork : ∀ p np, (s.pc p).child = some np → s'.pc p = s.pc p ∧ (s'.proc p).state.Live)
    (hemb : ∀ q, (s'.proc q).state = .embryo ↔ (s.proc q).state = .embryo)
    (hparent : ∀ p np, (s.pc p).child = some np → (s'.proc np).parent = (s.proc np).parent)
    (hpc : ∀ q, ¬ (s'.proc q).state.Live → s'.pc q = .idle) : s'.Making where
  child p np hc := by
    have hc' := (hchild p np).1 hc
    exact ⟨(hfork p np hc').2, (hemb np).2 (h.child p np hc').2⟩
  unique p q np h1 h2 := h.unique p q np ((hchild p np).1 h1) ((hchild q np).1 h2)
  embryo np hnp := by
    obtain ⟨p, hp⟩ := h.embryo np ((hemb np).1 hnp)
    exact ⟨p, (hchild p np).2 hp⟩
  pc := hpc
  ready p np hc := by
    have hc' := (hchild p np).1 hc
    rw [(hfork p np hc').1, hparent p np hc']
    exact h.ready p np hc'

/-- No entry is taken, and nobody's pid changes. -/
theorem Numbers.of_le (h : s.Numbers)
    (hused : ∀ q, (s'.proc q).state ≠ .unused → (s.proc q).state ≠ .unused ∧ (s'.proc q).pid = (s.proc q).pid)
    (hnext : s'.nextpid = s.nextpid) (hforks : s'.past.forks = s.past.forks) (hborn : s'.past.born = s.past.born) :
    s'.Numbers where
  pid q hq := by
    rw [(hused q hq).2, hborn]
    exact h.pid q (hused q hq).1
  nextpid := by
    rw [hnext, hforks]
    exact h.nextpid
  born q hq := by
    rw [hborn, hforks]
    exact h.born q (hused q hq).1
  bornInj q r hq hr heq := by
    rw [hborn] at heq
    exact h.bornInj q r (hused q hq).1 (hused r hr).1 heq

/-! ## Steps that only move processes between sleeping, runnable and running -/

/-- A process changes, and stays what it is. -/
structure Same (v v' : Proc) : Prop where
  parent : v'.parent = v.parent
  pid : v'.pid = v.pid
  state : v'.state = v.state ∨ v.state.Live ∧ v'.state.Live

theorem Same.refl (v : Proc) : Same v v := ⟨rfl, rfl, Or.inl rfl⟩

/-- Nothing happens but that processes that live change how. -/
structure Mild (s s' : Table) : Prop where
  proc : ∀ p, Same (s.proc p) (s'.proc p)
  pc : ∀ p, s'.pc p = s.pc p ∨ (s'.pc p).child = none ∧ (s.pc p).child = none ∧ (s.proc p).state.Live
  nextpid : s'.nextpid = s.nextpid
  initproc : s'.initproc = s.initproc
  past : s.past.Same s'.past

theorem Same.live (h : Same v v') : v'.state.Live ↔ v.state.Live := by
  rcases h.state with heq | ⟨h1, h2⟩
  · rw [heq]
  · exact ⟨fun _ => h1, fun _ => h2⟩

/-- A state in which a process does not live is kept. -/
theorem Same.eq_iff (h : Same v v') (hst : ¬ st.Live) : v'.state = st ↔ v.state = st := by
  rcases h.state with heq | ⟨h1, h2⟩
  · rw [heq]
  · exact ⟨fun hv => absurd (hv ▸ h2) hst, fun hv => absurd (hv ▸ h1) hst⟩

/-- Nobody begins to fork in such a step. -/
theorem Mild.child (h : Mild s s') : (s'.pc p).child = some np ↔ (s.pc p).child = some np := by
  rcases h.pc p with heq | ⟨h1, h2, -⟩
  · rw [heq]
  · rw [h1, h2]

theorem Mild.pc_eq (h : Mild s s') (hc : (s.pc p).child = some np) : s'.pc p = s.pc p := by
  rcases h.pc p with heq | ⟨-, hnone, -⟩
  · exact heq
  · cases hnone.symm.trans hc

theorem Inv.mild (h : s.Inv) (hm : Mild s s') : s'.Inv where
  toFamily := by
    refine h.toFamily.of_le hm.initproc (fun q hq => (hm.proc q).live.2 hq) (fun q hq => Or.inl ?_) fun q hq => ?_
    · rw [(hm.proc q).live, (hm.proc q).eq_iff (not_live_zombie rfl)] at hq
      exact ⟨hq, (hm.proc q).parent⟩
    · rw [(hm.proc q).parent]
      exact h.unused q (((hm.proc q).eq_iff (not_live_unused rfl)).1 hq)
  toMaking := by
    refine h.toMaking.of_eq (fun p np => hm.child) (fun p np hc => ⟨hm.pc_eq hc, (hm.proc p).live.2 (h.child p np hc).1⟩)
      (fun q => (hm.proc q).eq_iff (not_live_embryo rfl)) (fun p np _ => (hm.proc np).parent) fun q hq => ?_
    rw [(hm.proc q).live] at hq
    rcases hm.pc q with heq | ⟨-, -, hlive⟩
    · rw [heq]
      exact h.pc q hq
    · exact absurd hlive hq
  toNumbers := by
    refine h.toNumbers.of_le (fun q hq => ?_) hm.nextpid hm.past.forks hm.past.born
    rw [Ne, (hm.proc q).eq_iff (not_live_unused rfl)] at hq
    exact ⟨hq, (hm.proc q).pid⟩

/-! ## Which steps are of this kind -/

theorem Mild.refl (s : Table) : Mild s s :=
  ⟨fun _ => Same.refl _, fun _ => Or.inl rfl, rfl, rfl, Past.Same.refl _⟩

/-- A change of a single process. -/
theorem mild_setProc (hsame : Same (s.proc p) v) : Mild s (s.setProc p v) := by
  refine ⟨fun q => ?_, fun _ => Or.inl rfl, rfl, rfl, Past.Same.refl _⟩
  by_cases hq : q = p
  · rw [hq, setProc_self]
    exact hsame
  · rw [setProc_of_ne _ _ hq]
    exact Same.refl _

theorem mild_setPc (hpc : pc.child = none) (hno : (s.pc p).child = none) (hlive : (s.proc p).state.Live) :
    Mild s (s.setPc p pc) := by
  refine ⟨fun _ => Same.refl _, fun q => ?_, rfl, rfl, Past.Same.refl _⟩
  by_cases hq : q = p
  · rw [hq, setPc_self]
    exact Or.inr ⟨hpc, hno, hlive⟩
  · exact Or.inl (setPc_of_ne _ _ hq)

theorem same_wake {chan : Option Chan} : Same v (v.wake chan) := by
  rw [Proc.wake]
  split
  · exact ⟨rfl, rfl, Or.inr ⟨Or.inl (by assumption : _ ∧ _).1, Or.inr (Or.inl rfl)⟩⟩
  · exact Same.refl v

theorem same_kill : Same v v.kill := by
  refine ⟨rfl, rfl, ?_⟩
  rw [Proc.kill]
  by_cases hs : v.state = .sleeping
  · exact Or.inr ⟨Or.inl hs, by rw [if_pos hs]; exact Or.inr (Or.inl rfl)⟩
  · exact Or.inl (if_neg hs)

theorem mild_kill (pid : BitVec 32) : Mild s (s.kill pid).2 := by
  rw [kill]
  split
  · exact Mild.refl s
  · exact mild_setProc same_kill

theorem mild_tick (s : Table) : Mild s s.tick :=
  ⟨fun _ => Same.refl _, fun _ => Or.inl rfl, rfl, rfl, ⟨rfl, rfl, rfl, rfl, rfl⟩⟩

theorem mild_updatestatistics (s : Table) : Mild s s.updatestatistics :=
  ⟨fun _ => ⟨rfl, rfl, Or.inl rfl⟩, fun _ => Or.inl rfl, rfl, rfl, ⟨rfl, rfl, rfl, rfl, rfl⟩⟩

/-! ## `fork` -/

/-- A process other than `np` is as it was, and `np` is `v`; the caller `p` goes on at `pc`. -/
structure Moves (s s' : Table) (p np : Slot) (v : Proc) (pc : Pc) : Prop where
  other : ∀ q ≠ np, s'.proc q = s.proc q
  self : s'.proc np = v
  pcOther : ∀ q ≠ p, s'.pc q = s.pc q
  pcSelf : s'.pc p = pc
  initproc : s'.initproc = s.initproc

section Moves

variable {pc : Pc}

/-- An entry in which nobody lives changes, and is no process now that lives or has exited. -/
theorem Moves.family (h : s.Family) (hm : Moves s s' p np v pc) (hnp : ¬ (s.proc np).state.Live)
    (hv : ¬ v.state.Live ∧ v.state ≠ .zombie) (hunused : v.state = .unused → v.parent = none) : s'.Family := by
  have hlivene : ∀ {q}, (s.proc q).state.Live → q ≠ np := by
    rintro q hq rfl
    exact hnp hq
  refine h.of_le hm.initproc (fun q hq => ?_) (fun q hq => Or.inl ?_) fun q hq => ?_
  · rw [hm.other q (hlivene hq)]
    exact hq
  · have hqn : q ≠ np := by
      rintro rfl
      rw [hm.self] at hq
      rcases hq with hq | hq
      · exact hv.1 hq
      · exact hv.2 hq
    rw [hm.other q hqn] at hq ⊢
    exact ⟨hq, rfl⟩
  · by_cases hqn : q = np
    · rw [hqn, hm.self] at hq ⊢
      exact hunused hq
    · rw [hm.other q hqn] at hq ⊢
      exact h.unused q hq

/-- The next stage of `fork`. -/
theorem Inv.advance (h : s.Inv) (hm : Moves s s' p np v pc) (hc : (s.pc p).child = some np)
    (hc' : pc.child = some np) (hstate : v.state = .embryo) (hpid : v.pid = (s.proc np).pid)
    (hparent : if pc = .ready np then v.parent = some p else v.parent = none) (hnext : s'.nextpid = s.nextpid)
    (hpast : s.past.Same s'.past) : s'.Inv := by
  obtain ⟨hlive, hemb⟩ := h.child p np hc
  have hstates : ∀ q, (s'.proc q).state = (s.proc q).state := by
    intro q
    by_cases hq : q = np
    · rw [hq, hm.self, hstate, hemb]
    · rw [hm.other q hq]
  have hpids : ∀ q, (s'.proc q).pid = (s.proc q).pid := by
    intro q
    by_cases hq : q = np
    · rw [hq, hm.self, hpid]
    · rw [hm.other q hq]
  have hchild : ∀ {q c}, (s'.pc q).child = some c ↔ (s.pc q).child = some c := by
    intro q c
    by_cases hq : q = p
    · rw [hq, hm.pcSelf, hc, hc']
    · rw [hm.pcOther q hq]
  refine ⟨hm.family h.toFamily (not_live_embryo hemb) ⟨not_live_embryo hstate, ?_⟩ ?_, ⟨fun q c hq => ?_,
    fun q r c h1 h2 => h.unique q r c (hchild.1 h1) (hchild.1 h2), fun c hcs => ?_, fun q hq => ?_, fun q c hq => ?_⟩,
    h.toNumbers.of_le (fun q hq => ⟨by rwa [hstates] at hq, hpids q⟩) hnext hpast.forks hpast.born⟩
  · rw [hstate]
    exact nofun
  · rw [hstate]
    exact nofun
  · rw [hstates, hstates]
    exact h.child q c (hchild.1 hq)
  · rw [hstates] at hcs
    obtain ⟨q, hq⟩ := h.embryo c hcs
    exact ⟨q, hchild.2 hq⟩
  · rw [hstates] at hq
    have hqp : q ≠ p := by
      rintro rfl
      exact hq hlive
    rw [hm.pcOther q hqp]
    exact h.pc q hq
  · have hcq := hchild.1 hq
    by_cases hqp : q = p
    · subst hqp
      obtain rfl : c = np := Option.mem_unique hcq hc
      rw [hm.pcSelf, hm.self]
      exact hparent
    · -- nobody else makes this embryo
      have hcn : c ≠ np := by
        rintro rfl
        exact hqp (h.unique q p c hcq hc)
      rw [hm.pcOther q hqp, hm.other c hcn]
      exact h.ready q c hcq

theorem moves_take (s : Table) (p np : Slot) :
    Moves s (s.take p np) p np { s.proc np with state := .embryo, pid := s.nextpid } (.kalloc np) :=
  ⟨fun _ hq => setProc_of_ne _ _ hq, setProc_self .., fun _ hq => update_of_ne hq _ _, update_self .., rfl⟩

theorem take_born_self (s : Table) (p np : Slot) : (s.take p np).past.born np = s.past.forks + 1 := update_self ..

theorem take_born_of_ne (s : Table) (p : Slot) (h : q ≠ np) : (s.take p np).past.born q = s.past.born q :=
  update_of_ne h _ _

/-- An entry of the table that nobody uses is taken for the process after the last one. -/
theorem Inv.take (h : s.Inv) (hlive : (s.proc p).state.Live) (hidle : s.pc p = .idle) (hun : (s.proc np).state = .unused) :
    (s.take p np).Inv := by
  have hm := moves_take s p np
  set s' := s.take p np with hs'
  have hnp := not_live_unused hun
  have hlivene : ∀ {q}, (s.proc q).state.Live → q ≠ np := by
    rintro q hq rfl
    exact hnp hq
  have hbornSelf : s'.past.born np = s.past.forks + 1 := take_born_self s p np
  have hbornOther : ∀ q ≠ np, s'.past.born q = s.past.born q := fun q hq => take_born_of_ne s p hq
  have hno : ∀ {q c}, q ≠ p → (s'.pc q).child = some c → (s.pc q).child = some c ∧ c ≠ np := by
    intro q c hq hc
    rw [hm.pcOther q hq] at hc
    refine ⟨hc, ?_⟩
    rintro rfl
    cases hun.symm.trans (h.child q c hc).2
  have hself : ∀ {c}, (s'.pc p).child = some c → c = np := by
    intro c hc
    rw [hm.pcSelf] at hc
    exact (Option.some.inj hc).symm
  refine ⟨hm.family h.toFamily hnp ⟨not_live_embryo rfl, nofun⟩ nofun,
    ⟨fun q c hq => ?_, fun q r c h1 h2 => ?_, fun c hc => ?_, fun q hq => ?_, fun q c hq => ?_⟩,
    ⟨fun q hq => ?_, ?_, fun q hq => ?_, fun q r hq hr heq => ?_⟩⟩
  · by_cases hqp : q = p
    · subst hqp
      obtain rfl := hself hq
      rw [hm.other q (hlivene hlive), hm.self]
      exact ⟨hlive, rfl⟩
    · obtain ⟨hcq, hcn⟩ := hno hqp hq
      obtain ⟨hqlive, hcemb⟩ := h.child q c hcq
      rw [hm.other q (hlivene hqlive), hm.other c hcn]
      exact ⟨hqlive, hcemb⟩
  · by_cases hq : q = p <;> by_cases hr : r = p
    · rw [hq, hr]
    · subst hq
      exact absurd (hself h1) (hno hr h2).2
    · subst hr
      exact absurd (hself h2) (hno hq h1).2
    · exact h.unique q r c (hno hq h1).1 (hno hr h2).1
  · by_cases hcn : c = np
    · subst hcn
      exact ⟨p, by rw [hm.pcSelf]; rfl⟩
    · rw [hm.other c hcn] at hc
      obtain ⟨q, hq⟩ := h.embryo c hc
      have hqp : q ≠ p := by
        rintro rfl
        rw [hidle] at hq
        cases hq
      exact ⟨q, by rw [hm.pcOther q hqp]; exact hq⟩
  · by_cases hqp : q = p
    · subst hqp
      rw [hm.other q (hlivene hlive)] at hq
      exact absurd hlive hq
    · rw [hm.pcOther q hqp]
      refine h.pc q fun hl => hq ?_
      rw [hm.other q (hlivene hl)]
      exact hl
  · by_cases hqp : q = p
    · subst hqp
      obtain rfl := hself hq
      rw [hm.pcSelf, hm.self]
      exact h.unused c hun
    · obtain ⟨hcq, hcn⟩ := hno hqp hq
      rw [hm.pcOther q hqp, hm.other c hcn]
      exact h.ready q c hcq
  · by_cases hqn : q = np
    · subst hqn
      rw [hm.self, hbornSelf]
      exact h.nextpid
    · rw [hm.other q hqn] at hq ⊢
      rw [hbornOther q hqn]
      exact h.pid q hq
  · show s.nextpid + 1 = BitVec.ofNat 32 (s.past.forks + 1 + 2)
    rw [h.nextpid]
    exact (BitVec.ofNat_add (s.past.forks + 2) 1).symm
  · show s'.past.born q ≤ s.past.forks + 1
    by_cases hqn : q = np
    · rw [hqn, hbornSelf]
    · rw [hm.other q hqn] at hq
      rw [hbornOther q hqn]
      exact Nat.le_succ_of_le (h.born q hq)
  · by_cases hqn : q = np <;> by_cases hrn : r = np
    · rw [hqn, hrn]
    · rw [hm.other r hrn] at hr
      rw [hqn, hbornOther r hrn] at heq
      have := h.born r hr
      omega
    · rw [hm.other q hqn] at hq
      rw [hrn, hbornOther q hqn] at heq
      have := h.born q hq
      omega
    · rw [hm.other q hqn] at hq
      rw [hm.other r hrn] at hr
      rw [hbornOther q hqn, hbornOther r hrn] at heq
      exact h.bornInj q r hq hr heq

/-- `fork` ends, and its embryo is none any more. -/
theorem Making.finish (h : s.Making) (hm : Moves s s' p np v .idle) (hc : (s.pc p).child = some np) (hv : v.state ≠ .embryo) :
    s'.Making := by
  have hlivene : ∀ {q}, (s.proc q).state.Live → q ≠ np := by
    rintro q hq rfl
    exact not_live_embryo (h.child p q hc).2 hq
  have hchild : ∀ {q c}, (s'.pc q).child = some c → q ≠ p ∧ (s.pc q).child = some c ∧ c ≠ np := by
    intro q c hcq
    have hqp : q ≠ p := by
      rintro rfl
      rw [hm.pcSelf] at hcq
      cases hcq
    rw [hm.pcOther q hqp] at hcq
    refine ⟨hqp, hcq, ?_⟩
    rintro rfl
    exact hqp (h.unique q p c hcq hc)
  refine ⟨fun q c hq => ?_, fun q r c h1 h2 => h.unique q r c (hchild h1).2.1 (hchild h2).2.1, fun c hcs => ?_,
    fun q hq => ?_, fun q c hq => ?_⟩
  · obtain ⟨-, hcq, hcn⟩ := hchild hq
    obtain ⟨hql, hce⟩ := h.child q c hcq
    rw [hm.other q (hlivene hql), hm.other c hcn]
    exact ⟨hql, hce⟩
  · have hcn : c ≠ np := by
      rintro rfl
      rw [hm.self] at hcs
      exact hv hcs
    rw [hm.other c hcn] at hcs
    obtain ⟨q, hq⟩ := h.embryo c hcs
    have hqp : q ≠ p := by
      rintro rfl
      exact hcn (Option.mem_unique hq hc)
    exact ⟨q, by rw [hm.pcOther q hqp]; exact hq⟩
  · by_cases hqp : q = p
    · rw [hqp, hm.pcSelf]
    · rw [hm.pcOther q hqp]
      refine h.pc q fun hl => hq ?_
      rw [hm.other q (hlivene hl)]
      exact hl
  · obtain ⟨hqp, hcq, hcn⟩ := hchild hq
    rw [hm.pcOther q hqp, hm.other c hcn]
    exact h.ready q c hcq

theorem moves_setState (s : Table) (p np : Slot) (st : PState) :
    Moves s ((s.setState np st).setPc p .idle) p np { s.proc np with state := st } .idle :=
  ⟨fun _ hq => setProc_of_ne _ _ hq, setProc_self .., fun _ hq => setPc_of_ne _ _ hq, setPc_self .., rfl⟩

/-- `fork` gives up. -/
theorem Inv.drop (h : s.Inv) (hc : (s.pc p).child = some np) (hready : s.pc p ≠ .ready np) :
    ((s.setState np .unused).setPc p .idle).Inv := by
  have hm := moves_setState s p np .unused
  have hnp := not_live_embryo (h.child p np hc).2
  have hparent := h.ready p np hc
  rw [if_neg hready] at hparent
  refine ⟨hm.family h.toFamily hnp ⟨not_live_unused rfl, nofun⟩ fun _ => hparent, h.toMaking.finish hm hc nofun,
    h.toNumbers.of_le (fun q hq => ?_) rfl rfl rfl⟩
  · have hqn : q ≠ np := by
      rintro rfl
      rw [hm.self] at hq
      exact hq rfl
    rw [hm.other q hqn] at hq ⊢
    exact ⟨hq, rfl⟩

/-- The new process may run. -/
theorem Inv.launch (h : s.Inv) (hpc : s.pc p = .ready np) : ((s.setState np .runnable).setPc p .idle).Inv := by
  have hm := moves_setState s p np .runnable
  obtain ⟨hc, hemb, hpar⟩ := h.making hpc rfl
  rw [if_pos rfl] at hpar
  have hnp := not_live_embryo hemb
  refine ⟨h.toFamily.of_le hm.initproc (fun q hq => ?_) (fun q hq => ?_) fun q hq => ?_, h.toMaking.finish hm hc nofun,
    h.toNumbers.of_le (fun q hq => ?_) rfl rfl rfl⟩
  · have hqn : q ≠ np := by
      rintro rfl
      exact hnp hq
    rw [hm.other q hqn]
    exact hq
  · by_cases hqn : q = np
    · subst hqn
      rw [hm.self]
      exact Or.inr ⟨hnp, p, hpar, (h.child p q hc).1⟩
    · rw [hm.other q hqn] at hq ⊢
      exact Or.inl ⟨hq, rfl⟩
  · have hqn : q ≠ np := by
      rintro rfl
      rw [hm.self] at hq
      cases hq
    rw [hm.other q hqn] at hq ⊢
    exact h.unused q hq
  · by_cases hqn : q = np
    · rw [hqn, hm.self, hemb]
      exact ⟨nofun, rfl⟩
    · rw [hm.other q hqn] at hq ⊢
      exact ⟨hq, rfl⟩

end Moves

/-! ## `exit` and `wait` -/

section exit

/-- But for the state and the parent, `exit` changes nobody. -/
theorem leave_keeps {α : Type} (f : Proc → α) (hstate : ∀ v st, f { v with state := st } = f v)
    (hparent : ∀ v r, f { v with parent := r } = f v) (s : Table) (p q : Slot) : f ((s.leave p).proc q) = f (s.proc q) := by
  have hab : f ((s.abandon p).proc q) = f (s.proc q) := by
    refine (apply_ite f _ _ _).trans ?_
    rw [hparent, ite_self]
  by_cases hq : q = p
  · subst hq
    exact (congrArg f (setProc_self ..)).trans ((hstate _ _).trans hab)
  · exact (congrArg f (setProc_of_ne _ _ hq)).trans hab

theorem leave_state_self (s : Table) (p : Slot) : ((s.leave p).proc p).state = .zombie :=
  congrArg Proc.state (setProc_self ..)

theorem leave_state_of_ne (s : Table) (h : q ≠ p) : ((s.leave p).proc q).state = (s.proc q).state := by
  refine (congrArg Proc.state (setProc_of_ne _ _ h)).trans ?_
  exact (apply_ite Proc.state _ _ _).trans (ite_self _)

theorem leave_parent (s : Table) (p q : Slot) :
    ((s.leave p).proc q).parent = if (s.proc q).parent = some p then some s.initproc else (s.proc q).parent := by
  have hab : ((s.abandon p).proc q).parent = if (s.proc q).parent = some p then some s.initproc else (s.proc q).parent :=
    apply_ite Proc.parent _ _ _
  by_cases hq : q = p
  · subst hq
    exact (congrArg Proc.parent (setProc_self ..)).trans hab
  · exact (congrArg Proc.parent (setProc_of_ne _ _ hq)).trans hab

/-- A process exits: its children are passed to `init`. -/
theorem Inv.leave (h : s.Inv) (hlive : (s.proc p).state.Live) (hidle : s.pc p = .idle) (hp : p ≠ s.initproc) :
    (s.leave p).Inv := by
  have hself := leave_state_self s p
  have hother : ∀ q ≠ p, ((s.leave p).proc q).state = (s.proc q).state := fun q => leave_state_of_ne s
  have hparent := leave_parent s p
  -- `p` makes nobody, and is made by nobody
  have hchildne : ∀ {q c}, (s.pc q).child = some c → q ≠ p ∧ c ≠ p := by
    intro q c hc
    constructor
    · rintro rfl
      rw [hidle] at hc
      cases hc
    · rintro rfl
      exact not_live_embryo (h.child q c hc).2 hlive
  refine ⟨⟨?_, ?_, fun q hq => ?_, fun q hq hst => ?_⟩,
    h.toMaking.of_eq (fun _ _ => Iff.rfl) (fun q c hc => ⟨rfl, ?_⟩) (fun q => ?_) (fun q c hc => ?_) (fun q hq => ?_),
    h.toNumbers.of_le (fun q hq => ⟨fun hu => ?_, leave_keeps Proc.pid (fun _ _ => rfl) (fun _ _ => rfl) s p q⟩)
      rfl rfl rfl⟩
  · show ((s.leave p).proc s.initproc).state.Live
    rw [hother _ hp.symm]
    exact h.init
  · show ((s.leave p).proc s.initproc).parent = none
    rw [hparent, h.initParent, if_neg nofun]
  · have hqp : q ≠ p := by
      rintro rfl
      cases hself.symm.trans hq
    rw [hother q hqp] at hq
    rw [hparent, h.unused q hq, if_neg nofun]
  · have hst' : (s.proc q).state.Live ∨ (s.proc q).state = .zombie := by
      by_cases hqp : q = p
      · rw [hqp]
        exact Or.inl hlive
      · rwa [hother q hqp] at hst
    obtain ⟨r, hr, hl⟩ := h.parent q hq hst'
    by_cases hrp : r = p
    · refine ⟨s.initproc, ?_, ?_⟩
      · rw [hparent, hr, if_pos (congrArg some hrp)]
      · rw [hother _ hp.symm]
        exact h.init
    · refine ⟨r, ?_, ?_⟩
      · rw [hparent, hr, if_neg fun heq => hrp (Option.some.inj heq)]
      · rw [hother r hrp]
        exact hl
  · rw [hother q (hchildne hc).1]
    exact (h.child q c hc).1
  · by_cases hqp : q = p
    · rw [hqp, hself]
      exact ⟨nofun, fun he => absurd hlive (not_live_embryo he)⟩
    · rw [hother q hqp]
  · rw [hparent]
    refine if_neg fun hcp => ?_
    have hr := h.ready q c hc
    rw [hcp] at hr
    split_ifs at hr
    exact (hchildne hc).1 (Option.some.inj hr).symm
  · by_cases hqp : q = p
    · exact hqp ▸ hidle
    · rw [hother q hqp] at hq
      exact h.pc q hq
  · by_cases hqp : q = p
    · exact not_live_unused (hqp ▸ hu) hlive
    · rw [hother q hqp] at hq
      exact hq hu

theorem moves_reap (s : Table) (p q : Slot) (clear : Proc → Proc) :
    Moves s (s.reap p q clear) p q (clear (s.proc q)) .idle :=
  ⟨fun _ hr => setProc_of_ne _ _ hr, setProc_self .., fun _ hr => setPc_of_ne _ _ hr, setPc_self .., rfl⟩

/-- A child that has exited is reaped. -/
theorem Inv.reap {clear : Proc → Proc} (h : s.Inv) (hno : (s.pc p).child = none)
    (hz : (s.proc q).state = .zombie) (hstate : (clear (s.proc q)).state = .unused)
    (hparent : (clear (s.proc q)).parent = none) : (s.reap p q clear).Inv := by
  set s' := s.reap p q clear with hs'
  have hm : Moves s s' p q (clear (s.proc q)) .idle := moves_reap s p q clear
  have hlivene : ∀ {r}, (s.proc r).state.Live → r ≠ q := by
    rintro r hr rfl
    exact not_live_zombie hz hr
  have hchild : ∀ r c, (s'.pc r).child = some c ↔ (s.pc r).child = some c := by
    intro r c
    by_cases hr : r = p
    · rw [hr, hno, hm.pcSelf]
      rfl
    · rw [hm.pcOther r hr]
  refine ⟨hm.family h.toFamily (not_live_zombie hz) ⟨not_live_unused hstate, ?_⟩ fun _ => hparent,
    h.toMaking.of_eq hchild (fun r c hc => ?_) (fun r => ?_) (fun r c hc => ?_) (fun r hr => ?_),
    h.toNumbers.of_le (fun r hr => ?_) rfl rfl rfl⟩
  · rw [hstate]
    exact nofun
  · have hrp : r ≠ p := by
      rintro rfl
      cases hno.symm.trans hc
    have hl := (h.child r c hc).1
    rw [hm.pcOther r hrp, hm.other r (hlivene hl)]
    exact ⟨rfl, hl⟩
  · by_cases hrq : r = q
    · rw [hrq, hm.self, hstate, hz]
      exact ⟨nofun, nofun⟩
    · rw [hm.other r hrq]
  · have hcq : c ≠ q := by
      rintro rfl
      cases hz.symm.trans (h.child r c hc).2
    rw [hm.other c hcq]
  · by_cases hrp : r = p
    · rw [hrp, hm.pcSelf]
    · rw [hm.pcOther r hrp]
      refine h.pc r fun hl => hr ?_
      rw [hm.other r (hlivene hl)]
      exact hl
  · have hrq : r ≠ q := by
      rintro rfl
      rw [hm.self] at hr
      exact hr hstate
    rw [hm.other r hrq] at hr ⊢
    exact ⟨hr, rfl⟩

end exit

end Table

end OsLab.Xv6.Ptable
