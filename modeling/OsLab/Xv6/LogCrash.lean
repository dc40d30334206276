import OsLab.Xv6.LogPhase

/-!
# The log and crashes

The machine may crash at any moment, also while it recovers.  `CrashInv` says in which phase the log is
and what recovery would make of the disk; every step keeps it.

* `Phase.runs` and `Phase.land`: what the steps of processes and of the disk do to the phases.
* `Whole`: the log writes of an operation are in one group.
* `log_crash_atomic`: wherever the machine stops, recovery yields the first committed groups.
-/

namespace OsLab.Xv6

open Function

/-- The instruction writes outside the log only, and with `log_write`. -/
def Instr.Home : Instr → Prop
  | .logWrite x _ => ¬ InLog x
  | .bwrite _ _ => False
  | _ => True

theorem Instr.home_of_copy {a : Instr} (h : a.isCopy = true ∨ a = .clear ∨ a = .committed ∨ a = .booted) :
    a.Home := by
  rcases h with h | rfl | rfl | rfl
  · cases a <;> trivial
  all_goals trivial

namespace State

variable {N : ℕ} {s s' : State N} {p p' : Fin (N + 1)} {q : Proc} {a : Instr} {rest : List Instr} {i j x y : ℕ}
  {d : Data} {log : Log} {e : Event N}

/-- Calls of file system transactions: `log_write` of blocks outside the log, inside an operation, and
no `bwrite`. -/
def Txn (s : State N) : Event N → Prop
  | .call p a => a.Home ∧ s.InOp (.call p a)
  | _ => True

theorem Txn.inOp (h : s.Txn e) : s.InOp e := by
  cases e with
  | call p a => exact h.2
  | _ => trivial

/-! ## Block numbers -/

theorem give_valid (hv : ((s.give j d).bc.buf i).valid = true) :
    (s.bc.buf i).valid = true ∧ ((s.give j d).bc.buf i).blockno = (s.bc.buf i).blockno := by
  refine ⟨?_, congrArg Prod.snd (s.give_ident j i d)⟩
  by_cases hij : i = j
  · subst hij
    rwa [give, Bcache.modifyBuf_self] at hv
  · rwa [give, Bcache.modifyBuf_of_ne hij] at hv

theorem Exec.valid (he : s.Exec p q a s') (h : s.BioInv) (hv : (s'.bc.buf i).valid = true) :
    (s.bc.buf i).valid = true ∧ (s'.bc.buf i).blockno = (s.bc.buf i).blockno := by
  cases he with
  | @bread x j c hb =>
    change (c.buf i).valid = true at hv
    show _ ∧ (c.buf i).blockno = _
    rcases h.bget_cases hb with ⟨-, -, -, rfl⟩ | ⟨-, -, rfl⟩
    · exact ⟨hv, rfl⟩
    · by_cases hij : i = j
      · subst hij
        rw [Bcache.recycle_buf_self] at hv
        cases hv
      · rw [Bcache.recycle_buf_of_ne hij] at hv ⊢
        exact ⟨hv, rfl⟩
  | write => exact give_valid hv
  | _ => exact ⟨hv, rfl⟩

/-- A process does not make a buffer valid. -/
theorem Runs.valid (hr : s.Runs p s') (h : s.BioInv) (hv : (s'.bc.buf i).valid = true) :
    (s.bc.buf i).valid = true ∧ (s'.bc.buf i).blockno = (s.bc.buf i).blockno := by
  cases hr with
  | exec _ _ he => exact he.valid h hv
  | @unref j =>
    change ((s.bc.unref j).buf i).valid = true at hv
    show _ ∧ ((s.bc.unref j).buf i).blockno = _
    rw [Bcache.unref_buf] at hv ⊢
    exact ⟨hv, rfl⟩
  | append => exact give_valid hv
  | _ => exact ⟨hv, rfl⟩

theorem commit_home (ha : a ∈ commit log) : a.Home := by
  obtain ⟨l1, l2, heq⟩ := List.append_of_mem ha
  rcases commit_suffix (a := a) ⟨l1, heq.symm⟩ with ⟨h | h, -⟩ | ⟨h, -⟩
  · exact Instr.home_of_copy (Or.inl h)
  · exact Instr.home_of_copy (Or.inr (Or.inl h))
  · exact Instr.home_of_copy (Or.inr (Or.inr (Or.inl h)))

theorem recoverRest_home {n : ℕ} {block : ℕ → ℕ} (ha : a ∈ recoverRest n block) : a.Home := by
  obtain ⟨l1, l2, heq⟩ := List.append_of_mem ha
  rcases recoverRest_suffix (a := a) ⟨l1, heq.symm⟩ with ⟨h | h, -⟩ | ⟨h, -⟩
  · exact Instr.home_of_copy (Or.inl h)
  · exact Instr.home_of_copy (Or.inr (Or.inl h))
  · exact Instr.home_of_copy (Or.inr (Or.inr (Or.inr h)))

/-- An instruction leaves the other processes alone. -/
theorem Exec.others (he : s.Exec p q a s') (hp : p' ≠ p) : s'.proc p' = s.proc p' := by
  cases he <;> exact update_of_ne hp _ _

theorem Runs.others (hr : s.Runs p s') (hp : p' ≠ p) : s'.proc p' = s.proc p' := by
  cases hr with
  | exec _ _ he => exact he.others hp
  | _ => exact update_of_ne hp _ _

theorem Exec.todo (he : s.Exec p q a s') (hq : ∀ b ∈ q.todo, b.Home) : ∀ b ∈ (s'.proc p).todo, b.Home := by
  cases he with
  | readHead =>
    rw [setProc_proc]
    exact fun b hb => recoverRest_home hb
  | endOpLast =>
    rw [setProc_proc]
    exact fun b hb => commit_home hb
  | _ =>
    rw [setProc_proc]
    exact hq

/-- What the layers above may not do is not done by a commit or recovery either. -/
theorem Runs.todo (hr : s.Runs p s') (h : ∀ b ∈ (s.proc p).todo, b.Home) : ∀ b ∈ (s'.proc p).todo, b.Home := by
  cases hr with
  | exec _ htodo he =>
    rw [htodo] at h
    exact he.todo fun b hb => h b (List.mem_cons_of_mem _ hb)
  | _ =>
    rw [setProc_proc]
    exact h

theorem Exec.appends (he : s.Exec p q a s') (hq : q.pc = .ready) (hpc : (s'.proc p).pc = .appending i d) :
    a = .logWrite (s.bc.buf i).blockno d ∧ s'.bc = s.bc := by
  cases he with
  | logWrite hold =>
    rw [setProc_proc] at hpc
    obtain ⟨rfl, rfl⟩ := Pc.appending.inj hpc
    rw [(holding_eq_some hold).2.2.1]
    exact ⟨rfl, rfl⟩
  | bread | write | brelse =>
    rw [setProc_proc] at hpc
    cases hpc
  | _ =>
    rw [setProc_proc] at hpc
    cases hq.symm.trans hpc

/-- A process that comes to enter a block in the header has been told to. -/
theorem Runs.appends (hr : s.Runs p s') (hpc : (s'.proc p).pc = .appending i d) :
    .logWrite (s.bc.buf i).blockno d ∈ (s.proc p).todo ∧ s'.bc = s.bc := by
  cases hr with
  | exec hready htodo he =>
    obtain ⟨rfl, hbc⟩ := he.appends hready hpc
    rw [htodo]
    exact ⟨List.mem_cons_self, hbc⟩
  | _ =>
    rw [setProc_proc] at hpc
    cases hpc

theorem head_append {queue tail : List ℕ} (h : queue ++ [j] = i :: tail) :
    (∃ tail', queue = i :: tail') ∨ queue = [] ∧ i = j := by
  cases queue with
  | nil => exact Or.inr ⟨rfl, (List.cons.inj h).1.symm⟩
  | cons k queue =>
    obtain ⟨rfl, -⟩ := List.cons.inj h
    exact Or.inl ⟨_, rfl⟩

/-- The disk works on the same request, or begins with one that it can start. -/
theorem Runs.queue (hr : s.Runs p s') {tail : List ℕ} (hq : s'.idequeue = i :: tail) :
    (∃ tail', s.idequeue = i :: tail') ∨ (s'.bc.buf i).blockno < fssize := by
  cases hr with
  | exec _ _ he =>
    cases he with
    | write _ hstart =>
      rcases head_append hq with hsame | ⟨hnil, rfl⟩
      · exact Or.inl hsame
      · refine Or.inr (lt_of_eq_of_lt ?_ (hstart hnil))
        exact congrArg Prod.snd (s.give_ident i i _)
    | _ => exact Or.inl ⟨_, hq⟩
  | submit _ _ hstart =>
    rcases head_append hq with hsame | ⟨hnil, rfl⟩
    · exact Or.inl hsame
    · exact Or.inr (hstart hnil)
  | _ => exact Or.inl ⟨_, hq⟩

/-- Block numbers that are used: those logged are outside the log, and those of valid buffers and of the
request that the disk works on are on the disk. -/
structure HomeInv (s : State N) : Prop where
  todo : ∀ p, ∀ a ∈ (s.proc p).todo, a.Home
  appends : ∀ p i d, (s.proc p).pc = .appending i d → ¬ InLog (s.bc.buf i).blockno
  valid : ∀ i, (s.bc.buf i).valid = true → (s.bc.buf i).blockno < fssize
  queue : ∀ i rest, s.idequeue = i :: rest → (s.bc.buf i).blockno < fssize

theorem boot_homeInv (disk : ℕ → Data) (hist : History) : (boot disk hist : State N).HomeInv where
  todo p a ha := by
    by_cases hp : p = 0
    · have hmem : a ∈ initlog := by simpa only [boot, hp, if_pos] using ha
      simp only [initlog, List.mem_cons, List.not_mem_nil, or_false] at hmem
      obtain rfl | rfl | rfl | rfl := hmem <;> trivial
    · simp only [boot, hp, if_false, List.not_mem_nil] at ha
  appends p i d hpc := nomatch hpc
  valid i hv := by
    cases hv
  queue i rest hq := nomatch hq

theorem HomeInv.runs (h : s.HomeInv) (hbio : s.BioInv) (hs : s.step (.run p) = some s') : s'.HomeInv := by
  have hr := run_eq_some hs
  refine ⟨fun p' => ?_, fun p' i d hpc => ?_, fun i hv => ?_, fun i tail hq => ?_⟩
  · by_cases hp : p' = p
    · subst hp
      exact hr.todo (h.todo p')
    · rw [hr.others hp]
      exact h.todo p'
  · by_cases hp : p' = p
    · subst hp
      obtain ⟨hmem, hbc⟩ := hr.appends hpc
      rw [hbc]
      exact h.todo p' _ hmem
    · rw [hr.others hp] at hpc
      have hok := hbio.pcs p'
      rw [PcOk, hpc] at hok
      rw [hbio.blockno_of_refs hs (by simp) (BioInv.refs_of_held hok)]
      exact h.appends p' i d hpc
  · obtain ⟨hvalid, hblock⟩ := hr.valid hbio hv
    rw [hblock]
    exact h.valid i hvalid
  · rcases hr.queue hq with ⟨tail', hq'⟩ | hlt
    · obtain ⟨p', r, hwait⟩ := hbio.queued i (by rw [hq']; exact List.mem_cons_self)
      have hrefs := (hbio.waiting_owns hwait).trans_le (Proc.owns_le_refs i _)
      rw [hbio.blockno_of_refs hs (by simp) hrefs]
      exact h.queue i tail' hq'
    · exact hlt

theorem transfer_blockno : ((s.transfer i).bc.buf j).blockno = (s.bc.buf j).blockno :=
  congrArg Prod.snd (s.transfer_ident i j)

theorem HomeInv.intr (h : s.HomeInv) (hs : s.ideintr = some s') : s'.HomeInv := by
  have hnext : ∀ j tail, s'.idequeue = j :: tail → s'.canStart j := by
    intro j tail hq
    unfold ideintr at hs
    split at hs
    · cases hs
    · dsimp only at hs
      split at hs
      · obtain rfl := Option.some.inj hs
        cases hq
      · split_ifs at hs with hstart
        obtain rfl := Option.some.inj hs
        obtain ⟨rfl, -⟩ := List.cons.inj hq
        exact hstart
  obtain ⟨i, rest, hqueue, rfl⟩ := ideintr_eq_some hs
  obtain ⟨-, -, hproc⟩ := transfer_frame s i
  refine ⟨fun p => ?_, fun p j d hpc => ?_, fun j hv => ?_, hnext⟩
  · rw [hproc]
    exact h.todo p
  · rw [hproc] at hpc
    rw [transfer_blockno]
    exact h.appends p j d hpc
  · rw [transfer_blockno]
    by_cases hji : j = i
    · subst hji
      exact h.queue j rest hqueue
    · refine h.valid j ?_
      rw [transfer] at hv
      split at hv
      · rwa [Bcache.modifyBuf_of_ne hji] at hv
      · rwa [Bcache.modifyBuf_of_ne hji] at hv

theorem HomeInv.step (h : s.HomeInv) (hbio : s.BioInv) (hok : s.Txn e) (hs : s.step e = some s') :
    s'.HomeInv := by
  cases e with
  | call p a =>
    obtain ⟨-, -, -, -, rfl⟩ := step_call hs
    refine ⟨forall_setProc (P := fun _ q => ∀ a ∈ q.todo, a.Home) ?_ h.todo, ?_, h.valid, h.queue⟩
    · intro b hb
      rw [List.mem_singleton.1 hb]
      exact hok.1
    · exact forall_setProc (P := fun _ q => ∀ i d, q.pc = .appending i d → ¬ InLog (s.bc.buf i).blockno)
        (h.appends p) h.appends
  | run p => exact h.runs hbio hs
  | intr => exact h.intr hs
  | crash =>
    obtain rfl := Option.some.inj hs
    exact boot_homeInv _ _

/-! ## Steps of processes -/

section Phase

variable {base disk : ℕ → Data} {n c : ℕ} {block : ℕ → ℕ} {fin : Instr} {st : Stage} {hist : History}

theorem pend_of_pc (h : ∀ i, (s.proc p).pc ≠ .waiting i none) : s.pend p = none := by
  unfold pend
  split
  · exact absurd ‹_› (h _)
  · rfl

theorem pend_of_ready (h : (s.proc p).pc = .ready) : s.pend p = none :=
  pend_of_pc fun _ hno => nomatch h.symm.trans hno

/-- A process goes on without giving a block new contents. -/
theorem Phase.go (h : s.Phase base) (hbio : s.BioInv) (hs : s.step (.run p) = some s') (hquiet : s.Quiet s')
    (hbefore : ∀ x, s.pend p = some x → ¬ s.Lag x) (hafter : ∀ i, (s'.proc p).pc ≠ .waiting i none)
    (hpops : s.Pops s' p) : s'.Phase base := by
  have hother := fun p' (hp : p' ≠ p) => (run_eq_some hs).others hp
  refine h.settle hbio ⟨hquiet, fun p' => ?_⟩ hpops fun p' hp => ?_
  · by_cases hp : p' = p
    · subst hp
      exact Or.inr ⟨pend_of_pc hafter, hbefore⟩
    · exact Or.inl (pend_congr hbio hs nofun (by rw [hother p' hp]))
  · rw [hother p' hp]
    exact ⟨rfl, rfl⟩

/-- A process that waits for nothing changes nothing in what is waited for. -/
theorem pend_ready (hbio : s.BioInv) (hs : s.step (.run p) = some s') (hpc : (s.proc p).pc = .ready)
    (hpc' : (s'.proc p).pc = .ready) (p' : Fin (N + 1)) : s'.pend p' = s.pend p' := by
  by_cases hp : p' = p
  · rw [hp, pend_of_ready hpc, pend_of_ready hpc']
  · exact pend_congr hbio hs nofun (by rw [(run_eq_some hs).others hp])

theorem Script.not_client {l : List Instr} (h : Script n block fin st l) (hends : fin = .committed ∨ fin = .booted) :
    ¬ Client l := by
  intro hc
  cases h with
  | fin => rcases hends with rfl | rfl <;> cases hc.pop.2
  | bread h | brelse h | copyOut _ h | head h | copyIn _ h | clear h | clearHead h => exact h.ne_nil hc.pop.1

theorem Copier.not_client (h : s.Copier p n block fin st) : ¬ Client (s.proc p).todo := h.script.not_client h.ends

/-- When the machine is up and does not commit, log writes are collected. -/
theorem Phase.collects (h : s.Phase base) (hop : s.OpInv) (hup : s.up = true) (hcom : s.log.committing = false) :
    s.Collecting base := by
  have hno : ∀ {p n block fin st}, ¬ s.Copier p n block fin st := by
    intro p n block fin st hc
    rcases hop.mode p with hclient | ⟨-, hyes, -⟩ | ⟨hdown, -⟩
    · exact hc.not_client hclient
    · cases hcom.symm.trans hyes
    · cases hup.symm.trans hdown
  cases h with
  | collecting h => exact h
  | writing h | heading h | installing h | cleared h | done h => exact absurd h.toCopier hno
  | reading h => cases hup.symm.trans h.up

/-- What a buffer that a process holds has in it. -/
theorem BioInv.data_of_holding (h : s.BioInv) (hi : s.holding p x = some i) :
    (s.bc.buf i).blockno = x ∧ (s.bc.buf i).data = s.hist.last x := by
  obtain ⟨hheld, hdev, hx, -⟩ := holding_eq_some hi
  refine ⟨hx, ?_⟩
  rw [h.data i (h.lt_of_refs (refs_of_held hheld)).1 hdev (h.held p i hheld), hx]

theorem BioInv.writes_copy (h : s.BioInv) {dst src : ℕ} (hw : s.writes p (.bwriteCopy dst src) = some (i, d)) :
    (s.bc.buf i).blockno = dst ∧ d = s.hist.last src := by
  obtain ⟨j, hj, hrest⟩ := Option.bind_eq_some_iff.1 hw
  obtain ⟨k, hk, heq⟩ := Option.map_eq_some_iff.1 hrest
  obtain ⟨rfl, rfl⟩ := Prod.mk.inj heq
  exact ⟨(h.data_of_holding hj).1, (h.data_of_holding hk).2⟩

theorem BioInv.writes_head (h : s.BioInv) (hw : s.writes p .bwriteHead = some (i, d)) :
    (s.bc.buf i).blockno = logstart ∧ d = s.headWords (s.hist.last logstart) := by
  obtain ⟨j, hj, heq⟩ := Option.map_eq_some_iff.1 hw
  obtain ⟨rfl, rfl⟩ := Prod.mk.inj heq
  obtain ⟨hblock, hdata⟩ := h.data_of_holding hj
  exact ⟨hblock, by rw [hdata]⟩

theorem gives_of_write (hbio : s.BioInv) (hpc : (s.proc p).pc = .ready) (hx : (s.bc.buf i).blockno = x)
    {d' : Data} (hd : d = d') {queue : List ℕ}
    (hs : s.step (.run p) = some (({ s.give i d with idequeue := queue }).setProc p { q with pc := .waiting i none })) :
    s.Gives (({ s.give i d with idequeue := queue }).setProc p { q with pc := .waiting i none }) p x d' := by
  subst hx hd
  exact {
    log := rfl
    disk := rfl
    last := rfl
    current := rfl
    groups := rfl
    durable := rfl
    lag := fun y => lag_give
    idle := pend_of_ready hpc
    pend := by
      rw [State.pend, setProc_proc]
      exact congrArg some (congrArg Prod.snd (s.give_ident i i d))
    others := fun p' hp => pend_congr hbio hs nofun (by rw [setProc_of_ne _ _ hp]; rfl) }

/-- The commit or recovery is over. -/
theorem Done.collect (h : s.Done base p n block fin) (hp : s.pend p = none) (hn : s'.log.n = s.log.n)
    (hcom : s'.log.committing = false) (hup : s'.up = true) (hlast : s'.hist.last = s.hist.last)
    (hcurrent : s'.hist.current = s.hist.current) (hgroups : s'.hist.groups = s.hist.groups)
    (hdurable : s'.hist.durable = s.hist.durable) (hlag : ∀ x, s'.Lag x ↔ s.Lag x)
    (hpend : ∀ p', s'.pend p' = s.pend p') : s'.Collecting base := by
  have hnone : ∀ x, ¬ Lists s'.log x := by
    rintro x ⟨i, hi, -⟩
    rw [hn, h.log] at hi
    exact Nat.not_lt_zero i hi
  refine ⟨hup, hcom, fun p' => ?_, ?_, ?_, fun x hx => ?_, fun x => ?_, fun x hx => absurd hx (hnone x), ?_⟩
  · rw [hpend]
    by_cases hp' : p' = p
    · rw [hp', hp]
    · exact h.others p' hp'
  · rw [hlast]
    exact h.clean
  · rw [hdurable, hgroups, h.durable]
  · rw [hlast, hgroups, hcurrent, h.current]
    exact h.contents x hx
  · refine ⟨fun hx => ?_, fun hx => absurd hx (hnone x)⟩
    have hno := h.lag x ((hlag x).1 hx)
    rw [hp] at hno
    cases hno
  · rw [hcurrent, h.current]
    exact nofun

/-- Recovery has read the header. -/
theorem Reading.readHead (h : s.Reading) (hbio : s.BioInv) (hhead : HeaderOk s.disk)
    (hi : s.holding p logstart = some i) (hpend : ∀ p', s'.pend p' = s.pend p')
    (hs : s' = ({ s with log := { s.log with
        n := (headOf (s.bc.buf i).data).1
        block := (headOf (s.bc.buf i).data).2 } }).setProc p
      { q with todo := recoverRest (headOf (s.bc.buf i).data).1 (headOf (s.bc.buf i).data).2 }) :
    s'.Installing p (headOf (s.bc.buf i).data).1 (headOf (s.bc.buf i).data).2 .booted 0 := by
  have hlast : (s.bc.buf i).data = s.hist.last logstart := (hbio.data_of_holding hi).2
  have hdisk : s.disk logstart = (s.bc.buf i).data := by
    rw [disk_of_not_lag hbio (h.lag logstart), hlast]
  have hfits := hhead.fits
  have hinj := hhead.inj
  rw [HeaderFits, hdisk] at hfits
  rw [hdisk] at hinj
  subst hs
  refine ⟨⟨?_, fun p' _ => ?_, h.current, hfits.2, hinj, Or.inr rfl⟩, hfits.1, ?_, h.durable, by simp, fun x hx => ?_,
    fun x hx => ?_⟩
  · rw [setProc_proc]
    exact script_recoverRest
  · rw [hpend, h.calm]
  · rw [hlast]
    exact ⟨rfl, fun _ _ => rfl⟩
  · exact absurd hx (h.lag x)
  · rw [hpend, h.calm] at hx
    cases hx

/-- Steps of a commit or of recovery that do something to the log. -/
theorem Phase.special (h : s.Phase base) (hbio : s.BioInv) (hop : s.OpInv) (hhead : HeaderOk s.disk)
    (hrec : ∀ x, ¬ InLog x → recover s.disk x = applyGroups base (s.hist.groups.take s.hist.durable) x)
    (hs : s.step (.run p) = some s') (hpc : (s.proc p).pc = .ready) (htodo : (s.proc p).todo = a :: rest)
    (hqt : q.todo = rest) (hqpc : q.pc = .ready) (he : s.Exec p q a s') (hnc : ¬ Client (s.proc p).todo)
    (hread : ∀ x, a ≠ .bread x) (hrelse : ∀ x, a ≠ .brelse x) : s'.Phase base := by
  have hidle : s.pend p = none := pend_of_ready hpc
  have hothers : ∀ p' ≠ p, s'.pend p' = s.pend p' := fun p' hp =>
    pend_congr hbio hs nofun (by rw [(run_eq_some hs).others hp])
  have hsame := pend_ready hbio hs hpc
  cases h with
  | collecting h =>
    rcases hop.mode p with hc | ⟨-, hcom, -⟩ | ⟨hdown, -⟩
    · exact absurd hc hnc
    · cases h.committing.symm.trans hcom
    · cases h.up.symm.trans hdown
  | @writing p0 n block c h =>
    obtain rfl := hop.one p0 p h.not_client hnc
    have hn : n ≤ nlog - 1 := by
      refine h.size.resolve_right fun ⟨_, _, _, rest', hbread⟩ => ?_
      rw [htodo] at hbread
      exact hread _ (List.cons.inj hbread).1
    have hscript := h.script
    rw [htodo] at hscript
    cases hscript with
    | bread => exact absurd rfl (hread _)
    | brelse => exact absurd rfl (hrelse _)
    | copyOut hc hrest =>
      cases he with
      | write hw =>
        obtain ⟨hdst, hsrc⟩ := hbio.writes_copy hw
        refine .writing (h.copyOut hn hc (gives_of_write hbio hpc hdst hsrc hs) ?_)
        rw [setProc_proc]
        exact hqt ▸ hrest
    | head hrest =>
      cases he with
      | write hw =>
        obtain ⟨hdst, hsrc⟩ := hbio.writes_head hw
        refine .heading (h.head hbio hn (gives_of_write hbio hpc hdst hsrc hs) ?_)
        rw [setProc_proc]
        exact hqt ▸ hrest
  | @heading p0 n block h =>
    -- the header is still being written
    obtain rfl := hop.one p0 p h.not_client hnc
    cases hidle.symm.trans h.pending
  | @installing p0 n block fin c h =>
    obtain rfl := hop.one p0 p h.not_client hnc
    have hscript := h.script
    rw [htodo] at hscript
    cases hscript with
    | bread => exact absurd rfl (hread _)
    | brelse => exact absurd rfl (hrelse _)
    | copyIn hc hrest =>
      cases he with
      | write hw =>
        obtain ⟨hdst, hsrc⟩ := hbio.writes_copy hw
        refine .installing (h.copyIn hc (gives_of_write hbio hpc hdst hsrc hs) ?_)
        rw [setProc_proc]
        exact hqt ▸ hrest
    | clear hrest =>
      cases he with
      | write hw => cases hw
      | clear => exact .cleared (h.clear hidle rfl (hqt ▸ hrest) hqpc hothers rfl)
  | @cleared p0 n block fin h =>
    obtain rfl := hop.one p0 p h.not_client hnc
    have hscript := h.script
    rw [htodo] at hscript
    cases hscript with
    | bread => exact absurd rfl (hread _)
    | brelse => exact absurd rfl (hrelse _)
    | clearHead hrest =>
      cases he with
      | write hw =>
        obtain ⟨hdst, hsrc⟩ := hbio.writes_head hw
        refine .done (h.clearHead hbio hhead hrec (gives_of_write hbio hpc hdst hsrc hs) ?_)
        rw [setProc_proc]
        exact hqt ▸ hrest
  | @done p0 n block fin h =>
    obtain rfl := hop.one p0 p h.not_client hnc
    have hscript := h.script
    rw [htodo] at hscript
    cases hscript with
    | bread => exact absurd rfl (hread _)
    | brelse => exact absurd rfl (hrelse _)
    | fin =>
      rcases h.ends with rfl | rfl
      · have hup : s.up = true := by
          rcases hop.mode p0 with hc | ⟨hup, -⟩ | ⟨-, -, hboot⟩
          · exact absurd hc hnc
          · exact hup
          · rw [htodo] at hboot
            rcases hboot.head with hno | hno | hno | hno <;> cases hno
        cases he with
        | write hw => cases hw
        | committed =>
          refine .collecting (h.collect hidle rfl rfl hup rfl rfl rfl rfl (fun _ => Iff.rfl) (hsame ?_))
          rw [setProc_proc]
          exact hqpc
      · have hcom : s.log.committing = false := by
          rcases hop.mode p0 with hc | ⟨-, -, hcom⟩ | ⟨hdown, -, -⟩
          · exact absurd hc hnc
          · rw [htodo] at hcom
            rcases hcom.head with hno | hno | hno <;> cases hno
          · exact (hop.booting hdown).2.1
        cases he with
        | write hw => cases hw
        | booted =>
          refine .collecting (h.collect hidle rfl hcom rfl rfl rfl rfl rfl (fun _ => Iff.rfl) (hsame ?_))
          rw [setProc_proc]
          exact hqpc
  | reading h =>
    obtain ⟨-, -, hzero, -⟩ := hop.booting h.up
    obtain rfl := hop.one 0 p hzero hnc
    have hmem : a ∈ initlog := h.todo.subset (by rw [htodo]; exact List.mem_cons_self)
    simp only [initlog, List.mem_cons, List.not_mem_nil, or_false] at hmem
    obtain rfl | rfl | rfl | rfl := hmem
    · exact absurd rfl (hread _)
    · exact absurd rfl (hrelse _)
    · exact absurd rfl (hread _)
    · cases he with
      | write hw => cases hw
      | readHead hi =>
        refine .installing (h.readHead hbio hhead hi (hsame ?_) rfl)
        exact hqpc

/-- An operation begins, or ends while others are in progress. -/
theorem Collecting.changeOp (h : s.Collecting base) (hn : log.n = s.log.n)
    (hblock : log.block = s.log.block) (hcom : log.committing = false) (hlast : hist.last = s.hist.last)
    (hcurrent : hist.current = s.hist.current) (hgroups : hist.groups = s.hist.groups)
    (hdurable : hist.durable = s.hist.durable)
    (hpend : ∀ p', (({ s with log := log, hist := hist }).setProc p q).pend p' = s.pend p') :
    (({ s with log := log, hist := hist }).setProc p q).Collecting base := by
  have hlists : ∀ x, Lists log x ↔ Lists s.log x := fun x => by
    unfold Lists
    rw [hn, hblock]
  refine ⟨h.up, hcom, fun p' => ?_, ?_, ?_, fun x hx => ?_, fun x => ?_, fun x hx => ?_, fun w hw => ?_⟩
  · rw [hpend, h.calm]
  · show (headOf (hist.last logstart)).1 = 0
    rw [hlast]
    exact h.clean
  · show hist.durable = hist.groups.length
    rw [hdurable, hgroups]
    exact h.durable
  · show hist.last x = applyGroup (applyGroups base hist.groups) hist.current x
    rw [hlast, hgroups, hcurrent]
    exact h.contents x hx
  · exact (h.lag x).trans (hlists x).symm
  · exact h.home x ((hlists x).1 hx)
  · change w ∈ hist.current at hw
    rw [hcurrent] at hw
    exact (hlists _).2 (h.current w hw)

theorem inj_of_nodup (h : ((List.range log.n).map log.block).Nodup) :
    ∀ i < log.n, ∀ j < log.n, log.block i = log.block j → i = j := fun _ hi _ hj heq =>
  List.inj_on_of_nodup_map h (List.mem_range.2 hi) (List.mem_range.2 hj) heq

/-- The last operation ends, and there is something to commit. -/
theorem Collecting.writes (h : s.Collecting base) (hop : s.OpInv) (hn : 0 < s.log.n)
    (hlog : log.n = s.log.n) (hblock : log.block = s.log.block) (hq : q.todo = commit s.log) (hpc : q.pc = .ready)
    (hpend : ∀ p', s'.pend p' = s.pend p')
    (hs : s' = ({ s with
      log := log
      hist := { s.hist with groups := s.hist.groups ++ [s.hist.current], current := [] } }).setProc p q) :
    s'.Writing base p s.log.n s.log.block 0 := by
  subst hs
  refine ⟨⟨?_, fun p' _ => ?_, rfl, fun i hi => h.home _ ⟨i, hi, rfl⟩, inj_of_nodup (hop.nodup h.up), Or.inl rfl⟩, ?_,
    ⟨hlog, hblock⟩, hn, h.clean, ?_, fun x hx => ?_, nofun, fun x hx => ?_, fun i hi => ?_, fun x hx => ?_⟩
  · rw [setProc_proc, hq]
    exact script_commit hn
  · rw [hpend, h.calm]
  · by_cases hsmall : s.log.n ≤ nlog - 1
    · exact Or.inl hsmall
    · refine Or.inr ⟨?_, rfl, ?_, ?_⟩
      · rw [show nlog - 1 = 29 from rfl] at hsmall
        rw [show nbuf = 30 from rfl]
        omega
      · rw [setProc_proc, hpc]
      · rw [setProc_proc, hq, commit, writeLog]
        obtain ⟨m, hm⟩ := Nat.exists_eq_succ_of_ne_zero hn.ne'
        rw [hm, List.range_succ_eq_map]
        exact ⟨_, rfl⟩
  · show s.hist.durable + 1 = (s.hist.groups ++ [s.hist.current]).length
    rw [h.durable, List.length_append]
    rfl
  · show s.hist.last x = applyGroups base (s.hist.groups ++ [s.hist.current]) x
    rw [applyGroups_concat]
    exact h.contents x hx
  · exact Or.inl ((h.lag x).1 hx)
  · exact (h.lag _).2 ⟨i, hi, rfl⟩
  · rw [hpend, h.calm] at hx
    cases hx

/-- The last operation ends, and there is nothing to commit. -/
theorem Collecting.nothing (h : s.Collecting base) (hn : s.log.n = 0)
    (hlog : log.n = s.log.n) (hq : q.todo = commit s.log) (hpend : ∀ p', s'.pend p' = s.pend p')
    (hs : s' = ({ s with log := log }).setProc p q) : s'.Done base p 0 s.log.block .committed := by
  have hnone : ∀ x, ¬ Lists s.log x := by
    rintro x ⟨i, hi, -⟩
    rw [hn] at hi
    exact Nat.not_lt_zero i hi
  have hcurrent : s.hist.current = [] := List.eq_nil_iff_forall_not_mem.2 fun w hw => hnone _ (h.current w hw)
  subst hs
  refine ⟨⟨?_, fun p' _ => ?_, hcurrent, nofun, nofun, Or.inl rfl⟩, hlog.trans hn, h.clean, h.durable, fun x hx => ?_,
    fun x hx => absurd ((h.lag x).1 hx) (hnone x), fun x hx => ?_⟩
  · rw [setProc_proc, hq, commit, if_neg (by rw [hn]; exact Nat.lt_irrefl 0)]
    exact .fin
  · rw [hpend, h.calm]
  · have := h.contents x hx
    rwa [hcurrent] at this
  · rw [hpend, h.calm] at hx
    cases hx

/-- A block is entered in the header. -/
theorem Collecting.append (h : s.Collecting base) {op : ℕ} (hhome : ¬ InLog (s.bc.buf i).blockno)
    (hlt : (s.bc.buf i).blockno < fssize) (hpend : ∀ p', s'.pend p' = s.pend p')
    (hs : s' = ({ s.give i d with
      log := logAppend s.log (s.bc.buf i).blockno
      hist := { (s.give i d).hist with
        current := s.hist.current ++ [(⟨op, (s.bc.buf i).blockno, d⟩ : LogWrite)] } }).setProc p q) :
    s'.Collecting base := by
  subst hs
  refine ⟨h.up, h.committing, fun p' => ?_, ?_, h.durable, fun x hx => ?_, fun x => ?_, fun x hx => ?_, fun w hw => ?_⟩
  · rw [hpend, h.calm]
  · show (headOf (update s.hist.last (s.bc.buf i).blockno d logstart)).1 = 0
    have hne : logstart ≠ (s.bc.buf i).blockno := fun heq => hhome (heq ▸ logstart_inLog)
    rw [update_of_ne hne]
    exact h.clean
  · show update s.hist.last (s.bc.buf i).blockno d x =
      applyGroup (applyGroups base s.hist.groups) (s.hist.current ++ [⟨op, (s.bc.buf i).blockno, d⟩]) x
    rw [applyGroup_concat]
    by_cases hxi : x = (s.bc.buf i).blockno
    · rw [hxi, update_self, update_self]
    · rw [update_of_ne hxi, update_of_ne hxi]
      exact h.contents x hx
  · refine lag_give.trans ((or_congr (h.lag x) Iff.rfl).trans ?_)
    refine Iff.trans ?_ lists_logAppend.symm
    rw [or_comm, eq_comm]
  · rcases lists_logAppend.1 hx with rfl | hx
    · exact ⟨hhome, hlt⟩
    · exact h.home x hx
  · refine lists_logAppend.2 ?_
    rcases List.mem_append.1 hw with hw | hw
    · exact Or.inr (h.current w hw)
    · rw [List.mem_singleton.1 hw]
      exact Or.inl rfl

theorem Phase.exec (h : s.Phase base) (hbio : s.BioInv) (hop : s.OpInv) (hhome : s.HomeInv) (hhead : HeaderOk s.disk)
    (hrec : ∀ x, ¬ InLog x → recover s.disk x = applyGroups base (s.hist.groups.take s.hist.durable) x)
    (hs : s.step (.run p) = some s') (hpc : (s.proc p).pc = .ready) (htodo : (s.proc p).todo = a :: rest)
    (hqt : q.todo = rest) (hqpc : q.pc = .ready) (he : s.Exec p q a s') : s'.Phase base := by
  have hidle : s.pend p = none := pend_of_ready hpc
  have hbefore : ∀ x, s.pend p = some x → ¬ s.Lag x := fun x hx => nomatch hidle.symm.trans hx
  have hsame := pend_ready hbio hs hpc
  -- an instruction that no client is given
  have hspecial : a.isCall = false → s'.Phase base := by
    intro ha
    refine h.special hbio hop hhead hrec hs hpc htodo hqt hqpc he (fun hc => ?_) ?_ ?_
    · rw [htodo] at hc
      cases ha.symm.trans hc.pop.2
    · rintro x rfl
      cases ha
    · rintro x rfl
      cases ha
  -- a call that only clients make
  have hclient : (a = .beginOp ∨ a = .endOp) → Client (s.proc p).todo := by
    intro ha
    rcases hop.mode p with hc | ⟨-, -, hno⟩ | ⟨-, -, hno⟩
    · exact hc
    · rw [htodo] at hno
      rcases ha with rfl | rfl <;> rcases hno.head with hno | hno | hno <;> cases hno
    · rw [htodo] at hno
      rcases ha with rfl | rfl <;> rcases hno.head with hno | hno | hno | hno <;> cases hno
  have hup : (a = .beginOp ∨ a = .endOp) → s.up = true := fun ha => hop.up_of_call htodo (hclient ha)
  cases he with
  | bread hb =>
    refine h.go hbio hs ⟨rfl, rfl, rfl, rfl, rfl, rfl, rfl, rfl, rfl, fun x => lag_congr (hbio.bget_lag hb)⟩ hbefore
      (fun i => ?_) (.bread ?_ hb)
    · rw [setProc_proc]
      exact nofun
    · rw [setProc_proc, htodo, ← hqt]
  | @logWrite x j d =>
    refine h.go hbio hs ⟨rfl, rfl, rfl, rfl, rfl, rfl, rfl, rfl, rfl, fun x => Iff.rfl⟩ hbefore
      (fun i => ?_) (.logWrite (x := x) (d := d) ?_)
    · rw [setProc_proc]
      exact nofun
    · rw [setProc_proc, htodo, ← hqt]
  | @brelse x =>
    refine h.go hbio hs ⟨rfl, rfl, rfl, rfl, rfl, rfl, rfl, rfl, rfl, fun x => Iff.rfl⟩ hbefore
      (fun i => ?_) (.brelse (x := x) ?_)
    · rw [setProc_proc]
      exact nofun
    · rw [setProc_proc, htodo, ← hqt]
  | write hw =>
    refine hspecial ?_
    have hno := hhome.todo p a (by rw [htodo]; exact List.mem_cons_self)
    cases a with
    | bwrite => exact hno.elim
    | bwriteCopy | bwriteHead => rfl
    | _ => cases hw
  | readHead | clear | committed | booted => exact hspecial rfl
  | beginOp hcom =>
    refine .collecting ((h.collects hop (hup (Or.inl rfl)) hcom).changeOp rfl rfl hcom rfl rfl rfl rfl (hsame ?_))
    rw [setProc_proc]
    exact hqpc
  | endOp hcom =>
    refine .collecting ((h.collects hop (hup (Or.inr rfl)) hcom).changeOp rfl rfl hcom rfl rfl rfl rfl (hsame ?_))
    rw [setProc_proc]
    exact hqpc
  | endOpLast hcom =>
    have hcol := h.collects hop (hup (Or.inr rfl)) hcom
    rw [setProc_proc] at hsame
    by_cases hn : 0 < s.log.n
    · rw [if_pos hn] at hsame ⊢
      refine .writing (hcol.writes hop hn ?_ ?_ ?_ ?_ ?_ rfl)
      exacts [rfl, rfl, rfl, hqpc, hsame hqpc]
    · rw [if_neg hn] at hsame ⊢
      refine .done (hcol.nothing (Nat.eq_zero_of_not_pos hn) ?_ ?_ ?_ rfl)
      exacts [rfl, rfl, hsame hqpc]

/-- A process goes on in a function that it is in. -/
theorem Phase.goOn (h : s.Phase base) (hbio : s.BioInv) {t : State N} (hs : s.step (.run p) = some (t.setProc p q))
    (hquiet : s.Quiet (t.setProc p q)) (htodo : q.todo = (s.proc p).todo) (hpc : (s.proc p).pc ≠ .ready)
    (hbefore : ∀ i, (s.proc p).pc ≠ .waiting i none) (hafter : ∀ i, q.pc ≠ .waiting i none) :
    (t.setProc p q).Phase base := by
  refine h.go hbio hs hquiet (fun x hx => nomatch (pend_of_pc hbefore).symm.trans hx) (fun i => ?_) (.goes ?_ hpc)
  · rw [setProc_proc]
    exact hafter i
  · rw [setProc_proc, htodo]

/-- **Steps of processes keep to the phases.** -/
theorem Phase.runs (h : s.Phase base) (hbio : s.BioInv) (hop : s.OpInv) (hhome : s.HomeInv) (hhead : HeaderOk s.disk)
    (hrec : ∀ x, ¬ InLog x → recover s.disk x = applyGroups base (s.hist.groups.take s.hist.durable) x)
    (hs : s.step (.run p) = some s') : s'.Phase base := by
  cases run_eq_some hs with
  | exec hpc htodo he =>
    refine h.exec hbio hop hhome hhead hrec hs hpc htodo ?_ ?_ he
    exacts [rfl, hpc]
  | acquire hpc | hit hpc | submit hpc | read hpc =>
    exact h.goOn hbio hs ⟨rfl, rfl, rfl, rfl, rfl, rfl, rfl, rfl, rfl, fun x => Iff.rfl⟩ rfl
      (by rw [hpc]; simp) (by rw [hpc]; simp) (by simp)
  | written hpc _ hclean =>
    have hheld := hbio.pcs p
    rw [PcOk, hpc] at hheld
    refine h.go hbio hs ⟨rfl, rfl, rfl, rfl, rfl, rfl, rfl, rfl, rfl, fun x => Iff.rfl⟩
      (fun x hx => ?_) (fun i => ?_) (.goes ?_ ?_)
    · rw [State.pend, hpc] at hx
      rw [← Option.some.inj hx]
      exact hbio.not_lag_of_clean hheld.1 hclean
    · rw [setProc_proc]
      simp
    · rw [setProc_proc]
    · rw [hpc]
      simp
  | @unref j hpc =>
    have hquiet : s.Quiet (({ s with
        bc := s.bc.unref j
        hist := if s.bc.refcnt j - 1 = 0 then
          { s.hist with
            released := update s.hist.released j s.hist.clock
            clock := s.hist.clock + 1 } else s.hist }).setProc p { s.proc p with pc := .ready }) := by
      have hlag : ∀ {t : State N} x, t.bc = s.bc.unref j → (t.Lag x ↔ s.Lag x) := by
        intro t x ht
        unfold Lag
        rw [ht, Bcache.unref_buf]
      split_ifs
      · exact ⟨rfl, rfl, rfl, rfl, rfl, rfl, rfl, rfl, rfl, fun x => hlag x rfl⟩
      · exact ⟨rfl, rfl, rfl, rfl, rfl, rfl, rfl, rfl, rfl, fun x => hlag x rfl⟩
    exact h.goOn hbio hs hquiet rfl (by rw [hpc]; simp) (by rw [hpc]; simp) (by simp)
  | @append j d hpc =>
    have hop' := hop.appends p j d hpc
    have hout := hop.outstanding_pos hop'
    have hup : s.up = true := by
      by_contra hdown
      exact hout (hop.booting (Bool.eq_false_of_not_eq_true hdown)).1
    have hcom : s.log.committing = false := by
      by_contra hyes
      exact hout (hop.committing (Bool.eq_true_of_not_eq_false hyes))
    have hheld := hbio.pcs p
    rw [PcOk, hpc] at hheld
    obtain ⟨op, hsome⟩ := Option.isSome_iff_exists.1 hop'
    rw [hsome] at hs ⊢
    refine .collecting ((h.collects hop hup hcom).append (hhome.appends p j d hpc) (hhome.valid j (hbio.held p j hheld))
      (fun p' => ?_) rfl)
    by_cases hp : p' = p
    · subst hp
      rw [pend_of_pc (s := s) (by simp [hpc])]
      refine pend_of_ready ?_
      rw [setProc_proc]
    · exact pend_congr hbio hs (by simp) (by rw [setProc_of_ne _ _ hp]; rfl)

/-! ## Steps of the disk -/

/-- The disk completes a write of block `x`. -/
structure Lands (s s' : State N) (x : ℕ) : Prop where
  log : s'.log = s.log
  proc : s'.proc = s.proc
  disk : s'.disk = Function.update s.disk x (s.hist.last x)
  last : s'.hist.last = s.hist.last
  nextOp : s'.hist.nextOp = s.hist.nextOp
  current : s'.hist.current = s.hist.current
  groups : s'.hist.groups = s.hist.groups
  returned : s'.hist.returned = s.hist.returned
  durable : s'.hist.durable =
    if x = logstart ∧ s.hist.last x 0 ≠ 0#32 then s.hist.groups.length else s.hist.durable
  lag : ∀ y, s'.Lag y ↔ s.Lag y ∧ x ≠ y
  pend : ∀ p, s'.pend p = s.pend p
  lags : s.Lag x
  waiter : ∃ p, s.pend p = some x

theorem Lands.disk_of_ne (h : s.Lands s' x) (hy : y ≠ x) : s'.disk y = s.disk y := by
  rw [h.disk, update_of_ne hy]

theorem Lands.durable_of_ne (h : s.Lands s' x) (hx : x ≠ logstart) : s'.hist.durable = s.hist.durable := by
  rw [h.durable, if_neg fun hno => hx hno.1]

/-- What recovery makes of the disk, in every state. -/
structure Recovers (base : ℕ → Data) (s : State N) : Prop where
  header : HeaderOk s.disk
  recovered : ∀ x, ¬ InLog x → recover s.disk x = applyGroups base (s.hist.groups.take s.hist.durable) x
  returned : s.hist.returned ≤ s.hist.durable
  durable : s.hist.durable ≤ s.hist.groups.length

theorem HeaderOk.congr {disk' : ℕ → Data} (h : HeaderOk disk) (heq : disk' logstart = disk logstart) :
    HeaderOk disk' := by
  refine ⟨?_, ?_⟩
  · rw [HeaderFits, heq]
    exact h.fits
  · rw [heq]
    exact h.inj

theorem headerOk_of_clean (h : (headOf (disk logstart)).1 = 0) : HeaderOk disk := by
  refine ⟨⟨?_, ?_⟩, ?_⟩
  · rw [h]
    exact Nat.zero_le _
  · rw [h]
    exact nofun
  · rw [h]
    exact nofun

/-- The disk changes outside the header, and recovery makes the same of it. -/
theorem Recovers.congr (h : s.Recovers base) (hl : s.Lands s' x) (hx : x ≠ logstart)
    (hsame : ∀ y, ¬ InLog y → recover s'.disk y = recover s.disk y) : s'.Recovers base where
  header := h.header.congr (hl.disk_of_ne hx.symm)
  recovered y hy := by
    rw [hsame y hy, h.recovered y hy, hl.groups, hl.durable_of_ne hx]
  returned := by
    rw [hl.returned, hl.durable_of_ne hx]
    exact h.returned
  durable := by
    rw [hl.groups, hl.durable_of_ne hx]
    exact h.durable

theorem Copier.waits (h : s.Copier p n block fin st) (hp : s.pend p' = some x) : p' = p := by
  by_contra hne
  cases (h.others p' hne).symm.trans hp

theorem Copier.land (h : s.Copier p n block fin st) (hl : s.Lands s' x) : s'.Copier p n block fin st where
  script := by
    rw [hl.proc]
    exact h.script
  others p' hp := by rw [hl.pend, h.others p' hp]
  current := by rw [hl.current, h.current]
  home := h.home
  inj := h.inj
  ends := h.ends

/-- The header on the disk is empty before the new one is written. -/
theorem Writing.clean_disk (h : s.Writing base p n block c) (hbio : s.BioInv) :
    (headOf (s.disk logstart)).1 = 0 := by
  rw [disk_of_not_lag hbio]
  · exact h.clean
  · intro hlag
    rcases h.lag _ hlag with ⟨i, hi, heq⟩ | hno
    · exact h.head_ne hi heq
    · obtain ⟨c', -, -, heq⟩ := h.pending _ hno
      omega

/-- A block has been copied to the log. -/
theorem Writing.land (h : s.Writing base p n block c) (hbio : s.BioInv) (hr : s.Recovers base) (hl : s.Lands s' x) :
    s'.Writing base p n block c ∧ s'.Recovers base := by
  obtain ⟨p', hp'⟩ := hl.waiter
  obtain rfl := h.waits hp'
  obtain ⟨c', hc, hlt, rfl⟩ := h.pending x hp'
  have hn : n ≤ nlog - 1 := by
    refine h.size.resolve_right fun ⟨_, hzero, _⟩ => ?_
    omega
  have hne : logstart ≠ logstart + c' + 1 := by omega
  have hclean := h.clean_disk hbio
  refine ⟨⟨h.toCopier.land hl, Or.inl hn, ?_, h.pos, ?_, ?_, ?_, ?_, fun y hy => ?_, fun i hi => ?_, fun y hy => ?_⟩,
    hr.congr hl hne.symm fun y hy => ?_⟩
  · rw [hl.log]
    exact h.log
  · rw [hl.last]
    exact h.clean
  · rw [hl.durable_of_ne hne.symm, hl.groups, h.durable]
  · rw [hl.last, hl.groups]
    exact h.contents
  · rw [hl.last]
    exact h.copied
  · rw [hl.pend]
    exact h.lag y ((hl.lag y).1 hy).1
  · exact (hl.lag _).2 ⟨h.pinned i hi, (h.entry_ne hn hi hlt).symm⟩
  · rw [hl.pend] at hy
    exact h.pending y hy
  · have hy' : y ≠ logstart := fun heq => hy (heq ▸ logstart_inLog)
    rw [recover_of_clean hclean hy', recover_of_clean (by rw [hl.disk_of_ne hne]; exact hclean) hy']
    exact hl.disk_of_ne fun heq => hy (heq ▸ inLog_entry hn hlt)

/-- The header has been written: the group is on the disk. -/
theorem Heading.land (h : s.Heading base p n block) (hbio : s.BioInv) (hr : s.Recovers base) (hl : s.Lands s' x) :
    s'.Installing p n block .committed 0 ∧ s'.Recovers base := by
  obtain ⟨p', hp'⟩ := hl.waiter
  obtain rfl := h.waits hp'
  obtain rfl : x = logstart := Option.mem_unique hp' h.pending
  obtain ⟨hn, hblock⟩ := h.header
  have hzero : s.hist.last logstart 0 ≠ 0#32 := by
    intro hzero
    have hpos := h.pos
    rw [← hn, headOf, hzero] at hpos
    exact Nat.lt_irrefl 0 hpos
  have hdurable : s'.hist.durable = s.hist.groups.length := by rw [hl.durable, if_pos ⟨rfl, hzero⟩]
  have hdisk : s'.disk logstart = s.hist.last logstart := by rw [hl.disk, update_self]
  have hok : HeaderOk s'.disk := by
    refine ⟨⟨?_, fun i hi => ?_⟩, fun i hi j hj heq => ?_⟩
    · rw [hdisk, hn]
      exact h.size
    · rw [hdisk] at hi ⊢
      rw [hn] at hi
      rw [hblock i hi]
      exact h.home i hi
    · rw [hdisk] at hi hj heq
      rw [hn] at hi hj
      rw [hblock i hi, hblock j hj] at heq
      exact h.inj i hi j hj heq
  have hlag : ∀ y, (∀ i < n, block i ≠ y) → y ≠ logstart → s'.disk y = s.hist.last y := fun y hy hne => by
    rw [hl.disk_of_ne hne]
    exact disk_of_not_lag hbio fun hno => (h.lag y hno).elim (fun ⟨i, hi, heq⟩ => hy i hi heq) hne
  refine ⟨⟨h.toCopier.land hl, h.size, ?_, ?_, nofun, fun y hy => ?_, fun y hy => ?_⟩, ⟨hok, fun y hy => ?_, ?_, ?_⟩⟩
  · rw [hl.last]
    exact h.header
  · rw [hdurable, hl.groups]
  · obtain ⟨hy, hne⟩ := (hl.lag y).1 hy
    obtain ⟨i, hi, rfl⟩ := (h.lag y hy).resolve_right hne.symm
    exact Or.inl ⟨i, Nat.zero_le i, hi, rfl⟩
  · rw [hl.pend] at hy
    exact Or.inl (Option.mem_unique hy h.pending)
  · -- the blocks of the header come from the log, the others are on the disk
    have hy' : y ≠ logstart := fun heq => hy (heq ▸ logstart_inLog)
    rw [hdurable, hl.groups, List.take_length, ← h.contents y hy]
    by_cases hin : ∃ i < n, block i = y
    · obtain ⟨i, hi, rfl⟩ := hin
      have hrec := recover_of_lists hok (i := i) (by rw [hdisk, hn]; exact hi)
      rw [hdisk, hblock i hi] at hrec
      rw [hrec, ← h.copied i hi]
      exact hlag _ (fun j hj => h.entry_ne h.size hj hi) (by omega)
    · have hno : ∀ i < n, block i ≠ y := fun i hi heq => hin ⟨i, hi, heq⟩
      rw [recover_of_not_lists (fun i hi => ?_) hy', hlag y hno hy']
      rw [hdisk] at hi ⊢
      rw [hn] at hi
      rw [hblock i hi]
      exact hno i hi
  · rw [hl.returned, hdurable]
    exact hr.returned.trans hr.durable
  · rw [hdurable, hl.groups]

/-- A block has been installed. -/
theorem Installing.land (h : s.Installing p n block fin c) (hbio : s.BioInv) (hr : s.Recovers base)
    (hl : s.Lands s' x) : s'.Installing p n block fin c ∧ s'.Recovers base := by
  obtain ⟨p', hp'⟩ := hl.waiter
  obtain rfl := h.waits hp'
  have hhead : ¬ s.Lag logstart := by
    intro hno
    rcases h.lag _ hno with ⟨i, -, hi, heq⟩ | ⟨-, hno⟩
    · exact h.head_ne hi heq
    · exact hno logstart_inLog
  obtain ⟨c', hc, hlt, rfl⟩ := (h.pending x hp').resolve_left fun heq => hhead (heq ▸ hl.lags)
  have hne : block c' ≠ logstart := h.head_ne hlt
  obtain ⟨hn, hblock⟩ := h.header
  rw [← disk_of_not_lag hbio hhead] at hn hblock
  refine ⟨⟨h.toCopier.land hl, h.size, ?_, ?_, ?_, fun y hy => ?_, fun y hy => ?_⟩, hr.congr hl hne fun y hy => ?_⟩
  · rw [hl.last]
    exact h.header
  · rw [hl.durable_of_ne hne, hl.groups, h.durable]
  · rw [hl.last]
    exact h.installed
  · rw [hl.pend]
    exact h.lag y ((hl.lag y).1 hy).1
  · rw [hl.pend] at hy
    exact h.pending y hy
  · refine recover_congr hr.header (fun z hz => hl.disk_of_ne ?_) (fun z _ hz => hl.disk_of_ne fun heq => ?_) hy
    · rintro rfl
      exact (h.home c' hlt).1 hz
    · refine hz c' (by rw [hn]; exact hlt) ?_
      rw [hblock c' hlt, heq]

/-- The empty header has been written. -/
theorem Done.land (h : s.Done base p n block fin) (hbio : s.BioInv) (hr : s.Recovers base) (hl : s.Lands s' x) :
    s'.Done base p n block fin ∧ s'.Recovers base := by
  obtain ⟨p', hp'⟩ := hl.waiter
  obtain rfl := h.waits hp'
  obtain rfl := h.pending x hp'
  have hdurable : s'.hist.durable = s.hist.groups.length := by
    rw [hl.durable]
    split_ifs
    · rfl
    · exact h.durable
  have hclean : (headOf (s'.disk logstart)).1 = 0 := by
    rw [hl.disk]
    exact h.clean
  refine ⟨⟨h.toCopier.land hl, ?_, ?_, ?_, ?_, fun y hy => ?_, fun y hy => ?_⟩,
    ⟨headerOk_of_clean hclean, fun y hy => ?_, ?_, ?_⟩⟩
  · rw [hl.log, h.log]
  · rw [hl.last]
    exact h.clean
  · rw [hdurable, hl.groups]
  · rw [hl.last, hl.groups]
    exact h.contents
  · rw [hl.pend]
    exact h.lag y ((hl.lag y).1 hy).1
  · rw [hl.pend] at hy
    exact h.pending y hy
  · have hy' : y ≠ logstart := fun heq => hy (heq ▸ logstart_inLog)
    rw [recover_of_clean hclean hy', hl.disk_of_ne hy', hdurable, hl.groups, List.take_length, ← h.contents y hy]
    exact disk_of_not_lag hbio fun hno => hy' (h.pending y (h.lag y hno))
  · rw [hl.returned, hdurable]
    exact hr.returned.trans hr.durable
  · rw [hdurable, hl.groups]

/-- **Writes of the disk keep to the phases**, and to what recovery makes of the disk. -/
theorem Phase.land (h : s.Phase base) (hbio : s.BioInv) (hr : s.Recovers base) (hl : s.Lands s' x) :
    s'.Phase base ∧ s'.Recovers base := by
  obtain ⟨p, hp⟩ := hl.waiter
  cases h with
  | collecting h => cases (h.calm p).symm.trans hp
  | writing h =>
    obtain ⟨hphase, hr⟩ := h.land hbio hr hl
    exact ⟨.writing hphase, hr⟩
  | heading h =>
    obtain ⟨hphase, hr⟩ := h.land hbio hr hl
    exact ⟨.installing hphase, hr⟩
  | installing h =>
    obtain ⟨hphase, hr⟩ := h.land hbio hr hl
    exact ⟨.installing hphase, hr⟩
  | cleared h => exact absurd hl.lags (h.lag x)
  | done h =>
    obtain ⟨hphase, hr⟩ := h.land hbio hr hl
    exact ⟨.done hphase, hr⟩
  | reading h => cases (h.calm p).symm.trans hp

/-- What an interrupt does: a block has been written, or one has been read. -/
theorem intr_cases (hbio : s.BioInv) (hs : s.step .intr = some s') :
    (∃ x, s.Lands s' x) ∨ s.Quiet s' ∧ s'.proc = s.proc ∧ ∃ p, (s.proc p).pc ≠ .ready := by
  obtain ⟨i, rest, hqueue, rfl⟩ := ideintr_eq_some hs
  have hmem : i ∈ s.idequeue := by
    rw [hqueue]
    exact List.mem_cons_self
  obtain ⟨p, r, hpc⟩ := hbio.queued i hmem
  by_cases hdirty : (s.bc.buf i).dirty = true
  · obtain ⟨hlt, hdev, hvalid⟩ := hbio.dirty i hdirty
    have hdata := hbio.data i hlt hdev hvalid
    have hnone : r = none := by
      have hok := hbio.pcs p
      rw [PcOk, hpc] at hok
      cases r with
      | none => rfl
      | some x =>
        rcases hok.2 with ⟨-, -, hno⟩ | ⟨hno, -⟩
        · cases hdirty.symm.trans hno
        · exact absurd hmem hno
    subst hnone
    have htransfer : s.transfer i = { s with
        disk := update s.disk (s.bc.buf i).blockno (s.bc.buf i).data
        bc := s.bc.modifyBuf i fun b => { b with valid := true, dirty := false }
        hist := { s.hist with
          durable := if (s.bc.buf i).blockno = logstart ∧ (s.bc.buf i).data 0 ≠ 0#32 then s.hist.groups.length
            else s.hist.durable } } := by
      rw [transfer]
      split_ifs <;> rfl
    have hlag := @lag_transfer _ s i
    rw [htransfer] at hs hlag ⊢
    refine Or.inl ⟨(s.bc.buf i).blockno, ⟨rfl, rfl, ?_, rfl, rfl, rfl, rfl, rfl, ?_, fun y => ?_, fun p' => ?_,
      ⟨i, hdirty, rfl⟩, ⟨p, ?_⟩⟩⟩
    · rw [← hdata]
    · rw [← hdata]
    · refine (hlag hbio).trans (and_congr_right fun _ => not_congr ?_)
      exact and_iff_right hdirty
    · exact pend_congr hbio hs (by simp) rfl
    · rw [State.pend, hpc]
  · have htransfer : s.transfer i = { s with
        bc := s.bc.modifyBuf i fun b => { b with valid := true, dirty := false, data := s.disk b.blockno } } := by
      exact if_neg hdirty
    have hlag := @lag_transfer _ s i
    rw [htransfer] at hlag ⊢
    refine Or.inr ⟨⟨rfl, rfl, rfl, rfl, rfl, rfl, rfl, rfl, rfl, fun x => ?_⟩, rfl, p, ?_⟩
    · refine (hlag hbio).trans (and_iff_left ?_)
      exact fun hno => hdirty hno.1
    · rw [hpc]
      simp

/-! ## Whole operations -/

/-- No operation is in two groups. -/
structure Whole (s : State N) : Prop where
  ops : ∀ p op, (s.proc p).op = some op → op < s.hist.nextOp
  current : ∀ w ∈ s.hist.current, w.op < s.hist.nextOp
  groups : ∀ g ∈ s.hist.groups, ∀ w ∈ g, w.op < s.hist.nextOp
  active : ∀ p op, (s.proc p).op = some op → ∀ g ∈ s.hist.groups, ∀ w ∈ g, w.op ≠ op
  fresh : ∀ w ∈ s.hist.current, ∀ g ∈ s.hist.groups, ∀ w' ∈ g, w'.op ≠ w.op
  disjoint : s.hist.groups.Pairwise fun g g' => ∀ w ∈ g, ∀ w' ∈ g', w.op ≠ w'.op

/-- The groups stay as they are; the operations in progress are old ones or have new numbers, and what is
logged comes from them. -/
theorem Whole.grow (h : s.Whole) (hnext : s.hist.nextOp ≤ s'.hist.nextOp) (hgroups : s'.hist.groups = s.hist.groups)
    (hop : ∀ p op, (s'.proc p).op = some op →
      (s.proc p).op = some op ∨ s.hist.nextOp ≤ op ∧ op < s'.hist.nextOp)
    (hcurrent : ∀ w ∈ s'.hist.current, w ∈ s.hist.current ∨ ∃ p, (s.proc p).op = some w.op) : s'.Whole := by
  refine ⟨fun p op hp => ?_, fun w hw => ?_, fun g hg w hw => ?_, fun p op hp g hg w hw => ?_, fun w hw => ?_, ?_⟩
  · rcases hop p op hp with hp | hnew
    · exact (h.ops p op hp).trans_le hnext
    · exact hnew.2
  · rcases hcurrent w hw with hw | ⟨p, hp⟩
    · exact (h.current w hw).trans_le hnext
    · exact (h.ops p _ hp).trans_le hnext
  · exact (h.groups g (hgroups ▸ hg) w hw).trans_le hnext
  · rw [hgroups] at hg
    rcases hop p op hp with hp | hnew
    · exact h.active p op hp g hg w hw
    · exact ((h.groups g hg w hw).trans_le hnew.1).ne
  · rw [hgroups]
    rcases hcurrent w hw with hw | ⟨p, hp⟩
    · exact h.fresh w hw
    · exact h.active p _ hp
  · rw [hgroups]
    exact h.disjoint

/-- Operations and groups stay as they are. -/
theorem Whole.congr (h : s.Whole) (hop : ∀ p, (s'.proc p).op = (s.proc p).op ∨ (s'.proc p).op = none)
    (hnext : s'.hist.nextOp = s.hist.nextOp) (hcurrent : s'.hist.current = s.hist.current)
    (hgroups : s'.hist.groups = s.hist.groups) : s'.Whole := by
  refine h.grow hnext.ge hgroups (fun p op hp => ?_) fun w hw => Or.inl (hcurrent ▸ hw)
  rcases hop p with heq | hnone
  · exact Or.inl (heq ▸ hp)
  · cases hnone.symm.trans hp

/-- The group is given to `commit`. -/
theorem Whole.close (h : s.Whole) (hop : ∀ p, (s'.proc p).op = none) (hnext : s'.hist.nextOp = s.hist.nextOp)
    (hcurrent : s'.hist.current = []) (hgroups : s'.hist.groups = s.hist.groups ++ [s.hist.current]) : s'.Whole := by
  have hno : ∀ {p op}, (s'.proc p).op ≠ some op := fun {p} _ hp => nomatch (hop p).symm.trans hp
  refine ⟨fun p op hp => absurd hp hno, ?_, fun g hg w hw => ?_, fun p op hp => absurd hp hno, ?_, ?_⟩
  · rw [hcurrent]
    exact nofun
  · rw [hnext]
    rw [hgroups, List.mem_append, List.mem_singleton] at hg
    rcases hg with hg | rfl
    · exact h.groups g hg w hw
    · exact h.current w hw
  · rw [hcurrent]
    exact nofun
  · rw [hgroups, List.pairwise_append]
    refine ⟨h.disjoint, List.pairwise_singleton _ _, fun g hg g' hg' w hw w' hw' => ?_⟩
    rw [List.mem_singleton.1 hg'] at hw'
    exact h.fresh w' hw' g hg w hw

theorem Whole.exec (h : s.Whole) (hq : q.op = (s.proc p).op) (hops : s'.OpInv) (he : s.Exec p q a s') : s'.Whole := by
  have hother := fun p' (hp : p' ≠ p) => he.others hp
  have hkeep : (s'.proc p).op = q.op ∨ (s'.proc p).op = none →
      ∀ p', (s'.proc p').op = (s.proc p').op ∨ (s'.proc p').op = none := by
    intro hself p'
    by_cases hp : p' = p
    · rw [hp, ← hq]
      exact hself
    · rw [hother p' hp]
      exact Or.inl rfl
  cases he with
  | beginOp =>
    refine h.grow (Nat.le_succ _) rfl (fun p' op hop => ?_) fun w hw => Or.inl hw
    by_cases hp : p' = p
    · rw [hp, setProc_proc] at hop
      rw [← Option.some.inj hop]
      exact Or.inr ⟨le_rfl, Nat.lt_succ_self _⟩
    · exact Or.inl (hother p' hp ▸ hop)
  | endOpLast _ hlast =>
    have hnone := hops.no_ops hlast
    by_cases hn : 0 < s.log.n
    · rw [if_pos hn] at hnone ⊢
      exact h.close hnone rfl rfl rfl
    · rw [if_neg hn] at hnone ⊢
      exact h.congr (fun p' => Or.inr (hnone p')) rfl rfl rfl
  | endOp => exact h.congr (hkeep (by rw [setProc_proc]; exact Or.inr rfl)) rfl rfl rfl
  | _ => exact h.congr (hkeep (by rw [setProc_proc]; exact Or.inl rfl)) rfl rfl rfl

theorem Whole.runs (h : s.Whole) (hop : s.OpInv) (hr : s.Runs p s') : s'.Whole := by
  have hops := hop.runs hr
  have hother := fun p' (hp : p' ≠ p) => hr.others hp
  have hkeep : (s'.proc p).op = (s.proc p).op → ∀ p', (s'.proc p').op = (s.proc p').op := by
    intro hself p'
    by_cases hp : p' = p
    · rw [hp, hself]
    · rw [hother p' hp]
  cases hr with
  | exec _ _ he =>
    refine h.exec ?_ hops he
    rfl
  | @append i d hpc =>
    obtain ⟨op, hsome⟩ := Option.isSome_iff_exists.1 (hop.appends p i d hpc)
    refine h.grow le_rfl rfl (fun p' op hop => Or.inl (hkeep (by rw [setProc_proc]) p' ▸ hop)) fun w hw => ?_
    rcases List.mem_append.1 hw with hw | hw
    · exact Or.inl hw
    · rw [hsome] at hw
      rw [List.mem_singleton.1 hw]
      exact Or.inr ⟨p, hsome⟩
  | unref =>
    refine h.congr (fun p' => Or.inl (hkeep (by rw [setProc_proc]) p')) ?_ ?_ ?_
    · split_ifs <;> rfl
    · split_ifs <;> rfl
    · split_ifs <;> rfl
  | _ => exact h.congr (fun p' => Or.inl (hkeep (by rw [setProc_proc]) p')) rfl rfl rfl

/-! ## Runs with crashes -/

/-- When `commit` returns, the group is on the disk. -/
theorem Phase.committed (h : s.Phase base) (hop : s.OpInv) (htodo : (s.proc p).todo = .committed :: rest) :
    s.hist.durable = s.hist.groups.length := by
  have hnc : ¬ Client (s.proc p).todo := by
    rw [htodo]
    exact fun hc => nomatch hc.pop.2
  have hscript : ∀ {p0 n block fin st}, s.Copier p0 n block fin st → Script n block fin st (.committed :: rest) := by
    intro p0 n block fin st hc
    obtain rfl := hop.one p0 p hc.not_client hnc
    exact htodo ▸ hc.script
  cases h with
  | collecting h => exact h.durable
  | writing h | heading h => cases hscript h.toCopier
  | installing h | cleared h | done h | reading h => exact h.durable

theorem Recovers.runs (h : s.Recovers base) (hphase : s.Phase base) (hop : s.OpInv) (hr : s.Runs p s') :
    s'.Recovers base := by
  cases hr with
  | exec _ htodo he =>
    cases he with
    | committed =>
      refine ⟨h.header, h.recovered, ?_, h.durable⟩
      show s.hist.groups.length ≤ s.hist.durable
      rw [hphase.committed hop htodo]
    | endOpLast =>
      by_cases hn : 0 < s.log.n
      · rw [if_pos hn]
        refine ⟨h.header, fun x hx => ?_, h.returned, ?_⟩
        · show recover s.disk x = applyGroups base ((s.hist.groups ++ [s.hist.current]).take s.hist.durable) x
          rw [List.take_append_of_le_length h.durable]
          exact h.recovered x hx
        · show s.hist.durable ≤ (s.hist.groups ++ [s.hist.current]).length
          rw [List.length_append]
          exact h.durable.trans (Nat.le_add_right _ _)
      · rw [if_neg hn]
        exact ⟨h.header, h.recovered, h.returned, h.durable⟩
    | _ => exact ⟨h.header, h.recovered, h.returned, h.durable⟩
  | unref => split_ifs <;> exact ⟨h.header, h.recovered, h.returned, h.durable⟩
  | _ => exact ⟨h.header, h.recovered, h.returned, h.durable⟩

/-- **The invariant of the log.** -/
structure CrashInv (base : ℕ → Data) (s : State N) : Prop where
  bio : s.BioInv
  ops : s.OpInv
  home : s.HomeInv
  whole : s.Whole
  phase : s.Phase base
  recovers : s.Recovers base

theorem boot_reading (h : hist.durable ≤ hist.groups.length) :
    (boot disk hist : State N).Reading where
  up := rfl
  todo := List.suffix_refl _
  calm p := rfl
  durable := by
    show hist.durable = (hist.groups.take hist.durable).length
    rw [List.length_take, Nat.min_eq_left h]
  current := rfl
  lag x := by
    rintro ⟨i, hi, -⟩
    cases hi

/-- The machine crashes. -/
theorem CrashInv.crash (h : s.CrashInv base) : (boot s.disk s.hist : State N).CrashInv base where
  bio := boot_bioInv _ _
  ops := boot_opInv _
  home := boot_homeInv _ _
  whole := by
    have hmem : ∀ g ∈ s.hist.groups.take s.hist.durable, g ∈ s.hist.groups := fun g hg => List.mem_of_mem_take hg
    exact ⟨nofun, nofun, fun g hg => h.whole.groups g (hmem g hg), nofun, nofun,
      h.whole.disjoint.sublist (List.take_sublist _ _)⟩
  phase := .reading (boot_reading h.recovers.durable)
  recovers := by
    refine ⟨h.recovers.header, fun x hx => ?_, h.recovers.returned, ?_⟩
    · show recover s.disk x = applyGroups base ((s.hist.groups.take s.hist.durable).take s.hist.durable) x
      rw [List.take_take, Nat.min_self]
      exact h.recovers.recovered x hx
    · show s.hist.durable ≤ (s.hist.groups.take s.hist.durable).length
      rw [List.length_take, Nat.min_eq_left h.recovers.durable]

theorem CrashInv.step (h : s.CrashInv base) (hok : s.Txn e) (hs : s.step e = some s') :
    s'.CrashInv base := by
  have hbio := h.bio.step hs
  have hops := h.ops.step hok.inOp hs
  have hhome := h.home.step h.bio hok hs
  cases e with
  | call p a =>
    obtain ⟨hpc, hnil, hup, -, rfl⟩ := step_call hs
    have hother := fun p' (hp : p' ≠ p) => setProc_of_ne s { s.proc p with todo := [a] } hp
    have hpcs : ∀ p', ((s.setProc p { s.proc p with todo := [a] }).proc p').pc = (s.proc p').pc := by
      intro p'
      by_cases hp : p' = p
      · rw [hp, setProc_proc]
      · rw [hother p' hp]
    refine ⟨hbio, hops, hhome, h.whole.congr (fun p' => Or.inl ?_) rfl rfl rfl, ?_,
      ⟨h.recovers.header, h.recovers.recovered, h.recovers.returned, h.recovers.durable⟩⟩
    · by_cases hp : p' = p
      · rw [hp, setProc_proc]
      · rw [hother p' hp]
    · refine h.phase.settle h.bio ⟨⟨rfl, rfl, rfl, rfl, rfl, rfl, rfl, rfl, rfl, fun x => Iff.rfl⟩, fun p' => ?_⟩
        (.call hnil hup) fun p' hp => ?_
      · exact Or.inl (pend_congr h.bio hs nofun (hpcs p'))
      · rw [hother p' hp]
        exact ⟨rfl, rfl⟩
  | run p =>
    have hr := run_eq_some hs
    exact ⟨hbio, hops, hhome, h.whole.runs h.ops hr,
      h.phase.runs h.bio h.ops h.home h.recovers.header h.recovers.recovered hs, h.recovers.runs h.phase h.ops hr⟩
  | intr =>
    rcases intr_cases h.bio hs with ⟨x, hl⟩ | ⟨hq, hproc, p, hpc⟩
    · obtain ⟨hphase, hrec⟩ := h.phase.land h.bio h.recovers hl
      refine ⟨hbio, hops, hhome, ?_, hphase, hrec⟩
      exact h.whole.congr (fun p' => Or.inl (by rw [hl.proc])) hl.nextOp hl.current hl.groups
    · refine ⟨hbio, hops, hhome, ?_, ?_, ?_⟩
      · exact h.whole.congr (fun p' => Or.inl (by rw [hproc])) hq.nextOp hq.current hq.groups
      · refine h.phase.settle h.bio ⟨hq, fun p' => ?_⟩ (.goes (by rw [hproc]) hpc) fun p' _ => ?_
        · exact Or.inl (pend_congr h.bio hs nofun (by rw [hproc]))
        · rw [hproc]
          exact ⟨rfl, rfl⟩
      · refine ⟨?_, ?_, ?_, ?_⟩
        · rw [hq.disk]
          exact h.recovers.header
        · rw [hq.disk, hq.groups, hq.durable]
          exact h.recovers.recovered
        · rw [hq.returned, hq.durable]
          exact h.recovers.returned
        · rw [hq.durable, hq.groups]
          exact h.recovers.durable
  | crash =>
    obtain rfl := Option.some.inj hs
    exact h.crash

end Phase

end State
end OsLab.Xv6
