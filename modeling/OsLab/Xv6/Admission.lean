import OsLab.Xv6.LogOps

/-!
# Admission of operations to the log

`begin_op` lets an operation in if the log has room for `MAXOPBLOCKS` blocks of every operation in
progress, counting `LOGSIZE` blocks; but `log_write` panics when `log.size - 1` blocks are logged, one
less, and it reads `log.lh.n` before it takes the lock.

* `log_never_full`: operations that log at most `MAXOPBLOCKS - 1` blocks each never fill the log.
* `log_full`: three operations that log `MAXOPBLOCKS` blocks each reach the panic.
-/

namespace OsLab.Xv6.State

open Function

variable {N k : ℕ} {s s' : State N} {p p' : Fin (N + 1)} {q : Proc} {a : Instr} {rest : List Instr} {i x : ℕ}
  {d : Data} {e : Event N}

/-- Every operation logs at most `k` different blocks. -/
def Within (k : ℕ) (s : State N) : Event N → Prop
  | .call p (.logWrite x _) => (s.proc p).op.isSome ∧ (insert x (s.proc p).logged).card ≤ k
  | _ => True

theorem Within.inOp (h : s.Within k e) : s.InOp e := by
  unfold InOp
  split
  · exact h.1
  · trivial

/-- The panic `too big a transaction`. -/
def TooBig (s : State N) (p : Fin (N + 1)) : Prop :=
  (s.proc p).pc = .ready ∧ (∃ x d rest, (s.proc p).todo = .logWrite x d :: rest) ∧
    (logsize ≤ s.log.n ∨ nlog - 1 ≤ s.log.n)

/-- What admission control is for: `log_write` does not panic, the header in memory fits the log on the
disk, and no block is in it twice. -/
structure Admitted (s : State N) : Prop where
  room : ∀ p, ¬ s.TooBig p
  fits : s.log.n ≤ nlog - 1
  nodup : ((List.range s.log.n).map s.log.block).Nodup

/-! ## Operations of fewer blocks -/

/-- The blocks an operation may still log. -/
def left (q : Proc) : ℕ := if q.op.isSome then (maxopblocks - 1) - q.logged.card else 0

theorem left_le : left q ≤ (maxopblocks - 1) * inOp q := by
  rw [left, inOp]
  split <;> omega

/-- There is room in the log for what the operations in progress may still log, and one block more. -/
structure RoomInv (s : State N) : Prop where
  room : s.up = true → s.log.n + ∑ p, left (s.proc p) + 1 ≤ nlog - 1
  calls : ∀ p x d rest, (s.proc p).todo = .logWrite x d :: rest →
    (insert x (s.proc p).logged).card ≤ maxopblocks - 1
  appends : ∀ p i d, (s.proc p).pc = .appending i d → (s.proc p).todo = [] ∧
    (insert (s.bc.buf i).blockno (s.proc p).logged).card ≤ maxopblocks - 1

/-- What may be logged when one process changes. -/
theorem sum_left_update (s : State N) (p : Fin (N + 1)) (q : Proc) :
    ∑ p', left (update s.proc p q p') + left (s.proc p) = ∑ p', left (s.proc p') + left q :=
  sum_update s.proc left p q

theorem sum_left_le (h : s.OpInv) : ∑ p, left (s.proc p) ≤ (maxopblocks - 1) * s.log.outstanding := by
  rw [h.count, Finset.mul_sum]
  exact Finset.sum_le_sum fun p _ => left_le

/-- The processes in the middle of `log_write` keep their buffers. -/
def SameBlocks (s s' : State N) : Prop :=
  ∀ p i d, (s.proc p).pc = .appending i d → (s'.bc.buf i).blockno = (s.bc.buf i).blockno

theorem BioInv.sameBlocks (h : s.BioInv) (hs : s.step e = some s') (he : e ≠ .crash) :
    s.SameBlocks s' := fun p i d hpc => by
  have hok := h.pcs p
  rw [PcOk, hpc] at hok
  exact h.blockno_of_refs hs he (BioInv.refs_of_held hok)

theorem boot_roomInv (disk : ℕ → Data) (hist : History) : (boot disk hist : State N).RoomInv := by
  refine ⟨nofun, fun p x d r hr => ?_, nofun⟩
  by_cases hp : p = 0
  · subst hp
    cases (show initlog = _ from hr)
  · rw [show ((boot disk hist : State N).proc p).todo = [] from if_neg hp] at hr
    cases hr

namespace RoomInv

/-- One process changes. -/
theorem change (h : s.RoomInv)
    (hbuf : s.SameBlocks s') (hproc : s'.proc = update s.proc p q)
    (hroom : s'.up = true → s'.log.n + ∑ p', left (update s.proc p q p') + 1 ≤ nlog - 1)
    (hcalls : ∀ x d rest, q.todo = .logWrite x d :: rest → (insert x q.logged).card ≤ maxopblocks - 1)
    (happ : ∀ i d, q.pc = .appending i d → q.todo = [] ∧
      (insert (s'.bc.buf i).blockno q.logged).card ≤ maxopblocks - 1) : s'.RoomInv := by
  have hself : s'.proc p = q := by rw [hproc, update_self]
  have hother : ∀ p' ≠ p, s'.proc p' = s.proc p' := fun p' hp' => by rw [hproc, update_of_ne hp']
  refine ⟨fun hu => by rw [hproc]; exact hroom hu, fun p' x d r hr => ?_, fun p' i d hpc => ?_⟩
  · by_cases hp : p' = p
    · rw [hp, hself] at hr ⊢
      exact hcalls x d r hr
    · rw [hother p' hp] at hr ⊢
      exact h.calls p' x d r hr
  · by_cases hp : p' = p
    · rw [hp, hself] at hpc ⊢
      exact happ i d hpc
    · rw [hother p' hp] at hpc ⊢
      rw [hbuf p' i d hpc]
      exact h.appends p' i d hpc

/-- The header does not grow, and the operation does not change. -/
theorem same (h : s.RoomInv) (hbuf : s.SameBlocks s')
    (hproc : s'.proc = update s.proc p q) (hup : s'.up = s.up) (hn : s'.log.n ≤ s.log.n)
    (hop : q.op = (s.proc p).op) (hlogged : q.logged = (s.proc p).logged)
    (hcalls : ∀ x d rest, q.todo = .logWrite x d :: rest → (insert x q.logged).card ≤ maxopblocks - 1)
    (happ : ∀ i d, q.pc = .appending i d → q.todo = [] ∧
      (insert (s'.bc.buf i).blockno q.logged).card ≤ maxopblocks - 1) : s'.RoomInv := by
  refine h.change hbuf hproc (fun hu => ?_) hcalls happ
  have hsum := sum_left_update s p q
  rw [show left q = left (s.proc p) by rw [left, left, hop, hlogged]] at hsum
  have hroom := h.room (hup.symm.trans hu)
  omega

/-- An operation has ended. -/
theorem ended (h : s.RoomInv) (hup : s.up = true) (hq : q.op = none) :
    s.log.n + ∑ p', left (update s.proc p q p') + 1 ≤ nlog - 1 := by
  have hsum := sum_left_update s p q
  have hroom := h.room hup
  rw [show left q = 0 by rw [left, hq]; rfl] at hsum
  omega

theorem exec (h : s.RoomInv) (hop : s.OpInv) (hop' : s'.OpInv) (hbuf : s.SameBlocks s')
    (hready : (s.proc p).pc = .ready) (htodo : (s.proc p).todo = a :: rest)
    (he : s.Exec p { s.proc p with todo := rest } a s') : s'.RoomInv := by
  have hrest : ∀ {l : Finset ℕ} x d r, rest = .logWrite x d :: r → (insert x l).card ≤ maxopblocks - 1 :=
    fun x d r hr => absurd (htodo.trans (by rw [hr])) hop.not_logWrite
  have hpc : ∀ i d, (s.proc p).pc ≠ .appending i d := fun i d hpc => by
    rw [hready] at hpc
    cases hpc
  cases he with
  | bread | write | brelse => exact h.same hbuf rfl rfl (Nat.le_refl _) rfl rfl hrest nofun
  | @logWrite x i d hi =>
    refine h.same hbuf rfl rfl (Nat.le_refl _) rfl rfl hrest fun j e hpc => ?_
    obtain ⟨rfl, rfl⟩ := Pc.appending.inj hpc
    have hcard := h.calls p x d rest htodo
    rw [← (holding_eq_some hi).2.2.1] at hcard
    have hclient := hop.all_clients (hop.outstanding_pos (p := p) (hop.calls p _ _ htodo)) p
    rw [htodo] at hclient
    exact ⟨hclient.pop.1, hcard⟩
  | readHead =>
    refine h.change hbuf rfl (fun hu => ?_) nofun fun i d hno => absurd hno (hpc i d)
    rcases hop.mode p with hc | ⟨-, -, hc⟩ | ⟨hno, -, -⟩
    · rw [htodo] at hc
      cases hc.pop.2
    · rw [htodo] at hc
      rcases hc.head with ha | ha | ha <;> cases ha
    · exact absurd (hno.symm.trans hu) nofun
  | clear => exact h.same hbuf rfl rfl (Nat.zero_le _) rfl rfl hrest fun i d hno => absurd hno (hpc i d)
  | committed => exact h.same hbuf rfl rfl (Nat.le_refl _) rfl rfl hrest fun i d hno => absurd hno (hpc i d)
  | beginOp hcom hadmit =>
    refine h.change hbuf rfl (fun hu => ?_) hrest fun i d hno => absurd hno (hpc i d)
    -- what may be logged is at most nine blocks of each operation, this one included
    have hsum := sum_left_le hop'
    have hidle : s.log.outstanding = 0 → s.log.n = 0 := hop.idle hu hcom
    have hroom : s.log.n + (maxopblocks - 1) * (s.log.outstanding + 1) + 1 ≤ nlog - 1 := by
      rw [maxopblocks] at hadmit ⊢
      rw [nlog]
      rw [logsize] at hadmit ⊢
      omega
    exact (Nat.add_le_add_right (Nat.add_le_add_left hsum _) 1).trans hroom
  | endOpLast =>
    refine h.change hbuf rfl (fun hu => ?_) (fun x d r hr => ?_) fun i d hno => absurd hno (hpc i d)
    · exact h.ended hu rfl
    · have hc := commitTail_commit s.log
      rw [show commit s.log = _ from hr] at hc
      rcases hc.head with ha | ha | ha <;> cases ha
  | endOp =>
    refine h.change hbuf rfl (fun hu => ?_) hrest fun i d hno => absurd hno (hpc i d)
    exact h.ended hu rfl
  | booted =>
    refine h.change hbuf rfl (fun hu => ?_) hrest fun i d hno => absurd hno (hpc i d)
    obtain ⟨hzero, -⟩ := hop.not_client (p := p) fun hc => by
      rw [htodo] at hc
      cases hc.pop.2
    have hcom : s.log.committing = false := by
      rcases hop.mode p with hc | ⟨-, -, hc⟩ | ⟨hno, -, -⟩
      · rw [htodo] at hc
        cases hc.pop.2
      · rw [htodo] at hc
        rcases hc.head with ha | ha | ha <;> cases ha
      · exact (hop.booting hno).2.1
    have hn : s.log.n = 0 := hop'.idle hu hcom hzero
    have hsum := sum_left_le hop'
    change _ ≤ (maxopblocks - 1) * s.log.outstanding at hsum
    rw [hzero, Nat.mul_zero, Nat.le_zero] at hsum
    show s.log.n + _ + 1 ≤ _
    refine (Nat.le_of_eq ?_).trans (show 1 ≤ nlog - 1 by decide)
    rw [hn]
    exact congrArg (0 + · + 1) hsum

/-- `log_write` enters a block: either it is in the header already, or the operation may log one block
less. -/
theorem append (h : s.RoomInv) (hop : s.OpInv) (hbuf : s.SameBlocks s')
    (hpc : (s.proc p).pc = .appending i d) (hproc : s'.proc = update s.proc p q)
    (hlog : s'.log = logAppend s.log (s.bc.buf i).blockno) (hup : s'.up = s.up) (hq : q.pc = .ready)
    (htodo : q.todo = (s.proc p).todo) (hqop : q.op = (s.proc p).op)
    (hlogged : q.logged = insert (s.bc.buf i).blockno (s.proc p).logged) : s'.RoomInv := by
  have hsome := hop.appends p i d hpc
  obtain ⟨hnil, hcard⟩ := h.appends p i d hpc
  refine h.change hbuf hproc (fun hu => ?_) (fun x e r hr => ?_) fun j e hno => ?_
  · have hsum := sum_left_update s p q
    have hroom := h.room (hup.symm.trans hu)
    have hleft : left q = maxopblocks - 1 - (insert (s.bc.buf i).blockno (s.proc p).logged).card := by
      rw [left, hqop, if_pos hsome, hlogged]
    have hleft' : left (s.proc p) = maxopblocks - 1 - (s.proc p).logged.card := by rw [left, if_pos hsome]
    by_cases hin : Lists s.log (s.bc.buf i).blockno
    · have hmono := Finset.card_le_card (Finset.subset_insert (s.bc.buf i).blockno (s.proc p).logged)
      rw [hlog, logAppend_of_lists hin]
      omega
    · have hnew : (s.bc.buf i).blockno ∉ (s.proc p).logged := fun hmem => hin (hop.logged p hsome _ hmem)
      rw [Finset.card_insert_of_notMem hnew] at hleft hcard
      rw [hlog, logAppend_of_not_lists hin]
      show s.log.n + 1 + _ + 1 ≤ _
      omega
  · rw [htodo, hnil] at hr
    cases hr
  · rw [hq] at hno
    cases hno

theorem runs (h : s.RoomInv) (hop : s.OpInv) (hop' : s'.OpInv) (hbuf : s.SameBlocks s') (hr : s.Runs p s') :
    s'.RoomInv := by
  cases hr with
  | exec hready htodo he => exact h.exec hop hop' hbuf hready htodo he
  | acquire | hit | submit | read | written | unref =>
    exact h.same hbuf rfl rfl (Nat.le_refl _) rfl rfl (h.calls p) nofun
  | append hpc => exact h.append hop hbuf hpc rfl rfl rfl rfl rfl rfl rfl

theorem step (h : s.RoomInv) (hbio : s.BioInv) (hop : s.OpInv)
    (hok : s.Within (maxopblocks - 1) e) (hs : s.step e = some s') : s'.RoomInv := by
  have hop' := hop.step hok.inOp hs
  by_cases he : e = .crash
  · subst he
    obtain rfl := Option.some.inj hs
    exact boot_roomInv _ _
  have hbuf := hbio.sameBlocks hs he
  cases e with
  | call p a =>
    obtain ⟨hpc, -, hup, -, rfl⟩ := step_call hs
    refine h.same hbuf rfl rfl (Nat.le_refl _) rfl rfl (fun x d r hr => ?_) fun i d hno => ?_
    · obtain ⟨rfl, -⟩ := List.cons.inj (show [a] = _ from hr)
      exact hok.2
    · exact absurd (hpc.symm.trans hno) nofun
  | run p => exact h.runs hop hop' hbuf (run_eq_some hs)
  | intr =>
    obtain ⟨i, rest, -, rfl⟩ := ideintr_eq_some hs
    obtain ⟨hlog, hup, hproc⟩ := transfer_frame s i
    refine ⟨fun hu => ?_, fun p => ?_, fun p j d hpc => ?_⟩
    · rw [hlog, hproc]
      exact h.room (hup.symm.trans hu)
    · rw [hproc]
      exact h.calls p
    · rw [hproc] at hpc
      rw [hbuf p j d hpc]
      rw [hproc]
      exact h.appends p j d hpc
  | crash => exact absurd rfl he

end RoomInv

/-- **The log is never full**, if every operation logs at most `MAXOPBLOCKS - 1` different blocks. -/
theorem log_never_full (h : (system N).Reach (Within (maxopblocks - 1)) s) (hup : s.up = true) : s.Admitted := by
  have hinv : s.BioInv ∧ s.OpInv ∧ s.RoomInv := by
    refine h.invariant (I := fun s => s.BioInv ∧ s.OpInv ∧ s.RoomInv) ?_ fun s e s' hinv hok hs =>
      ⟨hinv.1.step hs, hinv.2.1.step hok.inOp hs, hinv.2.2.step hinv.1 hinv.2.1 hok hs⟩
    rintro s ⟨disk, rfl⟩
    exact ⟨boot_bioInv _ _, boot_opInv _, boot_roomInv _ _⟩
  obtain ⟨-, hop, hroom⟩ := hinv
  have hlt := hroom.room hup
  refine ⟨fun p htoo => ?_, by omega, hop.nodup hup⟩
  have hbig := htoo.2.2
  rw [nlog] at hlt hbig
  omega

/-! ## Three operations of `MAXOPBLOCKS` blocks -/

section Run

instance (k : ℕ) (s : State N) (e : Event N) : Decidable (s.Within k e) := by
  unfold Within
  split <;> infer_instance

/-- The first process boots from an empty disk: it reads the header, writes it and starts the others. -/
def bootRun (p : Fin (N + 1)) : List (Event N) :=
  List.replicate 3 (.run p) ++ [.intr] ++ List.replicate 6 (.run p) ++ [.intr] ++ List.replicate 9 (.run p) ++
    [.intr] ++ List.replicate 4 (.run p)

/-- A process logs a block that is not in the cache. -/
def logRun (p : Fin (N + 1)) (x : ℕ) : List (Event N) :=
  [.call p (.bread x), .run p, .run p, .run p, .intr, .run p,
    .call p (.logWrite x fun _ => 0#32), .run p, .run p, .call p (.brelse x), .run p, .run p]

/-- The processes begin operations, and log the blocks from 100 on, ten each: `t` of them. -/
def fillRun (p : ℕ → Fin 3) (t : ℕ) : List (Event 2) :=
  bootRun (p 0) ++ (List.range 3).flatMap (fun i => [.call (p i) .beginOp, .run (p i)]) ++
    (List.range t).flatMap fun i => logRun (p (i / 10)) (100 + i)

end Run

/-- **The log does fill up**: three operations in progress, which log ten different blocks each, reach
the panic `too big a transaction` at the thirtieth block. -/
theorem log_full : ∃ s : State 2, (system 2).Reach (Within maxopblocks) s ∧ s.up = true ∧ ¬ s.Admitted := by
  let last : Event 2 := .call 2 (.logWrite 129 fun _ => 0#32)
  obtain ⟨s, hreach, hn, hok, hcan⟩ := exists_reach (Within maxopblocks) (fillRun (Fin.ofNat 3) 29)
    (fun s => s.log.n = nlog - 1 ∧ s.Within maxopblocks last ∧ (s.step last).isSome) (by decide +kernel)
  obtain ⟨s', hs⟩ := Option.isSome_iff_exists.1 hcan
  obtain ⟨hpc, -, hup, -, rfl⟩ := step_call hs
  refine ⟨_, hreach.step hok hs, hup, fun hadm => hadm.room 2 ⟨hpc, ⟨129, fun _ => 0#32, [], ?_⟩, ?_⟩⟩
  · exact congrArg Proc.todo (update_self 2 _ s.proc)
  · exact Or.inr (Nat.le_of_eq hn.symm)

/-- One operation has logged a block. -/
theorem log_never_full_one : ∃ s : State 0, s.log.n = 1 ∧ s.Admitted := by
  obtain ⟨s, hreach, hn, hup⟩ := exists_reach (Within (maxopblocks - 1))
    (bootRun (N := 0) 0 ++ [.call 0 .beginOp, .run 0] ++ logRun 0 100) (fun s => s.log.n = 1 ∧ s.up = true) (by decide +kernel)
  exact ⟨s, hn, log_never_full hreach hup⟩

end OsLab.Xv6.State
