import OsLab.Xv6.LogDisk

/-!
# Phases of the log

Between two commits the log collects log writes; a commit copies the blocks to the log, writes the
header, installs the blocks and clears the header; after a crash recovery reads the header and does the
last two.  A `Phase` says where the log is in this, and for each phase what is in memory and on the disk.

* `Script` is what a commit or recovery has left to do, with the number of blocks it has copied.
* `Phase.settle`: a step that gives no block new contents keeps the phase.
* `Writing.copyOut`, `Writing.head`, `Installing.copyIn`, `Installing.clear` and `Cleared.clearHead` are
  the steps of the process that copies.
-/

namespace OsLab.Xv6.State

variable {N : ℕ} {s s' : State N} {p p' : Fin (N + 1)} {q : Proc} {a : Instr} {rest : List Instr} {i j x y : ℕ}
  {d : Data}

/-! ## Groups of operations -/

/-- The log writes of a group, one after the other. -/
def applyGroup (f : ℕ → Data) (g : List LogWrite) : ℕ → Data :=
  g.foldl (fun f w => Function.update f w.block w.data) f

/-- Groups, one after the other. -/
def applyGroups (f : ℕ → Data) (gs : List (List LogWrite)) : ℕ → Data := gs.foldl applyGroup f

theorem applyGroup_concat (f : ℕ → Data) (g : List LogWrite) (w : LogWrite) :
    applyGroup f (g ++ [w]) = Function.update (applyGroup f g) w.block w.data := by
  rw [applyGroup, List.foldl_append]
  rfl

theorem applyGroups_concat (f : ℕ → Data) (gs : List (List LogWrite)) (g : List LogWrite) :
    applyGroups f (gs ++ [g]) = applyGroup (applyGroups f gs) g := by
  rw [applyGroups, List.foldl_append]
  rfl

/-! ## The program of a commit and of recovery -/

/-- How far a commit or recovery has got: the number of blocks copied to the log, or installed. -/
inductive Stage where
  | write (c : ℕ)
  | install (c : ℕ)
  | cleared
  | done

/-- What is left to do at each stage, for a header `n`, `block`: blocks are read and released in between. -/
inductive Script (n : ℕ) (block : ℕ → ℕ) (fin : Instr) : Stage → List Instr → Prop
  | bread {st : Stage} {x : ℕ} {l : List Instr} : Script n block fin st l → Script n block fin st (.bread x :: l)
  | brelse {st : Stage} {x : ℕ} {l : List Instr} : Script n block fin st l → Script n block fin st (.brelse x :: l)
  | copyOut {c : ℕ} {l : List Instr} : c < n → Script n block fin (.write (c + 1)) l →
      Script n block fin (.write c) (.bwriteCopy (logstart + c + 1) (block c) :: l)
  | head {l : List Instr} : Script n block fin (.install 0) l → Script n block fin (.write n) (.bwriteHead :: l)
  | copyIn {c : ℕ} {l : List Instr} : c < n → Script n block fin (.install (c + 1)) l →
      Script n block fin (.install c) (.bwriteCopy (block c) (logstart + c + 1) :: l)
  | clear {l : List Instr} : Script n block fin .cleared l → Script n block fin (.install n) (.clear :: l)
  | clearHead {l : List Instr} : Script n block fin .done l → Script n block fin .cleared (.bwriteHead :: l)
  | fin : Script n block fin .done [fin]

section Script

variable {n c : ℕ} {block : ℕ → ℕ} {fin : Instr} {l : List Instr} {st : Stage}

/-- A loop over the blocks of the header, each of whose rounds is a step to the next stage. -/
theorem Script.rounds (st : ℕ → Stage) (round : ℕ → List Instr)
    (hround : ∀ {c l}, c < n → Script n block fin (st (c + 1)) l → Script n block fin (st c) (round c ++ l))
    (h : Script n block fin (st n) l) : Script n block fin (st 0) ((List.range n).flatMap round ++ l) := by
  have hrounds : ∀ m c, c + m = n → Script n block fin (st c) ((List.range' c m).flatMap round ++ l) := by
    intro m
    induction m with
    | zero =>
      rintro c rfl
      exact h
    | succ m ih =>
      intro c hc
      rw [List.range'_succ, List.flatMap_cons, List.append_assoc]
      exact hround (by omega) (ih (c + 1) (by omega))
  rw [List.range_eq_range']
  exact hrounds n 0 (Nat.zero_add n)

theorem Script.writeLog (h : Script n block fin (.write n) l) :
    Script n block fin (.write 0) (writeLog n block ++ l) :=
  .rounds .write _ (fun hc hl => .bread (.bread (.copyOut hc (.brelse (.brelse hl))))) h

theorem Script.installTrans (h : Script n block fin (.install n) l) :
    Script n block fin (.install 0) (installTrans n block ++ l) :=
  .rounds .install _ (fun hc hl => .bread (.bread (.copyIn hc (.brelse (.brelse hl))))) h

theorem script_commit {log : Log} (hn : 0 < log.n) : Script log.n log.block .committed (.write 0) (commit log) := by
  rw [commit, if_pos hn]
  simp only [List.append_assoc]
  exact .writeLog (.bread (.head (.brelse (.installTrans (.clear (.bread (.clearHead (.brelse .fin))))))))

theorem script_recoverRest : Script n block .booted (.install 0) (recoverRest n block) := by
  rw [recoverRest]
  simp only [List.cons_append, List.append_assoc]
  exact .brelse (.installTrans (.clear (.bread (.clearHead (.brelse .fin)))))

theorem Script.ne_nil (h : Script n block fin st l) : l ≠ [] := by
  cases h <;> exact nofun

end Script

/-! ## Phases -/

/-- The block holds a header with the `n` entries of `block`. -/
def HeadIs (d : Data) (n : ℕ) (block : ℕ → ℕ) : Prop := (headOf d).1 = n ∧ ∀ i < n, (headOf d).2 i = block i

/-- Operations are in progress, or none is. -/
structure Collecting (base : ℕ → Data) (s : State N) : Prop where
  up : s.up = true
  committing : s.log.committing = false
  calm : ∀ p, s.pend p = none
  clean : (headOf (s.hist.last logstart)).1 = 0
  durable : s.hist.durable = s.hist.groups.length
  contents : ∀ x, ¬ InLog x → s.hist.last x = applyGroup (applyGroups base s.hist.groups) s.hist.current x
  lag : ∀ x, s.Lag x ↔ Lists s.log x
  home : ∀ x, Lists s.log x → ¬ InLog x ∧ x < fssize
  current : ∀ w ∈ s.hist.current, Lists s.log w.block

/-- Process `p` copies blocks, for a header `n`, `block`. -/
structure Copier (s : State N) (p : Fin (N + 1)) (n : ℕ) (block : ℕ → ℕ) (fin : Instr) (st : Stage) : Prop where
  script : Script n block fin st (s.proc p).todo
  others : ∀ p' ≠ p, s.pend p' = none
  current : s.hist.current = []
  home : ∀ i < n, ¬ InLog (block i) ∧ block i < fssize
  inj : ∀ i < n, ∀ j < n, block i = block j → i = j
  ends : fin = .committed ∨ fin = .booted

/-- The blocks of the group are copied to the log.  If there are more than the log has room for, all
buffers are dirty and the first block cannot be read. -/
structure Writing (base : ℕ → Data) (s : State N) (p : Fin (N + 1)) (n : ℕ) (block : ℕ → ℕ) (c : ℕ) : Prop
    extends Copier s p n block .committed (.write c) where
  size : n ≤ nlog - 1 ∨ nbuf ≤ n ∧ c = 0 ∧ (s.proc p).pc = .ready ∧
    ∃ rest, (s.proc p).todo = .bread (logstart + 1) :: rest
  log : s.log.n = n ∧ s.log.block = block
  pos : 0 < n
  clean : (headOf (s.hist.last logstart)).1 = 0
  durable : s.hist.durable + 1 = s.hist.groups.length
  contents : ∀ x, ¬ InLog x → s.hist.last x = applyGroups base s.hist.groups x
  copied : ∀ i < c, s.hist.last (logstart + i + 1) = s.hist.last (block i)
  lag : ∀ x, s.Lag x → (∃ i < n, block i = x) ∨ s.pend p = some x
  pinned : ∀ i < n, s.Lag (block i)
  pending : ∀ x, s.pend p = some x → ∃ c', c = c' + 1 ∧ c' < n ∧ x = logstart + c' + 1

/-- The header is being written. -/
structure Heading (base : ℕ → Data) (s : State N) (p : Fin (N + 1)) (n : ℕ) (block : ℕ → ℕ) : Prop
    extends Copier s p n block .committed (.install 0) where
  size : n ≤ nlog - 1
  pos : 0 < n
  header : HeadIs (s.hist.last logstart) n block
  clean : (headOf (s.disk logstart)).1 = 0
  durable : s.hist.durable + 1 = s.hist.groups.length
  contents : ∀ x, ¬ InLog x → s.hist.last x = applyGroups base s.hist.groups x
  copied : ∀ i < n, s.hist.last (logstart + i + 1) = s.hist.last (block i)
  lag : ∀ x, s.Lag x → (∃ i < n, block i = x) ∨ x = logstart
  lagging : s.Lag logstart
  pending : s.pend p = some logstart

/-- The blocks of the header are installed. -/
structure Installing (s : State N) (p : Fin (N + 1)) (n : ℕ) (block : ℕ → ℕ) (fin : Instr) (c : ℕ) : Prop
    extends Copier s p n block fin (.install c) where
  size : n ≤ nlog - 1
  header : HeadIs (s.hist.last logstart) n block
  durable : s.hist.durable = s.hist.groups.length
  installed : ∀ i < c, s.hist.last (block i) = s.hist.last (logstart + i + 1)
  lag : ∀ x, s.Lag x → (∃ i, c ≤ i ∧ i < n ∧ block i = x) ∨ s.pend p = some x ∧ ¬ InLog x
  pending : ∀ x, s.pend p = some x → x = logstart ∨ ∃ c', c = c' + 1 ∧ c' < n ∧ x = block c'

/-- All blocks are installed, and the header in memory is empty. -/
structure Cleared (s : State N) (p : Fin (N + 1)) (n : ℕ) (block : ℕ → ℕ) (fin : Instr) : Prop
    extends Copier s p n block fin .cleared where
  size : n ≤ nlog - 1
  log : s.log.n = 0
  header : HeadIs (s.hist.last logstart) n block
  durable : s.hist.durable = s.hist.groups.length
  installed : ∀ i < n, s.hist.last (block i) = s.hist.last (logstart + i + 1)
  lag : ∀ x, ¬ s.Lag x
  calm : s.pend p = none

/-- The empty header is written. -/
structure Done (base : ℕ → Data) (s : State N) (p : Fin (N + 1)) (n : ℕ) (block : ℕ → ℕ) (fin : Instr) : Prop
    extends Copier s p n block fin .done where
  log : s.log.n = 0
  clean : (headOf (s.hist.last logstart)).1 = 0
  durable : s.hist.durable = s.hist.groups.length
  contents : ∀ x, ¬ InLog x → s.hist.last x = applyGroups base s.hist.groups x
  lag : ∀ x, s.Lag x → s.pend p = some x
  pending : ∀ x, s.pend p = some x → x = logstart

/-- Recovery reads the header. -/
structure Reading (s : State N) : Prop where
  up : s.up = false
  todo : (s.proc 0).todo <:+ initlog
  calm : ∀ p, s.pend p = none
  durable : s.hist.durable = s.hist.groups.length
  current : s.hist.current = []
  lag : ∀ x, ¬ s.Lag x

/-- Where the log is. -/
inductive Phase (base : ℕ → Data) (s : State N) : Prop
  | collecting : s.Collecting base → Phase base s
  | writing {p : Fin (N + 1)} {n : ℕ} {block : ℕ → ℕ} {c : ℕ} : s.Writing base p n block c → Phase base s
  | heading {p : Fin (N + 1)} {n : ℕ} {block : ℕ → ℕ} : s.Heading base p n block → Phase base s
  | installing {p : Fin (N + 1)} {n : ℕ} {block : ℕ → ℕ} {fin : Instr} {c : ℕ} :
      s.Installing p n block fin c → Phase base s
  | cleared {p : Fin (N + 1)} {n : ℕ} {block : ℕ → ℕ} {fin : Instr} : s.Cleared p n block fin → Phase base s
  | done {p : Fin (N + 1)} {n : ℕ} {block : ℕ → ℕ} {fin : Instr} : s.Done base p n block fin → Phase base s
  | reading : s.Reading → Phase base s

/-- Nothing changes, but a process may learn that its write is done. -/
structure Settles (s s' : State N) : Prop extends Quiet s s' where
  pend : ∀ p, s'.pend p = s.pend p ∨ s'.pend p = none ∧ ∀ x, s.pend p = some x → ¬ s.Lag x

section Settle

variable {base : ℕ → Data} {n c : ℕ} {block : ℕ → ℕ} {fin : Instr} {st : Stage}

theorem Settles.pend_none (h : s.Settles s') (hp : s.pend p = none) : s'.pend p = none := by
  rcases h.pend p with heq | ⟨hnone, -⟩
  · rw [heq, hp]
  · exact hnone

theorem Settles.pend_some (h : s.Settles s') (hp : s'.pend p = some x) : s.pend p = some x := by
  rcases h.pend p with heq | ⟨hnone, -⟩
  · rw [← heq, hp]
  · rw [hnone] at hp
    cases hp

/-- A block that lags is still waited for. -/
theorem Settles.pend_lag (h : s.Settles s') (hp : s.pend p = some x) (hx : s.Lag x) : s'.pend p = some x := by
  rcases h.pend p with heq | ⟨-, hno⟩
  · rw [heq, hp]
  · exact absurd hx (hno x hp)

theorem Collecting.settle (h : s.Collecting base) (hs : s.Settles s') : s'.Collecting base := by
  obtain ⟨bc, lock, queue, proc, r, k, rfl⟩ := hs.exists_eq
  exact { h with
    calm p := hs.pend_none (h.calm p)
    lag x := (hs.lag x).trans (h.lag x) }

theorem Copier.settle (h : s.Copier p n block fin st) (hs : s.Settles s')
    (htodo : Script n block fin st (s'.proc p).todo) : s'.Copier p n block fin st :=
  { h with
    script := htodo
    others p' hp := hs.pend_none (h.others p' hp)
    current := by rw [hs.current, h.current] }

theorem Writing.settle (h : s.Writing base p n block c) (hs : s.Settles s')
    (htodo : Script n block .committed (.write c) (s'.proc p).todo)
    (hsize : n ≤ nlog - 1 ∨ nbuf ≤ n ∧ c = 0 ∧ (s'.proc p).pc = .ready ∧
      ∃ rest, (s'.proc p).todo = .bread (logstart + 1) :: rest) : s'.Writing base p n block c := by
  obtain ⟨bc, lock, queue, proc, r, k, rfl⟩ := hs.exists_eq
  exact { h with
    toCopier := h.toCopier.settle hs htodo
    size := hsize
    lag x hx := by
      have hx' := (hs.lag x).1 hx
      exact (h.lag x hx').imp_right fun hp => hs.pend_lag hp hx'
    pinned i hi := (hs.lag _).2 (h.pinned i hi)
    pending x hx := h.pending x (hs.pend_some hx) }

theorem Heading.settle (h : s.Heading base p n block) (hs : s.Settles s')
    (htodo : Script n block .committed (.install 0) (s'.proc p).todo) : s'.Heading base p n block := by
  obtain ⟨bc, lock, queue, proc, r, k, rfl⟩ := hs.exists_eq
  exact { h with
    toCopier := h.toCopier.settle hs htodo
    lag x hx := h.lag x ((hs.lag x).1 hx)
    lagging := (hs.lag _).2 h.lagging
    pending := hs.pend_lag h.pending h.lagging }

theorem Installing.settle (h : s.Installing p n block fin c) (hs : s.Settles s')
    (htodo : Script n block fin (.install c) (s'.proc p).todo) : s'.Installing p n block fin c := by
  obtain ⟨bc, lock, queue, proc, r, k, rfl⟩ := hs.exists_eq
  exact { h with
    toCopier := h.toCopier.settle hs htodo
    lag x hx := by
      have hx' := (hs.lag x).1 hx
      exact (h.lag x hx').imp_right fun hp => ⟨hs.pend_lag hp.1 hx', hp.2⟩
    pending x hx := h.pending x (hs.pend_some hx) }

theorem Cleared.settle (h : s.Cleared p n block fin) (hs : s.Settles s')
    (htodo : Script n block fin .cleared (s'.proc p).todo) : s'.Cleared p n block fin := by
  obtain ⟨bc, lock, queue, proc, r, k, rfl⟩ := hs.exists_eq
  exact { h with
    toCopier := h.toCopier.settle hs htodo
    lag x := hs.not_lag (h.lag x)
    calm := hs.pend_none h.calm }

theorem Done.settle (h : s.Done base p n block fin) (hs : s.Settles s')
    (htodo : Script n block fin .done (s'.proc p).todo) : s'.Done base p n block fin := by
  obtain ⟨bc, lock, queue, proc, r, k, rfl⟩ := hs.exists_eq
  exact { h with
    toCopier := h.toCopier.settle hs htodo
    lag x hx := by
      have hx' := (hs.lag x).1 hx
      exact hs.pend_lag (h.lag x hx') hx'
    pending x hx := h.pending x (hs.pend_some hx) }

theorem Reading.settle (h : s.Reading) (hs : s.Settles s') (htodo : (s'.proc 0).todo <:+ initlog) : s'.Reading := by
  obtain ⟨bc, lock, queue, proc, r, k, rfl⟩ := hs.exists_eq
  exact { h with
    todo := htodo
    calm p := hs.pend_none (h.calm p)
    lag x := hs.not_lag (h.lag x) }

end Settle

/-! ## Steps that settle -/

/-- What process `r` has begun, in a step that settles. -/
inductive Pops (s s' : State N) (r : Fin (N + 1)) : Prop
  | goes : (s'.proc r).todo = (s.proc r).todo → (s.proc r).pc ≠ .ready → Pops s s' r
  | bread {x i : ℕ} {c : Bcache} : (s.proc r).todo = .bread x :: (s'.proc r).todo →
      s.bc.bget rootdev x = some (i, c) → Pops s s' r
  | brelse {x : ℕ} : (s.proc r).todo = .brelse x :: (s'.proc r).todo → Pops s s' r
  | logWrite {x : ℕ} {d : Data} : (s.proc r).todo = .logWrite x d :: (s'.proc r).todo → Pops s s' r
  | call : (s.proc r).todo = [] → s.up = true → Pops s s' r

section Settle

variable {base : ℕ → Data} {n c : ℕ} {block : ℕ → ℕ} {fin : Instr} {st : Stage} {r : Fin (N + 1)}

theorem Pops.script (h : s.Pops s' r) (hends : fin = .committed ∨ fin = .booted)
    (hscript : Script n block fin st (s.proc r).todo) : Script n block fin st (s'.proc r).todo := by
  cases h with
  | goes htodo _ => rwa [htodo]
  | bread htodo | brelse htodo | logWrite htodo =>
    rw [htodo] at hscript
    generalize (s'.proc r).todo = l at hscript
    cases hscript
    all_goals first | assumption | rcases hends with h | h <;> cases h
  | call hnil _ => exact absurd hnil hscript.ne_nil

/-- If every buffer is dirty, no other block can be read. -/
theorem BioInv.bget_full (h : s.BioInv) (hlag : ∀ i < n, s.Lag (block i)) (hn : nbuf ≤ n)
    (hinj : ∀ i < n, ∀ j < n, block i = block j → i = j) (hx : ∀ i < n, block i ≠ x) (c : Bcache) :
    s.bc.bget rootdev x ≠ some (i, c) := by
  intro hb
  -- the buffers of the first `nbuf` blocks are all the buffers
  choose f hdirty hblock using fun t : Fin nbuf => hlag t (t.isLt.trans_le hn)
  have hlt : ∀ t, f t < nbuf := fun t => (h.dirty _ (hdirty t)).1
  let g : Fin nbuf → Fin nbuf := fun t => ⟨f t, hlt t⟩
  have hg : Function.Injective g := by
    intro t u htu
    have hfu : f t = f u := congrArg Fin.val htu
    refine Fin.ext (hinj t (t.isLt.trans_le hn) u (u.isLt.trans_le hn) ?_)
    rw [← hblock t, ← hblock u, hfu]
  have hall : ∀ j < nbuf, ∃ t : Fin nbuf, f t = j := fun j hj => by
    obtain ⟨t, ht⟩ := (Finite.injective_iff_surjective.1 hg) ⟨j, hj⟩
    exact ⟨t, congrArg Fin.val ht⟩
  rcases h.bget_cases hb with ⟨hi, -, hix, -⟩ | ⟨hv, -, -⟩
  · obtain ⟨t, rfl⟩ := hall i hi
    exact hx t (t.isLt.trans_le hn) ((hblock t).symm.trans hix)
  · obtain ⟨hi, -, hclean, -⟩ := h.victim_spec hv
    obtain ⟨t, rfl⟩ := hall i hi
    rw [hdirty t] at hclean
    cases hclean

/-- Phases are kept by steps that settle. -/
theorem Phase.settle (h : s.Phase base) (hbio : s.BioInv) (hs : s.Settles s') (hpops : s.Pops s' r)
    (hother : ∀ p ≠ r, (s'.proc p).todo = (s.proc p).todo ∧ (s'.proc p).pc = (s.proc p).pc) : s'.Phase base := by
  have hscript : ∀ {p n block fin st}, s.Copier p n block fin st → Script n block fin st (s'.proc p).todo := by
    intro p n block fin st hc
    by_cases hp : p = r
    · subst hp
      exact hpops.script hc.ends hc.script
    · rw [(hother p hp).1]
      exact hc.script
  cases h with
  | collecting h => exact .collecting (h.settle hs)
  | @writing p n block c h =>
    refine .writing (h.settle hs (hscript h.toCopier) (h.size.imp_right fun ⟨hn, hc, hpc, rest, htodo⟩ => ?_))
    by_cases hp : p = r
    · -- the first block of the log cannot be read
      subst hp
      cases hpops with
      | goes _ hno => exact absurd hpc hno
      | bread htodo' hb =>
        rw [htodo] at htodo'
        obtain ⟨hx, -⟩ := List.cons.inj htodo'
        obtain rfl := Instr.bread.inj hx
        refine absurd hb (hbio.bget_full h.pinned hn h.inj (fun i hi heq => (h.home i hi).1 ?_) _)
        rw [heq]
        decide
      | brelse htodo' | logWrite htodo' => cases htodo.symm.trans htodo'
      | call hnil _ => cases htodo.symm.trans hnil
    · refine ⟨hn, hc, ?_, rest, ?_⟩
      · rw [(hother p hp).2, hpc]
      · rw [(hother p hp).1, htodo]
  | heading h => exact .heading (h.settle hs (hscript h.toCopier))
  | installing h => exact .installing (h.settle hs (hscript h.toCopier))
  | cleared h => exact .cleared (h.settle hs (hscript h.toCopier))
  | done h => exact .done (h.settle hs (hscript h.toCopier))
  | reading h =>
    refine .reading (h.settle hs ?_)
    by_cases hp : 0 = r
    · subst hp
      have htodo := h.todo
      cases hpops with
      | goes heq _ => rwa [heq]
      | bread heq | brelse heq | logWrite heq =>
        rw [heq] at htodo
        exact (List.suffix_cons _ _).trans htodo
      | call _ hup => cases h.up.symm.trans hup
    · rw [(hother 0 hp).1]
      exact h.todo

end Settle

/-! ## Steps of the process that copies -/

/-- Process `p` gives `d` to the block `x` and waits for it to be written. -/
structure Gives (s s' : State N) (p : Fin (N + 1)) (x : ℕ) (d : Data) : Prop where
  log : s'.log = s.log
  disk : s'.disk = s.disk
  last : s'.hist.last = Function.update s.hist.last x d
  current : s'.hist.current = s.hist.current
  groups : s'.hist.groups = s.hist.groups
  durable : s'.hist.durable = s.hist.durable
  lag : ∀ y, s'.Lag y ↔ s.Lag y ∨ x = y
  idle : s.pend p = none
  pend : s'.pend p = some x
  others : ∀ p' ≠ p, s'.pend p' = s.pend p'

section Copy

variable {base : ℕ → Data} {n c : ℕ} {block : ℕ → ℕ} {fin : Instr} {st : Stage}

theorem Gives.last_self (h : s.Gives s' p x d) : s'.hist.last x = d := by
  rw [h.last, Function.update_self]

theorem Gives.last_of_ne (h : s.Gives s' p x d) (hy : y ≠ x) : s'.hist.last y = s.hist.last y := by
  rw [h.last, Function.update_of_ne hy]

theorem Copier.gives (h : s.Copier p n block fin st) (hg : s.Gives s' p x d) {st' : Stage}
    (hscript : Script n block fin st' (s'.proc p).todo) : s'.Copier p n block fin st' where
  script := hscript
  others p' hp := by rw [hg.others p' hp, h.others p' hp]
  current := by rw [hg.current, h.current]
  home := h.home
  inj := h.inj
  ends := h.ends

theorem Copier.entry_ne (h : s.Copier p n block fin st) (hn : n ≤ nlog - 1) (hi : i < n) (hj : j < n) :
    block i ≠ logstart + j + 1 := fun heq => (h.home i hi).1 (heq ▸ inLog_entry hn hj)

theorem Copier.head_ne (h : s.Copier p n block fin st) (hi : i < n) : block i ≠ logstart := fun heq =>
  (h.home i hi).1 (heq ▸ logstart_inLog)

/-- A block of the group is copied to the log. -/
theorem Writing.copyOut (h : s.Writing base p n block c) (hn : n ≤ nlog - 1) (hc : c < n)
    (hg : s.Gives s' p (logstart + c + 1) (s.hist.last (block c)))
    (hscript : Script n block .committed (.write (c + 1)) (s'.proc p).todo) : s'.Writing base p n block (c + 1) where
  toCopier := h.toCopier.gives hg hscript
  size := Or.inl hn
  log := by
    rw [hg.log]
    exact h.log
  pos := h.pos
  clean := by
    rw [hg.last_of_ne (by omega)]
    exact h.clean
  durable := by rw [hg.durable, hg.groups, h.durable]
  contents x hx := by
    rw [hg.last_of_ne (by rintro rfl; exact hx (inLog_entry hn hc)), hg.groups]
    exact h.contents x hx
  copied i hi := by
    by_cases hic : i = c
    · rw [hic, hg.last_self, hg.last_of_ne (h.entry_ne hn hc hc)]
    · rw [hg.last_of_ne (by omega), hg.last_of_ne (h.entry_ne hn (by omega) hc)]
      exact h.copied i (by omega)
  lag y hy := by
    rcases (hg.lag y).1 hy with hy | rfl
    · refine (h.lag y hy).imp_right fun hp => ?_
      rw [hg.idle] at hp
      cases hp
    · exact Or.inr hg.pend
  pinned i hi := (hg.lag _).2 (Or.inl (h.pinned i hi))
  pending y hy := by
    rw [hg.pend] at hy
    exact ⟨c, rfl, hc, (Option.some.inj hy).symm⟩

/-- No block of the log lags before its header is written. -/
theorem Writing.head_not_lag (h : s.Writing base p n block c) (hp : s.pend p = none) : ¬ s.Lag logstart := by
  intro hlag
  rcases h.lag _ hlag with ⟨i, hi, heq⟩ | hno
  · exact h.head_ne hi heq
  · rw [hp] at hno
    cases hno

/-- The header is given to `bwrite`. -/
theorem Writing.head (h : s.Writing base p n block n) (hbio : s.BioInv) (hn : n ≤ nlog - 1)
    (hg : s.Gives s' p logstart (s.headWords (s.hist.last logstart)))
    (hscript : Script n block .committed (.install 0) (s'.proc p).todo) : s'.Heading base p n block where
  toCopier := h.toCopier.gives hg hscript
  size := hn
  pos := h.pos
  header := by
    rw [hg.last_self]
    have hlt : s.log.n < 2 ^ 31 := by
      rw [h.log.1]
      rw [show nlog - 1 = 29 from rfl] at hn
      omega
    have hblock : ∀ i < s.log.n, s.log.block i < 2 ^ 32 := by
      rw [h.log.1, h.log.2]
      exact fun i hi => (h.home i hi).2.trans (by decide)
    obtain ⟨h1, h2⟩ := headOf_headWords hlt hblock (s.hist.last logstart)
    rw [h.log.1] at h1 h2
    rw [h.log.2] at h2
    exact ⟨h1, h2⟩
  clean := by
    rw [hg.disk, disk_of_not_lag hbio (h.head_not_lag hg.idle)]
    exact h.clean
  durable := by rw [hg.durable, hg.groups, h.durable]
  contents x hx := by
    rw [hg.last_of_ne (by rintro rfl; exact hx logstart_inLog), hg.groups]
    exact h.contents x hx
  copied i hi := by
    rw [hg.last_of_ne (by omega), hg.last_of_ne (h.head_ne hi)]
    exact h.copied i hi
  lag y hy := by
    rcases (hg.lag y).1 hy with hy | rfl
    · refine (h.lag y hy).imp_right fun hp => ?_
      rw [hg.idle] at hp
      cases hp
    · exact Or.inr rfl
  lagging := (hg.lag _).2 (Or.inr rfl)
  pending := hg.pend

/-- A block is installed. -/
theorem Installing.copyIn (h : s.Installing p n block fin c) (hc : c < n)
    (hg : s.Gives s' p (block c) (s.hist.last (logstart + c + 1)))
    (hscript : Script n block fin (.install (c + 1)) (s'.proc p).todo) : s'.Installing p n block fin (c + 1) where
  toCopier := h.toCopier.gives hg hscript
  size := h.size
  header := by
    rw [hg.last_of_ne (h.head_ne hc).symm]
    exact h.header
  durable := by rw [hg.durable, hg.groups, h.durable]
  installed i hi := by
    by_cases hic : i = c
    · rw [hic, hg.last_self, hg.last_of_ne (h.entry_ne h.size hc hc).symm]
    · have hin : i < n := by omega
      rw [hg.last_of_ne (fun heq => hic (h.inj i hin c hc heq)), hg.last_of_ne (h.entry_ne h.size hc hin).symm]
      exact h.installed i (by omega)
  lag y hy := by
    rcases (hg.lag y).1 hy with hy | rfl
    · rcases h.lag y hy with ⟨i, hci, hin, rfl⟩ | ⟨hp, -⟩
      · by_cases hic : i = c
        · subst hic
          exact Or.inr ⟨hg.pend, (h.home i hin).1⟩
        · exact Or.inl ⟨i, by omega, hin, rfl⟩
      · rw [hg.idle] at hp
        cases hp
    · exact Or.inr ⟨hg.pend, (h.home c hc).1⟩
  pending y hy := by
    rw [hg.pend] at hy
    exact Or.inr ⟨c, rfl, hc, (Option.some.inj hy).symm⟩

/-- The header in memory is cleared. -/
theorem Installing.clear (h : s.Installing p n block fin n) (hp : s.pend p = none) {log : Log} (hlog : log.n = 0)
    (hq : Script n block fin .cleared q.todo) (hpc : q.pc = .ready) (hother : ∀ p' ≠ p, s'.pend p' = s.pend p')
    (hs : s' = ({ s with log := log }).setProc p q) : s'.Cleared p n block fin where
  script := by
    rw [hs, setProc_proc]
    exact hq
  others p' hp' := by rw [hother p' hp', h.others p' hp']
  current := by
    rw [hs]
    exact h.current
  home := h.home
  inj := h.inj
  ends := h.ends
  size := h.size
  log := by
    rw [hs]
    exact hlog
  header := by
    rw [hs]
    exact h.header
  durable := by
    rw [hs]
    exact h.durable
  installed := by
    rw [hs]
    exact h.installed
  lag x := by
    rw [hs]
    intro hx
    rcases h.lag x hx with ⟨i, hci, hin, -⟩ | ⟨hno, -⟩
    · omega
    · rw [hp] at hno
      cases hno
  calm := by
    rw [pend, hs, setProc_proc, hpc]

/-- When all blocks are installed, the disk is as recovery would leave it. -/
theorem Cleared.recovered (h : s.Cleared p n block fin) (hbio : s.BioInv) (hhead : HeaderOk s.disk)
    (hx : ¬ InLog x) : recover s.disk x = s.hist.last x := by
  have hdisk : s.disk = s.hist.last := funext fun y => disk_of_not_lag hbio (h.lag y)
  obtain ⟨hn, hblock⟩ := h.header
  rw [← hdisk] at hn hblock
  by_cases hin : ∃ i < n, block i = x
  · obtain ⟨i, hi, rfl⟩ := hin
    have hrec := recover_of_lists hhead (i := i) (by rw [hn]; exact hi)
    rw [hblock i hi] at hrec
    rw [hrec, h.installed i hi, hdisk]
  · rw [recover_of_not_lists (fun i hi heq => hin ⟨i, by rw [← hn]; exact hi, ?_⟩)
      (by rintro rfl; exact hx logstart_inLog), hdisk]
    rw [← hblock i (by rw [← hn]; exact hi)]
    exact heq

/-- The empty header is given to `bwrite`. -/
theorem Cleared.clearHead (h : s.Cleared p n block fin) (hbio : s.BioInv) (hhead : HeaderOk s.disk)
    (hrec : ∀ x, ¬ InLog x → recover s.disk x = applyGroups base (s.hist.groups.take s.hist.durable) x)
    (hg : s.Gives s' p logstart (s.headWords (s.hist.last logstart)))
    (hscript : Script n block fin .done (s'.proc p).todo) : s'.Done base p n block fin where
  toCopier := h.toCopier.gives hg hscript
  log := by rw [hg.log, h.log]
  clean := by
    rw [hg.last_self, headWords_zero h.log]
    exact headOf_clearHead
  durable := by rw [hg.durable, hg.groups, h.durable]
  contents x hx := by
    have := hrec x hx
    rw [h.durable, List.take_length, h.recovered hbio hhead hx] at this
    rw [hg.last_of_ne (by rintro rfl; exact hx logstart_inLog), hg.groups, this]
  lag y hy := by
    rcases (hg.lag y).1 hy with hy | rfl
    · exact absurd hy (h.lag y)
    · exact hg.pend
  pending y hy := by
    rw [hg.pend] at hy
    exact (Option.some.inj hy).symm

end Copy

end OsLab.Xv6.State
