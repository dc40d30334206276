import OsLab.Lib.Run
import OsLab.Xv6.Bio

/-!
# The log and the disk: `log.c`, `bio.c` and `ide.c` together

Any number of processes use the file system: each runs `begin_op`, `bread`, `log_write`, `bwrite`,
`brelse` and `end_op` in any order that the layers above may choose, and the sections of these
functions that a lock makes atomic are interleaved in any way.  A process that ends the last
operation runs `commit`; after a crash process 0 runs `recover_from_log` before anything else.

A function is cut into atomic steps where it releases a lock or waits: `bread` takes a reference
(under `bcache.lock`), waits for the sleep-lock of the buffer, looks at its flags, and if need be
queues a request (under `idelock`) and waits for the interrupt that completes it.  `log_write` reads
`log.lh.n` before it takes `log.lock`.  What a process does to the data of a buffer whose sleep-lock
it holds is done in the step that hands the data over, by `log_write` or `bwrite`.

A panic is the absence of a step.
-/

namespace OsLab.Xv6

open Function

/-- `sb.logstart`, as `mkfs` writes it. -/
def logstart : ℕ := 2
/-- `sb.nlog`, as `mkfs` writes it. -/
def nlog : ℕ := logsize

/-- The block is one of the log. -/
def InLog (x : ℕ) : Prop := logstart ≤ x ∧ x < logstart + nlog

instance (x : ℕ) : Decidable (InLog x) := inferInstanceAs (Decidable (_ ∧ _))

/-! ## State -/

/-- `log`, but for what the superblock says: the number of operations in progress, whether a commit is
in progress, and the header, `lh.n` and `lh.block`. -/
structure Log where
  outstanding : ℕ
  committing : Bool
  n : ℕ
  block : ℕ → ℕ

/-- What a process still has to do. -/
inductive Instr where
  /-- `bread(dev, x)` -/
  | bread (x : ℕ)
  /-- The buffer of `x` is filled with `d` and given to `log_write`. -/
  | logWrite (x : ℕ) (d : Data)
  /-- The buffer of `x` is filled with `d` and given to `bwrite`. -/
  | bwrite (x : ℕ) (d : Data)
  /-- `memmove` from the buffer of `src` to that of `dst`, and `bwrite` of that one. -/
  | bwriteCopy (dst src : ℕ)
  /-- The middle of `write_head`: the header is copied to the buffer, and `bwrite`. -/
  | bwriteHead
  /-- The middle of `read_head`. -/
  | readHead
  /-- `brelse` of the buffer of `x` -/
  | brelse (x : ℕ)
  /-- `log.lh.n = 0` -/
  | clear
  /-- The end of `end_op` after a commit. -/
  | committed
  | beginOp
  | endOp
  /-- The end of `initlog`. -/
  | booted

/-- Where a process is in the function it runs; `i` is the buffer and `x` the block it was asked for. -/
inductive Pc where
  | ready
  /-- `acquiresleep`, at the end of `bget` -/
  | locking (i x : ℕ)
  /-- `bread`, with the lock -/
  | checking (i x : ℕ)
  /-- The wait in `iderw`, called from `bread` of a block or from `bwrite`. -/
  | waiting (i : ℕ) (reading : Option ℕ)
  /-- `brelse`, without the lock -/
  | unrefing (i : ℕ)
  /-- `log_write`, after its checks -/
  | appending (i : ℕ) (d : Data)

/-- A process: where it is, what comes next, the buffers it has, the number of the operation it is in,
and the blocks it has logged in it. -/
structure Proc where
  pc : Pc
  todo : List Instr
  held : List ℕ
  op : Option ℕ
  logged : Finset ℕ

/-- A `log_write`: the operation, the block and the contents. -/
structure LogWrite where
  op : ℕ
  block : ℕ
  data : Data

/-- What happened, for the statements about it: the contents last given to each block, when each
buffer was last released, the log writes of the group being collected and of the groups given to
`commit`, how many of these are on the disk and of how many `commit` has returned. -/
structure History where
  last : ℕ → Data
  released : ℕ → ℕ
  clock : ℕ
  nextOp : ℕ
  current : List LogWrite
  groups : List (List LogWrite)
  durable : ℕ
  returned : ℕ

/-- The machine, with processes `0` to `N`. -/
structure State (N : ℕ) where
  bc : Bcache
  /-- The sleep-locks of the buffers. -/
  lock : ℕ → Option (Fin (N + 1))
  idequeue : List ℕ
  disk : ℕ → Data
  log : Log
  proc : Fin (N + 1) → Proc
  up : Bool
  hist : History

variable {N i : ℕ}

namespace State

def setProc (s : State N) (p : Fin (N + 1)) (q : Proc) : State N :=
  { s with proc := Function.update s.proc p q }

/-- The buffer `p` has for block `x`, if it has one and `holdingsleep`. -/
def holding (s : State N) (p : Fin (N + 1)) (x : ℕ) : Option ℕ :=
  (s.proc p).held.find? fun i =>
    (s.bc.buf i).dev = rootdev ∧ (s.bc.buf i).blockno = x ∧ s.lock i = some p

/-! ## The disk driver -/

/-- `idestart` panics on a block number out of range. -/
def canStart (s : State N) (i : ℕ) : Prop := (s.bc.buf i).blockno < fssize

instance (s : State N) (i : ℕ) : Decidable (s.canStart i) := inferInstanceAs (Decidable (_ < _))

/-- `iderw(b)`, up to its wait. -/
def iderw (s : State N) (i : ℕ) : Option (State N) :=
  if (s.bc.buf i).valid = true ∧ (s.bc.buf i).dirty = false then none
  else if s.idequeue = [] ∧ ¬ s.canStart i then none
  else some { s with idequeue := s.idequeue ++ [i] }

/-- The disk has completed the request of buffer `i`: what is written or read. -/
def transfer (s : State N) (i : ℕ) : State N :=
  let b := s.bc.buf i
  if b.dirty then
    { s with
      disk := Function.update s.disk b.blockno b.data
      bc := s.bc.modifyBuf i fun b => { b with valid := true, dirty := false }
      hist := if b.blockno = logstart ∧ b.data 0 ≠ 0#32 then
        { s.hist with durable := s.hist.groups.length } else s.hist }
  else
    { s with
      bc := s.bc.modifyBuf i fun b => { b with valid := true, dirty := false, data := s.disk b.blockno } }

/-- `ideintr()`. -/
def ideintr (s : State N) : Option (State N) :=
  match s.idequeue with
  | [] => none
  | i :: rest =>
    let s' := { s.transfer i with idequeue := rest }
    match rest with
    | [] => some s'
    | j :: _ => if s'.canStart j then some s' else none

/-! ## The log -/

/-- `log.lh` as the words of a header block. -/
def headWords (s : State N) (old : Data) : Data := fun w =>
  if w = 0 then BitVec.ofNat 32 s.log.n
  else if w ≤ s.log.n then BitVec.ofNat 32 (s.log.block (w - 1)) else old w

/-- The header that the words of a block stand for: `n`, and the entries, of which the first `n` are
used. -/
def headOf (d : Data) : ℕ × (ℕ → ℕ) := ((d 0).toInt.toNat, fun i => (d (i + 1)).toNat)

/-- `write_head()`. -/
def writeHead : List Instr := [.bread logstart, .bwriteHead, .brelse logstart]

/-- `write_log()`, for a header `n`, `block`. -/
def writeLog (n : ℕ) (block : ℕ → ℕ) : List Instr :=
  (List.range n).flatMap fun tail =>
    [.bread (logstart + tail + 1), .bread (block tail), .bwriteCopy (logstart + tail + 1) (block tail),
      .brelse (block tail), .brelse (logstart + tail + 1)]

/-- `install_trans()`, for a header `n`, `block`. -/
def installTrans (n : ℕ) (block : ℕ → ℕ) : List Instr :=
  (List.range n).flatMap fun tail =>
    [.bread (logstart + tail + 1), .bread (block tail), .bwriteCopy (block tail) (logstart + tail + 1),
      .brelse (logstart + tail + 1), .brelse (block tail)]

/-- `commit()`, and the end of `end_op`. -/
def commit (log : Log) : List Instr :=
  (if 0 < log.n then
    writeLog log.n log.block ++ writeHead ++ installTrans log.n log.block ++ [.clear] ++ writeHead
  else []) ++ [.committed]

/-- `initlog()`, which reads the superblock and then calls `recover_from_log`. -/
def initlog : List Instr := [.bread 1, .brelse 1, .bread logstart, .readHead]

/-- The rest of `recover_from_log()`, when the header has been read. -/
def recoverRest (n : ℕ) (block : ℕ → ℕ) : List Instr :=
  .brelse logstart :: installTrans n block ++ [.clear] ++ writeHead ++ [.booted]

/-- The loop of `log_write` finds the block in the header, or its end. -/
def logIndex (log : Log) (x : ℕ) : ℕ :=
  ((List.range log.n).find? fun i => log.block i = x).getD log.n

/-- The section of `log_write` under `log.lock`. -/
def logAppend (log : Log) (x : ℕ) : Log :=
  { log with
    block := Function.update log.block (logIndex log x) x
    n := if logIndex log x = log.n then log.n + 1 else log.n }

/-! ## Steps of a process -/

/-- Buffer `i`, which is locked, is filled and marked dirty. -/
def give (s : State N) (i : ℕ) (d : Data) : State N :=
  { s with
    bc := s.bc.modifyBuf i fun b => { b with dirty := true, data := d }
    hist := { s.hist with last := Function.update s.hist.last (s.bc.buf i).blockno d } }

/-- `bwrite` of buffer `i`, filled with `d`. -/
def startWrite (s : State N) (p : Fin (N + 1)) (q : Proc) (i : ℕ) (d : Data) : Option (State N) :=
  ((s.give i d).iderw i).map fun s => s.setProc p { q with pc := .waiting i none }

/-- An instruction is begun; `q` is the process without it. -/
def exec (s : State N) (p : Fin (N + 1)) (q : Proc) : Instr → Option (State N)
  | .bread x =>
    match s.bc.bget rootdev x with
    | some (i, bc) => some (({ s with bc := bc }).setProc p { q with pc := .locking i x })
    | none => none
  | .logWrite x d =>
    match s.holding p x with
    | some i =>
      if logsize ≤ s.log.n ∨ nlog - 1 ≤ s.log.n then none
      else if s.log.outstanding < 1 then none
      else some (s.setProc p { q with pc := .appending i d })
    | none => none
  | .bwrite x d =>
    match s.holding p x with
    | some i => s.startWrite p q i d
    | none => none
  | .bwriteCopy dst src =>
    match s.holding p dst, s.holding p src with
    | some i, some j => s.startWrite p q i (s.bc.buf j).data
    | _, _ => none
  | .bwriteHead =>
    match s.holding p logstart with
    | some i => s.startWrite p q i (s.headWords (s.bc.buf i).data)
    | none => none
  | .readHead =>
    match s.holding p logstart with
    | some i =>
      let (n, block) := headOf (s.bc.buf i).data
      some (({ s with log := { s.log with n := n, block := block } }).setProc p
        { q with todo := recoverRest n block })
    | none => none
  | .brelse x =>
    match s.holding p x with
    | some i =>
      some (({ s with lock := Function.update s.lock i none }).setProc p
        { q with pc := .unrefing i, held := q.held.erase i })
    | none => none
  | .clear => some (({ s with log := { s.log with n := 0 } }).setProc p q)
  | .committed =>
    some (({ s with
      log := { s.log with committing := false }
      hist := { s.hist with returned := s.hist.groups.length } }).setProc p q)
  | .beginOp =>
    if s.log.committing then none
    else if logsize < s.log.n + (s.log.outstanding + 1) * maxopblocks then none
    else some (({ s with
      log := { s.log with outstanding := s.log.outstanding + 1 }
      hist := { s.hist with nextOp := s.hist.nextOp + 1 } }).setProc p
        { q with op := some s.hist.nextOp, logged := ∅ })
  | .endOp =>
    if s.log.committing then none
    else if s.log.outstanding - 1 = 0 then
      some (({ s with
        log := { s.log with outstanding := s.log.outstanding - 1, committing := true }
        hist := if 0 < s.log.n then
          { s.hist with groups := s.hist.groups ++ [s.hist.current], current := [] } else s.hist }).setProc p
          { q with op := none, logged := ∅, todo := commit s.log })
    else
      some (({ s with log := { s.log with outstanding := s.log.outstanding - 1 } }).setProc p
        { q with op := none, logged := ∅ })
  | .booted => some (({ s with up := true }).setProc p q)

/-- The next step of process `p`. -/
def run (s : State N) (p : Fin (N + 1)) : Option (State N) :=
  let q := s.proc p
  match q.pc with
  | .ready =>
    match q.todo with
    | [] => none
    | a :: rest => s.exec p { q with todo := rest } a
  | .locking i x =>
    if s.lock i = none then
      some (({ s with lock := Function.update s.lock i (some p) }).setProc p { q with pc := .checking i x })
    else none
  | .checking i x =>
    if (s.bc.buf i).valid then some (s.setProc p { q with pc := .ready, held := i :: q.held })
    else (s.iderw i).map fun s => s.setProc p { q with pc := .waiting i (some x) }
  | .waiting i reading =>
    if (s.bc.buf i).valid = true ∧ (s.bc.buf i).dirty = false then
      some (s.setProc p { q with pc := .ready, held := if reading.isSome then i :: q.held else q.held })
    else none
  | .unrefing i =>
    let freed : Bool := s.bc.refcnt i - 1 = 0
    some (({ s with
      bc := s.bc.unref i
      hist := if freed then
        { s.hist with
          released := Function.update s.hist.released i s.hist.clock
          clock := s.hist.clock + 1 } else s.hist }).setProc p { q with pc := .ready })
  | .appending i d =>
    let x := (s.bc.buf i).blockno
    some (({ s.give i d with
      log := logAppend s.log x
      hist := { (s.give i d).hist with
        current := s.hist.current ++ (q.op.map fun op => (⟨op, x, d⟩ : LogWrite)).toList } }).setProc p
        { q with pc := .ready, logged := insert x q.logged })

/-! ## Runs -/

/-- The machine starts with a disk; what is recorded of the past are the groups on it. -/
def boot (disk : ℕ → Data) (hist : History) : State N where
  bc := Bcache.binit
  lock _ := none
  idequeue := []
  disk := disk
  log := ⟨0, false, 0, fun _ => 0⟩
  proc p := ⟨.ready, if p = 0 then initlog else [], [], none, ∅⟩
  up := false
  hist := { hist with
    last := disk
    released := id
    clock := nbuf
    current := []
    groups := hist.groups.take hist.durable }

/-- What happens: a process that has nothing to do is given an instruction, a process takes a step,
the disk completes a request, or the machine crashes and starts again. -/
inductive Event (N : ℕ) where
  | call (p : Fin (N + 1)) (a : Instr)
  | run (p : Fin (N + 1))
  | intr
  | crash

/-- The calls of the layers above; operations are not nested. -/
def MayCall (s : State N) (p : Fin (N + 1)) : Instr → Prop
  | .bread _ | .brelse _ | .logWrite _ _ | .bwrite _ _ => True
  | .beginOp => (s.proc p).op = none
  | .endOp => (s.proc p).op.isSome
  | _ => False

instance (s : State N) (p : Fin (N + 1)) (a : Instr) : Decidable (s.MayCall p a) := by
  cases a <;> unfold MayCall <;> infer_instance

def step (s : State N) : Event N → Option (State N)
  | .call p a =>
    match (s.proc p).pc, (s.proc p).todo with
    | .ready, [] => if s.up ∧ s.MayCall p a then some (s.setProc p { s.proc p with todo := [a] }) else none
    | _, _ => none
  | .run p => s.run p
  | .intr => s.ideintr
  | .crash => some (boot s.disk s.hist)

/-! ## What a step does -/

variable {p : Fin (N + 1)} {s s' : State N} {q : Proc} {a : Instr}

theorem proc_cases (h : s'.proc = update s.proc p q) (p' : Fin (N + 1)) :
    p' = p ∧ s'.proc p' = q ∨ p' ≠ p ∧ s'.proc p' = s.proc p' := by
  rw [h]
  by_cases hp : p' = p
  · exact Or.inl ⟨hp, by rw [hp, update_self]⟩
  · exact Or.inr ⟨hp, update_of_ne hp _ _⟩

theorem holding_eq_some {x : ℕ} (h : s.holding p x = some i) :
    i ∈ (s.proc p).held ∧ (s.bc.buf i).dev = rootdev ∧ (s.bc.buf i).blockno = x ∧ s.lock i = some p := by
  have htest := List.find?_some h
  rw [decide_eq_true_eq] at htest
  exact ⟨List.mem_of_find?_eq_some h, htest⟩

/-- The buffer that an instruction gives to `bwrite`, and what it is filled with. -/
def writes (s : State N) (p : Fin (N + 1)) : Instr → Option (ℕ × Data)
  | .bwrite x d => (s.holding p x).map fun i => (i, d)
  | .bwriteCopy dst src =>
    (s.holding p dst).bind fun i => (s.holding p src).map fun j => (i, (s.bc.buf j).data)
  | .bwriteHead => (s.holding p logstart).map fun i => (i, s.headWords (s.bc.buf i).data)
  | _ => none

/-- What the instruction `a` does, begun by `p`; `q` is the process without it. -/
inductive Exec (s : State N) (p : Fin (N + 1)) (q : Proc) : Instr → State N → Prop
  | bread {x i : ℕ} {c : Bcache} : s.bc.bget rootdev x = some (i, c) →
      Exec s p q (.bread x) (({ s with bc := c }).setProc p { q with pc := .locking i x })
  | logWrite {x i : ℕ} {d : Data} : s.holding p x = some i → s.log.n < nlog - 1 → 1 ≤ s.log.outstanding →
      Exec s p q (.logWrite x d) (s.setProc p { q with pc := .appending i d })
  | write {a : Instr} {i : ℕ} {d : Data} : s.writes p a = some (i, d) → (s.idequeue = [] → s.canStart i) →
      Exec s p q a (({ s.give i d with idequeue := s.idequeue ++ [i] }).setProc p
        { q with pc := .waiting i none })
  | readHead {i : ℕ} : s.holding p logstart = some i →
      Exec s p q .readHead
        (({ s with log := { s.log with
              n := (headOf (s.bc.buf i).data).1
              block := (headOf (s.bc.buf i).data).2 } }).setProc p
          { q with todo := recoverRest (headOf (s.bc.buf i).data).1 (headOf (s.bc.buf i).data).2 })
  | brelse {x i : ℕ} : s.holding p x = some i →
      Exec s p q (.brelse x) (({ s with lock := Function.update s.lock i none }).setProc p
        { q with pc := .unrefing i, held := q.held.erase i })
  | clear : Exec s p q .clear (({ s with log := { s.log with n := 0 } }).setProc p q)
  | committed : Exec s p q .committed
      (({ s with
          log := { s.log with committing := false }
          hist := { s.hist with returned := s.hist.groups.length } }).setProc p q)
  | beginOp : s.log.committing = false → s.log.n + (s.log.outstanding + 1) * maxopblocks ≤ logsize →
      Exec s p q .beginOp (({ s with
          log := { s.log with outstanding := s.log.outstanding + 1 }
          hist := { s.hist with nextOp := s.hist.nextOp + 1 } }).setProc p
        { q with op := some s.hist.nextOp, logged := ∅ })
  | endOpLast : s.log.committing = false → s.log.outstanding - 1 = 0 →
      Exec s p q .endOp (({ s with
          log := { s.log with outstanding := s.log.outstanding - 1, committing := true }
          hist := if 0 < s.log.n then
            { s.hist with groups := s.hist.groups ++ [s.hist.current], current := [] } else s.hist }).setProc p
        { q with op := none, logged := ∅, todo := commit s.log })
  | endOp : s.log.committing = false → s.log.outstanding - 1 ≠ 0 →
      Exec s p q .endOp (({ s with log := { s.log with outstanding := s.log.outstanding - 1 } }).setProc p
        { q with op := none, logged := ∅ })
  | booted : Exec s p q .booted (({ s with up := true }).setProc p q)

theorem startWrite_eq_some {d : Data}
    (h : s.startWrite p q i d = some s') :
    (s.idequeue = [] → s.canStart i) ∧
      s' = ({ s.give i d with idequeue := s.idequeue ++ [i] }).setProc p { q with pc := .waiting i none } := by
  have hbuf : (s.give i d).bc.buf i = { s.bc.buf i with dirty := true, data := d } :=
    update_self ..
  unfold startWrite iderw at h
  rw [if_neg (by rw [hbuf]; exact fun hno => nomatch hno.2)] at h
  split_ifs at h with hstart
  · cases h
  obtain rfl := Option.some.inj h
  refine ⟨fun hnil => ?_, rfl⟩
  by_contra hno
  refine hstart ⟨hnil, fun hlt => hno ?_⟩
  unfold canStart at hlt
  rwa [hbuf] at hlt

theorem exec_eq_some (h : s.exec p q a = some s') : s.Exec p q a s' := by
  cases a with
  | bread x =>
    rw [exec] at h
    split at h
    · obtain rfl := Option.some.inj h
      exact .bread ‹_›
    · cases h
  | logWrite x d =>
    rw [exec] at h
    split at h
    · split_ifs at h with hn hout
      obtain rfl := Option.some.inj h
      exact .logWrite ‹_› (Nat.lt_of_not_le fun hle => hn (Or.inr hle)) (Nat.le_of_not_lt hout)
    · cases h
  | bwrite x d =>
    rw [exec] at h
    split at h
    · obtain ⟨hstart, rfl⟩ := startWrite_eq_some h
      refine .write ?_ hstart
      simp only [writes, ‹s.holding p x = _›, Option.map_some]
    · cases h
  | bwriteCopy dst src =>
    rw [exec] at h
    split at h
    · obtain ⟨hstart, rfl⟩ := startWrite_eq_some h
      refine .write ?_ hstart
      simp only [writes, ‹s.holding p dst = _›, ‹s.holding p src = _›, Option.map_some, Option.bind_some]
    · cases h
  | bwriteHead =>
    rw [exec] at h
    split at h
    · obtain ⟨hstart, rfl⟩ := startWrite_eq_some h
      refine .write ?_ hstart
      simp only [writes, ‹s.holding p logstart = _›, Option.map_some]
    · cases h
  | readHead =>
    rw [exec] at h
    split at h
    · obtain rfl := Option.some.inj h
      exact .readHead ‹_›
    · cases h
  | brelse x =>
    rw [exec] at h
    split at h
    · obtain rfl := Option.some.inj h
      exact .brelse ‹_›
    · cases h
  | clear =>
    obtain rfl := Option.some.inj h
    exact .clear
  | committed =>
    obtain rfl := Option.some.inj h
    exact .committed
  | beginOp =>
    rw [exec] at h
    split_ifs at h with hc hn
    obtain rfl := Option.some.inj h
    exact .beginOp (Bool.eq_false_of_not_eq_true hc) (Nat.le_of_not_lt hn)
  | endOp =>
    rw [exec] at h
    split_ifs at h with hc hlast hn
    · obtain rfl := Option.some.inj h
      have := Exec.endOpLast (q := q) (p := p) (Bool.eq_false_of_not_eq_true hc) hlast
      rwa [if_pos hn] at this
    · obtain rfl := Option.some.inj h
      have := Exec.endOpLast (q := q) (p := p) (Bool.eq_false_of_not_eq_true hc) hlast
      rwa [if_neg hn] at this
    · obtain rfl := Option.some.inj h
      exact .endOp (Bool.eq_false_of_not_eq_true hc) hlast
  | booted =>
    obtain rfl := Option.some.inj h
    exact .booted

/-- What a step of process `p` does. -/
inductive Runs (s : State N) (p : Fin (N + 1)) : State N → Prop
  | exec {a : Instr} {rest : List Instr} {s' : State N} : (s.proc p).pc = .ready →
      (s.proc p).todo = a :: rest → s.Exec p { s.proc p with todo := rest } a s' → Runs s p s'
  | acquire {i x : ℕ} : (s.proc p).pc = .locking i x → s.lock i = none →
      Runs s p (({ s with lock := Function.update s.lock i (some p) }).setProc p
        { s.proc p with pc := .checking i x })
  | hit {i x : ℕ} : (s.proc p).pc = .checking i x → (s.bc.buf i).valid = true →
      Runs s p (s.setProc p { s.proc p with pc := .ready, held := i :: (s.proc p).held })
  | submit {i x : ℕ} : (s.proc p).pc = .checking i x → (s.bc.buf i).valid = false →
      (s.idequeue = [] → s.canStart i) →
      Runs s p (({ s with idequeue := s.idequeue ++ [i] }).setProc p
        { s.proc p with pc := .waiting i (some x) })
  | read {i x : ℕ} : (s.proc p).pc = .waiting i (some x) → (s.bc.buf i).valid = true →
      (s.bc.buf i).dirty = false →
      Runs s p (s.setProc p { s.proc p with pc := .ready, held := i :: (s.proc p).held })
  | written {i : ℕ} : (s.proc p).pc = .waiting i none → (s.bc.buf i).valid = true →
      (s.bc.buf i).dirty = false → Runs s p (s.setProc p { s.proc p with pc := .ready })
  | unref {i : ℕ} : (s.proc p).pc = .unrefing i →
      Runs s p (({ s with
          bc := s.bc.unref i
          hist := if s.bc.refcnt i - 1 = 0 then
            { s.hist with
              released := Function.update s.hist.released i s.hist.clock
              clock := s.hist.clock + 1 } else s.hist }).setProc p { s.proc p with pc := .ready })
  | append {i : ℕ} {d : Data} : (s.proc p).pc = .appending i d →
      Runs s p (({ s.give i d with
          log := logAppend s.log (s.bc.buf i).blockno
          hist := { (s.give i d).hist with
            current := s.hist.current ++ ((s.proc p).op.map fun op =>
              (⟨op, (s.bc.buf i).blockno, d⟩ : LogWrite)).toList } }).setProc p
        { s.proc p with pc := .ready, logged := insert (s.bc.buf i).blockno (s.proc p).logged })

theorem run_eq_some (h : s.run p = some s') : s.Runs p s' := by
  unfold run at h
  dsimp only at h
  split at h
  · split at h
    · cases h
    · exact .exec ‹_› ‹_› (exec_eq_some h)
  · split_ifs at h with hlock
    obtain rfl := Option.some.inj h
    exact .acquire ‹_› hlock
  · split_ifs at h with hvalid
    · obtain rfl := Option.some.inj h
      exact .hit ‹_› hvalid
    · obtain ⟨s1, hs1, rfl⟩ := Option.map_eq_some_iff.1 h
      unfold iderw at hs1
      split_ifs at hs1 with _ hstart
      obtain rfl := Option.some.inj hs1
      refine .submit ‹_› (Bool.eq_false_of_not_eq_true hvalid) fun hnil => ?_
      by_contra hno
      exact hstart ⟨hnil, hno⟩
  · rename_i i reading hpc
    cases reading with
    | none =>
      split_ifs at h with hdone hsome
      · cases hsome
      · obtain rfl := Option.some.inj h
        exact .written hpc hdone.1 hdone.2
    | some x =>
      split_ifs at h with hdone hsome
      · obtain rfl := Option.some.inj h
        exact .read hpc hdone.1 hdone.2
      · exact absurd rfl hsome
  · obtain rfl := Option.some.inj h
    simp only [decide_eq_true_eq]
    exact .unref ‹_›
  · obtain rfl := Option.some.inj h
    exact .append ‹_›

/-- What `ideintr` does. -/
theorem ideintr_eq_some (h : s.ideintr = some s') :
    ∃ i rest, s.idequeue = i :: rest ∧ s' = { s.transfer i with idequeue := rest } := by
  unfold ideintr at h
  split at h
  · cases h
  · rename_i i rest hqueue
    refine ⟨i, rest, hqueue, ?_⟩
    dsimp only at h
    split at h
    · exact (Option.some.inj h).symm
    · split_ifs at h
      exact (Option.some.inj h).symm

theorem step_call (h : s.step (.call p a) = some s') :
    (s.proc p).pc = .ready ∧ (s.proc p).todo = [] ∧ s.up = true ∧ s.MayCall p a ∧
      s' = s.setProc p { s.proc p with todo := [a] } := by
  unfold step at h
  dsimp only at h
  split at h
  · split_ifs at h with hmay
    exact ⟨‹_›, ‹_›, hmay.1, hmay.2, (Option.some.inj h).symm⟩
  · cases h

end State

/-- No history. -/
def History.start : History := ⟨fun _ _ => 0#32, id, 0, 0, [], [], 0, 0⟩

/-- The machine, started with any disk. -/
def system (N : ℕ) : System (State N) (State.Event N) where
  init s := ∃ disk, s = State.boot disk History.start
  step s a s' := s.step a = some s'

/-- A state that is reached from an empty disk by the given events. -/
theorem exists_reach {N : ℕ} (ok : State N → State.Event N → Prop) [∀ s a, Decidable (ok s a)]
    (es : List (State.Event N)) (P : State N → Prop) [DecidablePred P]
    (hp : (System.play State.step ok (State.boot (fun _ _ => 0#32) History.start) es).any fun s => P s) :
    ∃ s, (system N).Reach ok s ∧ P s :=
  (System.Reach.init (S := system N) ⟨_, rfl⟩).exists_play (fun _ _ _ hs => hs) P hp

end OsLab.Xv6
