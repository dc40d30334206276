import OsLab.Lib.Run

/-!
# The process table: `proc.c`

Processes fork, exit, wait, sleep and are killed, on any number of processors.  What is done with
`ptable.lock` held is one step.  `fork` is the only function that works on the table without the lock; it
is cut into its allocation (`allocproc`, first under the lock and then not), the copy of the memory, the
assignments to the new process, and the last section, which lets it run.

A process is in one of these functions or in other code; while it runs other code it may sleep on any
channel.  A process that sleeps in `wait` or `waitsch` goes on with the next round of its loop.

`Past` is no part of the code.  It numbers the processes in the order of their allocation, and remembers
who made them, who reaped them, and in which states they were when `updatestatistics` was called.
-/

namespace OsLab.Xv6.Ptable

/-- `NPROC`. -/
abbrev nproc : ℕ := 64

/-- An entry of the process table. -/
abbrev Slot := Fin nproc

/-- `enum procstate`. -/
inductive PState where
  | unused
  | embryo
  | sleeping
  | runnable
  | running
  | zombie
  deriving DecidableEq

/-- What a process sleeps on: the address of an entry of the table, or another address. -/
inductive Chan where
  | proc (p : Slot)
  | addr (a : ℕ)
  deriving DecidableEq

/-- `struct proc`, but for memory and files. -/
structure Proc where
  state : PState
  pid : BitVec 32
  parent : Option Slot
  chan : Option Chan
  killed : Bool
  ctime : BitVec 32
  rutime : BitVec 32
  retime : BitVec 32
  sltime : BitVec 32
  priority : BitVec 32

/-- Where a process is: in no function of interest, at a point of `fork` with the new process `np`, or at the
beginning of a round of `wait` or of `waitsch`. -/
inductive Pc where
  | idle
  /-- `allocproc`, after the section with the lock -/
  | kalloc (np : Slot)
  /-- `allocproc`, the assignments at the end -/
  | init (np : Slot)
  /-- `fork`, before `copyuvm` -/
  | copy (np : Slot)
  /-- `fork`, the assignments to the new process -/
  | inherit (np : Slot)
  /-- `fork`, before the last section with the lock -/
  | ready (np : Slot)
  | wait
  | waitsch
  deriving DecidableEq

/-- How often `updatestatistics` found a process in each state. -/
structure Stats where
  running : ℕ
  runnable : ℕ
  sleeping : ℕ

/-! ## One process -/

/-- `wakeup1`, for one process. -/
def Proc.wake (chan : Option Chan) (v : Proc) : Proc :=
  if v.state = .sleeping ∧ v.chan = chan then { v with state := .runnable } else v

/-- What is left of a process in `wait`. -/
def Proc.clear (v : Proc) : Proc :=
  { v with
    pid := 0, parent := none, killed := false, ctime := 0, rutime := 0, retime := 0, sltime := 0, priority := 0,
    state := .unused }

/-- `waitsch` does not touch the priority. -/
def Proc.clearsch (v : Proc) : Proc := { v.clear with priority := v.priority }

/-- `kill`, for one process. -/
def Proc.kill (v : Proc) : Proc :=
  { v with killed := true, state := if v.state = .sleeping then .runnable else v.state }

/-- `updatestatistics`, for one process. -/
def Proc.tick (v : Proc) : Proc :=
  { v with
    rutime := if v.state = .running then v.rutime + 1 else v.rutime
    retime := if v.state = .runnable then v.retime + 1 else v.retime
    sltime := if v.state = .sleeping then v.sltime + 1 else v.sltime }

def Stats.tick (st : PState) (v : Stats) : Stats where
  running := if st = .running then v.running + 1 else v.running
  runnable := if st = .runnable then v.runnable + 1 else v.runnable
  sleeping := if st = .sleeping then v.sleeping + 1 else v.sleeping

/-! ## The table -/

/-- What has happened. -/
structure Past where
  /-- the number of processes allocated by `fork` so far -/
  forks : ℕ
  /-- the number of the process in an entry of the table; `init` has number 0 -/
  born : Slot → ℕ
  /-- the process that called `fork` -/
  mother : ℕ → ℕ
  /-- the processes that have exited -/
  exited : ℕ → Bool
  /-- the calls of `wait` and `waitsch` that returned a process, by their callers -/
  reapers : ℕ → List ℕ
  /-- for the process in an entry of the table -/
  stats : Slot → Stats
  /-- the number of ticks so far -/
  ticks : ℕ
  /-- the number of ticks when `ctime` was set -/
  created : Slot → ℕ

structure Table where
  proc : Slot → Proc
  pc : Slot → Pc
  nextpid : BitVec 32
  ticks : BitVec 32
  initproc : Slot
  past : Past

namespace Table

variable (s : Table)

def setProc (p : Slot) (v : Proc) : Table := { s with proc := Function.update s.proc p v }

def setState (p : Slot) (st : PState) : Table := s.setProc p { s.proc p with state := st }

def setPc (p : Slot) (v : Pc) : Table := { s with pc := Function.update s.pc p v }

/-- The first entry of the table with a property. -/
def first (P : Slot → Bool) : Option Slot := (List.finRange nproc).find? P

/-! ## `allocproc` and `fork` -/

/-- The entry `np` is taken for a new process. -/
def take (p np : Slot) : Table :=
  { s.setProc np { s.proc np with state := .embryo, pid := s.nextpid } with
    pc := Function.update s.pc p (.kalloc np)
    nextpid := s.nextpid + 1
    past := { s.past with
      forks := s.past.forks + 1
      born := Function.update s.past.born np (s.past.forks + 1)
      mother := Function.update s.past.mother (s.past.forks + 1) (s.past.born p)
      stats := Function.update s.past.stats np ⟨0, 0, 0⟩ } }

/-- `allocproc`, the section with the lock. -/
def allocproc (p : Slot) : Table :=
  match first fun q => (s.proc q).state = .unused with
  | none => s
  | some np => s.take p np

/-- `allocproc`, the assignments at the end. -/
def setUp (p np : Slot) : Table :=
  { s.setProc np { s.proc np with ctime := s.ticks, rutime := 0, retime := 0, sltime := 0, priority := 0 } with
    pc := Function.update s.pc p (.copy np)
    past := { s.past with created := Function.update s.past.created np s.past.ticks } }

/-- `fork`, the assignments to the new process. -/
def inherit (p np : Slot) : Table :=
  (s.setProc np { s.proc np with priority := (s.proc p).priority, parent := some p }).setPc p (.ready np)

/-- The next step of a process in `fork`; `ok` says whether there is memory. -/
def forkStep (p : Slot) (ok : Bool) : Option Table :=
  match s.pc p with
  | .kalloc np => if ok then some (s.setPc p (.init np)) else some ((s.setState np .unused).setPc p .idle)
  | .init np => some (s.setUp p np)
  | .copy np => if ok then some (s.setPc p (.inherit np)) else some ((s.setState np .unused).setPc p .idle)
  | .inherit np => some (s.inherit p np)
  | .ready np => some ((s.setState np .runnable).setPc p .idle)
  | _ => none

/-! ## Sleeping -/

/-- `wakeup1`. -/
def wakeup1 (chan : Option Chan) : Table := { s with proc := fun p => Proc.wake chan (s.proc p) }

/-- `sleep`, up to `sched`. -/
def sleep (p : Slot) (chan : Chan) : Table :=
  s.setProc p { s.proc p with state := .sleeping, chan := some chan }

/-! ## `exit`, `wait` and `waitsch` -/

/-- The children of `p` are passed to `init`. -/
def abandon (p : Slot) : Table :=
  { s with proc := fun q => if (s.proc q).parent = some p then { s.proc q with parent := some s.initproc } else s.proc q }

/-- The end of `exit`. -/
def leave (p : Slot) : Table :=
  { (s.abandon p).setState p .zombie with
    past := { s.past with exited := Function.update s.past.exited (s.past.born p) true } }

/-- `exit`, the section with the lock. -/
def exit (p : Slot) : Table :=
  let s₁ := s.wakeup1 ((s.proc p).parent.map .proc)
  -- `init` is woken if a child that is passed on has exited
  if ∃ q, (s₁.proc q).parent = some p ∧ (s₁.proc q).state = .zombie then (s₁.wakeup1 (some (.proc s.initproc))).leave p
  else s₁.leave p

/-- The child that a round of `wait` finds. -/
def findZombie (p : Slot) : Option Slot := first fun q => (s.proc q).parent = some p ∧ (s.proc q).state = .zombie

/-- The child `q` is reaped, and the call of `p` returns. -/
def reap (p q : Slot) (clear : Proc → Proc) : Table :=
  { (s.setProc q (clear (s.proc q))).setPc p .idle with
    past := { s.past with
      reapers := Function.update s.past.reapers (s.past.born q) (s.past.reapers (s.past.born q) ++ [s.past.born p]) } }

/-- One round of the loop of `wait` or `waitsch`. -/
def round (p : Slot) (clear : Proc → Proc) : Table :=
  match s.findZombie p with
  | some q => s.reap p q clear
  | none =>
    if (∃ q, (s.proc q).parent = some p) ∧ (s.proc p).killed = false then s.sleep p (.proc p)
    else s.setPc p .idle

/-- What `waitsch` returns: the pid, and what it stores through its arguments. -/
structure Report where
  pid : BitVec 32
  rutime : BitVec 32
  retime : BitVec 32
  sltime : BitVec 32
  pr : BitVec 32
  deriving DecidableEq

/-- The report of a call of `waitsch` by `p` that reaps `q`: the times and the priority are read from
`myproc()`. -/
def report (p q : Slot) : Report :=
  ⟨(s.proc q).pid, (s.proc p).rutime, (s.proc p).retime, (s.proc p).sltime, (s.proc p).priority⟩

/-! ## `kill` and `setpriority` -/

/-- `kill`: what it returns, and the table afterwards. -/
def kill (pid : BitVec 32) : ℤ × Table :=
  match first fun p => (s.proc p).pid = pid with
  | none => (-1, s)
  | some p => (0, s.setProc p (Proc.kill (s.proc p)))

def setpriority (pid pr : BitVec 32) : ℤ × Table :=
  match first fun p => (s.proc p).pid = pid with
  | none => (-1, s)
  | some p => (0, s.setProc p { s.proc p with priority := pr })

/-! ## `scheduler` -/

/-- `p` is to be preferred to `ch`. -/
def Prefer (s : Table) (p ch : Slot) : Prop :=
  (s.proc ch).priority < (s.proc p).priority ∨
    (s.proc p).priority = (s.proc ch).priority ∧ (s.proc p).ctime.toInt < (s.proc ch).ctime.toInt

instance (p ch : Slot) : Decidable (s.Prefer p ch) := inferInstanceAs (Decidable (_ ∨ _))

/-- One round of the loop through the table, with the process chosen so far. -/
def consider (ch : Option Slot) (p : Slot) : Option Slot :=
  if (s.proc p).state ≠ .runnable then ch
  else
    match ch with
    | none => some p
    | some c => if s.Prefer p c then some p else some c

/-- The process that an iteration of `scheduler` chooses. -/
def choose : Option Slot := (List.finRange nproc).foldl s.consider none

/-- The process is switched to; if it has slept, `sleep` sets `chan` to 0. -/
def dispatch (p : Slot) : Table := s.setProc p { s.proc p with state := .running, chan := none }

/-! ## The clock -/

def updatestatistics : Table :=
  { s with
    proc := fun p => Proc.tick (s.proc p)
    past := { s.past with stats := fun p => Stats.tick (s.proc p).state (s.past.stats p) } }

/-- `ticks++`. -/
def tick : Table := { s with ticks := s.ticks + 1, past := { s.past with ticks := s.past.ticks + 1 } }

end Table

/-! ## Steps -/

inductive Event where
  /-- a call of `fork` -/
  | fork (p : Slot)
  /-- the next step of a process in `fork` -/
  | forkStep (p : Slot) (ok : Bool)
  | exit (p : Slot)
  /-- a call of `wait` or of `waitsch` -/
  | wait (p : Slot)
  | waitsch (p : Slot)
  /-- a round of the loop of `wait` or `waitsch` -/
  | round (p : Slot)
  /-- `sleep`, called by other code -/
  | sleep (p : Slot) (chan : Chan)
  | wakeup (chan : Chan)
  | kill (pid : BitVec 32)
  /-- `myproc()->killed = 1`, in `trap` -/
  | fault (p : Slot)
  | setpriority (pid pr : BitVec 32)
  /-- at present no code calls `yield` -/
  | yield (p : Slot)
  /-- an iteration of `scheduler` -/
  | schedule
  | tick
  | updatestatistics

namespace Table

/-- The process runs, and is in no function of interest. -/
def Idle (s : Table) (p : Slot) : Prop := (s.proc p).state = .running ∧ s.pc p = .idle

instance (s : Table) (p : Slot) : Decidable (s.Idle p) := inferInstanceAs (Decidable (_ ∧ _))

def step (s : Table) : Event → Option Table
  | .fork p => if s.Idle p then some (s.allocproc p) else none
  | .forkStep p ok => if (s.proc p).state = .running then s.forkStep p ok else none
  -- `exit` panics if it is called by `init`
  | .exit p => if s.Idle p ∧ p ≠ s.initproc then some (s.exit p) else none
  | .wait p => if s.Idle p then some (s.setPc p .wait) else none
  | .waitsch p => if s.Idle p then some (s.setPc p .waitsch) else none
  | .round p =>
    if (s.proc p).state = .running then
      match s.pc p with
      | .wait => some (s.round p Proc.clear)
      | .waitsch => some (s.round p Proc.clearsch)
      | _ => none
    else none
  | .sleep p chan => if s.Idle p then some (s.sleep p chan) else none
  | .wakeup chan => some (s.wakeup1 (some chan))
  | .kill pid => some (s.kill pid).2
  | .fault p => if s.Idle p then some (s.setProc p { s.proc p with killed := true }) else none
  | .setpriority pid pr => some (s.setpriority pid pr).2
  | .yield p => if (s.proc p).state = .running then some (s.setState p .runnable) else none
  | .schedule => s.choose.map s.dispatch
  | .tick => some s.tick
  | .updatestatistics => some s.updatestatistics

/-- After `userinit`: there is `init`, with pid 1, and all other entries are zero. -/
structure Start (s : Table) : Prop where
  init : s.proc s.initproc = ⟨.runnable, 1, none, none, false, 0, 0, 0, 0, 0⟩
  other : ∀ p ≠ s.initproc, s.proc p = ⟨.unused, 0, none, none, false, 0, 0, 0, 0, 0⟩
  pc : ∀ p, s.pc p = .idle
  nextpid : s.nextpid = 2
  ticks : s.ticks = 0
  forks : s.past.forks = 0
  born : s.past.born s.initproc = 0
  exited : ∀ n, s.past.exited n = false
  reapers : ∀ n, s.past.reapers n = []
  stats : s.past.stats s.initproc = ⟨0, 0, 0⟩
  total : s.past.ticks = 0
  created : s.past.created s.initproc = 0

/-- The table with `init` in the first entry. -/
def boot : Table where
  proc p := if p = 0 then ⟨.runnable, 1, none, none, false, 0, 0, 0, 0, 0⟩ else ⟨.unused, 0, none, none, false, 0, 0, 0, 0, 0⟩
  pc _ := .idle
  nextpid := 2
  ticks := 0
  initproc := 0
  past := ⟨0, fun _ => 0, fun _ => 0, fun _ => false, fun _ => [], fun _ => ⟨0, 0, 0⟩, 0, fun _ => 0⟩

theorem start_boot : Start boot :=
  ⟨rfl, fun _ hp => if_neg hp, fun _ => rfl, rfl, rfl, rfl, rfl, fun _ => rfl, fun _ => rfl, rfl, rfl, rfl⟩

end Table

def system : System Table Event where
  init := Table.Start
  step s a s' := s.step a = some s'

end OsLab.Xv6.Ptable
