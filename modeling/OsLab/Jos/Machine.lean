import OsLab.Lib.Run
import OsLab.Jos.Boot
import OsLab.Jos.Load
import OsLab.Jos.Trap

/-!
# The machine

Several processors share the memory and the table of environments; each has its
own `curenv`.  The kernel lock serialises what they do in the kernel, so a run of
the machine is a sequence of events: an environment is created while the kernel
starts, a processor enters the scheduler for the first time, a processor takes a
trap, or a program stores a byte.

A processor is in user mode when its `curenv` is set and halted when it is not:
kernel code leaves through `env_run` or through `sched_halt`.
-/

namespace OsLab.Jos

open Exec

/-- What a processor is doing while it does not have the kernel lock. -/
inductive Mode where
  /-- It has not yet entered the scheduler. -/
  | boot
  /-- It runs its `curenv`. -/
  | user
  /-- It waits in `sched_halt`. -/
  | halted
  deriving DecidableEq

/-- The whole machine.  The `curenv` in `kern` is that of the processor which was
last in the kernel; `cpuEnv i` is the one of processor `i`. -/
structure Machine where
  kern : Kern
  cpuEnv : ℕ → Option ℕ
  mode : ℕ → Mode

namespace Machine

/-- What processor `i` works on once it has the kernel lock. -/
def on (m : Machine) (i : ℕ) : Kern := { m.kern with curenv := m.cpuEnv i }

/-- Processor `i` has left the kernel, and the kernel is in the state `k`. -/
def back (m : Machine) (i : ℕ) (k : Kern) : Machine where
  kern := k
  cpuEnv := Function.update m.cpuEnv i k.curenv
  mode := Function.update m.mode i (if k.curenv = none then .halted else .user)

/-- Processor `i` runs kernel code. -/
def enter (m : Machine) (i : ℕ) (code : KernM Unit) : Outcome Panic Machine Unit :=
  match code (m.on i) with
  | .ok _ k => .ok () (m.back i k)
  | .leave k => .ok () (m.back i k)
  | .panic e => .panic e

end Machine

/-- A program run by `c` stores a byte.  If the address does not translate, the
processor takes a page fault instead, which is an event of its own. -/
def userStore (k : Kern) (c : ℕ) (va : Word) (b : BitVec 8) : Kern :=
  match k.dirs c with
  | none => k
  | some pgdir =>
    match walk k.pm pgdir va (pteU ||| pteW) with
    | none => k
    | some p => { k with pm := k.pm.storeByte p (pgoff va) b }

/-- What can happen next. -/
inductive Event where
  /-- `ENV_CREATE` in `i386_init`. -/
  | create (binary : Elf) (type : EnvType)
  /-- Processor `i` calls `sched_yield` at the end of `i386_init` or `mp_main`. -/
  | start (i : ℕ)
  /-- Processor `i` takes a trap: a system call, a fault or an interrupt. -/
  | trap (i : ℕ) (inp : Inputs) (tf : Trapframe)
  /-- The program on processor `i` stores a byte. -/
  | store (i : ℕ) (va : Word) (b : BitVec 8)

namespace Event

/-- When an event can happen.  A processor in user mode traps with the code
selector of user mode, one that is halted with the selector of the kernel. -/
def Enabled (m : Machine) : Event → Prop
  | .create _ _ => ∀ i, m.mode i = .boot
  | .start i => m.mode i = .boot
  | .trap i _ tf => m.mode i = .user ∧ tf.FromUser ∨ m.mode i = .halted ∧ tf.cs = gdKt
  | .store i _ _ => m.mode i = .user

/-- What an event does. -/
def exec (m : Machine) : Event → Outcome Panic Machine Unit
  | .create binary type =>
    match envCreate binary type m.kern with
    | .ok _ k => .ok () { m with kern := k }
    | .leave k => .ok () { m with kern := k }
    | .panic e => .panic e
  | .start i => m.enter i schedYield
  | .trap i inp tf => m.enter i (Jos.trap inp tf)
  | .store i va b =>
    match m.cpuEnv i with
    | none => .ok () m
    | some c => .ok () { m with kern := userStore m.kern c va b }

end Event

/-- The machine after `mem_init` and `env_init`. -/
def Machine.Starts (cfg : BootConfig) (m : Machine) : Prop :=
  ∃ k₀, Boots cfg k₀ ∧ m = ⟨envInit k₀, fun _ => none, fun _ => .boot⟩

/-- The runs of the kernel on a machine that boots with `cfg`. -/
def jos (cfg : BootConfig) : System Machine Event where
  init := Machine.Starts cfg
  step m a m' := a.Enabled m ∧ a.exec m = .ok () m'

end OsLab.Jos
