import OsLab.Jos.Spaces
import OsLab.Jos.Vm

/-!
# Environments: `kern/env.c` and `kern/sched.c`

The table of environments, their creation and destruction, and the scheduler.

A `struct Env *` is an index into `envs`.  The state holds what the kernel of
one processor sees while it has the kernel lock: the physical pages, the table
of environments and its free list, and the `curenv` of this processor.
`env_run` and `sched_halt` do not return to their callers, so they end the run
of the code with `leave`.
-/

namespace OsLab.Jos

open Exec

/-- `env_status`. -/
inductive EnvStatus where
  | free | dying | runnable | running | notRunnable
  deriving DecidableEq

/-- `enum EnvType`. -/
inductive EnvType where
  | user | fs
  deriving DecidableEq

/-- `struct PushRegs`. -/
structure PushRegs where
  edi : Word
  esi : Word
  ebp : Word
  oesp : Word
  ebx : Word
  edx : Word
  ecx : Word
  eax : Word
  deriving DecidableEq

/-- `struct Trapframe`, without its padding. -/
structure Trapframe where
  regs : PushRegs
  es : BitVec 16
  ds : BitVec 16
  trapno : Word
  err : Word
  eip : Word
  cs : BitVec 16
  eflags : Word
  esp : Word
  ss : BitVec 16
  deriving DecidableEq

/-- `struct Env`. -/
structure Env where
  envTf : Trapframe
  envLink : Option ℕ
  envId : Word
  envParentId : Word
  envType : EnvType
  envStatus : EnvStatus
  envRuns : Word
  envPgdir : Option ℕ
  envPgfaultUpcall : Word
  envIpcRecving : Bool
  envIpcDstva : Word
  envIpcValue : Word
  envIpcFrom : Word
  envIpcPerm : Word

/-- What the kernel of one processor works on. -/
structure Kern where
  pm : Pmap
  envs : ℕ → Env
  envFreeList : Option ℕ
  curenv : Option ℕ

/-- Kernel code. -/
abbrev KernM := Exec Panic Kern

namespace Kern

/-- Change one entry of `envs`. -/
def setEnv (k : Kern) (e : ℕ) (f : Env → Env) : Kern :=
  { k with envs := Function.update k.envs e (f (k.envs e)) }

/-- The page directories of all environments. -/
def dirs (k : Kern) (e : ℕ) : Option ℕ := (k.envs e).envPgdir

end Kern

/-- Run code of `pmap.c`. -/
def pmap {α : Type} (m : PmapM α) : KernM α := zoom Kern.pm (fun p k => { k with pm := p }) m

/-- Assign to fields of `envs[e]`. -/
def modifyEnv (e : ℕ) (f : Env → Env) : KernM Unit := modify fun k => k.setEnv e f

/-- `ENVX(envid)`. -/
def envx (envid : Word) : ℕ := (envid &&& 0x3FF#32).toNat

/-- `e->env_pgdir[..]` and the like, which follow `e->env_pgdir`. -/
def pgdirOf (e : ℕ) : KernM ℕ := do
  match ← read fun k => k.dirs e with
  | none => panic .nullDeref
  | some pgdir => pure pgdir

/-! ## Names of environments -/

/-- `envid2env(envid, &e, checkperm)`: the environment, or the error code.  With
an `envid` of zero the source stores `curenv` even if that is null; every caller
follows the pointer next. -/
def envid2env (envid : Word) (checkperm : Bool) : KernM (Except ℤ ℕ) := do
  let k ← read id
  if envid = 0#32 then
    match k.curenv with
    | none => panic .nullDeref
    | some c => pure (.ok c)
  else
    let e := envx envid
    if (k.envs e).envStatus = .free ∨ (k.envs e).envId ≠ envid then pure (.error (-eBadEnv))
    else if checkperm ∧ k.curenv ≠ some e then
      match k.curenv with
      | none => panic .nullDeref
      | some c =>
        if (k.envs e).envParentId ≠ (k.envs c).envId then pure (.error (-eBadEnv))
        else pure (.ok e)
    else pure (.ok e)

/-! ## Creation -/

/-- `memcpy(e->env_pgdir, kern_pgdir, PGSIZE)`. -/
def Pmap.copyPage (k : Pmap) (dst src : ℕ) : Pmap :=
  { k with mem := Function.update k.mem dst (k.mem src) }

/-- `env_setup_vm(e)`. -/
def envSetupVm (e : ℕ) : KernM ℤ := do
  match ← pmap (pageAlloc true) with
  | none => pure (-eNoMem)
  | some p =>
    pmap (pageIncref p)
    let pgdir ← pmap (kaddr (page2pa p))
    modifyEnv e fun v => { v with envPgdir := some pgdir }
    pmap (modify fun k => k.copyPage pgdir k.kernPgdir)
    pmap (modify fun k => k.setWord pgdir (pdx uvpt) (page2pa pgdir ||| pteP ||| pteU))
    pure 0

/-- `ENVGENSHIFT`. -/
def envgenshift : ℕ := 12

/-- The identifier `env_alloc` gives to slot `e` when `old` was its last one. -/
def nextEnvId (old : Word) (e : ℕ) : Word :=
  let generation := (old + 1#32 <<< envgenshift) &&& ~~~BitVec.ofNat 32 (nenv - 1)
  let generation := if generation.toInt ≤ 0 then 1#32 <<< envgenshift else generation
  generation ||| BitVec.ofNat 32 e

/-- Segment selectors of user code and data, with the requested privilege level. -/
def gdUt : BitVec 16 := 0x18#16 ||| 3#16
def gdUd : BitVec 16 := 0x20#16 ||| 3#16

/-- The segment selector of kernel code. -/
def gdKt : BitVec 16 := 0x08#16

/-- `FL_IF` and `FL_IOPL_3`. -/
def flIf : Word := 0x200#32
def flIopl3 : Word := 0x3000#32

/-- The registers `env_alloc` starts an environment with. -/
def initialTf : Trapframe where
  regs := ⟨0#32, 0#32, 0#32, 0#32, 0#32, 0#32, 0#32, 0#32⟩
  es := gdUd
  ds := gdUd
  trapno := 0#32
  err := 0#32
  eip := 0#32
  cs := gdUt
  eflags := flIf
  esp := ustacktop
  ss := gdUd

/-- `env_alloc(&e, parent_id)`: the new environment, or the error code. -/
def envAlloc (parentId : Word) : KernM (Except ℤ ℕ) := do
  match ← read Kern.envFreeList with
  | none => pure (.error (-eNoFreeEnv))
  | some e =>
    let r ← envSetupVm e
    if r < 0 then pure (.error r)
    else
      modifyEnv e fun v => { v with
        envId := nextEnvId v.envId e
        envParentId := parentId
        envType := .user
        envStatus := .runnable
        envRuns := 0#32
        envTf := initialTf
        envPgfaultUpcall := 0#32
        envIpcRecving := false }
      modify fun k => { k with envFreeList := (k.envs e).envLink }
      pure (.ok e)

/-- The loop of `region_alloc` over `n` pages from `begin`.  The result of
`page_insert` is not looked at. -/
def regionLoop (pgdir : ℕ) : ℕ → Word → PmapM Unit
  | 0, _ => pure ()
  | n + 1, va => do
    match ← pageAlloc false with
    | none => panic .regionAlloc
    | some pg =>
      let _ ← pageInsert pgdir pg va (pteW ||| pteU)
      regionLoop pgdir n (va + BitVec.ofNat 32 pgsize)

/-- The number of rounds of the loop of `region_alloc(e, va, len)`. -/
def regionPages (va len : Word) : ℕ :=
  ((roundUp (va + len)).toNat - (roundDown va).toNat) / pgsize

/-- `region_alloc(e, va, len)`. -/
def regionAlloc (e : ℕ) (va len : Word) : KernM Unit := do
  let pgdir ← pgdirOf e
  pmap (regionLoop pgdir (regionPages va len) (roundDown va))

/-! ## Destruction -/

/-- The inner loop of `env_free`, over `n` entries of the page table `pt` from
entry `pteno`. -/
def unmapTable (pgdir pdeno pt : ℕ) : ℕ → ℕ → PmapM Unit
  | 0, _ => pure ()
  | n + 1, pteno => do
    let w ← read fun k => k.mem pt pteno
    when (Present w) (pageRemove pgdir (pgaddr pdeno pteno))
    unmapTable pgdir pdeno pt n (pteno + 1)

/-- The body of the outer loop of `env_free`, for a mapped page table. -/
def freeTable (pgdir pdeno : ℕ) (pde : Word) : PmapM Unit := do
  let pt ← kaddr (pteAddr pde)
  unmapTable pgdir pdeno pt nptentries 0
  modify fun k => k.setWord pgdir pdeno 0#32
  let pp ← pa2page (pteAddr pde)
  pageDecref pp

/-- The outer loop of `env_free`, over `n` directory entries from `pdeno`. -/
def freeTables (pgdir : ℕ) : ℕ → ℕ → PmapM Unit
  | 0, _ => pure ()
  | n + 1, pdeno => do
    let pde ← read fun k => k.mem pgdir pdeno
    when (Present pde) (freeTable pgdir pdeno pde)
    freeTables pgdir n (pdeno + 1)

/-- `env_free(e)`. -/
def envFree (e : ℕ) : KernM Unit := do
  let pgdir ← pgdirOf e
  pmap (freeTables pgdir (pdx utop) 0)
  modifyEnv e fun v => { v with envPgdir := none }
  let pp ← pmap (pa2page (page2pa pgdir))
  pmap (pageDecref pp)
  modify fun k => { k.setEnv e fun v =>
    { v with envStatus := .free, envLink := k.envFreeList } with envFreeList := some e }

/-! ## Scheduling -/

/-- The first step of `env_run`: a `curenv` that was running is runnable again. -/
def descheduleCurenv : KernM Unit := do
  let k ← read id
  match k.curenv with
  | some c =>
    when ((k.envs c).envStatus = .running)
      (modifyEnv c fun v => { v with envStatus := .runnable })
  | none => pure ()

/-- `env_run(e)`, which does not return.  `PADDR` panics on a null directory. -/
def envRun {α : Type} (e : ℕ) : KernM α := do
  descheduleCurenv
  modify fun k => { k.setEnv e fun v =>
    { v with envStatus := .running, envRuns := v.envRuns + 1#32 } with curenv := some e }
  match ← read fun k => k.dirs e with
  | none => panic .paddr
  | some _ => leave

/-- The loop of `sched_halt`: is any environment running, or going to? -/
@[irreducible] def anyAlive (envs : ℕ → Env) : Bool :=
  (List.range nenv).any fun i => (envs i).envStatus = .runnable ∨
    (envs i).envStatus = .running ∨ (envs i).envStatus = .dying

/-- `sched_halt()`.  If nothing will ever run, the kernel stays in its monitor. -/
def schedHalt {α : Type} : KernM α := do
  let k ← read id
  if anyAlive k.envs then do
    modify fun k => { k with curenv := none }
    leave
  else panic .monitor

/-- The search of `sched_yield`: the first runnable environment in circular
order from `start`. -/
@[irreducible] def firstRunnable (envs : ℕ → Env) (start : ℕ) : Option ℕ :=
  ((List.range nenv).map fun i => (start + i) % nenv).find?
    fun j => (envs j).envStatus = .runnable

/-- Where `sched_yield` starts to search. -/
def schedStart (k : Kern) : ℕ :=
  match k.curenv with
  | none => 0
  | some c => envx (k.envs c).envId + 1

/-- `sched_yield()`, which does not return. -/
def schedYield {α : Type} : KernM α := do
  let k ← read id
  match firstRunnable k.envs (schedStart k) with
  | some j => envRun j
  | none =>
    match k.curenv with
    | some c => if (k.envs c).envStatus = .running then envRun c else schedHalt
    | none => schedHalt

/-- `env_destroy(e)`. -/
def envDestroy (e : ℕ) : KernM Unit := do
  let k ← read id
  if (k.envs e).envStatus = .running ∧ k.curenv ≠ some e then
    modifyEnv e fun v => { v with envStatus := .dying }
  else
    envFree e
    if k.curenv = some e then
      modify fun k => { k with curenv := none }
      schedYield
    else pure ()

/-- `user_mem_assert(env, va, len, perm)`. -/
def userMemAssert (e : ℕ) (va len perm : Word) : KernM Unit := do
  let pgdir ← pgdirOf e
  match ← pmap (userMemCheck pgdir va len (perm ||| pteU)) with
  | none => pure ()
  | some _ => envDestroy e

end OsLab.Jos
