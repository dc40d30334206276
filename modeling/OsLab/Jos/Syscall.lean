import OsLab.Jos.Env

/-!
# System calls: `kern/syscall.c`

Every system call, with its checks in the order the source makes them, and the
dispatcher.  Console output is not kept; what is kept of printing is which
memory it reads, since that can fault.
-/

namespace OsLab.Jos

open Exec

/-- What kernel code takes from outside the modelled state: the faulting address
in `cr2`, the next console character, and the word behind a `pte_t *` that was
never assigned (`none` if following it faults). -/
structure Inputs where
  cr2 : Word
  consGetc : ℤ
  stalePte : Option Word

/-- `curenv->...`: the current environment, which must not be null. -/
def thisenv : KernM ℕ := do
  match ← read Kern.curenv with
  | none => panic .nullDeref
  | some c => pure c

/-- `va >= UTOP || ROUNDDOWN(va, PGSIZE) != va`. -/
def BadVa (va : Word) : Prop := utop ≤ va ∨ roundDown va ≠ va

instance (va : Word) : Decidable (BadVa va) := inferInstanceAs (Decidable (_ ∨ _))

/-- `(perm & (PTE_U | PTE_P)) != (PTE_U | PTE_P)`. -/
def BadPerm (perm : Word) : Prop := perm &&& (pteU ||| pteP) ≠ pteU ||| pteP

instance (perm : Word) : Decidable (BadPerm perm) := inferInstanceAs (Decidable (_ ≠ _))

/-! ## Console -/

/-- `sys_cputs(s, len)`. -/
def sysCputs (s len : Word) : KernM Unit := do
  let c ← thisenv
  userMemAssert c s len 0#32
  let pgdir ← pgdirOf c
  -- a null string prints as "(null)", which is in kernel memory
  when (s ≠ 0#32) (pmap (printStr pgdir (2 ^ 32) s len.toInt))

/-- `sys_cgetc()`. -/
def sysCgetc (inp : Inputs) : KernM ℤ := pure inp.consGetc

/-! ## Environments -/

/-- `sys_getenvid()`. -/
def sysGetenvid : KernM ℤ := do
  let c ← thisenv
  read fun k => (k.envs c).envId.toInt

/-- `sys_env_destroy(envid)`. -/
def sysEnvDestroy (envid : Word) : KernM ℤ := do
  match ← envid2env envid true with
  | .error r => pure r
  | .ok e =>
    envDestroy e
    pure 0

/-- `sys_yield()`. -/
def sysYield {α : Type} : KernM α := schedYield

/-- `sys_exofork()`. -/
def sysExofork : KernM ℤ := do
  let c ← thisenv
  let parentId ← read fun k => (k.envs c).envId
  match ← envAlloc parentId with
  | .error r => pure r
  | .ok e =>
    let tf ← read fun k => (k.envs c).envTf
    modifyEnv e fun v => { v with
      envTf := { tf with regs := { tf.regs with eax := 0#32 } }
      envStatus := .notRunnable }
    read fun k => (k.envs e).envId.toInt

/-- The status a number stands for, of those `sys_env_set_status` accepts. -/
def statusArg (status : Word) : Option EnvStatus :=
  if status = 4#32 then some .notRunnable else if status = 2#32 then some .runnable else none

/-- `sys_env_set_status(envid, status)`. -/
def sysEnvSetStatus (envid status : Word) : KernM ℤ := do
  match statusArg status with
  | none => pure (-eInval)
  | some st =>
    match ← envid2env envid true with
    | .error r => pure r
    | .ok e =>
      modifyEnv e fun v => { v with envStatus := st }
      pure 0

/-- `sys_env_set_pgfault_upcall(envid, func)`. -/
def sysEnvSetPgfaultUpcall (envid func : Word) : KernM ℤ := do
  match ← envid2env envid true with
  | .error r => pure r
  | .ok e =>
    modifyEnv e fun v => { v with envPgfaultUpcall := func }
    pure 0

/-! ## Address spaces -/

/-- `sys_page_alloc(envid, va, perm)`. -/
def sysPageAlloc (envid va perm : Word) : KernM ℤ := do
  match ← envid2env envid true with
  | .error r => pure r
  | .ok e =>
    if BadVa va then pure (-eInval)
    else if BadPerm perm then pure (-eInval)
    else
      match ← pmap (pageAlloc true) with
      | none => pure (-eNoMem)
      | some pg =>
        let pgdir ← pgdirOf e
        let ret ← pmap (pageInsert pgdir pg va perm)
        if ret ≠ 0 then do
          pmap (pageFree pg)
          pure ret
        else pure 0

/-- `sys_page_map(srcenvid, srcva, dstenvid, dstva, perm)`. -/
def sysPageMap (srcenvid srcva dstenvid dstva perm : Word) : KernM ℤ := do
  match ← envid2env srcenvid true with
  | .error r => pure r
  | .ok se =>
    match ← envid2env dstenvid true with
    | .error r => pure r
    | .ok de =>
      if utop ≤ srcva ∨ utop ≤ dstva ∨ roundDown srcva ≠ srcva ∨ roundDown dstva ≠ dstva then
        pure (-eInval)
      else
        let sdir ← pgdirOf se
        match ← pmap (pageLookup sdir srcva) with
        | none => pure (-eInval)
        | some (pg, pte) =>
          if BadPerm perm then pure (-eInval)
          else
            let w ← read fun k => k.pm.mem pte.1 pte.2
            if w &&& pteW = 0#32 ∧ perm &&& pteW ≠ 0#32 then pure (-eInval)
            else
              let ddir ← pgdirOf de
              pmap (pageInsert ddir pg dstva perm)

/-- `sys_page_unmap(envid, va)`. -/
def sysPageUnmap (envid va : Word) : KernM ℤ := do
  match ← envid2env envid true with
  | .error r => pure r
  | .ok e =>
    if BadVa va then pure (-eInval)
    else
      let pgdir ← pgdirOf e
      pmap (pageRemove pgdir va)
      pure 0

/-! ## Messages -/

/-- The word `*pte` in `sys_ipc_try_send`: `page_lookup` assigns `pte` only if it
finds a page, and the source reads `*pte` before it tests that. -/
def readPte (inp : Inputs) (found : Option (ℕ × PtePtr)) : KernM Word :=
  match found with
  | some (_, pte) => read fun k => k.pm.mem pte.1 pte.2
  | none =>
    match inp.stalePte with
    | some w => pure w
    | none => panic .kernelPageFault

/-- The part of `sys_ipc_try_send` for a `srcva` below `UTOP`: 0, or the error
code. -/
def ipcSendPage (inp : Inputs) (rcv : ℕ) (srcva perm : Word) : KernM ℤ := do
  let c ← thisenv
  let sdir ← pgdirOf c
  let found ← pmap (pageLookup sdir srcva)
  if srcva ≠ roundDown srcva then pure (-eInval)
  else
    let w ← readPte inp found
    if w &&& perm &&& 7#32 ≠ perm &&& 7#32 then pure (-eInval)
    else
      match found with
      | none => pure (-eInval)
      | some (pg, _) =>
        if perm &&& pteW ≠ 0#32 ∧ w &&& pteW = 0#32 then pure (-eInval)
        else
          let dstva ← read fun k => (k.envs rcv).envIpcDstva
          if dstva < utop then
            let ddir ← pgdirOf rcv
            let ret ← pmap (pageInsert ddir pg dstva perm)
            if ret ≠ 0 then pure ret
            else
              modifyEnv rcv fun v => { v with envIpcPerm := perm }
              pure 0
          else pure 0

/-- The `if (srcva < (void*)UTOP)` of `sys_ipc_try_send`. -/
def ipcTransfer (inp : Inputs) (rcv : ℕ) (srcva perm : Word) : KernM ℤ :=
  if srcva < utop then ipcSendPage inp rcv srcva perm else pure 0

/-- The end of `sys_ipc_try_send`: the message is stored in the receiver, which
is made runnable. -/
def ipcDeliver (rcv : ℕ) (value : Word) : KernM Unit := do
  let c ← thisenv
  modify fun k => k.setEnv rcv fun v => { v with
    envIpcRecving := false
    envIpcFrom := (k.envs c).envId
    envIpcValue := value
    envStatus := .runnable
    envTf := { v.envTf with regs := { v.envTf.regs with eax := 0#32 } } }

/-- `sys_ipc_try_send(envid, value, srcva, perm)`. -/
def sysIpcTrySend (inp : Inputs) (envid value srcva perm : Word) : KernM ℤ := do
  match ← envid2env envid false with
  | .error r => pure r
  | .ok rcv =>
    let recving ← read fun k => (k.envs rcv).envIpcRecving
    if recving = false then pure (-eIpcNotRecv)
    else
      let ret ← ipcTransfer inp rcv srcva perm
      if ret ≠ 0 then pure ret
      else
        ipcDeliver rcv value
        pure 0

/-- `sys_ipc_recv(dstva)`. -/
def sysIpcRecv (dstva : Word) : KernM ℤ := do
  if dstva < utop ∧ dstva ≠ roundDown dstva then pure (-eInval)
  else
    let c ← thisenv
    modifyEnv c fun v => { v with
      envIpcRecving := true
      envStatus := .notRunnable
      envIpcDstva := dstva }
    sysYield

/-! ## Dispatch -/

/-- A system call, decoded from the number and the five arguments as `syscall`
does.  A number without a case is refused; `SYS_env_set_trapframe` has none. -/
inductive Call where
  | cputs (s len : Word)
  | cgetc
  | getenvid
  | envDestroy (envid : Word)
  | yield
  | exofork
  | envSetStatus (envid status : Word)
  | pageAlloc (envid va perm : Word)
  | pageMap (srcenvid srcva dstenvid dstva perm : Word)
  | pageUnmap (envid va : Word)
  | envSetPgfaultUpcall (envid func : Word)
  | ipcTrySend (envid value srcva perm : Word)
  | ipcRecv (dstva : Word)
  | invalid

/-- The `switch` of `syscall`. -/
def decodeCall (no a1 a2 a3 a4 a5 : Word) : Call :=
  match no.toNat with
  | 0 => .cputs a1 a2
  | 1 => .cgetc
  | 2 => .getenvid
  | 3 => .envDestroy a1
  | 4 => .pageAlloc a1 a2 a3
  | 5 => .pageMap a1 a2 a3 a4 a5
  | 6 => .pageUnmap a1 a2
  | 7 => .exofork
  | 8 => .envSetStatus a1 a2
  | 10 => .envSetPgfaultUpcall a1 a2
  | 11 => .yield
  | 12 => .ipcTrySend a1 a2 a3 a4
  | 13 => .ipcRecv a1
  | _ => .invalid

/-- `syscall(no, a1, a2, a3, a4, a5)`, after decoding. -/
def runCall (inp : Inputs) : Call → KernM ℤ
  | .cputs s len => do
    sysCputs s len
    pure 0
  | .cgetc => sysCgetc inp
  | .getenvid => sysGetenvid
  | .envDestroy envid => sysEnvDestroy envid
  | .yield => sysYield
  | .exofork => sysExofork
  | .envSetStatus envid status => sysEnvSetStatus envid status
  | .pageAlloc envid va perm => sysPageAlloc envid va perm
  | .pageMap srcenvid srcva dstenvid dstva perm => sysPageMap srcenvid srcva dstenvid dstva perm
  | .pageUnmap envid va => sysPageUnmap envid va
  | .envSetPgfaultUpcall envid func => sysEnvSetPgfaultUpcall envid func
  | .ipcTrySend envid value srcva perm => sysIpcTrySend inp envid value srcva perm
  | .ipcRecv dstva => sysIpcRecv dstva
  | .invalid => pure (-eInval)

end OsLab.Jos
