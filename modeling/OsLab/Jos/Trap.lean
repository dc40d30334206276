import OsLab.Jos.Syscall

/-!
# Traps: `kern/trap.c`

The way into the kernel.  A trap from user mode saves the trap frame in the
current environment, handles the cause, and leaves through the scheduler; it
never returns to its caller.
-/

namespace OsLab.Jos

open Exec

/-- Trap numbers. -/
def tBrkpt : ℕ := 3
def tPgflt : ℕ := 14
def tSyscall : ℕ := 48
def irqTimer : ℕ := 32
def irqSpurious : ℕ := 39

/-- `(tf->tf_cs & 3) == 3`. -/
def Trapframe.FromUser (tf : Trapframe) : Prop := tf.cs &&& 3#16 = 3#16

instance (tf : Trapframe) : Decidable tf.FromUser := inferInstanceAs (Decidable (_ = _))

/-- The words of the `struct UTrapframe` for a fault at `faultVa`. -/
def utrapframe (faultVa : Word) (tf : Trapframe) : List Word :=
  [faultVa, tf.err, tf.regs.edi, tf.regs.esi, tf.regs.ebp, tf.regs.oesp, tf.regs.ebx, tf.regs.edx,
    tf.regs.ecx, tf.regs.eax, tf.eip, tf.eflags, tf.esp]

/-- `sizeof(struct UTrapframe) + sizeof(uint32_t)`. -/
def utrapframeRoom : Word := 56#32

/-- Where `page_fault_handler` puts the `UTrapframe`. -/
def utrapframeTop (tf : Trapframe) : Word :=
  if uxstacktop - BitVec.ofNat 32 pgsize < tf.esp ∧ tf.esp < uxstacktop then tf.esp
  else uxstacktop

/-- `page_fault_handler(tf)`. -/
def pageFaultHandler (inp : Inputs) (tf : Trapframe) : KernM Unit := do
  if tf.cs &&& 3#16 = 0#16 then panic .kernelPageFault
  else
    let c ← thisenv
    let upcall ← read fun k => (k.envs c).envPgfaultUpcall
    if upcall ≠ 0#32 then
      let utr := utrapframeTop tf - utrapframeRoom
      userMemAssert c utr utrapframeRoom (pteU ||| pteW)
      let pgdir ← pgdirOf c
      pmap (kernStoreWords pgdir utr (utrapframe inp.cr2 tf))
      modifyEnv c fun v => { v with envTf := { v.envTf with eip := upcall, esp := utr } }
      envRun c
    else envDestroy c

/-- The system call a trap frame asks for. -/
def Trapframe.call (tf : Trapframe) : Call :=
  decodeCall tf.regs.eax tf.regs.edx tf.regs.ecx tf.regs.ebx tf.regs.edi tf.regs.esi

/-- `trap_dispatch(tf)`.  `home` is the environment whose `env_tf` the pointer
`tf` points to, if it does not point to the kernel stack. -/
def trapDispatch (inp : Inputs) (tf : Trapframe) (home : Option ℕ) : KernM Unit := do
  if tf.trapno.toNat = tPgflt then pageFaultHandler inp tf
  else if tf.trapno.toNat = tBrkpt then panic .monitor
  else if tf.trapno.toNat = tSyscall then do
    let r ← runCall inp tf.call
    match home with
    | some c => modifyEnv c fun v =>
        { v with envTf := { v.envTf with regs := { v.envTf.regs with eax := BitVec.ofInt 32 r } } }
    | none => pure ()
  else if tf.trapno.toNat = irqSpurious then pure ()
  else if tf.trapno.toNat = irqTimer then schedYield
  else if tf.cs = gdKt then panic .unhandledTrap
  else do
    let c ← thisenv
    envDestroy c

/-- The end of `trap`: back to the current environment if that makes sense. -/
def trapReturn : KernM Unit := do
  let k ← read id
  match k.curenv with
  | some c => if (k.envs c).envStatus = .running then envRun c else schedYield
  | none => schedYield

/-- `trap(tf)`. -/
def trap (inp : Inputs) (tf : Trapframe) : KernM Unit := do
  if tf.FromUser then
    match ← read Kern.curenv with
    | none => panic .assertCurenv
    | some c =>
      let status ← read fun k => (k.envs c).envStatus
      if status = .dying then do
        envFree c
        modify fun k => { k with curenv := none }
        schedYield
      else
        modifyEnv c fun v => { v with envTf := tf }
        trapDispatch inp tf (some c)
        trapReturn
  else
    trapDispatch inp tf none
    trapReturn

end OsLab.Jos
