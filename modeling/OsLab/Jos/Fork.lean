import OsLab.Lib.Prog
import OsLab.Jos.Syscall
import OsLab.Jos.KernDir

/-!
# Copy-on-write fork: `lib/fork.c`, `lib/pgfault.c`

`fork` is a program of the library.  It makes system calls, and it looks at its own page
tables, which the kernel maps for reading at `uvpt` and `uvpd`.  The fault handler
`pgfault` also copies memory.

* `UserOp` is what such a program asks for, and `UserOp.exec` how it is answered when
  environment `e` asks.
* `fork`, `duppage` and `pgfault` are programs over these operations.

A program also stores to its stack and to its variables between its calls.  Those stores
are not part of the text of `fork`; where they matter, they are events of their own.
-/

namespace OsLab.Jos

open Exec

/-- `PTE_COW`. -/
def pteCow : Word := 0x800#32

/-- `PTE_SHARE`. -/
def pteShare : Word := 0x400#32

/-- `FEC_WR`: the fault was caused by a write. -/
def fecWr : Word := 0x2#32

/-- The number of pages below `USTACKTOP`. -/
def ustackPages : ℕ := pgnum ustacktop

/-! ## What a program asks for -/

/-- The operations of a library program. -/
inductive UserOp where
  | sys (call : Call)
  /-- The value of `uvpd[d]`. -/
  | uvpd (d : ℕ)
  /-- The value of `uvpt[pn]`. -/
  | uvpt (pn : ℕ)
  /-- Load an aligned word. -/
  | load (va : Word)
  /-- Store an aligned word. -/
  | store (va w : Word)

/-- What an operation is answered with. -/
def UserOp.Res : UserOp → Type
  | .sys _ => ℤ
  | .uvpd _ => Word
  | .uvpt _ => Word
  | .load _ => Word
  | .store _ _ => Unit

/-- Programs of the library. -/
abbrev UserProg := Prog UserOp.Res

def sys (call : Call) : UserProg ℤ := .ask (.sys call) fun r => .ret r
def uvpdAt (d : ℕ) : UserProg Word := .ask (.uvpd d) fun w => .ret w
def uvptAt (pn : ℕ) : UserProg Word := .ask (.uvpt pn) fun w => .ret w
def load (va : Word) : UserProg Word := .ask (.load va) fun w => .ret w
def store (va w : Word) : UserProg Unit := .ask (.store va w) fun _ => .ret ()

/-- The kernel as environment `e` finds it when it traps. -/
def Kern.as (k : Kern) (e : ℕ) : Kern := { k with curenv := some e }

/-- The system calls of this library take nothing from outside. -/
def noInputs : Inputs := ⟨0#32, 0, none⟩

/-- The page that environment `e` reaches at `va`, if it may do what `need` says. -/
def Kern.reach (k : Kern) (e : ℕ) (va need : Word) : Option ℕ :=
  match k.dirs e with
  | none => none
  | some d => walk k.pm d va need

/-- What environment `e` reads at `uvpd[d]`: the entry of its page directory. -/
def Kern.pdeAt (k : Kern) (e d : ℕ) : Word :=
  match k.dirs e with
  | none => 0#32
  | some p => k.pm.mem p d

/-- An operation of environment `e`.  There is no answer where the program would fault, and
none where a call does not return. -/
def UserOp.exec (e : ℕ) : (o : UserOp) → Kern → Option (o.Res × Kern)
  | .sys call, k =>
    match runCall noInputs call (k.as e) with
    | .ok r k' => some (r, k')
    | _ => none
  | .uvpd d, k => some (k.pdeAt e d, k)
  | .uvpt pn, k =>
    -- the table is there to be read if the directory has it
    if Present (k.pdeAt e (pn / nptentries)) then
      some (k.pm.mem (pgnum (k.pdeAt e (pn / nptentries))) (pn % nptentries), k)
    else none
  | .load va, k =>
    match k.reach e va pteU with
    | none => none
    | some p => some (k.pm.mem p (pgoff va / 4), k)
  | .store va w, k =>
    match k.reach e va (pteU ||| pteW) with
    | none => none
    | some p => some ((), { k with pm := k.pm.setWord p (pgoff va / 4) w })

/-! ## The fault handler -/

/-- The loop `rep movsl` of `memmove(dst, src, 4 * n)`; pages do not overlap, so it goes
upwards. -/
def moveWords : ℕ → Word → Word → UserProg Unit
  | 0, _, _ => pure ()
  | n + 1, dst, src => do
    let w ← load src
    store dst w
    moveWords n (dst + 4#32) (src + 4#32)

/-- `pgfault(utf)`, for a fault at `va` with the error code `err`. -/
def pgfault (va err : Word) : UserProg Unit := do
  if err &&& fecWr = 0#32 then Prog.exit
  else
    let pte ← uvptAt (pgnum va)
    if pte &&& pteCow = 0#32 then Prog.exit
    else
      let addr := roundDown va
      let r ← sys (.pageMap 0#32 addr 0#32 pftemp (pteU ||| pteP))
      if r < 0 then Prog.exit
      else
        let r ← sys (.pageAlloc 0#32 addr (pteP ||| pteU ||| pteW))
        if r < 0 then Prog.exit
        else
          moveWords nptentries addr pftemp
          let r ← sys (.pageUnmap 0#32 pftemp)
          if r < 0 then Prog.exit else pure ()

/-- `set_pgfault_handler(pgfault)`, where `handler` is the value of `_pgfault_handler` and
`upcall` the address of `_pgfault_upcall`. -/
def setPgfaultHandler (handler upcall : Word) : UserProg Unit := do
  if handler = 0#32 then
    let r ← sys (.pageAlloc 0#32 uxstack (pteW ||| pteU ||| pteP))
    if r < 0 then Prog.exit
    else
      let _ ← sys (.envSetPgfaultUpcall 0#32 upcall)
      pure ()
  else pure ()

/-! ## Fork -/

/-- `(uvpt[pn] & PTE_W) || (uvpt[pn] & PTE_COW)`, each operand reading the entry. -/
def writablePage (pn : ℕ) : UserProg Bool := do
  if (← uvptAt pn) &&& pteW ≠ 0#32 then pure true
  else pure (decide ((← uvptAt pn) &&& pteCow ≠ 0#32))

/-- `duppage(envid, pn)`. -/
def duppage (envid : Word) (pn : ℕ) : UserProg ℤ := do
  let addr := pageVa pn
  if (← uvptAt pn) &&& pteShare ≠ 0#32 then
    let _ ← sys (.pageMap 0#32 addr envid addr pteSyscall)
    pure 0
  else if ← writablePage pn then
    let r ← sys (.pageMap 0#32 addr envid addr (pteCow ||| pteU ||| pteP))
    if r < 0 then Prog.exit
    else
      let r ← sys (.pageMap 0#32 addr 0#32 addr (pteCow ||| pteU ||| pteP))
      if r < 0 then Prog.exit else pure 0
  else
    let _ ← sys (.pageMap 0#32 addr envid addr (pteU ||| pteP))
    pure 0

/-- Is the page mapped for user mode?  The tests of `fork`, in their order. -/
def userPage (pn : ℕ) : UserProg Bool := do
  if (← uvpdAt (pn / nptentries)) &&& pteP = 0#32 then pure false
  else if (← uvptAt pn) &&& pteP = 0#32 then pure false
  else pure (decide ((← uvptAt pn) &&& pteU ≠ 0#32))

/-- The loop of `fork` over `n` pages from `pn` on. -/
def forkLoop (envid : Word) : ℕ → ℕ → UserProg Unit
  | 0, _ => pure ()
  | n + 1, pn => do
    if ← userPage pn then
      let _ ← duppage envid pn
      forkLoop envid n (pn + 1)
    else forkLoop envid n (pn + 1)

/-- What `fork` does once the pages are mapped: an exception stack for the child, its
upcall, and its status. -/
def forkEnd (envid : ℤ) (upcall : Word) : UserProg ℤ := do
  let r ← sys (.pageAlloc (BitVec.ofInt 32 envid) uxstack (pteP ||| pteW ||| pteU))
  if r < 0 then Prog.exit
  else
    let _ ← sys (.envSetPgfaultUpcall (BitVec.ofInt 32 envid) upcall)
    let r ← sys (.envSetStatus (BitVec.ofInt 32 envid) 2#32)
    if r < 0 then Prog.exit else pure envid

/-- `fork()`, in an environment with the given value of `_pgfault_handler`. -/
def fork (handler upcall : Word) : UserProg ℤ := do
  setPgfaultHandler handler upcall
  let envid ← sys .exofork
  if envid = 0 then
    -- the child sets `thisenv`
    let _ ← sys .getenvid
    pure 0
  else if envid < 0 then Prog.exit
  else
    forkLoop (BitVec.ofInt 32 envid) ustackPages 0
    forkEnd envid upcall

end OsLab.Jos
