import OsLab.Lib.Run
import OsLab.Xv6.Files
import OsLab.Xv6.Vm

/-!
# Who has the pages: processes, pipes and the kernel

The system calls that take or give back pages, for all processes: `fork`, `exec`, `exit`, `wait`, `waitsch`, `sbrk`, `pipe`,
`close`, `dup` and `open`.  A call is one step; `kalloc` may fail at any point of it.

Of the process table the model has what matters for pages: the state, the kernel stack, the directory with the size, the parent
and the descriptors.  A pipe is its page with the two flags.
-/

namespace OsLab.Xv6.Memory

open Vm Files

/-- The state of a process: `live` is `SLEEPING`, `RUNNABLE` or `RUNNING`. -/
inductive Life where
  | unused
  | embryo
  | live
  | zombie
  deriving DecidableEq

/-- `struct proc`, as far as pages go.  The directory of an entry that is not in use is gone. -/
structure Proc where
  state : Life
  kstack : Option Page
  pgdir : Option Space
  sz : ℕ
  parent : Option Slot

/-- What a file is: an end of a pipe, or something else. -/
inductive Kind where
  | pipe (x : Page) (writable : Bool)
  | inode
  deriving DecidableEq

/-- `readopen` and `writeopen` of `struct pipe`. -/
structure Ends where
  readopen : Bool
  writeopen : Bool

namespace Ends

def side (e : Ends) (writable : Bool) : Bool := if writable then e.writeopen else e.readopen

def close (e : Ends) (writable : Bool) : Ends := if writable then { e with writeopen := false } else { e with readopen := false }

end Ends

structure State where
  mem : Kmem
  /-- `kpgdir` -/
  kpgdir : Space
  /-- the stacks of the other processors -/
  cpuStacks : List Page
  proc : Slot → Proc
  files : Table Kind
  pipe : Page → Option Ends
  initproc : Slot

abbrev Sys := Exec Panic State

namespace State

variable (s : State)

def setMem (mem : Kmem) : State := { s with mem := mem }

def setProc (p : Slot) (v : Proc) : State := { s with proc := Function.update s.proc p v }

def setFiles (t : Table Kind) : State := { s with files := t }

def setPipe (x : Page) (e : Option Ends) : State := { s with pipe := Function.update s.pipe x e }

/-- The first entry of the process table with a property. -/
def first (P : Proc → Bool) : Option Slot := (List.finRange nproc).find? fun q => P (s.proc q)

end State

/-- A function of `kalloc.c` or `vm.c`. -/
def vm {α : Type} (m : VM α) : Sys α := Exec.zoom State.mem (fun mem s => s.setMem mem) m

variable (K : Kernel)

/-! ## Files and pipes -/

def filealloc : Sys (Option FileId) := do
  match ← Exec.read fun s : State => s.files.filealloc with
  | none => pure none
  | some f => do
    Exec.modify fun s : State => s.setFiles (s.files.setRef f 1)
    pure (some f)

def filedup (f : FileId) : Sys Unit := do
  let r ← Exec.read fun s : State => (s.files.file f).ref
  if r < 1 then Exec.panic .filedup else Exec.modify fun s : State => s.setFiles (s.files.setRef f (r + 1))

def pipeclose (x : Page) (writable : Bool) : Sys Unit := do
  match ← Exec.read fun s : State => s.pipe x with
  -- there is no pipe in the page
  | none => Exec.panic .wild
  | some e =>
    if (e.close writable).readopen = false ∧ (e.close writable).writeopen = false then do
      Exec.modify fun s : State => s.setPipe x none
      vm (kfree K x)
    else Exec.modify fun s : State => s.setPipe x (some (e.close writable))

def fileclose (f : FileId) : Sys Unit := do
  let ff ← Exec.read fun s : State => s.files.file f
  if ff.ref < 1 then Exec.panic .fileclose
  else if ff.ref - 1 > 0 then Exec.modify fun s : State => s.setFiles (s.files.setRef f (ff.ref - 1))
  else do
    Exec.modify fun s : State => s.setFiles ((s.files.setRef f 0).setKind f none)
    match ff.kind with
    | some (.pipe x writable) => pipeclose K x writable
    | _ => pure ()

/-- `fdalloc`. -/
def fdalloc (p : Slot) (f : FileId) : Sys (Option Fd) := do
  match ← Exec.read fun s : State => s.files.fdalloc p with
  | none => pure none
  | some fd => do
    Exec.modify fun s : State => s.setFiles (s.files.setOfile (p, fd) (some f))
    pure (some fd)

/-- `pipealloc`: the two files. -/
def pipealloc : Sys (Option (FileId × FileId)) := do
  match ← filealloc with
  | none => pure none
  | some f0 => do
    match ← filealloc with
    | none => do
      fileclose K f0
      pure none
    | some f1 => do
      match ← vm kalloc with
      | none => do
        fileclose K f0
        fileclose K f1
        pure none
      | some x => do
        Exec.modify fun s : State => s.setPipe x (some ⟨true, true⟩)
        Exec.modify fun s : State => s.setFiles (s.files.setKind f0 (some (.pipe x false)))
        Exec.modify fun s : State => s.setFiles (s.files.setKind f1 (some (.pipe x true)))
        pure (some (f0, f1))

/-- `sys_pipe`: whether all went well. -/
def sysPipe (p : Slot) : Sys Bool := do
  match ← pipealloc K with
  | none => pure false
  | some (rf, wf) => do
    match ← fdalloc p rf with
    | none => do
      fileclose K rf
      fileclose K wf
      pure false
    | some fd0 => do
      match ← fdalloc p wf with
      | none => do
        Exec.modify fun s : State => s.setFiles (s.files.setOfile (p, fd0) none)
        fileclose K rf
        fileclose K wf
        pure false
      | some _ => pure true

/-- `sys_close`. -/
def sysClose (p : Slot) (fd : Fd) : Sys Bool := do
  match ← Exec.read fun s : State => s.files.ofile (p, fd) with
  | none => pure false
  | some f => do
    Exec.modify fun s : State => s.setFiles (s.files.setOfile (p, fd) none)
    fileclose K f
    pure true

/-- `sys_dup`. -/
def sysDup (p : Slot) (fd : Fd) : Sys Bool := do
  match ← Exec.read fun s : State => s.files.ofile (p, fd) with
  | none => pure false
  | some f => do
    match ← fdalloc p f with
    | none => pure false
    | some _ => do
      filedup f
      pure true

/-- `sys_open`, from `filealloc` on. -/
def sysOpen (p : Slot) : Sys Bool := do
  match ← filealloc with
  | none => pure false
  | some f => do
    match ← fdalloc p f with
    | none => do
      fileclose K f
      pure false
    | some _ => do
      Exec.modify fun s : State => s.setFiles (s.files.setKind f (some .inode))
      pure true

/-! ## Processes -/

/-- `allocproc`. -/
def allocproc : Sys (Option Slot) := do
  match ← Exec.read fun s : State => s.first fun v => v.state = .unused with
  | none => pure none
  | some np => do
    match ← vm kalloc with
    | none => pure none
    | some x => do
      Exec.modify fun s : State => s.setProc np { s.proc np with state := .embryo, kstack := some x }
      pure (some np)

/-- `growproc`: whether all went well. -/
def growproc (p : Slot) (n : BitVec 32) : Sys Bool := do
  let c ← Exec.read fun s : State => s.proc p
  match c.pgdir with
  | none => Exec.panic .wild
  | some d =>
    if 0 < n.toInt then do
      let r ← vm (allocuvm K d c.sz (BitVec.ofNat 32 c.sz + n).toNat)
      Exec.modify fun s : State => s.setProc p { c with pgdir := some r.1, sz := if r.2 = 0 then c.sz else r.2 }
      pure (decide (r.2 ≠ 0))
    else if n.toInt < 0 then do
      let r ← vm (deallocuvm K d c.sz (BitVec.ofNat 32 c.sz + n).toNat)
      Exec.modify fun s : State => s.setProc p { c with pgdir := some r.1, sz := if r.2 = 0 then c.sz else r.2 }
      pure (decide (r.2 ≠ 0))
    else pure true

/-- The loop of `fork` through the descriptors. -/
def dupFiles (p np : Slot) : List Fd → Sys Unit
  | [] => pure ()
  | fd :: l => do
    match ← Exec.read fun s : State => s.files.ofile (p, fd) with
    | none => dupFiles p np l
    | some f => do
      filedup f
      Exec.modify fun s : State => s.setFiles (s.files.setOfile (np, fd) (some f))
      dupFiles p np l

/-- `fork`: whether there is a new process. -/
def fork (p : Slot) : Sys Bool := do
  match ← allocproc with
  | none => pure false
  | some np => do
    let c ← Exec.read fun s : State => s.proc p
    let v ← Exec.read fun s : State => s.proc np
    match c.pgdir, v.kstack with
    | some d, some x => do
      match ← vm (copyuvm K d c.sz) with
      | none => do
        vm (kfree K x)
        Exec.modify fun s : State => s.setProc np { s.proc np with kstack := none, state := .unused }
        pure false
      | some d' => do
        Exec.modify fun s : State => s.setProc np { v with pgdir := some d', sz := c.sz, parent := some p }
        dupFiles p np (List.finRange nofile)
        Exec.modify fun s : State => s.setProc np { s.proc np with state := .live }
        pure true
    | _, _ => Exec.panic .wild

/-- The loop of `exit` through the descriptors. -/
def closeFiles (p : Slot) : List Fd → Sys Unit
  | [] => pure ()
  | fd :: l => do
    match ← Exec.read fun s : State => s.files.ofile (p, fd) with
    | none => closeFiles p l
    | some f => do
      fileclose K f
      Exec.modify fun s : State => s.setFiles (s.files.setOfile (p, fd) none)
      closeFiles p l

/-- `exit`. -/
def exit (p : Slot) : Sys Unit := do
  let init ← Exec.read State.initproc
  if p = init then Exec.panic .initExiting
  else do
    closeFiles K p (List.finRange nofile)
    -- "pass abandoned children to init"
    Exec.modify fun s : State =>
      { s with proc := fun q => if (s.proc q).parent = some p then { s.proc q with parent := some init } else s.proc q }
    Exec.modify fun s : State => s.setProc p { s.proc p with state := .zombie }

/-- A round of `wait` or `waitsch`: whether a child was found. -/
def wait (p : Slot) : Sys Bool := do
  match ← Exec.read fun s : State => s.first fun v => decide (v.parent = some p ∧ v.state = .zombie) with
  | none => pure false
  | some q => do
    let v ← Exec.read fun s : State => s.proc q
    match v.kstack, v.pgdir with
    | some x, some d => do
      vm (kfree K x)
      vm (freevm K d)
      Exec.modify fun s : State => s.setProc q { v with kstack := none, pgdir := none, parent := none, state := .unused }
      pure true
    | _, _ => Exec.panic .wild

/-- `exec`. -/
def exec (p : Slot) (img : Image) : Sys Bool := do
  match ← vm (execNew K img) with
  | none => pure false
  | some (d, sz) => do
    let c ← Exec.read fun s : State => s.proc p
    match c.pgdir with
    | none => Exec.panic .wild
    | some oldpgdir => do
      Exec.modify fun s : State => s.setProc p { c with pgdir := some d, sz := sz }
      vm (freevm K oldpgdir)
      pure true

/-! ## Runs -/

/-- A system call. -/
inductive Call where
  | fork
  | exec (img : Image)
  | exit
  | wait
  | waitsch
  | sbrk (n : BitVec 32)
  | pipe
  | close (fd : Fd)
  | dup (fd : Fd)
  | openFile

/-- A system call by a process, and when `kalloc` fails in it. -/
structure Event where
  proc : Slot
  call : Call
  short : ℕ → Bool

/-- What a system call does. -/
def perform (p : Slot) : Call → Sys Unit
  | .fork => fork K p >>= fun _ => pure ()
  | .exec img => exec K p img >>= fun _ => pure ()
  | .exit => exit K p
  | .wait => wait K p >>= fun _ => pure ()
  | .waitsch => wait K p >>= fun _ => pure ()
  | .sbrk n => growproc K p n >>= fun _ => pure ()
  | .pipe => sysPipe K p >>= fun _ => pure ()
  | .close fd => sysClose K p fd >>= fun _ => pure ()
  | .dup fd => sysDup p fd >>= fun _ => pure ()
  | .openFile => sysOpen K p >>= fun _ => pure ()

/-- The call can be made: the process is there, and the strings that it passes to `exec` are in its memory
(`fetchstr`). -/
def State.Enabled (s : State) (a : Event) : Prop :=
  (s.proc a.proc).state = .live ∧ ∀ img, a.call = .exec img → ∀ len ∈ img.args, len < (s.proc a.proc).sz

/-- The state in which the call is carried out. -/
def State.begin (s : State) (a : Event) : State := s.setMem { s.mem with short := a.short }

/-! ## Boot -/

/-- `freerange`, for `n` pages from the page `x` on. -/
def freerange : ℕ → Page → VM Unit
  | 0, _ => pure ()
  | n + 1, x => do
    kfree K x
    freerange n (x + 1)

/-- The stacks that `startothers` allocates. -/
def startothers : ℕ → VM (List Page)
  | 0 => pure []
  | n + 1 => do
    match ← kalloc with
    | none => Exec.panic .boot
    | some x => do
      let l ← startothers n
      pure (x :: l)

/-- What is allocated in `main`: `kpgdir`, the stacks of the other processors, and the kernel stack and the directory of the
first process. -/
def bootPages (ncpu : ℕ) : VM (Space × List Page × Page × Space) := do
  -- `kinit1(end, P2V(4*1024*1024))`
  freerange K (1024 - K.first) K.first
  match ← setupkvm K with
  | none => Exec.panic .boot
  | some kpgdir => do
    let cpuStacks ← startothers (ncpu - 1)
    -- `kinit2(P2V(4*1024*1024), P2V(PHYSTOP))`
    freerange K (phystop / pgsize - 1024) 1024
    match ← kalloc with
    | none => Exec.panic .boot
    | some kstack => do
      match ← setupkvm K with
      | none => Exec.panic .boot
      | some pgdir => do
        -- `inituvm`
        match ← kalloc with
        | none => Exec.panic .boot
        | some mem => do
          let r ← mappages pgdir 0 pgsize (mem * pgsize) true true
          pure (kpgdir, cpuStacks, kstack, r.1)

local instance : NeZero nproc := ⟨by decide⟩

/-- The system after `main`. -/
def booted (mem : Kmem) (r : Space × List Page × Page × Space) : State where
  mem := mem
  kpgdir := r.1
  cpuStacks := r.2.1
  proc p := if p = 0 then ⟨.live, some r.2.2.1, some r.2.2.2, pgsize, none⟩ else ⟨.unused, none, none, 0, none⟩
  files := ⟨fun _ => ⟨0, none⟩, fun _ => none⟩
  pipe _ := none
  initproc := 0

/-- The memory before `main`. -/
def nothing : Kmem := ⟨[], false, fun _ => false⟩

/-- The system starts on at most `NCPU` processors. -/
def Start (s : State) : Prop := ∃ ncpu ≤ 8, ∃ r mem, bootPages K ncpu nothing = .ok r mem ∧ s = booted mem r

/-- The system. -/
def system : System State Event where
  init := Start K
  step s a s' := s.Enabled a ∧ perform K a.proc a.call (s.begin a) = .ok () s'

end OsLab.Xv6.Memory
