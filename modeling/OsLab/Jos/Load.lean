import OsLab.Jos.Env

/-!
# Environments the kernel starts with: the rest of `kern/env.c`

`env_init` puts every entry of `envs` on the free list.  `env_create` takes one
of them, gives it an address space, copies the segments of an ELF binary into it
and adds a page of stack; it runs only while the kernel initialises itself.
-/

namespace OsLab.Jos

open Exec

/-! ## The free list -/

/-- An entry of `envs` before `env_init`: all zeroes. -/
def blankEnv : Env where
  envTf := ⟨⟨0#32, 0#32, 0#32, 0#32, 0#32, 0#32, 0#32, 0#32⟩, 0#16, 0#16, 0#32, 0#32, 0#32, 0#16,
    0#32, 0#32, 0#16⟩
  envLink := none
  envId := 0#32
  envParentId := 0#32
  envType := .user
  envStatus := .free
  envRuns := 0#32
  envPgdir := none
  envPgfaultUpcall := 0#32
  envIpcRecving := false
  envIpcDstva := 0#32
  envIpcValue := 0#32
  envIpcFrom := 0#32
  envIpcPerm := 0#32

/-- The body of the loop of `env_init`. -/
def envInitEntry (k : Kern) (i : ℕ) : Kern :=
  { k.setEnv i fun v => { v with envId := 0#32, envLink := k.envFreeList } with
    envFreeList := some i }

/-- The loop of `env_init`, over the entries below `n` from the last one down. -/
def envInitLoop : ℕ → Kern → Kern
  | 0, k => k
  | n + 1, k => envInitLoop n (envInitEntry k n)

/-- `env_init()`, after `mem_init` left the memory `p`. -/
@[irreducible] def envInit (p : Pmap) : Kern := envInitLoop nenv ⟨p, fun _ => blankEnv, none, none⟩

/-! ## Loading a binary -/

/-- `struct Proghdr`, with the bytes at `binary + p_offset`. -/
structure Proghdr where
  pType : Word
  pVa : Word
  pMemsz : Word
  pFilesz : Word
  bytes : ℕ → BitVec 8

/-- `struct Elf`, with its program headers. -/
structure Elf where
  eMagic : Word
  eEntry : Word
  ph : List Proghdr

/-- `ELF_MAGIC` and `ELF_PROG_LOAD`. -/
def elfMagic : Word := 0x464C457F#32
def elfProgLoad : Word := 1#32

/-- The kernel stores the bytes `f 0`, `f 1`, … at `n` consecutive addresses. -/
def kernFill (pgdir : ℕ) (va : Word) (f : ℕ → BitVec 8) : ℕ → PmapM Unit
  | 0 => pure ()
  | n + 1 => do
    kernFill pgdir va f n
    kernStore pgdir (va + BitVec.ofNat 32 n) (f n)

/-- The body of the loop of `load_icode`, for a segment to load. -/
def loadSegment (e : ℕ) (ph : Proghdr) : KernM Unit := do
  regionAlloc e ph.pVa ph.pMemsz
  let pgdir ← pgdirOf e
  pmap (kernFill pgdir ph.pVa (fun _ => 0#8) ph.pMemsz.toNat)
  pmap (kernFill pgdir ph.pVa ph.bytes ph.pFilesz.toNat)

/-- The loop of `load_icode`. -/
def loadSegments (e : ℕ) : List Proghdr → KernM Unit
  | [] => pure ()
  | ph :: phs => do
    when (ph.pType = elfProgLoad) (loadSegment e ph)
    loadSegments e phs

/-- `load_icode(e, binary)`. -/
def loadIcode (e : ℕ) (binary : Elf) : KernM Unit := do
  if binary.eMagic ≠ elfMagic then panic .loadIcode
  else
    loadSegments e binary.ph
    modifyEnv e fun v => { v with envTf := { v.envTf with eip := binary.eEntry } }
    regionAlloc e (ustacktop - BitVec.ofNat 32 pgsize) (BitVec.ofNat 32 pgsize)

/-- `env_create(binary, type)`. -/
def envCreate (binary : Elf) (type : EnvType) : KernM Unit := do
  match ← envAlloc 0#32 with
  | .error _ => panic .envCreate
  | .ok e =>
    when (type = .fs) (modifyEnv e fun v =>
      { v with envTf := { v.envTf with eflags := v.envTf.eflags ||| flIopl3 } })
    loadIcode e binary
    modifyEnv e fun v => { v with envType := type }

end OsLab.Jos
