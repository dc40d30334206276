import OsLab.Lib.Exec
import OsLab.Lib.Holdings

/-!
# Physical pages and page directories: `kalloc.c`, `vm.c`, `exec.c`

A page directory is a value that says which page it is in, in which pages its page tables are, and what is mapped at
each virtual page.  The functions of `vm.c` take a directory and return it as they leave it.  That two directories never
have a page in common, so that no function changes another directory by the way, is what is proved about them.

The contents of user pages are left out, with one exception.  `uva2ka` does not look whether there is a page table: for an
address without one it reads its entry from address 0, that is from the first word of the program that calls `exec`,
and `copyout` goes on to write to the page that is named there (`clobber`).

`kalloc` may fail at any time: other processes may have all the memory at that moment.
-/

namespace OsLab.Xv6.Vm

/-- `PGSIZE`. -/
abbrev pgsize : ℕ := 4096

/-- `KERNBASE`. -/
abbrev kernbase : ℕ := 0x80000000

/-- `EXTMEM`. -/
abbrev extmem : ℕ := 0x100000

/-- `PHYSTOP`. -/
abbrev phystop : ℕ := 0xE000000

/-- `DEVSPACE`. -/
abbrev devspace : ℕ := 0xFE000000

/-- `MAXARG`. -/
abbrev maxarg : ℕ := 32

/-- `PGROUNDUP`. -/
def pgroundup (a : ℕ) : ℕ := (a + pgsize - 1) / pgsize * pgsize

/-- `PGROUNDDOWN`. -/
def pgrounddown (a : ℕ) : ℕ := a / pgsize * pgsize

/-- A physical page, by its number. -/
abbrev Page := ℕ

/-- Where the linker has put things: `V2P(data)`, and the first page after `end`, which is in the first two megabytes. -/
structure Kernel where
  data : ℕ
  first : ℕ
  data_aligned : data % pgsize = 0
  data_gt : extmem < data
  data_lt : data < phystop
  first_pos : 0 < first
  first_le : first ≤ 512

/-- The page is one that `kfree` accepts. -/
def Kernel.Valid (K : Kernel) (x : Page) : Prop := K.first ≤ x ∧ x < phystop / pgsize

instance (K : Kernel) (x : Page) : Decidable (K.Valid x) := inferInstanceAs (Decidable (_ ∧ _))

/-- The panics of the functions in this and the following modules, and three more ends that the model knows. -/
inductive Panic where
  | remap
  | kfree
  | addressShouldExist
  | clearpteu
  | pteShouldExist
  | pageNotPresent
  | fileclose
  | filedup
  | initExiting
  /-- `kalloc` returns something that is no page -/
  | junk
  /-- the kernel writes to something else than it should; what comes of it is left out -/
  | wild
  /-- there is no memory at boot -/
  | boot
  deriving DecidableEq

/-- The pages on the free list, and what comes after the last one: nothing, or something that is no page. -/
structure Kmem where
  free : List Page
  junk : Bool
  /-- is there no memory, the next time and the times after that? -/
  short : ℕ → Bool

abbrev VM := Exec Panic Kmem

def kalloc : VM (Option Page) := fun s =>
  let s' := { s with short := fun k => s.short (k + 1) }
  if s.short 0 then .ok none s'
  else
    match s.free with
    | [] => if s.junk then .panic .junk else .ok none s'
    | x :: l => .ok (some x) { s' with free := l }

def kfree (K : Kernel) (x : Page) : VM Unit := fun s =>
  if K.Valid x then .ok () { s with free := x :: s.free } else .panic .kfree

/-- A whole page of user data is written to the page.  If it is on the free list, the list ends there with something
that is no page. -/
def clobber (x : Page) : VM Unit := fun s =>
  if x ∈ s.free then .ok () { s with free := s.free.take (s.free.idxOf x + 1), junk := true } else .panic .wild

/-! ## Page directories -/

/-- A page table entry that is present. -/
structure Pte where
  page : Page
  writable : Bool
  user : Bool
  deriving DecidableEq

/-- A page directory: its page, the pages of its page tables, and the entries of these by the number of the virtual
page. -/
structure Space where
  page : Page
  table : ℕ → Option Page
  pte : ℕ → Option Pte

namespace Space

variable (d : Space)

def setTable (i : ℕ) (x : Page) : Space :=
  -- `memset(pgtab, 0, PGSIZE)`
  { d with table := Function.update d.table i (some x), pte := fun v => if v / 1024 = i then none else d.pte v }

def setPte (v : ℕ) (e : Option Pte) : Space := { d with pte := Function.update d.pte v e }

end Space

/-- `walkpgdir`: whether there is an entry for the virtual page. -/
def walkpgdir (d : Space) (v : ℕ) (alloc : Bool) : VM (Space × Bool) :=
  match d.table (v / 1024) with
  | some _ => pure (d, true)
  | none =>
    if alloc = false then pure (d, false)
    else do
      match ← kalloc with
      | none => pure (d, false)
      | some x => pure (d.setTable (v / 1024) x, true)

/-- The loop of `mappages`. -/
def mapLoop (writable user : Bool) : ℕ → Space → ℕ → Page → VM (Space × Bool)
  | 0, d, _, _ => pure (d, true)
  | n + 1, d, v, x => do
    let r ← walkpgdir d v true
    if r.2 = false then pure (r.1, false)
    else if (r.1.pte v).isSome then Exec.panic .remap
    else mapLoop writable user n (r.1.setPte v (some ⟨x, writable, user⟩)) (v + 1) (x + 1)

/-- `mappages`; `va + size` is not beyond the end of the address space. -/
def mappages (d : Space) (va size pa : ℕ) (writable user : Bool) : VM (Space × Bool) :=
  let a := va / pgsize
  let last := (va + size - 1) % 2 ^ 32 / pgsize
  mapLoop writable user (last + 1 - a) d a (pa / pgsize)

/-- The loop of `deallocuvm`; the first argument bounds the number of rounds. -/
def deallocLoop (K : Kernel) (oldsz : ℕ) : ℕ → Space → ℕ → VM Space
  | 0, d, _ => pure d
  | n + 1, d, a =>
    if a < oldsz then
      match d.table (a / pgsize / 1024) with
      -- `a = PGADDR(PDX(a) + 1, 0, 0) - PGSIZE`
      | none => deallocLoop K oldsz n d ((a / pgsize / 1024 + 1) * 1024 * pgsize)
      | some _ =>
        match d.pte (a / pgsize) with
        | none => deallocLoop K oldsz n d (a + pgsize)
        | some e => do
          kfree K e.page
          deallocLoop K oldsz n (d.setPte (a / pgsize) none) (a + pgsize)
    else pure d

def deallocuvm (K : Kernel) (d : Space) (oldsz newsz : ℕ) : VM (Space × ℕ) :=
  if newsz ≥ oldsz then pure (d, oldsz)
  else do
    let d ← deallocLoop K oldsz (oldsz / pgsize + 1) d (pgroundup newsz)
    pure (d, newsz)

/-- The page tables are freed. -/
def freeTables (K : Kernel) (d : Space) : List ℕ → VM Unit
  | [] => pure ()
  | i :: l =>
    match d.table i with
    | none => freeTables K d l
    | some x => do
      kfree K x
      freeTables K d l

def freevm (K : Kernel) (d : Space) : VM Unit := do
  let r ← deallocuvm K d kernbase 0
  freeTables K r.1 (List.range 1024)
  kfree K r.1.page

/-- An entry of `kmap`. -/
structure Kmap where
  virt : ℕ
  physStart : ℕ
  physEnd : ℕ
  writable : Bool

def kmap (K : Kernel) : List Kmap :=
  [⟨kernbase, 0, extmem, true⟩, ⟨kernbase + extmem, extmem, K.data, false⟩, ⟨kernbase + K.data, K.data, phystop, true⟩,
    ⟨devspace, devspace, 2 ^ 32, true⟩]

/-- The loop of `setupkvm`. -/
def kmapLoop : List Kmap → Space → VM (Space × Bool)
  | [], d => pure (d, true)
  | k :: l, d => do
    let r ← mappages d k.virt (k.physEnd - k.physStart) k.physStart k.writable false
    if r.2 = false then pure (r.1, false) else kmapLoop l r.1

def setupkvm (K : Kernel) : VM (Option Space) := do
  match ← kalloc with
  | none => pure none
  | some x => do
    let r ← kmapLoop (kmap K) ⟨x, fun _ => none, fun _ => none⟩
    if r.2 = false then do
      freevm K r.1
      pure none
    else pure (some r.1)

/-- The loop of `allocuvm`, for the next `n` pages: the directory, and whether all went well. -/
def allocLoop (K : Kernel) (oldsz newsz : ℕ) : ℕ → Space → ℕ → VM (Space × Bool)
  | 0, d, _ => pure (d, true)
  | n + 1, d, a => do
    match ← kalloc with
    | none => do
      let r ← deallocuvm K d newsz oldsz
      pure (r.1, false)
    | some mem => do
      let r ← mappages d a pgsize (mem * pgsize) true true
      if r.2 = false then do
        let r ← deallocuvm K r.1 newsz oldsz
        kfree K mem
        pure (r.1, false)
      else allocLoop K oldsz newsz n r.1 (a + pgsize)

/-- `allocuvm`: the directory, and the new size or 0. -/
def allocuvm (K : Kernel) (d : Space) (oldsz newsz : ℕ) : VM (Space × ℕ) :=
  if newsz ≥ kernbase then pure (d, 0)
  else if newsz < oldsz then pure (d, oldsz)
  else do
    let a := pgroundup oldsz
    let r ← allocLoop K oldsz newsz ((newsz - a + pgsize - 1) / pgsize) d a
    pure (r.1, if r.2 then newsz else 0)

/-- The loop of `copyuvm`, for the next `n` pages. -/
def copyLoop (K : Kernel) (pgdir : Space) : ℕ → Space → ℕ → VM (Space × Bool)
  | 0, d, _ => pure (d, true)
  | n + 1, d, i => do
    match pgdir.table (i / pgsize / 1024), pgdir.pte (i / pgsize) with
    | none, _ => Exec.panic .pteShouldExist
    | some _, none => Exec.panic .pageNotPresent
    | some _, some e => do
      match ← kalloc with
      | none => pure (d, false)
      | some mem => do
        let r ← mappages d i pgsize (mem * pgsize) e.writable e.user
        if r.2 = false then do
          kfree K mem
          pure (r.1, false)
        else copyLoop K pgdir n r.1 (i + pgsize)

def copyuvm (K : Kernel) (pgdir : Space) (sz : ℕ) : VM (Option Space) := do
  match ← setupkvm K with
  | none => pure none
  | some d => do
    let r ← copyLoop K pgdir ((sz + pgsize - 1) / pgsize) d 0
    if r.2 = false then do
      freevm K r.1
      pure none
    else pure (some r.1)

def clearpteu (d : Space) (v : ℕ) : VM Space :=
  match d.table (v / 1024), d.pte v with
  | none, _ => Exec.panic .clearpteu
  | some _, e => pure (d.setPte v (e.map fun e => { e with user := false }))

/-! ## `copyout` -/

/-- `uva2ka` finds an entry, reads one from address 0, or finds that the page may not be used. -/
inductive Ka where
  | page (x : Page)
  | null
  | no

def uva2ka (d : Space) (v : ℕ) : Ka :=
  match d.table (v / 1024), d.pte v with
  | none, _ => .null
  | some _, none => .no
  | some _, some e => if e.user then .page e.page else .no

/-- The loop of `copyout`; the first argument bounds the number of rounds, and `word` is the word at address 0 of the
running process. -/
def copyoutLoop (d : Space) (word : BitVec 32) : ℕ → ℕ → ℕ → VM Bool
  | 0, _, _ => pure true
  | n + 1, va, len =>
    if len = 0 then pure true
    else
      match uva2ka d (va / pgsize) with
      | .no => pure false
      | .page _ => copyoutLoop d word n ((pgrounddown va + pgsize) % 2 ^ 32) (len - (pgsize - va % pgsize))
      | .null =>
        -- `PTE_P` and `PTE_U`
        if (word.getLsbD 0 && word.getLsbD 2) = false then pure false
        else if va % pgsize = 0 ∧ pgsize ≤ len then do
          clobber (word.toNat / pgsize)
          copyoutLoop d word n ((pgrounddown va + pgsize) % 2 ^ 32) (len - (pgsize - va % pgsize))
        else Exec.panic .wild

def copyout (d : Space) (word : BitVec 32) (va len : ℕ) : VM Bool := copyoutLoop d word len va len

/-! ## `exec` -/

/-- A program header, and for each page of the segment whether it can be read from the file. -/
structure Ph where
  load : Bool
  vaddr : BitVec 32
  memsz : BitVec 32
  filesz : BitVec 32
  reads : ℕ → Bool

/-- What `exec` finds: whether there is a file with an ELF header, the program headers as far as they can be read, and the
lengths of the arguments. -/
structure Image where
  elf : Bool
  ph : List (Option Ph)
  args : List ℕ
  word : BitVec 32

/-- The loop of `loaduvm`, for the next `n` pages. -/
def loadLoop (d : Space) (reads : ℕ → Bool) : ℕ → ℕ → VM Bool
  | 0, _ => pure true
  | n + 1, v =>
    match d.table (v / 1024), d.pte v with
    | none, _ => Exec.panic .addressShouldExist
    -- `PTE_ADDR(*pte)` is 0
    | some _, none => Exec.panic .wild
    | some _, some _ => if reads v then loadLoop d reads n (v + 1) else pure false

/-- `loaduvm`, for an address that is page-aligned. -/
def loaduvm (d : Space) (addr sz : ℕ) (reads : ℕ → Bool) : VM Bool :=
  loadLoop d reads ((sz + pgsize - 1) / pgsize) (addr / pgsize)

/-- The loop through the program headers: the directory, and the size if all went well. -/
def loadSegments (K : Kernel) : List (Option Ph) → Space → ℕ → VM (Space × Option ℕ)
  | [], d, sz => pure (d, some sz)
  | none :: _, d, _ => pure (d, none)
  | some ph :: l, d, sz =>
    if ph.load = false then loadSegments K l d sz
    else if ph.memsz < ph.filesz then pure (d, none)
    else if ph.vaddr + ph.memsz < ph.vaddr then pure (d, none)
    else do
      let r ← allocuvm K d sz (ph.vaddr + ph.memsz).toNat
      if r.2 = 0 then pure (r.1, none)
      else if ph.vaddr.toNat % pgsize ≠ 0 then pure (r.1, none)
      else do
        let ok ← loaduvm r.1 ph.vaddr.toNat ph.filesz.toNat ph.reads
        if ok = false then pure (r.1, none) else loadSegments K l r.1 r.2

/-- The loop through the arguments, `argc` being the number of those done: the stack pointer if all went well. -/
def pushArgs (d : Space) (word : BitVec 32) : List ℕ → ℕ → ℕ → VM (Option ℕ)
  | [], _, sp => pure (some sp)
  | len :: l, argc, sp =>
    if argc ≥ maxarg then pure none
    else do
      -- `sp = (sp - (strlen(argv[argc]) + 1)) & ~3`
      let sp := (sp + 2 ^ 32 - (len + 1)) % 2 ^ 32 / 4 * 4
      let ok ← copyout d word sp (len + 1)
      if ok = false then pure none else pushArgs d word l (argc + 1) sp

/-- The stack of the new program: whether all went well. -/
def setupStack (d : Space) (img : Image) (sz : ℕ) : VM Bool := do
  match ← pushArgs d img.word img.args 0 sz with
  | none => pure false
  | some sp => copyout d img.word ((sp + 2 ^ 32 - (3 + img.args.length + 1) * 4) % 2 ^ 32) ((3 + img.args.length + 1) * 4)

/-- `exec`, up to the change of the process: the new directory and the new size, or nothing if it fails. -/
def execNew (K : Kernel) (img : Image) : VM (Option (Space × ℕ)) :=
  if img.elf = false then pure none
  else do
    match ← setupkvm K with
    | none => pure none
    | some d => do
      let r ← loadSegments K img.ph d 0
      match r.2 with
      | none => do
        freevm K r.1
        pure none
      | some sz => do
        let r ← allocuvm K r.1 (pgroundup sz) (pgroundup sz + 2 * pgsize)
        if r.2 = 0 then do
          freevm K r.1
          pure none
        else do
          let d ← clearpteu r.1 (r.2 / pgsize - 2)
          let ok ← setupStack d img r.2
          if ok = false then do
            freevm K d
            pure none
          else pure (some (d, r.2))

end OsLab.Xv6.Vm
