import OsLab.Lib.Exec
import OsLab.Jos.Mmu

/-!
# Physical pages and page tables: `kern/pmap.c`

The physical page allocator and the functions that edit two-level page tables.
The state is the `pages` array, the head of the free list, and the contents of
physical memory as words: page directories and page tables are ordinary pages,
so the code below reads and writes them through `mem`.

A `struct PageInfo *` is the index of the page in `pages`; a `pde_t *` that
points to the start of a directory is the number of the page that holds it; a
`pte_t *` is a page number together with an index into that page.  The kernel
reaches physical memory through the window at `KERNBASE`, so `KADDR` is the
identity on page numbers and keeps only its bounds check.
-/

namespace OsLab.Jos

/-- `struct PageInfo`. -/
structure PageInfo where
  /-- Next page on the free list. -/
  ppLink : Option ℕ
  /-- Reference count, sixteen bits wide. -/
  ppRef : BitVec 16

/-- The ways the modelled kernel code stops the machine. -/
inductive Panic where
  /-- `page_free: pp->pp_ref is nonzero or pp->pp_link is not NULL` -/
  | pageFree
  /-- `pa2page called with invalid pa` -/
  | pa2page
  /-- `KADDR called with invalid pa` -/
  | kaddr
  /-- `PADDR called with invalid kva` -/
  | paddr
  /-- `boot_map_region(): out of memory` -/
  | bootMapRegion
  /-- `not enough memory`, from `mmio_map_region` -/
  | mmioMapRegion
  /-- `region_alloc failed` -/
  | regionAlloc
  /-- `binary is not ELF format` -/
  | loadIcode
  /-- `create env failed` -/
  | envCreate
  /-- `assert(curenv)` -/
  | assertCurenv
  /-- The kernel monitor, which none of its commands leaves. -/
  | monitor
  /-- `page_fault_handler():page fault in kernel mode!` -/
  | kernelPageFault
  /-- `unhandled trap in kernel` -/
  | unhandledTrap
  /-- A null pointer is followed. -/
  | nullDeref
  deriving DecidableEq

/-- The data of `pmap.c`: the `pages` array and its free list, the kernel's page
directory, the next free address of the memory-mapped I/O window, and the
contents of physical memory, `mem p i` being word `i` of page `p`. -/
structure Pmap where
  npages : ℕ
  pages : ℕ → PageInfo
  pageFreeList : Option ℕ
  kernPgdir : ℕ
  mmioNext : Word
  mem : ℕ → ℕ → Word

/-- Code of `pmap.c`. -/
abbrev PmapM := Exec Panic Pmap

/-- A `pte_t *`: a page and an index into it. -/
abbrev PtePtr := ℕ × ℕ

namespace Pmap

/-- `pages[p].pp_ref = r`. -/
def setRef (k : Pmap) (p : ℕ) (r : BitVec 16) : Pmap :=
  { k with pages := Function.update k.pages p { k.pages p with ppRef := r } }

/-- `pages[p].pp_link = l`. -/
def setLink (k : Pmap) (p : ℕ) (l : Option ℕ) : Pmap :=
  { k with pages := Function.update k.pages p { k.pages p with ppLink := l } }

/-- Store a word in physical memory. -/
def setWord (k : Pmap) (p i : ℕ) (w : Word) : Pmap :=
  { k with mem := Function.update k.mem p (Function.update (k.mem p) i w) }

/-- `memset(page2kva(p), 0, PGSIZE)`. -/
def zeroPage (k : Pmap) (p : ℕ) : Pmap :=
  { k with mem := Function.update k.mem p fun _ => 0#32 }

end Pmap

open Exec

/-! ## The allocator -/

/-- `KADDR(pa)`, as a page number. -/
def kaddr (pa : Word) : PmapM ℕ := do
  let n ← read Pmap.npages
  if n ≤ pgnum pa then panic .kaddr else pure (pgnum pa)

/-- `pa2page(pa)`. -/
def pa2page (pa : Word) : PmapM ℕ := do
  let n ← read Pmap.npages
  if n ≤ pgnum pa then panic .pa2page else pure (pgnum pa)

/-- `page_alloc(alloc_flags)`, `zero` being `alloc_flags & ALLOC_ZERO`. -/
def pageAlloc (zero : Bool) : PmapM (Option ℕ) := do
  match ← read Pmap.pageFreeList with
  | none => pure none
  | some ret =>
    modify fun k => { k with pageFreeList := (k.pages ret).ppLink }
    modify fun k => k.setLink ret none
    if zero then
      let p ← kaddr (page2pa ret)
      modify fun k => k.zeroPage p
      pure (some ret)
    else pure (some ret)

/-- `page_free(pp)`. -/
def pageFree (pp : ℕ) : PmapM Unit := do
  let info ← read fun k => k.pages pp
  if info.ppRef ≠ 0#16 ∨ info.ppLink ≠ none then panic .pageFree
  else modify fun k => { k.setLink pp k.pageFreeList with pageFreeList := some pp }

/-- `page_decref(pp)`. -/
def pageDecref (pp : ℕ) : PmapM Unit := do
  modify fun k => k.setRef pp ((k.pages pp).ppRef - 1#16)
  let r ← read fun k => (k.pages pp).ppRef
  if r = 0#16 then pageFree pp else pure ()

/-- `pp->pp_ref++`. -/
def pageIncref (pp : ℕ) : PmapM Unit :=
  modify fun k => k.setRef pp ((k.pages pp).ppRef + 1#16)

/-! ## Page tables -/

/-- The last line of `pgdir_walk`: the slot for `va` in the table the directory
entry points to. -/
def pteSlot (pgdir : ℕ) (va : Word) : PmapM (Option PtePtr) := do
  let pde ← read fun k => k.mem pgdir (pdx va)
  let pt ← kaddr (pteAddr pde)
  pure (some (pt, ptx va))

/-- `pgdir_walk(pgdir, va, create)`. -/
def pgdirWalk (pgdir : ℕ) (va : Word) (create : Bool) : PmapM (Option PtePtr) := do
  let pde ← read fun k => k.mem pgdir (pdx va)
  if Present pde then pteSlot pgdir va
  else if create then
    match ← pageAlloc true with
    | none => pure none
    | some pp =>
      pageIncref pp
      modify fun k => k.setWord pgdir (pdx va) (page2pa pp ||| pteP ||| pteU ||| pteW)
      pteSlot pgdir va
  else pure none

/-- The loop of `boot_map_region`. -/
def bootMapLoop (pgdir : ℕ) (perm : Word) : ℕ → Word → Word → PmapM Unit
  | 0, _, _ => pure ()
  | n + 1, va, pa => do
    match ← pgdirWalk pgdir va true with
    | none => panic .bootMapRegion
    | some pte =>
      modify fun k => k.setWord pte.1 pte.2 (pa ||| pteP ||| perm)
      bootMapLoop pgdir perm n (va + BitVec.ofNat 32 pgsize) (pa + BitVec.ofNat 32 pgsize)

/-- `boot_map_region(pgdir, va, size, pa, perm)`. -/
@[irreducible] def bootMapRegion (pgdir : ℕ) (va : Word) (size : ℕ) (pa perm : Word) : PmapM Unit :=
  bootMapLoop pgdir perm (if size % pgsize ≠ 0 then size / pgsize + 1 else size / pgsize) va pa

/-- `page_lookup(pgdir, va, pte_store)`.  The test in the source is
`!(*pte) & PTE_P`, which is `PTE_P` exactly when the whole entry is zero. -/
def pageLookup (pgdir : ℕ) (va : Word) : PmapM (Option (ℕ × PtePtr)) := do
  match ← pgdirWalk pgdir va false with
  | none => pure none
  | some pte =>
    let w ← read fun k => k.mem pte.1 pte.2
    if w = 0#32 then pure none
    else
      let pp ← pa2page (pteAddr w)
      pure (some (pp, pte))

/-- `page_remove(pgdir, va)`. -/
def pageRemove (pgdir : ℕ) (va : Word) : PmapM Unit := do
  match ← pageLookup pgdir va with
  | none => pure ()
  | some (pp, pte) =>
    pageDecref pp
    modify fun k => k.setWord pte.1 pte.2 0#32

/-- `E_BAD_ENV` and the other error codes of `inc/error.h` that the kernel
returns, negated at the point of return as in the source. -/
def eBadEnv : ℤ := 2
def eInval : ℤ := 3
def eNoMem : ℤ := 4
def eNoFreeEnv : ℤ := 5
def eFault : ℤ := 6
def eIpcNotRecv : ℤ := 7

/-- `page_insert(pgdir, pp, va, perm)`. -/
def pageInsert (pgdir pp : ℕ) (va perm : Word) : PmapM ℤ := do
  match ← pgdirWalk pgdir va true with
  | none => pure (-eNoMem)
  | some pte =>
    pageIncref pp
    let w ← read fun k => k.mem pte.1 pte.2
    when (Present w) (pageRemove pgdir va)
    modify fun k => k.setWord pte.1 pte.2 (mkPte pp perm)
    modify fun k => k.setWord pgdir (pdx va) (k.mem pgdir (pdx va) ||| perm)
    pure 0

/-- `mmio_map_region(pa, size)`. -/
@[irreducible] def mmioMapRegion (pa size : Word) : PmapM Word := do
  let base ← read Pmap.mmioNext
  let kernPgdir ← read Pmap.kernPgdir
  let size := roundUp (pa + size) - roundDown pa
  if mmiolim ≤ base + size then panic .mmioMapRegion
  else
    bootMapRegion kernPgdir base size.toNat (roundDown pa) (ptePcd ||| ptePwt ||| pteW)
    modify fun k => { k with mmioNext := base + size }
    pure base

/-- The loop of `user_mem_check` over `n` pages from `i`; the result is the
address of the first page that fails, if any. -/
def userMemLoop (pgdir : ℕ) (va perm : Word) : ℕ → Word → PmapM (Option Word)
  | 0, _ => pure none
  | n + 1, i => do
    let pte ← pgdirWalk pgdir i false
    let bad ← read fun k => match pte with
      | none => true
      | some (p, t) => decide (ulim ≤ i ∨ ¬ Present (k.mem p t) ∨ k.mem p t &&& perm ≠ perm)
    if bad then pure (some (if i < va then va else i))
    else userMemLoop pgdir va perm n (i + BitVec.ofNat 32 pgsize)

/-- `user_mem_check(env, va, len, perm)`: `none` is a return of 0, `some addr` a
return of `-E_FAULT` with `user_mem_check_addr` set to `addr`. -/
def userMemCheck (pgdir : ℕ) (va len perm : Word) : PmapM (Option Word) :=
  userMemLoop pgdir va perm
    (((roundUp (va + len)).toNat - (roundDown va).toNat) / pgsize) (roundDown va)

end OsLab.Jos
