import OsLab.Jos.Pmap

/-!
# The address translation of the processor

The page tables that `pmap.c` edits are read by the hardware on every access.
`walk k pgdir va need` is that translation: the page a virtual address reaches
when the directory `pgdir` is loaded, provided the bits `need` are set at both
levels.  An access from user mode needs `PTE_U`, a store needs `PTE_W` (the
kernel runs with `CR0_WP` set, so its own stores do too).

Memory is kept as words; a byte access reads or replaces one byte of a word.
-/

namespace OsLab.Jos

open Exec

/-- The page that `va` reaches through the directory `pgdir`, if both entries are
present and have the bits `need`. -/
def walk (k : Pmap) (pgdir : ℕ) (va need : Word) : Option ℕ :=
  let pde := k.mem pgdir (pdx va)
  if Present pde ∧ pde &&& need = need then
    let pte := k.mem (pgnum pde) (ptx va)
    if Present pte ∧ pte &&& need = need then some (pgnum pte) else none
  else none

/-- Byte `i` of a word, the lowest first. -/
def byteOf (w : Word) (i : ℕ) : BitVec 8 := (w >>> (8 * i)).setWidth 8

/-- The word with byte `i` replaced. -/
def putByte (w : Word) (i : ℕ) (b : BitVec 8) : Word :=
  (w &&& ~~~(0xFF#32 <<< (8 * i))) ||| (b.setWidth 32 <<< (8 * i))

namespace Pmap

/-- The byte at offset `off` of a page. -/
def loadByte (k : Pmap) (p off : ℕ) : BitVec 8 := byteOf (k.mem p (off / 4)) (off % 4)

/-- Replace the byte at offset `off` of a page. -/
def storeByte (k : Pmap) (p off : ℕ) (b : BitVec 8) : Pmap :=
  k.setWord p (off / 4) (putByte (k.mem p (off / 4)) (off % 4) b)

end Pmap

/-- The kernel reads a byte through the directory `pgdir`. -/
def kernLoad (pgdir : ℕ) (va : Word) : PmapM (BitVec 8) := do
  match ← read fun k => walk k pgdir va 0#32 with
  | none => panic .kernelPageFault
  | some p => read fun k => k.loadByte p (pgoff va)

/-- The kernel stores a byte through the directory `pgdir`. -/
def kernStore (pgdir : ℕ) (va : Word) (b : BitVec 8) : PmapM Unit := do
  match ← read fun k => walk k pgdir va pteW with
  | none => panic .kernelPageFault
  | some p => modify fun k => k.storeByte p (pgoff va) b

/-- The kernel stores a word, which need not be aligned. -/
def kernStoreWord (pgdir : ℕ) (va w : Word) : PmapM Unit := do
  kernStore pgdir va (byteOf w 0)
  kernStore pgdir (va + 1#32) (byteOf w 1)
  kernStore pgdir (va + 2#32) (byteOf w 2)
  kernStore pgdir (va + 3#32) (byteOf w 3)

/-- The kernel stores consecutive words. -/
def kernStoreWords (pgdir : ℕ) : Word → List Word → PmapM Unit
  | _, [] => pure ()
  | va, w :: ws => do
    kernStoreWord pgdir va w
    kernStoreWords pgdir (va + 4#32) ws

/-- The loop of `vprintfmt` that prints a string with a precision: it reads a
character before it looks at the precision, which is not bounding anything when
it is negative.  Every address is tried at most once before the loop is back
where it started, so `2 ^ 32` rounds are enough. -/
def printStr (pgdir : ℕ) : ℕ → Word → ℤ → PmapM Unit
  | 0, _, _ => pure ()
  | n + 1, p, precision => do
    let ch ← kernLoad pgdir p
    if ch = 0#8 then pure ()
    else if precision < 0 then printStr pgdir n (p + 1#32) precision
    else if 0 ≤ precision - 1 then printStr pgdir n (p + 1#32) (precision - 1)
    else pure ()

end OsLab.Jos
