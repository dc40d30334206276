import OsLab.Jos.Frame
import OsLab.Jos.Vm

/-!
# Booting: `mem_init`

How the kernel sets up its own half of the address space and the free list.

`boot_alloc` hands out the pages behind the kernel image one array after the
other, so the places of the kernel's directory, of `pages` and of `envs` follow
from where the image ends and from how much memory there is; `BootConfig` is
that data together with the addresses the linker and the hardware supply.

The self tests that `mem_init` runs on the way (`check_page_free_list`,
`check_page_alloc`, `check_page` and `check_page_installed_pgdir`) allocate and
free pages, so they may change the order of the free list and the contents of
free pages; `SelfTest` is that much freedom and no more.  What `check_page`
leaves behind for good — the page table of the memory-mapped I/O window — is
made by its two calls of `mmio_map_region`, which are kept.
-/

namespace OsLab.Jos

open Exec

/-- Where things are when the kernel starts. -/
structure BootConfig where
  /-- Amount of physical memory, in pages. -/
  npages : ℕ
  /-- The first page behind the kernel image, `PADDR(ROUNDUP(end, PGSIZE)) / PGSIZE`. -/
  endPage : ℕ
  /-- The first page of `bootstack`. -/
  bootstack : ℕ
  /-- The first page of `percpu_kstacks[i]`. -/
  percpuKstacks : ℕ → ℕ
  /-- The physical address of the local APIC. -/
  lapicaddr : Word
  /-- The number of processors that find a local APIC and map it. -/
  lapics : ℕ
  /-- The image is loaded at `EXTPHYSMEM`. -/
  image : extphysmem / pgsize ≤ endPage
  /-- The arrays that follow the image fit into memory. -/
  fits : endPage + 1 + (npages * 8 + 4095) / 4096 + 31 ≤ npages
  /-- All of memory is mapped at `KERNBASE`, as `check_kern_pgdir` insists. -/
  npages_le : npages ≤ 65536

namespace BootConfig

variable (cfg : BootConfig)

/-- The page of `kern_pgdir`, the first thing `boot_alloc` hands out. -/
def kernPgdir : ℕ := cfg.endPage

/-- The first page of `pages`, whose elements take eight bytes each. -/
def pagesPage : ℕ := cfg.endPage + 1

/-- The first page of `envs`, whose 1024 elements take 124 bytes each. -/
def envsPage : ℕ := cfg.pagesPage + (cfg.npages * 8 + 4095) / 4096

/-- `PADDR(boot_alloc(0)) / PGSIZE`. -/
def kernelEnd : ℕ := cfg.envsPage + 31

/-- The pages that `page_init` keeps off the free list: the first one, the hole
for I/O and everything up to the end of the kernel's data, and the page the
other processors start in. -/
def Reserved (i : ℕ) : Prop :=
  i = 0 ∨ (iophysmem / pgsize ≤ i ∧ i < cfg.kernelEnd) ∨ i = mpentryPaddr / pgsize

instance (i : ℕ) : Decidable (cfg.Reserved i) := inferInstanceAs (Decidable (_ ∨ _))

end BootConfig

/-- The loop of `page_init` over `n` pages from `i`. -/
def pageInitLoop (cfg : BootConfig) : ℕ → ℕ → PmapM Unit
  | 0, _ => pure ()
  | n + 1, i => do
    modify fun k =>
      if cfg.Reserved i then { k with pages := Function.update k.pages i ⟨none, 1#16⟩ }
      else { k with
        pages := Function.update k.pages i ⟨k.pageFreeList, 0#16⟩
        pageFreeList := some i }
    pageInitLoop cfg n (i + 1)

/-- `mem_init` up to and including `page_init`. -/
def initPages (cfg : BootConfig) : PmapM Unit := do
  modify fun k => { k with npages := cfg.npages, kernPgdir := cfg.kernPgdir }
  modify fun k => k.zeroPage cfg.kernPgdir
  modify fun k => k.setWord cfg.kernPgdir (pdx uvpt) (page2pa cfg.kernPgdir ||| pteU ||| pteP)
  pageInitLoop cfg cfg.npages 0

/-- `*pgdir_walk(kern_pgdir, va, 0) = 0`. -/
def clearKernPte (kd : ℕ) (va : Word) : PmapM Unit := do
  match ← pgdirWalk kd va false with
  | none => panic .nullDeref
  | some pte => modify fun k => k.setWord pte.1 pte.2 0#32

/-- The test of `mmio_map_region` at the end of `check_page`. -/
def mmioSelfTest (kd : ℕ) : PmapM Unit := do
  let mm1 ← mmioMapRegion 0#32 4097#32
  let mm2 ← mmioMapRegion 0#32 4096#32
  clearKernPte kd mm1
  clearKernPte kd (mm1 + BitVec.ofNat 32 pgsize)
  clearKernPte kd mm2

/-- `NCPU`. -/
def ncpuMax : ℕ := 8

/-- The loop of `mem_init_mp` over `n` processors from `i`. -/
def mapKstacks (cfg : BootConfig) : ℕ → ℕ → PmapM Unit
  | 0, _ => pure ()
  | n + 1, i => do
    bootMapRegion cfg.kernPgdir
      (kstacktop - BitVec.ofNat 32 kstksize - BitVec.ofNat 32 (i * (kstksize + kstkgap)))
      kstksize (page2pa (cfg.percpuKstacks i)) pteW
    mapKstacks cfg n (i + 1)

/-- The mappings `mem_init` makes above `UTOP`. -/
def mapKernel (cfg : BootConfig) : PmapM Unit := do
  bootMapRegion cfg.kernPgdir upages ptsize (page2pa cfg.pagesPage) pteU
  bootMapRegion cfg.kernPgdir uenvs ptsize (page2pa cfg.envsPage) pteU
  bootMapRegion cfg.kernPgdir (kstacktop - BitVec.ofNat 32 kstksize) kstksize
    (page2pa cfg.bootstack) pteW
  bootMapRegion cfg.kernPgdir kernbase (0xFFFFFFFF#32 - kernbase).toNat 0#32 pteW
  mapKstacks cfg ncpuMax 0

/-- `lapic_init` on `n` processors. -/
def mapLapic (cfg : BootConfig) : ℕ → PmapM Unit
  | 0 => pure ()
  | n + 1 => do
    let _ ← mmioMapRegion cfg.lapicaddr 4096#32
    mapLapic cfg n

/-- What the self tests may do: reorder the free list and write to free pages. -/
def SelfTest (k k' : Pmap) : Prop :=
  ∃ l l', IsChain k.link k.pageFreeList l ∧ IsChain k'.link k'.pageFreeList l' ∧ l.Perm l' ∧
    k.SameLayout k' ∧ (∀ p, p ∉ l → k'.pages p = k.pages p) ∧
    (∀ p ∈ l, (k'.pages p).ppRef = 0#16) ∧ ∀ q, q ∉ l → k'.mem q = k.mem q

/-- `k₀` is a state of memory in which the kernel can have come up: the free list
and the next address for I/O start out as the C runtime initialises them, and
everything else with whatever was there. -/
def Boots (cfg : BootConfig) (k₀ : Pmap) : Prop :=
  ∃ k k₁ k₂ k₃ k₄, k.pageFreeList = none ∧ k.mmioNext = mmiobase ∧
    initPages cfg k = .ok () k₁ ∧ SelfTest k₁ k₂ ∧
    (mmioSelfTest cfg.kernPgdir >>= fun _ => mapKernel cfg) k₂ = .ok () k₃ ∧ SelfTest k₃ k₄ ∧
    mapLapic cfg cfg.lapics k₄ = .ok () k₀

end OsLab.Jos
