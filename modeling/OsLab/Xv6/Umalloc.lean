import OsLab.Lib.Run
import OsLab.Lib.Ring
import OsLab.Lib.Tiling

/-!
# The heap of a program: `umalloc.c`

`malloc` and `free` keep the free blocks in a ring of headers that starts at `base`, in the order of their addresses.  A
header is at the beginning of its block, and its size counts headers.

Addresses and sizes are numbers: what `sbrk` returns lies in the address space, so sums of an address and a block's size do
not wrap around.  What is asked for may, and there the words are written out.

The loops take a bound on the number of their rounds, and are `none` if it is not enough.

* `Heap.free`, `Heap.malloc`: the functions.
* `Step`: a program calls them, frees what it has been given, and writes to it.
* `freeInsert_eq`: what `free` does, as linking the block into the ring and then joining neighbours that touch.
-/

namespace OsLab.Xv6.Umalloc

open Rings Function

/-- `sizeof(Header)`. -/
abbrev headerSize : ℕ := 8

/-- The memory of a program: the headers at all addresses, `freep` (0 for the null pointer), and the end of the memory that
`sbrk` has returned. -/
structure Heap where
  ptr : ℕ → ℕ
  size : ℕ → ℕ
  freep : ℕ
  brk : ℕ

namespace Heap

variable (h : Heap)

/-- `p + p->s.size`. -/
def stop (p : ℕ) : ℕ := p + headerSize * h.size p

def setPtr (p v : ℕ) : Heap := { h with ptr := Function.update h.ptr p v }

def setSize (p v : ℕ) : Heap := { h with size := Function.update h.size p v }

/-! ## `free` -/

/-- The loop of `free`. -/
def freeSearch (bp : ℕ) : ℕ → ℕ → Option ℕ
  | 0, _ => none
  | fuel + 1, p =>
    if p < bp ∧ bp < h.ptr p then some p
    else if h.ptr p ≤ p ∧ (p < bp ∨ bp < h.ptr p) then some p
    else freeSearch bp fuel (h.ptr p)

/-- `free` after its loop. -/
def freeInsert (bp p : ℕ) : Heap :=
  let h := if h.stop bp = h.ptr p
    then (h.setSize bp (h.size bp + h.size (h.ptr p))).setPtr bp (h.ptr (h.ptr p))
    else h.setPtr bp (h.ptr p)
  let h := if h.stop p = bp
    then (h.setSize p (h.size p + h.size bp)).setPtr p (h.ptr bp)
    else h.setPtr p bp
  { h with freep := p }

/-- `free(ap)`. -/
def free (fuel ap : ℕ) : Option Heap :=
  let bp := ap - headerSize
  (h.freeSearch bp fuel h.freep).map (h.freeInsert bp)

/-! ## `malloc` -/

/-- `sbrk(n)` succeeds, or not. -/
def sbrk (ok : Bool) (n : ℕ) : Option (ℕ × Heap) :=
  if ok = true then some (h.brk, { h with brk := h.brk + n }) else none

/-- `morecore(nu)`. -/
def morecore (fuel : ℕ) (ok : Bool) (nu : ℕ) : Option (ℕ × Heap) :=
  let nu := if nu < 4096 then 4096 else nu
  match h.sbrk ok (nu * headerSize % 2 ^ 32) with
  | none => some (0, h)
  | some (p, h) => ((h.setSize p nu).free fuel (p + headerSize)).map fun h => (h.freep, h)

/-- The block `p` is large enough, and comes after `prevp`. -/
def allocate (nunits prevp p : ℕ) : ℕ × Heap :=
  if h.size p = nunits then (p + headerSize, { h.setPtr prevp (h.ptr p) with freep := prevp })
  else
    let h := h.setSize p (h.size p - nunits)
    let p := h.stop p
    (p + headerSize, { h.setSize p nunits with freep := prevp })

/-- The loop of `malloc`; `oks` says which calls of `sbrk` succeed. -/
def scan (nunits : ℕ) : ℕ → List Bool → ℕ → ℕ → Heap → Option (ℕ × Heap)
  | 0, _, _, _, _ => none
  | fuel + 1, oks, prevp, p, h =>
    if nunits ≤ h.size p then some (h.allocate nunits prevp p)
    else if p = h.freep then
      match h.morecore fuel (oks.headD false) nunits with
      | none => none
      | some (p, h) => if p = 0 then some (0, h) else scan nunits fuel oks.tail p (h.ptr p) h
    else scan nunits fuel oks p (h.ptr p) h

/-- `nunits`. -/
def units (nbytes : ℕ) : ℕ := (nbytes + headerSize - 1) % 2 ^ 32 / headerSize + 1

/-- The ring is empty at the first call. -/
def prepare (base : ℕ) : Heap :=
  if h.freep = 0 then { (h.setPtr base base).setSize base 0 with freep := base } else h

/-- `malloc(nbytes)`: what it returns, and the heap. -/
def malloc (base fuel : ℕ) (oks : List Bool) (nbytes : ℕ) : Option (ℕ × Heap) :=
  let h := h.prepare base
  scan (units nbytes) fuel oks h.freep (h.ptr h.freep) h

end Heap

/-! ## Programs -/

/-- The heap, and for each block that is live, by the address of its header, how much was asked for. -/
structure State where
  heap : Heap
  live : ℕ → Option ℕ

inductive Event where
  | malloc (nbytes : ℕ)
  | free (bp : ℕ)
  | write

/-- The memory differs only in what the live blocks have behind their headers. -/
def State.Writes (s : State) (h : Heap) : Prop :=
  h.freep = s.heap.freep ∧ h.brk = s.heap.brk ∧
  ∀ x, (∀ a n, s.live a = some n → x ≤ a ∨ s.heap.stop a ≤ x) → h.ptr x = s.heap.ptr x ∧ h.size x = s.heap.size x

inductive Step (base : ℕ) (s : State) : Event → State → Prop
  | malloc {nbytes fuel ap : ℕ} {oks : List Bool} {h : Heap} (hn : nbytes < 2 ^ 30)
      (hrun : s.heap.malloc base fuel oks nbytes = some (ap, h)) :
      Step base s (.malloc nbytes)
        ⟨h, if ap = 0 then s.live else Function.update s.live (ap - headerSize) (some nbytes)⟩
  | free {bp fuel n : ℕ} {h : Heap} (hlive : s.live bp = some n) (hrun : s.heap.free fuel (bp + headerSize) = some h) :
      Step base s (.free bp) ⟨h, Function.update s.live bp none⟩
  | write {h : Heap} (hw : s.Writes h) : Step base s .write ⟨h, s.live⟩

/-- Before the first call; `sbrk` will return memory from `lo` on. -/
structure Start (lo : ℕ) (s : State) : Prop where
  freep : s.heap.freep = 0
  brk : s.heap.brk = lo
  live : ∀ a, s.live a = none

def system (base lo : ℕ) : System State Event where
  init := Start lo
  step := Step base

/-! ## What `free` does to the ring -/

namespace Heap

variable {h : Heap} {a b p bp : ℕ}

/-- `bp` comes after `p`. -/
def link (h : Heap) (p bp : ℕ) : Heap := (h.setPtr bp (h.ptr p)).setPtr p bp

/-- `a` takes in the block after it. -/
def absorb (h : Heap) (a : ℕ) : Heap := (h.setSize a (h.size a + h.size (h.ptr a))).setPtr a (h.ptr (h.ptr a))

/-- `a` is joined with the block after it if they touch. -/
def joined (h : Heap) (a : ℕ) : Heap := if h.stop a = h.ptr a then h.absorb a else h

/-- **`free` links the block** into the ring, and then joins it with the block after it, and the one before it with it, if
they touch. -/
theorem freeInsert_eq (hne : p ≠ bp) (hself : h.ptr p ≠ bp) (hp : h.stop bp ≠ h.ptr p ∨ h.ptr p ≠ p) :
    h.freeInsert bp p = { ((h.link p bp).joined bp).joined p with freep := p } := by
  -- the links of `p` and `bp` are written in another order
  have hcomm : ∀ f : ℕ → ℕ, ∀ u v w, update (update (update f bp u) p v) bp w =
      update (update f bp w) p v := by
    intro f u v w
    rw [update_comm hne.symm, update_idem, update_comm hne]
  by_cases hright : h.stop bp = h.ptr p
  · have hq : h.ptr p ≠ p := hp.resolve_left (not_not.2 hright)
    rw [stop] at hright
    simp [freeInsert, joined, link, absorb, setPtr, setSize, stop, hright, hne, hne.symm, hq, hself, hcomm]
  · rw [stop] at hright
    simp [freeInsert, joined, link, absorb, setPtr, setSize, stop, hright, hne.symm]

end Heap

end OsLab.Xv6.Umalloc
