import OsLab.Lib.DList

/-!
# The buffer cache: `bio.c`

The cache is an array of `NBUF` buffers on a doubly linked list that starts at `bcache.head`, most
recently used first.  A `struct buf *` into the list is `some i` for buffer `i` and `none` for the
head.  The functions here are the sections under `bcache.lock`; the sleep-locks of the buffers and
the disk belong to `OsLab.Xv6.Log`.
-/

namespace OsLab.Xv6

open DList

abbrev Word := BitVec 32

/-- The contents of a block, as words. -/
abbrev Data := ℕ → Word

/-- `MAXOPBLOCKS`. -/
def maxopblocks : ℕ := 10
/-- `LOGSIZE`. -/
def logsize : ℕ := maxopblocks * 3
/-- `NBUF`. -/
def nbuf : ℕ := maxopblocks * 3
/-- `FSSIZE`. -/
def fssize : ℕ := 1000
/-- `ROOTDEV`. -/
def rootdev : ℕ := 1

/-- What a `struct buf` holds: the flags `B_VALID` and `B_DIRTY`, which block it is, and the data. -/
structure Buf where
  valid : Bool
  dirty : Bool
  dev : ℕ
  blockno : ℕ
  data : Data

/-- `bcache`: what the buffers hold, and for each the number of references to it and its links. -/
structure Bcache where
  buf : ℕ → Buf
  refcnt : ℕ → ℕ
  next : Option ℕ → Option ℕ
  prev : Option ℕ → Option ℕ

namespace Bcache

/-- Change buffer `i`. -/
def modifyBuf (c : Bcache) (i : ℕ) (f : Buf → Buf) : Bcache :=
  { c with buf := Function.update c.buf i (f (c.buf i)) }

/-- `b->next = bcache.head.next; b->prev = &bcache.head; bcache.head.next->prev = b;
bcache.head.next = b`. -/
def pushFront (c : Bcache) (i : ℕ) : Bcache :=
  { c with
    next := Function.update (Function.update c.next (some i) (c.next none)) none (some i)
    prev := Function.update (Function.update c.prev (some i) none) (c.next none) (some i) }

/-- `b->next->prev = b->prev; b->prev->next = b->next`. -/
def unlink (c : Bcache) (i : ℕ) : Bcache :=
  let prev := Function.update c.prev (c.next (some i)) (c.prev (some i))
  { c with
    next := Function.update c.next (prev (some i)) (c.next (some i))
    prev := prev }

/-- The loop of `binit` over the first `n` buffers. -/
def binitLoop (c : Bcache) : ℕ → Bcache
  | 0 => c
  | n + 1 => (c.binitLoop n).pushFront n

/-- `binit()`.  The memory of the buffers is zero. -/
def binit : Bcache :=
  binitLoop ⟨fun _ => ⟨false, false, 0, 0, fun _ => 0#32⟩, fun _ => 0, fun _ => none, fun _ => none⟩ nbuf

/-- `b->dev == dev && b->blockno == blockno`. -/
def holds (c : Bcache) (dev blockno : ℕ) : Option ℕ → Bool
  | none => false
  | some i => (c.buf i).dev = dev ∧ (c.buf i).blockno = blockno

/-- `b->refcnt == 0 && (b->flags & B_DIRTY) == 0`. -/
def unused (c : Bcache) : Option ℕ → Bool
  | none => false
  | some i => c.refcnt i = 0 ∧ (c.buf i).dirty = false

/-- The first loop of `bget`: the buffer that holds the block. -/
def cached (c : Bcache) (dev blockno : ℕ) : Option ℕ :=
  (scan c.next none (c.holds dev blockno) (nbuf + 1) (c.next none)).join

/-- The second loop of `bget`: the buffer to recycle. -/
def victim (c : Bcache) : Option ℕ :=
  (scan c.prev none c.unused (nbuf + 1) (c.prev none)).join

/-- `b->refcnt = n`. -/
def setRef (c : Bcache) (i n : ℕ) : Bcache := { c with refcnt := Function.update c.refcnt i n }

/-- `b->dev = dev; b->blockno = blockno; b->flags = 0; b->refcnt = 1`. -/
def recycle (c : Bcache) (i dev blockno : ℕ) : Bcache :=
  (c.modifyBuf i fun b => { b with dev := dev, blockno := blockno, valid := false, dirty := false }).setRef i 1

/-- `bget(dev, blockno)`, up to the wait for the buffer's lock: the buffer and the cache, or the
panic `bget: no buffers`. -/
def bget (c : Bcache) (dev blockno : ℕ) : Option (ℕ × Bcache) :=
  match c.cached dev blockno with
  | some i => some (i, c.setRef i (c.refcnt i + 1))
  | none =>
    match c.victim with
    | some i => some (i, c.recycle i dev blockno)
    | none => none

/-- `brelse(b)`, after the lock is released. -/
def unref (c : Bcache) (i : ℕ) : Bcache :=
  let c := c.setRef i (c.refcnt i - 1)
  if c.refcnt i = 0 then (c.unlink i).pushFront i else c

end Bcache

end OsLab.Xv6
