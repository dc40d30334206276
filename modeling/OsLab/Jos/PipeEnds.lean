import OsLab.Lib.Count
import OsLab.Lib.Run
import OsLab.Jos.Mmu

/-!
# The ends of pipes: `lib/pipe.c`, `lib/fd.c`, `lib/fork.c`

A pipe is three pages: an Fd page for each end, and the page with the data, which is mapped once for
every mapping of an end.  `_pipeisclosed` compares how often its own end and the data are mapped.
Environments call `pipe`, `dup`, `close`, `fork` and `_pipeisclosed`, and every system call, every read
of a reference count and every read of `env_runs` is a step of its own.

The pages of a pipe are the only ones that matter here; a page is named by when it was allocated.
`fork` copies the pages of its caller in the order of their addresses, all Fd pages before all data pages.
-/

namespace OsLab.Jos.PipeEnds

/-! ## Addresses -/

/-- `MAXFD`. -/
def maxfd : ℕ := 32

/-- The number of the page at `FDTABLE`. -/
def fdtable : ℕ := 0xD0000

/-- The number of the page at `UTOP`. -/
def utopPages : ℕ := 0xEEC00

/-- The number of the page at `USTACKTOP`. -/
def ustackPages : ℕ := 0xEEBFE

/-- `INDEX2FD(i)`. -/
def fdPage (i : ℤ) : ℕ := ((fdtable + i) % 2 ^ 20).toNat

/-- `INDEX2DATA(i)`. -/
def dataPage (i : ℤ) : ℕ := ((fdtable + maxfd + i) % 2 ^ 20).toNat

/-- The pages that share a page table with page `pn`. -/
def sameTable (pn : ℕ) : List ℕ := (List.range 1024).map fun k => pn / 1024 * 1024 + k

/-! ## State -/

/-- What follows a `close`. -/
inductive After where
  | done
  | dup (old : ℕ) (new : ℤ)

/-- Where an environment is: `ENV_FREE`, being made by `fork`, in no call, or before the next system call
or read of one.  File descriptors that were looked up are given by their index. -/
inductive Pc (N : ℕ) where
  | free
  | born
  | idle
  -- `pipe`
  | pipeFd0
  | pipeFd1 (i : ℕ)
  | pipeData (i j : ℕ)
  | pipeMap (i j : ℕ)
  | pipeErr3 (i j : ℕ)
  | pipeErr2 (i j : ℕ)
  | pipeErr1 (i : ℕ)
  -- `fd_close` and `devpipe_close`
  | closeFd (i : ℕ) (next : After)
  | closeData (i : ℕ) (next : After)
  | closeRest (i : ℕ) (next : After)
  -- `dup`
  | dupData (old : ℕ) (new : ℤ)
  | dupFd (old : ℕ) (new : ℤ)
  | dupErr1 (new : ℤ)
  | dupErr2 (new : ℤ)
  -- `fork`
  | forking
  | copying (child : Fin N) (pn : ℕ)
  -- `_pipeisclosed`: `n` is what `env_runs` was, `a` and `b` are the two counts; `mixed` says whether
  -- another environment has mapped or unmapped a page after the first count was read
  | asking (i : ℕ)
  | counting (i : ℕ) (n : Word)
  | counted (i : ℕ) (n : Word) (a : ℕ) (mixed : Bool)
  | compared (i : ℕ) (n : Word) (a b : ℕ) (mixed : Bool)

/-- Another environment has mapped or unmapped a page. -/
def Pc.mix {N : ℕ} : Pc N → Pc N
  | .counted i n a _ => .counted i n a true
  | .compared i n a b _ => .compared i n a b true
  | pc => pc

/-- The pages of a pipe that has been made: the two Fd pages and the data. -/
structure Ends where
  rd : ℕ
  wr : ℕ
  buf : ℕ

/-- The page is an Fd page of the pipe. -/
def Ends.Has (P : Ends) (pg : ℕ) : Prop := pg = P.rd ∨ pg = P.wr

/-- Environments `0` to `N - 1`: where each is, how often it has been run, and its pages; for each page,
how often it is mapped (`pp_ref`); the next page to be allocated, and the pipes made so far. -/
structure World (N : ℕ) where
  pc : Fin N → Pc N
  runs : Fin N → Word
  map : Fin N × ℕ → Option ℕ
  ref : ℕ → ℕ
  next : ℕ
  pipes : List Ends

variable {N : ℕ}

namespace World

def setPc (w : World N) (e : Fin N) (pc : Pc N) : World N := { w with pc := Function.update w.pc e pc }

/-! ## System calls -/

/-- Environment `e` makes the kernel change what is mapped at `x`. -/
def set (w : World N) (e : Fin N) (x : Fin N × ℕ) (v : Option ℕ) : World N :=
  { w with
    map := Function.update w.map x v
    ref := fun pg => w.ref pg + (if v = some pg then 1 else 0) - (if w.map x = some pg then 1 else 0)
    pc := fun e' => if e' = e then w.pc e' else (w.pc e').mix }

/-- `sys_page_alloc`, when there is memory. -/
def alloc (w : World N) (e : Fin N) (pn : ℕ) : World N :=
  ({ w with next := w.next + 1 }).set e (e, pn) (some w.next)

/-- `sys_page_unmap`. -/
def unmap (w : World N) (e : Fin N) (pn : ℕ) : World N :=
  if pn < utopPages then w.set e (e, pn) none else w

/-- There is a page table for page `pn`, or memory for one. -/
def TableFor (w : World N) (e : Fin N) (pn : ℕ) (mem : Bool) : Prop :=
  mem = true ∨ ∃ pn' ∈ sameTable pn, (w.map (e, pn')).isSome

instance (w : World N) (e : Fin N) (pn : ℕ) (mem : Bool) : Decidable (w.TableFor e pn mem) :=
  inferInstanceAs (Decidable (_ ∨ _))

/-- `sys_page_map` of page `pn` of `e` to `x`. -/
def sysPageMap (w : World N) (e : Fin N) (pn : ℕ) (x : Fin N × ℕ) (mem : Bool) : Option (World N) :=
  if pn < utopPages ∧ x.2 < utopPages then
    match w.map (e, pn) with
    | none => none
    | some pg => if w.TableFor x.1 x.2 mem then some (w.set e x (some pg)) else none
  else none

/-- `pageref`. -/
def pageref (w : World N) (e : Fin N) (pn : ℕ) : ℕ :=
  match w.map (e, pn) with
  | none => 0
  | some pg => w.ref pg

/-! ## The library -/

/-- `fd_alloc`: the first index without an Fd page. -/
def fdAlloc (w : World N) (e : Fin N) : Option ℕ :=
  (List.range maxfd).find? fun i => (w.map (e, fdPage i)).isNone

/-- `fd_lookup`. -/
def fdLookup (w : World N) (e : Fin N) (fdnum : ℤ) : Option ℕ :=
  if 0 ≤ fdnum ∧ fdnum < maxfd ∧ (w.map (e, fdPage fdnum)).isSome then some fdnum.toNat else none

/-- The environment has made a pipe. -/
def made (w : World N) (e : Fin N) (i j : ℕ) : World N :=
  { w with pipes := w.pipes ++ [⟨(w.map (e, fdPage i)).getD 0, (w.map (e, fdPage j)).getD 0,
      (w.map (e, dataPage i)).getD 0⟩] }

end World

/-- The calls of the library. -/
inductive Call where
  | pipe
  | close (fdnum : ℤ)
  | dup (old new : ℤ)
  | fork
  | pipeisclosed (fdnum : ℤ)

def After.pc : After → Pc N
  | .done => .idle
  | .dup old new => .dupData old new

/-- What a system call may find: whether there is memory, and the environment that `sys_exofork` takes. -/
structure Input (N : ℕ) where
  mem : Bool
  child : Fin N

namespace World

/-- A call begins. -/
def begin (w : World N) (e : Fin N) : Call → Pc N
  | .pipe => .pipeFd0
  | .close fdnum =>
    match w.fdLookup e fdnum with
    | none => .idle
    | some i => .closeFd i .done
  | .dup old new =>
    match w.fdLookup e old with
    | none => .idle
    | some i =>
      match w.fdLookup e new with
      | some j => .closeFd j (.dup i new)
      | none => .dupData i new
  | .fork => .forking
  | .pipeisclosed fdnum =>
    match w.fdLookup e fdnum with
    | none => .idle
    | some i => .asking i

/-- The next step of environment `e`. -/
def exec (w : World N) (e : Fin N) (x : Input N) : Option (World N) :=
  match w.pc e with
  | .free | .born | .idle => none
  | .pipeFd0 =>
    match w.fdAlloc e with
    | none => some (w.setPc e .idle)
    | some i => if x.mem then some ((w.alloc e (fdPage i)).setPc e (.pipeFd1 i)) else some (w.setPc e .idle)
  | .pipeFd1 i =>
    match w.fdAlloc e with
    | none => some (w.setPc e (.pipeErr1 i))
    | some j =>
      if x.mem then some ((w.alloc e (fdPage j)).setPc e (.pipeData i j)) else some (w.setPc e (.pipeErr1 i))
  | .pipeData i j =>
    if x.mem then some ((w.alloc e (dataPage i)).setPc e (.pipeMap i j)) else some (w.setPc e (.pipeErr2 i j))
  | .pipeMap i j =>
    match w.sysPageMap e (dataPage i) (e, dataPage j) x.mem with
    | some w' => some ((w'.made e i j).setPc e .idle)
    | none => some (w.setPc e (.pipeErr3 i j))
  | .pipeErr3 i j => some ((w.unmap e (dataPage i)).setPc e (.pipeErr2 i j))
  | .pipeErr2 i j => some ((w.unmap e (fdPage j)).setPc e (.pipeErr1 i))
  | .pipeErr1 i => some ((w.unmap e (fdPage i)).setPc e .idle)
  | .closeFd i k => some ((w.unmap e (fdPage i)).setPc e (.closeData i k))
  | .closeData i k => some ((w.unmap e (dataPage i)).setPc e (.closeRest i k))
  | .closeRest i k => some ((w.unmap e (fdPage i)).setPc e k.pc)
  | .dupData old new =>
    if (w.map (e, dataPage old)).isSome then
      match w.sysPageMap e (dataPage old) (e, dataPage new) x.mem with
      | some w' => some (w'.setPc e (.dupFd old new))
      | none => some (w.setPc e (.dupErr1 new))
    else some (w.setPc e (.dupFd old new))
  | .dupFd old new =>
    match w.sysPageMap e (fdPage old) (e, fdPage new) x.mem with
    | some w' => some (w'.setPc e .idle)
    | none => some (w.setPc e (.dupErr1 new))
  | .dupErr1 new => some ((w.unmap e (fdPage new)).setPc e (.dupErr2 new))
  | .dupErr2 new => some ((w.unmap e (dataPage new)).setPc e .idle)
  | .forking =>
    match w.pc x.child with
    | .free => some ((w.setPc x.child .born).setPc e (.copying x.child 0))
    | _ => none
  | .copying c pn =>
    if pn < ustackPages then
      -- the result of `sys_page_map` is ignored
      if (w.map (e, pn)).isSome then
        some (((w.sysPageMap e pn (c, pn) x.mem).getD w).setPc e (.copying c (pn + 1)))
      else some (w.setPc e (.copying c (pn + 1)))
    else if x.mem then some ((w.setPc c .idle).setPc e .idle)
    else none
  | .asking i => some (w.setPc e (.counting i (w.runs e)))
  | .counting i n => some (w.setPc e (.counted i n (w.pageref e (fdPage i)) false))
  | .counted i n a mixed => some (w.setPc e (.compared i n a (w.pageref e (dataPage i)) mixed))
  | .compared i n _ _ _ => some (w.setPc e (if w.runs e = n then .idle else .asking i))

end World

/-- A call begins, an environment takes a step, or it is given a processor again. -/
inductive Event (N : ℕ) where
  | call (e : Fin N) (c : Call)
  | run (e : Fin N) (x : Input N)
  | resume (e : Fin N)

def World.step (w : World N) : Event N → Option (World N)
  | .call e c =>
    match w.pc e with
    | .idle => some (w.setPc e (w.begin e c))
    | _ => none
  | .run e x => w.exec e x
  | .resume e => some { w with runs := Function.update w.runs e (w.runs e + 1#32) }

/-- No pipe has been made, and environments are in no call or do not exist. -/
structure World.Start (w : World N) : Prop where
  pc : ∀ e, w.pc e = .idle ∨ w.pc e = .free
  map : ∀ x, w.map x = none
  ref : ∀ pg, w.ref pg = 0
  pipes : w.pipes = []

def system (N : ℕ) : System (World N) (Event N) where
  init := World.Start
  step w a w' := w.step a = some w'

/-! ## The property -/

namespace World

/-- Some environment has the page mapped. -/
def Mapped (w : World N) (pg : ℕ) : Prop := ∃ x, w.map x = some pg

/-- File descriptor `i` of `e` is an end of a pipe, and some environment has the other end. -/
def OtherHeld (w : World N) (e : Fin N) (i : ℕ) : Prop :=
  ∃ P ∈ w.pipes, w.map (e, fdPage i) = some P.rd ∧ w.Mapped P.wr ∨
    w.map (e, fdPage i) = some P.wr ∧ w.Mapped P.rd

/-- Environment `e` is in a call of `_pipeisclosed` on file descriptor `i`. -/
def Asks (w : World N) (e : Fin N) (i : ℕ) : Prop :=
  match w.pc e with
  | .asking j => j = i
  | .counting j _ => j = i
  | .counted j _ _ _ => j = i
  | .compared j _ _ _ _ => j = i
  | _ => False

/-- In its next step `_pipeisclosed` returns 1. -/
def ReturnsOne (w : World N) (e : Fin N) : Prop :=
  ∃ i a mixed, w.pc e = .compared i (w.runs e) a a mixed

end World

/-- The states in a call of `_pipeisclosed`, in a run whose steps meet `ok`, when the other end has been
held by some environment at every moment of the call so far. -/
inductive Throughout (ok : World N → Event N → Prop) (e : Fin N) (i : ℕ) : World N → Prop
  | start {w w' : World N} {fdnum : ℤ} : (system N).Reach ok w → ok w (.call e (.pipeisclosed fdnum)) →
      w.step (.call e (.pipeisclosed fdnum)) = some w' → w'.Asks e i → w'.OtherHeld e i → Throughout ok e i w'
  | go {w w' : World N} {a : Event N} : Throughout ok e i w → ok w a → w.step a = some w' → w'.Asks e i →
      w'.OtherHeld e i → Throughout ok e i w'

end OsLab.Jos.PipeEnds
