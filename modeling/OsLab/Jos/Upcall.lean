import OsLab.Lib.Bytes
import OsLab.Jos.Trap

/-!
# The page-fault upcall: `lib/pfentry.S`

A page fault in user mode is handled in user mode.  `page_fault_handler` in the kernel writes
the registers of the fault to the exception stack and makes the program continue at
`_pgfault_upcall`.  This calls the handler, a C function, and then has to bring back every
register, the stack pointer included, and to jump to where the fault was.

* `Instr.exec` is the part of the processor that `_pgfault_upcall` needs, in user mode.
* `Cpu.pageFault` is what the kernel does, as user mode sees it.
* A `Visit` says what happens during one fault: what the handler does, and which further
  faults there are, in the handler or at the instructions of the upcall.  `Visit.run`
  follows it.
-/

namespace OsLab.Jos.Pfentry

open Bytes (load store storeWords)

/-! ## The processor in user mode -/

inductive Reg where
  | eax | ecx | edx | ebx | esp | ebp | esi | edi
  deriving DecidableEq

/-- The registers, and memory as user mode sees it. -/
structure Cpu where
  reg : Reg → Word
  eip : Word
  eflags : Word
  mem : Bytes.Mem
  /-- The pages that may be written. -/
  writable : ℕ → Bool

/-- The flags that arithmetic sets: `CF`, `PF`, `AF`, `ZF`, `SF`, `OF`. -/
def arithFlags : Word := 0x8D5#32

/-- `FL_TF`: trap after every instruction. -/
def flTf : Word := 0x100#32

/-- `FL_AC`: trap at accesses that are not aligned (the kernel sets `CR0_AM`). -/
def flAc : Word := 0x40000#32

/-- The flags `popfl` may change at any privilege: those of arithmetic, and `TF`, `DF`, `NT`,
`AC`, `ID`. -/
def userFlags : Word := 0x244DD5#32

/-- The flags `popfl` changes in user mode.  `IF` is one of them only for a program with
`FL_IOPL_3`. -/
def popMask (eflags : Word) : Word :=
  if eflags &&& flIopl3 = flIopl3 then userFlags ||| flIf else userFlags

def flagIf (c : Prop) [Decidable c] (w : Word) : Word := if c then w else 0#32

/-- The number of bits set in the low byte. -/
def lowBits (w : Word) : ℕ := ((List.range 8).filter fun i => w.getLsbD i).length

/-- The flags after adding `b` to `a`. -/
def addFlags (a b : Word) : Word :=
  flagIf (2 ^ 32 ≤ a.toNat + b.toNat) 0x1#32 ||| flagIf (lowBits (a + b) % 2 = 0) 0x4#32 |||
    flagIf (16 ≤ a.toNat % 16 + b.toNat % 16) 0x10#32 ||| flagIf (a + b = 0#32) 0x40#32 |||
    flagIf ((a + b).msb = true) 0x80#32 ||| flagIf (a.msb = b.msb ∧ (a + b).msb ≠ a.msb) 0x800#32

/-- The instructions of `_pgfault_upcall`. -/
inductive Instr where
  | pushl (r : Reg)
  /-- `movl sym, r` -/
  | movlAbs (sym : Word) (r : Reg)
  /-- `call *r` -/
  | call (r : Reg)
  /-- `addl $n, r` -/
  | addl (n : Word) (r : Reg)
  /-- `movl off(b), r` -/
  | movlLoad (off : Word) (b r : Reg)
  /-- `movl r, off(b)` -/
  | movlStore (r : Reg) (off : Word) (b : Reg)
  | popal
  | popfl
  | popl (r : Reg)
  /-- `lea off(b), r` -/
  | lea (off : Word) (b r : Reg)
  | ret

namespace Instr

/-- The number of bytes an instruction takes; `esp` as a base takes one more. -/
def size : Instr → ℕ
  | pushl _ => 1
  | movlAbs _ _ => 5
  | call _ => 2
  | addl _ _ => 3
  | movlLoad _ b _ => if b = .esp then 4 else 3
  | movlStore _ _ b => if b = .esp then 4 else 3
  | popal => 1
  | popfl => 1
  | popl _ => 1
  | lea _ b _ => if b = .esp then 4 else 3
  | ret => 1

/-- What an instruction does. -/
def exec (i : Instr) (s : Cpu) : Cpu :=
  let next := s.eip + BitVec.ofNat 32 i.size
  let esp := s.reg .esp
  match i with
  | pushl r => { s with
      eip := next
      mem := store s.mem (esp - 4#32) (s.reg r)
      reg := Function.update s.reg .esp (esp - 4#32) }
  | movlAbs sym r => { s with eip := next, reg := Function.update s.reg r (load s.mem sym) }
  | call r => { s with
      eip := s.reg r
      mem := store s.mem (esp - 4#32) next
      reg := Function.update s.reg .esp (esp - 4#32) }
  | addl n r => { s with
      eip := next
      eflags := (s.eflags &&& ~~~arithFlags) ||| addFlags (s.reg r) n
      reg := Function.update s.reg r (s.reg r + n) }
  | movlLoad off b r => { s with
      eip := next, reg := Function.update s.reg r (load s.mem (s.reg b + off)) }
  | movlStore r off b => { s with eip := next, mem := store s.mem (s.reg b + off) (s.reg r) }
  | popal => { s with
      eip := next
      reg := fun
        | .edi => load s.mem esp
        | .esi => load s.mem (esp + 4#32)
        | .ebp => load s.mem (esp + 8#32)
        -- the word for `esp` is skipped
        | .esp => esp + 32#32
        | .ebx => load s.mem (esp + 16#32)
        | .edx => load s.mem (esp + 20#32)
        | .ecx => load s.mem (esp + 24#32)
        | .eax => load s.mem (esp + 28#32) }
  | popfl => { s with
      eip := next
      eflags := (s.eflags &&& ~~~popMask s.eflags) ||| (load s.mem esp &&& popMask s.eflags)
      reg := Function.update s.reg .esp (esp + 4#32) }
  | popl r => { s with
      eip := next
      reg := Function.update (Function.update s.reg .esp (esp + 4#32)) r (load s.mem esp) }
  | lea off b r => { s with eip := next, reg := Function.update s.reg r (s.reg b + off) }
  | ret => { s with eip := load s.mem esp, reg := Function.update s.reg .esp (esp + 4#32) }

/-- The words an instruction stores to. -/
def stores (i : Instr) (s : Cpu) : List Word :=
  match i with
  | pushl _ => [s.reg .esp - 4#32]
  | call _ => [s.reg .esp - 4#32]
  | movlStore _ off b => [s.reg b + off]
  | _ => []

/-- The words an instruction loads. -/
def loads (i : Instr) (s : Cpu) : List Word :=
  match i with
  | movlAbs sym _ => [sym]
  | movlLoad off b _ => [s.reg b + off]
  | popal => (List.range 8).map fun j => s.reg .esp + BitVec.ofNat 32 (4 * j)
  | popfl => [s.reg .esp]
  | popl _ => [s.reg .esp]
  | ret => [s.reg .esp]
  | _ => []

end Instr

/-- Why a program does not get on. -/
inductive Stop where
  /-- A frame does not fit on the exception stack. -/
  | overflow
  /-- The exception stack cannot be written, and the kernel destroys the environment. -/
  | destroyed
  /-- A store is not possible, and nothing is said about the fault. -/
  | denied
  /-- A single-step or alignment trap. -/
  | trap
  /-- The handler does not keep to its part. -/
  | rogue
  /-- There is no instruction of the upcall where it continues. -/
  | lost
  deriving DecidableEq

namespace Cpu

/-- User mode may write the byte at `a`; above `UTOP` it never may. -/
def CanWrite (s : Cpu) (a : Word) : Prop := a < utop ∧ s.writable (pgnum a) = true

instance (s : Cpu) (a : Word) : Decidable (s.CanWrite a) := inferInstanceAs (Decidable (_ ∧ _))

/-- Instruction `i` cannot store. -/
def Denied (s : Cpu) (i : Instr) : Prop :=
  ∃ a ∈ i.stores s, ∃ j < 4, ¬ s.CanWrite (a + BitVec.ofNat 32 j)

instance (s : Cpu) (i : Instr) : Decidable (s.Denied i) :=
  inferInstanceAs (Decidable (∃ a ∈ _, ∃ j < 4, _))

/-- Instruction `i` traps for another reason than a page fault. -/
def Alarm (s : Cpu) (i : Instr) : Prop :=
  s.eflags &&& flTf ≠ 0#32 ∨
    s.eflags &&& flAc ≠ 0#32 ∧ ∃ a ∈ i.stores s ++ i.loads s, a &&& 3#32 ≠ 0#32

instance (s : Cpu) (i : Instr) : Decidable (s.Alarm i) :=
  inferInstanceAs (Decidable (_ ∨ _ ∧ ∃ a ∈ _, _))

end Cpu

/-! ## The upcall -/

/-- `_pgfault_upcall`, the variable `_pgfault_handler` being at `handler`. -/
def pgfaultUpcall (handler : Word) : List Instr :=
  [.pushl .esp,
    .movlAbs handler .eax,
    .call .eax,
    .addl 4#32 .esp,
    .addl 8#32 .esp,
    .movlLoad 40#32 .esp .eax,
    .movlLoad 32#32 .esp .ecx,
    .movlStore .ecx (-4#32) .eax,
    .popal,
    .addl 4#32 .esp,
    .popfl,
    .popl .esp,
    .lea (-4#32) .esp .esp,
    .ret]

/-- Where a program has the upcall and the variable `_pgfault_handler`. -/
structure Upcall where
  entry : Word
  handler : Word

/-- The instruction at an offset. -/
def fetch : List Instr → ℕ → Option Instr
  | [], _ => none
  | i :: is, n => if n = 0 then some i else if i.size ≤ n then fetch is (n - i.size) else none

/-- The next instruction of the upcall. -/
def Cpu.step (p : Upcall) (s : Cpu) : Except Stop Cpu :=
  match fetch (pgfaultUpcall p.handler) (s.eip - p.entry).toNat with
  | none => .error .lost
  | some i =>
    if s.Alarm i then .error .trap
    else if s.Denied i then .error .denied
    else .ok (i.exec s)

/-! ## The kernel's part -/

/-- What a fault adds to the registers: the address, the error code, and the `esp` of the
kernel that `pushal` saves. -/
structure Fault where
  va : Word
  err : Word
  oesp : Word

/-- The trap frame of a page fault. -/
def Cpu.trapframe (s : Cpu) (f : Fault) : Trapframe where
  regs := ⟨s.reg .edi, s.reg .esi, s.reg .ebp, f.oesp, s.reg .ebx, s.reg .edx, s.reg .ecx, s.reg .eax⟩
  es := gdUd
  ds := gdUd
  trapno := BitVec.ofNat 32 tPgflt
  err := f.err
  eip := s.eip
  cs := gdUt
  eflags := s.eflags
  esp := s.reg .esp
  ss := gdUd

/-- Where the kernel puts the frame of a fault in the state `s`. -/
def Cpu.utr (s : Cpu) (f : Fault) : Word := utrapframeTop (s.trapframe f) - utrapframeRoom

/-- `page_fault_handler`, as user mode sees it. -/
def Cpu.pageFault (p : Upcall) (f : Fault) (s : Cpu) : Except Stop Cpu :=
  if ∀ j < utrapframeRoom.toNat, s.CanWrite (s.utr f + BitVec.ofNat 32 j) then
    .ok { s with
      mem := storeWords s.mem (s.utr f) (utrapframe f.va (s.trapframe f))
      reg := Function.update s.reg .esp (s.utr f)
      eip := p.entry }
  else .error .destroyed

/-! ## What happens during a fault -/

/-- A part of what the handler does: the registers it leaves, the bytes it writes, and the
pages it makes writable or not. -/
structure Action where
  reg : Reg → Word
  eip : Word
  eflags : Word
  wrote : List (Word × BitVec 8)
  pages : List (ℕ × Bool)

/-- Memory after the writes. -/
def Action.effect (a : Action) (m : Bytes.Mem) : Bytes.Mem :=
  Bytes.writes m a.wrote

/-- The pages that are writable afterwards. -/
def Action.perms (a : Action) (writable : ℕ → Bool) : ℕ → Bool :=
  a.pages.foldl (fun f q => Function.update f q.1 q.2) writable

/-- What a handler leaves alone whose frame is at `utr`: its return address, the stack above its
frame, and the words at `pins`, which are return addresses on other stacks. -/
def Kept (pins : List Word) (utr x : Word) : Prop :=
  (x - (utr - 8#32)).toNat < 4 ∨ (utr ≤ x ∧ x < uxstacktop) ∨ ∃ w ∈ pins, (x - w).toNat < 4

instance (pins : List Word) (utr x : Word) : Decidable (Kept pins utr x) :=
  inferInstanceAs (Decidable (_ ∨ _ ∨ ∃ w ∈ pins, _))

/-- A compiled C function keeps to this: its stack is below its return address, on the
exception stack, which stays writable; it changes no flags that only the kernel may change, and
sets neither `TF` nor `AC`. -/
structure Action.Ok (pins : List Word) (utr : Word) (s : Cpu) (a : Action) : Prop where
  inside : uxstack < a.reg .esp
  below : a.reg .esp ≤ utr - 8#32
  flags : a.eflags &&& ~~~popMask s.eflags = s.eflags &&& ~~~popMask s.eflags
  quiet : a.eflags &&& (flTf ||| flAc) = 0#32
  kept : ∀ w ∈ a.wrote, ¬ Kept pins utr w.1
  mapped : ∀ q ∈ a.pages, q.1 = pgnum uxstack → q.2 = true

instance (pins : List Word) (utr : Word) (s : Cpu) (a : Action) : Decidable (a.Ok pins utr s) :=
  let _ := List.decidableBAll (fun w => ¬ Kept pins utr w.1) a.wrote
  decidable_of_iff (uxstack < a.reg .esp ∧ a.reg .esp ≤ utr - 8#32 ∧
      a.eflags &&& ~~~popMask s.eflags = s.eflags &&& ~~~popMask s.eflags ∧
      a.eflags &&& (flTf ||| flAc) = 0#32 ∧ (∀ w ∈ a.wrote, ¬ Kept pins utr w.1) ∧
      ∀ q ∈ a.pages, q.1 = pgnum uxstack → q.2 = true)
    ⟨fun ⟨h1, h2, h3, h4, h5, h6⟩ => ⟨h1, h2, h3, h4, h5, h6⟩,
      fun h => ⟨h.inside, h.below, h.flags, h.quiet, h.kept, h.mapped⟩⟩

/-- The handler does `a`. -/
def Cpu.act (pins : List Word) (utr : Word) (a : Action) (s : Cpu) : Except Stop Cpu :=
  if a.Ok pins utr s then
    .ok ⟨a.reg, a.eip, a.eflags, a.effect s.mem, a.perms s.writable⟩
  else .error .rogue

mutual

/-- One fault: the faults `at_ i` come at instruction `i` of the upcall before it gets
through, one after another. -/
inductive Visit where
  | mk (f : Fault) (at_ : ℕ → Visits) (h : Handler)

/-- Faults one after another. -/
inductive Visits where
  | nil
  | cons (v : Visit) (vs : Visits)

/-- What the handler does until it returns. -/
inductive Handler where
  | ret (a : Action)
  | act (a : Action) (h : Handler)
  | fault (v : Visit) (h : Handler)

end

/-- Instructions of the upcall, with what comes before each. -/
def stages (p : Upcall) (before : ℕ → Cpu → Except Stop Cpu) : List ℕ → Cpu → Except Stop Cpu
  | [], s => .ok s
  | i :: is, s => do
    let s ← before i s
    let s ← s.step p
    stages p before is s

mutual

/-- **One fault, until the upcall has returned.**  The run is followed as long as the frames, and
the two words that the upcall pushes below them, are on the exception stack.  From the store of
the return address on, the word below the `esp` of the fault is pinned. -/
def Visit.run (p : Upcall) : Visit → List Word → Cpu → Except Stop Cpu
  | .mk f at_ h, pins, s => do
    if s.utr f ≤ uxstack + 8#32 then .error .overflow
    else
      let s₁ ← s.pageFault p f
      let s₂ ← stages p (fun i => (at_ i).run p pins) [0, 1, 2] s₁
      let s₃ ← h.run p pins (s.utr f) s₂
      let s₄ ← stages p (fun i => (at_ i).run p pins) [3, 4, 5, 6, 7] s₃
      stages p (fun i => (at_ i).run p ((s.reg .esp - 4#32) :: pins)) [8, 9, 10, 11, 12, 13] s₄

def Visits.run (p : Upcall) : Visits → List Word → Cpu → Except Stop Cpu
  | .nil, _, s => .ok s
  | .cons v vs, pins, s => do
    let s ← v.run p pins s
    vs.run p pins s

/-- The handler returns with `ret`. -/
def Handler.run (p : Upcall) : Handler → List Word → Word → Cpu → Except Stop Cpu
  | .ret a, pins, utr, s => do
    let s ← s.act pins utr a
    if s.reg .esp = utr - 8#32 then .ok (Instr.ret.exec s) else .error .rogue
  | .act a h, pins, utr, s => do
    let s ← s.act pins utr a
    h.run p pins utr s
  | .fault v h, pins, utr, s => do
    let s ← v.run p pins s
    h.run p pins utr s

end

end OsLab.Jos.Pfentry
