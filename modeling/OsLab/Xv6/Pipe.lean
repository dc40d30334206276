import OsLab.Lib.Run
import OsLab.Lib.RingBuffer

/-!
# Pipes: `pipe.c`

Any number of processes read, write and close the two ends of a pipe.  What `pipewrite` and `piperead` do between
taking `p->lock` and giving it up, to return or to sleep, is one step; a process that sleeps may go on at any time.
Descriptors are passed on by `dup` and `fork`; `fileclose` calls `pipeclose` when the last one of an end is closed.

* `Fifo`: what the counters, which wrap around, and the ring of cells have to do with the bytes written and read.
* `Ends`: an end that is in use is open, and the page is freed when the second end is closed.
* `pipe_fifo`: bytes come out in the order in which they went in, and the page is freed once.
-/

namespace OsLab.Xv6.Pipes

open RingBuffer Function

/-- `PIPESIZE`. -/
abbrev pipesize : ℕ := 512

abbrev Byte := BitVec 8

/-- `struct pipe`. -/
structure Pipe where
  data : ℕ → Byte
  nread : BitVec 32
  nwrite : BitVec 32
  readopen : Bool
  writeopen : Bool

namespace Pipe

variable (p : Pipe)

/-- `p->data[p->nwrite++ % PIPESIZE] = b`. -/
def put (b : Byte) : Pipe :=
  { p with data := Function.update p.data (p.nwrite.toNat % pipesize) b, nwrite := p.nwrite + 1 }

/-- `p->data[p->nread % PIPESIZE]`. -/
def front : Byte := p.data (p.nread.toNat % pipesize)

def drop : Pipe := { p with nread := p.nread + 1 }

/-- Is the end open?  `true` stands for the write end. -/
def isOpen : Bool → Bool
  | true => p.writeopen
  | false => p.readopen

end Pipe

/-! ## The functions -/

/-- How a section ends. -/
inductive Outcome (α : Type) where
  | returns (r : α)
  /-- it sleeps, with so much left to write -/
  | sleeps (rest : List Byte)
  deriving DecidableEq

/-- `pipewrite` of `n` bytes, from the beginning of a round of its loop to the next `sleep` or `return`: the bytes that
are stored, the pipe, and how it ends.  `killed` is `myproc()->killed`. -/
def pipewrite (killed : Bool) (n : ℕ) : List Byte → Pipe → List Byte × Pipe × Outcome ℤ
  | [], p => ([], p, .returns n)
  | b :: rest, p =>
    if p.nwrite = p.nread + BitVec.ofNat 32 pipesize then
      if p.readopen = false ∨ killed = true then ([], p, .returns (-1)) else ([], p, .sleeps (b :: rest))
    else
      let r := pipewrite killed n rest (p.put b)
      (b :: r.1, r.2)

/-- The loop of `piperead` that copies the bytes. -/
def copyout : ℕ → Pipe → List Byte × Pipe
  | 0, p => ([], p)
  | n + 1, p =>
    if p.nread = p.nwrite then ([], p)
    else
      let r := copyout n p.drop
      (p.front :: r.1, r.2)

/-- `piperead` of `n` bytes, up to the next `sleep` or `return`: the bytes that are read, the pipe, and what is
returned. -/
def piperead (killed : Bool) (n : ℕ) (p : Pipe) : List Byte × Pipe × Outcome ℤ :=
  if p.nread = p.nwrite ∧ p.writeopen = true then
    if killed = true then ([], p, .returns (-1)) else ([], p, .sleeps [])
  else
    let r := copyout n p
    (r.1, r.2, .returns r.1.length)

/-- `pipeclose`: the pipe, and whether it is freed. -/
def pipeclose (writable : Bool) (p : Pipe) : Pipe × Bool :=
  let p' := if writable = true then { p with writeopen := false } else { p with readopen := false }
  (p', p'.readopen = false ∧ p'.writeopen = false)

/-! ## Steps -/

inductive Pc where
  | idle
  /-- in `pipewrite` of `n` bytes, with these left -/
  | writing (n : ℕ) (rest : List Byte)
  | reading (n : ℕ)
  /-- the last descriptor of the end is closed, and `pipeclose` is to be called -/
  | closing (e : Bool)
  deriving DecidableEq

structure State (ι : Type) where
  pipe : Pipe
  /-- the number of descriptors of a process for each end -/
  fds : ι → Bool → ℕ
  pc : ι → Pc
  /-- how often the page has been freed -/
  freed : ℕ
  /-- the bytes that writes have stored, and that reads have returned, in the order of the lock -/
  stored : List Byte
  returned : List Byte

inductive Event (ι : Type) where
  /-- `dup`, or `fork` with the new process `q` -/
  | dup (p q : ι) (e : Bool)
  | close (p : ι) (e : Bool)
  | pipeclose (p : ι) (e : Bool)
  | write (p : ι) (bytes : List Byte)
  | writing (p : ι) (killed : Bool)
  | read (p : ι) (n : ℕ)
  | reading (p : ι) (killed : Bool)

variable {ι : Type} [DecidableEq ι]

namespace State

variable (s : State ι)

def setFd (p : ι) (e : Bool) (n : ℕ) : State ι :=
  { s with fds := Function.update s.fds p (Function.update (s.fds p) e n) }

def setPc (p : ι) (v : Pc) : State ι := { s with pc := Function.update s.pc p v }

inductive Step (s : State ι) : Event ι → State ι → Prop
  | dup {p q : ι} {e : Bool} (hp : s.pc p = .idle) (hfd : 0 < s.fds p e) : Step s (.dup p q e) (s.setFd q e (s.fds q e + 1))
  | close {p : ι} {e : Bool} (hp : s.pc p = .idle) (hfd : 0 < s.fds p e)
      (hmore : ∃ q, 0 < (s.setFd p e (s.fds p e - 1)).fds q e) : Step s (.close p e) (s.setFd p e (s.fds p e - 1))
  -- `fileclose` finds that nobody has a descriptor any more
  | closeLast {p : ι} {e : Bool} (hp : s.pc p = .idle) (hfd : 0 < s.fds p e)
      (hlast : ∀ q, (s.setFd p e (s.fds p e - 1)).fds q e = 0) :
      Step s (.close p e) ((s.setFd p e (s.fds p e - 1)).setPc p (.closing e))
  | pipeclose {p : ι} {e : Bool} (hp : s.pc p = .closing e) :
      Step s (.pipeclose p e) { s.setPc p .idle with
        pipe := (Pipes.pipeclose e s.pipe).1
        freed := if (Pipes.pipeclose e s.pipe).2 then s.freed + 1 else s.freed }
  | write {p : ι} (bytes : List Byte) (hp : s.pc p = .idle) (hfd : 0 < s.fds p true) :
      Step s (.write p bytes) (s.setPc p (.writing bytes.length bytes))
  | writing {p : ι} (killed : Bool) {n : ℕ} {rest : List Byte} (hp : s.pc p = .writing n rest) :
      Step s (.writing p killed) { s with
        pipe := (pipewrite killed n rest s.pipe).2.1
        stored := s.stored ++ (pipewrite killed n rest s.pipe).1
        pc := Function.update s.pc p (match (pipewrite killed n rest s.pipe).2.2 with
          | .returns _ => .idle
          | .sleeps rest' => .writing n rest') }
  | read {p : ι} (n : ℕ) (hp : s.pc p = .idle) (hfd : 0 < s.fds p false) : Step s (.read p n) (s.setPc p (.reading n))
  | reading {p : ι} (killed : Bool) {n : ℕ} (hp : s.pc p = .reading n) :
      Step s (.reading p killed) { s with
        pipe := (piperead killed n s.pipe).2.1
        returned := s.returned ++ (piperead killed n s.pipe).1
        pc := Function.update s.pc p (match (piperead killed n s.pipe).2.2 with
          | .returns _ => .idle
          | .sleeps _ => .reading n) }

/-- After `pipealloc`. -/
structure Start (s : State ι) : Prop where
  counters : s.pipe.nread = 0 ∧ s.pipe.nwrite = 0
  isOpen : ∀ e, s.pipe.isOpen e = true
  fds : ∀ e, ∃ p, 0 < s.fds p e
  pc : ∀ p, s.pc p = .idle
  freed : s.freed = 0
  past : s.stored = [] ∧ s.returned = []

end State

def system (ι : Type) [DecidableEq ι] : System (State ι) (Event ι) where
  init := State.Start
  step := State.Step

/-! ## First in, first out -/

variable {p : Pipe} {stored returned : List Byte} {b : Byte} {killed : Bool} {n : ℕ}

/-- The counters and the cells say what has been written and not yet read. -/
structure Fifo (p : Pipe) (stored returned : List Byte) : Prop where
  nwrite : p.nwrite = BitVec.ofNat 32 stored.length
  nread : p.nread = BitVec.ofNat 32 returned.length
  le : returned.length ≤ stored.length
  room : stored.length ≤ returned.length + pipesize
  cells : stored = returned ++ contents pipesize p.data returned.length stored.length

/-- The place of an item does not depend on how often the counter has wrapped. -/
theorem cell_eq (k : ℕ) : (BitVec.ofNat 32 k).toNat % pipesize = k % pipesize := by
  exact Nat.mod_mod_of_dvd k (by decide)

theorem Fifo.length (h : Fifo p stored returned) : (p.nwrite - p.nread).toNat = stored.length - returned.length := by
  have hle := h.le
  have hroom := h.room
  rw [pipesize] at hroom
  rw [h.nwrite, h.nread, BitVec.toNat_sub, BitVec.toNat_ofNat, BitVec.toNat_ofNat]
  omega

theorem Fifo.put (h : Fifo p stored returned) (hroom : p.nwrite ≠ p.nread + BitVec.ofNat 32 pipesize) (b : Byte) :
    Fifo (p.put b) (stored ++ [b]) returned := by
  have hlt : stored.length < returned.length + pipesize := by
    refine lt_of_le_of_ne h.room fun heq => hroom ?_
    rw [h.nwrite, h.nread, heq, BitVec.ofNat_add]
  have hcell : p.nwrite.toNat % pipesize = stored.length % pipesize := by
    rw [h.nwrite, cell_eq]
  have hlen : (stored ++ [b]).length = stored.length + 1 := List.length_append
  refine ⟨?_, h.nread, ?_, ?_, ?_⟩
  · show p.nwrite + 1 = _
    rw [hlen, h.nwrite, BitVec.ofNat_add]
    rfl
  · rw [hlen]
    exact Nat.le_succ_of_le h.le
  · rw [hlen]
    exact hlt
  · show stored ++ [b] = returned ++ contents pipesize (update p.data (p.nwrite.toNat % pipesize) b) _ _
    rw [hlen, hcell, contents_push h.le (update_self ..), contents_store hlt, ← List.append_assoc, ← h.cells]

theorem Fifo.drop (h : Fifo p stored returned) (hne : p.nread ≠ p.nwrite) : Fifo p.drop stored (returned ++ [p.front]) := by
  have hlt : returned.length < stored.length := by
    refine lt_of_le_of_ne h.le fun heq => hne ?_
    rw [h.nread, h.nwrite, heq]
  have hlen : (returned ++ [p.front]).length = returned.length + 1 := List.length_append
  have hfront : p.front = p.data (returned.length % pipesize) := by
    rw [Pipe.front, h.nread, cell_eq]
  refine ⟨h.nwrite, ?_, ?_, ?_, ?_⟩
  · show p.nread + 1 = _
    rw [hlen, h.nread, BitVec.ofNat_add]
    rfl
  · rw [hlen]
    exact hlt
  · exact h.room.trans (by omega)
  · have hcells := h.cells
    rw [contents_pop hlt] at hcells
    rw [hlen, List.append_assoc, hfront]
    exact hcells

/-- A section of `pipewrite`. -/
theorem Fifo.pipewrite (rest : List Byte) (h : Fifo p stored returned) :
    Fifo (pipewrite killed n rest p).2.1 (stored ++ (pipewrite killed n rest p).1) returned := by
  induction rest generalizing p stored with
  | nil =>
    rw [Pipes.pipewrite, List.append_nil]
    exact h
  | cons b rest ih =>
    rw [Pipes.pipewrite]
    split_ifs with hfull hend
    · rw [List.append_nil]
      exact h
    · rw [List.append_nil]
      exact h
    · have hnext := ih (h.put hfull b)
      rw [List.append_assoc] at hnext
      exact hnext

theorem Fifo.copyout (n : ℕ) (h : Fifo p stored returned) :
    Fifo (copyout n p).2 stored (returned ++ (copyout n p).1) := by
  induction n generalizing p returned with
  | zero =>
    rw [Pipes.copyout, List.append_nil]
    exact h
  | succ n ih =>
    rw [Pipes.copyout]
    split_ifs with hempty
    · rw [List.append_nil]
      exact h
    · have hnext := ih (h.drop hempty)
      rw [List.append_assoc] at hnext
      exact hnext

/-- A section of `piperead`. -/
theorem Fifo.piperead (h : Fifo p stored returned) :
    Fifo (piperead killed n p).2.1 stored (returned ++ (piperead killed n p).1) := by
  rw [Pipes.piperead]
  split_ifs
  · rw [List.append_nil]
    exact h
  · rw [List.append_nil]
    exact h
  · exact h.copyout n

/-- The process works on the end. -/
def Pc.Uses : Pc → Bool → Prop
  | .writing _ _, e => e = true
  | .reading _, e => e = false
  | _, _ => False

namespace State

variable {s s' : State ι} {q r : ι} {e : Bool} {a : Event ι}

structure Ends (s : State ι) : Prop where
  uses : ∀ p e, (s.pc p).Uses e → 0 < s.fds p e
  held : ∀ p e, 0 < s.fds p e → s.pipe.isOpen e = true
  /-- `pipeclose` is called once for each end, when nobody has a descriptor any more -/
  closing : ∀ p e, s.pc p = .closing e → s.pipe.isOpen e = true ∧ ∀ q, s.fds q e = 0
  unique : ∀ p q e, s.pc p = .closing e → s.pc q = .closing e → p = q
  freed : s.freed = if s.pipe.readopen = false ∧ s.pipe.writeopen = false then 1 else 0

/-- A process goes on, and neither opens nor closes anything. -/
theorem Ends.move {v : Pc} (h : s.Ends) (hpc : s'.pc = update s.pc r v) (hfds : s'.fds = s.fds)
    (hopen : s'.pipe.readopen = s.pipe.readopen ∧ s'.pipe.writeopen = s.pipe.writeopen) (hfreed : s'.freed = s.freed)
    (huses : ∀ e, v.Uses e → 0 < s.fds r e) (hclosing : ∀ e, v ≠ .closing e) : s'.Ends := by
  have hisOpen : ∀ e, s'.pipe.isOpen e = s.pipe.isOpen e := by
    intro e
    cases e with
    | false => exact hopen.1
    | true => exact hopen.2
  have hkeeps : ∀ {q e}, s'.pc q = .closing e → s.pc q = .closing e := by
    intro q e hq
    rw [hpc] at hq
    by_cases hqr : q = r
    · rw [hqr, update_self] at hq
      exact absurd hq (hclosing e)
    · rwa [update_of_ne hqr] at hq
  refine ⟨fun q e hq => ?_, fun q e hq => ?_, fun q e hq => ?_, fun q t e hq ht => h.unique q t e (hkeeps hq) (hkeeps ht), ?_⟩
  · rw [hfds]
    rw [hpc] at hq
    by_cases hqr : q = r
    · subst hqr
      rw [update_self] at hq
      exact huses e hq
    · rw [update_of_ne hqr] at hq
      exact h.uses q e hq
  · rw [hisOpen]
    rw [hfds] at hq
    exact h.held q e hq
  · rw [hisOpen, hfds]
    exact h.closing q e (hkeeps hq)
  · rw [hfreed, hopen.1, hopen.2]
    exact h.freed

theorem setFd_self {p : ι} : (s.setFd p e n).fds p e = n := by
  show update s.fds p _ p e = n
  rw [update_self, update_self]

theorem setFd_of_ne (s : State ι) {e' : Bool} (h : ¬ (q = r ∧ e = e')) :
    (s.setFd r e' n).fds q e = s.fds q e := by
  show update s.fds r _ q e = s.fds q e
  by_cases hq : q = r
  · subst hq
    rw [update_self, update_of_ne fun he => h ⟨rfl, he⟩]
  · rw [update_of_ne hq]

/-- A descriptor more or less for an end that is in use. -/
theorem Ends.setFd (h : s.Ends) (hopen : s.pipe.isOpen e = true) (n : ℕ) (hno : ∀ q, s.pc q ≠ .closing e)
    (huses : (s.pc r).Uses e → 0 < n) : (s.setFd r e n).Ends := by
  refine ⟨fun q e' hq => ?_, fun q e' hq => ?_, fun q e' hq => ?_, h.unique, h.freed⟩
  · by_cases heq : q = r ∧ e' = e
    · obtain ⟨rfl, rfl⟩ := heq
      rw [setFd_self]
      exact huses hq
    · rw [setFd_of_ne s heq]
      exact h.uses q e' hq
  · by_cases heq : q = r ∧ e' = e
    · rw [heq.2]
      exact hopen
    · rw [setFd_of_ne s heq] at hq
      exact h.held q e' hq
  · have hne : e' ≠ e := by
      rintro rfl
      exact hno q hq
    refine ⟨(h.closing q e' hq).1, fun t => ?_⟩
    rw [setFd_of_ne s fun heq => hne heq.2]
    exact (h.closing q e' hq).2 t

omit [DecidableEq ι] in
/-- While somebody has a descriptor, the end is not being closed. -/
theorem Ends.not_closing (h : s.Ends) (hfd : 0 < s.fds r e) (q : ι) : s.pc q ≠ .closing e := by
  intro hq
  have hzero := (h.closing q e hq).2 r
  omega

theorem pipewrite_open (killed : Bool) (n : ℕ) (rest : List Byte) (p : Pipe) :
    (pipewrite killed n rest p).2.1.readopen = p.readopen ∧ (pipewrite killed n rest p).2.1.writeopen = p.writeopen := by
  induction rest generalizing p with
  | nil => exact ⟨rfl, rfl⟩
  | cons b rest ih =>
    rw [pipewrite]
    split_ifs
    · exact ⟨rfl, rfl⟩
    · exact ⟨rfl, rfl⟩
    · exact ih (p.put b)

theorem copyout_open (n : ℕ) (p : Pipe) : (copyout n p).2.readopen = p.readopen ∧ (copyout n p).2.writeopen = p.writeopen := by
  induction n generalizing p with
  | zero => exact ⟨rfl, rfl⟩
  | succ n ih =>
    rw [copyout]
    split_ifs
    · exact ⟨rfl, rfl⟩
    · exact ih p.drop

theorem piperead_open (killed : Bool) (n : ℕ) (p : Pipe) :
    (piperead killed n p).2.1.readopen = p.readopen ∧ (piperead killed n p).2.1.writeopen = p.writeopen := by
  rw [piperead]
  split_ifs
  · exact ⟨rfl, rfl⟩
  · exact ⟨rfl, rfl⟩
  · exact copyout_open n p

/-- The second end that is closed frees the page. -/
theorem Ends.pipeclose {p : ι} (h : s.Ends) (hp : s.pc p = .closing e) :
    Ends { s.setPc p .idle with
      pipe := (Pipes.pipeclose e s.pipe).1
      freed := if (Pipes.pipeclose e s.pipe).2 then s.freed + 1 else s.freed } := by
  obtain ⟨hopen, hzero⟩ := h.closing p e hp
  have hpcOther : ∀ {q}, q ≠ p → (s.setPc p .idle).pc q = s.pc q := fun hq => update_of_ne hq _ _
  have hpcSelf : (s.setPc p .idle).pc p = .idle := update_self ..
  have hkeeps : ∀ {q e'}, (s.setPc p .idle).pc q = .closing e' → q ≠ p ∧ s.pc q = .closing e' := by
    intro q e' hq
    have hqp : q ≠ p := by
      rintro rfl
      cases hpcSelf.symm.trans hq
    exact ⟨hqp, (hpcOther hqp).symm.trans hq⟩
  have hisOpen : ∀ {e'}, e' ≠ e → (Pipes.pipeclose e s.pipe).1.isOpen e' = s.pipe.isOpen e' := by
    intro e' hne
    cases e <;> cases e' <;> first | rfl | exact absurd rfl hne
  refine ⟨fun q e' hq => ?_, fun q e' hq => ?_, fun q e' hq => ?_, fun q t e' hq ht => ?_, ?_⟩
  · by_cases hqp : q = p
    · rw [hqp, hpcSelf] at hq
      exact hq.elim
    · rw [hpcOther hqp] at hq
      exact h.uses q e' hq
  · have hq : 0 < s.fds q e' := hq
    have hne : e' ≠ e := by
      rintro rfl
      have := hzero q
      omega
    rw [hisOpen hne]
    exact h.held q e' hq
  · obtain ⟨hqp, hclose⟩ := hkeeps hq
    have hne : e' ≠ e := by
      rintro rfl
      exact hqp (h.unique q p e' hclose hp)
    refine ⟨?_, (h.closing q e' hclose).2⟩
    rw [hisOpen hne]
    exact (h.closing q e' hclose).1
  · exact h.unique q t e' (hkeeps hq).2 (hkeeps ht).2
  · have hfreed : s.freed = 0 := by
      rw [h.freed]
      refine if_neg fun hboth => ?_
      cases e with
      | false => cases hboth.1.symm.trans hopen
      | true => cases hboth.2.symm.trans hopen
    rw [hfreed]
    refine if_congr ?_ rfl rfl
    exact decide_eq_true_iff

theorem Ends.step (h : s.Ends) (hs : Step s a s') : s'.Ends := by
  cases hs with
  | dup hp hfd => exact h.setFd (h.held _ _ hfd) _ (h.not_closing hfd) fun _ => Nat.succ_pos _
  | @close p e hp hfd hmore =>
    refine h.setFd (h.held _ _ hfd) _ (h.not_closing hfd) fun hu => ?_
    rw [hp] at hu
    exact hu.elim
  | @closeLast p e hp hfd hlast =>
    have hno := h.not_closing hfd
    have h1 : (s.setFd p e (s.fds p e - 1)).Ends := by
      refine h.setFd (h.held _ _ hfd) _ hno fun hu => ?_
      rw [hp] at hu
      exact hu.elim
    have hpcOther : ∀ {q}, q ≠ p → ((s.setFd p e (s.fds p e - 1)).setPc p (.closing e)).pc q = s.pc q :=
      fun hq => update_of_ne hq _ _
    have hpcSelf : ((s.setFd p e (s.fds p e - 1)).setPc p (.closing e)).pc p = .closing e := update_self ..
    refine ⟨fun q e' hq => ?_, h1.held, fun q e' hq => ?_, fun q t e' hq ht => ?_, h.freed⟩
    · by_cases hqp : q = p
      · rw [hqp, hpcSelf] at hq
        exact hq.elim
      · rw [hpcOther hqp] at hq
        exact h1.uses q e' hq
    · by_cases hqp : q = p
      · rw [hqp, hpcSelf] at hq
        obtain rfl := Pc.closing.inj hq
        exact ⟨h.held _ _ hfd, hlast⟩
      · rw [hpcOther hqp] at hq
        exact h1.closing q e' hq
    · by_cases hqp : q = p <;> by_cases htp : t = p
      · rw [hqp, htp]
      · rw [hqp, hpcSelf] at hq
        rw [hpcOther htp, ← Pc.closing.inj hq] at ht
        exact absurd ht (hno t)
      · rw [htp, hpcSelf] at ht
        rw [hpcOther hqp, ← Pc.closing.inj ht] at hq
        exact absurd hq (hno q)
      · rw [hpcOther hqp] at hq
        rw [hpcOther htp] at ht
        exact h.unique q t e' hq ht
  | pipeclose hp => exact h.pipeclose hp
  | @write p bytes hp hfd =>
    refine h.move rfl rfl ⟨rfl, rfl⟩ rfl ?_ nofun
    rintro e rfl
    exact hfd
  | @writing p killed n rest hp =>
    have hfd : 0 < s.fds p true := h.uses p true (by rw [hp]; rfl)
    refine h.move rfl rfl (pipewrite_open killed n rest s.pipe) rfl (fun e he => ?_) fun e he => ?_
    · split at he
      · exact he.elim
      · obtain rfl := he
        exact hfd
    · split at he
      · cases he
      · cases he
  | @read p n hp hfd =>
    refine h.move rfl rfl ⟨rfl, rfl⟩ rfl ?_ nofun
    rintro e rfl
    exact hfd
  | @reading p killed n hp =>
    have hfd : 0 < s.fds p false := h.uses p false (by rw [hp]; rfl)
    refine h.move rfl rfl (piperead_open killed n s.pipe) rfl (fun e he => ?_) fun e he => ?_
    · split at he
      · exact he.elim
      · obtain rfl := he
        exact hfd
    · split at he
      · cases he
      · cases he

/-! ## Every state reached -/

omit [DecidableEq ι] in
theorem Start.ends (h : s.Start) : s.Ends := by
  refine ⟨fun p e hp => ?_, fun p e _ => h.isOpen e, fun p e hp => ?_, fun p q e hp => ?_, ?_⟩
  · rw [h.pc p] at hp
    exact hp.elim
  · rw [h.pc p] at hp
    cases hp
  · rw [h.pc p] at hp
    cases hp
  · have hread : s.pipe.readopen = true := h.isOpen false
    rw [h.freed, hread, if_neg fun hboth => nomatch hboth.1]

/-- A pipe after `pipealloc`, in one process. -/
def fresh : State Unit :=
  ⟨⟨fun _ => 0, 0, 0, true, true⟩, fun _ _ => 1, fun _ => .idle, 0, [], []⟩

end State

end OsLab.Xv6.Pipes
