import OsLab.Lib.Run
import OsLab.Lib.RingBuffer

/-!
# Console input: `console.c`

`consoleintr` edits the line that is being typed and commits it, and any number of processes take what is committed, in
`consoleread`.  Both hold `cons.lock` except while a reader sleeps, so a section of either is one step.  The three indices
`r`, `w` and `e` of the buffer are words that wrap around.

* `Lines`: what a line is, in terms of the characters typed and of how many have been taken.
* `Shows`: the indices and the cells show the characters that are committed and not taken, and the line.
* **`console_lines`**: in every run the characters taken and those still to take are the committed lines; an erasing
  character leaves them alone; and a `^D` that ends a read of some bytes is left and ends the next one.
-/

namespace OsLab.Xv6.Console

open RingBuffer Function

/-- `INPUT_BUF`. -/
abbrev inputBuf : ℕ := 128

abbrev Byte := BitVec 8

def newline : Byte := 10#8
def carriageReturn : Byte := 13#8
/-- `C('D')`. -/
def ctrlD : Byte := 4#8
def ctrlH : Byte := 8#8
def ctrlP : Byte := 16#8
def ctrlU : Byte := 21#8
/-- `'\x7f'`. -/
def delete : Byte := 127#8

/-- `input`: the read, write and edit index of the buffer. -/
structure Input where
  buf : ℕ → Byte
  r : BitVec 32
  w : BitVec 32
  e : BitVec 32

namespace Input

variable (s : Input)

/-- `input.buf[input.r % INPUT_BUF]`. -/
def front : Byte := s.buf (s.r.toNat % inputBuf)

/-- `input.buf[input.e++ % INPUT_BUF] = c`. -/
def put (c : Byte) : Input := { s with buf := Function.update s.buf (s.e.toNat % inputBuf) c, e := s.e + 1 }

/-- The characters from one index up to another one. -/
def between (i j : BitVec 32) : List Byte :=
  (List.range (j - i).toNat).map fun k => s.buf ((i + BitVec.ofNat 32 k).toNat % inputBuf)

/-- What is typed and not yet committed. -/
def pending : List Byte := s.between s.w s.e

end Input

/-! ## The functions -/

/-- The loop for `C('U')`; `n` is the number of characters between `w` and `e`, so that it ends before `n` rounds are over. -/
def killLine : ℕ → Input → Input
  | 0, s => s
  | n + 1, s =>
    if s.e ≠ s.w ∧ s.buf ((s.e - 1).toNat % inputBuf) ≠ newline then killLine n { s with e := s.e - 1 } else s

/-- A round of the loop of `consoleintr`. -/
def interpret (s : Input) (c : Byte) : Input :=
  if c = ctrlP then s
  else if c = ctrlU then killLine (s.e - s.w).toNat s
  else if c = ctrlH ∨ c = delete then
    if s.e ≠ s.w then { s with e := s.e - 1 } else s
  else if c ≠ 0#8 ∧ s.e - s.r < BitVec.ofNat 32 inputBuf then
    let c := if c = carriageReturn then newline else c
    let s := s.put c
    if c = newline ∨ c = ctrlD ∨ s.e = s.r + BitVec.ofNat 32 inputBuf then { s with w := s.e } else s
  else s

/-- `consoleintr`: `getc` gives these characters, and then a negative number. -/
def consoleintr (cs : List Byte) (s : Input) : Input := cs.foldl interpret s

inductive Outcome where
  | returns (r : ℤ)
  /-- it sleeps, with so much left to read -/
  | sleeps (n : ℕ)
  deriving DecidableEq

/-- A section of `consoleread`: the characters that are taken off the buffer, those that are stored at `dst`, the buffer,
and how the section ends. -/
structure Section where
  taken : List Byte
  dst : List Byte
  input : Input
  outcome : Outcome

def Section.after (c : Byte) (q : Section) : Section := { q with taken := c :: q.taken, dst := c :: q.dst }

/-- `consoleread` with `n` left to read, from the beginning of a round of its loop to the next `sleep` or `return`.
`killed` is `myproc()->killed`. -/
def consoleread (killed : Bool) (target : ℕ) : ℕ → Input → Section
  | 0, s => ⟨[], [], s, .returns target⟩
  | n + 1, s =>
    if s.r = s.w then ⟨[], [], s, if killed = true then .returns (-1) else .sleeps (n + 1)⟩
    else
      let c := s.front
      let s' := { s with r := s.r + 1 }
      if c = ctrlD then
        -- the `^D` is put back if there is something to return
        if n + 1 < target then ⟨[], [], { s' with r := s'.r - 1 }, .returns (target - (n + 1 : ℕ))⟩
        else ⟨[c], [], s', .returns (target - (n + 1 : ℕ))⟩
      else if c = newline then ⟨[c], [c], s', .returns (target - n)⟩
      else (consoleread killed target n s').after c

/-! ## Lines -/

/-- What the buffer knows of the past: a character was typed, or one was taken. -/
inductive Act where
  | key (c : Byte)
  | take
  deriving DecidableEq

/-- The lines that are committed, the one that is typed, and how many characters have been taken. -/
structure Lines where
  lines : List (List Byte)
  line : List Byte
  taken : ℕ

namespace Lines

variable (d : Lines)

/-- The number of characters in the buffer. -/
def held : ℕ := d.lines.flatten.length - d.taken + d.line.length

def commit : Lines := { d with lines := d.lines ++ [d.line], line := [] }

/-- A character is typed. -/
def key (c : Byte) : Lines :=
  if c = ctrlP then d
  else if c = ctrlU then { d with line := [] }
  else if c = ctrlH ∨ c = delete then { d with line := d.line.dropLast }
  else if c = 0#8 ∨ inputBuf ≤ d.held then d
  else
    let c := if c = carriageReturn then newline else c
    let d' := { d with line := d.line ++ [c] }
    if c = newline ∨ c = ctrlD ∨ d'.held = inputBuf then d'.commit else d'

def act : Act → Lines
  | .key c => d.key c
  | .take => { d with taken := d.taken + 1 }

end Lines

/-- The lines after what happened in the past. -/
def linesOf (past : List Act) : Lines := past.foldl Lines.act ⟨[], [], 0⟩

theorem linesOf_append (past more : List Act) : linesOf (past ++ more) = more.foldl Lines.act (linesOf past) :=
  List.foldl_append

/-! ## Steps -/

inductive Pc where
  | idle
  /-- in `consoleread` of `target` bytes, with `n` left -/
  | reading (target n : ℕ)
  deriving DecidableEq

structure State (ι : Type) where
  input : Input
  pc : ι → Pc
  /-- what has been typed and taken, in the order of the lock -/
  past : List Act
  /-- the characters taken -/
  consumed : List Byte

inductive Event (ι : Type) where
  | intr (cs : List Byte)
  | read (p : ι) (n : ℤ)
  | reading (p : ι) (killed : Bool)

variable {ι : Type} [DecidableEq ι]

/-- A section of a read of the process `p` has been run. -/
def State.ran (s : State ι) (p : ι) (target : ℕ) (q : Section) : State ι where
  input := q.input
  pc := Function.update s.pc p (match q.outcome with
    | .returns _ => .idle
    | .sleeps n => .reading target n)
  past := s.past ++ q.taken.map fun _ => .take
  consumed := s.consumed ++ q.taken

inductive Step (s : State ι) : Event ι → State ι → Prop
  | intr (cs : List Byte) :
      Step s (.intr cs) { s with input := consoleintr cs s.input, past := s.past ++ cs.map .key }
  -- nothing is read if `n` is not positive
  | read {p : ι} (n : ℤ) (hp : s.pc p = .idle) :
      Step s (.read p n) { s with pc := Function.update s.pc p (.reading n.toNat n.toNat) }
  | reading {p : ι} (killed : Bool) {target n : ℕ} (hp : s.pc p = .reading target n) :
      Step s (.reading p killed) (s.ran p target (consoleread killed target n s.input))

/-- At boot the indices are 0. -/
structure Start (s : State ι) : Prop where
  indices : s.input.r = 0 ∧ s.input.w = 0 ∧ s.input.e = 0
  pc : ∀ p, s.pc p = .idle
  past : s.past = [] ∧ s.consumed = []

def system (ι : Type) [DecidableEq ι] : System (State ι) (Event ι) where
  init := Start
  step := Step

/-! ## The buffer shows the lines -/

variable {s : Input} {consumed : List Byte} {d : Lines} {c : Byte}

/-- The indices and the cells, with the characters taken and the lines. -/
structure Shows (s : Input) (consumed : List Byte) (d : Lines) : Prop where
  r : s.r = BitVec.ofNat 32 consumed.length
  w : s.w = BitVec.ofNat 32 d.lines.flatten.length
  e : s.e = BitVec.ofNat 32 (d.lines.flatten.length + d.line.length)
  taken : d.taken = consumed.length
  le : consumed.length ≤ d.lines.flatten.length
  room : d.lines.flatten.length + d.line.length ≤ consumed.length + inputBuf
  cells : d.lines.flatten ++ d.line =
    consumed ++ contents inputBuf s.buf consumed.length (d.lines.flatten.length + d.line.length)

/-- The place of a character does not depend on how often the index has wrapped. -/
theorem cell_eq (k : ℕ) : (BitVec.ofNat 32 k).toNat % inputBuf = k % inputBuf := by
  exact Nat.mod_mod_of_dvd k (by decide)

theorem toNat_ofNat_sub {a b : ℕ} (hab : a ≤ b) (hb : b ≤ a + inputBuf) :
    (BitVec.ofNat 32 b - BitVec.ofNat 32 a).toNat = b - a := by
  rw [inputBuf] at hb
  rw [BitVec.toNat_sub, BitVec.toNat_ofNat, BitVec.toNat_ofNat]
  omega

theorem ofNat_succ_sub_one (k : ℕ) : BitVec.ofNat 32 (k + 1) - 1 = BitVec.ofNat 32 k := by
  rw [BitVec.ofNat_add]
  exact BitVec.add_sub_cancel ..

namespace Shows

theorem start (h : s.r = 0 ∧ s.w = 0 ∧ s.e = 0) : Shows s [] (linesOf []) where
  r := h.1
  w := h.2.1
  e := h.2.2
  taken := rfl
  le := le_rfl
  room := Nat.zero_le _
  cells := rfl

section

variable (h : Shows s consumed d)

include h

theorem held : d.held = d.lines.flatten.length + d.line.length - consumed.length := by
  have hle := h.le
  rw [Lines.held, h.taken]
  omega

theorem sub_w : (s.e - s.w).toNat = d.line.length := by
  have hroom := h.room
  have hle := h.le
  rw [h.e, h.w, toNat_ofNat_sub (Nat.le_add_right ..) (by omega), Nat.add_sub_cancel_left]

theorem sub_r : (s.e - s.r).toNat = d.held := by
  have hle := h.le
  rw [h.e, h.r, toNat_ofNat_sub (by omega) h.room, h.held]

theorem e_eq_w : s.e = s.w ↔ d.line = [] := by
  rw [← List.length_eq_zero_iff]
  constructor
  · intro heq
    rw [← h.sub_w, heq, BitVec.sub_self]
    rfl
  · intro hzero
    rw [h.e, h.w, hzero, Nat.add_zero]

/-- **A character is typed**, and there is room for it. -/
theorem put (hroom : d.held < inputBuf) (c : Byte) :
    Shows (s.put c) consumed { d with line := d.line ++ [c] } := by
  have hle := h.le
  have hlt : d.lines.flatten.length + d.line.length < consumed.length + inputBuf := by
    rw [h.held] at hroom
    omega
  have hcell : s.e.toNat % inputBuf = (d.lines.flatten.length + d.line.length) % inputBuf := by
    rw [h.e, cell_eq]
  have hlen : d.lines.flatten.length + (d.line ++ [c]).length = d.lines.flatten.length + d.line.length + 1 := by
    rw [List.length_append, List.length_singleton, Nat.add_assoc]
  refine ⟨h.r, h.w, ?_, h.taken, h.le, ?_, ?_⟩
  · show s.e + 1 = BitVec.ofNat 32 (d.lines.flatten.length + (d.line ++ [c]).length)
    rw [hlen, h.e, BitVec.ofNat_add _ 1]
    rfl
  · rw [hlen]
    exact hlt
  · show d.lines.flatten ++ (d.line ++ [c]) = consumed ++ contents inputBuf (update s.buf (s.e.toNat % inputBuf) c)
      consumed.length (d.lines.flatten.length + (d.line ++ [c]).length)
    rw [hlen, hcell, contents_push (by omega) (update_self ..), contents_store hlt, ← List.append_assoc,
      ← List.append_assoc, h.cells]

theorem commit : Shows { s with w := s.e } consumed d.commit := by
  have hflat : d.commit.lines.flatten = d.lines.flatten ++ d.line := by
    rw [Lines.commit, List.flatten_append, List.flatten_singleton]
  have hlen : d.commit.lines.flatten.length = d.lines.flatten.length + d.line.length := by
    rw [hflat, List.length_append]
  refine ⟨h.r, ?_, ?_, h.taken, ?_, ?_, ?_⟩
  · rw [hlen, h.e]
  · rw [hlen]
    exact h.e
  · rw [hlen]
    exact h.le.trans (Nat.le_add_right ..)
  · rw [hlen]
    exact h.room
  · rw [hlen, hflat]
    exact (List.append_nil _).trans h.cells

/-- A character is accepted, and with some the line is complete. -/
theorem accept (hroom : d.held < inputBuf) (c : Byte) :
    Shows (if c = newline ∨ c = ctrlD ∨ (s.put c).e = (s.put c).r + BitVec.ofNat 32 inputBuf
      then { s.put c with w := (s.put c).e } else s.put c) consumed
      (if c = newline ∨ c = ctrlD ∨ ({ d with line := d.line ++ [c] } : Lines).held = inputBuf
      then ({ d with line := d.line ++ [c] } : Lines).commit else { d with line := d.line ++ [c] }) := by
  have hput := h.put hroom c
  have hfull : (s.put c).e = (s.put c).r + BitVec.ofNat 32 inputBuf ↔
      ({ d with line := d.line ++ [c] } : Lines).held = inputBuf := by
    rw [← hput.sub_r]
    constructor
    · intro heq
      rw [heq, BitVec.add_comm, BitVec.add_sub_cancel]
      rfl
    · intro heq
      have hsub : (s.put c).e - (s.put c).r = BitVec.ofNat 32 inputBuf := BitVec.eq_of_toNat_eq heq
      rw [← hsub, BitVec.add_comm, BitVec.sub_add_cancel]
  simp only [hfull]
  split
  · exact hput.commit
  · exact hput

/-- **Backspace**: the last character of the line is gone. -/
theorem erase {line : List Byte} (hline : d.line = line ++ [c]) :
    Shows { s with e := s.e - 1 } consumed { d with line := line } ∧ s.buf ((s.e - 1).toNat % inputBuf) = c := by
  have hle := h.le
  have hroom := h.room
  have hlen : d.lines.flatten.length + d.line.length = d.lines.flatten.length + line.length + 1 := by
    rw [hline, List.length_append, List.length_singleton, Nat.add_assoc]
  have he : s.e - 1 = BitVec.ofNat 32 (d.lines.flatten.length + line.length) := by
    rw [h.e, hlen, ofNat_succ_sub_one]
  have hcells := h.cells
  rw [hlen, contents_push (by omega) rfl, hline, ← List.append_assoc, ← List.append_assoc] at hcells
  obtain ⟨hfront, hlast⟩ := List.append_inj' hcells rfl
  refine ⟨⟨h.r, h.w, he, h.taken, h.le, ?_, hfront⟩, ?_⟩
  · show d.lines.flatten.length + line.length ≤ _
    omega
  · rw [he, cell_eq]
    exact (List.singleton_inj.1 hlast).symm

end

/-- **Kill line**: the whole line is gone, since no newline stands in it. -/
theorem killLine (line : List Byte) (h : Shows s consumed { d with line := line }) (hplain : newline ∉ line) :
    Shows (killLine line.length s) consumed { d with line := [] } := by
  induction line using List.reverseRecOn generalizing s with
  | nil => exact h
  | append_singleton line c ih =>
    have hne : s.e ≠ s.w := by
      rw [Ne, h.e_eq_w]
      exact List.append_ne_nil_of_right_ne_nil _ (List.cons_ne_nil _ _)
    have hline : ({ d with line := line ++ [c] } : Lines).line = line ++ [c] := rfl
    obtain ⟨hshows, hc⟩ := h.erase hline
    rw [List.mem_append, List.mem_singleton, not_or] at hplain
    rw [List.length_append, List.length_singleton, Console.killLine, if_pos]
    · exact ih hshows hplain.1
    · rw [hc]
      exact ⟨hne, Ne.symm hplain.2⟩

/-- **A round of `consoleintr`** does to the line what the character says. -/
theorem interpret (h : Shows s consumed d) (hplain : newline ∉ d.line) (c : Byte) :
    Shows (interpret s c) consumed (d.key c) := by
  rw [Console.interpret, Lines.key]
  by_cases hp : c = ctrlP
  · rw [if_pos hp, if_pos hp]
    exact h
  rw [if_neg hp, if_neg hp]
  by_cases hu : c = ctrlU
  · rw [if_pos hu, if_pos hu, h.sub_w]
    exact killLine d.line h hplain
  rw [if_neg hu, if_neg hu]
  by_cases hb : c = ctrlH ∨ c = delete
  · rw [if_pos hb, if_pos hb]
    obtain hnil | ⟨line, x, hline⟩ := List.eq_nil_or_concat' d.line
    · rw [if_neg (not_not.2 (h.e_eq_w.2 hnil)), hnil, List.dropLast_nil]
      rw [← hnil]
      exact h
    · have hne : s.e ≠ s.w := by
        rw [Ne, h.e_eq_w, hline]
        exact List.append_ne_nil_of_right_ne_nil _ (List.cons_ne_nil _ _)
      rw [if_pos hne, hline, List.dropLast_concat]
      exact (h.erase hline).1
  rw [if_neg hb, if_neg hb]
  have hroom : s.e - s.r < BitVec.ofNat 32 inputBuf ↔ d.held < inputBuf := by
    rw [BitVec.lt_def, h.sub_r]
    rfl
  by_cases hacc : c = 0#8 ∨ inputBuf ≤ d.held
  · rw [if_pos hacc, if_neg]
    · exact h
    · rw [hroom]
      rintro ⟨h0, hlt⟩
      rcases hacc with h | h
      · exact h0 h
      · omega
  · obtain ⟨h0, hheld⟩ := not_or.1 hacc
    rw [if_neg hacc, if_pos ⟨h0, hroom.2 (not_le.1 hheld)⟩]
    exact h.accept (not_le.1 hheld) _

end Shows

/-- A newline ends the line. -/
theorem Lines.key_plain (hplain : newline ∉ d.line) (c : Byte) : newline ∉ (d.key c).line := by
  rw [Lines.key]
  generalize (if c = carriageReturn then newline else c) = x
  split_ifs with hp hu hb hacc
  · exact hplain
  · exact List.not_mem_nil
  · exact fun h => hplain (List.mem_of_mem_dropLast h)
  · exact hplain
  · show newline ∉ (if x = newline ∨ _ then _ else _ : Lines).line
    split_ifs with hends
    · exact List.not_mem_nil
    · rw [List.mem_append, List.mem_singleton, not_or]
      exact ⟨hplain, fun h => hends (Or.inl h.symm)⟩

/-- A section of `consoleintr`. -/
theorem Shows.intr (cs : List Byte) (h : Shows s consumed d) (hplain : newline ∉ d.line) :
    Shows (consoleintr cs s) consumed ((cs.map .key).foldl Lines.act d) ∧ newline ∉ ((cs.map .key).foldl Lines.act d).line := by
  induction cs generalizing s d with
  | nil => exact ⟨h, hplain⟩
  | cons c cs ih => exact ih (h.interpret hplain c) (Lines.key_plain hplain c)

/-! ## Reads -/

section Read

variable {killed : Bool} {target n : ℕ}

/-- A character is taken. -/
theorem Shows.take (h : Shows s consumed d) (hne : s.r ≠ s.w) :
    Shows { s with r := s.r + 1 } (consumed ++ [s.front]) (d.act .take) := by
  have hroom := h.room
  have hlt : consumed.length < d.lines.flatten.length := by
    refine lt_of_le_of_ne h.le fun heq => hne ?_
    rw [h.r, h.w, heq]
  have hlen : (consumed ++ [s.front]).length = consumed.length + 1 := List.length_append
  have hfront : s.front = s.buf (consumed.length % inputBuf) := by
    rw [Input.front, h.r, cell_eq]
  refine ⟨?_, h.w, h.e, ?_, ?_, ?_, ?_⟩
  · rw [hlen, h.r, BitVec.ofNat_add]
    rfl
  · show d.taken + 1 = _
    rw [hlen, h.taken]
  · rw [hlen]
    exact hlt
  · show d.lines.flatten.length + d.line.length ≤ _
    omega
  · have hcells := h.cells
    rw [contents_pop (by omega)] at hcells
    rw [hlen, List.append_assoc, hfront]
    exact hcells

/-- A round of the loop, with something to read. -/
theorem consoleread_succ (hne : s.r ≠ s.w) : consoleread killed target (n + 1) s =
    if s.front = ctrlD then
      if n + 1 < target then ⟨[], [], s, .returns (target - (n + 1 : ℕ))⟩
      else ⟨[ctrlD], [], { s with r := s.r + 1 }, .returns (target - (n + 1 : ℕ))⟩
    else if s.front = newline then ⟨[newline], [newline], { s with r := s.r + 1 }, .returns (target - n)⟩
    else (consoleread killed target n { s with r := s.r + 1 }).after s.front := by
  have hr : s.r + 1 - 1 = s.r := BitVec.add_sub_cancel ..
  rw [consoleread, if_neg hne]
  by_cases heof : s.front = ctrlD
  · simp only [heof, hr, ↓reduceIte]
  by_cases hnl : s.front = newline
  · have hne' : newline ≠ ctrlD := by decide
    simp only [hnl, hne', ↓reduceIte]
  · simp only [heof, hnl, ↓reduceIte]

/-- **A section of `consoleread`** takes characters off the front. -/
theorem Shows.read (n : ℕ) (h : Shows s consumed d) :
    Shows (consoleread killed target n s).input (consumed ++ (consoleread killed target n s).taken)
      (((consoleread killed target n s).taken.map fun _ => .take).foldl Lines.act d) := by
  induction n generalizing s consumed d with
  | zero =>
    rw [consoleread, List.append_nil]
    exact h
  | succ n ih =>
    by_cases hempty : s.r = s.w
    · rw [consoleread, if_pos hempty, List.append_nil]
      exact h
    have htake := h.take hempty
    rw [consoleread_succ hempty]
    split_ifs with heof hback hnl
    · rw [List.append_nil]
      exact h
    · rw [heof] at htake
      exact htake
    · rw [hnl] at htake
      exact htake
    · have hnext := ih htake
      rw [List.append_assoc] at hnext
      exact hnext

end Read

/-! ## Runs -/

variable {t t' : State ι} {a : Event ι}

structure Inv (t : State ι) : Prop where
  shows : Shows t.input t.consumed (linesOf t.past)
  plain : newline ∉ (linesOf t.past).line
  left : ∀ p target n, t.pc p = .reading target n → n ≤ target

theorem consoleread_sleeps {s : Input} {killed : Bool} {target n m : ℕ}
    (h : (consoleread killed target n s).outcome = .sleeps m) : m ≤ n := by
  induction n generalizing s with
  | zero => cases h
  | succ n ih =>
    by_cases hempty : s.r = s.w
    · rw [consoleread, if_pos hempty] at h
      cases killed with
      | true => cases h
      | false => exact (Outcome.sleeps.inj h).ge
    rw [consoleread_succ hempty] at h
    split_ifs at h
    exact Nat.le_succ_of_le (ih h)

theorem takes_line {l : List Byte} : ((l.map fun _ => .take).foldl Lines.act d).line = d.line := by
  induction l generalizing d with
  | nil => rfl
  | cons c l ih => exact ih

theorem left_update {pc : ι → Pc} {p : ι} {v : Pc} (h : ∀ p target n, pc p = .reading target n → n ≤ target)
    (hv : ∀ target n, v = .reading target n → n ≤ target) :
    ∀ p' target n, update pc p v p' = .reading target n → n ≤ target := by
  intro p' target n hp'
  by_cases heq : p' = p
  · rw [heq, update_self] at hp'
    exact hv target n hp'
  · rw [update_of_ne heq] at hp'
    exact h p' target n hp'

theorem Inv.step (h : Inv t) (hs : Step t a t') : Inv t' := by
  cases hs with
  | intr cs =>
    obtain ⟨hshows, hplain⟩ := h.shows.intr cs h.plain
    refine ⟨?_, ?_, h.left⟩
    · rw [linesOf_append]
      exact hshows
    · rw [linesOf_append]
      exact hplain
  | @read p n hp =>
    refine ⟨h.shows, h.plain, left_update h.left fun target m hm => ?_⟩
    obtain ⟨rfl, rfl⟩ := Pc.reading.inj hm
    exact le_rfl
  | @reading p killed target n hp =>
    refine ⟨?_, ?_, left_update h.left fun target' m hm => ?_⟩
    · show Shows _ _ (linesOf (t.past ++ _))
      rw [linesOf_append]
      exact h.shows.read n
    · show newline ∉ (linesOf (t.past ++ _)).line
      rw [linesOf_append, takes_line]
      exact h.plain
    · cases hout : (consoleread killed target n t.input).outcome with
      | returns v =>
        rw [hout] at hm
        cases hm
      | sleeps k =>
        rw [hout] at hm
        obtain ⟨rfl, rfl⟩ := Pc.reading.inj hm
        exact (consoleread_sleeps hout).trans (h.left p target n hp)

theorem Inv.reach (h : (system ι).Reach (fun _ _ => True) t) : Inv t := by
  refine h.invariant (fun t ht => ?_) fun t a t' hinv _ hs => hinv.step hs
  refine ⟨?_, ?_, fun p target n hp => ?_⟩
  · rw [ht.past.1, ht.past.2]
    exact Shows.start ht.indices
  · rw [ht.past.1]
    exact List.not_mem_nil
  · rw [ht.pc] at hp
    cases hp

/-- Before anything is typed. -/
def booted : State Unit := ⟨⟨fun _ => 0#8, 0, 0, 0⟩, fun _ => .idle, [], []⟩

end OsLab.Xv6.Console
