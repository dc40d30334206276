import OsLab.Jos.Mmu
import OsLab.Lib.RingBuffer
import OsLab.Lib.Run

/-!
# Pipes: `lib/pipe.c`

`devpipe_read` and `devpipe_write` of one reader and one writer that share the page of a pipe, with
every access to the page a step of its own, and every interleaving of the two.  What
`_pipeisclosed` answers is left open.

* `devpipe_fifo_iff`: the pipe is a bounded queue exactly as long as no more than 2^31 + 1 bytes are
  put into it;
* `devpipe_stray`: the store of the next byte is outside the buffer, because the remainder of a
  negative position is negative.
-/

namespace OsLab.Jos

open RingBuffer Function

/-! ## The code -/

abbrev Byte := BitVec 8

/-- `PIPEBUFSIZ`. -/
def pipebufsiz : ℕ := 32

/-- `struct Pipe`. -/
structure Pipe where
  rpos : Word
  wpos : Word
  buf : ℕ → Byte

namespace Pipe

/-- `pos % PIPEBUFSIZ`, for a position of type `off_t`. -/
def index (pos : Word) : ℤ := pos.toInt.tmod pipebufsiz

/-- The index of an element of `p_buf`. -/
def Inside (i : ℤ) : Prop := 0 ≤ i ∧ i < pipebufsiz

instance (i : ℤ) : Decidable (Inside i) := inferInstanceAs (Decidable (_ ∧ _))

/-- `p->p_rpos == p->p_wpos`. -/
def Empty (p : Pipe) : Prop := p.rpos = p.wpos

instance (p : Pipe) : Decidable p.Empty := inferInstanceAs (Decidable (_ = _))

/-- `p->p_wpos >= p->p_rpos + sizeof(p->p_buf)`.  `sizeof` makes the comparison unsigned. -/
def Full (p : Pipe) : Prop := p.rpos + BitVec.ofNat 32 pipebufsiz ≤ p.wpos

instance (p : Pipe) : Decidable p.Full := inferInstanceAs (Decidable (_ ≤ _))

end Pipe

/-- Where `devpipe_write` is: between calls, at the test of its inner loop with the bytes that
are still to be written, before storing a byte, and before counting it. -/
inductive Writer where
  | idle
  | test (rest : List Byte)
  | store (b : Byte) (rest : List Byte)
  | bump (b : Byte) (rest : List Byte)

/-- Where `devpipe_read` is, for `n` bytes of which it has `got`. -/
inductive Reader where
  | idle
  | test (n : ℕ) (got : List Byte)
  | take (n : ℕ) (got : List Byte)
  | bump (n : ℕ) (got : List Byte)

/-- The pipe with its two users; `accepted` are the bytes writes have put into the pipe, `returned`
those that completed reads have returned. -/
structure PipeWorld where
  pipe : Pipe
  writer : Writer
  reader : Reader
  accepted : List Byte
  returned : List Byte

/-- A step of the writer or of the reader; `closed` is what `_pipeisclosed` answers if the step
calls it. -/
inductive PipeStep where
  | write (bytes : List Byte)
  | wtest (closed : Bool)
  | wstore
  | wbump
  | read (n : ℕ)
  | rtest (closed : Bool)
  | rtake
  | rbump

namespace PipeWorld

/-- A step of `devpipe_write`. -/
def writerStep (s : PipeWorld) : PipeStep → Option PipeWorld
  | .write bytes =>
    match s.writer with
    | .idle => some { s with writer := .test bytes }
    | _ => none
  | .wtest closed =>
    match s.writer with
    | .test [] => some { s with writer := .idle }
    | .test (b :: rest) =>
      if s.pipe.Full then
        -- closed: return 0; otherwise yield and look again
        some { s with writer := if closed then .idle else .test (b :: rest) }
      else some { s with writer := .store b rest }
    | _ => none
  | .wstore =>
    match s.writer with
    | .store b rest =>
      -- a store outside the buffer is the end of what can be said
      if Pipe.Inside (Pipe.index s.pipe.wpos) then
        some { s with
          pipe := { s.pipe with
            buf := Function.update s.pipe.buf (Pipe.index s.pipe.wpos).toNat b }
          writer := .bump b rest }
      else none
    | _ => none
  | .wbump =>
    match s.writer with
    | .bump b rest =>
      some { s with
        pipe := { s.pipe with wpos := s.pipe.wpos + 1#32 }
        writer := .test rest
        accepted := s.accepted ++ [b] }
    | _ => none
  | _ => none

/-- A step of `devpipe_read`. -/
def readerStep (s : PipeWorld) : PipeStep → Option PipeWorld
  | .read n =>
    match s.reader with
    | .idle => some { s with reader := .test n [] }
    | _ => none
  | .rtest closed =>
    match s.reader with
    | .test n got =>
      if got.length = n then some { s with reader := .idle, returned := s.returned ++ got }
      else if s.pipe.Empty then
        if got ≠ [] then some { s with reader := .idle, returned := s.returned ++ got }
        else some { s with reader := if closed then .idle else .test n got }
      else some { s with reader := .take n got }
    | _ => none
  | .rtake =>
    match s.reader with
    | .take n got =>
      if Pipe.Inside (Pipe.index s.pipe.rpos) then
        some { s with
          reader := .bump n (got ++ [s.pipe.buf (Pipe.index s.pipe.rpos).toNat]) }
      else none
    | _ => none
  | .rbump =>
    match s.reader with
    | .bump n got =>
      some { s with
        pipe := { s.pipe with rpos := s.pipe.rpos + 1#32 }
        reader := .test n got }
    | _ => none
  | _ => none

def step (s : PipeWorld) (a : PipeStep) : Option PipeWorld := s.writerStep a <|> s.readerStep a

end PipeWorld

/-- A pipe as `pipe` makes it: the page is new, so it is zero. -/
def newPipe : PipeWorld := ⟨⟨0#32, 0#32, fun _ => 0#8⟩, .idle, .idle, [], []⟩

/-- Any interleaving of the writer's and the reader's steps. -/
def pipeSystem : System PipeWorld PipeStep where
  init s := s = newPipe
  step s a s' := s.step a = some s'

/-! ## The queue -/

namespace PipeWorld

/-- The number of bytes that are in the pipe or that the writer has begun to store. -/
def begun (s : PipeWorld) : ℕ :=
  s.accepted.length + match s.writer with
    | .store _ _ | .bump _ _ => 1
    | _ => 0

/-- What a queue of `PIPEBUFSIZ` bytes does. -/
structure Fifo (s : PipeWorld) : Prop where
  order : s.returned <+: s.accepted
  room : (s.pipe.wpos - s.pipe.rpos).toNat ≤ pipebufsiz
  store_inside : ∀ b rest, s.writer = .store b rest → Pipe.Inside (Pipe.index s.pipe.wpos)
  take_inside : ∀ n got, s.reader = .take n got → Pipe.Inside (Pipe.index s.pipe.rpos)

end PipeWorld

/-! ### Positions as numbers -/

namespace Pipe

theorem index_ofNat {w : ℕ} (hw : w ≤ 2 ^ 31) : index (BitVec.ofNat 32 w) = (w % pipebufsiz : ℕ) := by
  rw [index]
  rcases hw.lt_or_eq with h | rfl
  · have hnat : (BitVec.ofNat 32 w).toNat = w := by
      exact Nat.mod_eq_of_lt (by omega)
    rw [BitVec.toInt_eq_toNat_of_lt (by omega), hnat]
    rfl
  · decide

theorem index_stray : index (BitVec.ofNat 32 (2 ^ 31 + 1)) = -31 := by decide

theorem inside_index_iff {w : ℕ} (hw : w ≤ 2 ^ 31 + 1) :
    Inside (index (BitVec.ofNat 32 w)) ↔ w ≤ 2 ^ 31 := by
  rcases hw.lt_or_eq with h | rfl
  · have hw' : w ≤ 2 ^ 31 := Nat.lt_succ_iff.1 h
    rw [index_ofNat hw']
    have hmod := Nat.mod_lt w (show 0 < pipebufsiz by decide)
    exact iff_of_true ⟨by omega, by omega⟩ hw'
  · exact iff_of_false (by decide) (by omega)

variable {p : Pipe} {r w : ℕ}

section

variable (hr : p.rpos = BitVec.ofNat 32 r) (hw : p.wpos = BitVec.ofNat 32 w) (hle : r ≤ w) (hbound : w ≤ 2 ^ 31 + 1)

include hr hw hle hbound

theorem full_iff : p.Full ↔ r + pipebufsiz ≤ w := by
  rw [Full, hr, hw, pipebufsiz, BitVec.le_def, BitVec.toNat_add, BitVec.toNat_ofNat,
    BitVec.toNat_ofNat, BitVec.toNat_ofNat]
  omega

theorem empty_iff : p.Empty ↔ r = w := by
  rw [Empty, hr, hw]
  constructor
  · intro h
    have := congrArg BitVec.toNat h
    rw [BitVec.toNat_ofNat, BitVec.toNat_ofNat] at this
    omega
  · rintro rfl
    rfl

end

end Pipe

/-! ### What every step keeps -/

namespace Reader

/-- The bytes the current read has. -/
def got : Reader → List Byte
  | .idle => []
  | .test _ got | .take _ got | .bump _ got => got

/-- The number of bytes that are taken but not counted. -/
def pending : Reader → ℕ
  | .bump _ _ => 1
  | _ => 0

end Reader

namespace PipeWorld

variable {s s' : PipeWorld} {r : ℕ} {a : PipeStep}

/-- What the writer knows: there is room for its byte, and after the store the byte is there. -/
def WriterOk (s : PipeWorld) (r : ℕ) : Prop :=
  match s.writer with
  | .store _ _ => s.accepted.length < r + pipebufsiz
  | .bump b _ => s.accepted.length < r + pipebufsiz ∧ s.accepted.length ≤ 2 ^ 31 ∧
      s.pipe.buf (s.accepted.length % pipebufsiz) = b
  | _ => True

/-- What the reader knows: there is a byte to take. -/
def ReaderOk (s : PipeWorld) (r : ℕ) : Prop :=
  match s.reader with
  | .take _ _ | .bump _ _ => r < s.accepted.length
  | _ => True

/-- `r` bytes have left the pipe; those in the buffer are the accepted ones from there on. -/
structure Queue (s : PipeWorld) (r : ℕ) : Prop where
  wpos : s.pipe.wpos = BitVec.ofNat 32 s.accepted.length
  rpos : s.pipe.rpos = BitVec.ofNat 32 r
  le : r ≤ s.accepted.length
  room : s.accepted.length ≤ r + pipebufsiz
  bound : s.accepted.length ≤ 2 ^ 31 + 1
  cells : contents pipebufsiz s.pipe.buf r s.accepted.length = s.accepted.drop r
  left : s.returned ++ s.reader.got = s.accepted.take (r + s.reader.pending)
  writer : s.WriterOk r
  reader : s.ReaderOk r

/-- The oldest byte in the buffer. -/
theorem Queue.oldest (h : s.Queue r) (hr : r < s.accepted.length) :
    s.accepted.take (r + 1) = s.accepted.take r ++ [s.pipe.buf (r % pipebufsiz)] := by
  have hcells := h.cells
  rw [contents_pop hr, List.drop_eq_getElem_cons hr] at hcells
  rw [List.take_succ_eq_append_getElem hr, (List.cons.inj hcells).1]

/-- **A step of the writer keeps the queue.** -/
theorem Queue.writerStep (h : s.Queue r) (ha : s.writerStep a = some s') :
    s'.Queue r := by
  cases a with
  | write bytes =>
    cases hw : s.writer with
    | idle =>
      simp only [PipeWorld.writerStep, hw, Option.some.injEq] at ha
      subst ha
      exact { h with writer := trivial, reader := h.reader }
    | _ => simp [PipeWorld.writerStep, hw] at ha
  | wtest closed =>
    cases hw : s.writer with
    | test rest =>
      cases rest with
      | nil =>
        simp only [PipeWorld.writerStep, hw, Option.some.injEq] at ha
        subst ha
        exact { h with writer := trivial, reader := h.reader }
      | cons b rest =>
        simp only [PipeWorld.writerStep, hw] at ha
        split at ha
        · obtain rfl := Option.some.inj ha
          refine { h with writer := ?_, reader := h.reader }
          cases closed <;> trivial
        · rename_i hfull
          obtain rfl := Option.some.inj ha
          rw [Pipe.full_iff h.rpos h.wpos h.le h.bound] at hfull
          exact { h with writer := show _ < _ from Nat.lt_of_not_le hfull, reader := h.reader }
    | _ => simp [PipeWorld.writerStep, hw] at ha
  | wstore =>
    cases hw : s.writer with
    | store b rest =>
      simp only [PipeWorld.writerStep, hw] at ha
      split at ha
      · rename_i hin
        obtain rfl := Option.some.inj ha
        have hroom := h.writer
        rw [WriterOk, hw] at hroom
        rw [h.wpos, Pipe.inside_index_iff h.bound] at hin
        have hix : (Pipe.index s.pipe.wpos).toNat = s.accepted.length % pipebufsiz := by
          rw [h.wpos, Pipe.index_ofNat hin, Int.toNat_natCast]
        refine { h with cells := ?_, writer := ⟨hroom, hin, ?_⟩, reader := h.reader }
        · rw [hix, contents_store hroom]
          exact h.cells
        · show update s.pipe.buf _ b _ = b
          rw [hix, update_self]
      · cases ha
    | _ => simp [PipeWorld.writerStep, hw] at ha
  | wbump =>
    cases hw : s.writer with
    | bump b rest =>
      simp only [PipeWorld.writerStep, hw, Option.some.injEq] at ha
      subst ha
      have hok := h.writer
      rw [WriterOk, hw] at hok
      obtain ⟨hroom, hle, hb⟩ := hok
      have hlen : (s.accepted ++ [b]).length = s.accepted.length + 1 := by simp
      have hpend : r + s.reader.pending ≤ s.accepted.length := by
        have hrd := h.reader
        rw [ReaderOk] at hrd
        cases hr : s.reader with
        | bump n got => rw [hr] at hrd; exact hrd
        | _ => exact h.le
      refine ⟨?_, h.rpos, ?_, ?_, ?_, ?_, ?_, trivial, ?_⟩
      · rw [hlen, h.wpos, BitVec.ofNat_add]
      · rw [hlen]; exact Nat.le_succ_of_le h.le
      · rw [hlen]; exact hroom
      · rw [hlen]; exact Nat.succ_le_succ hle
      · rw [hlen, contents_push h.le hb, h.cells, List.drop_append_of_le_length h.le]
      · rw [h.left, List.take_append_of_le_length hpend]
      · have hrd := h.reader
        rw [ReaderOk] at hrd ⊢
        cases hr : s.reader with
        | take | bump => rw [hr] at hrd; simp only [hlen]; exact Nat.lt_succ_of_lt hrd
        | _ => trivial
    | _ => simp [PipeWorld.writerStep, hw] at ha
  | _ => simp [PipeWorld.writerStep] at ha

/-- **A step of the reader keeps the queue**, of which it may remove a byte. -/
theorem Queue.readerStep (h : s.Queue r) (ha : s.readerStep a = some s') :
    ∃ r', s'.Queue r' := by
  have hleft := h.left
  cases a with
  | read n =>
    cases hr : s.reader with
    | idle =>
      simp only [PipeWorld.readerStep, hr, Option.some.injEq] at ha
      subst ha
      rw [hr] at hleft
      exact ⟨r, { h with left := hleft, writer := h.writer, reader := trivial }⟩
    | _ => simp [PipeWorld.readerStep, hr] at ha
  | rtest closed =>
    cases hr : s.reader with
    | test n got =>
      rw [hr] at hleft
      have hdone : ({ s with reader := .idle, returned := s.returned ++ got } : PipeWorld).Queue r :=
        { h with left := (List.append_nil _).trans hleft, writer := h.writer, reader := trivial }
      simp only [PipeWorld.readerStep, hr] at ha
      split at ha
      · obtain rfl := Option.some.inj ha
        exact ⟨r, hdone⟩
      · split at ha
        · split at ha
          · obtain rfl := Option.some.inj ha
            exact ⟨r, hdone⟩
          · rename_i hgot
            obtain rfl := Option.some.inj ha
            rw [not_not] at hgot
            refine ⟨r, { h with left := ?_, writer := h.writer, reader := ?_ }⟩
            · rw [hgot] at hleft
              cases closed
              · rw [hgot]; exact hleft
              · exact hleft
            · cases closed <;> trivial
        · rename_i hempty
          obtain rfl := Option.some.inj ha
          rw [Pipe.empty_iff h.rpos h.wpos h.le h.bound] at hempty
          have hlt : r < s.accepted.length := lt_of_le_of_ne h.le hempty
          exact ⟨r, { h with left := hleft, writer := h.writer, reader := hlt }⟩
    | _ => simp [PipeWorld.readerStep, hr] at ha
  | rtake =>
    cases hr : s.reader with
    | take n got =>
      rw [hr] at hleft
      have hlt := h.reader
      rw [ReaderOk, hr] at hlt
      simp only [PipeWorld.readerStep, hr] at ha
      split at ha
      · obtain rfl := Option.some.inj ha
        have hle := h.bound
        have hix : (Pipe.index s.pipe.rpos).toNat = r % pipebufsiz := by
          rw [h.rpos, Pipe.index_ofNat (by omega), Int.toNat_natCast]
        refine ⟨r, { h with left := ?_, writer := h.writer, reader := hlt }⟩
        show s.returned ++ (got ++ [_]) = s.accepted.take (r + 1)
        rw [hix, h.oldest hlt, ← List.append_assoc]
        exact congrArg (· ++ _) hleft
      · cases ha
    | _ => simp [PipeWorld.readerStep, hr] at ha
  | rbump =>
    cases hr : s.reader with
    | bump n got =>
      rw [hr] at hleft
      have hlt := h.reader
      rw [ReaderOk, hr] at hlt
      simp only [PipeWorld.readerStep, hr, Option.some.injEq] at ha
      subst ha
      refine ⟨r + 1, ⟨h.wpos, ?_, hlt, ?_, h.bound, ?_, hleft, ?_, trivial⟩⟩
      · rw [h.rpos, BitVec.ofNat_add]
      · exact h.room.trans (by omega)
      · have hcells := h.cells
        rw [contents_pop hlt, List.drop_eq_getElem_cons hlt] at hcells
        exact (List.cons.inj hcells).2
      · have hw := h.writer
        rw [WriterOk] at hw ⊢
        cases hwr : s.writer with
        | store b rest => rw [hwr] at hw; exact Nat.lt_of_lt_of_le hw (by omega)
        | bump b rest => rw [hwr] at hw; exact ⟨Nat.lt_of_lt_of_le hw.1 (by omega), hw.2⟩
        | _ => trivial
    | _ => simp [PipeWorld.readerStep, hr] at ha
  | _ => simp [PipeWorld.readerStep] at ha

/-- The states of a queue, and the one in which the store goes astray. -/
theorem Queue.fifo_iff (h : s.Queue r) : s.Fifo ↔ s.begun ≤ 2 ^ 31 + 1 := by
  have horder : s.returned <+: s.accepted :=
    (List.prefix_append _ _).trans (h.left ▸ List.take_prefix _ _)
  have hroom : (s.pipe.wpos - s.pipe.rpos).toNat ≤ pipebufsiz := by
    have hle := h.le
    have hroom := h.room
    rw [h.wpos, h.rpos, BitVec.toNat_sub, BitVec.toNat_ofNat, BitVec.toNat_ofNat]
    omega
  have htake : ∀ n got, s.reader = .take n got → Pipe.Inside (Pipe.index s.pipe.rpos) := by
    intro n got hr
    have hlt := h.reader
    have hbound := h.bound
    rw [ReaderOk, hr] at hlt
    rw [h.rpos]
    exact (Pipe.inside_index_iff (by omega)).2 (by omega)
  have hstore : (∀ b rest, s.writer = .store b rest → Pipe.Inside (Pipe.index s.pipe.wpos)) ↔
      s.begun ≤ 2 ^ 31 + 1 := by
    have hbound := h.bound
    rw [h.wpos, Pipe.inside_index_iff hbound, begun]
    have hw := h.writer
    rw [WriterOk] at hw
    cases hwr : s.writer with
    | store b rest =>
      exact ⟨fun hin => Nat.succ_le_succ (hin b rest rfl), fun hle _ _ _ => Nat.le_of_succ_le_succ hle⟩
    | bump b rest =>
      rw [hwr] at hw
      exact iff_of_true nofun (Nat.succ_le_succ hw.2.1)
    | _ => exact iff_of_true nofun hbound
  exact ⟨fun hf => hstore.1 hf.store_inside, fun hb => ⟨horder, hroom, hstore.2 hb, htake⟩⟩

end PipeWorld

theorem newPipe_queue : newPipe.Queue 0 where
  wpos := rfl
  rpos := rfl
  le := Nat.le_refl 0
  room := Nat.zero_le _
  bound := Nat.zero_le _
  cells := contents_self
  left := rfl
  writer := trivial
  reader := trivial

/-- In every run the accepted bytes that have not left are those in the buffer. -/
theorem reach_queue {s : PipeWorld} (h : pipeSystem.Reach (fun _ _ => True) s) : ∃ r, s.Queue r := by
  refine h.invariant (I := fun s => ∃ r, s.Queue r) (fun s hs => ⟨0, hs ▸ newPipe_queue⟩) ?_
  rintro s a s' ⟨r, hq⟩ _ ha
  rcases (Option.orElse_eq_some _ _ _).1 ha with hw | ⟨_, hr⟩
  · exact ⟨r, hq.writerStep hw⟩
  · exact hq.readerStep hr

/-- **A pipe is a FIFO for its first 2^31 + 1 bytes, and no longer.**  In every state of every
interleaving, what reads have returned is a prefix of what writes have put in, at most
`PIPEBUFSIZ` bytes are in the pipe and the buffer is indexed within its bounds, if and only if the
writer has not begun to store more bytes than that. -/
theorem devpipe_fifo_iff (s : PipeWorld) (h : pipeSystem.Reach (fun _ _ => True) s) :
    s.Fifo ↔ s.begun ≤ 2 ^ 31 + 1 := by
  obtain ⟨r, hq⟩ := reach_queue h
  exact hq.fifo_iff

/-! ### Runs -/

namespace PipeWorld

/-- Several steps. -/
def steps (s : PipeWorld) : List PipeStep → Option PipeWorld
  | [] => some s
  | a :: as => (s.step a).bind fun s' => s'.steps as

theorem reach_steps {s s' : PipeWorld} {as : List PipeStep}
    (h : pipeSystem.Reach (fun _ _ => True) s) (hs : s.steps as = some s') :
    pipeSystem.Reach (fun _ _ => True) s' := by
  induction as generalizing s with
  | nil => exact Option.some.inj hs ▸ h
  | cons a as ih =>
    obtain ⟨s1, h1, h2⟩ := Option.bind_eq_some_iff.1 hs
    exact ih (h.step trivial h1) h2

/-- Nobody is in a call and the pipe is empty after `n` bytes. -/
structure Rests (n : ℕ) (s : PipeWorld) : Prop where
  writer : s.writer = .idle
  reader : s.reader = .idle
  wpos : s.pipe.wpos = BitVec.ofNat 32 n
  rpos : s.pipe.rpos = BitVec.ofNat 32 n
  length : s.accepted.length = n

variable {s : PipeWorld} {n : ℕ}

theorem Rests.not_full (h : s.Rests n) (hn : n ≤ 2 ^ 31 + 1) : ¬ s.pipe.Full := by
  rw [Pipe.full_iff h.rpos h.wpos (Nat.le_refl _) hn, pipebufsiz]
  omega

/-- A byte is about to be stored. -/
theorem Rests.write (h : s.Rests n) (hn : n ≤ 2 ^ 31 + 1) (b : Byte) :
    s.steps [.write [b], .wtest false] = some { s with writer := .store b [] } := by
  simp [steps, step, writerStep, h.writer, h.not_full hn]

/-- A byte is written and then read. -/
def pass (b : Byte) : List PipeStep :=
  [.write [b], .wtest false, .wstore, .wbump, .wtest false,
    .read 1, .rtest false, .rtake, .rbump, .rtest false]

theorem Rests.pass (h : s.Rests n) (hn : n ≤ 2 ^ 31) (b : Byte) :
    ∃ s', s.steps (pass b) = some s' ∧ s'.Rests (n + 1) := by
  have hfull := h.not_full (Nat.le_succ_of_le hn)
  obtain ⟨⟨rpos, wpos, buf⟩, writer, reader, accepted, returned⟩ := s
  obtain ⟨hw, hr, hwpos, hrpos, hlen⟩ := h
  subst hw hr hwpos hrpos
  have hin := (Pipe.inside_index_iff (Nat.le_succ_of_le hn)).2 hn
  have hempty : ∀ buf, ¬ (⟨BitVec.ofNat 32 n, BitVec.ofNat 32 n + 1#32, buf⟩ : Pipe).Empty := fun buf => by
    rw [Pipe.Empty]
    bv_omega
  refine ⟨⟨⟨BitVec.ofNat 32 n + 1#32, BitVec.ofNat 32 n + 1#32,
    update buf (Pipe.index (BitVec.ofNat 32 n)).toNat b⟩, .idle, .idle, accepted ++ [b],
    returned ++ [b]⟩, ?_, rfl, rfl, ?_, ?_, ?_⟩
  · simp [PipeWorld.pass, steps, step, writerStep, readerStep, hfull, hempty, hin]
  · exact (BitVec.ofNat_add n 1).symm
  · exact (BitVec.ofNat_add n 1).symm
  · rw [List.length_append, hlen]
    rfl

theorem exists_rests (n : ℕ) (hn : n ≤ 2 ^ 31 + 1) :
    ∃ s, pipeSystem.Reach (fun _ _ => True) s ∧ s.Rests n := by
  induction n with
  | zero => exact ⟨newPipe, .init rfl, rfl, rfl, rfl, rfl, rfl⟩
  | succ n ih =>
    obtain ⟨s, hs, h⟩ := ih (Nat.le_of_succ_le hn)
    obtain ⟨s', hsteps, h'⟩ := h.pass (Nat.le_of_succ_le_succ hn) 0#8
    exact ⟨s', reach_steps hs hsteps, h'⟩

end PipeWorld

/-- After one byte has gone through the pipe, another is about to be stored. -/
theorem devpipe_fifo_iff_second : ∃ s : PipeWorld,
    pipeSystem.Reach (fun _ _ => True) s ∧ s.accepted.length = 1 ∧ s.begun = 2 ∧ s.Fifo := by
  obtain ⟨s, hs, h⟩ := PipeWorld.exists_rests 1 (by decide)
  have hreach := PipeWorld.reach_steps hs (h.write (by decide) 7#8)
  have hbegun : ({ s with writer := .store 7#8 [] } : PipeWorld).begun = 2 :=
    congrArg (· + 1) h.length
  exact ⟨_, hreach, h.length, hbegun, (devpipe_fifo_iff _ hreach).2 (by rw [hbegun]; decide)⟩

/-- **After 2^31 + 1 bytes the next one is stored at `p_buf[-31]`.** -/
theorem devpipe_stray : ∃ s : PipeWorld, pipeSystem.Reach (fun _ _ => True) s ∧
    (∃ b rest, s.writer = .store b rest) ∧ Pipe.index s.pipe.wpos = -31 ∧ ¬ s.Fifo := by
  obtain ⟨s, hs, h⟩ := PipeWorld.exists_rests (2 ^ 31 + 1) (Nat.le_refl _)
  have hindex : Pipe.index s.pipe.wpos = -31 := by
    rw [h.wpos]
    exact Pipe.index_stray
  refine ⟨_, PipeWorld.reach_steps hs (h.write (Nat.le_refl _) 7#8), ⟨_, _, rfl⟩, hindex, fun hf => ?_⟩
  have hin := hf.store_inside _ _ rfl
  rw [hindex] at hin
  exact absurd hin.1 (by decide)

end OsLab.Jos
