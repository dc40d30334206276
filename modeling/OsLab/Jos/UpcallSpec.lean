import OsLab.Jos.Upcall

/-!
# The round trip of a page fault

A fault, the upcall, the handler and whatever faults come in between, from the trapped
instruction back to it.

* `Visit.run_fine`, `Visits.run_fine`, `Handler.handles`: by mutual recursion on the faults of a
  visit, every stage of the upcall leaves the frame it still has to read;
* `upcall_round_trip`: the program resumes with all its registers, and memory is changed only by
  handlers and where it was free;
* `lea_fault_loops`: a fault at `lea`, the one place where the return address lies below the
  stack pointer, makes the upcall go round forever.
-/

namespace OsLab.Jos.Pfentry

open Bytes Function

/-! ## What a fault may change -/

namespace Cpu

/-- The stack pointer is on the exception stack. -/
def Inside (s : Cpu) : Prop := uxstack < s.reg .esp ∧ s.reg .esp < uxstacktop

instance (s : Cpu) : Decidable s.Inside := inferInstanceAs (Decidable (_ ∧ _))

/-- The end of the frame of a fault in the state `s`, and of the word above it. -/
def stacktop (s : Cpu) : Word := if s.Inside then s.reg .esp else uxstacktop

theorem utr_eq (s : Cpu) (f : Fault) : s.utr f = s.stacktop - 56#32 := rfl

end Cpu

/-- The bytes a fault may change besides those the handler writes: the exception stack below
its frame, and `4 * low` bytes below the stack pointer if this is another stack. -/
def Scratch (low : ℕ) (s : Cpu) (x : Word) : Prop :=
  (uxstack ≤ x ∧ x < s.stacktop) ∨
    ¬ s.Inside ∧ x < s.reg .esp ∧ (s.reg .esp).toNat ≤ x.toNat + 4 * low

/-- `s'` is `s` again after a fault: all registers, and memory up to what the fault may change and
the bytes `l` that handlers wrote.  What is in use of the exception stack is as it was. -/
structure Restored (low : ℕ) (l : List (Word × BitVec 8)) (s s' : Cpu) : Prop where
  reg : s'.reg = s.reg
  eip : s'.eip = s.eip
  eflags : s'.eflags = s.eflags
  mem : ∀ x, ¬ Scratch low s x → s'.mem x = writes s.mem l x
  live : s.Inside → ∀ x, s.reg .esp ≤ x → x < uxstacktop → s'.mem x = s.mem x

mutual

/-- The bytes that handlers write during a fault. -/
def Visit.wrote : Visit → List (Word × BitVec 8)
  | .mk _ at_ h =>
    [0, 1, 2].flatMap (fun i => (at_ i).wrote) ++ h.wrote ++
      [3, 4, 5, 6, 7].flatMap (fun i => (at_ i).wrote) ++
      [8, 9, 10, 11, 12, 13].flatMap (fun i => (at_ i).wrote)

def Visits.wrote : Visits → List (Word × BitVec 8)
  | .nil => []
  | .cons v vs => v.wrote ++ vs.wrote

def Handler.wrote : Handler → List (Word × BitVec 8)
  | .ret a => a.wrote
  | .act a h => a.wrote ++ h.wrote
  | .fault v h => v.wrote ++ h.wrote

end

mutual

/-- How many words below the stack pointer a fault uses: one, and those of the faults at `ret`. -/
def Visit.low : Visit → ℕ
  | .mk _ at_ _ => (at_ 13).low + 1

def Visits.low : Visits → ℕ
  | .nil => 0
  | .cons v vs => max v.low vs.low

end

mutual

/-- No fault comes at the instruction `lea`. -/
def Visit.SparesLea : Visit → Prop
  | .mk _ at_ h => at_ 12 = .nil ∧ (∀ i < 14, (at_ i).SparesLea) ∧ h.SparesLea

def Visits.SparesLea : Visits → Prop
  | .nil => True
  | .cons v vs => v.SparesLea ∧ vs.SparesLea

def Handler.SparesLea : Handler → Prop
  | .ret _ => True
  | .act _ h => h.SparesLea
  | .fault v h => v.SparesLea ∧ h.SparesLea

end

/-! ## Outcomes -/

/-- The run ends in a state with `P`, or stops for a reason in `E`. -/
inductive Fine (E : Stop → Prop) (P : Cpu → Prop) : Except Stop Cpu → Prop where
  | ok {s : Cpu} (h : P s) : Fine E P (.ok s)
  | error {e : Stop} (h : E e) : Fine E P (.error e)

variable {E : Stop → Prop} {P Q : Cpu → Prop} {r : Except Stop Cpu} {m : Word}

theorem Fine.bind {g : Cpu → Except Stop Cpu} (h : Fine E Q r)
    (hg : ∀ s, Q s → Fine E P (g s)) : Fine E P (r >>= g) := by
  cases h with
  | ok h => exact hg _ h
  | error h => exact .error h

theorem Fine.mono (h : Fine E Q r) (hi : ∀ s, Q s → P s) : Fine E P r := by
  cases h with
  | ok h => exact .ok (hi _ h)
  | error h => exact .error h

/-! ## Flags -/

theorem addFlags_and (a b : Word) : addFlags a b &&& ~~~arithFlags = 0#32 := by
  unfold addFlags flagIf
  split_ifs <;> decide

theorem and_not_popMask_iopl (e : Word) (hm : m = userFlags ∨ m = userFlags ||| flIf) :
    (e &&& ~~~m) &&& flIopl3 = e &&& flIopl3 := by
  rw [BitVec.and_assoc]
  rcases hm with rfl | rfl <;> rfl

theorem popMask_cases (e : Word) : popMask e = userFlags ∨ popMask e = userFlags ||| flIf := by
  unfold popMask
  split
  · exact Or.inr rfl
  · exact Or.inl rfl

/-- The flags user mode cannot change decide which flags it can. -/
theorem popMask_congr {e e' : Word} (h : e' &&& ~~~popMask e = e &&& ~~~popMask e) :
    popMask e' = popMask e := by
  have hiopl : e' &&& flIopl3 = e &&& flIopl3 := by
    rw [← and_not_popMask_iopl e' (popMask_cases e), h, and_not_popMask_iopl e (popMask_cases e)]
  rw [popMask, popMask, hiopl]

/-- Arithmetic changes neither flags of the kernel nor `TF` and `AC`. -/
theorem addl_flags (e a b : Word)
    (hm : m = ~~~userFlags ∨ m = ~~~(userFlags ||| flIf) ∨ m = flTf ||| flAc) :
    ((e &&& ~~~arithFlags) ||| addFlags a b) &&& m = e &&& m := by
  have hsub : ~~~arithFlags &&& m = m := by rcases hm with rfl | rfl | rfl <;> rfl
  have hadd : addFlags a b &&& m = 0#32 := by
    rw [← hsub, ← BitVec.and_assoc, addFlags_and, BitVec.zero_and]
  rw [BitVec.and_or_distrib_right, hadd, BitVec.or_zero, BitVec.and_assoc, hsub]

/-- **`popfl` brings the flags back.** -/
theorem popfl_flags {e e' : Word} (h : e' &&& ~~~popMask e = e &&& ~~~popMask e) :
    (e' &&& ~~~popMask e') ||| (e &&& popMask e') = e := by
  rw [popMask_congr h, h, ← BitVec.and_or_distrib_left, BitVec.or_comm, BitVec.or_not_self,
    BitVec.and_allOnes]

/-! ## The room on the exception stack -/

theorem uxstack_toNat : uxstack.toNat = 4005556224 := by decide
theorem uxstacktop_toNat : uxstacktop.toNat = 4005560320 := by decide

variable {t s s' : Cpu} {F b : Word} {f : Fault} {x w : Word} {pins : List Word} {lo low n lo' low' k : ℕ}
  {l ws : List (Word × BitVec 8)} {p : Upcall} {before : ℕ → Cpu → Except Stop Cpu} {i : Instr} {is : List ℕ}
  {h : Handler}

/-- The frame at `F` of a fault in the state `t` fits on the exception stack. -/
structure Room (t : Cpu) (F : Word) : Prop where
  top : F.toNat + 56 = t.stacktop.toNat
  low : uxstack.toNat + 8 < F.toNat
  le : t.stacktop.toNat ≤ uxstacktop.toNat
  inside : t.Inside → t.stacktop = t.reg .esp
  outside : ¬ t.Inside → t.stacktop = uxstacktop ∧
    ((t.reg .esp).toNat ≤ uxstack.toNat ∨ uxstacktop.toNat ≤ (t.reg .esp).toNat)

theorem Cpu.stacktop_le (s : Cpu) : s.stacktop.toNat ≤ uxstacktop.toNat := by
  unfold Cpu.stacktop
  split
  · exact Nat.le_of_lt (BitVec.lt_def.1 (‹s.Inside›).2)
  · exact le_rfl

theorem Cpu.lt_stacktop (s : Cpu) : uxstack.toNat < s.stacktop.toNat := by
  unfold Cpu.stacktop
  split
  · exact BitVec.lt_def.1 (‹s.Inside›).1
  · decide

theorem Room.of_utr (h : ¬ t.utr f ≤ uxstack + 8#32) : Room t (t.utr f) := by
  have h2 := t.lt_stacktop
  rw [uxstack_toNat] at h2
  have hlow : (uxstack + 8#32).toNat < (t.stacktop - 56#32).toNat := Nat.lt_of_not_le h
  have hsub : (t.stacktop - 56#32).toNat + 56 = t.stacktop.toNat := by bv_omega
  refine ⟨hsub, by rw [uxstack_toNat]; exact hlow, t.stacktop_le, fun hin => if_pos hin, fun hout => ⟨if_neg hout, ?_⟩⟩
  by_contra hno
  rw [not_or, Nat.not_le, Nat.not_le] at hno
  exact hout hno

/-- Offsets from the frame are on the exception stack. -/
theorem Room.inside_of (hr : Room t F) (he : s.reg .esp = F + BitVec.ofNat 32 k) (hk : k ≤ 52) :
    s.Inside ∧ (s.reg .esp).toNat = F.toNat + k := by
  have hlow := hr.low
  have htop := hr.top
  have hle := hr.le
  have hnat : (s.reg .esp).toNat = F.toNat + k := by
    bv_omega
  exact ⟨⟨BitVec.lt_def.2 (by omega), BitVec.lt_def.2 (by omega)⟩, hnat⟩

/-- The pinned words are neither on the free part of the exception stack nor below the stack
pointer. -/
def PinsOk (pins : List Word) (s : Cpu) : Prop :=
  ∀ w ∈ pins, ∀ x, (x - w).toNat < 4 → ¬ (uxstack ≤ x ∧ x < s.stacktop) ∧ (¬ s.Inside → s.reg .esp ≤ x)

/-- A state in which a fault can be handled. -/
structure Ready (pins : List Word) (s : Cpu) : Prop where
  quiet : s.eflags &&& (flTf ||| flAc) = 0#32
  mapped : s.writable (pgnum uxstack) = true
  pins : PinsOk pins s

/-- `Restored`, with what the code that was interrupted relies on. -/
structure Undisturbed (pins : List Word) (low : ℕ) (l : List (Word × BitVec 8)) (s s' : Cpu) : Prop
    extends Restored low l s s' where
  pins : ∀ w ∈ pins, ∀ x, (x - w).toNat < 4 → s'.mem x = s.mem x
  mapped : s'.writable (pgnum uxstack) = true

/-- On the way through the upcall for a fault in `t` whose frame is at `F`: the words of the frame from
`lo` on are there, handlers have written `ws`, and nothing else is changed that must not be. -/
structure Course (t : Cpu) (f : Fault) (F : Word) (pins : List Word) (low : ℕ)
    (ws : List (Word × BitVec 8)) (lo : ℕ) (s : Cpu) : Prop where
  room : Room t F
  clear : PinsOk pins t
  frame : ∀ i w, lo ≤ i → (utrapframe f.va (t.trapframe f))[i]? = some w →
    load s.mem (F + BitVec.ofNat 32 (4 * i)) = w
  mem : ∀ x, ¬ Scratch low t x → s.mem x = writes t.mem ws x
  live : t.Inside → ∀ x, t.reg .esp ≤ x → x < uxstacktop → s.mem x = t.mem x
  pins : ∀ w ∈ pins, ∀ x, (x - w).toNat < 4 → s.mem x = t.mem x
  flags : s.eflags &&& ~~~popMask t.eflags = t.eflags &&& ~~~popMask t.eflags
  quiet : s.eflags &&& (flTf ||| flAc) = 0#32
  mapped : s.writable (pgnum uxstack) = true

theorem lt_of_frame {i : ℕ} (h : (utrapframe f.va (t.trapframe f))[i]? = some w) : i < 13 :=
  (List.getElem?_eq_some_iff.1 h).1

/-- The words of the frame from `lo` on are kept if their bytes are. -/
theorem Course.frame_of (h : Course t f F pins low ws lo s) (hlo : lo ≤ lo')
    (hsame : ∀ x : Word, F.toNat + 4 * lo' ≤ x.toNat → x.toNat < F.toNat + 52 → s'.mem x = s.mem x) :
    ∀ i w, lo' ≤ i → (utrapframe f.va (t.trapframe f))[i]? = some w →
      load s'.mem (F + BitVec.ofNat 32 (4 * i)) = w := by
  intro i w hi hw
  rw [← h.frame i w (hlo.trans hi) hw]
  have h13 := lt_of_frame hw
  have htop := h.room.top
  refine load_congr fun j hj => hsame _ ?_ ?_ <;> bv_omega

/-- Memory is left as it is, or changed only where a fault may change it. -/
theorem Course.frame_step (h : Course t f F pins low ws lo s) (hlo : lo ≤ lo')
    (hsame : ∀ x, s'.mem x ≠ s.mem x → uxstack ≤ x ∧ x.toNat < F.toNat + 4 * lo')
    (hlo' : lo' ≤ 13)
    (hflags : s'.eflags &&& ~~~popMask t.eflags = s.eflags &&& ~~~popMask t.eflags)
    (hquiet : s'.eflags &&& (flTf ||| flAc) = 0#32) (hmapped : s'.writable = s.writable) :
    Course t f F pins low ws lo' s' := by
  have htop := h.room.top
  have hT : ∀ x, uxstack ≤ x ∧ x.toNat < F.toNat + 4 * lo' → uxstack ≤ x ∧ x < t.stacktop :=
    fun x hx => ⟨hx.1, BitVec.lt_def.2 (by omega)⟩
  refine ⟨h.room, h.clear, h.frame_of hlo fun x h1 _ => ?_, fun x hx => ?_, fun hin x h1 h2 => ?_,
    fun w hw x hx => ?_, hflags.trans h.flags, hquiet, by rw [hmapped]; exact h.mapped⟩
  · by_contra hne
    have := (hsame x hne).2
    omega
  · rw [← h.mem x hx]
    by_contra hne
    exact hx (Or.inl (hT x (hsame x hne)))
  · rw [← h.live hin x h1 h2]
    by_contra hne
    have h3 := (hT x (hsame x hne)).2
    rw [h.room.inside hin] at h3
    exact absurd h1 (by rw [BitVec.not_le]; exact h3)
  · rw [← h.pins w hw x hx]
    by_contra hne
    exact (h.clear w hw x hx).1 (hT x (hsame x hne))

/-- Whatever runs on the part of the exception stack that is free, a fault in `s` is handled. -/
theorem Course.ready (h : Course t f F pins low ws lo s) (hin : s.Inside)
    (hesp : (s.reg .esp).toNat ≤ F.toNat + 52) : Ready pins s := by
  have htop := h.room.top
  refine ⟨h.quiet, h.mapped, fun w hw x hx => ⟨fun hx' => (h.clear w hw x hx).1 ⟨hx'.1, ?_⟩, fun h => absurd hin h⟩⟩
  have h1 := hx'.2
  rw [Cpu.stacktop, if_pos hin] at h1
  have h2 : x.toNat < (s.reg .esp).toNat := h1
  exact BitVec.lt_def.2 (by omega)

/-- A fault on the way. -/
theorem Course.nest {pins' : List Word} (h : Course t f F pins low ws lo s)
    (hin : s.Inside) (hesp : (s.reg .esp).toNat ≤ F.toNat + 4 * lo)
    (hesp' : (s.reg .esp).toNat ≤ F.toNat + 52) (hu : Undisturbed pins' low' l s s')
    (hsub : ∀ w ∈ pins, w ∈ pins') : Course t f F pins low (ws ++ l) lo s' := by
  have htop := h.room.top
  have hle := h.room.le
  refine ⟨h.room, h.clear, h.frame_of le_rfl fun x h1 h2 => hu.live hin x (BitVec.le_def.2 (by omega))
      (BitVec.lt_def.2 (by omega)), fun x hx => ?_, fun hin' x h1 h2 => ?_,
    fun w hw x hx => (hu.pins w (hsub w hw) x hx).trans (h.pins w hw x hx),
    by rw [hu.eflags]; exact h.flags, by rw [hu.eflags]; exact h.quiet, hu.mapped⟩
  · rw [hu.mem x fun hsc => hx ?_, writes_append]
    · exact writes_congr (h.mem x hx)
    · rcases hsc with ⟨h1, h2⟩ | ⟨hno, -⟩
      · rw [Cpu.stacktop, if_pos hin] at h2
        have h3 : x.toNat < (s.reg .esp).toNat := h2
        exact Or.inl ⟨h1, BitVec.lt_def.2 (by omega)⟩
      · exact absurd hin hno
  · rw [← h.live hin' x h1 h2]
    have h3 : (t.reg .esp).toNat ≤ x.toNat := h1
    rw [← h.room.inside hin'] at h3
    exact hu.live hin x (BitVec.le_def.2 (by omega)) h2

/-! ## One instruction -/

theorem exec_writable (i : Instr) (s : Cpu) : (i.exec s).writable = s.writable := by
  cases i <;> rfl

theorem pushl_reg {r : Reg} :
    ((Instr.pushl r).exec s).reg = update s.reg .esp (s.reg .esp - 4#32) := rfl

theorem movlAbs_reg {a : Word} {r : Reg} :
    ((Instr.movlAbs a r).exec s).reg = update s.reg r (load s.mem a) := rfl

theorem call_reg {r : Reg} :
    ((Instr.call r).exec s).reg = update s.reg .esp (s.reg .esp - 4#32) := rfl

theorem addl_reg {a : Word} {r : Reg} :
    ((Instr.addl a r).exec s).reg = update s.reg r (s.reg r + a) := rfl

theorem movlLoad_reg {a : Word} {b r : Reg} :
    ((Instr.movlLoad a b r).exec s).reg = update s.reg r (load s.mem (s.reg b + a)) := rfl

theorem popfl_reg :
    (Instr.popfl.exec s).reg = update s.reg .esp (s.reg .esp + 4#32) := rfl

theorem popl_reg {r : Reg} : ((Instr.popl r).exec s).reg =
    update (update s.reg .esp (s.reg .esp + 4#32)) r (load s.mem (s.reg .esp)) := rfl

theorem lea_reg {a : Word} {b r : Reg} :
    ((Instr.lea a b r).exec s).reg = update s.reg r (s.reg b + a) := rfl

theorem ret_reg :
    (Instr.ret.exec s).reg = update s.reg .esp (s.reg .esp + 4#32) := rfl

theorem exec_mem (h : i.stores s = []) : (i.exec s).mem = s.mem := by
  cases i <;> first | rfl | cases h

theorem exec_eip (hc : ∀ r, i ≠ .call r) (hr : i ≠ .ret) :
    (i.exec s).eip = s.eip + BitVec.ofNat 32 i.size := by
  cases i with
  | call r => exact absurd rfl (hc r)
  | ret => exact absurd rfl hr
  | _ => rfl

theorem exec_flags (hi : i ≠ .popfl)
    (hm : m = ~~~userFlags ∨ m = ~~~(userFlags ||| flIf) ∨ m = flTf ||| flAc) :
    (i.exec s).eflags &&& m = s.eflags &&& m := by
  cases i with
  | popfl => exact absurd rfl hi
  | addl n r => exact addl_flags _ _ _ hm
  | _ => rfl

theorem Cpu.not_alarm (hq : s.eflags &&& (flTf ||| flAc) = 0#32) : ¬ s.Alarm i := by
  have hsub : ∀ m, (flTf ||| flAc) &&& m = m → s.eflags &&& m = 0#32 := fun m hm => by
    rw [← hm, ← BitVec.and_assoc, hq, BitVec.zero_and]
  rintro (h | ⟨h, -⟩)
  · exact h (hsub _ rfl)
  · exact h (hsub _ rfl)

theorem offset_eq (heip : s.eip = p.entry + BitVec.ofNat 32 n) (hn : n < 2 ^ 32) :
    (s.eip - p.entry).toNat = n := by
  rw [heip, add_sub_self, BitVec.toNat_ofNat, Nat.mod_eq_of_lt hn]

/-- The instruction at offset `n` is executed. -/
theorem Cpu.step_ok (heip : s.eip = p.entry + BitVec.ofNat 32 n)
    (hf : fetch (pgfaultUpcall p.handler) n = some i) (hn : n < 2 ^ 32)
    (hq : s.eflags &&& (flTf ||| flAc) = 0#32) (hd : ¬ s.Denied i) : s.step p = .ok (i.exec s) := by
  rw [Cpu.step, offset_eq heip hn, hf]
  simp only
  rw [if_neg (Cpu.not_alarm hq), if_neg hd]

theorem Cpu.step_denied (heip : s.eip = p.entry + BitVec.ofNat 32 n)
    (hf : fetch (pgfaultUpcall p.handler) n = some i) (hn : n < 2 ^ 32)
    (hq : s.eflags &&& (flTf ||| flAc) = 0#32) (hd : s.Denied i) : s.step p = .error .denied := by
  rw [Cpu.step, offset_eq heip hn, hf]
  simp only
  rw [if_neg (Cpu.not_alarm hq), if_pos hd]

theorem Cpu.canWrite_uxstack (hm : s.writable (pgnum uxstack) = true) (h1 : uxstack.toNat ≤ x.toNat)
    (h2 : x.toNat < uxstacktop.toNat) : s.CanWrite x := by
  refine ⟨BitVec.lt_def.2 h2, ?_⟩
  rw [uxstack_toNat] at h1
  rw [uxstacktop_toNat] at h2
  have hpg : pgnum x = pgnum uxstack := by
    have h3 : pgnum uxstack = 977919 := by decide
    rw [pgnum, BitVec.toNat_ushiftRight]
    omega
  rw [hpg]
  exact hm

/-- A store to the exception stack. -/
theorem Cpu.not_denied (hst : i.stores s = [b]) (hm : s.writable (pgnum uxstack) = true)
    (h1 : uxstack.toNat ≤ b.toNat) (h2 : b.toNat + 4 ≤ uxstacktop.toNat) : ¬ s.Denied i := by
  rintro ⟨a, ha, j, hj, hno⟩
  rw [hst, List.mem_singleton] at ha
  subst ha
  have hadd : (a + BitVec.ofNat 32 j).toNat = a.toNat + j := by
    bv_omega
  exact hno (Cpu.canWrite_uxstack hm (by omega) (by omega))

/-- At offset `n` of the upcall. -/
structure Spot (p : Upcall) (t : Cpu) (f : Fault) (F : Word) (pins : List Word) (low : ℕ)
    (ws : List (Word × BitVec 8)) (lo n : ℕ) (s : Cpu) : Prop extends Course t f F pins low ws lo s where
  eip : s.eip = p.entry + BitVec.ofNat 32 n

theorem popMask_mask (e : Word) :
    ~~~popMask e = ~~~userFlags ∨ ~~~popMask e = ~~~(userFlags ||| flIf) ∨ ~~~popMask e = flTf ||| flAc := by
  rcases popMask_cases e with h | h <;> rw [h]
  · exact Or.inl rfl
  · exact Or.inr (Or.inl rfl)

/-- The next instruction, if it changes memory only where the stack is free. -/
theorem Spot.exec (h : Spot p t f F pins low ws lo n s) (hc : ∀ r, i ≠ .call r) (hret : i ≠ .ret)
    (hpop : i ≠ .popfl) (hlo : lo ≤ lo') (hlo' : lo' ≤ 13)
    (hsame : ∀ x, (i.exec s).mem x ≠ s.mem x → uxstack ≤ x ∧ x.toNat < F.toNat + 4 * lo') :
    Spot p t f F pins low ws lo' (n + i.size) (i.exec s) := by
  refine ⟨h.toCourse.frame_step hlo hsame hlo' (exec_flags hpop (popMask_mask _)) ?_ (exec_writable i s), ?_⟩
  · rw [exec_flags hpop (Or.inr (Or.inr rfl))]
    exact h.quiet
  · rw [exec_eip hc hret, h.eip, BitVec.add_assoc, ← BitVec.ofNat_add]

/-- The next instruction, if it does not store. -/
theorem Spot.read (h : Spot p t f F pins low ws lo n s)
    (hf : fetch (pgfaultUpcall p.handler) n = some i) (hn : n < 2 ^ 32)
    (hst : i.stores s = []) (hret : i ≠ .ret) (hpop : i ≠ .popfl) (hlo : lo ≤ lo') (hlo' : lo' ≤ 13) :
    s.step p = .ok (i.exec s) ∧ Spot p t f F pins low ws lo' (n + i.size) (i.exec s) := by
  refine ⟨Cpu.step_ok h.eip hf hn h.quiet ?_, h.exec (fun r hi => ?_) hret hpop hlo hlo' fun x hx => ?_⟩
  · rintro ⟨a, ha, -⟩
    rw [hst] at ha
    cases ha
  · rw [hi] at hst
    cases hst
  · rw [exec_mem hst] at hx
    exact absurd rfl hx

/-! ## The kernel's part -/

theorem stored_lt {m : Mem} (hk : b.toNat + 4 ≤ k) (hk' : k ≤ 2 ^ 32)
    (hx : store m b w x ≠ m x) : b.toNat ≤ x.toNat ∧ x.toNat < k := by
  have hnear : (x - b).toNat < 4 := Nat.lt_of_not_le fun hfar => hx (store_of_far hfar)
  have := (dist_lt_iff (n := 4) (by omega)).1 hnear
  omega

/-- **`page_fault_handler`** with a frame that fits. -/
theorem pageFault_fine (low : ℕ) (hr : Room t (t.utr f)) (hready : Ready pins t) :
    Fine E (fun s => Spot p t f (t.utr f) pins low [] 0 0 s ∧ s.reg = update t.reg .esp (t.utr f))
      (t.pageFault p f) := by
  have htop := hr.top
  have hlow := hr.low
  have hle := hr.le
  have hcan : ∀ j < utrapframeRoom.toNat, t.CanWrite (t.utr f + BitVec.ofNat 32 j) := fun j hj => by
    have hj' : j < 56 := hj
    refine Cpu.canWrite_uxstack hready.mapped ?_ ?_
    · bv_omega
    · bv_omega
  rw [Cpu.pageFault, if_pos hcan]
  have hfar : ∀ x : Word, ¬ (uxstack ≤ x ∧ x < t.stacktop) →
      storeWords t.mem (t.utr f) (utrapframe f.va (t.trapframe f)) x = t.mem x := fun x hx => by
    refine storeWords_of_far (Nat.le_of_not_lt fun hnear => hx ?_)
    have h1 := (dist_lt_iff (n := 52) (by omega)).1 hnear
    exact ⟨BitVec.le_def.2 (by omega), BitVec.lt_def.2 (by omega)⟩
  refine .ok ⟨⟨⟨hr, hready.pins, fun i w _ hw => load_storeWords (show 4 * 13 < 2 ^ 32 by decide) hw, fun x hx => ?_,
    fun hin x h1 h2 => ?_, fun w hw x hx => ?_, rfl, hready.quiet, hready.mapped⟩, (BitVec.add_zero _).symm⟩, rfl⟩
  · exact hfar x fun hx' => hx (Or.inl hx')
  · refine hfar x fun hx' => ?_
    have h3 := hx'.2
    rw [hr.inside hin] at h3
    exact absurd h1 (BitVec.not_le.2 h3)
  · exact hfar x (hready.pins w hw x hx).1

/-! ## The instructions before the handler -/

theorem stage {R : Cpu → Prop} {i : ℕ}
    (hb : Fine E Q (before i s)) (hs : ∀ s', Q s' → Fine E R (s'.step p))
    (hr : ∀ s', R s' → Fine E P (stages p before is s')) : Fine E P (stages p before (i :: is) s) :=
  hb.bind fun s' h' => (hs s' h').bind hr

/-- The faults `vs`, one after another, are handled. -/
def Served (p : Upcall) (E : Stop → Prop) (vs : Visits) : Prop :=
  ∀ pins s, Ready pins s → Fine E (Undisturbed pins vs.low vs.wrote s) (vs.run p pins s)

section Stages

variable {at_ : ℕ → Visits} {a : Action}

/-- The faults at an instruction of the upcall. -/
theorem Spot.visits {i : ℕ} (hat : Served p E (at_ i))
    (h : Spot p t f F pins low ws lo n s) (hin : s.Inside)
    (hesp : (s.reg .esp).toNat ≤ F.toNat + 4 * lo) (hesp' : (s.reg .esp).toNat ≤ F.toNat + 52) :
    Fine E (fun s' => Spot p t f F pins low (ws ++ (at_ i).wrote) lo n s' ∧ s'.reg = s.reg)
      ((at_ i).run p pins s) :=
  (hat pins s (h.ready hin hesp')).mono fun _ hu =>
    ⟨⟨h.nest hin hesp hesp' hu fun _ hw => hw, hu.eip.trans h.eip⟩, hu.reg⟩

/-- The faults there, with the stack pointer at an offset from the frame. -/
theorem Spot.visitsAt {i : ℕ} (hat : Served p E (at_ i)) (h : Spot p t f F pins low ws lo n s)
    (he : s.reg .esp = F + BitVec.ofNat 32 k) (hk : k ≤ 4 * lo) (hk' : k ≤ 52) :
    Fine E (fun s' => Spot p t f F pins low (ws ++ (at_ i).wrote) lo n s' ∧ s'.reg = s.reg)
      ((at_ i).run p pins s) := by
  obtain ⟨hin, hnat⟩ := h.room.inside_of he hk'
  exact h.visits hat hin (by omega) (by omega)

/-- An instruction that does not store, after the faults there. -/
theorem stage_read {i : ℕ} {ins : Instr}
    (hb : Fine E (fun s' => Spot p t f F pins low ws lo n s' ∧ Q s') (before i s))
    (hf : fetch (pgfaultUpcall p.handler) n = some ins) (hn : n < 2 ^ 32) (hst : ∀ s, ins.stores s = [])
    (hret : ins ≠ .ret) (hpop : ins ≠ .popfl) (hlo : lo ≤ lo') (hlo' : lo' ≤ 13)
    (hnext : ∀ s', Q s' → Course t f F pins low ws lo s' →
      Spot p t f F pins low ws lo' (n + ins.size) (ins.exec s') →
      Fine E P (stages p before is (ins.exec s'))) :
    Fine E P (stages p before (i :: is) s) := by
  refine stage (R := fun s1 => ∃ s', s1 = ins.exec s' ∧ Q s' ∧ Course t f F pins low ws lo s' ∧
      Spot p t f F pins low ws lo' (n + ins.size) (ins.exec s')) hb (fun s' h' => ?_) ?_
  · obtain ⟨hstep, hspot⟩ := h'.1.read hf hn (hst s') hret hpop hlo hlo'
    rw [hstep]
    exact .ok ⟨s', rfl, h'.2, h'.1.toCourse, hspot⟩
  · rintro _ ⟨s', rfl, hq, h1, h2⟩
    exact hnext s' hq h1 h2

/-- In the handler: the stack pointer is below the return address. -/
structure Called (p : Upcall) (t : Cpu) (f : Fault) (F : Word) (pins : List Word) (low : ℕ)
    (ws : List (Word × BitVec 8)) (s : Cpu) : Prop extends Course t f F pins low ws 0 s where
  inside : uxstack < s.reg .esp
  below : s.reg .esp ≤ F - 8#32
  back : load s.mem (F - 8#32) = p.entry + 8#32

/-- **The upcall calls the handler.** -/
theorem Spot.called (hat : ∀ i < 12, Served p E (at_ i))
    (h : Spot p t f F pins low ws 0 0 s) (hesp : s.reg .esp = F) :
    Fine E (Called p t f F pins low (ws ++ [0, 1, 2].flatMap fun i => (at_ i).wrote))
      (stages p (fun i => (at_ i).run p pins) [0, 1, 2] s) := by
  have htop := h.room.top
  have hlow := h.room.low
  have hle := h.room.le
  have hF4 : (F - 4#32).toNat = F.toNat - 4 := by bv_omega
  have hF8 : (F - 8#32).toNat = F.toNat - 8 := by bv_omega
  have hin : ∀ {s : Cpu}, s.reg .esp = F ∨ s.reg .esp = F - 4#32 → s.Inside := by
    rintro s (he | he) <;> refine ⟨BitVec.lt_def.2 ?_, BitVec.lt_def.2 ?_⟩ <;>
      simp only [he] <;> omega
  -- `pushl %esp`
  refine stage (R := fun s' => Spot p t f F pins low (ws ++ (at_ 0).wrote) 0 1 s' ∧ s'.reg .esp = F - 4#32)
    (h.visits (hat 0 (by decide)) (hin (Or.inl hesp)) (by rw [hesp]; omega) (by rw [hesp]; omega))
    (fun s1 h1 => ?_) fun s2 h2 => ?_
  · obtain ⟨h1, hreg⟩ := h1
    have hesp1 : s1.reg .esp = F := by rw [hreg, hesp]
    have hst : (Instr.pushl .esp).stores s1 = [F - 4#32] := by rw [Instr.stores, hesp1]
    rw [Cpu.step_ok h1.eip rfl (by decide) h1.quiet (Cpu.not_denied hst h1.mapped
      (by omega) (by omega))]
    refine .ok ⟨h1.exec (i := .pushl .esp) nofun nofun nofun le_rfl (by decide) fun x hx => ?_, ?_⟩
    · have := stored_lt (b := s1.reg .esp - 4#32) (k := F.toNat) (by rw [hesp1]; omega) (by omega) hx
      rw [hesp1] at this
      exact ⟨BitVec.le_def.2 (by omega), by omega⟩
    · rw [pushl_reg, update_self, hesp1]
  -- `movl _pgfault_handler, %eax`
  obtain ⟨h2, hesp2⟩ := h2
  refine stage_read (h2.visits (hat 1 (by decide)) (hin (Or.inr hesp2)) (by rw [hesp2]; omega)
    (by rw [hesp2]; omega)) rfl (by decide)
    (fun _ => rfl) nofun nofun le_rfl (by decide) fun s1 hreg1 _ h3 => ?_
  have h3 : Spot p t f F pins low (ws ++ (at_ 0).wrote ++ (at_ 1).wrote) 0 6
      ((Instr.movlAbs p.handler .eax).exec s1) := h3
  have hesp3 : ((Instr.movlAbs p.handler .eax).exec s1).reg .esp = F - 4#32 := by
    rw [movlAbs_reg, update_of_ne (by decide), hreg1, hesp2]
  -- `call *%eax`
  refine stage (R := Called p t f F pins low (ws ++ [0, 1, 2].flatMap fun i => (at_ i).wrote))
    (h3.visits (hat 2 (by decide)) (hin (Or.inr hesp3)) (by rw [hesp3]; omega) (by rw [hesp3]; omega)) (fun s1 h1 => ?_) fun s4 h4 => .ok h4
  obtain ⟨h1, hreg⟩ := h1
  have hesp1 : s1.reg .esp - 4#32 = F - 8#32 := by
    rw [hreg]
    bv_omega
  have hst : (Instr.call .eax).stores s1 = [F - 8#32] := by rw [Instr.stores, hesp1]
  rw [Cpu.step_ok h1.eip rfl (by decide) h1.quiet (Cpu.not_denied hst h1.mapped
    (by omega) (by omega))]
  have hreg1 : ((Instr.call .eax).exec s1).reg .esp = F - 8#32 := by
    rw [call_reg, update_self, hesp1]
  have hmem1 : ((Instr.call .eax).exec s1).mem = store s1.mem (F - 8#32) (p.entry + 8#32) := by
    show store s1.mem (s1.reg .esp - 4#32) (s1.eip + BitVec.ofNat 32 2) = _
    rw [hesp1, h1.eip, BitVec.add_assoc]
    rfl
  have hws : ws ++ [0, 1, 2].flatMap (fun i => (at_ i).wrote) =
      ws ++ (at_ 0).wrote ++ (at_ 1).wrote ++ (at_ 2).wrote := by
    simp only [List.flatMap_cons, List.flatMap_nil, List.append_nil, List.append_assoc]
  rw [hws]
  refine .ok ⟨h1.toCourse.frame_step le_rfl (fun x hx => ?_) (by decide) rfl h1.quiet rfl, ?_, ?_, ?_⟩
  · rw [hmem1] at hx
    have := stored_lt (k := F.toNat) (by omega) (by omega) hx
    exact ⟨BitVec.le_def.2 (by omega), by omega⟩
  · rw [hreg1]
    exact BitVec.lt_def.2 (by omega)
  · rw [hreg1]
    exact BitVec.le_refl _
  · rw [hmem1, load_store]

/-! ## The handler -/

theorem Called.esp_lt (h : Called p t f F pins low ws s) : s.Inside ∧ (s.reg .esp).toNat + 8 ≤ F.toNat := by
  have hlow := h.room.low
  have htop := h.room.top
  have hle := h.room.le
  have hbelow : (s.reg .esp).toNat ≤ (F - 8#32).toNat := h.below
  have hF8 : (F - 8#32).toNat = F.toNat - 8 := by bv_omega
  exact ⟨⟨h.inside, BitVec.lt_def.2 (by omega)⟩, by omega⟩

theorem perms_eq_true {l : List (ℕ × Bool)} {g : ℕ → Bool} (hg : g n = true)
    (h : ∀ q ∈ l, q.1 = n → q.2 = true) : l.foldl (fun f q => update f q.1 q.2) g n = true := by
  induction l generalizing g with
  | nil => exact hg
  | cons q l ih =>
    rw [List.forall_mem_cons] at h
    refine ih ?_ h.2
    show update g q.1 q.2 n = true
    by_cases hq : q.1 = n
    · rw [← hq, update_self, h.1 hq]
    · rw [update_of_ne (Ne.symm hq), hg]

/-- Something the handler does. -/
theorem Called.act (h : Called p t f F pins low ws s) (ha : a.Ok pins F s) : Called p t f F pins low (ws ++ a.wrote)
      ⟨a.reg, a.eip, a.eflags, a.effect s.mem, a.perms s.writable⟩ := by
  have htop := h.room.top
  have hle := h.room.le
  have hkept : ∀ x, Kept pins F x → a.effect s.mem x = s.mem x := fun x hx =>
    writes_of_forall_ne fun w hw heq => ha.kept w hw (heq ▸ hx)
  have hmask := popMask_congr h.flags
  have hflags := ha.flags
  rw [hmask] at hflags
  refine ⟨⟨h.room, h.clear, h.frame_of le_rfl fun x h1 h2 => hkept x (Or.inr (Or.inl ⟨BitVec.le_def.2 (by omega),
      BitVec.lt_def.2 (by omega)⟩)), fun x hx => ?_, fun hin x h1 h2 => ?_,
    fun w hw x hx => (hkept x (Or.inr (Or.inr ⟨w, hw, hx⟩))).trans (h.pins w hw x hx),
    hflags.trans h.flags, ha.quiet, ?_⟩, ha.inside, ha.below, ?_⟩
  · rw [writes_append]
    exact writes_congr (h.mem x hx)
  · rw [← h.live hin x h1 h2]
    have h3 : (t.reg .esp).toNat ≤ x.toNat := h1
    rw [← h.room.inside hin] at h3
    exact hkept x (Or.inr (Or.inl ⟨BitVec.le_def.2 (by omega), h2⟩))
  · exact perms_eq_true h.mapped ha.mapped
  · rw [← h.back]
    refine load_congr fun j hj => hkept _ (Or.inl ?_)
    rw [add_sub_self, BitVec.toNat_ofNat]
    omega

/-- Whether the handler keeps to its part does not depend on the flags it is called with. -/
theorem Called.ok (h : Called p t f F pins low ws s) (ha : a.Ok pins F t) : a.Ok pins F s := by
  refine ⟨ha.inside, ha.below, ?_, ha.quiet, ha.kept, ha.mapped⟩
  rw [popMask_congr h.flags, ha.flags, h.flags]

/-- **The handler returns.** -/
theorem Called.ret (h : Called p t f F pins low ws s) (ha : a.Ok pins F s)
    (he : a.reg .esp = F - 8#32) :
    Fine E (fun s' => Spot p t f F pins low (ws ++ (Handler.ret a).wrote) 0 8 s' ∧ s'.reg .esp = F - 4#32)
      ((Handler.ret a).run p pins F s) := by
  have h' := h.act ha
  rw [Handler.run, Cpu.act, if_pos ha]
  show Fine E _ (if a.reg .esp = F - 8#32 then .ok (Instr.ret.exec _) else .error .rogue)
  rw [if_pos he]
  refine .ok ⟨⟨{ h' with }, ?_⟩, ?_⟩
  · show load (a.effect s.mem) (a.reg .esp) = p.entry + 8#32
    rw [he]
    exact h'.back
  · rw [ret_reg, update_self]
    bv_omega

/-- A fault in the handler. -/
theorem Called.nest (h : Called p t f F pins low ws s)
    (hu : Undisturbed pins low' l s s') : Called p t f F pins low (ws ++ l) s' := by
  obtain ⟨hin, hlt⟩ := h.esp_lt
  have htop := h.room.top
  have hle := h.room.le
  refine ⟨h.toCourse.nest hin (by omega) (by omega) hu fun _ hw => hw, by rw [hu.reg]; exact h.inside,
    by rw [hu.reg]; exact h.below, ?_⟩
  rw [← h.back]
  refine load_congr fun j hj => hu.live hin _ (BitVec.le_def.2 ?_) (BitVec.lt_def.2 ?_)
  · bv_omega
  · bv_omega

/-- What a handler does before it returns. -/
def Handles (p : Upcall) (E : Stop → Prop) (h : Handler) : Prop :=
  ∀ t f F pins low ws s, Called p t f F pins low ws s →
    Fine E (fun s' => Spot p t f F pins low (ws ++ h.wrote) 0 8 s' ∧ s'.reg .esp = F - 4#32)
      (h.run p pins F s)

theorem Handles.ret (hE : E .rogue) (a : Action) : Handles p E (.ret a) := by
  intro t f F pins low ws s h
  by_cases ha : a.Ok pins F s
  · by_cases he : a.reg .esp = F - 8#32
    · exact h.ret ha he
    · rw [Handler.run, Cpu.act, if_pos ha]
      show Fine E _ (if a.reg .esp = F - 8#32 then .ok (Instr.ret.exec _) else .error .rogue)
      rw [if_neg he]
      exact .error hE
  · rw [Handler.run, Cpu.act, if_neg ha]
    exact .error hE

theorem Handles.act (hE : E .rogue) (hh : Handles p E h) :
    Handles p E (.act a h) := by
  intro t f F pins low ws s hc
  rw [Handler.run, Cpu.act]
  by_cases ha : a.Ok pins F s
  · rw [if_pos ha]
    have := hh t f F pins low _ _ (hc.act ha)
    rw [List.append_assoc] at this
    exact this
  · rw [if_neg ha]
    exact .error hE

theorem Handles.fault {v : Visit} (hv : ∀ pins s, Ready pins s →
      Fine E (Undisturbed pins v.low v.wrote s) (v.run p pins s)) (hh : Handles p E h) :
    Handles p E (.fault v h) := by
  intro t f F pins low ws s hc
  obtain ⟨hin, hlt⟩ := hc.esp_lt
  refine (hv pins s (hc.ready hin (by omega))).bind fun s' hu => ?_
  have := hh t f F pins low _ s' (hc.nest hu)
  rw [List.append_assoc] at this
  exact this

/-! ## The way back -/

/-- The word of the frame at an offset from the stack pointer. -/
theorem Course.word {i : ℕ} {a : Word} (h : Course t f F pins low ws lo s) (hlo : lo ≤ i)
    (he : s.reg .esp = F + BitVec.ofNat 32 k) (ha : BitVec.ofNat 32 k + a = BitVec.ofNat 32 (4 * i))
    (hw : (utrapframe f.va (t.trapframe f))[i]? = some w) : load s.mem (s.reg .esp + a) = w := by
  rw [he, BitVec.add_assoc, ha]
  exact h.frame i w hlo hw

/-- What can be written is below `UTOP`. -/
theorem esp_bounds {E : Word} (h : ∀ j < 4, s.CanWrite (E - 4#32 + BitVec.ofNat 32 j)) :
    4 ≤ E.toNat ∧ E.toNat ≤ uxstacktop.toNat := by
  have h0 : (E - 4#32 + BitVec.ofNat 32 0).toNat < utop.toNat := (h 0 (by decide)).1
  have h3 : (E - 4#32 + BitVec.ofNat 32 3).toNat < utop.toNat := (h 3 (by decide)).1
  rw [show utop.toNat = 4005560320 from uxstacktop_toNat] at h0 h3
  rw [uxstacktop_toNat]
  bv_omega

/-- The word below the stack pointer is below the exception stack, or right above the frame. -/
theorem Room.home (hr : Room t F) (hle : (t.reg .esp).toNat ≤ uxstacktop.toNat) :
    (¬ t.Inside ∧ (t.reg .esp).toNat ≤ uxstack.toNat) ∨ F.toNat + 56 = (t.reg .esp).toNat := by
  by_cases hin : t.Inside
  · exact Or.inr (by rw [hr.top, hr.inside hin])
  · obtain ⟨htop, h | h⟩ := hr.outside hin
    · exact Or.inl ⟨hin, h⟩
    · exact Or.inr (by rw [hr.top, htop]; omega)

/-- It is no part of what must not change. -/
theorem Course.storeHome (h : Course t f F pins low ws lo s) (hlow : 0 < low)
    (hge : 4 ≤ (t.reg .esp).toNat) (hle : (t.reg .esp).toNat ≤ uxstacktop.toNat)
    (hmem : s'.mem = store s.mem (t.reg .esp - 4#32) w) (hflags : s'.eflags = s.eflags)
    (hw : s'.writable = s.writable) : Course t f F pins low ws lo s' := by
  have htop := h.room.top
  have hl := h.room.low
  have hhome := h.room.home hle
  have hE4 : (t.reg .esp - 4#32).toNat = (t.reg .esp).toNat - 4 := by bv_omega
  have hfar : ∀ x : Word, s'.mem x ≠ s.mem x →
      (t.reg .esp).toNat - 4 ≤ x.toNat ∧ x.toNat < (t.reg .esp).toNat := fun x hx => by
    rw [hmem] at hx
    have := stored_lt (k := (t.reg .esp).toNat) (by omega) (by omega) hx
    omega
  refine ⟨h.room, h.clear, h.frame_of le_rfl fun x h1 h2 => ?_, fun x hx => ?_, fun hin x h1 h2 => ?_,
    fun w hw x hx => ?_, by rw [hflags]; exact h.flags, by rw [hflags]; exact h.quiet,
    by rw [hw]; exact h.mapped⟩
  · by_contra hne
    have := hfar x hne
    omega
  · rw [← h.mem x hx]
    by_contra hne
    have := hfar x hne
    rcases hhome with ⟨hout, h1⟩ | h1
    · exact hx (Or.inr ⟨hout, BitVec.lt_def.2 (by omega), by omega⟩)
    · exact hx (Or.inl ⟨BitVec.le_def.2 (by omega), BitVec.lt_def.2 (by omega)⟩)
  · rw [← h.live hin x h1 h2]
    by_contra hne
    have h3 := hfar x hne
    have h4 : (t.reg .esp).toNat ≤ x.toNat := h1
    omega
  · rw [← h.pins w hw x hx]
    by_contra hne
    have h3 := hfar x hne
    obtain ⟨h4, h5⟩ := h.clear w hw x hx
    rcases hhome with ⟨hout, h1⟩ | h1
    · have h6 : (t.reg .esp).toNat ≤ x.toNat := h5 hout
      omega
    · exact h4 ⟨BitVec.le_def.2 (by omega), BitVec.lt_def.2 (by omega)⟩

/-- The return address is stored. -/
structure Homing (p : Upcall) (t : Cpu) (f : Fault) (F : Word) (pins : List Word) (low : ℕ)
    (ws : List (Word × BitVec 8)) (lo n : ℕ) (s : Cpu) : Prop extends Spot p t f F pins low ws lo n s where
  home : load s.mem (t.reg .esp - 4#32) = t.eip
  esp_ge : 4 ≤ (t.reg .esp).toNat
  esp_le : (t.reg .esp).toNat ≤ uxstacktop.toNat

/-- **The upcall stores the return address**, if the word below the stack pointer can be written. -/
theorem Spot.homing (hat : ∀ i < 12, Served p E (at_ i))
    (h : Spot p t f F pins low ws 0 8 s) (hesp : s.reg .esp = F - 4#32) (hlow : 0 < low)
    (hE : t.Inside ∨ E .denied) :
    Fine E (fun s' => Homing p t f F pins low (ws ++ [3, 4, 5, 6, 7].flatMap fun i => (at_ i).wrote) 2 25 s' ∧
        s'.reg .esp = F + 8#32)
      (stages p (fun i => (at_ i).run p pins) [3, 4, 5, 6, 7] s) := by
  have hl := h.room.low
  have htop := h.room.top
  have hle := h.room.le
  have hF4 : (s.reg .esp).toNat = F.toNat - 4 := by
    bv_omega
  have hin : s.Inside := ⟨BitVec.lt_def.2 (by omega),
    BitVec.lt_def.2 (by omega)⟩
  -- `addl $4, %esp`
  refine stage_read (h.visits (hat 3 (by decide)) hin (by omega) (by omega)) rfl (by decide)
    (fun _ => rfl) nofun nofun le_rfl (by decide) fun s1 hreg1 _ h1 => ?_
  have hesp1 : ((Instr.addl 4#32 .esp).exec s1).reg .esp = F + BitVec.ofNat 32 0 := by
    rw [addl_reg, update_self, hreg1]
    bv_omega
  -- `addl $8, %esp`
  refine stage_read (h1.visitsAt (hat 4 (by decide)) hesp1 (by decide) (by decide)) rfl (by decide)
    (fun _ => rfl) nofun nofun (Nat.zero_le 2) (by decide) fun s2 hreg2 _ h2 => ?_
  have hesp2 : ((Instr.addl 8#32 .esp).exec s2).reg .esp = F + BitVec.ofNat 32 8 := by
    rw [addl_reg, hreg2, hesp1, BitVec.add_assoc]
    rfl
  -- `movl 40(%esp), %eax`
  refine stage_read (h2.visitsAt (hat 5 (by decide)) hesp2 (by decide) (by decide)) rfl (by decide)
    (fun _ => rfl) nofun nofun le_rfl (by decide) fun s3 hreg3 hc3 h3 => ?_
  have hesp3 : s3.reg .esp = F + BitVec.ofNat 32 8 := by rw [hreg3, hesp2]
  have heax3 := hc3.word (i := 12) (by decide) hesp3 (a := 40#32) rfl rfl
  -- `movl 32(%esp), %ecx`
  have hesp3' : ((Instr.movlLoad 40#32 .esp .eax).exec s3).reg .esp = F + BitVec.ofNat 32 8 := by
    rw [movlLoad_reg, update_of_ne (by decide), hesp3]
  refine stage_read (h3.visitsAt (hat 6 (by decide)) hesp3' (by decide) (by decide)) rfl (by decide)
    (fun _ => rfl) nofun nofun le_rfl (by decide) fun s4 hreg4 hc4 h4 => ?_
  have hesp4 : s4.reg .esp = F + BitVec.ofNat 32 8 := by rw [hreg4, hesp3']
  have hecx4 := hc4.word (i := 10) (by decide) hesp4 (a := 32#32) rfl rfl
  -- `movl %ecx, -4(%eax)`
  have hesp4' : ((Instr.movlLoad 32#32 .esp .ecx).exec s4).reg .esp = F + BitVec.ofNat 32 8 := by
    rw [movlLoad_reg, update_of_ne (by decide), hesp4]
  have hecx4' : ((Instr.movlLoad 32#32 .esp .ecx).exec s4).reg .ecx = t.eip := by
    exact hecx4
  have heax4' : ((Instr.movlLoad 32#32 .esp .ecx).exec s4).reg .eax = t.reg .esp := by
    rw [movlLoad_reg, hreg4]
    exact heax3
  refine stage (h4.visitsAt (hat 7 (by decide)) hesp4' (by decide) (by decide)) (fun s5 h5 => ?_) fun s6 h6 => .ok h6
  obtain ⟨h5, hreg5⟩ := h5
  have haddr : s5.reg .eax + (-4#32) = t.reg .esp - 4#32 := by
    rw [hreg5, heax4', BitVec.sub_eq_add_neg]
  by_cases hd : s5.Denied (.movlStore .ecx (-4#32) .eax)
  · rw [Cpu.step_denied h5.eip rfl (by decide) h5.quiet hd]
    refine .error (hE.resolve_left fun ht => ?_)
    -- on the exception stack the word can be written
    have hE4 : (t.reg .esp - 4#32).toNat + 4 = F.toNat + 56 := by
      rw [h.room.inside ht] at htop
      bv_omega
    exact Cpu.not_denied (b := t.reg .esp - 4#32) (by rw [Instr.stores, haddr]) h5.mapped
      (by omega) (by omega) hd
  rw [Cpu.step_ok h5.eip rfl (by decide) h5.quiet hd]
  have hcan : ∀ j < 4, s5.CanWrite (t.reg .esp - 4#32 + BitVec.ofNat 32 j) := fun j hj => by
    by_contra hno
    exact hd ⟨_, List.mem_singleton.2 rfl, j, hj, by rw [haddr]; exact hno⟩
  obtain ⟨hge, hlt⟩ := esp_bounds hcan
  have hmem : ((Instr.movlStore .ecx (-4#32) .eax).exec s5).mem =
      store s5.mem (t.reg .esp - 4#32) t.eip := by
    show store s5.mem (s5.reg .eax + (-4#32)) (s5.reg .ecx) = _
    rw [haddr, hreg5, hecx4']
  refine .ok ⟨⟨⟨?_, ?_⟩, by rw [hmem, load_store], hge, hlt⟩, ?_⟩
  · have := h5.toCourse.storeHome hlow hge hlt hmem rfl rfl
    simp only [List.flatMap_cons, List.flatMap_nil, List.append_nil, List.append_assoc] at this ⊢
    exact this
  · rw [exec_eip (i := .movlStore .ecx (-4#32) .eax) nofun nofun, h5.eip, BitVec.add_assoc]
    rfl
  · show s5.reg .esp = _
    rw [hreg5, hesp4']

/-- The faults between the store of the return address and the switch of the stacks. -/
theorem Homing.visits {i : ℕ} (hat : Served p E (at_ i)) (h : Homing p t f F pins low ws lo n s)
    (he : s.reg .esp = F + BitVec.ofNat 32 k) (hk : k ≤ 4 * lo) (hk' : k ≤ 52) :
    Fine E (fun s' => Spot p t f F pins low (ws ++ (at_ i).wrote) lo n s' ∧ s'.reg = s.reg ∧
        s'.eflags = s.eflags ∧ load s'.mem (t.reg .esp - 4#32) = t.eip)
      ((at_ i).run p ((t.reg .esp - 4#32) :: pins) s) := by
  have hge := h.esp_ge
  have hle := h.esp_le
  have hhome := h.room.home hle
  obtain ⟨hin, hnat⟩ := h.room.inside_of he hk'
  have hready := h.ready hin (by omega)
  have hready' : Ready ((t.reg .esp - 4#32) :: pins) s := by
    refine ⟨hready.quiet, hready.mapped, fun w hw => ?_⟩
    rcases List.mem_cons.1 hw with rfl | hw
    · intro x hx
      refine ⟨fun hx' => ?_, fun hout => absurd hin hout⟩
      have hE4 : (t.reg .esp - 4#32).toNat = (t.reg .esp).toNat - 4 := by bv_omega
      have h1 := (dist_lt_iff (n := 4) (by omega)).1 hx
      have h2 := hx'.2
      rw [Cpu.stacktop, if_pos hin] at h2
      have h3 : uxstack.toNat ≤ x.toNat := hx'.1
      have h4 : x.toNat < (s.reg .esp).toNat := h2
      omega
    · exact hready.pins w hw
  refine (hat _ s hready').mono fun s' hu => ⟨⟨h.nest hin (by omega) (by omega) hu fun _ hw =>
    List.mem_cons_of_mem _ hw, hu.eip.trans h.eip⟩, hu.reg, hu.eflags, ?_⟩
  rw [← h.home]
  refine load_congr fun j hj => hu.pins _ (List.mem_cons_self ..) _ ?_
  rw [add_sub_self, BitVec.toNat_ofNat]
  omega

/-- The frame has been popped. -/
structure Leaving (p : Upcall) (t : Cpu) (f : Fault) (F : Word) (pins : List Word) (low : ℕ)
    (ws : List (Word × BitVec 8)) (n : ℕ) (s : Cpu) : Prop extends Homing p t f F pins low ws 13 n s where
  regs : ∀ r, r ≠ .esp → s.reg r = t.reg r
  eflags : s.eflags = t.eflags

/-- **`popal`, `popfl` and `popl` bring back the registers.** -/
theorem Homing.popped (hat : ∀ i < 12, Served p E (at_ i))
    (h : Homing p t f F pins low ws 2 25 s) (hesp : s.reg .esp = F + 8#32)
    (hquiet : t.eflags &&& (flTf ||| flAc) = 0#32)
    (hnext : ∀ s', Leaving p t f F pins low (ws ++ [8, 9, 10, 11].flatMap fun i => (at_ i).wrote) 31 s' →
      s'.reg .esp = t.reg .esp →
      Fine E P (stages p (fun i => (at_ i).run p ((t.reg .esp - 4#32) :: pins)) is s')) :
    Fine E P (stages p (fun i => (at_ i).run p ((t.reg .esp - 4#32) :: pins)) (8 :: 9 :: 10 :: 11 :: is) s) := by
  -- `popal`
  refine stage_read (h.visits (k := 8) (hat 8 (by decide)) hesp (by decide) (by decide)) rfl (by decide)
    (fun _ => rfl) nofun nofun (by decide : 2 ≤ 10) (by decide) fun s1 hq1 hc1 h1 => ?_
  obtain ⟨hreg1, -, hhome1⟩ := hq1
  have hesp1 : s1.reg .esp = F + BitVec.ofNat 32 8 := by rw [hreg1, hesp]
  have hregs1 : ∀ r, r ≠ .esp → (Instr.popal.exec s1).reg r = t.reg r := by
    intro r hr'
    cases r with
    | esp => exact absurd rfl hr'
    | edi =>
      show load s1.mem (s1.reg .esp) = _
      rw [hesp1]
      exact hc1.frame 2 _ le_rfl rfl
    | esi => exact hc1.word (i := 3) (by decide) hesp1 rfl rfl
    | ebp => exact hc1.word (i := 4) (by decide) hesp1 rfl rfl
    | ebx => exact hc1.word (i := 6) (by decide) hesp1 rfl rfl
    | edx => exact hc1.word (i := 7) (by decide) hesp1 rfl rfl
    | ecx => exact hc1.word (i := 8) (by decide) hesp1 rfl rfl
    | eax => exact hc1.word (i := 9) (by decide) hesp1 rfl rfl
  have hesp1' : (Instr.popal.exec s1).reg .esp = F + BitVec.ofNat 32 40 := by
    show s1.reg .esp + 32#32 = _
    rw [hesp1, BitVec.add_assoc]
    rfl
  -- `addl $4, %esp`
  have h1' : Homing p t f F pins low _ 10 26 _ := ⟨h1, hhome1, h.esp_ge, h.esp_le⟩
  refine stage_read (h1'.visits (hat 9 (by decide)) hesp1' (by decide) (by decide)) rfl (by decide)
    (fun _ => rfl) nofun nofun (by decide : 10 ≤ 11) (by decide) fun s2 hq2 _ h2 => ?_
  obtain ⟨hreg2, -, hhome2⟩ := hq2
  have hesp2 : ((Instr.addl 4#32 .esp).exec s2).reg .esp = F + BitVec.ofNat 32 44 := by
    rw [addl_reg, hreg2, hesp1', BitVec.add_assoc]
    rfl
  have hregs2 : ∀ r, r ≠ .esp → ((Instr.addl 4#32 .esp).exec s2).reg r = t.reg r := fun r hr' => by
    rw [addl_reg, update_of_ne hr', hreg2, hregs1 r hr']
  -- `popfl`
  have h2' : Homing p t f F pins low _ 11 29 _ := ⟨h2, hhome2, h.esp_ge, h.esp_le⟩
  refine stage (R := fun s' => Homing p t f F pins low
        (ws ++ (at_ 8).wrote ++ (at_ 9).wrote ++ (at_ 10).wrote) 12 30 s' ∧
        s'.reg .esp = F + BitVec.ofNat 32 48 ∧ (∀ r, r ≠ .esp → s'.reg r = t.reg r) ∧ s'.eflags = t.eflags)
    (h2'.visits (hat 10 (by decide)) hesp2 (by decide) (by decide)) (fun s3 h3 => ?_) fun s3 h3 => ?_
  · obtain ⟨h3, hreg3, -, hhome3⟩ := h3
    have hesp3 : s3.reg .esp = F + BitVec.ofNat 32 44 := by rw [hreg3, hesp2]
    have hflags : (Instr.popfl.exec s3).eflags = t.eflags := by
      show (s3.eflags &&& ~~~popMask s3.eflags) ||| (load s3.mem (s3.reg .esp) &&& popMask s3.eflags) = _
      rw [hesp3, h3.frame 11 _ le_rfl rfl]
      exact popfl_flags h3.flags
    rw [Cpu.step_ok h3.eip rfl (by decide) h3.quiet (by rintro ⟨a, ha, -⟩; cases ha)]
    refine .ok ⟨⟨⟨h3.toCourse.frame_step (by decide) (fun x hx => absurd rfl hx) (by decide)
      (by rw [hflags]; exact h3.flags.symm) (by rw [hflags]; exact hquiet) rfl, ?_⟩, hhome3, h.esp_ge,
      h.esp_le⟩, ?_, fun r hr' => ?_, hflags⟩
    · rw [exec_eip (i := .popfl) nofun nofun, h3.eip, BitVec.add_assoc]
      rfl
    · rw [popfl_reg, hesp3, BitVec.add_assoc]
      rfl
    · rw [popfl_reg, update_of_ne hr', hreg3, hregs2 r hr']
  obtain ⟨h3, hesp3, hregs3, hfl3⟩ := h3
  -- `popl %esp`
  refine stage_read (h3.visits (hat 11 (by decide)) hesp3 (by decide) (by decide)) rfl (by decide)
    (fun _ => rfl) nofun nofun (by decide : 12 ≤ 13) (by decide) fun s4 hq4 hc4 h4 => ?_
  obtain ⟨hreg4, hfl4, hhome4⟩ := hq4
  have hesp4 : ((Instr.popl .esp).exec s4).reg .esp = t.reg .esp := by
    rw [popl_reg, hreg4, hesp3]
    exact hc4.frame 12 _ le_rfl rfl
  have hregs4 : ∀ r, r ≠ .esp → ((Instr.popl .esp).exec s4).reg r = t.reg r := fun r hr' => by
    rw [popl_reg, update_of_ne hr', update_of_ne hr', hreg4, hregs3 r hr']
  refine hnext _ ⟨⟨?_, hhome4, h.esp_ge, h.esp_le⟩, hregs4, hfl4.trans hfl3⟩ hesp4
  simp only [List.flatMap_cons, List.flatMap_nil, List.append_nil]
  rw [← List.append_assoc, ← List.append_assoc, ← List.append_assoc]
  exact h4

/-- **`lea`** without a fault. -/
theorem Leaving.lea (h12 : at_ 12 = .nil) (h : Leaving p t f F pins low ws 31 s)
    (hesp : s.reg .esp = t.reg .esp)
    (hnext : ∀ s', Leaving p t f F pins low ws 35 s' → s'.reg .esp = t.reg .esp - 4#32 →
      Fine E P (stages p (fun i => (at_ i).run p ((t.reg .esp - 4#32) :: pins)) is s')) :
    Fine E P (stages p (fun i => (at_ i).run p ((t.reg .esp - 4#32) :: pins)) (12 :: is) s) := by
  refine stage_read (Q := fun s' => s' = s) (by rw [h12]; exact .ok ⟨h.toSpot, rfl⟩)
    (show fetch (pgfaultUpcall p.handler) 31 = some (.lea (-4#32) .esp .esp) from rfl) (by decide)
    (fun _ => rfl) nofun nofun le_rfl (by decide) ?_
  rintro _ rfl - h'
  refine hnext _ ⟨⟨h', h.home, h.esp_ge, h.esp_le⟩, fun r hr' => ?_, h.eflags⟩ ?_
  · rw [lea_reg, update_of_ne hr', h.regs r hr']
  · rw [lea_reg, update_self, hesp, BitVec.sub_eq_add_neg]

/-- Once the stacks are switched, a fault finds the return address at the stack pointer. -/
theorem Leaving.stack (h : Leaving p t f F pins low ws n s) (hesp : s.reg .esp = t.reg .esp - 4#32) :
    (s.reg .esp).toNat + 4 = (t.reg .esp).toNat ∧ (t.Inside → s.Inside) ∧
      s.stacktop.toNat ≤ t.stacktop.toNat ∧ (¬ s.Inside → (t.reg .esp).toNat ≤ uxstack.toNat) := by
  have hge := h.esp_ge
  have hle := h.esp_le
  have htop := h.room.top
  have hl := h.room.low
  have hhome := h.room.home hle
  have hsub : (s.reg .esp).toNat + 4 = (t.reg .esp).toNat := by
    bv_omega
  have hin : F.toNat + 56 = (t.reg .esp).toNat → s.Inside := fun heq =>
    ⟨BitVec.lt_def.2 (by omega), BitVec.lt_def.2 (by omega)⟩
  refine ⟨hsub, fun ht => hin (by rw [htop, h.room.inside ht]), ?_, fun hout => ?_⟩
  · by_cases hs : s.Inside
    · rw [Cpu.stacktop, if_pos hs]
      omega
    · rcases hhome with ⟨ht, -⟩ | heq
      · rw [(h.room.outside ht).1, Cpu.stacktop, if_neg hs]
      · exact absurd (hin heq) hs
  · rcases hhome with ⟨-, h1⟩ | heq
    · exact h1
    · exact absurd (hin heq) hout

/-- A fault at `ret` is handled, and the return address is kept. -/
theorem Leaving.ready (h : Leaving p t f F pins low ws n s) (hesp : s.reg .esp = t.reg .esp - 4#32) :
    Ready ((t.reg .esp - 4#32) :: pins) s := by
  obtain ⟨hsub, hin, htop, hout⟩ := h.stack hesp
  refine ⟨h.quiet, h.mapped, fun w hw x hx => ?_⟩
  rcases List.mem_cons.1 hw with rfl | hw
  · rw [← hesp] at hx
    have h1 := (dist_lt_iff (n := 4) (by omega)).1 hx
    refine ⟨fun hx' => ?_, fun _ => BitVec.le_def.2 h1.1⟩
    have h2 : uxstack.toNat ≤ x.toNat := hx'.1
    have h3 : x.toNat < s.stacktop.toNat := hx'.2
    by_cases hs : s.Inside
    · rw [Cpu.stacktop, if_pos hs] at h3
      omega
    · have := hout hs
      omega
  · obtain ⟨h1, h2⟩ := h.clear w hw x hx
    refine ⟨fun hx' => h1 ⟨hx'.1, BitVec.lt_def.2 (Nat.lt_of_lt_of_le hx'.2 htop)⟩, fun hs => ?_⟩
    have h3 : (t.reg .esp).toNat ≤ x.toNat := h2 fun ht => hs (hin ht)
    exact BitVec.le_def.2 (by omega)

/-- **`ret`**, after the faults there. -/
theorem Leaving.ret (hat : Served p E (at_ 13))
    (h : Leaving p t f F pins ((at_ 13).low + 1) ws 35 s) (hesp : s.reg .esp = t.reg .esp - 4#32) :
    Fine E (fun s' => Undisturbed pins ((at_ 13).low + 1) (ws ++ (at_ 13).wrote) t s' ∧
        load s'.mem (t.reg .esp - 4#32) = t.eip)
      (stages p (fun i => (at_ i).run p ((t.reg .esp - 4#32) :: pins)) [13] s) := by
  obtain ⟨hsub, hin, htop, hout⟩ := h.stack hesp
  refine stage (hat _ s (h.ready hesp)) (fun s1 hu => ?_) fun s2 h₂ => .ok h₂
  rw [Cpu.step_ok (hu.eip.trans h.eip) rfl (by decide) (by rw [hu.eflags]; exact h.quiet)
    (by rintro ⟨a, ha, -⟩; cases ha)]
  have hhome : load s1.mem (s1.reg .esp) = t.eip := by
    rw [hu.reg, hesp, ← h.home]
    refine load_congr fun j hj => hu.pins _ (List.mem_cons_self ..) _ ?_
    rw [add_sub_self, BitVec.toNat_ofNat]
    omega
  refine .ok ⟨⟨⟨funext fun r => ?_, hhome, hu.eflags.trans h.eflags, fun x hx => ?_, fun ht x h1 h2 => ?_⟩,
    fun w hw x hx => (hu.pins w (List.mem_cons_of_mem _ hw) x hx).trans (h.pins w hw x hx), hu.mapped⟩,
    by rw [hu.reg, hesp] at hhome; exact hhome⟩
  · rw [ret_reg]
    by_cases hr' : r = .esp
    · rw [hr', update_self, hu.reg, hesp, BitVec.sub_add_cancel]
    · rw [update_of_ne hr', hu.reg, h.regs r hr']
  · show s1.mem x = _
    rw [hu.mem x fun hsc => hx ?_, writes_append]
    · exact writes_congr (h.mem x hx)
    · rcases hsc with ⟨h1, h2⟩ | ⟨hs, h1, h2⟩
      · exact Or.inl ⟨h1, BitVec.lt_def.2 (Nat.lt_of_lt_of_le h2 htop)⟩
      · have h3 : x.toNat < (s.reg .esp).toNat := h1
        exact Or.inr ⟨fun ht => hs (hin ht), BitVec.lt_def.2 (by omega), by omega⟩
  · have h3 : (t.reg .esp).toNat ≤ x.toNat := h1
    rw [← h.live ht x h1 h2]
    exact hu.live (hin ht) x (BitVec.le_def.2 (by omega)) h2

end Stages

/-! ## The round trip -/

/-- One fault, if those that come during it are handled. -/
theorem visit_fine {at_ : ℕ → Visits} (hat : ∀ i < 14, Served p E (at_ i))
    (h12 : at_ 12 = .nil) (hready : Ready pins t) (hover : t.utr f ≤ uxstack + 8#32 → E .overflow)
    (hh : ∀ low ws s, Called p t f (t.utr f) pins low ws s →
      Fine E (fun s' => Spot p t f (t.utr f) pins low (ws ++ h.wrote) 0 8 s' ∧
        s'.reg .esp = t.utr f - 4#32) (h.run p pins (t.utr f) s))
    (hden : t.Inside ∨ E .denied) :
    Fine E (fun s' => Undisturbed pins (Visit.mk f at_ h).low (Visit.mk f at_ h).wrote t s' ∧
        load s'.mem (t.reg .esp - 4#32) = t.eip)
      ((Visit.mk f at_ h).run p pins t) := by
  rw [Visit.run]
  by_cases hover' : t.utr f ≤ uxstack + 8#32
  · rw [if_pos hover']
    exact .error (hover hover')
  rw [if_neg hover']
  refine (pageFault_fine ((at_ 13).low + 1) (Room.of_utr hover') hready).bind fun s1 h1 => ?_
  have hat' : ∀ i < 12, _ := fun i hi => hat i (by omega)
  refine (h1.1.called hat' (by rw [h1.2, update_self])).bind fun s2 h2 => ?_
  refine (hh _ _ s2 h2).bind fun s3 h3 => ?_
  refine (h3.1.homing hat' h3.2 (Nat.succ_pos _) hden).bind fun s4 h4 => ?_
  refine h4.1.popped hat' h4.2 hready.quiet fun s5 h5 hesp5 => ?_
  refine h5.lea h12 hesp5 fun s6 h6 hesp6 => ?_
  refine (h6.ret (hat 13 (by decide)) hesp6).mono fun s' hu => ?_
  have hw : (Visit.mk f at_ h).wrote = [] ++ [0, 1, 2].flatMap (fun i => (at_ i).wrote) ++ h.wrote ++
      [3, 4, 5, 6, 7].flatMap (fun i => (at_ i).wrote) ++ [8, 9, 10, 11].flatMap (fun i => (at_ i).wrote) ++
      (at_ 13).wrote := by
    rw [Visit.wrote]
    simp only [List.flatMap_cons, List.flatMap_nil, h12, Visits.wrote, List.append_nil, List.nil_append,
      List.append_assoc]
  rw [hw]
  exact hu

/-- Faults one after another. -/
theorem Undisturbed.trans {l' : List (Word × BitVec 8)} {s'' : Cpu}
    (h : Undisturbed pins low l s s') (h' : Undisturbed pins low' l' s' s'') :
    Undisturbed pins (max low low') (l ++ l') s s'' := by
  have hin : s'.Inside ↔ s.Inside := by rw [Cpu.Inside, Cpu.Inside, h.reg]
  have htop : s'.stacktop = s.stacktop := by
    unfold Cpu.stacktop
    simp only [hin, h.reg]
  refine ⟨⟨h'.reg.trans h.reg, h'.eip.trans h.eip, h'.eflags.trans h.eflags, fun x hx => ?_,
    fun hs x h1 h2 => ?_⟩, fun w hw x hx => (h'.pins w hw x hx).trans (h.pins w hw x hx), h'.mapped⟩
  · rw [h'.mem x fun hsc => hx ?_, writes_append]
    · refine writes_congr (h.mem x fun hsc => hx (hsc.imp_right fun hsc => ⟨hsc.1, hsc.2.1, ?_⟩))
      omega
    · rw [Scratch, htop, hin, h.reg] at hsc
      refine hsc.imp_right fun hsc => ⟨hsc.1, hsc.2.1, ?_⟩
      omega
  · rw [← h.live hs x h1 h2]
    exact h'.live (hin.2 hs) x (by rw [h.reg]; exact h1) h2

theorem Undisturbed.ready (h : Undisturbed pins low l s s') (hs : Ready pins s) : Ready pins s' := by
  have hin : s'.Inside ↔ s.Inside := by rw [Cpu.Inside, Cpu.Inside, h.reg]
  refine ⟨by rw [h.eflags]; exact hs.quiet, h.mapped, fun w hw x hx => ?_⟩
  obtain ⟨h1, h2⟩ := hs.pins w hw x hx
  unfold Cpu.stacktop at h1 ⊢
  simp only [hin, h.reg]
  exact ⟨h1, h2⟩

theorem Visits.nil_fine (p : Upcall) : Served p E .nil := fun _ _ hs => .ok ⟨⟨rfl, rfl, rfl, fun _ _ => rfl, fun _ _ _ _ => rfl⟩, fun _ _ _ _ => rfl, hs.mapped⟩

/-- What the program does not get on for, unless the upcall is at fault. -/
def Stop.Excused (e : Stop) : Prop := e = .overflow ∨ e = .rogue ∨ e = .denied

mutual

theorem Visit.run_fine (p : Upcall) : ∀ (v : Visit), v.SparesLea → ∀ pins s, Ready pins s →
    Fine Stop.Excused (Undisturbed pins v.low v.wrote s) (v.run p pins s)
  | .mk _ at_ h, hv, pins, s, hs => by
    obtain ⟨h12, hat, hh⟩ := hv
    exact (visit_fine (fun i hi => (at_ i).run_fine p (hat i hi)) h12 hs (fun _ => Or.inl rfl)
      (fun _ _ _ hc => h.handles p hh _ _ _ _ _ _ _ hc) (Or.inr (Or.inr (Or.inr rfl)))).mono
      fun _ hu => hu.1

theorem Visits.run_fine (p : Upcall) : ∀ (vs : Visits), vs.SparesLea → Served p Stop.Excused vs
  | .nil, _ => Visits.nil_fine p
  | .cons v vs, hv => fun pins s hs =>
    (v.run_fine p hv.1 pins s hs).bind fun s' hu =>
      (vs.run_fine p hv.2 pins s' (hu.ready hs)).mono fun _ hu' => hu.trans hu'

theorem Handler.handles (p : Upcall) : ∀ (h : Handler), h.SparesLea → Handles p Stop.Excused h
  | .ret a, _ => Handles.ret (Or.inr (Or.inl rfl)) a
  | .act _ h, hh => (h.handles p hh).act (Or.inr (Or.inl rfl))
  | .fault v h, hh => (h.handles p hh.2).fault (v.run_fine p hh.1)

end

/-! ## Faults on the exception stack -/

/-- A fault during which there are no others. -/
def Visit.plain (f : Fault) (a : Action) : Visit := .mk f (fun _ => .nil) (.ret a)

/-- Such a fault is handled, if it is itself one on the exception stack. -/
theorem plain_fine {a : Action} (hready : Ready pins t) (hin : t.Inside) (hroom : uxstack + 8#32 < t.utr f)
    (ha : a.Ok pins (t.utr f) t) (he : a.reg .esp = t.utr f - 8#32) :
    Fine E (fun s' => Undisturbed pins 1 a.wrote t s' ∧ load s'.mem (t.reg .esp - 4#32) = t.eip)
      ((Visit.plain f a).run p pins t) := by
  refine (visit_fine (fun _ _ => Visits.nil_fine p) rfl hready (fun h => absurd hroom (BitVec.not_lt.2 h))
    (fun _ _ s hc => hc.ret (hc.ok ha) he) (Or.inl hin)).mono fun s' hu => ?_
  have hw : (Visit.plain f a).wrote = a.wrote := by
    rw [Visit.plain, Visit.wrote]
    simp only [Visits.wrote, Handler.wrote, List.flatMap_cons, List.flatMap_nil, List.append_nil,
      List.nil_append]
  rw [← hw]
  exact hu

/-- A handler that writes nothing does not depend on what it must not write. -/
theorem plain_pins {a : Action} (hw : a.wrote = []) :
    (Visit.plain f a).run p pins s = (Visit.plain f a).run p [] s := by
  have hok : ∀ utr s, (a.Ok pins utr s ↔ a.Ok [] utr s) := fun utr s =>
    ⟨fun h => ⟨h.inside, h.below, h.flags, h.quiet, by rw [hw]; nofun, h.mapped⟩,
      fun h => ⟨h.inside, h.below, h.flags, h.quiet, by rw [hw]; nofun, h.mapped⟩⟩
  have hact : ∀ (utr : Word) (s : Cpu), s.act pins utr a = s.act [] utr a := fun utr s => by
    rw [Cpu.act, Cpu.act]
    simp only [hok utr s]
  have hret : ∀ utr s, (Handler.ret a).run p pins utr s = (Handler.ret a).run p [] utr s := fun utr s => by
    rw [Handler.run, Handler.run, hact]
  have hnil : ∀ pins' : List Word, (fun _ : ℕ => Visits.nil.run p pins') = fun _ : ℕ => Visits.nil.run p [] :=
    fun _ => rfl
  rw [Visit.plain, Visit.run, Visit.run]
  simp only [hret, hnil]

/-- A fault with one more fault in its handler. -/
def Visit.nested (f f' : Fault) (a a' a'' : Action) : Visit :=
  .mk f (fun _ => .nil) (.act a (.fault (.plain f' a') (.ret a'')))

theorem nested_fine {f' : Fault} {a a' a'' : Action} (hready : Ready [] t) (hin : t.Inside)
    (hroom : uxstack + 8#32 < t.utr f) (ha : a.Ok [] (t.utr f) t) (ha'' : a''.Ok [] (t.utr f) t)
    (he'' : a''.reg .esp = t.utr f - 8#32) (hroom' : uxstack + 8#32 < a.reg .esp - 56#32)
    (ha' : ∀ s : Cpu, s.eflags = a.eflags → a'.Ok [] (a.reg .esp - 56#32) s)
    (he' : a'.reg .esp = a.reg .esp - 56#32 - 8#32) :
    Fine E (fun _ => True) ((Visit.nested f f' a a' a'').run p [] t) := by
  refine (visit_fine (fun _ _ => Visits.nil_fine p) rfl hready
    (fun h => absurd hroom (BitVec.not_lt.2 h)) (fun low ws s hc => ?_) (Or.inl hin)).mono fun _ _ => trivial
  have hok := hc.ok ha
  have hc1 := hc.act hok
  rw [Handler.run, Cpu.act, if_pos hok]
  obtain ⟨hin1, hlt1⟩ := hc1.esp_lt
  have hutr : (⟨a.reg, a.eip, a.eflags, a.effect s.mem, a.perms s.writable⟩ : Cpu).utr f' =
      a.reg .esp - 56#32 := by
    rw [Cpu.utr_eq, Cpu.stacktop, if_pos hin1]
  refine (plain_fine (hc1.ready hin1 (by omega)) hin1
    (by rw [hutr]; exact hroom') (by rw [hutr]; exact ha' _ rfl) (by rw [hutr]; exact he')).bind fun s2 hu => ?_
  have hc2 := hc1.nest hu.1
  have hret := hc2.ret (E := E) (hc2.ok ha'') he''
  have hw : ws ++ (Handler.act a (.fault (.plain f' a') (.ret a''))).wrote =
      ws ++ a.wrote ++ a'.wrote ++ (Handler.ret a'').wrote := by
    simp only [Handler.wrote, Visit.plain, Visit.wrote, Visits.wrote, List.flatMap_cons, List.flatMap_nil,
      List.append_nil, List.nil_append, List.append_assoc]
  rw [hw]
  exact hret

/-- **The round trip of a page fault.**  Whatever faults come during the handling of a fault, as long
as none comes at `lea`, the frames fit on the exception stack, the handlers keep to their part and
the word below the stack pointer can be written: the program resumes where it was, with all its
registers, and memory is changed only by handlers and where it was free. -/
theorem upcall_round_trip (p : Upcall) (v : Visit) (s : Cpu) (hlea : v.SparesLea)
    (hflags : s.eflags &&& (flTf ||| flAc) = 0#32) (hstack : s.writable (pgnum uxstack) = true)
    (hfit : v.run p [] s ≠ .error .overflow) (hkeep : v.run p [] s ≠ .error .rogue)
    (hcan : v.run p [] s ≠ .error .denied) :
    ∃ s', v.run p [] s = .ok s' ∧ Restored v.low v.wrote s s' := by
  have hfine := v.run_fine p hlea [] s ⟨hflags, hstack, nofun⟩
  generalize v.run p [] s = r at *
  cases hfine with
  | ok hu => exact ⟨_, rfl, hu.toRestored⟩
  | error he =>
    rcases he with rfl | rfl | rfl
    · exact absurd rfl hfit
    · exact absurd rfl hkeep
    · exact absurd rfl hcan

/-- A program on the exception stack, with the upcall at `0x800020` and the variable
`_pgfault_handler` at `0x802000`. -/
def sampleUpcall : Upcall := ⟨0x800020#32, 0x802000#32⟩

def sampleCpu : Cpu where
  reg := fun r => if r = .esp then 0xeebfff00#32 else 5#32
  eip := 0x800100#32
  eflags := 0x202#32
  mem := fun _ => 0#8
  writable := fun n => n = pgnum uxstack

/-- A handler that is about to return, or to fault, with this stack pointer. -/
def sampleAction (esp : Word) : Action where
  reg := fun r => if r = .esp then esp else 0#32
  eip := 0x800200#32
  eflags := 0x246#32
  wrote := []
  pages := []

/-- The handler of the fault faults itself. -/
def sampleVisit : Visit :=
  .nested ⟨0x803000#32, 7#32, 0#32⟩ ⟨0x804000#32, 7#32, 0#32⟩ (sampleAction 0xeebffe80#32)
    (sampleAction 0xeebffe40#32) (sampleAction 0xeebffec0#32)

theorem sampleCpu_ready : Ready [] sampleCpu := ⟨rfl, rfl, nofun⟩

theorem sampleAct_ok {utr esp : Word} (hin : uxstack < esp) (hle : esp ≤ utr - 8#32)
    (hs : s.eflags = 0x202#32 ∨ s.eflags = 0x246#32) : (sampleAction esp).Ok [] utr s := by
  refine ⟨hin, hle, ?_, show 0x246#32 &&& (flTf ||| flAc) = 0#32 by decide, nofun, nofun⟩
  show 0x246#32 &&& ~~~popMask s.eflags = s.eflags &&& ~~~popMask s.eflags
  rcases hs with h | h
  · rw [h]
    decide
  · rw [h]

theorem sampleCpu_utr : sampleCpu.utr f = 0xeebffec8#32 := by
  rw [Cpu.utr_eq]
  decide

/-- It is handled, and so is the fault in its handler. -/
theorem upcall_round_trip_nested : ∃ s', sampleVisit.run sampleUpcall [] sampleCpu = .ok s' ∧
    Restored sampleVisit.low sampleVisit.wrote sampleCpu s' := by
  have hfine := @nested_fine (fun _ => False) sampleCpu ⟨0x803000#32, 7#32, 0#32⟩ sampleUpcall
    ⟨0x804000#32, 7#32, 0#32⟩ (sampleAction 0xeebffe80#32) (sampleAction 0xeebffe40#32) (sampleAction 0xeebffec0#32)
    sampleCpu_ready (by decide) (by rw [sampleCpu_utr]; decide)
    (by rw [sampleCpu_utr]; exact sampleAct_ok (by decide) (by decide) (Or.inl rfl))
    (by rw [sampleCpu_utr]; exact sampleAct_ok (by decide) (by decide) (Or.inl rfl))
    (by rw [sampleCpu_utr]; decide) (by decide)
    (fun _ hs => sampleAct_ok (by decide) (by decide) (Or.inr hs)) (by decide)
  have hne : ∀ e, sampleVisit.run sampleUpcall [] sampleCpu ≠ .error e := fun e he => by
    rw [sampleVisit] at he
    rw [he] at hfine
    cases hfine with
    | error h => exact h
  exact upcall_round_trip sampleUpcall sampleVisit sampleCpu ⟨rfl, fun _ _ => trivial, ⟨rfl, fun _ _ => trivial,
    trivial⟩, trivial⟩ rfl rfl (hne _) (hne _) (hne _)

/-- Instructions of the upcall without faults. -/
def Cpu.steps (p : Upcall) : ℕ → Cpu → Except Stop Cpu
  | 0, s => .ok s
  | n + 1, s => do
    let s ← s.step p
    s.steps p n

theorem steps_add {m : ℕ} :
    s.steps p (m + n) = (s.steps p m >>= fun s => s.steps p n) := by
  induction m generalizing s with
  | zero => rw [Nat.zero_add]; rfl
  | succ m ih =>
    rw [show m + 1 + n = m + n + 1 by omega, Cpu.steps, Cpu.steps]
    cases s.step p with
    | error e => rfl
    | ok s' => exact ih

/-- With its own address as the return address, `lea` and `ret` go around for ever. -/
theorem lea_ret (heip : s.eip = p.entry + 31#32) (hq : s.eflags &&& (flTf ||| flAc) = 0#32)
    (hret : load s.mem (s.reg .esp - 4#32) = p.entry + 31#32) : s.steps p 2 = .ok s := by
  set s' := (Instr.lea (-4#32) .esp .esp).exec s with hs'
  have h1 : s.step p = .ok s' := Cpu.step_ok heip rfl (by decide) hq (by rintro ⟨a, ha, -⟩; cases ha)
  have heip' : s'.eip = p.entry + BitVec.ofNat 32 35 := by
    rw [hs', exec_eip (i := .lea (-4#32) .esp .esp) nofun nofun, heip, BitVec.add_assoc]
    rfl
  have hesp : s'.reg .esp = s.reg .esp - 4#32 := by
    rw [hs', lea_reg, update_self, BitVec.sub_eq_add_neg]
  have h2 : s'.step p = .ok (Instr.ret.exec s') :=
    Cpu.step_ok heip' rfl (by decide) hq (by rintro ⟨a, ha, -⟩; cases ha)
  have hback : Instr.ret.exec s' = s := by
    have hreg : (Instr.ret.exec s').reg = s.reg := by
      rw [ret_reg, hesp, hs', lea_reg, update_idem, BitVec.sub_add_cancel, update_eq_self]
    have heip'' : (Instr.ret.exec s').eip = s.eip := by
      show load s.mem (s'.reg .esp) = s.eip
      rw [hesp, hret, heip]
    show Cpu.mk (Instr.ret.exec s').reg (Instr.ret.exec s').eip s.eflags s.mem s.writable = s
    rw [hreg, heip'']
  rw [Cpu.steps, h1]
  show s'.steps p 1 = .ok s
  rw [Cpu.steps, h2, hback]
  rfl

theorem steps_lea_ret (h : s.steps p 2 = .ok s) (n : ℕ) : s.steps p (2 * n) = .ok s := by
  induction n with
  | zero => rfl
  | succ n ih =>
    rw [Nat.mul_succ, Nat.add_comm, steps_add, h]
    exact ih

/-- A fault, with one more fault at `lea`. -/
def Visit.atLea (f : Fault) (a : Action) : Visit :=
  .mk f (fun i => if i = 12 then .cons (.plain f a) .nil else .nil) (.ret a)

/-- The second fault leaves its own return address below the stack pointer, where the first one
had put its. -/
theorem atLea_fine {a : Action} (hready : Ready [] t) (hin : t.Inside) (hroom : uxstack + 8#32 < t.utr f)
    (ha : ∀ s : Cpu, s.eflags = t.eflags → a.Ok [] (t.utr f) s) (he : a.reg .esp = t.utr f - 8#32)
    (hw : a.wrote = []) :
    Fine E (fun s' => s'.eip = p.entry + 31#32 ∧ s'.eflags = t.eflags ∧
        load s'.mem (s'.reg .esp - 4#32) = p.entry + 31#32)
      ((Visit.atLea f a).run p [] t) := by
  have hat : ∀ i < 12, Served p E (if i = 12 then .cons (.plain f a) .nil else .nil) := fun i hi => by
    rw [if_neg (by omega)]
    exact Visits.nil_fine p
  rw [Visit.atLea, Visit.run, if_neg (BitVec.not_le.2 hroom)]
  refine (pageFault_fine 1 (Room.of_utr (BitVec.not_le.2 hroom)) hready).bind fun s1 h1 => ?_
  refine (h1.1.called hat (by rw [h1.2, update_self])).bind fun s2 h2 => ?_
  refine (h2.ret (h2.ok (ha t rfl)) he).bind fun s3 h3 => ?_
  refine (h3.1.homing hat h3.2 Nat.one_pos (Or.inl hin)).bind fun s4 h4 => ?_
  refine h4.1.popped hat h4.2 hready.quiet fun s5 h5 hesp5 => ?_
  -- the fault at `lea`, where the stack pointer is that of the first fault again
  have hin5 : s5.Inside := by rw [Cpu.Inside, hesp5]; exact hin
  have hutr : s5.utr f = t.utr f := by
    rw [Cpu.utr_eq, Cpu.utr_eq, Cpu.stacktop, Cpu.stacktop, if_pos hin5, if_pos hin, hesp5]
  have hready5 : Ready [] s5 := ⟨h5.quiet, h5.mapped, nofun⟩
  have hplain := plain_fine (E := E) (p := p) (f := f) (a := a) hready5 hin5
    (by rw [hutr]; exact hroom) (by rw [hutr]; exact ha s5 h5.eflags) (by rw [hutr]; exact he)
  have hvisits : Fine E (fun s' => Undisturbed [] 1 a.wrote s5 s' ∧
      load s'.mem (s5.reg .esp - 4#32) = s5.eip)
      ((Visits.cons (.plain f a) .nil).run p [t.reg .esp - 4#32] s5) := by
    rw [Visits.run, plain_pins hw]
    exact hplain.bind fun s6 h6 => .ok h6
  refine hvisits.bind fun s6 h6 => ?_
  obtain ⟨hu, hhome⟩ := h6
  have heip : s6.eip = p.entry + 31#32 := hu.eip.trans h5.eip
  have hfl : s6.eflags = t.eflags := hu.eflags.trans h5.eflags
  have hret : load s6.mem (s6.reg .esp - 4#32) = p.entry + 31#32 := by
    rw [hu.reg, hhome]
    exact h5.eip
  have hloop := lea_ret heip (by rw [hfl]; exact hready.quiet) hret
  suffices hsteps : (s6.step p >>= stages p _ [13]) = s6.steps p 2 by
    refine (congrArg (Fine E _) (hsteps.trans hloop)).mpr (.ok ⟨heip, hfl, hret⟩)
  rw [Cpu.steps]
  cases s6.step p with
  | error e => rfl
  | ok s7 => rfl

/-- **A fault at `lea`.** -/
theorem lea_fault_loops : ∃ (v : Visit) (s' : Cpu), v.run sampleUpcall [] sampleCpu = .ok s' ∧
    s'.eip ≠ sampleCpu.eip ∧ s'.eip = sampleUpcall.entry + 31#32 ∧
    ∀ n, s'.steps sampleUpcall (2 * n) = .ok s' := by
  have hfine := @atLea_fine (fun _ => False) sampleCpu ⟨0x803000#32, 7#32, 0#32⟩ sampleUpcall
    (sampleAction 0xeebffec0#32) sampleCpu_ready (by decide) (by rw [sampleCpu_utr]; decide)
    (fun _ hs => by rw [sampleCpu_utr]; exact sampleAct_ok (by decide) (by decide) (Or.inl hs))
    (by rw [sampleCpu_utr]; decide) rfl
  generalize hrun : (Visit.atLea ⟨0x803000#32, 7#32, 0#32⟩ (sampleAction 0xeebffec0#32)).run sampleUpcall []
    sampleCpu = r at hfine
  cases hfine with
  | error h => exact h.elim
  | ok h =>
    obtain ⟨heip, hfl, hret⟩ := h
    refine ⟨_, _, hrun, by rw [heip]; decide, heip, steps_lea_ret (lea_ret heip ?_ hret)⟩
    rw [hfl]
    rfl

end OsLab.Jos.Pfentry
