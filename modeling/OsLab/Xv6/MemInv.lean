import OsLab.Xv6.Memory
import OsLab.Xv6.ExecSpec
import Mathlib.Data.List.Range

/-!
# The owners of the pages

`State.rest` is the multiset of the pages that are not on the free list: those of the kernel, of the processes and of the
pipes.  `Inv K s F` says that together with the free list these are all the pages there are, each of them once, and what is
needed to keep this true; `F` are the references to files that a system call has in its hands.

* `fileclose_spec`: the last reference to a pipe frees its page, and only the last.
* `sysPipe_spec`, `sysClose_spec`, `sysDup_spec`, `sysOpen_spec`: the calls for files, on all their paths.
-/

namespace OsLab.Xv6.Memory

open Vm Files Exec Function

variable {K : Kernel} {s s' : State} {F F' : Multiset FileId} {p q : Slot} {f g : FileId} {x : Page} {w : Bool}
  {mem : Kmem} {i : Slot × Fd} {o : Option FileId} {e : Ends} {fd : Fd}

/-- The pages that `kinit1` and `kinit2` give to `kfree`. -/
def pool (K : Kernel) : Multiset Page := ↑(List.range' K.first (57344 - K.first))

theorem pool_nodup : (pool K).Nodup := Multiset.coe_nodup.2 List.nodup_range'

theorem mem_pool : x ∈ pool K ↔ K.Valid x := by
  have hsum : K.first + (57344 - K.first) = 57344 := Nat.add_sub_cancel' (K.first_le.trans (by decide))
  rw [pool, Multiset.mem_coe, List.mem_range'_1, hsum]
  rfl

/-! ## Owners -/

/-- The pages of a process: its kernel stack, and its directory with the page tables and the user pages. -/
def Proc.pages (v : Proc) : Multiset Page := held v.kstack + v.pgdir.elim 0 Space.pages

namespace State

/-- The pages that the kernel has kept since boot. -/
def kernelPages (s : State) : Multiset Page := s.kpgdir.pages + ↑s.cpuStacks

/-- The pages of the pipes. -/
def pipePages (s : State) : Multiset Page := holdings (fun x => (s.pipe x).map fun _ => x) (Finset.range 57344)

/-- The pages of the processes. -/
@[irreducible] def procPages (s : State) : Multiset Page := ∑ p, (s.proc p).pages

/-- The pages of the other processes. -/
@[irreducible] def procPagesBut (s : State) (p : Slot) : Multiset Page := ∑ q ∈ Finset.univ.erase p, (s.proc q).pages

/-- The pages that are not free. -/
def rest (s : State) : Multiset Page := s.kernelPages + s.procPages + s.pipePages

/-- The pages that are neither free nor the process's. -/
def restBut (s : State) (p : Slot) : Multiset Page := s.kernelPages + s.procPagesBut p + s.pipePages

theorem rest_eq (s : State) (p : Slot) : s.rest = (s.proc p).pages + s.restBut p := by
  have hsum : s.procPages = (s.proc p).pages + s.procPagesBut p := by
    rw [procPages, procPagesBut]
    exact (Finset.add_sum_erase Finset.univ (fun q => (s.proc q).pages) (Finset.mem_univ p)).symm
  rw [rest, restBut, hsum]
  abel

theorem setMem_rest (mem : Kmem) : (s.setMem mem).rest = s.rest := by
  rw [rest, rest, procPages, procPages]
  rfl

theorem setMem_restBut : (s.setMem mem).restBut p = s.restBut p := by
  rw [restBut, restBut, procPagesBut, procPagesBut]
  rfl

theorem setFiles_rest (t : Table Kind) : (s.setFiles t).rest = s.rest := by
  rw [rest, rest, procPages, procPages]
  rfl

theorem setProc_self (v : Proc) : (s.setProc p v).proc p = v := update_self ..

theorem setProc_of_ne (v : Proc) (h : q ≠ p) : (s.setProc p v).proc q = s.proc q := update_of_ne h ..

theorem setProc_restBut (v : Proc) : (s.setProc p v).restBut p = s.restBut p := by
  have hsum : (s.setProc p v).procPagesBut p = s.procPagesBut p := by
    rw [procPagesBut, procPagesBut]
    refine Finset.sum_congr rfl fun q hq => ?_
    rw [setProc_of_ne v (Finset.ne_of_mem_erase hq)]
  rw [restBut, hsum]
  rfl

theorem setProc_rest (v : Proc) : (s.setProc p v).rest = v.pages + s.restBut p := by
  rw [rest_eq _ p, setProc_self, setProc_restBut]

/-- A pipe is made or freed. -/
theorem setPipe_rest (hx : x < 57344) (e : Option Ends) :
    (s.setPipe x e).rest + held ((s.pipe x).map fun _ => x) = s.rest + held (e.map fun _ => x) := by
  have hcomp : (fun y => ((s.setPipe x e).pipe y).map fun _ => y) =
      update (fun y => (s.pipe y).map fun _ => y) x (e.map fun _ => x) := by
    funext y
    show ((update s.pipe x e y).map fun _ => y) = _
    rw [update_apply, update_apply]
    split
    · rename_i heq
      rw [heq]
    · rfl
  have hpipe : (s.setPipe x e).pipePages + held ((s.pipe x).map fun _ => x) = s.pipePages + held (e.map fun _ => x) := by
    rw [pipePages, hcomp]
    exact holdings_update (Finset.mem_range.2 hx) _
  have hproc : (s.setPipe x e).procPages = s.procPages := by rw [procPages, procPages]; rfl
  rw [rest, hproc, add_assoc, hpipe, ← add_assoc]
  rfl

/-- A page with a pipe is one of the pages that are not free. -/
theorem mem_rest_of_pipe (hx : x < 57344) (he : s.pipe x = some e) : x ∈ s.rest := by
  have hmem : x ∈ s.pipePages := by
    rw [pipePages, mem_holdings]
    refine ⟨x, Finset.mem_range.2 hx, ?_⟩
    rw [he]
    rfl
  exact Multiset.mem_add.2 (Or.inr hmem)

end State

/-! ## The invariant -/

/-- A directory with nothing mapped above the size. -/
structure Dir (d : Space) (sz : ℕ) : Prop where
  wf : d.Wf
  dev : d.Dev
  size : 0 < sz ∧ sz < kernbase
  above : ∀ w, npages sz ≤ w → w < nuser → d.pte w = none

theorem dir_of_runs {d : Space} {sz : ℕ} (h : Runs d sz) : Dir d sz := ⟨h.wf, h.dev, h.size, h.mapped.above⟩

/-- What a process has in each state. -/
structure Proc.Sound (v : Proc) : Prop where
  unused : v.state = .unused → v.kstack = none ∧ v.pgdir = none
  embryo : v.state = .embryo → v.kstack ≠ none ∧ ∀ d, v.pgdir = some d → Dir d v.sz
  used : v.state = .live ∨ v.state = .zombie → ∃ x d, v.kstack = some x ∧ v.pgdir = some d ∧ Dir d v.sz

/-- A pipe is there as long as one of its ends is open, and each end that is open is one file. -/
structure PipeOk (kind : FileId → Option Kind) (pipe : Page → Option Ends) : Prop where
  isOpen : ∀ f x w, kind f = some (.pipe x w) → ∃ e, pipe x = some e ∧ e.side w = true
  inj : ∀ f g x w, kind f = some (.pipe x w) → kind g = some (.pipe x w) → f = g
  used : ∀ x e w, pipe x = some e → e.side w = true → ∃ f, kind f = some (.pipe x w)
  some : ∀ x e, pipe x = some e → e.side true = true ∨ e.side false = true

/-- What each file is. -/
def State.kind (s : State) (f : FileId) : Option Kind := (s.files.file f).kind

structure Inv (K : Kernel) (s : State) (F : Multiset FileId) : Prop where
  owns : Owns K (pool K) s.mem s.rest
  sound : ∀ p, (s.proc p).Sound
  counted : s.files.Counted F
  /-- a file that is not in use is `FD_NONE` -/
  unused : ∀ f, (s.files.file f).ref = 0 → s.kind f = none
  /-- a process that has not begun or has exited has no descriptors -/
  closed : ∀ p, (s.proc p).state = .unused ∨ (s.proc p).state = .zombie → ∀ fd, s.files.ofile (p, fd) = none
  pipes : PipeOk s.kind s.pipe
  page : ∀ x e, s.pipe x = some e → x < 57344

/-! ### Pipes -/

namespace Ends

theorem close_side {v : Bool} : (e.close w).side v = (e.side v && decide (v ≠ w)) := by
  cases w <;> cases v <;> cases e <;> simp [close, side]

theorem close_iff (e : Ends) (w : Bool) : ((e.close w).readopen = false ∧ (e.close w).writeopen = false) ↔
    ∀ v, (e.close w).side v = false := by
  constructor
  · rintro ⟨hr, hw⟩ v
    cases v
    · exact hr
    · exact hw
  · exact fun h => ⟨h false, h true⟩

end Ends

namespace PipeOk

variable {kind : FileId → Option Kind} {pipe : Page → Option Ends} {e : Ends}

/-- The kinds of files that are no pipes do not matter. -/
theorem congr {kind' : FileId → Option Kind} (h : PipeOk kind pipe)
    (hk : ∀ f x w, kind' f = Option.some (.pipe x w) ↔ kind f = Option.some (.pipe x w)) : PipeOk kind' pipe where
  isOpen f x w hf := h.isOpen f x w ((hk f x w).1 hf)
  inj f g x w hf hg := h.inj f g x w ((hk f x w).1 hf) ((hk g x w).1 hg)
  used x e w hx hw := by
    obtain ⟨f, hf⟩ := h.used x e w hx hw
    exact ⟨f, (hk f x w).2 hf⟩
  some := h.some

/-- What is known when a file is closed for the last time. -/
theorem ne_of_close (h : PipeOk kind pipe) (hf : kind f = Option.some (.pipe x w)) {y : Page} {v : Bool}
    (hg : update kind f none g = Option.some (.pipe y v)) : kind g = Option.some (.pipe y v) ∧ (y = x → v ≠ w) := by
  rw [update_apply] at hg
  split at hg
  · cases hg
  · rename_i hne
    refine ⟨hg, ?_⟩
    rintro rfl rfl
    exact hne (h.inj g f _ _ hg hf)

/-- The last reference to one end is gone, and the other end is open. -/
theorem close (h : PipeOk kind pipe) (hf : kind f = Option.some (.pipe x w)) (he : pipe x = Option.some e)
    (hv : ∃ v, (e.close w).side v = true) :
    PipeOk (update kind f none) (update pipe x (Option.some (e.close w))) where
  isOpen g y v hg := by
    obtain ⟨hg, hne⟩ := h.ne_of_close hf hg
    obtain ⟨e', he', hside⟩ := h.isOpen g y v hg
    rw [update_apply]
    split
    · rename_i heq
      rw [heq, he] at he'
      refine ⟨_, rfl, ?_⟩
      rw [Ends.close_side, Option.some.inj he', hside, Bool.true_and, decide_eq_true (hne heq)]
    · exact ⟨e', he', hside⟩
  inj g g' y v hg hg' := h.inj g g' y v (h.ne_of_close hf hg).1 (h.ne_of_close hf hg').1
  used y e' v hy hside := by
    rw [update_apply] at hy
    split at hy
    · rename_i heq
      rw [← Option.some.inj hy, Ends.close_side, Bool.and_eq_true, decide_eq_true_iff] at hside
      obtain ⟨g, hg⟩ := h.used x e v he hside.1
      refine ⟨g, ?_⟩
      rw [heq, update_of_ne, hg]
      rintro rfl
      rw [hf] at hg
      cases hg
      exact hside.2 rfl
    · rename_i hne
      obtain ⟨g, hg⟩ := h.used y e' v hy hside
      refine ⟨g, ?_⟩
      rw [update_of_ne, hg]
      rintro rfl
      rw [hf] at hg
      cases hg
      exact hne rfl
  some y e' hy := by
    rw [update_apply] at hy
    split at hy
    · rw [← Option.some.inj hy]
      obtain ⟨v, hv⟩ := hv
      cases v
      · exact Or.inr hv
      · exact Or.inl hv
    · exact h.some y e' hy

/-- The last reference to the second end is gone. -/
theorem free (h : PipeOk kind pipe) (hf : kind f = Option.some (.pipe x w)) (he : pipe x = Option.some e)
    (hv : ∀ v, (e.close w).side v = false) : PipeOk (update kind f none) (update pipe x none) where
  isOpen g y v hg := by
    obtain ⟨hg, hne⟩ := h.ne_of_close hf hg
    obtain ⟨e', he', hside⟩ := h.isOpen g y v hg
    refine ⟨e', ?_, hside⟩
    rw [update_of_ne, he']
    rintro rfl
    rw [he] at he'
    have hclosed := hv v
    rw [Ends.close_side, Option.some.inj he', hside, Bool.true_and, decide_eq_false_iff_not] at hclosed
    exact hclosed (hne rfl)
  inj g g' y v hg hg' := h.inj g g' y v (h.ne_of_close hf hg).1 (h.ne_of_close hf hg').1
  used y e' v hy hside := by
    rw [update_apply] at hy
    split at hy
    · cases hy
    · rename_i hne
      obtain ⟨g, hg⟩ := h.used y e' v hy hside
      refine ⟨g, ?_⟩
      rw [update_of_ne, hg]
      rintro rfl
      rw [hf] at hg
      cases hg
      exact hne rfl
  some y e' hy := by
    rw [update_apply] at hy
    split at hy
    · cases hy
    · exact h.some y e' hy

/-- A new pipe. -/
theorem alloc (h : PipeOk kind pipe) (hx : pipe x = none) (hf : kind f = none) (hg : kind g = none) (hne : f ≠ g) :
    PipeOk (update (update kind f (Option.some (.pipe x false))) g (Option.some (.pipe x true)))
      (update pipe x (Option.some ⟨true, true⟩)) := by
  have hkind : ∀ k y v, update (update kind f (Option.some (.pipe x false))) g
      (Option.some (.pipe x true)) k = Option.some (.pipe y v) ↔
        (y = x ∧ (v = true ∧ k = g ∨ v = false ∧ k = f)) ∨ kind k = Option.some (.pipe y v) := by
    intro k y v
    rw [update_apply, update_apply]
    split
    · rename_i heq
      subst heq
      rw [hg]
      cases v <;> simp [hne.symm, eq_comm]
    · rename_i hkg
      split
      · rename_i heq
        subst heq
        rw [hf]
        cases v <;> simp [hne, eq_comm]
      · rename_i hkf
        simp [hkg, hkf]
  have hfresh : ∀ k v, kind k ≠ Option.some (.pipe x v) := by
    intro k v hk
    obtain ⟨e', he', -⟩ := h.isOpen k x v hk
    rw [hx] at he'
    cases he'
  refine ⟨fun k y v hk => ?_, fun k k' y v hk hk' => ?_, fun y e' v hy hside => ?_, fun y e' hy => ?_⟩
  · rcases (hkind k y v).1 hk with ⟨rfl, -⟩ | hold
    · refine ⟨⟨true, true⟩, update_self .., ?_⟩
      cases v <;> rfl
    · obtain ⟨e', he', hside⟩ := h.isOpen k y v hold
      refine ⟨e', ?_, hside⟩
      rw [update_of_ne, he']
      rintro rfl
      exact hfresh k v hold
  · rcases (hkind k y v).1 hk with ⟨rfl, hnew⟩ | hold
    · rcases (hkind k' y v).1 hk' with ⟨-, hnew'⟩ | hold'
      · rcases hnew with ⟨rfl, rfl⟩ | ⟨rfl, rfl⟩ <;> rcases hnew' with ⟨hv, rfl⟩ | ⟨hv, rfl⟩ <;>
          first | rfl | cases hv
      · exact absurd hold' (hfresh k' v)
    · rcases (hkind k' y v).1 hk' with ⟨rfl, -⟩ | hold'
      · exact absurd hold (hfresh k v)
      · exact h.inj k k' y v hold hold'
  · rw [update_apply] at hy
    split at hy
    · rename_i heq
      cases v
      · exact ⟨f, (hkind f y false).2 (Or.inl ⟨heq, Or.inr ⟨rfl, rfl⟩⟩)⟩
      · exact ⟨g, (hkind g y true).2 (Or.inl ⟨heq, Or.inl ⟨rfl, rfl⟩⟩)⟩
    · obtain ⟨k, hk⟩ := h.used y e' v hy hside
      exact ⟨k, (hkind k y v).2 (Or.inr hk)⟩
  · rw [update_apply] at hy
    split at hy
    · rw [← Option.some.inj hy]
      exact Or.inl rfl
    · exact h.some y e' hy

end PipeOk

/-! ## Closing a file -/

theorem vm_ok {α : Type} {m : VM α} {a : α} (h : m s.mem = .ok a mem) : vm m s = .ok a (s.setMem mem) :=
  zoom_ok h

/-- The file with its count lowered. -/
def State.release (s : State) (f : FileId) : State := s.setFiles (s.files.setRef f ((s.files.file f).ref - 1))

/-- The file as `fileclose` leaves it when nobody refers to it any more. -/
def State.discard (s : State) (f : FileId) : State := s.setFiles ((s.files.setRef f 0).setKind f none)

theorem discard_kind : (s.discard f).kind = update s.kind f none := by
  funext g
  show (((s.files.setRef f 0).setKind f none).file g).kind = _
  rw [Table.setKind_kind, Table.setRef_kind, update_apply]
  rfl

theorem fileclose_shared (h : 1 < (s.files.file f).ref) : fileclose K f s = .ok () (s.release f) := by
  rw [fileclose, read_bind, if_neg (by omega), if_pos (by omega)]
  rfl

theorem fileclose_last (h : (s.files.file f).ref = 1) (hk : ∀ x w, s.kind f ≠ some (.pipe x w)) :
    fileclose K f s = .ok () (s.discard f) := by
  rw [fileclose, read_bind, if_neg (by omega), if_neg (by omega)]
  refine (modify_bind).trans ?_
  cases hkind : (s.files.file f).kind with
  | none => rfl
  | some k =>
    cases k with
    | pipe x w => exact absurd hkind (hk x w)
    | inode => rfl

theorem fileclose_pipe (h : (s.files.file f).ref = 1) (hk : s.kind f = some (.pipe x w)) :
    fileclose K f s = pipeclose K x w (s.discard f) := by
  have hkind : (s.files.file f).kind = some (.pipe x w) := hk
  rw [fileclose, read_bind, if_neg (by omega), if_neg (by omega), hkind]
  exact modify_bind

theorem pipeclose_half (he : s.pipe x = some e) (hv : ∃ v, (e.close w).side v = true) :
    pipeclose K x w s = .ok () (s.setPipe x (some (e.close w))) := by
  have hnot : ¬ ((e.close w).readopen = false ∧ (e.close w).writeopen = false) := by
    rw [Ends.close_iff]
    obtain ⟨v, hv⟩ := hv
    intro hall
    rw [hall v] at hv
    cases hv
  rw [pipeclose, read_bind, he]
  exact congrFun (if_neg hnot) s

theorem pipeclose_last (he : s.pipe x = some e) (hv : ∀ v, (e.close w).side v = false) :
    pipeclose K x w s = vm (kfree K x) (s.setPipe x none) := by
  rw [pipeclose, read_bind, he]
  exact congrFun (if_pos ((Ends.close_iff e w).2 hv)) s

namespace Inv

theorem setMem (h : Inv K s F) (howns : Owns K (pool K) mem s.rest) : Inv K (s.setMem mem) F where
  owns := by
    rw [State.setMem_rest]
    exact howns
  sound := h.sound
  counted := h.counted
  unused := h.unused
  closed := h.closed
  pipes := h.pipes
  page := h.page

/-- A process changes, and with it the memory. -/
theorem setProc {v : Proc} (h : Inv K s F) (howns : Owns K (pool K) mem (v.pages + s.restBut p))
    (hsound : v.Sound) (hclosed : v.state = .unused ∨ v.state = .zombie → ∀ fd, s.files.ofile (p, fd) = none) :
    Inv K ((s.setMem mem).setProc p v) F where
  owns := by
    rw [State.setProc_rest, State.setMem_restBut]
    exact howns
  sound q := by
    by_cases hq : q = p
    · rw [hq, State.setProc_self]
      exact hsound
    · rw [State.setProc_of_ne v hq]
      exact h.sound q
  counted := h.counted
  unused := h.unused
  closed q hst fd := by
    by_cases hq : q = p
    · rw [hq, State.setProc_self] at hst
      rw [hq]
      exact hclosed hst fd
    · rw [State.setProc_of_ne v hq] at hst
      exact h.closed q hst fd
  pipes := h.pipes
  page := h.page

/-- Only the files change, and no end of a pipe does. -/
theorem setFiles {t : Table Kind} (h : Inv K s F) (hcounted : t.Counted F')
    (hunused : ∀ f, (t.file f).ref = 0 → (t.file f).kind = none)
    (hclosed : ∀ p, (s.proc p).state = .unused ∨ (s.proc p).state = .zombie → ∀ fd, t.ofile (p, fd) = none)
    (hkind : ∀ f x w, (t.file f).kind = some (.pipe x w) ↔ s.kind f = some (.pipe x w)) : Inv K (s.setFiles t) F' where
  owns := by
    rw [State.setFiles_rest]
    exact h.owns
  sound := h.sound
  counted := hcounted
  unused := hunused
  closed := hclosed
  pipes := h.pipes.congr hkind
  page := h.page

section

variable (h : Inv K s ({f} + F))

include h

theorem release (href : 1 < (s.files.file f).ref) : Inv K (s.release f) F := by
  refine h.setFiles h.counted.decr (fun g hg => ?_) h.closed fun g x w => ?_
  · rw [Table.setRef_ref] at hg
    rw [Table.setRef_kind]
    split at hg
    · omega
    · exact h.unused g hg
  · rw [Table.setRef_kind]
    rfl

theorem discard_counted (href : (s.files.file f).ref = 1) : (s.discard f).files.Counted F := by
  have hdecr := h.counted.decr
  rw [href] at hdecr
  exact hdecr.setKind none

theorem discard_unused (g : FileId) (hg : ((s.discard f).files.file g).ref = 0) :
    (s.discard f).kind g = none := by
  rw [discard_kind, update_apply]
  split
  · rfl
  · rename_i hne
    refine h.unused g ?_
    change (((s.files.setRef f 0).setKind f none).file g).ref = 0 at hg
    rw [Table.setKind_ref, Table.setRef_ref, if_neg hne] at hg
    exact hg

theorem discard (href : (s.files.file f).ref = 1) (hk : ∀ x w, s.kind f ≠ some (.pipe x w)) :
    Inv K (s.discard f) F := by
  refine h.setFiles (h.discard_counted href) h.discard_unused h.closed fun g x w => ?_
  show (s.discard f).kind g = _ ↔ _
  rw [discard_kind, update_apply]
  split
  · rename_i heq
    subst heq
    exact iff_of_false nofun (hk x w)
  · rfl

/-- One end of a pipe is closed. -/
theorem half (href : (s.files.file f).ref = 1) (hk : s.kind f = some (.pipe x w))
    (he : s.pipe x = some e) (hv : ∃ v, (e.close w).side v = true) :
    Inv K ((s.discard f).setPipe x (some (e.close w))) F where
  owns := by
    have hrest := State.setPipe_rest (s := s.discard f) (h.page x e he) (some (e.close w))
    rw [show (s.discard f).pipe x = some e from he] at hrest
    have hsame : ((s.discard f).setPipe x (some (e.close w))).rest = s.rest :=
      (add_right_cancel hrest).trans (State.setFiles_rest _)
    rw [hsame]
    exact h.owns
  sound := h.sound
  counted := h.discard_counted href
  unused := h.discard_unused
  closed := h.closed
  pipes := by
    have hpipes := h.pipes.close hk he hv
    rw [← discard_kind] at hpipes
    exact hpipes
  page y e' hy := by
    change update s.pipe x _ y = some e' at hy
    rw [update_apply] at hy
    split at hy
    · rename_i heq
      rw [heq]
      exact h.page x e he
    · exact h.page y e' hy

/-- The second end of a pipe is closed, and the page is given back. -/
theorem last (href : (s.files.file f).ref = 1) (hk : s.kind f = some (.pipe x w))
    (he : s.pipe x = some e) (hv : ∀ v, (e.close w).side v = false) :
    ∃ mem, kfree K x s.mem = .ok () mem ∧ Inv K (((s.discard f).setPipe x none).setMem mem) F := by
  have hrest := State.setPipe_rest (s := s.discard f) (h.page x e he) none
  rw [show (s.discard f).pipe x = some e from he] at hrest
  have hsame : (s.discard f).rest = s.rest := State.setFiles_rest _
  have hhave : Owns K (pool K) s.mem ({x} + ((s.discard f).setPipe x none).rest) := by
    refine h.owns.congr ?_
    rw [← hsame, add_comm]
    exact (hrest.trans (add_zero _)).symm
  obtain ⟨⟨⟩, mem, hfree, howns, -⟩ := kfree_spec hhave
  refine ⟨mem, hfree, ?_⟩
  exact {
    owns := by
      rw [State.setMem_rest]
      exact howns
    sound := h.sound
    counted := h.discard_counted href
    unused := h.discard_unused
    closed := h.closed
    pipes := by
      have hpipes := h.pipes.free hk he hv
      rw [← discard_kind] at hpipes
      exact hpipes
    page := by
      intro y e' hy
      change update s.pipe x _ y = some e' at hy
      rw [update_apply] at hy
      split at hy
      · cases hy
      · exact h.page y e' hy }

end

end Inv

/-- The state with another file, or none, for a descriptor. -/
def State.withOfile (s : State) (i : Slot × Fd) (o : Option FileId) : State := s.setFiles (s.files.setOfile i o)

/-- The call changes neither the processes nor the descriptors. -/
structure Keeps (s s' : State) : Prop where
  proc : s'.proc = s.proc
  ofile : s'.files.ofile = s.files.ofile
  initproc : s'.initproc = s.initproc

/-- **A reference to a file is given up.**  The invariant is about the state with the descriptor `i` as it will be: `exit`
clears it only afterwards. -/
theorem fileclose_spec (h : Inv K (s.withOfile i o) ({f} + F)) :
    Ok (fileclose K f) (fun _ s' => Inv K (s'.withOfile i o) F ∧ Keeps s s') s := by
  have hpos : 0 < (s.files.file f).ref := h.counted.pos
  by_cases href : 1 < (s.files.file f).ref
  · exact ⟨(), _, fileclose_shared href, h.release href, rfl, rfl, rfl⟩
  have hone : (s.files.file f).ref = 1 := by omega
  by_cases hk : ∃ x w, s.kind f = some (.pipe x w)
  · obtain ⟨x, w, hk⟩ := hk
    obtain ⟨e, he, -⟩ := h.pipes.isOpen f x w hk
    by_cases hv : ∃ v, (e.close w).side v = true
    · have hrun : fileclose K f s = .ok () ((s.discard f).setPipe x (some (e.close w))) :=
        (fileclose_pipe hone hk).trans (pipeclose_half he hv)
      exact ⟨(), _, hrun, h.half hone hk he hv, rfl, rfl, rfl⟩
    · have hv' : ∀ v, (e.close w).side v = false := fun v => Bool.eq_false_iff.2 fun hc => hv ⟨v, hc⟩
      have hrun : fileclose K f s = vm (kfree K x) ((s.discard f).setPipe x none) :=
        (fileclose_pipe hone hk).trans (pipeclose_last he hv')
      obtain ⟨mem, hfree, hinv⟩ := h.last hone hk he hv'
      exact ⟨(), _, hrun.trans (vm_ok hfree), hinv, rfl, rfl, rfl⟩
  · have hk' : ∀ x w, s.kind f ≠ some (.pipe x w) := fun x w hc => hk ⟨x, w, hc⟩
    exact ⟨(), _, fileclose_last hone hk', h.discard hone hk', rfl, rfl, rfl⟩

theorem Keeps.refl (s : State) : Keeps s s := ⟨rfl, rfl, rfl⟩

theorem Keeps.trans {s'' : State} (h : Keeps s s') (h' : Keeps s' s'') : Keeps s s'' :=
  ⟨h'.proc.trans h.proc, h'.ofile.trans h.ofile, h'.initproc.trans h.initproc⟩

theorem Inv.congr (h : Inv K s F) (heq : F = F') : Inv K s F' := heq ▸ h

/-- With the descriptors as they are. -/
theorem fileclose_held (h : Inv K s ({f} + F)) : Ok (fileclose K f) (fun _ s' => Inv K s' F ∧ Keeps s s') s := by
  have hsame : ∀ s' : State, s'.files.ofile = s.files.ofile → s'.withOfile (0, 0) (s.files.ofile (0, 0)) = s' := by
    intro s' hofile
    rw [State.withOfile, Table.setOfile, ← hofile, update_eq_self]
    rfl
  have hghost : Inv K (s.withOfile (0, 0) (s.files.ofile (0, 0))) ({f} + F) := by
    rw [hsame s rfl]
    exact h
  refine (fileclose_spec hghost).mono ?_
  rintro _ s' ⟨hinv, hkeeps⟩
  rw [hsame s' hkeeps.ofile] at hinv
  exact ⟨hinv, hkeeps⟩

/-! ## Allocation -/

theorem filealloc_some (h : s.files.filealloc = some f) : filealloc s = .ok (some f) (s.setFiles (s.files.setRef f 1)) := by
  rw [filealloc, read_bind, h]
  rfl

theorem filealloc_none (h : s.files.filealloc = none) : filealloc s = .ok none s := by
  rw [filealloc, read_bind, h]
  rfl

theorem fdalloc_some (h : s.files.fdalloc p = some fd) :
    fdalloc p f s = .ok (some fd) (s.withOfile (p, fd) (some f)) := by
  rw [fdalloc, read_bind, h]
  rfl

theorem fdalloc_none (h : s.files.fdalloc p = none) : fdalloc p f s = .ok none s := by
  rw [fdalloc, read_bind, h]
  rfl

namespace Inv

/-- A file is taken from the table. -/
theorem take (h : Inv K s F) (hf : s.files.filealloc = some f) : Inv K (s.setFiles (s.files.setRef f 1)) ({f} + F) := by
  obtain ⟨-, hcounted⟩ := Table.filealloc_spec h.counted hf
  refine h.setFiles hcounted (fun g hg => ?_) h.closed fun g x w => ?_
  · rw [Table.setRef_ref] at hg
    rw [Table.setRef_kind]
    split at hg
    · cases hg
    · exact h.unused g hg
  · rw [Table.setRef_kind]
    rfl

/-- A descriptor changes. -/
theorem withOfile (h : Inv K s F)
    (hcounted : (s.files.setOfile i o).Counted F') (hlive : o ≠ none → (s.proc i.1).state = .live ∨ (s.proc i.1).state = .embryo) :
    Inv K (s.withOfile i o) F' := by
  refine h.setFiles hcounted h.unused (fun q hq fd => ?_) fun _ _ _ => Iff.rfl
  rw [Table.setOfile_ofile]
  split
  · rename_i heq
    by_contra hne
    rw [← heq] at hlive
    rcases hlive hne with hl | hl <;> rcases hq with hq | hq <;> cases hl.symm.trans hq
  · exact h.closed q hq fd

theorem install (h : Inv K s ({f} + F)) (hfd : s.files.fdalloc p = some fd) (hlive : (s.proc p).state = .live) :
    Inv K (s.withOfile (p, fd) (some f)) F :=
  h.withOfile (h.counted.install (Table.fdalloc_none hfd)) fun _ => Or.inl hlive

/-- A descriptor is cleared. -/
theorem clear (h : Inv K s F) (hi : s.files.ofile i = some f) : Inv K (s.withOfile i none) ({f} + F) :=
  h.withOfile (h.counted.clear hi) fun hne => absurd rfl hne

/-- A page that has just been allocated is nobody's. -/
theorem notMem_rest (h : Owns K (pool K) mem ({x} + s.rest)) : x ∉ s.rest := by
  have hnodup : (↑mem.free + ({x} + s.rest) : Multiset Page).Nodup := by
    rw [h.total]
    exact pool_nodup
  have hnodup' := (Multiset.nodup_add.1 hnodup).2.1
  rw [Multiset.singleton_add, Multiset.nodup_cons] at hnodup'
  exact hnodup'.1

theorem valid_of_owns {H : Multiset Page} (h : Owns K (pool K) mem ({x} + H)) : K.Valid x := by
  refine h.valid x ?_
  rw [← h.total]
  exact Multiset.mem_add.2 (Or.inr (Multiset.mem_add.2 (Or.inl (Multiset.mem_singleton_self x))))

end Inv

/-- The state with a new pipe. -/
def State.newPipe (s : State) (x : Page) (f g : FileId) : State :=
  (s.setPipe x (some ⟨true, true⟩)).setFiles ((s.files.setKind f (some (.pipe x false))).setKind g (some (.pipe x true)))

theorem newPipe_kind : (s.newPipe x f g).kind =
    update (update s.kind f (some (.pipe x false))) g (some (.pipe x true)) := by
  funext k
  show (((s.files.setKind f _).setKind g _).file k).kind = _
  rw [Table.setKind_kind, Table.setKind_kind, update_apply, update_apply]
  rfl

/-- A page becomes a pipe. -/
theorem Inv.newPipe (h : Inv K s F) (howns : Owns K (pool K) mem ({x} + s.rest)) (hf : s.kind f = none)
    (hg : s.kind g = none) (hne : f ≠ g) (hfr : (s.files.file f).ref ≠ 0) (hgr : (s.files.file g).ref ≠ 0) :
    Inv K ((s.setMem mem).newPipe x f g) F := by
  have hvalid : x < 57344 := (Inv.valid_of_owns howns).2
  have hnone : s.pipe x = none := by
    by_contra hc
    obtain ⟨e, he⟩ := Option.ne_none_iff_exists'.1 hc
    exact Inv.notMem_rest howns (State.mem_rest_of_pipe hvalid he)
  have hrest := State.setPipe_rest (s := s.setMem mem) hvalid (some ⟨true, true⟩)
  rw [show (s.setMem mem).pipe x = none from hnone, State.setMem_rest] at hrest
  refine ⟨?_, h.sound, (h.counted.setKind _).setKind _, fun k hk => ?_, h.closed, ?_, fun y e hy => ?_⟩
  · refine howns.congr ?_
    rw [State.newPipe, State.setFiles_rest, add_comm]
    exact ((add_zero _).symm.trans hrest).symm
  · rw [newPipe_kind]
    have hk' : (s.files.file k).ref = 0 := by
      change (((s.files.setKind f _).setKind g _).file k).ref = 0 at hk
      rw [Table.setKind_ref, Table.setKind_ref] at hk
      exact hk
    rw [update_of_ne, update_of_ne]
    · exact h.unused k hk'
    · rintro rfl
      exact hfr hk'
    · rintro rfl
      exact hgr hk'
  · rw [newPipe_kind]
    exact h.pipes.alloc hnone hf hg hne
  · change update s.pipe x _ y = some e at hy
    rw [update_apply] at hy
    split at hy
    · rename_i heq
      rw [heq]
      exact hvalid
    · exact h.page y e hy

/-- **`pipealloc` returns two files, or has kept nothing.** -/
theorem pipealloc_spec (h : Inv K s F) :
    Ok (pipealloc K) (fun r s' => (r = none → Inv K s' F) ∧
      (∀ f0 f1, r = some (f0, f1) → Inv K s' ({f0} + ({f1} + F))) ∧ Keeps s s') s := by
  cases hf0 : s.files.filealloc with
  | none => exact ⟨none, s, bind_ok (filealloc_none hf0), fun _ => h, nofun, .refl s⟩
  | some f0 =>
    refine Ok.step (filealloc_some hf0) ?_
    have h1 := h.take hf0
    have hk0 : s.kind f0 = none := h.unused f0 (Table.filealloc_spec h.counted hf0).1
    have hkeeps1 : Keeps s (s.setFiles (s.files.setRef f0 1)) := ⟨rfl, rfl, rfl⟩
    cases hf1 : (s.setFiles (s.files.setRef f0 1)).files.filealloc with
    | none =>
      refine Ok.step (filealloc_none hf1) ?_
      obtain ⟨⟨⟩, s', hclose, hinv, hkeeps⟩ := fileclose_held h1
      exact ⟨none, s', bind_ok hclose, fun _ => hinv, nofun, hkeeps1.trans hkeeps⟩
    | some f1 =>
      refine Ok.step (filealloc_some hf1) ?_
      have h2 := h1.take hf1
      obtain ⟨hzero, -⟩ := Table.filealloc_spec h1.counted hf1
      have hk1 := h1.unused f1 hzero
      have hne : f0 ≠ f1 := by
        rintro rfl
        rw [show (s.setFiles (s.files.setRef f0 1)).files = s.files.setRef f0 1 from rfl, Table.setRef_ref, if_pos rfl] at hzero
        cases hzero
      set s2 := (s.setFiles (s.files.setRef f0 1)).setFiles ((s.setFiles (s.files.setRef f0 1)).files.setRef f1 1) with hs2
      have h2' : Inv K s2 ({f0} + ({f1} + F)) := h2.congr (by abel)
      obtain ⟨o, mem, hk, howns, -⟩ := kalloc_spec h2.owns
      refine Ok.step (vm_ok hk) ?_
      cases o with
      | none =>
        have h3 : Inv K (s2.setMem mem) ({f0} + ({f1} + F)) := h2'.setMem (howns.congr (zero_add _))
        obtain ⟨⟨⟩, s4, hclose4, hinv4, hkeeps4⟩ := fileclose_held h3
        obtain ⟨⟨⟩, s5, hclose5, hinv5, hkeeps5⟩ := fileclose_held hinv4
        refine ⟨none, s5, (bind_ok hclose4).trans (bind_ok hclose5), fun _ => hinv5, nofun, ?_⟩
        have hkeeps3 : Keeps s (s2.setMem mem) := ⟨rfl, rfl, rfl⟩
        exact hkeeps3.trans (hkeeps4.trans hkeeps5)
      | some x =>
        have hr1 : (s2.files.file f1).ref = 1 := by
          show (((s.files.setRef f0 1).setRef f1 1).file f1).ref = 1
          rw [Table.setRef_ref, if_pos rfl]
        have hr0 : (s2.files.file f0).ref = 1 := by
          show (((s.files.setRef f0 1).setRef f1 1).file f0).ref = 1
          rw [Table.setRef_ref, if_neg hne, Table.setRef_ref, if_pos rfl]
        have hkind : s2.kind = s.kind := by
          funext k
          show (((s.files.setRef f0 1).setRef f1 1).file k).kind = _
          rw [Table.setRef_kind, Table.setRef_kind]
          rfl
        have hk1' : s2.kind f1 = none := by
          change ((s.files.setRef f0 1).file f1).kind = none at hk1
          rw [Table.setRef_kind] at hk1
          rw [hkind]
          exact hk1
        have hinv := h2'.newPipe howns (by rw [hkind]; exact hk0) hk1' hne (by rw [hr0]; exact nofun) (by rw [hr1]; exact nofun)
        refine ⟨some (f0, f1), _, rfl, nofun, ?_, ⟨rfl, rfl, rfl⟩⟩
        rintro _ _ ⟨⟩
        exact hinv

/-! ## The system calls for files -/

/-- Both files of a pipe are closed. -/
theorem closeBoth_spec (h : Inv K s ({f} + ({g} + F))) :
    Ok (fileclose K f >>= fun _ => fileclose K g >>= fun _ => (pure false : Sys Bool))
      (fun _ s' => Inv K s' F ∧ s'.proc = s.proc) s := by
  obtain ⟨⟨⟩, s1, hclose1, hinv1, hkeeps1⟩ := fileclose_held h
  obtain ⟨⟨⟩, s2, hclose2, hinv2, hkeeps2⟩ := fileclose_held hinv1
  exact ⟨false, s2, (bind_ok hclose1).trans (bind_ok hclose2), hinv2, hkeeps2.proc.trans hkeeps1.proc⟩

theorem sysPipe_spec (h : Inv K s F) (hlive : (s.proc p).state = .live) :
    Ok (sysPipe K p) (fun _ s' => Inv K s' F ∧ s'.proc = s.proc) s := by
  obtain ⟨o, s1, halloc, hnone, hsome, hkeeps⟩ := pipealloc_spec h
  refine Ok.step halloc ?_
  cases o with
  | none => exact ⟨false, s1, rfl, hnone rfl, hkeeps.proc⟩
  | some r =>
    obtain ⟨rf, wf⟩ := r
    have h1 := hsome rf wf rfl
    have hlive1 : (s1.proc p).state = .live := by rw [hkeeps.proc]; exact hlive
    cases hfd0 : s1.files.fdalloc p with
    | none =>
      refine Ok.step (fdalloc_none hfd0) ((closeBoth_spec h1).mono ?_)
      exact fun _ _ hpost => ⟨hpost.1, hpost.2.trans hkeeps.proc⟩
    | some fd0 =>
      refine Ok.step (fdalloc_some hfd0) ?_
      have h2 := h1.install hfd0 hlive1
      cases hfd1 : (s1.withOfile (p, fd0) (some rf)).files.fdalloc p with
      | none =>
        refine Ok.step (fdalloc_none hfd1) ?_
        have hofile : (s1.withOfile (p, fd0) (some rf)).files.ofile (p, fd0) = some rf := update_self ..
        exact (closeBoth_spec (h2.clear hofile)).mono fun _ _ hpost => ⟨hpost.1, hpost.2.trans hkeeps.proc⟩
      | some fd1 =>
        exact Ok.step (fdalloc_some hfd1) ⟨true, _, rfl, h2.install hfd1 hlive1, hkeeps.proc⟩

theorem sysClose_spec (h : Inv K s F) : Ok (sysClose K p fd) (fun _ s' => Inv K s' F ∧ s'.proc = s.proc) s := by
  refine Ok.step read_apply ?_
  cases hfd : s.files.ofile (p, fd) with
  | none => exact ⟨false, s, rfl, h, rfl⟩
  | some f =>
    obtain ⟨⟨⟩, s', hclose, hinv, hkeeps⟩ := fileclose_held (h.clear hfd)
    exact ⟨true, s', (modify_bind).trans (bind_ok hclose), hinv, hkeeps.proc⟩

theorem filedup_some (h : 0 < (s.files.file f).ref) :
    filedup f s = .ok () (s.setFiles (s.files.setRef f ((s.files.file f).ref + 1))) := by
  rw [filedup, read_bind, if_neg (by omega)]
  rfl

/-- Another reference. -/
theorem Inv.incr (h : Inv K s F) :
    Inv K (s.setFiles (s.files.setRef f ((s.files.file f).ref + 1))) ({f} + F) := by
  refine h.setFiles h.counted.incr (fun g hg => ?_) h.closed fun g x w => ?_
  · rw [Table.setRef_ref] at hg
    rw [Table.setRef_kind]
    split at hg
    · cases hg
    · exact h.unused g hg
  · rw [Table.setRef_kind]
    rfl

theorem sysDup_spec (h : Inv K s F) (hlive : (s.proc p).state = .live) :
    Ok (sysDup p fd) (fun _ s' => Inv K s' F ∧ s'.proc = s.proc) s := by
  refine Ok.step read_apply ?_
  cases hfd : s.files.ofile (p, fd) with
  | none => exact ⟨false, s, rfl, h, rfl⟩
  | some f =>
    have hpos := h.counted.pos_of_ofile hfd
    cases hnew : s.files.fdalloc p with
    | none => exact ⟨false, s, bind_ok (fdalloc_none hnew), h, rfl⟩
    | some fd' =>
      refine Ok.step (fdalloc_some hnew) ?_
      have hpos' : 0 < ((s.withOfile (p, fd') (some f)).files.file f).ref := hpos
      -- `filedup` comes after `fdalloc`, but the result is the same
      have hinv := (h.incr (f := f)).install (p := p) hnew hlive
      exact ⟨true, _, bind_ok (filedup_some hpos'), hinv, rfl⟩

theorem Inv.setKind (h : Inv K s F) (hk : s.kind f = none) (href : (s.files.file f).ref ≠ 0) :
    Inv K (s.setFiles (s.files.setKind f (some .inode))) F := by
  refine h.setFiles (h.counted.setKind _) (fun g hg => ?_) h.closed fun g x w => ?_
  · rw [Table.setKind_ref] at hg
    rw [Table.setKind_kind, if_neg]
    · exact h.unused g hg
    · rintro rfl
      exact href hg
  · rw [Table.setKind_kind]
    split
    · rename_i heq
      rw [heq, hk]
      exact iff_of_false nofun nofun
    · rfl

theorem sysOpen_spec (h : Inv K s F) (hlive : (s.proc p).state = .live) :
    Ok (sysOpen K p) (fun _ s' => Inv K s' F ∧ s'.proc = s.proc) s := by
  cases hf : s.files.filealloc with
  | none => exact ⟨false, s, bind_ok (filealloc_none hf), h, rfl⟩
  | some f =>
    refine Ok.step (filealloc_some hf) ?_
    have h1 := h.take hf
    have hkind : s.kind f = none := h.unused f (Table.filealloc_spec h.counted hf).1
    cases hfd : (s.setFiles (s.files.setRef f 1)).files.fdalloc p with
    | none =>
      refine Ok.step (fdalloc_none hfd) ?_
      obtain ⟨⟨⟩, s', hclose, hinv, hkeeps⟩ := fileclose_held h1
      exact ⟨false, s', bind_ok hclose, hinv, hkeeps.proc⟩
    | some fd =>
      have h2 := h1.install hfd hlive
      have hkind2 : ((s.setFiles (s.files.setRef f 1)).withOfile (p, fd) (some f)).kind f = none := by
        show ((s.files.setRef f 1).file f).kind = none
        rw [Table.setRef_kind]
        exact hkind
      have href2 : (((s.setFiles (s.files.setRef f 1)).withOfile (p, fd) (some f)).files.file f).ref ≠ 0 := by
        show ((s.files.setRef f 1).file f).ref ≠ 0
        rw [Table.setRef_ref, if_pos rfl]
        exact nofun
      exact Ok.step (fdalloc_some hfd) ⟨true, _, rfl, h2.setKind hkind2 href2, rfl⟩

end OsLab.Xv6.Memory
