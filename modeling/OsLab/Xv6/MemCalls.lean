import OsLab.Xv6.MemInv

/-!
# The system calls for processes

Every system call keeps the invariant `Inv`, on all its paths, and with it `State.Full`: that all pages of a process up to its
size are mapped.

* `growproc_spec`, `fork_spec`, `exit_spec`, `wait_spec`, `exec_spec`.
* `perform_spec`: one step of the system.
-/

namespace OsLab.Xv6.Memory

open Vm Files Exec Function

variable {K : Kernel} {s s' : State} {F : Multiset FileId} {p q np : Slot} {f : FileId} {x : Page} {n : BitVec 32}
  {d d' : Space} {mem : Kmem} {r : Space × ℕ} {l : List Fd} {sz : ℕ} {v : Proc}

/-- All pages of all processes are mapped up to their sizes. -/
def State.Full (s : State) : Prop :=
  ∀ p d, (s.proc p).pgdir = some d → ∀ w < npages (s.proc p).sz, (d.pte w).isSome = true

theorem State.Full.congr (h : s.Full) (hproc : s'.proc = s.proc) : s'.Full := by
  intro p
  rw [hproc]
  exact h p

/-- One process changes. -/
theorem State.Full.setProc (h : s.Full)
    (hv : ∀ d, v.pgdir = some d → ∀ w < npages v.sz, (d.pte w).isSome = true) : (s.setProc p v).Full := by
  intro q
  by_cases hq : q = p
  · rw [hq, State.setProc_self]
    exact hv
  · rw [State.setProc_of_ne v hq]
    exact h q

/-! ## `sbrk` -/

theorem npages_mono {a b : ℕ} (h : a ≤ b) : npages a ≤ npages b := by
  unfold npages pgsize
  omega

theorem Dir.resized {newsz : ℕ} (h : Dir d sz) (hr : Resized sz newsz d r) :
    Dir r.1 (if r.2 = 0 then sz else r.2) := by
  split
  · rename_i hzero
    exact ⟨hr.wf, h.dev.grown hr.grown, h.size, by rw [hr.failed hzero]; exact h.above⟩
  · rename_i hne
    obtain ⟨hsize, hlt⟩ := hr.size hne
    refine ⟨hr.wf, h.dev.grown hr.grown, ⟨Nat.pos_of_ne_zero hne, ?_⟩, fun w hlo hhi => ?_⟩
    · rw [hsize]
      exact max_lt h.size.2 hlt
    · rw [hr.other hne w (Or.inr hlo)]
      exact h.above w ((npages_mono (hsize ▸ le_max_left ..)).trans hlo) hhi

theorem Dir.trimmed {newsz : ℕ} (h : Dir d sz) (ht : Trimmed d (npages newsz) (npages sz) d') :
    Dir d' (if min sz newsz = 0 then sz else min sz newsz) := by
  have hwf := ht.wf
  have hdev : d'.Dev := h.dev.grown ht.grown
  split
  · refine ⟨hwf, hdev, h.size, fun w hlo hhi => ?_⟩
    rw [ht.pte, if_neg (by omega)]
    exact h.above w hlo hhi
  · rename_i hne
    refine ⟨hwf, hdev, ⟨Nat.pos_of_ne_zero hne, (min_le_left ..).trans_lt h.size.2⟩, fun w hlo hhi => ?_⟩
    rw [ht.pte]
    split
    · rfl
    · rename_i hnot
      refine h.above w ?_ hhi
      by_contra hlt
      refine hnot ⟨?_, Nat.lt_of_not_le hlt⟩
      rcases min_choice sz newsz with heq | heq
      · rw [heq] at hlo
        exact absurd hlo hlt
      · rw [heq] at hlo
        exact hlo

/-- What remains after shrinking to a size that is not 0 is mapped. -/
theorem present_trimmed {newsz : ℕ} (ht : Trimmed d (npages newsz) (npages sz) d') (hne : min sz newsz ≠ 0)
    (h : ∀ w < npages sz, (d.pte w).isSome = true) :
    ∀ w < npages (if min sz newsz = 0 then sz else min sz newsz), (d'.pte w).isSome = true := by
  rw [if_neg hne]
  intro w hw
  have hnew : w < npages newsz := hw.trans_le (npages_mono (min_le_right ..))
  rw [ht.pte, if_neg fun hc => absurd hc.1 (Nat.not_le.2 hnew)]
  exact h w (hw.trans_le (npages_mono (min_le_left ..)))

theorem Proc.pages_some (hk : v.kstack = some x) (hd : v.pgdir = some d) : v.pages = {x} + d.pages := by
  rw [Proc.pages, hk, hd]
  rfl

/-- The pages of a directory and the others. -/
theorem Inv.owns_dir (h : Inv K s F) (hk : (s.proc p).kstack = some x) (hd : (s.proc p).pgdir = some d) :
    Owns K (pool K) s.mem (d.pages + ({x} + s.restBut p)) := by
  refine h.owns.congr ?_
  rw [State.rest_eq s p, Proc.pages_some hk hd]
  abel

/-- The directory of a live process changes. -/
theorem Inv.setDir (h : Inv K s F) (hlive : (s.proc p).state = .live)
    (hk : (s.proc p).kstack = some x) (howns : Owns K (pool K) mem (d.pages + ({x} + s.restBut p))) (hd : Dir d sz) :
    Inv K ((s.setMem mem).setProc p { s.proc p with pgdir := some d, sz := sz }) F := by
  refine h.setProc (howns.congr ?_) ⟨fun hst => ?_, fun hst => ?_, fun _ => ⟨x, d, hk, rfl, hd⟩⟩ fun hst => ?_
  · rw [Proc.pages_some (v := { s.proc p with pgdir := some d, sz := sz }) hk rfl]
    abel
  · cases hlive.symm.trans hst
  · cases hlive.symm.trans hst
  · rcases hst with hst | hst <;> cases hlive.symm.trans hst

/-- The process with another directory and, unless it is 0, another size. -/
def Proc.resize (v : Proc) (r : Space × ℕ) : Proc := { v with pgdir := some r.1, sz := if r.2 = 0 then v.sz else r.2 }

theorem growproc_grow (hd : (s.proc p).pgdir = some d) (hpos : 0 < n.toInt)
    (hr : allocuvm K d (s.proc p).sz (BitVec.ofNat 32 (s.proc p).sz + n).toNat s.mem = .ok r mem) :
    growproc K p n s = .ok (decide (r.2 ≠ 0)) ((s.setMem mem).setProc p ((s.proc p).resize r)) := by
  rw [growproc, read_bind, hd]
  dsimp only
  rw [if_pos hpos]
  exact bind_ok (vm_ok hr)

theorem growproc_shrink (hd : (s.proc p).pgdir = some d) (hneg : n.toInt < 0)
    (hr : deallocuvm K d (s.proc p).sz (BitVec.ofNat 32 (s.proc p).sz + n).toNat s.mem = .ok r mem) :
    growproc K p n s = .ok (decide (r.2 ≠ 0)) ((s.setMem mem).setProc p ((s.proc p).resize r)) := by
  rw [growproc, read_bind, hd]
  dsimp only
  rw [if_neg (by omega), if_pos hneg]
  exact bind_ok (vm_ok hr)

/-- **`sbrk` keeps the pages of the process up to its size, unless it is told to remove them all.** -/
theorem growproc_spec (h : Inv K s F) (hlive : (s.proc p).state = .live) :
    Ok (growproc K p n) (fun _ s' => Inv K s' F ∧
      (s.Full → BitVec.ofNat 32 (s.proc p).sz + n ≠ 0 → s'.Full)) s := by
  obtain ⟨x, d, hk, hd, hdir⟩ := (h.sound p).used (Or.inl hlive)
  have howns := h.owns_dir hk hd
  rcases lt_trichotomy n.toInt 0 with hneg | hzero | hpos
  · obtain ⟨r, mem, hr, howns', htrim, hmin, -⟩ := deallocuvm_spec (BitVec.ofNat 32 (s.proc p).sz + n).toNat hdir.wf hdir.size.2.le howns
    have hdir' := hdir.trimmed htrim
    rw [← hmin] at hdir'
    refine ⟨_, _, growproc_shrink hd hneg hr, h.setDir hlive hk howns' hdir', fun hfull hne => ?_⟩
    refine State.Full.setProc (hfull.congr rfl) ?_
    have hnew : (BitVec.ofNat 32 (s.proc p).sz + n).toNat ≠ 0 := fun hz => hne (BitVec.eq_of_toNat_eq hz)
    have hsz := hdir.size.1
    have hpresent := present_trimmed htrim (by omega) (hfull p d hd)
    rw [← hmin] at hpresent
    rintro _ ⟨⟩
    exact hpresent
  · refine ⟨true, s, ?_, h, fun hfull _ => hfull⟩
    rw [growproc, read_bind, hd]
    dsimp only
    rw [if_neg (by omega), if_neg (by omega)]
    rfl
  · obtain ⟨r, mem, hr, howns', hres, -⟩ := allocuvm_spec (BitVec.ofNat 32 (s.proc p).sz + n).toNat hdir.wf hdir.above howns
    refine ⟨_, _, growproc_grow hd hpos hr, h.setDir hlive hk howns' (hdir.resized hres), fun hfull _ => ?_⟩
    refine State.Full.setProc (hfull.congr rfl) ?_
    rintro _ ⟨⟩
    exact (hres.mapped ⟨hfull p d hd, hdir.above⟩).present

/-! ## `fork` -/

theorem first_state {P : Proc → Bool} (h : s.first P = some q) : P (s.proc q) = true := by
  have hfound := List.find?_some h
  exact hfound

theorem allocproc_spec (h : Inv K s F) :
    Ok allocproc (fun r s' => (r = none → Inv K s' F ∧ s'.proc = s.proc) ∧
      ∀ np, r = some np → Inv K s' F ∧ (s.proc np).state = .unused ∧ (∀ fd, s'.files.ofile (np, fd) = none) ∧
        ∃ x, s'.proc = update s.proc np { s.proc np with state := .embryo, kstack := some x }) s := by
  refine Ok.step read_apply ?_
  cases hfirst : s.first fun v => v.state = .unused with
  | none => exact ⟨none, s, rfl, fun _ => ⟨h, rfl⟩, nofun⟩
  | some np =>
    have hstate : (s.proc np).state = .unused := of_decide_eq_true (first_state hfirst)
    obtain ⟨hnk, hnd⟩ := (h.sound np).unused hstate
    obtain ⟨o, mem, hk, howns, -⟩ := kalloc_spec h.owns
    refine Ok.step (vm_ok hk) ?_
    cases o with
    | none => exact ⟨none, _, rfl, fun _ => ⟨h.setMem (howns.congr (zero_add _)), rfl⟩, nofun⟩
    | some x =>
      refine ⟨some np, _, rfl, nofun, ?_⟩
      rintro _ ⟨⟩
      refine ⟨?_, hstate, h.closed np (Or.inl hstate), x, rfl⟩
      refine h.setProc (howns.congr ?_) ⟨nofun, fun _ => ⟨nofun, fun d hd => ?_⟩, fun hst => ?_⟩ fun hst => ?_
      · have hold : (s.proc np).pages = 0 := by
          rw [Proc.pages, hnk, hnd]
          rfl
        have hnew : Proc.pages { s.proc np with state := .embryo, kstack := some x } = {x} := by
          rw [Proc.pages, hnd]
          exact add_zero _
        rw [State.rest_eq s np, hold, zero_add]
        exact congrArg (· + s.restBut np) hnew.symm
      · cases hnd.symm.trans hd
      · rcases hst with hst | hst <;> cases hst
      · rcases hst with hst | hst <;> cases hst

/-- The child has its own references to the files of its parent. -/
theorem dupFiles_spec (h : Inv K s F) (hembryo : (s.proc np).state = .embryo) (hl : l.Nodup)
    (hnone : ∀ fd ∈ l, s.files.ofile (np, fd) = none) :
    Ok (dupFiles p np l) (fun _ s' => Inv K s' F ∧ s'.proc = s.proc) s := by
  induction l generalizing s with
  | nil => exact ⟨(), s, rfl, h, rfl⟩
  | cons fd l ih =>
    obtain ⟨hfd, hl⟩ := List.nodup_cons.1 hl
    refine Ok.step read_apply ?_
    cases hf : s.files.ofile (p, fd) with
    | none => exact ih h hembryo hl fun fd' hfd' => hnone fd' (List.mem_cons_of_mem _ hfd')
    | some f =>
      have hpos := h.counted.pos_of_ofile hf
      refine Ok.step (filedup_some hpos) (Ok.step modify_apply ?_)
      have hinv := (h.incr (f := f)).withOfile (i := (np, fd)) ((h.incr (f := f)).counted.install (hnone fd List.mem_cons_self))
        fun _ => Or.inr hembryo
      refine ih hinv hembryo hl fun fd' hfd' => ?_
      show (s.files.setOfile (np, fd) (some f)).ofile (np, fd') = none
      rw [Table.setOfile_ofile, if_neg]
      · exact hnone fd' (List.mem_cons_of_mem _ hfd')
      · rintro ⟨⟩
        exact hfd hfd'

/-- The new process before it has a directory. -/
structure Embryo (s : State) (np : Slot) (x : Page) : Prop where
  state : (s.proc np).state = .embryo
  kstack : (s.proc np).kstack = some x
  pgdir : (s.proc np).pgdir = none
  ofile : ∀ fd, s.files.ofile (np, fd) = none

namespace Embryo

theorem rest_eq (h : Embryo s np x) : s.rest = {x} + s.restBut np := by
  rw [State.rest_eq s np, Proc.pages, h.kstack, h.pgdir]
  exact congrArg (· + s.restBut np) (add_zero _)

/-- There was no memory. -/
theorem undo (h : Embryo s np x) (hinv : Inv K s F) (howns : Owns K (pool K) mem (s.restBut np)) :
    Inv K ((s.setMem mem).setProc np { s.proc np with kstack := none, state := .unused }) F := by
  refine hinv.setProc (howns.congr ?_) ⟨fun _ => ⟨rfl, h.pgdir⟩, nofun, fun hst => ?_⟩ fun _ => h.ofile
  · have hpages : Proc.pages { s.proc np with kstack := none, state := .unused } = 0 := by
      rw [Proc.pages, h.pgdir]
      exact add_zero _
    rw [hpages, zero_add]
  · rcases hst with hst | hst <;> cases hst

/-- The new process has a directory. -/
theorem inherit (h : Embryo s np x) (hinv : Inv K s F)
    (howns : Owns K (pool K) mem (d.pages + s.rest)) (hd : Dir d sz) :
    Inv K ((s.setMem mem).setProc np { s.proc np with pgdir := some d, sz := sz, parent := some p }) F := by
  refine hinv.setProc (howns.congr ?_) ⟨fun hst => ?_, fun _ => ⟨?_, ?_⟩, fun hst => ?_⟩ fun hst => ?_
  · rw [Proc.pages_some (v := { s.proc np with pgdir := some d, sz := sz, parent := some p }) h.kstack rfl, h.rest_eq]
    abel
  · cases h.state.symm.trans hst
  · rw [h.kstack]
    exact nofun
  · rintro _ ⟨⟩
    exact hd
  · rcases hst with hst | hst <;> cases h.state.symm.trans hst
  · rcases hst with hst | hst <;> cases h.state.symm.trans hst

end Embryo

/-- The new process may run. -/
theorem Inv.launch (h : Inv K s F) (hembryo : (s.proc np).state = .embryo) (hk : (s.proc np).kstack = some x)
    (hd : (s.proc np).pgdir = some d) : Inv K (s.setProc np { s.proc np with state := .live }) F := by
  refine h.setProc (h.owns.congr (State.rest_eq s np)) ⟨nofun, nofun, fun _ => ?_⟩ fun hst => ?_
  · exact ⟨x, d, hk, hd, ((h.sound np).embryo hembryo).2 d hd⟩
  · rcases hst with hst | hst <;> cases hst

/-- **`fork` makes a process with as many pages, or keeps nothing.**  It panics only if a page is not present. -/
theorem fork_spec (h : Inv K s F) (hlive : (s.proc p).state = .live) :
    wp (fork K p) (fun _ s' => Inv K s' F ∧ (s.Full → s'.Full)) (fun _ => False) (fun e => e.Copy ∧ ¬ s.Full) s := by
  obtain ⟨o, s1, halloc, hfail, hsome⟩ := allocproc_spec h
  refine wp_step halloc ?_
  cases o with
  | none => exact ⟨(hfail rfl).1, fun hfull => hfull.congr (hfail rfl).2⟩
  | some np =>
    obtain ⟨h1, hunused, hofile, x, hproc⟩ := hsome np rfl
    have hne : p ≠ np := by
      rintro rfl
      cases hlive.symm.trans hunused
    obtain ⟨y, d, hky, hd, hdir⟩ := (h.sound p).used (Or.inl hlive)
    obtain ⟨-, hnd⟩ := (h.sound np).unused hunused
    have hp : s1.proc p = s.proc p := by rw [hproc, update_of_ne hne]
    have hembryo : Embryo s1 np x := by
      refine ⟨?_, ?_, ?_, hofile⟩ <;> rw [hproc, update_self]
      exact hnd
    have hfull1 : s.Full → s1.Full := by
      intro hfull
      refine (hfull.setProc (p := np) (v := s1.proc np) ?_).congr ?_
      · rw [hembryo.pgdir]
        exact nofun
      · rw [hproc, update_self]
        rfl
    refine wp_step read_apply (wp_step read_apply ?_)
    rw [hp]
    split
    case h_2 _ _ hnot => exact (hnot d x hd hembryo.kstack).elim
    rename_i d0 x0 hd0 hx0
    obtain rfl : d = d0 := Option.mem_unique hd hd0
    obtain rfl : x = x0 := Option.mem_unique hembryo.kstack hx0
    refine wp_bind.2 (wp_zoom ?_)
    refine wp_conseq (copyuvm_spec hdir.wf hdir.size.2.le h1.owns) ?_ (fun _ hl => hl) ?_
    · rintro r mem ⟨hnone2, hsome2, -⟩
      cases r with
      | none =>
        obtain ⟨⟨⟩, mem', hfree, howns, -⟩ := kfree_spec ((hnone2 rfl).congr hembryo.rest_eq)
        refine wp_step (vm_ok hfree) ⟨hembryo.undo h1 howns, fun hfull => ?_⟩
        refine State.Full.setProc (s := s1.setMem mem') ((hfull1 hfull).congr rfl) ?_
        show ∀ d, (s1.proc np).pgdir = some d → _
        rw [hembryo.pgdir]
        exact nofun
      | some d' =>
        obtain ⟨howns, hwf, hdev, hmapped⟩ := hsome2 d' rfl
        have h2 := hembryo.inherit (p := p) h1 howns ⟨hwf, hdev, hdir.size, hmapped.above⟩
        have hproc2 := State.setProc_self (s := s1.setMem mem) (p := np)
          { s1.proc np with pgdir := some d', sz := (s.proc p).sz, parent := some p }
        set s2 := (s1.setMem mem).setProc np { s1.proc np with pgdir := some d', sz := (s.proc p).sz, parent := some p } with hs2
        have hstate2 : (s2.proc np).state = .embryo := by
          rw [hproc2]
          exact hembryo.state
        obtain ⟨⟨⟩, s3, hdup, h3, hproc3⟩ := dupFiles_spec (p := p) h2 hstate2 (List.nodup_finRange _) fun fd _ => hofile fd
        have hnp3 : s3.proc np = { s1.proc np with pgdir := some d', sz := (s.proc p).sz, parent := some p } := by
          rw [hproc3, hproc2]
        refine wp_step modify_apply (wp_step hdup ⟨?_, fun hfull => ?_⟩)
        · refine h3.launch (x := x) (d := d') ?_ ?_ ?_
          · rw [hproc3]
            exact hstate2
          · rw [hnp3]
            exact hembryo.kstack
          · rw [hnp3]
        · have hfull3 : s3.Full := by
            refine State.Full.congr (State.Full.setProc (s := s1.setMem mem) ((hfull1 hfull).congr rfl) ?_) hproc3
            rintro _ ⟨⟩
            exact hmapped.present
          refine hfull3.setProc ?_
          exact hfull3 np
    · rintro e ⟨hcopy, w, hw, hpte⟩
      refine ⟨hcopy, fun hfull => ?_⟩
      have hsome := hfull p d hd w hw
      rw [hpte] at hsome
      cases hsome

/-! ## `exit`, `wait` and `exec` -/

theorem closeFiles_spec (h : Inv K s F) :
    Ok (closeFiles K p l) (fun _ s' => Inv K s' F ∧ s'.proc = s.proc ∧ s'.initproc = s.initproc ∧
      (∀ i, s.files.ofile i = none → s'.files.ofile i = none) ∧ ∀ fd ∈ l, s'.files.ofile (p, fd) = none) s := by
  induction l generalizing s with
  | nil => exact ⟨(), s, rfl, h, rfl, rfl, fun _ hi => hi, nofun⟩
  | cons fd l ih =>
    refine Ok.step read_apply ?_
    cases hf : s.files.ofile (p, fd) with
    | none =>
      refine (ih h).mono ?_
      rintro _ s' ⟨hinv, hproc, hinit, hkeep, hall⟩
      refine ⟨hinv, hproc, hinit, hkeep, fun fd' hfd' => ?_⟩
      rcases List.mem_cons.1 hfd' with rfl | hfd'
      · exact hkeep _ hf
      · exact hall fd' hfd'
    | some f =>
      obtain ⟨⟨⟩, s1, hclose, h1, hkeeps⟩ := fileclose_spec (h.clear hf)
      refine Ok.step hclose (Ok.step modify_apply ((ih h1).mono ?_))
      rintro _ s' ⟨hinv, hproc, hinit, hkeep, hall⟩
      have hcleared : ∀ i, (s1.withOfile (p, fd) none).files.ofile i = if i = (p, fd) then none else s.files.ofile i := by
        intro i
        rw [← hkeeps.ofile]
        exact Table.setOfile_ofile
      refine ⟨hinv, hproc.trans hkeeps.proc, hinit.trans hkeeps.initproc, fun i hi => hkeep i ?_, fun fd' hfd' => ?_⟩
      · rw [hcleared, hi, ite_self]
      · rcases List.mem_cons.1 hfd' with rfl | hfd'
        · exact hkeep _ (by rw [hcleared, if_pos rfl])
        · exact hall fd' hfd'

/-- The children of the process get another parent. -/
def State.reparent (s : State) (p init : Slot) : State :=
  { s with proc := fun q => if (s.proc q).parent = some p then { s.proc q with parent := some init } else s.proc q }

theorem reparent_eq (s : State) (p init q : Slot) :
    ∃ o, (s.reparent p init).proc q = { s.proc q with parent := o } := by
  by_cases h : (s.proc q).parent = some p
  · exact ⟨some init, if_pos h⟩
  · exact ⟨(s.proc q).parent, if_neg h⟩

theorem Inv.reparent (h : Inv K s F) (init : Slot) : Inv K (s.reparent p init) F where
  owns := by
    have hsum : (s.reparent p init).procPages = s.procPages := by
      rw [State.procPages, State.procPages]
      refine Finset.sum_congr rfl fun q _ => ?_
      obtain ⟨o, ho⟩ := reparent_eq s p init q
      rw [ho]
      rfl
    refine h.owns.congr ?_
    rw [State.rest, State.rest, hsum]
    rfl
  sound q := by
    obtain ⟨o, ho⟩ := reparent_eq s p init q
    rw [ho]
    exact ⟨(h.sound q).unused, (h.sound q).embryo, (h.sound q).used⟩
  counted := h.counted
  unused := h.unused
  closed q hst fd := by
    obtain ⟨o, ho⟩ := reparent_eq s p init q
    rw [ho] at hst
    exact h.closed q hst fd
  pipes := h.pipes
  page := h.page

theorem State.Full.reparent (h : s.Full) (init : Slot) : (s.reparent p init).Full := by
  intro q
  obtain ⟨o, ho⟩ := reparent_eq s p init q
  rw [ho]
  exact h q

/-- The process has become a zombie. -/
theorem Inv.zombie (h : Inv K s F) (hlive : (s.proc p).state = .live) (hofile : ∀ fd, s.files.ofile (p, fd) = none) :
    Inv K (s.setProc p { s.proc p with state := .zombie }) F := by
  refine h.setProc (h.owns.congr (State.rest_eq s p)) ⟨nofun, nofun, fun _ => ?_⟩ fun _ => hofile
  exact (h.sound p).used (Or.inl hlive)

theorem exit_spec (h : Inv K s F) (hlive : (s.proc p).state = .live) :
    wp (exit K p) (fun _ s' => Inv K s' F ∧ (s.Full → s'.Full)) (fun _ => False)
      (fun e => e = .initExiting ∧ p = s.initproc) s := by
  refine wp_step read_apply ?_
  by_cases hinit : p = s.initproc
  · rw [if_pos hinit]
    exact ⟨rfl, hinit⟩
  rw [if_neg hinit]
  obtain ⟨⟨⟩, s1, hclose, h1, hproc, -, -, hall⟩ := closeFiles_spec (p := p) (l := List.finRange nofile) h
  refine wp_step hclose (wp_step modify_apply ?_)
  have hlive1 : ((s1.reparent p s.initproc).proc p).state = .live := by
    obtain ⟨o, ho⟩ := reparent_eq s1 p s.initproc p
    rw [ho, hproc]
    exact hlive
  refine ⟨(h1.reparent s.initproc).zombie hlive1 fun fd => hall fd (List.mem_finRange fd), fun hfull => ?_⟩
  have hfull1 : (s1.reparent p s.initproc).Full := State.Full.reparent (hfull.congr hproc) s.initproc
  exact hfull1.setProc (hfull1 p)

/-- **`wait` gives back everything that the child had.** -/
theorem wait_spec (h : Inv K s F) : Ok (wait K p) (fun _ s' => Inv K s' F ∧ (s.Full → s'.Full)) s := by
  refine Ok.step read_apply ?_
  cases hfirst : s.first fun v => decide (v.parent = some p ∧ v.state = .zombie) with
  | none => exact ⟨false, s, rfl, h, id⟩
  | some q =>
    have hzombie := (of_decide_eq_true (first_state hfirst)).2
    obtain ⟨x, d, hk, hd, hdir⟩ := (h.sound q).used (Or.inr hzombie)
    have hhave : Owns K (pool K) s.mem ({x} + (d.pages + s.restBut q)) := (h.owns_dir hk hd).congr (by abel)
    obtain ⟨⟨⟩, mem1, hfree1, howns1, -⟩ := kfree_spec hhave
    obtain ⟨⟨⟩, mem2, hfree2, howns2, -⟩ := freevm_spec hdir.wf howns1
    refine Ok.step read_apply ?_
    split
    case h_2 _ _ hnot => exact (hnot x d hk hd).elim
    rename_i x0 d0 hx0 hd0
    obtain rfl : x = x0 := Option.mem_unique hk hx0
    obtain rfl : d = d0 := Option.mem_unique hd hd0
    refine Ok.step (vm_ok hfree1) (Ok.step (vm_ok hfree2) ⟨true, _, rfl, ?_, fun hfull => ?_⟩)
    · refine h.setProc (howns2.congr (zero_add _).symm) ⟨fun _ => ⟨rfl, rfl⟩, nofun, fun hst => ?_⟩ fun _ => ?_
      · rcases hst with hst | hst <;> cases hst
      · exact h.closed q (Or.inr hzombie)
    · exact State.Full.setProc (s := s.setMem mem2) (hfull.congr rfl) nofun

/-- **`exec` replaces the directory of the process, or keeps nothing.** -/
theorem exec_spec {img : Image} (h : Inv K s F) (hlive : (s.proc p).state = .live) (hargs : ∀ len ∈ img.args, len < 2 ^ 25) :
    Ok (exec K p img) (fun _ s' => Inv K s' F ∧ (s.Full → s'.Full)) s := by
  obtain ⟨x, d, hk, hd, hdir⟩ := (h.sound p).used (Or.inl hlive)
  obtain ⟨o, mem1, hnew, hnone, hsome⟩ := execNew_spec hargs h.owns
  refine Ok.step (vm_ok hnew) ?_
  cases o with
  | none => exact ⟨false, _, rfl, h.setMem (hnone rfl), fun hfull => hfull.congr rfl⟩
  | some r =>
    obtain ⟨d', sz⟩ := r
    obtain ⟨howns1, hruns⟩ := hsome _ rfl
    have hhave : Owns K (pool K) mem1 (d.pages + (d'.pages + ({x} + s.restBut p))) := by
      refine howns1.congr ?_
      rw [State.rest_eq s p, Proc.pages_some hk hd]
      abel
    obtain ⟨⟨⟩, mem2, hfree, howns2, -⟩ := freevm_spec hdir.wf hhave
    refine Ok.step read_apply ?_
    split
    case h_1 hno => cases hd.symm.trans hno
    rename_i d0 hd0
    obtain rfl : d = d0 := Option.mem_unique hd hd0
    refine Ok.step modify_apply (Ok.step (vm_ok hfree) ⟨true, _, rfl, ?_, fun hfull => ?_⟩)
    · exact h.setDir hlive hk howns2 (dir_of_runs hruns)
    · refine State.Full.setProc (s := s.setMem mem2) (hfull.congr rfl) ?_
      rintro _ ⟨⟩
      exact hruns.mapped.present

/-! ## A step -/

/-- No string of 32 MB or more is passed to `exec`. -/
def Call.Short (c : Call) : Prop := ∀ img, c = .exec img → ∀ len ∈ img.args, len < 2 ^ 25

/-- The process is not told to give up all its memory. -/
def State.NotAll (s : State) (p : Slot) (c : Call) : Prop := ∀ n, c = .sbrk n → BitVec.ofNat 32 (s.proc p).sz + n ≠ 0

/-- **One step of the system.** -/
theorem perform_spec {c : Call} (h : Inv K s F) (hlive : (s.proc p).state = .live) (hshort : c.Short) :
    wp (perform K p c) (fun _ s' => Inv K s' F ∧ (s.Full → s.NotAll p c → s'.Full)) (fun _ => False)
      (fun e => e.Copy ∧ ¬ s.Full ∨ e = .initExiting ∧ p = s.initproc) s := by
  cases c with
  | fork =>
    refine wp_bind.2 (wp_conseq (fork_spec h hlive) ?_ (fun _ hl => hl) fun e he => Or.inl he)
    exact fun _ s' hpost => ⟨hpost.1, fun hfull _ => hpost.2 hfull⟩
  | exec img =>
    refine wp_bind.2 (Ok.wp ((exec_spec h hlive (hshort img rfl)).mono ?_))
    exact fun _ s' hpost => ⟨hpost.1, fun hfull _ => hpost.2 hfull⟩
  | exit =>
    refine wp_conseq (exit_spec h hlive) ?_ (fun _ hl => hl) fun e he => Or.inr he
    exact fun _ s' hpost => ⟨hpost.1, fun hfull _ => hpost.2 hfull⟩
  | wait =>
    refine wp_bind.2 (Ok.wp ((wait_spec h).mono ?_))
    exact fun _ s' hpost => ⟨hpost.1, fun hfull _ => hpost.2 hfull⟩
  | waitsch =>
    refine wp_bind.2 (Ok.wp ((wait_spec h).mono ?_))
    exact fun _ s' hpost => ⟨hpost.1, fun hfull _ => hpost.2 hfull⟩
  | sbrk n =>
    refine wp_bind.2 (Ok.wp ((growproc_spec (n := n) h hlive).mono ?_))
    exact fun _ s' hpost => ⟨hpost.1, fun hfull hall => hpost.2 hfull (hall n rfl)⟩
  | pipe =>
    refine wp_bind.2 (Ok.wp ((sysPipe_spec h hlive).mono ?_))
    exact fun _ s' hpost => ⟨hpost.1, fun hfull _ => hfull.congr hpost.2⟩
  | close fd =>
    refine wp_bind.2 (Ok.wp ((sysClose_spec h).mono ?_))
    exact fun _ s' hpost => ⟨hpost.1, fun hfull _ => hfull.congr hpost.2⟩
  | dup fd =>
    refine wp_bind.2 (Ok.wp ((sysDup_spec h hlive).mono ?_))
    exact fun _ s' hpost => ⟨hpost.1, fun hfull _ => hfull.congr hpost.2⟩
  | openFile =>
    refine wp_bind.2 (Ok.wp ((sysOpen_spec h hlive).mono ?_))
    exact fun _ s' hpost => ⟨hpost.1, fun hfull _ => hfull.congr hpost.2⟩

end OsLab.Xv6.Memory
