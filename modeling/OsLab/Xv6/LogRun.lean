import OsLab.Xv6.BioSpec

/-!
# One process at a time

What becomes of a process that runs while no other process does anything: `bread` gets the block,
`brelse` gives it up, `bwrite` puts it on the disk, and none of them waits for ever.
-/

namespace OsLab.Xv6.State

open Function

variable {N : ℕ} {s s' t : State N} {p p' : Fin (N + 1)} {a : Instr} {rest : List Instr} {i j x y : ℕ} {d : Data}
  {q : Proc}

/-- Steps of process `p` and of the disk. -/
def Solo (p : Fin (N + 1)) : State N → State N → Prop :=
  (system N).Steps fun _ a => a = .run p ∨ a = .intr

theorem Solo.trans (h : Solo p s s') (h' : Solo p s' t) : Solo p s t := Relation.ReflTransGen.trans h h'

theorem Solo.run (h : s.run p = some s') : Solo p s s' := Relation.ReflTransGen.single ⟨.run p, Or.inl rfl, h⟩

theorem Solo.intr (h : s.ideintr = some s') : Solo p s s' := Relation.ReflTransGen.single ⟨.intr, Or.inr rfl, h⟩

theorem Solo.congr (h : Solo p s s') (he : s' = t) : Solo p s t := he ▸ h

/-- The blocks whose buffers a process has. -/
def heldBlocks (s : State N) (p : Fin (N + 1)) : Finset ℕ :=
  ((s.proc p).held.map fun i => (s.bc.buf i).blockno).toFinset

theorem mem_heldBlocks : x ∈ s.heldBlocks p ↔ ∃ i ∈ (s.proc p).held, (s.bc.buf i).blockno = x := by
  simp [heldBlocks]

/-- No buffer is dirty. -/
def Clean (s : State N) : Prop := ∀ i, (s.bc.buf i).dirty = false

/-- Process `p` is between two instructions, and no other process has or does anything. -/
structure Alone (s : State N) (p : Fin (N + 1)) : Prop where
  inv : s.BioInv
  ready : (s.proc p).pc = .ready
  others : ∀ p' ≠ p, (s.proc p').pc = .ready ∧ (s.proc p').held = []
  queue : s.idequeue = []

namespace Alone

theorem refs (h : s.Alone p) (i : ℕ) : s.bc.refcnt i = (s.proc p).held.count i := by
  rw [h.inv.refcnt, Finset.sum_eq_single p]
  · rw [Proc.refs, h.ready]
    rfl
  · intro p' _ hp
    rw [Proc.refs, (h.others p' hp).1, (h.others p' hp).2]
    rfl
  · exact fun hno => absurd (Finset.mem_univ p) hno

/-- A buffer is free, if the process has fewer blocks than there are buffers. -/
theorem exists_free (h : s.Alone p) (hlt : (s.heldBlocks p).card < nbuf) : ∃ i < nbuf, s.bc.refcnt i = 0 := by
  by_contra hno
  push Not at hno
  have hused : ∀ i < nbuf, (s.bc.buf i).dev = rootdev ∧ (s.bc.buf i).blockno ∈ s.heldBlocks p := by
    intro i hi
    have hpos := Nat.pos_of_ne_zero (hno i hi)
    refine ⟨(h.inv.inUse i hpos).2, mem_heldBlocks.2 ⟨i, ?_, rfl⟩⟩
    rw [h.refs] at hpos
    exact List.count_pos_iff.1 hpos
  have hcard : (Finset.range nbuf).card ≤ (s.heldBlocks p).card := by
    refine Finset.card_le_card_of_injOn (fun i => (s.bc.buf i).blockno) ?_ ?_
    · intro i hi
      exact (hused i (Finset.mem_range.1 hi)).2
    · intro i hi j hj hij
      rw [Finset.coe_range] at hi hj
      exact h.inv.unique i hi j hj (hused i hi).1 (hused j hj).1 hij
  rw [Finset.card_range] at hcard
  omega

end Alone

theorem BioInv.bget_isSome (h : s.BioInv) (hi : i < nbuf) (href : s.bc.refcnt i = 0)
    (hdirty : (s.bc.buf i).dirty = false) (x : ℕ) : ∃ j c, s.bc.bget rootdev x = some (j, c) := by
  obtain ⟨l, hl, hperm, -⟩ := h.list
  have hlen : l.length ≤ nbuf := by rw [hperm.length_eq, List.length_range]
  have hvictim : s.bc.victim.isSome := by
    rw [hl.victim_eq hlen, List.find?_isSome]
    exact ⟨i, List.mem_reverse.2 (hperm.mem_iff.2 (List.mem_range.2 hi)), decide_eq_true ⟨href, hdirty⟩⟩
  obtain ⟨k, hk⟩ := Option.isSome_iff_exists.1 hvictim
  rw [Bcache.bget]
  cases s.bc.cached rootdev x with
  | some j => exact ⟨_, _, rfl⟩
  | none =>
    rw [hk]
    exact ⟨_, _, rfl⟩

/-! ## Steps forward -/

theorem run_exec (hpc : (s.proc p).pc = .ready) (htodo : (s.proc p).todo = a :: rest) :
    s.run p = s.exec p { s.proc p with todo := rest } a := by
  unfold run
  simp only [hpc, htodo]

theorem run_acquire (hpc : (s.proc p).pc = .locking i x) (hlock : s.lock i = none) :
    s.run p = some (({ s with lock := update s.lock i (some p) }).setProc p
      { s.proc p with pc := .checking i x }) := by
  unfold run
  simp only [hpc, if_pos hlock]

theorem run_hit (hpc : (s.proc p).pc = .checking i x) (hvalid : (s.bc.buf i).valid = true) :
    s.run p = some (s.setProc p { s.proc p with pc := .ready, held := i :: (s.proc p).held }) := by
  unfold run
  simp only [hpc, if_pos hvalid]

theorem run_submit (hpc : (s.proc p).pc = .checking i x) (hvalid : (s.bc.buf i).valid = false)
    (hstart : s.canStart i) :
    s.run p = some (({ s with idequeue := s.idequeue ++ [i] }).setProc p
      { s.proc p with pc := .waiting i (some x) }) := by
  unfold run iderw
  simp only [hpc, hvalid, Bool.false_eq_true, false_and, if_false, hstart, not_true, and_false, Option.map_some]

theorem run_read (hpc : (s.proc p).pc = .waiting i (some x)) (hvalid : (s.bc.buf i).valid = true)
    (hdirty : (s.bc.buf i).dirty = false) :
    s.run p = some (s.setProc p { s.proc p with pc := .ready, held := i :: (s.proc p).held }) := by
  unfold run
  simp only [hpc, hvalid, hdirty, and_self, if_true, Option.isSome_some]

theorem run_written (hpc : (s.proc p).pc = .waiting i none) (hvalid : (s.bc.buf i).valid = true)
    (hdirty : (s.bc.buf i).dirty = false) :
    s.run p = some (s.setProc p { s.proc p with pc := .ready }) := by
  unfold run
  simp only [hpc, hvalid, hdirty, and_self, if_true, Option.isSome_none]
  rfl

theorem run_unref (hpc : (s.proc p).pc = .unrefing i) :
    s.run p = some (({ s with
        bc := s.bc.unref i
        hist := if s.bc.refcnt i - 1 = 0 then
          { s.hist with
            released := update s.hist.released i s.hist.clock
            clock := s.hist.clock + 1 } else s.hist }).setProc p { s.proc p with pc := .ready }) := by
  unfold run
  simp only [hpc, decide_eq_true_eq]

theorem startWrite_of_canStart (hstart : s.canStart i) :
    s.startWrite p q i d =
      some (({ s.give i d with idequeue := s.idequeue ++ [i] }).setProc p { q with pc := .waiting i none }) := by
  have hbuf : (s.give i d).bc.buf i = { s.bc.buf i with dirty := true, data := d } :=
    update_self ..
  have hstart' : (s.give i d).canStart i := by
    unfold canStart
    rw [hbuf]
    exact hstart
  unfold startWrite iderw
  rw [if_neg (by rw [hbuf]; exact fun hno => nomatch hno.2), if_neg (fun hno => hno.2 hstart')]
  rfl

theorem ideintr_last (hqueue : s.idequeue = [i]) :
    s.ideintr = some { s.transfer i with idequeue := [] } := by
  unfold ideintr
  rw [hqueue]

/-! ## Instructions on buffers -/

/-- What `bget` leaves as it was. -/
theorem BioInv.bget_frame (h : s.BioInv) {c : Bcache} (hb : s.bc.bget rootdev x = some (i, c)) :
    (c.buf i).blockno = x ∧ (∀ j, 0 < s.bc.refcnt j → c.buf j = s.bc.buf j) ∧
      ∀ j, (c.buf j).dirty = true → c.buf j = s.bc.buf j := by
  rcases h.bget_cases hb with ⟨-, -, hx, rfl⟩ | ⟨hv, -, rfl⟩
  · exact ⟨hx, fun _ _ => rfl, fun _ _ => rfl⟩
  · obtain ⟨-, href, -⟩ := h.victim_spec hv
    have hself := Bcache.recycle_buf_self s.bc i rootdev x
    refine ⟨by rw [hself], fun j hj => Bcache.recycle_buf_of_ne ?_, fun j hj => Bcache.recycle_buf_of_ne ?_⟩
    · rintro rfl
      omega
    · rintro rfl
      rw [hself] at hj
      cases hj

@[simp] theorem setProc_proc (s : State N) : (s.setProc p q).proc p = q :=
  update_self ..

theorem setProc_of_ne (s : State N) (q : Proc) (h : p' ≠ p) : (s.setProc p q).proc p' = s.proc p' :=
  update_of_ne h _ _

@[simp] theorem setProc_setProc (s : State N) (p : Fin (N + 1)) (q q' : Proc) :
    (s.setProc p q).setProc p q' = s.setProc p q' := by
  simp only [setProc, update_idem]

/-- The end of `bread`: the buffer is valid, or the disk is read. -/
theorem read_buffer (h : s.BioInv) (hpc : (s.proc p).pc = .checking i x) (hqueue : s.idequeue = [])
    (hx : x < fssize) :
    ∃ c, Solo p s (({ s with bc := c }).setProc p
        { s.proc p with pc := .ready, held := i :: (s.proc p).held }) ∧
      (∀ j, (c.buf j).blockno = (s.bc.buf j).blockno) ∧
      ∀ j, (c.buf j).dirty = true → (s.bc.buf j).dirty = true := by
  have hok := h.pcs p
  rw [PcOk, hpc] at hok
  by_cases hvalid : (s.bc.buf i).valid = true
  · exact ⟨s.bc, .run (run_hit hpc hvalid), fun _ => rfl, fun _ hj => hj⟩
  · rw [Bool.not_eq_true] at hvalid
    have hclean : (s.bc.buf i).dirty = false := by
      by_contra hd
      have := (h.dirty i (Bool.eq_true_of_not_eq_false hd)).2.2
      rw [hvalid] at this
      cases this
    have hstart : s.canStart i := by
      rw [canStart, hok]
      exact hx
    let f : Buf → Buf := fun b => { b with valid := true, dirty := false, data := s.disk b.blockno }
    let q : Proc := { s.proc p with pc := .waiting i (some x) }
    have hself : (s.bc.modifyBuf i f).buf i = f (s.bc.buf i) := Bcache.modifyBuf_self ..
    have hsubmit : Solo p s (({ s with idequeue := [i] }).setProc p q) := .run (by
      rw [run_submit hpc hvalid hstart, hqueue]
      rfl)
    have hintr : Solo p (({ s with idequeue := [i] }).setProc p q)
        (({ s with bc := s.bc.modifyBuf i f, idequeue := [] }).setProc p q) := .intr (by
      refine congrArg some ?_
      have hnot : ¬ ((({ s with idequeue := [i] } : State N).setProc p q).bc.buf i).dirty = true := by
        show ¬ (s.bc.buf i).dirty = true
        rw [hclean]
        simp
      rw [transfer, if_neg hnot]
      rfl)
    have hread : Solo p (({ s with bc := s.bc.modifyBuf i f, idequeue := [] }).setProc p q)
        (({ s with bc := s.bc.modifyBuf i f }).setProc p
          { s.proc p with pc := .ready, held := i :: (s.proc p).held }) := .run (by
      have hpc' : ((({ s with bc := s.bc.modifyBuf i f, idequeue := [] } : State N).setProc p q).proc p).pc =
          .waiting i (some x) := by rw [setProc_proc]
      rw [run_read hpc', setProc_proc, setProc_setProc, ← hqueue]
      · show ((s.bc.modifyBuf i f).buf i).valid = true
        rw [hself]
      · show ((s.bc.modifyBuf i f).buf i).dirty = false
        rw [hself])
    refine ⟨_, (hsubmit.trans hintr).trans hread, fun j => ?_, fun j hj => ?_⟩
    · exact congrArg Prod.snd (Bcache.modifyBuf_ident (c := s.bc) (i := i) (f := f) (j := j) rfl)
    · by_cases hji : j = i
      · rw [hji, hself] at hj
        cases hj
      · rwa [Bcache.modifyBuf_of_ne hji] at hj

theorem Solo.bioInv (h : Solo p s s') (hinv : s.BioInv) : s'.BioInv := by
  induction h with
  | refl => exact hinv
  | tail _ hs ih =>
    obtain ⟨a, -, hs⟩ := hs
    exact ih.step hs

/-- `bread` returns. -/
theorem Alone.bread (h : s.Alone p) (hclean : s.Clean) (htodo : (s.proc p).todo = .bread x :: rest) (hx : x < fssize)
    (hnot : x ∉ s.heldBlocks p) (hlt : (s.heldBlocks p).card < nbuf) :
    ∃ s', Solo p s s' ∧ s'.Alone p ∧ (s'.proc p).todo = rest ∧ s'.log = s.log ∧
      s'.heldBlocks p = insert x (s.heldBlocks p) ∧ s'.disk = s.disk ∧ s'.hist = s.hist ∧ s'.Clean := by
  obtain ⟨k, hk, href⟩ := h.exists_free hlt
  obtain ⟨i, c, hb⟩ := h.inv.bget_isSome hk href (hclean k) x
  obtain ⟨hix, hused, hdirty⟩ := h.inv.bget_frame hb
  have hheldref : ∀ j ∈ (s.proc p).held, 0 < s.bc.refcnt j := fun j hj => by
    rw [h.refs]
    exact List.count_pos_iff.2 hj
  have hi : i ∉ (s.proc p).held := fun hmem =>
    hnot (mem_heldBlocks.2 ⟨i, hmem, by rw [← hused i (hheldref i hmem), hix]⟩)
  -- the lock of the buffer is free
  have hlock : s.lock i = none := by
    cases hl : s.lock i with
    | none => rfl
    | some p' =>
      have hown := h.inv.owner i p'
      rw [if_pos hl] at hown
      by_cases hp : p' = p
      · rw [hp, Proc.owns, h.ready, List.count_eq_zero_of_not_mem hi] at hown
        cases hown
      · rw [Proc.owns, (h.others p' hp).1, (h.others p' hp).2] at hown
        cases hown
  let q : Pc → Proc := fun pc => ⟨pc, rest, (s.proc p).held, (s.proc p).op, (s.proc p).logged⟩
  let s1 : State N := ({ s with bc := c }).setProc p (q (.locking i x))
  let s2 : State N := ({ s with bc := c, lock := update s.lock i (some p) }).setProc p
    (q (.checking i x))
  have hs1 : Solo p s s1 := .run (by rw [run_exec h.ready htodo, exec, hb])
  have hs2 : Solo p s1 s2 := .run (by
    have hpc : (s1.proc p).pc = .locking i x := by rw [setProc_proc]
    rw [run_acquire hpc hlock, setProc_proc]
    exact congrArg some (setProc_setProc { s with bc := c, lock := update s.lock i (some p) } p _ _))
  have hpc2 : s2.proc p = q (.checking i x) := setProc_proc ..
  obtain ⟨c', hs3, hblock, hdirty'⟩ := read_buffer ((hs1.trans hs2).bioInv h.inv) (congrArg Proc.pc hpc2)
    h.queue hx
  rw [hpc2] at hs3
  have hsame := setProc_setProc { s with bc := c', lock := update s.lock i (some p) } p
    (q (.checking i x)) ⟨.ready, rest, i :: (s.proc p).held, (s.proc p).op, (s.proc p).logged⟩
  have hsolo := (hs1.trans hs2).trans (hs3.congr hsame)
  refine ⟨_, hsolo, ⟨hsolo.bioInv h.inv, ?_, fun p' hp => ?_, h.queue⟩, ?_, rfl, ?_, rfl, rfl, fun j => ?_⟩
  · rw [setProc_proc]
  · rw [setProc_of_ne _ _ hp]
    exact h.others p' hp
  · rw [setProc_proc]
  · ext y
    rw [mem_heldBlocks, setProc_proc, Finset.mem_insert, mem_heldBlocks]
    show (∃ j ∈ i :: (s.proc p).held, (c'.buf j).blockno = y) ↔ _
    rw [List.exists_mem_cons_iff, hblock]
    refine or_congr ?_ (exists_congr fun j => and_congr_right fun hj => ?_)
    · exact ⟨fun heq => heq.symm.trans hix, fun heq => hix.trans heq.symm⟩
    · rw [hblock]
      show (c.buf j).blockno = y ↔ _
      rw [hused j (hheldref j hj)]
  · refine Bool.eq_false_of_not_eq_true fun hj => ?_
    have hc := hdirty' j hj
    rw [show s2.bc.buf j = s.bc.buf j from hdirty j hc, hclean] at hc
    cases hc

namespace Alone

/-- The buffer of a block the process has. -/
theorem holding_of_mem (h : s.Alone p) (hx : x ∈ s.heldBlocks p) : ∃ i, s.holding p x = some i := by
  obtain ⟨i, hi, rfl⟩ := mem_heldBlocks.1 hx
  refine Option.isSome_iff_exists.1 (List.find?_isSome.2 ⟨i, hi, decide_eq_true ?_⟩)
  exact ⟨(h.inv.lt_of_refs (BioInv.refs_of_held hi)).2, rfl, h.inv.lock_of_held hi⟩

theorem nodup_held (h : s.Alone p) : (s.proc p).held.Nodup := by
  refine List.nodup_iff_count_le_one.2 fun i => ?_
  have hown := h.inv.owner i p
  rw [Proc.owns] at hown
  split_ifs at hown <;> omega

/-- Different buffers the process has are for different blocks. -/
theorem held_inj (h : s.Alone p) (hi : i ∈ (s.proc p).held) (hj : j ∈ (s.proc p).held)
    (hij : (s.bc.buf i).blockno = (s.bc.buf j).blockno) : i = j := by
  obtain ⟨hi, hid⟩ := h.inv.lt_of_refs (BioInv.refs_of_held hi)
  obtain ⟨hj, hjd⟩ := h.inv.lt_of_refs (BioInv.refs_of_held hj)
  exact h.inv.unique i hi j hj hid hjd hij

/-- The contents of a buffer the process has. -/
theorem held_data (h : s.Alone p) (hi : s.holding p x = some i) : (s.bc.buf i).data = s.hist.last x := by
  obtain ⟨hmem, hdev, rfl, -⟩ := holding_eq_some hi
  exact h.inv.data i (h.inv.lt_of_refs (BioInv.refs_of_held hmem)).1 hdev (h.inv.held p i hmem)

/-- `brelse` gives the block up. -/
theorem brelse (h : s.Alone p) (hclean : s.Clean) (htodo : (s.proc p).todo = .brelse x :: rest)
    (hx : x ∈ s.heldBlocks p) :
    ∃ s', Solo p s s' ∧ s'.Alone p ∧ (s'.proc p).todo = rest ∧ s'.log = s.log ∧
      s'.heldBlocks p = (s.heldBlocks p).erase x ∧ s'.disk = s.disk ∧ (∃ r k, s'.hist = { s.hist with released := r, clock := k }) ∧
      s'.Clean := by
  obtain ⟨i, hi⟩ := h.holding_of_mem hx
  obtain ⟨hmem, -, hix, -⟩ := holding_eq_some hi
  let q : Pc → Proc := fun pc =>
    ⟨pc, rest, (s.proc p).held.erase i, (s.proc p).op, (s.proc p).logged⟩
  let s1 : State N := ({ s with lock := update s.lock i none }).setProc p (q (.unrefing i))
  have hs1 : Solo p s s1 := .run (by rw [run_exec h.ready htodo, exec, hi])
  have hproc1 : s1.proc p = q (.unrefing i) := setProc_proc ..
  obtain ⟨r, k, hs2⟩ : ∃ r k, s1.run p = some (({ s with
      lock := update s.lock i none, bc := s.bc.unref i,
      hist := { s.hist with released := r, clock := k } }).setProc p (q .ready)) := by
    by_cases hfree : s1.bc.refcnt i - 1 = 0
    · refine ⟨update s.hist.released i s.hist.clock, s.hist.clock + 1, ?_⟩
      rw [run_unref (congrArg Proc.pc hproc1), if_pos hfree, hproc1]
      exact congrArg some (setProc_setProc { s with
        lock := update s.lock i none, bc := s.bc.unref i, hist := { s.hist with
          released := update s.hist.released i s.hist.clock, clock := s.hist.clock + 1 } } p _ _)
    · refine ⟨s.hist.released, s.hist.clock, ?_⟩
      rw [run_unref (congrArg Proc.pc hproc1), if_neg hfree, hproc1]
      exact congrArg some (setProc_setProc { s with
        lock := update s.lock i none, bc := s.bc.unref i } p _ _)
  have hsolo := hs1.trans (.run hs2)
  have hbuf := Bcache.unref_buf s.bc i
  refine ⟨_, hsolo, ⟨hsolo.bioInv h.inv, ?_, fun p' hp => ?_, h.queue⟩, ?_, rfl, ?_, rfl, ⟨r, k, rfl⟩, fun j => ?_⟩
  · rw [setProc_proc]
  · rw [setProc_of_ne _ _ hp]
    exact h.others p' hp
  · rw [setProc_proc]
  · ext y
    rw [mem_heldBlocks, setProc_proc, Finset.mem_erase, mem_heldBlocks]
    show (∃ j ∈ (s.proc p).held.erase i, ((s.bc.unref i).buf j).blockno = y) ↔ _
    rw [hbuf]
    constructor
    · rintro ⟨j, hj, rfl⟩
      obtain ⟨hji, hj⟩ := (h.nodup_held.mem_erase_iff).1 hj
      exact ⟨fun heq => hji (h.held_inj hj hmem (heq.trans hix.symm)), j, hj, rfl⟩
    · rintro ⟨hy, j, hj, rfl⟩
      refine ⟨j, (h.nodup_held.mem_erase_iff).2 ⟨?_, hj⟩, rfl⟩
      rintro rfl
      exact hy hix
  · show ((s.bc.unref i).buf j).dirty = false
    rw [hbuf]
    exact hclean j

end Alone

theorem exec_of_writes (hw : s.writes p a = some (i, d)) : s.exec p q a = s.startWrite p q i d := by
  cases a with
  | bwrite x e =>
    obtain ⟨k, hk, heq⟩ := Option.map_eq_some_iff.1 hw
    obtain ⟨rfl, rfl⟩ := Prod.mk.inj heq
    rw [exec, hk]
  | bwriteCopy dst src =>
    obtain ⟨k, hk, hw⟩ := Option.bind_eq_some_iff.1 hw
    obtain ⟨m, hm, heq⟩ := Option.map_eq_some_iff.1 hw
    obtain ⟨rfl, rfl⟩ := Prod.mk.inj heq
    rw [exec, hk, hm]
  | bwriteHead =>
    obtain ⟨k, hk, heq⟩ := Option.map_eq_some_iff.1 hw
    obtain ⟨rfl, rfl⟩ := Prod.mk.inj heq
    rw [exec, hk]
  | _ => cases hw

/-- What is recorded when `d` is written to block `x` of the disk. -/
def History.wrote (h : History) (x : ℕ) (d : Data) : History :=
  if x = logstart ∧ d 0 ≠ 0#32 then
    { h with last := Function.update h.last x d, durable := h.groups.length }
  else { h with last := Function.update h.last x d }

/-- `bwrite` puts the block on the disk. -/
theorem Alone.write (h : s.Alone p) (hclean : s.Clean) (htodo : (s.proc p).todo = a :: rest)
    (hw : s.writes p a = some (i, d)) (hx : (s.bc.buf i).blockno = x) (hlt : x < fssize) :
    ∃ s', Solo p s s' ∧ s'.Alone p ∧ (s'.proc p).todo = rest ∧ s'.log = s.log ∧
      s'.heldBlocks p = s.heldBlocks p ∧ s'.disk = update s.disk x d ∧ s'.hist = History.wrote s.hist x d ∧
      s'.Clean := by
  subst hx
  have hmem := writes_held hw
  let q : Pc → Proc := fun pc => ⟨pc, rest, (s.proc p).held, (s.proc p).op, (s.proc p).logged⟩
  let f : Buf → Buf := fun b => { b with dirty := true, data := d }
  let g : Buf → Buf := fun b => { b with valid := true, dirty := false }
  let s1 : State N := ({ s.give i d with idequeue := [i] }).setProc p (q (.waiting i none))
  have hself1 : s1.bc.buf i = f (s.bc.buf i) := Bcache.modifyBuf_self s.bc i f
  have hs1 : Solo p s s1 := .run (by
    rw [run_exec h.ready htodo, exec_of_writes hw, startWrite_of_canStart hlt, h.queue]
    rfl)
  let s2 : State N := ({ s with
    bc := (s.give i d).bc.modifyBuf i g
    disk := update s.disk (s.bc.buf i).blockno d
    hist := History.wrote s.hist (s.bc.buf i).blockno d }).setProc p (q (.waiting i none))
  have hs2 : Solo p s1 s2 := .intr (by
    rw [ideintr_last rfl, transfer, hself1]
    refine congrArg some ?_
    rw [← h.queue]
    rfl)
  have hself2 : s2.bc.buf i = g (f (s.bc.buf i)) := by
    show ((s.give i d).bc.modifyBuf i g).buf i = _
    rw [Bcache.modifyBuf_self]
    exact congrArg g hself1
  have hother : ∀ j ≠ i, s2.bc.buf j = s.bc.buf j := fun j hj => by
    show ((s.give i d).bc.modifyBuf i g).buf j = _
    rw [Bcache.modifyBuf_of_ne hj]
    exact Bcache.modifyBuf_of_ne (c := s.bc) (f := f) hj
  have hblock : ∀ j, (s2.bc.buf j).blockno = (s.bc.buf j).blockno := fun j => by
    by_cases hj : j = i
    · rw [hj, hself2]
    · rw [hother j hj]
  have hproc2 : s2.proc p = q (.waiting i none) := setProc_proc ..
  have hs3 : Solo p s2 (s2.setProc p (q .ready)) := .run (by
    rw [run_written (congrArg Proc.pc hproc2) (by rw [hself2]) (by rw [hself2]), hproc2])
  have hsolo := (hs1.trans hs2).trans hs3
  refine ⟨_, hsolo, ⟨hsolo.bioInv h.inv, ?_, fun p' hp => ?_, h.queue⟩, ?_, rfl, ?_, rfl, rfl, fun j => ?_⟩
  · rw [setProc_proc]
  · rw [setProc_of_ne _ _ hp, setProc_of_ne _ _ hp]
    exact h.others p' hp
  · rw [setProc_proc]
  · ext y
    rw [mem_heldBlocks, setProc_proc, mem_heldBlocks]
    show (∃ j ∈ (s.proc p).held, (s2.bc.buf j).blockno = y) ↔ _
    simp only [hblock]
  · show (s2.bc.buf j).dirty = false
    by_cases hj : j = i
    · rw [hj, hself2]
    · rw [hother j hj, hclean]

/-! ## Recovery -/

/-- Steps of process `p` and of the disk in which no group is given to `commit`. -/
def Restores (p : Fin (N + 1)) (s s' : State N) : Prop := Solo p s s' ∧ s'.hist.groups = s.hist.groups

theorem Restores.trans (h : Restores p s s') (h' : Restores p s' t) : Restores p s t :=
  ⟨h.1.trans h'.1, h'.2.trans h.2⟩

/-- Process `p`, alone and with `todo` left, has the buffers of `held`; everything is on the disk. -/
structure At (s : State N) (p : Fin (N + 1)) (todo : List Instr) (held : Finset ℕ) (disk : ℕ → Data)
    (log : Log) : Prop where
  alone : s.Alone p
  todo : (s.proc p).todo = todo
  held : s.heldBlocks p = held
  clean : s.Clean
  disk : s.disk = disk
  log : s.log = log

section Recovery

variable {held : Finset ℕ} {disk : ℕ → Data} {log : Log} {dst src : ℕ}

/-- A step that leaves the cache alone. -/
theorem At.quiet (h : s.At p rest held disk log) (hpc : q.pc = .ready)
    (hheld : q.held = (s.proc p).held) (log' : Log) (up : Bool) :
    (({ s with log := log', up := up } : State N).setProc p q).At p q.todo held disk log' where
  alone := by
    refine ⟨h.alone.inv.quiet h.alone.ready hpc hheld log' up s.hist rfl rfl rfl, ?_, fun p' hp => ?_, h.alone.queue⟩
    · rw [setProc_proc, hpc]
    · rw [setProc_of_ne _ _ hp]
      exact h.alone.others p' hp
  todo := by rw [setProc_proc]
  held := by
    rw [← h.held, heldBlocks, setProc_proc, hheld]
    rfl
  clean := h.clean
  disk := h.disk
  log := rfl

theorem At.last (h : s.At p rest held disk log) : s.hist.last = disk := by
  funext y
  rw [← h.disk]
  exact (h.alone.inv.disk y fun i _ _ _ => h.clean i).symm

theorem At.bread (h : s.At p (.bread x :: rest) held disk log) (hx : x < fssize) (hnot : x ∉ held)
    (hcard : held.card < nbuf) :
    ∃ s', Restores p s s' ∧ s'.At p rest (insert x held) disk log := by
  obtain ⟨s', hsolo, halone, htodo, hlog, hheld, hdisk, hhist, hclean⟩ := h.alone.bread h.clean h.todo hx
    (h.held.symm ▸ hnot) (by rw [h.held]; exact hcard)
  exact ⟨s', ⟨hsolo, by rw [hhist]⟩, halone, htodo, by rw [hheld, h.held], hclean, by rw [hdisk, h.disk],
    by rw [hlog, h.log]⟩

theorem At.brelse (h : s.At p (.brelse x :: rest) held disk log) (hx : x ∈ held) :
    ∃ s', Restores p s s' ∧ s'.At p rest (held.erase x) disk log := by
  obtain ⟨s', hsolo, halone, htodo, hlog, hheld, hdisk, ⟨r, k, hhist⟩, hclean⟩ :=
    h.alone.brelse h.clean h.todo (h.held.symm ▸ hx)
  exact ⟨s', ⟨hsolo, by rw [hhist]⟩, halone, htodo, by rw [hheld, h.held], hclean, by rw [hdisk, h.disk],
    by rw [hlog, h.log]⟩

theorem At.write (h : s.At p (a :: rest) held disk log) (hw : s.writes p a = some (i, d))
    (hx : (s.bc.buf i).blockno = x) (hlt : x < fssize) (hd : ¬ (x = logstart ∧ d 0 ≠ 0#32)) :
    ∃ s', Restores p s s' ∧ s'.At p rest held (update disk x d) log := by
  obtain ⟨s', hsolo, halone, htodo, hlog, hheld, hdisk, hhist, hclean⟩ := h.alone.write h.clean h.todo hw hx hlt
  rw [History.wrote, if_neg hd] at hhist
  exact ⟨s', ⟨hsolo, by rw [hhist]⟩, halone, htodo, by rw [hheld, h.held], hclean, by rw [hdisk, h.disk],
    by rw [hlog, h.log]⟩

/-- `memmove` and `bwrite`. -/
theorem At.copy (h : s.At p (.bwriteCopy dst src :: rest) held disk log) (hdst : dst ∈ held) (hsrc : src ∈ held)
    (hlt : dst < fssize) (hne : dst ≠ logstart) :
    ∃ s', Restores p s s' ∧ s'.At p rest held (update disk dst (disk src)) log := by
  obtain ⟨i, hi⟩ := h.alone.holding_of_mem (h.held.symm ▸ hdst)
  obtain ⟨j, hj⟩ := h.alone.holding_of_mem (h.held.symm ▸ hsrc)
  have hdata := h.alone.held_data hj
  rw [h.last] at hdata
  have hw : s.writes p (.bwriteCopy dst src) = some (i, disk src) := by
    simp only [writes, hi, hj, Option.bind_some, Option.map_some, hdata]
  exact h.write hw (holding_eq_some hi).2.2.1 hlt fun hno => hne hno.1

/-- The header block without the entries. -/
def clearHead (d : Data) : Data := Function.update d 0 0#32

theorem headWords_zero (hn : s.log.n = 0) : s.headWords d = clearHead d := by
  funext w
  rw [headWords, hn, clearHead]
  by_cases hw : w = 0
  · rw [if_pos hw, hw, update_self]
  · rw [if_neg hw, if_neg (by omega), update_of_ne hw]

theorem At.clearHead (h : s.At p (.bwriteHead :: rest) held disk log) (hmem : logstart ∈ held) (hn : log.n = 0) :
    ∃ s', Restores p s s' ∧
      s'.At p rest held (update disk logstart (State.clearHead (disk logstart))) log := by
  obtain ⟨i, hi⟩ := h.alone.holding_of_mem (h.held.symm ▸ hmem)
  have hdata := h.alone.held_data hi
  rw [h.last] at hdata
  have hw : s.writes p .bwriteHead = some (i, State.clearHead (disk logstart)) := by
    simp only [writes, hi, Option.map_some, hdata, headWords_zero (h.log.symm ▸ hn)]
  refine h.write hw (holding_eq_some hi).2.2.1 (by decide) fun hno => hno.2 ?_
  exact update_self ..

end Recovery

/-- One round of `install_trans`. -/
def installOne (block : ℕ → ℕ) (tail : ℕ) : List Instr :=
  [.bread (logstart + tail + 1), .bread (block tail), .bwriteCopy (block tail) (logstart + tail + 1),
    .brelse (logstart + tail + 1), .brelse (block tail)]

/-- What a round of `install_trans` does to the disk. -/
def installBlock (block : ℕ → ℕ) (disk : ℕ → Data) (tail : ℕ) : ℕ → Data :=
  Function.update disk (block tail) (disk (logstart + tail + 1))

section Recovery

variable {held : Finset ℕ} {disk : ℕ → Data} {log : Log} {block : ℕ → ℕ} {n : ℕ}

theorem At.installOne {tail : ℕ} (h : s.At p (installOne block tail ++ rest) ∅ disk log)
    (htail : tail < nlog - 1) (hlog : ¬ InLog (block tail)) (hlt : block tail < fssize) :
    ∃ s', Restores p s s' ∧ s'.At p rest ∅ (installBlock block disk tail) log := by
  have hin : InLog (logstart + tail + 1) := by
    rw [InLog]
    omega
  have hsize : logstart + tail + 1 < fssize := by
    rw [show logstart = 2 from rfl, show fssize = 1000 from rfl]
    rw [show nlog - 1 = 29 from rfl] at htail
    omega
  have hne : block tail ≠ logstart + tail + 1 := fun heq => hlog (heq ▸ hin)
  have hne' : block tail ≠ logstart := fun heq => hlog (by rw [heq]; decide)
  obtain ⟨s1, hs1, h1⟩ := At.bread h hsize (Finset.notMem_empty _) (by rw [Finset.card_empty]; decide)
  rw [insert_empty_eq] at h1
  obtain ⟨s2, hs2, h2⟩ := h1.bread hlt (by rwa [Finset.mem_singleton]) (by rw [Finset.card_singleton]; decide)
  obtain ⟨s3, hs3, h3⟩ := h2.copy (Finset.mem_insert_self _ _)
    (Finset.mem_insert_of_mem (Finset.mem_singleton_self _)) hlt hne'
  obtain ⟨s4, hs4, h4⟩ := h3.brelse (Finset.mem_insert_of_mem (Finset.mem_singleton_self _))
  obtain ⟨s5, hs5, h5⟩ := h4.brelse (Finset.mem_erase.2 ⟨hne, Finset.mem_insert_self _ _⟩)
  refine ⟨s5, (((hs1.trans hs2).trans hs3).trans hs4).trans hs5, ?_⟩
  have hempty : ((insert (block tail) {logstart + tail + 1} : Finset ℕ).erase (logstart + tail + 1)).erase
      (block tail) = ∅ := by
    ext y
    simp only [Finset.mem_erase, Finset.mem_insert, Finset.mem_singleton, Finset.notMem_empty, iff_false]
    tauto
  rw [hempty] at h5
  exact h5

theorem At.install {tails : List ℕ} (h : s.At p (tails.flatMap (State.installOne block) ++ rest) ∅ disk log)
    (hfit : ∀ t ∈ tails, t < nlog - 1 ∧ ¬ InLog (block t) ∧ block t < fssize) :
    ∃ s', Restores p s s' ∧ s'.At p rest ∅ (tails.foldl (installBlock block) disk) log := by
  induction tails generalizing s disk with
  | nil => exact ⟨s, ⟨.refl, rfl⟩, h⟩
  | cons t tails ih =>
    obtain ⟨ht, hlog, hlt⟩ := hfit t List.mem_cons_self
    obtain ⟨s1, hs1, h1⟩ := h.installOne ht hlog hlt
    obtain ⟨s2, hs2, h2⟩ := ih h1 fun t ht => hfit t (List.mem_cons_of_mem _ ht)
    exact ⟨s2, hs1.trans hs2, h2⟩

/-- `write_head` when the header is empty. -/
theorem At.writeHead (h : s.At p (writeHead ++ rest) ∅ disk log) (hn : log.n = 0) :
    ∃ s', Restores p s s' ∧
      s'.At p rest ∅ (update disk logstart (State.clearHead (disk logstart))) log := by
  obtain ⟨s1, hs1, h1⟩ := At.bread h (by decide) (Finset.notMem_empty _) (by rw [Finset.card_empty]; decide)
  obtain ⟨s2, hs2, h2⟩ := h1.clearHead (Finset.mem_insert_self _ _) hn
  obtain ⟨s3, hs3, h3⟩ := h2.brelse (Finset.mem_insert_self _ _)
  exact ⟨s3, (hs1.trans hs2).trans hs3, h3⟩

end Recovery

/-- What recovery makes of a disk: the blocks of the header are installed, and the header is cleared. -/
def recover (disk : ℕ → Data) : ℕ → Data :=
  let d := (List.range (headOf (disk logstart)).1).foldl (installBlock (headOf (disk logstart)).2) disk
  Function.update d logstart (clearHead (d logstart))

/-- The header on the disk fits the file system: it lists blocks of the disk outside the log, and no more
than the log has room for. -/
def HeaderFits (disk : ℕ → Data) : Prop :=
  (headOf (disk logstart)).1 ≤ nlog - 1 ∧
    ∀ i < (headOf (disk logstart)).1, ¬ InLog ((headOf (disk logstart)).2 i) ∧ (headOf (disk logstart)).2 i < fssize

/-- `recover_from_log`, after the header has been read. -/
theorem At.recoverRest {n : ℕ} {block : ℕ → ℕ} {disk : ℕ → Data}
    (h : s.At p (recoverRest n block) {logstart} disk ⟨0, false, n, block⟩) (hn : n ≤ nlog - 1)
    (hblocks : ∀ i < n, ¬ InLog (block i) ∧ block i < fssize) :
    ∃ s', Restores p s s' ∧ s'.up = true ∧
      s'.At p [] ∅ (update ((List.range n).foldl (installBlock block) disk) logstart
        (State.clearHead ((List.range n).foldl (installBlock block) disk logstart))) ⟨0, false, 0, block⟩ := by
  rw [State.recoverRest, List.cons_append, List.cons_append, List.cons_append] at h
  obtain ⟨s1, hs1, h1⟩ := h.brelse (Finset.mem_singleton_self _)
  rw [List.append_assoc, List.append_assoc] at h1
  obtain ⟨s2, hs2, h2⟩ := h1.install fun t ht =>
    ⟨(List.mem_range.1 ht).trans_le hn, hblocks t (List.mem_range.1 ht)⟩
  -- `log.lh.n = 0`
  let q : Proc := { s2.proc p with todo := State.writeHead ++ [.booted] }
  have hclear : s2.run p = some (({ s2 with log := ⟨0, false, 0, block⟩ }).setProc p q) := by
    rw [run_exec h2.alone.ready h2.todo, exec, h2.log]
    rfl
  have h3 := h2.quiet (q := q) h2.alone.ready rfl ⟨0, false, 0, block⟩ s2.up
  obtain ⟨s4, hs4, h4⟩ := At.writeHead h3 rfl
  -- the end of `initlog`
  let q' : Proc := { s4.proc p with todo := [] }
  have hbooted : s4.run p = some (({ s4 with up := true }).setProc p q') := by
    rw [run_exec h4.alone.ready h4.todo, exec]
  have h5 := h4.quiet (q := q') h4.alone.ready rfl s4.log true
  rw [h4.log] at h5
  refine ⟨_, (((hs1.trans hs2).trans ⟨.run hclear, rfl⟩).trans hs4).trans ⟨.run hbooted, rfl⟩, rfl, ?_⟩
  rw [← h4.log] at h5 ⊢
  exact h5

end OsLab.Xv6.State
