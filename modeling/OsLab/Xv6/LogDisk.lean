import OsLab.Xv6.LogOps
import OsLab.Xv6.LogRun

/-!
# What is on the disk and what is not

A block *lags* if its buffer is dirty: then the disk still has older contents than those last given to
the block.  A process whose `bwrite` has not come back is *pending* on a block.  This module says which
steps change what the log depends on: the contents last given, the disk, the blocks that lag and the
writes that are pending.

* `Quiet` is a step that changes none of it.
* `recover_of_clean`, `recover_of_lists` and `recover_of_not_lists` say what recovery makes of a disk.
-/

namespace OsLab.Xv6.State

open Function

variable {N : ℕ} {s s' : State N} {p : Fin (N + 1)} {i j x : ℕ} {d : Data}

/-! ## Blocks that lag -/

/-- The buffer of the block is dirty. -/
def Lag (s : State N) (x : ℕ) : Prop := ∃ i, (s.bc.buf i).dirty = true ∧ (s.bc.buf i).blockno = x

/-- The block that a process waits to be written. -/
def pend (s : State N) (p : Fin (N + 1)) : Option ℕ :=
  match (s.proc p).pc with
  | .waiting i none => some (s.bc.buf i).blockno
  | _ => none

theorem disk_of_not_lag (h : s.BioInv) (hx : ¬ s.Lag x) : s.disk x = s.hist.last x := by
  refine h.disk x fun i _ _ hix => ?_
  by_contra hd
  exact hx ⟨i, Bool.eq_true_of_not_eq_false hd, hix⟩

theorem lag_congr (h : ∀ i, (s'.bc.buf i).dirty = (s.bc.buf i).dirty ∧ ((s.bc.buf i).dirty = true →
    (s'.bc.buf i).blockno = (s.bc.buf i).blockno)) : s'.Lag x ↔ s.Lag x := by
  refine exists_congr fun i => ?_
  rw [(h i).1]
  refine and_congr_right fun hd => ?_
  rw [(h i).2 hd]

/-- `bget` recycles no dirty buffer. -/
theorem BioInv.bget_lag (h : s.BioInv) {c : Bcache} (hb : s.bc.bget rootdev x = some (i, c)) :
    (∀ j, (c.buf j).dirty = (s.bc.buf j).dirty ∧ ((s.bc.buf j).dirty = true →
      (c.buf j).blockno = (s.bc.buf j).blockno)) := by
  intro j
  rcases h.bget_cases hb with ⟨-, -, -, rfl⟩ | ⟨hv, -, rfl⟩
  · exact ⟨rfl, fun _ => rfl⟩
  · obtain ⟨-, -, hclean, -⟩ := h.victim_spec hv
    by_cases hji : j = i
    · subst hji
      rw [Bcache.recycle_buf_self, hclean]
      exact ⟨rfl, nofun⟩
    · rw [Bcache.recycle_buf_of_ne hji]
      exact ⟨rfl, fun _ => rfl⟩

theorem lag_give : (s.give i d).Lag x ↔ s.Lag x ∨ (s.bc.buf i).blockno = x := by
  have hself : (s.give i d).bc.buf i = { s.bc.buf i with dirty := true, data := d } :=
    Bcache.modifyBuf_self s.bc i fun b => { b with dirty := true, data := d }
  have hother : ∀ {j : ℕ}, j ≠ i → (s.give i d).bc.buf j = s.bc.buf j := fun hj =>
    Bcache.modifyBuf_of_ne (c := s.bc) (f := fun b => { b with dirty := true, data := d }) hj
  constructor
  · rintro ⟨j, hj, rfl⟩
    by_cases hji : j = i
    · subst hji
      exact Or.inr (by rw [hself])
    · rw [hother hji] at hj ⊢
      exact Or.inl ⟨j, hj, rfl⟩
  · rintro (⟨j, hj, rfl⟩ | rfl)
    · by_cases hji : j = i
      · subst hji
        exact ⟨j, by rw [hself], by rw [hself]⟩
      · exact ⟨j, by rw [hother hji]; exact hj, by rw [hother hji]⟩
    · exact ⟨i, by rw [hself], by rw [hself]⟩

/-- A request that is done no longer lags, and nothing else changes. -/
theorem lag_transfer (h : s.BioInv) : (s.transfer i).Lag x ↔ s.Lag x ∧ ¬ ((s.bc.buf i).dirty = true ∧
    (s.bc.buf i).blockno = x) := by
  have hself : ((s.transfer i).bc.buf i).dirty = false := by
    rw [transfer]
    split
    · exact congrArg Buf.dirty (Bcache.modifyBuf_self s.bc i fun b => { b with valid := true, dirty := false })
    · exact congrArg Buf.dirty (Bcache.modifyBuf_self s.bc i fun b =>
        { b with valid := true, dirty := false, data := s.disk b.blockno })
  have hother : ∀ {j : ℕ}, j ≠ i → (s.transfer i).bc.buf j = s.bc.buf j := by
    intro j hj
    rw [transfer]
    split
    · exact Bcache.modifyBuf_of_ne (c := s.bc) (f := fun b => { b with valid := true, dirty := false }) hj
    · exact Bcache.modifyBuf_of_ne (c := s.bc)
        (f := fun b => { b with valid := true, dirty := false, data := s.disk b.blockno }) hj
  constructor
  · rintro ⟨j, hj, rfl⟩
    have hji : j ≠ i := by
      rintro rfl
      rw [hself] at hj
      cases hj
    rw [hother hji] at hj ⊢
    refine ⟨⟨j, hj, rfl⟩, fun hi => hji ?_⟩
    obtain ⟨hjlt, hjdev, -⟩ := h.dirty j hj
    obtain ⟨hilt, hidev, -⟩ := h.dirty i hi.1
    exact h.unique j hjlt i hilt hjdev hidev hi.2.symm
  · rintro ⟨⟨j, hj, rfl⟩, hno⟩
    have hji : j ≠ i := by
      rintro rfl
      exact hno ⟨hj, rfl⟩
    exact ⟨j, by rw [hother hji]; exact hj, by rw [hother hji]⟩

/-! ## Quiet steps -/

/-- Nothing that the log depends on changes. -/
structure Quiet (s s' : State N) : Prop where
  log : s'.log = s.log
  up : s'.up = s.up
  disk : s'.disk = s.disk
  last : s'.hist.last = s.hist.last
  nextOp : s'.hist.nextOp = s.hist.nextOp
  current : s'.hist.current = s.hist.current
  groups : s'.hist.groups = s.hist.groups
  durable : s'.hist.durable = s.hist.durable
  returned : s'.hist.returned = s.hist.returned
  lag : ∀ x, s'.Lag x ↔ s.Lag x

/-- Only the buffers, their locks, the disk queue, the processes and the clock can be new. -/
theorem Quiet.exists_eq (h : s.Quiet s') : ∃ bc lock queue proc r k, s' =
    { s with bc := bc, lock := lock, idequeue := queue, proc := proc, hist := { s.hist with released := r, clock := k } } := by
  obtain ⟨bc, lock, queue, disk, log, proc, up, ⟨last, r, k, nextOp, current, groups, durable, returned⟩⟩ := s'
  obtain ⟨hlog, hup, hdisk, hlast, hnext, hcurrent, hgroups, hdurable, hreturned, -⟩ := h
  exact ⟨bc, lock, queue, proc, r, k, by simp_all only⟩

theorem Quiet.not_lag (h : s.Quiet s') (hx : ¬ s.Lag x) : ¬ s'.Lag x := fun hno => hx ((h.lag x).1 hno)

/-- A process keeps waiting for the same block. -/
theorem pend_congr (h : s.BioInv) {e : Event N} (hs : s.step e = some s') (he : e ≠ .crash)
    (hpc : (s'.proc p).pc = (s.proc p).pc) : s'.pend p = s.pend p := by
  unfold pend
  rw [hpc]
  cases hw : (s.proc p).pc with
  | waiting i r =>
    cases r with
    | some x => rfl
    | none =>
      have hok := h.pcs p
      rw [PcOk, hw] at hok
      refine congrArg some ?_
      by_contra hne
      have hv := h.recycled hs he (i := i) fun heq => hne (congrArg Prod.snd heq)
      have := s.refs_le_sum p i
      rw [← h.refcnt, (h.victim_spec hv).2.1] at this
      exact absurd (BioInv.refs_of_held hok.1) (Nat.not_lt.2 this)
  | _ => rfl

/-- The block of a process that has just been told that its write is done does not lag. -/
theorem BioInv.not_lag_of_clean (h : s.BioInv) (hi : i ∈ (s.proc p).held) (hclean : (s.bc.buf i).dirty = false) :
    ¬ s.Lag (s.bc.buf i).blockno := by
  rintro ⟨j, hj, hij⟩
  obtain ⟨hlt, hdev⟩ := h.lt_of_refs (refs_of_held hi)
  obtain ⟨hjlt, hjdev, -⟩ := h.dirty j hj
  rw [h.unique j hjlt i hlt hjdev hdev hij, hclean] at hj
  cases hj

/-! ## What recovery makes of a disk -/

section Recover

variable {disk disk' : ℕ → Data} {n : ℕ} {block : ℕ → ℕ} {tails : List ℕ}

/-- The header on the disk is one that `commit` writes: it fits, and lists no block twice. -/
structure HeaderOk (disk : ℕ → Data) : Prop where
  fits : HeaderFits disk
  inj : ∀ i < (headOf (disk logstart)).1, ∀ j < (headOf (disk logstart)).1,
    (headOf (disk logstart)).2 i = (headOf (disk logstart)).2 j → i = j

theorem install_other (h : ∀ t ∈ tails, block t ≠ x) : tails.foldl (installBlock block) disk x = disk x := by
  induction tails generalizing disk with
  | nil => rfl
  | cons t tails ih =>
    rw [List.foldl_cons, ih fun t' ht' => h t' (List.mem_cons_of_mem _ ht')]
    exact update_of_ne (h t List.mem_cons_self).symm _ _

theorem install_mem {t : ℕ} (ht : t ∈ tails) (hnodup : tails.Nodup)
    (hinj : ∀ t' ∈ tails, block t' = block t → t' = t) (hlog : ∀ t' ∈ tails, block t' ≠ logstart + t + 1) :
    tails.foldl (installBlock block) disk (block t) = disk (logstart + t + 1) := by
  induction tails generalizing disk with
  | nil => cases ht
  | cons u tails ih =>
    obtain ⟨hu, hnodup⟩ := List.nodup_cons.1 hnodup
    rw [List.foldl_cons]
    rcases List.mem_cons.1 ht with rfl | ht
    · -- no later block is the same
      rw [install_other fun t' ht' heq => hu (hinj t' (List.mem_cons_of_mem _ ht') heq ▸ ht')]
      exact update_self ..
    · rw [ih ht hnodup (fun t' ht' => hinj t' (List.mem_cons_of_mem _ ht'))
        fun t' ht' => hlog t' (List.mem_cons_of_mem _ ht')]
      exact update_of_ne (hlog u List.mem_cons_self).symm _ _

/-- Recovery leaves a disk with an empty header alone. -/
theorem recover_of_clean (h : (headOf (disk logstart)).1 = 0) (hx : x ≠ logstart) : recover disk x = disk x := by
  unfold recover
  rw [h]
  exact update_of_ne hx _ _

theorem logstart_inLog : InLog logstart := by decide

theorem inLog_entry (hn : n ≤ nlog - 1) (hi : i < n) : InLog (logstart + i + 1) := by
  rw [InLog]
  omega

/-- Recovery does not touch a block that is not in the header. -/
theorem recover_of_not_lists (hx : ∀ i < (headOf (disk logstart)).1, (headOf (disk logstart)).2 i ≠ x)
    (hne : x ≠ logstart) : recover disk x = disk x := by
  refine (update_of_ne hne _ _).trans ?_
  exact install_other fun t ht => hx t (List.mem_range.1 ht)

/-- Recovery installs a block of the header from the log. -/
theorem recover_of_lists (h : HeaderOk disk) (hi : i < (headOf (disk logstart)).1) :
    recover disk ((headOf (disk logstart)).2 i) = disk (logstart + i + 1) := by
  obtain ⟨hhome, -⟩ := h.fits.2 i hi
  have hne : (headOf (disk logstart)).2 i ≠ logstart := fun heq => hhome (by rw [heq]; exact logstart_inLog)
  refine (update_of_ne hne _ _).trans ?_
  refine install_mem (List.mem_range.2 hi) List.nodup_range
    (fun t ht heq => h.inj t (List.mem_range.1 ht) i hi heq) fun t ht heq => ?_
  exact (h.fits.2 t (List.mem_range.1 ht)).1 (heq ▸ inLog_entry h.fits.1 hi)

/-- Recovery depends on the log and on the blocks that are not in the header. -/
theorem recover_congr (h : HeaderOk disk) (hlog : ∀ x, InLog x → disk' x = disk x)
    (hhome : ∀ x, ¬ InLog x → (∀ i < (headOf (disk logstart)).1, (headOf (disk logstart)).2 i ≠ x) →
      disk' x = disk x) (hx : ¬ InLog x) : recover disk' x = recover disk x := by
  have hhead : disk' logstart = disk logstart := hlog _ logstart_inLog
  have h' : HeaderOk disk' := by
    refine ⟨?_, ?_⟩
    · have := h.fits
      rwa [HeaderFits, ← hhead] at this
    · have := h.inj
      rwa [← hhead] at this
  have hne : x ≠ logstart := fun heq => hx (heq ▸ logstart_inLog)
  by_cases hin : ∃ i < (headOf (disk logstart)).1, (headOf (disk logstart)).2 i = x
  · obtain ⟨i, hi, rfl⟩ := hin
    have hi' : i < (headOf (disk' logstart)).1 := by rwa [hhead]
    have h1 := recover_of_lists h' hi'
    rw [hhead] at h1
    rw [recover_of_lists h hi, h1]
    exact hlog _ (inLog_entry h.fits.1 hi)
  · have hno : ∀ i < (headOf (disk logstart)).1, (headOf (disk logstart)).2 i ≠ x := fun i hi heq => hin ⟨i, hi, heq⟩
    rw [recover_of_not_lists hno hne, recover_of_not_lists (by rwa [hhead]) hne]
    exact hhome x hx hno

/-- The header after recovery is empty. -/
theorem headOf_clearHead : (headOf (clearHead d)).1 = 0 := by
  rfl

/-- `write_head` and `read_head` fit together. -/
theorem headOf_headWords (hn : s.log.n < 2 ^ 31) (hblock : ∀ i < s.log.n, s.log.block i < 2 ^ 32) (d : Data) :
    (headOf (s.headWords d)).1 = s.log.n ∧ ∀ i < s.log.n, (headOf (s.headWords d)).2 i = s.log.block i := by
  constructor
  · show (s.headWords d 0).toInt.toNat = _
    have hnat : (BitVec.ofNat 32 s.log.n).toNat = s.log.n := by
      exact Nat.mod_eq_of_lt (by omega)
    rw [headWords, if_pos rfl, BitVec.toInt_eq_toNat_of_lt (by rw [hnat]; omega), hnat]
    rfl
  · intro i hi
    show (s.headWords d (i + 1)).toNat = _
    rw [headWords, if_pos (Nat.succ_le_of_lt hi)]
    exact Nat.mod_eq_of_lt (hblock i hi)

end Recover

end OsLab.Xv6.State
