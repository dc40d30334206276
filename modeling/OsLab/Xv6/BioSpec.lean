import OsLab.Xv6.Log

/-!
# The buffer cache is transparent

`BioInv` is the state of the buffer cache between any two steps, whatever the processes do: every
buffer is on the list once, its count is the number of references processes have to it, its lock is
with the process that owns it, and its contents are those last given to its block unless a request
to read them is pending.

* `BioInv.bget`, `BioInv.acquire`, `BioInv.submit`, `BioInv.give`, `BioInv.release`, `BioInv.unref` and
  `BioInv.ideintr` are the steps; `BioInv.own` is what they have in common when the owner of a buffer
  changes it.
* `BioInv.victim_spec` says which buffer `bget` recycles.
* `bio_transparent`: the users of the cache cannot tell it from the disk.
* `buffers_guarded`: a buffer is with one process, and what is not dirty is on disk.
-/

namespace OsLab.Xv6

open DList Function

/-! ## The list of buffers -/

/-- The block that a buffer is for. -/
def Buf.ident (b : Buf) : ℕ × ℕ := (b.dev, b.blockno)

namespace Bcache

variable {c : Bcache} {i j dev x : ℕ} {l l₁ l₂ : List ℕ} {f : Buf → Buf}

theorem modifyBuf_buf :
    (c.modifyBuf i f).buf j = if j = i then f (c.buf i) else c.buf j := by
  by_cases h : j = i
  · subst h
    rw [if_pos rfl]
    exact update_self ..
  · rw [if_neg h]
    exact update_of_ne h _ _

@[simp] theorem modifyBuf_self (c : Bcache) (i : ℕ) (f : Buf → Buf) :
    (c.modifyBuf i f).buf i = f (c.buf i) := by
  rw [modifyBuf_buf, if_pos rfl]

theorem modifyBuf_of_ne (h : j ≠ i) : (c.modifyBuf i f).buf j = c.buf j := by
  rw [modifyBuf_buf, if_neg h]

theorem modifyBuf_ident (h : (f (c.buf i)).ident = (c.buf i).ident) :
    ((c.modifyBuf i f).buf j).ident = (c.buf j).ident := by
  by_cases hj : j = i
  · rw [hj, modifyBuf_self, h]
  · rw [modifyBuf_of_ne hj]

@[simp] theorem setRef_buf {n : ℕ} : (c.setRef i n).buf = c.buf := rfl
theorem setRef_refcnt {n : ℕ} :
    (c.setRef i n).refcnt j = if j = i then n else c.refcnt j := by
  by_cases h : j = i
  · subst h
    rw [if_pos rfl]
    exact update_self ..
  · rw [if_neg h]
    exact update_of_ne h _ _

theorem recycle_buf_self (c : Bcache) (i dev x : ℕ) :
    (c.recycle i dev x).buf i = ⟨false, false, dev, x, (c.buf i).data⟩ := by
  rw [recycle, setRef_buf, modifyBuf_self]

theorem recycle_buf_of_ne (h : j ≠ i) : (c.recycle i dev x).buf j = c.buf j := by
  rw [recycle, setRef_buf, modifyBuf_of_ne h]

/-- The buffers on the list, most recently used first. -/
def Lru (c : Bcache) (l : List ℕ) : Prop := Cycle c.next c.prev none (l.map some)

theorem Lru.pushFront (h : c.Lru l) (hi : i ∉ l) : (c.pushFront i).Lru (i :: l) := by
  refine Cycle.pushFront h ?_
  rw [List.mem_cons, not_or]
  exact ⟨nofun, fun hmem => hi (by simpa using hmem)⟩

theorem Lru.nodup (h : c.Lru l) : l.Nodup :=
  List.Nodup.of_map some (List.nodup_cons.1 (DList.Cycle.nodup h)).2

theorem Lru.unlink (h : c.Lru (l₁ ++ i :: l₂)) : (c.unlink i).Lru (l₁ ++ l₂) := by
  have hc : Cycle c.next c.prev none (l₁.map some ++ some i :: l₂.map some) := by
    rw [Lru, List.map_append] at h
    exact h
  have hne : some i ≠ c.next (some i) := hc.next_ne
  have hu := hc.unlink
  rw [Lru, List.map_append]
  simp only [Bcache.unlink, update_of_ne hne]
  exact hu

theorem binitLoop_lru (h : c.Lru []) (n : ℕ) : (c.binitLoop n).Lru (List.range n).reverse := by
  induction n with
  | zero => exact h
  | succ n ih =>
    rw [List.range_succ, List.reverse_append]
    refine ih.pushFront fun hmem => ?_
    rw [List.mem_reverse, List.mem_range] at hmem
    exact Nat.lt_irrefl n hmem

theorem binit_lru : binit.Lru (List.range nbuf).reverse :=
  binitLoop_lru ⟨⟨rfl, rfl⟩, by simp⟩ nbuf

theorem binitLoop_buf (n : ℕ) : (c.binitLoop n).buf = c.buf := by
  induction n with
  | zero => rfl
  | succ n ih => exact ih

theorem binitLoop_refcnt (n : ℕ) : (c.binitLoop n).refcnt = c.refcnt := by
  induction n with
  | zero => rfl
  | succ n ih => exact ih

/-- A buffer that has never been used. -/
theorem binit_buf (i : ℕ) : binit.buf i = ⟨false, false, 0, 0, fun _ => 0#32⟩ := congrFun (binitLoop_buf nbuf) i

theorem unref_buf (c : Bcache) (i : ℕ) : (c.unref i).buf = c.buf := by
  unfold unref
  dsimp only
  split <;> rfl

theorem unref_refcnt :
    (c.unref i).refcnt j = if j = i then c.refcnt i - 1 else c.refcnt j := by
  rw [← setRef_refcnt]
  unfold unref
  dsimp only
  split <;> rfl

/-- The last reference is dropped: the buffer moves to the front. -/
theorem Lru.unref_freed (h : c.Lru l) (hi : i ∈ l) (hfree : c.refcnt i - 1 = 0) :
    ∃ l', (c.unref i).Lru (i :: l') ∧ (i :: l').Perm l ∧ l'.Sublist l := by
  obtain ⟨l₁, l₂, rfl⟩ := List.append_of_mem hi
  have hnodup := h.nodup
  have hnotin : i ∉ l₁ ++ l₂ := fun hmem =>
    (List.nodup_middle.1 hnodup |> List.nodup_cons.1).1 hmem
  refine ⟨l₁ ++ l₂, ?_, List.perm_middle.symm, ?_⟩
  · have hzero : (c.setRef i (c.refcnt i - 1)).refcnt i = 0 := by rw [setRef_refcnt, if_pos rfl, hfree]
    have hlru : (c.setRef i (c.refcnt i - 1)).Lru (l₁ ++ i :: l₂) := h
    unfold unref
    simp only [if_pos hzero]
    exact hlru.unlink.pushFront hnotin
  · exact List.Sublist.append_left (List.sublist_cons_self i l₂) l₁

/-- Another reference is left: the list stays. -/
theorem Lru.unref_kept (h : c.Lru l) (hkept : c.refcnt i - 1 ≠ 0) : (c.unref i).Lru l := by
  have hne : (c.setRef i (c.refcnt i - 1)).refcnt i ≠ 0 := by rwa [setRef_refcnt, if_pos rfl]
  unfold unref
  simp only [if_neg hne]
  exact h

theorem join_map_some (o : Option ℕ) : (o.map some).join = o := by cases o <;> rfl

theorem Lru.cached_eq (h : c.Lru l) (hl : l.length ≤ nbuf) :
    c.cached dev x = l.find? fun i => (c.buf i).dev = dev ∧ (c.buf i).blockno = x := by
  have hscan := h.scan_next (c.holds dev x) (by rw [List.length_map]; exact Nat.lt_succ_of_le hl)
  rw [cached, hscan, List.find?_map]
  exact join_map_some _

theorem Lru.victim_eq (h : c.Lru l) (hl : l.length ≤ nbuf) :
    c.victim = l.reverse.find? fun i => c.refcnt i = 0 ∧ (c.buf i).dirty = false := by
  have hscan := h.scan_prev c.unused (by rw [List.length_map]; exact Nat.lt_succ_of_le hl)
  rw [victim, hscan, ← List.map_reverse, List.find?_map]
  exact join_map_some _

end Bcache

/-! ## References and locks -/

namespace Pc

/-- The references to buffer `i`, besides those to buffers the process has. -/
def refs (i : ℕ) : Pc → ℕ
  | .locking j _ | .checking j _ | .waiting j (some _) | .unrefing j => if j = i then 1 else 0
  | _ => 0

/-- The locks on buffer `i`, besides those of buffers the process has. -/
def owns (i : ℕ) : Pc → ℕ
  | .checking j _ | .waiting j (some _) => if j = i then 1 else 0
  | _ => 0

theorem owns_le_refs (i : ℕ) (pc : Pc) : pc.owns i ≤ pc.refs i := by
  cases pc with
  | checking j x => exact Nat.le_refl _
  | waiting j r => cases r <;> exact Nat.le_refl _
  | _ => exact Nat.zero_le _

end Pc

namespace Proc

/-- The references of a process to buffer `i`. -/
def refs (i : ℕ) (q : Proc) : ℕ := q.held.count i + q.pc.refs i

/-- The locks of a process on buffer `i`. -/
def owns (i : ℕ) (q : Proc) : ℕ := q.held.count i + q.pc.owns i

theorem owns_le_refs (i : ℕ) (q : Proc) : q.owns i ≤ q.refs i :=
  Nat.add_le_add_left (q.pc.owns_le_refs i) _

theorem owns_pos_of_held {i : ℕ} {q : Proc} (h : i ∈ q.held) : 0 < q.owns i :=
  Nat.add_pos_left (List.count_pos_iff.2 h) _

end Proc

variable {N : ℕ}

namespace State

/-- The request of a process that waits for buffer `i`: it is in the queue, or it is done. -/
def Pending (s : State N) (i : ℕ) (reading : Option ℕ) : Prop :=
  (i ∈ s.idequeue ∧ (s.bc.buf i).valid = reading.isNone ∧ (s.bc.buf i).dirty = reading.isNone) ∨
    (i ∉ s.idequeue ∧ (s.bc.buf i).valid = true ∧ (s.bc.buf i).dirty = false)

/-- What a process relies on at each point. -/
def PcOk (s : State N) (q : Proc) : Prop :=
  match q.pc with
  | .ready | .unrefing _ => True
  | .locking i x | .checking i x => (s.bc.buf i).blockno = x
  | .waiting i (some x) => (s.bc.buf i).blockno = x ∧ s.Pending i (some x)
  | .waiting i none => i ∈ q.held ∧ s.Pending i none
  | .appending i _ => i ∈ q.held

/-- The buffer cache in every state of a run. -/
structure BioInv (s : State N) : Prop where
  list : ∃ l, s.bc.Lru l ∧ l.Perm (List.range nbuf) ∧
    l.Pairwise fun i j => s.hist.released j < s.hist.released i
  clock : ∀ i < nbuf, s.hist.released i < s.hist.clock
  refcnt : ∀ i, s.bc.refcnt i = ∑ p, (s.proc p).refs i
  inUse : ∀ i, 0 < s.bc.refcnt i → i < nbuf ∧ (s.bc.buf i).dev = rootdev
  unique : ∀ i < nbuf, ∀ j < nbuf, (s.bc.buf i).dev = rootdev → (s.bc.buf j).dev = rootdev →
    (s.bc.buf i).blockno = (s.bc.buf j).blockno → i = j
  owner : ∀ i p, (s.proc p).owns i = if s.lock i = some p then 1 else 0
  pcs : ∀ p, s.PcOk (s.proc p)
  held : ∀ p, ∀ i ∈ (s.proc p).held, (s.bc.buf i).valid = true
  queued : ∀ i ∈ s.idequeue, ∃ p r, (s.proc p).pc = .waiting i r
  nodup : s.idequeue.Nodup
  dirty : ∀ i, (s.bc.buf i).dirty = true → i < nbuf ∧ (s.bc.buf i).dev = rootdev ∧ (s.bc.buf i).valid = true
  data : ∀ i < nbuf, (s.bc.buf i).dev = rootdev → (s.bc.buf i).valid = true →
    (s.bc.buf i).data = s.hist.last (s.bc.buf i).blockno
  disk : ∀ x, (∀ i < nbuf, (s.bc.buf i).dev = rootdev → (s.bc.buf i).blockno = x →
    (s.bc.buf i).dirty = false) → s.disk x = s.hist.last x
  fresh : ∀ i, (s.bc.buf i).dev ≠ rootdev → (s.bc.buf i).dev = 0 ∧ (s.bc.buf i).valid = false

/-! ## Changes of one process -/

theorem sum_update {n : ℕ} {α : Type} (f : Fin n → α) (g : α → ℕ) (p : Fin n) (v : α) :
    ∑ q, g (update f p v q) + g (f p) = ∑ q, g (f q) + g v := by
  have h1 := Finset.add_sum_erase Finset.univ (fun q => g (update f p v q)) (Finset.mem_univ p)
  have h2 := Finset.add_sum_erase Finset.univ (fun q => g (f q)) (Finset.mem_univ p)
  have hrest : ∑ q ∈ Finset.univ.erase p, g (update f p v q) =
      ∑ q ∈ Finset.univ.erase p, g (f q) :=
    Finset.sum_congr rfl fun q hq => by rw [update_of_ne (Finset.ne_of_mem_erase hq)]
  simp only [update_self] at h1
  omega

variable {s s' : State N} {p p' : Fin (N + 1)} {q : Proc} {i j x : ℕ} {d : Data} {r : Option ℕ} {a : Event N}

theorem refs_le_sum (s : State N) (p : Fin (N + 1)) (i : ℕ) :
    (s.proc p).refs i ≤ ∑ p, (s.proc p).refs i :=
  Finset.single_le_sum (f := fun p => (s.proc p).refs i) (fun _ _ => Nat.zero_le _) (Finset.mem_univ p)

/-- A property of every process when one process changes. -/
theorem forall_setProc {P : Fin (N + 1) → Proc → Prop} (hp : P p q) (h : ∀ p', P p' (s.proc p')) :
    ∀ p', P p' (update s.proc p q p') :=
  (Function.forall_update_iff s.proc P).2 ⟨hp, fun p' _ => h p'⟩

namespace BioInv

theorem lt_of_refs (h : s.BioInv) (hi : 0 < (s.proc p).refs i) : i < nbuf ∧ (s.bc.buf i).dev = rootdev := by
  refine h.inUse i ?_
  rw [h.refcnt]
  exact hi.trans_le (s.refs_le_sum p i)

theorem lock_of_owns (h : s.BioInv) (hi : 0 < (s.proc p).owns i) : s.lock i = some p := by
  have := h.owner i p
  by_contra hne
  rw [if_neg hne] at this
  omega

theorem lock_of_held (h : s.BioInv) (hi : i ∈ (s.proc p).held) : s.lock i = some p :=
  h.lock_of_owns (Proc.owns_pos_of_held hi)

theorem refs_of_held (hi : i ∈ (s.proc p).held) : 0 < (s.proc p).refs i :=
  (Proc.owns_pos_of_held hi).trans_le (Proc.owns_le_refs i _)

section

variable (h : s.BioInv)

include h

theorem waiting_owns (hp : (s.proc p).pc = .waiting i r) :
    0 < (s.proc p).owns i := by
  have hok := h.pcs p
  rw [PcOk, hp] at hok
  cases r with
  | none => exact Proc.owns_pos_of_held hok.1
  | some x =>
    rw [Proc.owns, hp, Pc.owns, if_pos rfl]
    exact Nat.succ_pos _

/-- A buffer whose request is queued is locked by the process that waits for it. -/
theorem lock_of_queued (hi : i ∈ s.idequeue) :
    ∃ p r, (s.proc p).pc = .waiting i r ∧ s.lock i = some p := by
  obtain ⟨p, r, hp⟩ := h.queued i hi
  exact ⟨p, r, hp, h.lock_of_owns (h.waiting_owns hp)⟩

/-- The buffer a process has is not in the queue unless the process waits for it. -/
theorem not_queued (hown : 0 < (s.proc p).owns i)
    (hpc : ∀ r, (s.proc p).pc ≠ .waiting i r) : i ∉ s.idequeue := by
  intro hi
  obtain ⟨p', r, hp', hlock⟩ := h.lock_of_queued hi
  rw [h.lock_of_owns hown] at hlock
  obtain rfl := Option.some.inj hlock
  exact hpc r hp'

/-- A buffer in a valid state whose contents are on the disk, if it is not dirty. -/
theorem clean_disk (hi : i < nbuf) (hdev : (s.bc.buf i).dev = rootdev)
    (hdirty : (s.bc.buf i).dirty = false) :
    s.disk (s.bc.buf i).blockno = s.hist.last (s.bc.buf i).blockno := by
  refine h.disk _ fun j hj hjd hjb => ?_
  rw [h.unique j hj i hi hjd hdev hjb, hdirty]

/-- The owners of buffers when one process changes, and has the same locks. -/
theorem owner_update (howns : ∀ i, q.owns i = (s.proc p).owns i) (i : ℕ) :
    ∀ p', (update s.proc p q p').owns i = if s.lock i = some p' then 1 else 0 :=
  forall_setProc (P := fun p' q => q.owns i = if s.lock i = some p' then 1 else 0)
    ((howns i).trans (h.owner i p)) (h.owner i)

/-- The references when one process changes. -/
theorem sum_refs (p : Fin (N + 1)) (q : Proc) (i : ℕ) :
    ∑ p', (update s.proc p q p').refs i + (s.proc p).refs i = s.bc.refcnt i + q.refs i := by
  rw [sum_update s.proc (Proc.refs i) p q, h.refcnt]

/-- The processes that wait, when one that does not wait for a queued request changes. -/
theorem queued_update (hp : ∀ i r, (s.proc p).pc = .waiting i r → i ∉ s.idequeue) :
    ∀ i ∈ s.idequeue, ∃ p' r, (update s.proc p q p').pc = .waiting i r := by
  intro i hi
  obtain ⟨p', r, hp'⟩ := h.queued i hi
  refine ⟨p', r, ?_⟩
  have hne : p' ≠ p := fun heq => hp i r (heq ▸ hp') hi
  rw [update_of_ne hne]
  exact hp'

/-- One process changes, with the same references, and locks change hands. -/
theorem relock {lock : ℕ → Option (Fin (N + 1))} (hrefs : ∀ i, q.refs i = (s.proc p).refs i)
    (howner : ∀ i p', (update s.proc p q p').owns i = if lock i = some p' then 1 else 0)
    (hok : s.PcOk q) (hheld : ∀ i ∈ q.held, (s.bc.buf i).valid = true)
    (hwait : ∀ i r, (s.proc p).pc = .waiting i r → i ∉ s.idequeue) :
    (({ s with lock := lock } : State N).setProc p q).BioInv :=
  { h with
    refcnt := fun i => by
      have hsum := h.sum_refs p q i
      rw [hrefs] at hsum
      exact (Nat.add_right_cancel hsum).symm
    owner := howner
    pcs := forall_setProc (P := fun _ q => s.PcOk q) hok h.pcs
    held := forall_setProc (P := fun _ q => ∀ i ∈ q.held, (s.bc.buf i).valid = true) hheld h.held
    queued := h.queued_update hwait }

/-- One process changes, with the same references and locks. -/
theorem setProc (hrefs : ∀ i, q.refs i = (s.proc p).refs i)
    (howns : ∀ i, q.owns i = (s.proc p).owns i) (hok : s.PcOk q)
    (hheld : ∀ i ∈ q.held, (s.bc.buf i).valid = true)
    (hwait : ∀ i r, (s.proc p).pc = .waiting i r → i ∉ s.idequeue) : (s.setProc p q).BioInv :=
  h.relock hrefs (h.owner_update howns) hok hheld hwait

/-- The cache does not depend on the log, nor on what is recorded besides contents and times. -/
theorem other (log : Log) (up : Bool) (hist : History) (hlast : hist.last = s.hist.last)
    (hrel : hist.released = s.hist.released) (hclock : hist.clock = s.hist.clock) :
    ({ s with log := log, up := up, hist := hist } : State N).BioInv :=
  { h with
    list := by simpa only [hrel] using h.list
    clock := by simpa only [hrel, hclock] using h.clock
    data := by simpa only [hlast] using h.data
    disk := by simpa only [hlast] using h.disk }

/-! ## `bget` -/

/-- What `bget` does: it finds the block, or recycles the least recently released unused buffer. -/
theorem bget_cases {c : Bcache} (hb : s.bc.bget rootdev x = some (i, c)) :
    (i < nbuf ∧ (s.bc.buf i).dev = rootdev ∧ (s.bc.buf i).blockno = x ∧
      c = s.bc.setRef i (s.bc.refcnt i + 1)) ∨
    (s.bc.victim = some i ∧ (∀ j < nbuf, (s.bc.buf j).dev = rootdev → (s.bc.buf j).blockno ≠ x) ∧
      c = s.bc.recycle i rootdev x) := by
  obtain ⟨l, hl, hperm, -⟩ := h.list
  have hlen : l.length ≤ nbuf := by rw [hperm.length_eq, List.length_range]
  rw [Bcache.bget] at hb
  cases hc : s.bc.cached rootdev x with
  | some k =>
    rw [hc] at hb
    obtain ⟨rfl, rfl⟩ := Prod.mk.inj (Option.some.inj hb)
    rw [hl.cached_eq hlen] at hc
    have htest := List.find?_some hc
    rw [decide_eq_true_eq] at htest
    exact Or.inl ⟨List.mem_range.1 (hperm.mem_iff.1 (List.mem_of_find?_eq_some hc)), htest.1, htest.2, rfl⟩
  | none =>
    rw [hc] at hb
    rw [hl.cached_eq hlen] at hc
    cases hv : s.bc.victim with
    | none => rw [hv] at hb; cases hb
    | some k =>
      rw [hv] at hb
      obtain ⟨rfl, rfl⟩ := Prod.mk.inj (Option.some.inj hb)
      refine Or.inr ⟨rfl, fun j hj hdev hx => ?_, rfl⟩
      have hno := List.find?_eq_none.1 hc j (hperm.mem_iff.2 (List.mem_range.2 hj))
      exact hno (decide_eq_true ⟨hdev, hx⟩)

/-- The buffer that is recycled. -/
theorem victim_spec (hv : s.bc.victim = some i) :
    i < nbuf ∧ s.bc.refcnt i = 0 ∧ (s.bc.buf i).dirty = false ∧
      ∀ j < nbuf, j ≠ i → s.bc.refcnt j = 0 → (s.bc.buf j).dirty = false →
        s.hist.released i < s.hist.released j := by
  obtain ⟨l, hl, hperm, hsorted⟩ := h.list
  have hlen : l.length ≤ nbuf := by rw [hperm.length_eq, List.length_range]
  rw [hl.victim_eq hlen, List.find?_eq_some_iff_append] at hv
  obtain ⟨htest, as, bs, hrev, has⟩ := hv
  rw [decide_eq_true_eq] at htest
  have hmem : ∀ j, j ∈ as ++ i :: bs ↔ j < nbuf := fun j => by
    rw [← hrev, List.mem_reverse, hperm.mem_iff, List.mem_range]
  refine ⟨(hmem i).1 (by simp), htest.1, htest.2, fun j hj hji href hdirty => ?_⟩
  have hsorted' : (as ++ i :: bs).Pairwise fun i j => s.hist.released i < s.hist.released j := by
    rw [← hrev]
    exact List.pairwise_reverse.2 hsorted
  rcases List.mem_append.1 ((hmem j).2 hj) with hja | hjb
  · have := has j hja
    rw [Bool.not_eq_true', decide_eq_false_iff_not] at this
    exact absurd ⟨href, hdirty⟩ this
  · rcases List.mem_cons.1 hjb with hjeq | hjb
    · exact absurd hjeq hji
    · exact (List.pairwise_cons.1 (List.pairwise_append.1 hsorted').2.1).1 j hjb

end

end BioInv

theorem PcOk.congr (hok : s.PcOk q)
    (hbuf : ∀ j, 0 < q.refs j → (s'.bc.buf j).blockno = (s.bc.buf j).blockno)
    (hpend : ∀ j r, q.pc = .waiting j r → s.Pending j r → s'.Pending j r) : s'.PcOk q := by
  have hrefs : ∀ j, 0 < q.pc.refs j → (s'.bc.buf j).blockno = (s.bc.buf j).blockno := fun j hj =>
    hbuf j (Nat.add_pos_right _ hj)
  unfold PcOk at hok ⊢
  cases hpc : q.pc with
  | ready | unrefing => trivial
  | appending j d => rw [hpc] at hok; exact hok
  | locking j x =>
    rw [hpc] at hok hrefs
    exact (hrefs j (by rw [Pc.refs, if_pos rfl]; exact Nat.one_pos)).trans hok
  | checking j x =>
    rw [hpc] at hok hrefs
    exact (hrefs j (by rw [Pc.refs, if_pos rfl]; exact Nat.one_pos)).trans hok
  | waiting j r =>
    cases r with
    | none => rw [hpc] at hok; exact ⟨hok.1, hpend j none hpc hok.2⟩
    | some x =>
      rw [hpc] at hok hrefs
      exact ⟨(hrefs j (by rw [Pc.refs, if_pos rfl]; exact Nat.one_pos)).trans hok.1,
        hpend j (some x) hpc hok.2⟩

/-- A pending request is a matter of the queue and of the flags. -/
theorem Pending.congr (h : s.Pending i r) (hq : i ∈ s'.idequeue ↔ i ∈ s.idequeue)
    (hv : (s'.bc.buf i).valid = (s.bc.buf i).valid) (hd : (s'.bc.buf i).dirty = (s.bc.buf i).dirty) :
    s'.Pending i r := by
  unfold Pending
  rw [hq, hv, hd]
  exact h

/-! ## Steps -/

section Steps

variable {c : Bcache} {hist : History}

section

variable (h : s.BioInv)

include h

/-- The references to buffers, their order and their times of release change; the contents do not. -/
theorem BioInv.recount (hbuf : c.buf = s.bc.buf)
    (hlast : hist.last = s.hist.last)
    (hlist : ∃ l, c.Lru l ∧ l.Perm (List.range nbuf) ∧ l.Pairwise fun i j => hist.released j < hist.released i)
    (hclock : ∀ i < nbuf, hist.released i < hist.clock)
    (hcount : ∀ j, c.refcnt j = ∑ p', (update s.proc p q p').refs j)
    (hinUse : ∀ j, 0 < c.refcnt j → j < nbuf ∧ (s.bc.buf j).dev = rootdev)
    (howns : ∀ j, q.owns j = (s.proc p).owns j) (hok : s.PcOk q) (hheld : q.held = (s.proc p).held)
    (hwait : ∀ i r, (s.proc p).pc = .waiting i r → i ∉ s.idequeue) :
    (({ s with bc := c, hist := hist } : State N).setProc p q).BioInv := by
  obtain ⟨buf, refcnt, next, prev⟩ := c
  obtain rfl : buf = s.bc.buf := hbuf
  exact { h with
    list := hlist
    clock := hclock
    refcnt := hcount
    inUse := hinUse
    owner := h.owner_update howns
    pcs := forall_setProc (P := fun _ q => s.PcOk q) hok h.pcs
    held := forall_setProc (P := fun _ q => ∀ j ∈ q.held, (s.bc.buf j).valid = true)
      (hheld ▸ h.held p) h.held
    queued := h.queued_update hwait
    data := fun j hj hdev hval => (h.data j hj hdev hval).trans (congrFun hlast _).symm
    disk := fun y hy => (h.disk y hy).trans (congrFun hlast y).symm }

/-- Buffer `i` becomes `b`, of a block that no other buffer is for; if the block is another one than
before, the contents of the old one are on the disk. -/
theorem BioInv.rebuffer {b : Buf} (hi : i < nbuf) (hself : s'.bc.buf i = b)
    (hother : ∀ j ≠ i, s'.bc.buf j = s.bc.buf j) (hroot : b.dev = rootdev)
    (hnew : ∀ j < nbuf, j ≠ i → (s.bc.buf j).dev = rootdev → (s.bc.buf j).blockno ≠ b.blockno)
    (hold : (s.bc.buf i).blockno ≠ b.blockno → (s.bc.buf i).dirty = false)
    (hdisk : ∀ y ≠ b.blockno, s'.disk y = s.disk y) (hlast : ∀ y ≠ b.blockno, s'.hist.last y = s.hist.last y)
    (hvalid : b.dirty = true → b.valid = true) (hdata : b.valid = true → b.data = s'.hist.last b.blockno)
    (hclean : b.dirty = false → s'.disk b.blockno = s'.hist.last b.blockno)
    (hlist : ∃ l, s'.bc.Lru l ∧ l.Perm (List.range nbuf) ∧
      l.Pairwise fun i j => s'.hist.released j < s'.hist.released i)
    (hclock : ∀ i < nbuf, s'.hist.released i < s'.hist.clock)
    (hrefcnt : ∀ i, s'.bc.refcnt i = ∑ p, (s'.proc p).refs i)
    (hinUse : ∀ j ≠ i, 0 < s'.bc.refcnt j → 0 < s.bc.refcnt j)
    (howner : ∀ i p, (s'.proc p).owns i = if s'.lock i = some p then 1 else 0)
    (hpcs : ∀ p, s'.PcOk (s'.proc p)) (hheld : ∀ p, ∀ i ∈ (s'.proc p).held, (s'.bc.buf i).valid = true)
    (hqueued : ∀ i ∈ s'.idequeue, ∃ p r, (s'.proc p).pc = .waiting i r) (hnodup : s'.idequeue.Nodup) :
    s'.BioInv := by
  refine ⟨hlist, hclock, hrefcnt, fun j hj => ?_, fun j hj k hk hjd hkd hjk => ?_, howner, hpcs, hheld, hqueued,
    hnodup, fun j hj => ?_, fun j hj hjd hjv => ?_, fun y hy => ?_, fun j hjd => ?_⟩
  · by_cases hji : j = i
    · rw [hji, hself]
      exact ⟨hi, hroot⟩
    · rw [hother j hji]
      exact h.inUse j (hinUse j hji hj)
  · by_cases hji : j = i <;> by_cases hki : k = i
    · rw [hji, hki]
    · rw [hji, hself, hother k hki] at hjk
      rw [hother k hki] at hkd
      exact absurd hjk.symm (hnew k hk hki hkd)
    · rw [hki, hself, hother j hji] at hjk
      rw [hother j hji] at hjd
      exact absurd hjk (hnew j hj hji hjd)
    · rw [hother j hji, hother k hki] at hjk
      rw [hother j hji] at hjd
      rw [hother k hki] at hkd
      exact h.unique j hj k hk hjd hkd hjk
  · by_cases hji : j = i
    · rw [hji, hself] at hj ⊢
      exact ⟨hi, hroot, hvalid hj⟩
    · rw [hother j hji] at hj ⊢
      exact h.dirty j hj
  · by_cases hji : j = i
    · rw [hji, hself] at hjv ⊢
      exact hdata hjv
    · rw [hother j hji] at hjd hjv ⊢
      rw [hlast _ (hnew j hj hji hjd)]
      exact h.data j hj hjd hjv
  · by_cases hyi : y = b.blockno
    · have := hy i hi (hself ▸ hroot) (hself ▸ hyi.symm)
      rw [hself] at this
      rw [hyi]
      exact hclean this
    · rw [hdisk y hyi, hlast y hyi]
      refine h.disk y fun j hj hjd hjb => ?_
      by_cases hji : j = i
      · rw [hji] at hjb ⊢
        exact hold fun heq => hyi (hjb.symm.trans heq)
      · have := hy j hj
        rw [hother j hji] at this
        exact this hjd hjb
  · by_cases hji : j = i
    · rw [hji, hself] at hjd
      exact absurd hroot hjd
    · rw [hother j hji] at hjd ⊢
      exact h.fresh j hjd

/-- `bread`: a reference is taken. -/
theorem BioInv.bget (hpc : (s.proc p).pc = .ready) (hb : s.bc.bget rootdev x = some (i, c))
    (hq : q.pc = .locking i x) (hheld : q.held = (s.proc p).held) :
    (({ s with bc := c } : State N).setProc p q).BioInv := by
  have hrefs : ∀ j, q.refs j = (s.proc p).refs j + if i = j then 1 else 0 := fun j => by
    rw [Proc.refs, Proc.refs, hq, hpc, hheld]
    rfl
  have howns : ∀ j, q.owns j = (s.proc p).owns j := fun j => by
    rw [Proc.owns, Proc.owns, hq, hpc, hheld]
    rfl
  have hsum : ∀ j, ∑ p', (update s.proc p q p').refs j = s.bc.refcnt j + if i = j then 1 else 0 :=
    fun j => by
      have := h.sum_refs p q j
      rw [hrefs] at this
      omega
  have hwait : ∀ j r, (s.proc p).pc = .waiting j r → j ∉ s.idequeue := fun j r hr => by
    rw [hpc] at hr
    cases hr
  rcases h.bget_cases hb with ⟨hi, hdev, hx, rfl⟩ | ⟨hv, hnew, rfl⟩
  · -- found: only the count changes
    refine h.recount (c := s.bc.setRef i (s.bc.refcnt i + 1)) rfl rfl h.list h.clock (fun j => ?_)
      (fun j hj => ?_) howns ?_ hheld hwait
    · rw [hsum, Bcache.setRef_refcnt]
      by_cases hj : j = i
      · rw [if_pos hj, if_pos hj.symm, hj]
      · rw [if_neg hj, if_neg (Ne.symm hj), Nat.add_zero]
    · by_cases hji : j = i
      · subst hji
        exact ⟨hi, hdev⟩
      · rw [Bcache.setRef_refcnt, if_neg hji] at hj
        exact h.inUse j hj
    · rw [PcOk, hq]
      exact hx
  · -- recycled: no process has the buffer, and its contents are on the disk
    obtain ⟨hi, href, hdirty, -⟩ := h.victim_spec hv
    have hnone : ∀ p' j, 0 < (s.proc p').refs j → j ≠ i := by
      rintro p' j hj rfl
      have := s.refs_le_sum p' j
      rw [← h.refcnt] at this
      omega
    have hself := Bcache.recycle_buf_self s.bc i rootdev x
    have hother : ∀ j ≠ i, (s.bc.recycle i rootdev x).buf j = s.bc.buf j :=
      fun j hj => Bcache.recycle_buf_of_ne hj
    have hcount : ∀ j, (s.bc.recycle i rootdev x).refcnt j = s.bc.refcnt j + if i = j then 1 else 0 := fun j => by
      rw [Bcache.recycle, Bcache.setRef_refcnt]
      by_cases hj : j = i
      · rw [if_pos hj, if_pos hj.symm, hj, href]
      · rw [if_neg hj, if_neg (Ne.symm hj)]
        rfl
    have hvalid : ∀ p', ∀ j ∈ (s.proc p').held, ((s.bc.recycle i rootdev x).buf j).valid = true :=
      fun p' j hj => by
        rw [hother j (hnone p' j (refs_of_held hj))]
        exact h.held p' j hj
    refine h.rebuffer hi hself hother rfl (fun j hj _ => hnew j hj) (fun _ => hdirty) (fun _ _ => rfl) (fun _ _ => rfl)
      nofun nofun (fun _ => ?_) h.list h.clock (fun j => (hcount j).trans (hsum j).symm) (fun j hji hj => ?_)
      (h.owner_update howns) ?_ ?_ (h.queued_update hwait) h.nodup
    · exact h.disk x fun j hj hjd hjx => absurd hjx (hnew j hj hjd)
    · change 0 < (s.bc.recycle i rootdev x).refcnt j at hj
      rw [hcount, if_neg (Ne.symm hji)] at hj
      exact hj
    · refine forall_setProc (P := fun _ q => PcOk _ q) ?_ fun p' => (h.pcs p').congr (fun j hj => ?_) ?_
      · rw [PcOk, hq]
        exact congrArg Buf.blockno hself
      · exact congrArg Buf.blockno (hother j (hnone p' j hj))
      · intro j r hr hpend
        have hj := hother j (hnone p' j ((h.waiting_owns hr).trans_le (Proc.owns_le_refs j _)))
        exact hpend.congr Iff.rfl (congrArg Buf.valid hj) (congrArg Buf.dirty hj)
    · exact forall_setProc (P := fun _ q => ∀ j ∈ q.held, ((s.bc.recycle i rootdev x).buf j).valid = true)
        (hheld ▸ hvalid p) hvalid

/-- The owner of a buffer changes it, and the block it stands for: its flags and data, its request in
the queue, and the contents of the block. -/
theorem BioInv.own (hown : 0 < (s.proc p).owns i) (q : Proc) (f : Buf → Buf) (queue : List ℕ)
    (disk : ℕ → Data) (hist : History)
    (hrefs : ∀ j, q.refs j = (s.proc p).refs j) (howns : ∀ j, q.owns j = (s.proc p).owns j)
    (hwait : ∀ j r, (s.proc p).pc = .waiting j r → j = i)
    (hdev : (f (s.bc.buf i)).dev = (s.bc.buf i).dev)
    (hblock : (f (s.bc.buf i)).blockno = (s.bc.buf i).blockno)
    (hmem : ∀ j ≠ i, (j ∈ queue ↔ j ∈ s.idequeue)) (hnodup : queue.Nodup)
    (hdisk : ∀ y ≠ (s.bc.buf i).blockno, disk y = s.disk y)
    (hlast : ∀ y ≠ (s.bc.buf i).blockno, hist.last y = s.hist.last y)
    (hreleased : hist.released = s.hist.released) (hclock : hist.clock = s.hist.clock)
    (hqueued : i ∈ queue → ∃ r, q.pc = .waiting i r)
    (hvalid : (f (s.bc.buf i)).dirty = true → (f (s.bc.buf i)).valid = true)
    (hdata : (f (s.bc.buf i)).valid = true → (f (s.bc.buf i)).data = hist.last (s.bc.buf i).blockno)
    (hclean : (f (s.bc.buf i)).dirty = false → disk (s.bc.buf i).blockno = hist.last (s.bc.buf i).blockno)
    (hheld : ∀ j ∈ q.held, (j = i → (f (s.bc.buf i)).valid = true) ∧ (j ≠ i → (s.bc.buf j).valid = true))
    (hok : ∀ s' : State N, s'.bc = s.bc.modifyBuf i f → s'.idequeue = queue → s'.PcOk q) :
    ({ s with bc := s.bc.modifyBuf i f, idequeue := queue, disk := disk, hist := hist,
              proc := update s.proc p q } : State N).BioInv := by
  obtain ⟨hlt, hroot⟩ := h.lt_of_refs (hown.trans_le (Proc.owns_le_refs i _))
  have hself : (s.bc.modifyBuf i f).buf i = f (s.bc.buf i) := Bcache.modifyBuf_self ..
  have hother : ∀ j ≠ i, (s.bc.modifyBuf i f).buf j = s.bc.buf j := fun j hj => Bcache.modifyBuf_of_ne hj
  -- another process waits for another buffer, and holds another one
  have hlock : ∀ p' ≠ p, ∀ j, s.lock j = some p' → j ≠ i := by
    rintro p' hp' j hj rfl
    rw [h.lock_of_owns hown] at hj
    exact hp' (Option.some.inj hj).symm
  have hvalid' : ∀ p' ≠ p, ∀ j ∈ (s.proc p').held, ((s.bc.modifyBuf i f).buf j).valid = true := fun p' hp j hj => by
    rw [hother j (hlock p' hp j (h.lock_of_held hj))]
    exact h.held p' j hj
  refine h.rebuffer hlt hself hother (hdev.trans hroot) (fun j hj hji hjd heq => ?_) (fun hne => absurd hblock.symm hne)
    ?_ ?_ hvalid ?_ ?_ ?_ ?_ (fun j => ?_) (fun j _ hj => hj) (h.owner_update howns) (fun p' => ?_) (fun p' => ?_)
    (fun j hj => ?_) hnodup
  · exact hji (h.unique j hj i hlt hjd hroot (heq.trans hblock))
  · rw [hblock]
    exact hdisk
  · rw [hblock]
    exact hlast
  · rw [hblock]
    exact hdata
  · rw [hblock]
    exact hclean
  · rw [hreleased]
    exact h.list
  · simpa only [hreleased, hclock] using h.clock
  · have := h.sum_refs p q j
    rw [hrefs] at this
    exact (Nat.add_right_cancel this).symm
  · dsimp only
    by_cases hp : p' = p
    · rw [hp, update_self]
      exact hok _ rfl rfl
    · rw [update_of_ne hp]
      refine (h.pcs p').congr (fun j _ => ?_) fun j r hr hpend => ?_
      · by_cases hj : j = i
        · rw [hj, hself, hblock]
        · rw [hother j hj]
      · have hj := hlock p' hp j (h.lock_of_owns (h.waiting_owns hr))
        exact hpend.congr (hmem j hj) (congrArg Buf.valid (hother j hj)) (congrArg Buf.dirty (hother j hj))
  · dsimp only
    by_cases hp : p' = p
    · rw [hp, update_self]
      intro j hj
      by_cases hji : j = i
      · rw [hji, hself]
        exact (hheld j hj).1 hji
      · rw [hother j hji]
        exact (hheld j hj).2 hji
    · rw [update_of_ne hp]
      exact hvalid' p' hp
  · by_cases hji : j = i
    · subst hji
      obtain ⟨r, hr⟩ := hqueued hj
      refine ⟨p, r, ?_⟩
      dsimp only
      rw [update_self, hr]
    · obtain ⟨p', r, hp'⟩ := h.queued j ((hmem j hji).1 hj)
      have hp : p' ≠ p := by
        rintro rfl
        exact hji (hwait j r hp')
      refine ⟨p', r, ?_⟩
      dsimp only
      rw [update_of_ne hp, hp']

/-- `acquiresleep`, at the end of `bget`. -/
theorem BioInv.acquire (hpc : (s.proc p).pc = .locking i x) (hlock : s.lock i = none)
    (hq : q.pc = .checking i x) (hheld : q.held = (s.proc p).held) :
    (({ s with lock := update s.lock i (some p) } : State N).setProc p q).BioInv := by
  have hok := h.pcs p
  rw [PcOk, hpc] at hok
  refine h.relock (fun j => ?_) (fun j p' => ?_) ?_ ?_ ?_
  · rw [Proc.refs, Proc.refs, hq, hpc, hheld]
    rfl
  · have hold := h.owner j
    by_cases hj : j = i
    · subst hj
      rw [update_self]
      by_cases hp : p' = p
      · subst hp
        have hno := hold p'
        rw [hlock, if_neg nofun, Proc.owns] at hno
        rw [update_self, if_pos rfl, Proc.owns, hq, hheld, Pc.owns, if_pos rfl]
        omega
      · rw [update_of_ne hp, hold, hlock, if_neg nofun, if_neg]
        exact fun heq => hp (Option.some.inj heq).symm
    · rw [update_of_ne hj]
      refine forall_setProc (P := fun p' q => q.owns j = if s.lock j = some p' then 1 else 0) ?_ hold p'
      rw [← hold, Proc.owns, Proc.owns, hq, hpc, hheld]
      show _ + (if i = j then 1 else 0) = _
      rw [if_neg (Ne.symm hj)]
      rfl
  · rw [PcOk, hq]
    exact hok
  · rw [hheld]
    exact h.held p
  · intro j r hr
    rw [hpc] at hr
    cases hr

/-- `releasesleep`, in `brelse`. -/
theorem BioInv.release (hpc : (s.proc p).pc = .ready) (hi : i ∈ (s.proc p).held)
    (hq : q.pc = .unrefing i) (hheld : q.held = (s.proc p).held.erase i) :
    (({ s with lock := update s.lock i none } : State N).setProc p q).BioInv := by
  have hlock := h.lock_of_held hi
  have hcount : ∀ j, (s.proc p).held.count j = q.held.count j + if i = j then 1 else 0 := fun j => by
    rw [hheld, List.count_erase]
    by_cases hj : i = j
    · subst hj
      have := List.count_pos_iff.2 hi
      simp only [beq_self_eq_true, if_true]
      omega
    · simp [hj]
  refine h.relock (fun j => ?_) (fun j p' => ?_) ?_ ?_ ?_
  · rw [Proc.refs, Proc.refs, hq, hpc, hcount]
    rfl
  · have hold := h.owner j
    by_cases hp : p' = p
    · subst hp
      have hown := hold p'
      rw [Proc.owns, hpc, hcount] at hown
      rw [update_self, Proc.owns, hq]
      by_cases hj : j = i
      · subst hj
        rw [if_pos rfl, if_pos hlock] at hown
        rw [update_self]
        exact Nat.succ.inj hown
      · rw [if_neg (Ne.symm hj)] at hown
        rw [update_of_ne hj]
        exact hown
    · rw [update_of_ne hp, hold]
      by_cases hj : j = i
      · subst hj
        rw [update_self, hlock, if_neg fun heq => hp (Option.some.inj heq).symm, if_neg nofun]
      · rw [update_of_ne hj]
  · rw [PcOk, hq]
    trivial
  · intro j hj
    rw [hheld] at hj
    exact h.held p j (List.mem_of_mem_erase hj)
  · intro j r hr
    rw [hpc] at hr
    cases hr

/-- The end of `brelse`. -/
theorem BioInv.unref (hpc : (s.proc p).pc = .unrefing i) (hq : q.pc = .ready)
    (hheld : q.held = (s.proc p).held) (hlast : hist.last = s.hist.last)
    (hfreed : s.bc.refcnt i - 1 = 0 → hist.released = update s.hist.released i s.hist.clock ∧
      hist.clock = s.hist.clock + 1)
    (hkept : s.bc.refcnt i - 1 ≠ 0 → hist.released = s.hist.released ∧ hist.clock = s.hist.clock) :
    (({ s with bc := s.bc.unref i, hist := hist } : State N).setProc p q).BioInv := by
  have hrefs : ∀ j, (s.proc p).refs j = q.refs j + if i = j then 1 else 0 := fun j => by
    rw [Proc.refs, Proc.refs, hq, hpc, hheld]
    rfl
  have howns : ∀ j, q.owns j = (s.proc p).owns j := fun j => by
    rw [Proc.owns, Proc.owns, hq, hpc, hheld]
    rfl
  have hpos : 0 < s.bc.refcnt i := by
    have := s.refs_le_sum p i
    rw [← h.refcnt, hrefs, if_pos rfl] at this
    omega
  obtain ⟨hlt, -⟩ := h.inUse i hpos
  have hcount : ∀ j, s.bc.refcnt j = (s.bc.unref i).refcnt j + if i = j then 1 else 0 := fun j => by
    rw [Bcache.unref_refcnt]
    by_cases hj : j = i
    · subst hj
      rw [if_pos rfl, if_pos rfl]
      omega
    · rw [if_neg hj, if_neg (Ne.symm hj)]
      rfl
  refine h.recount (Bcache.unref_buf ..) hlast ?_ ?_ (fun j => ?_) (fun j hj => h.inUse j ?_) howns ?_ hheld
    fun j r hr => ?_
  · obtain ⟨l, hl, hperm, hsorted⟩ := h.list
    have hi : i ∈ l := hperm.mem_iff.2 (List.mem_range.2 hlt)
    by_cases hzero : s.bc.refcnt i - 1 = 0
    · obtain ⟨l', hl', hperm', hsub⟩ := hl.unref_freed hi hzero
      have hnotin : i ∉ l' := (List.nodup_cons.1 ((hperm'.trans hperm).nodup_iff.2 List.nodup_range)).1
      have hne : ∀ j ∈ l', j ≠ i := fun j hj heq => hnotin (heq ▸ hj)
      refine ⟨i :: l', hl', hperm'.trans hperm, ?_⟩
      rw [(hfreed hzero).1, List.pairwise_cons]
      refine ⟨fun j hj => ?_, (hsorted.sublist hsub).imp_of_mem fun {a b} ha hb hab => ?_⟩
      · rw [update_self, update_of_ne (hne j hj)]
        exact h.clock j (List.mem_range.1 (hperm.mem_iff.1 (hsub.subset hj)))
      · rw [update_of_ne (hne a ha), update_of_ne (hne b hb)]
        exact hab
    · rw [(hkept hzero).1]
      exact ⟨l, hl.unref_kept hzero, hperm, hsorted⟩
  · intro j hj
    by_cases hzero : s.bc.refcnt i - 1 = 0
    · obtain ⟨hrel, hclock⟩ := hfreed hzero
      rw [hrel, hclock]
      by_cases hji : j = i
      · rw [hji, update_self]
        exact Nat.lt_succ_self _
      · rw [update_of_ne hji]
        exact (h.clock j hj).trans (Nat.lt_succ_self _)
    · obtain ⟨hrel, hclock⟩ := hkept hzero
      rw [hrel, hclock]
      exact h.clock j hj
  · have := h.sum_refs p q j
    rw [hrefs, hcount] at this
    omega
  · rw [hcount]
    exact Nat.add_pos_left hj _
  · rw [PcOk, hq]
    trivial
  · rw [hpc] at hr
    cases hr

theorem BioInv.nodup_snoc (hi : i ∉ s.idequeue) : (s.idequeue ++ [i]).Nodup :=
  List.nodup_append.2 ⟨h.nodup, List.nodup_singleton i, by simpa using fun a ha => (ne_of_mem_of_not_mem ha hi)⟩

/-- `bread` of a block whose buffer is not valid: a request to read it is queued. -/
theorem BioInv.submit (hpc : (s.proc p).pc = .checking i x) (hvalid : (s.bc.buf i).valid = false)
    (hq : q.pc = .waiting i (some x)) (hheld : q.held = (s.proc p).held) :
    (({ s with idequeue := s.idequeue ++ [i] } : State N).setProc p q).BioInv := by
  have hok := h.pcs p
  rw [PcOk, hpc] at hok
  have hdirty : (s.bc.buf i).dirty = false := by
    by_contra hd
    have := (h.dirty i (Bool.eq_true_of_not_eq_false hd)).2.2
    rw [hvalid] at this
    cases this
  have hown : 0 < (s.proc p).owns i := by
    rw [Proc.owns, hpc, Pc.owns, if_pos rfl]
    exact Nat.succ_pos _
  have hnew : i ∉ s.idequeue := h.not_queued hown fun r hr => by
    rw [hpc] at hr
    cases hr
  obtain ⟨hlt, hdev⟩ := h.lt_of_refs (hown.trans_le (Proc.owns_le_refs i _))
  have hsame : s.bc.modifyBuf i id = s.bc := by
    rw [Bcache.modifyBuf, id, update_eq_self]
  have hinv := h.own hown q id (s.idequeue ++ [i]) s.disk s.hist (fun j => ?_) (fun j => ?_) (fun j r hr => ?_) rfl rfl (fun j hj => ?_) ?_
    (fun _ _ => rfl) (fun _ _ => rfl) rfl rfl (fun _ => ⟨_, hq⟩) (fun hd => ?_) (h.data i hlt hdev)
    (fun _ => h.clean_disk hlt hdev hdirty) ?_ ?_
  · rw [hsame] at hinv
    exact hinv
  · rw [Proc.refs, Proc.refs, hq, hpc, hheld]
    rfl
  · rw [Proc.owns, Proc.owns, hq, hpc, hheld]
    rfl
  · rw [hpc] at hr
    cases hr
  · simp [hj]
  · exact h.nodup_snoc hnew
  · rw [id, hdirty] at hd
    cases hd
  · intro j hj
    rw [hheld] at hj
    exact ⟨fun hji => hji ▸ h.held p j hj, fun _ => h.held p j hj⟩
  · intro s' hbc hqueue
    rw [PcOk, hq]
    refine ⟨?_, Or.inl ⟨?_, ?_, ?_⟩⟩
    · rw [hbc, hsame]
      exact hok
    · rw [hqueue]
      simp
    · rw [hbc, hsame]
      exact hvalid
    · rw [hbc, hsame]
      exact hdirty

/-- The owner of a buffer gives it new contents. -/
theorem BioInv.give (hpc : (s.proc p).pc = .ready ∨ ∃ d, (s.proc p).pc = .appending i d)
    (hi : i ∈ (s.proc p).held) (hheld : q.held = (s.proc p).held) {queue : List ℕ}
    (hq : q.pc = .ready ∧ queue = s.idequeue ∨ q.pc = .waiting i none ∧ queue = s.idequeue ++ [i]) :
    (({ s.give i d with idequeue := queue } : State N).setProc p q).BioInv := by
  have hpc' : ∀ j r, (s.proc p).pc ≠ .waiting j r := fun j r hr => by
    rcases hpc with hpc | ⟨d, hpc⟩ <;> rw [hpc] at hr <;> cases hr
  have hown := Proc.owns_pos_of_held hi
  have hnew : i ∉ s.idequeue := h.not_queued hown (hpc' i)
  have hrefs : ∀ j, (s.proc p).pc.refs j = 0 := fun j => by
    rcases hpc with hpc | ⟨d, hpc⟩ <;> rw [hpc] <;> rfl
  have howns : ∀ j, (s.proc p).pc.owns j = 0 := fun j =>
    Nat.le_zero.1 ((Pc.owns_le_refs j _).trans_eq (hrefs j))
  have hrefs' : ∀ j, q.pc.refs j = 0 := fun j => by
    rcases hq with ⟨hq, -⟩ | ⟨hq, -⟩ <;> rw [hq] <;> rfl
  have howns' : ∀ j, q.pc.owns j = 0 := fun j =>
    Nat.le_zero.1 ((Pc.owns_le_refs j _).trans_eq (hrefs' j))
  refine h.own hown q (fun b => { b with dirty := true, data := d }) queue s.disk (s.give i d).hist (fun j => ?_) (fun j => ?_) (fun j r hr => absurd hr (hpc' j r)) rfl rfl (fun j hj => ?_) ?_
    (fun _ _ => rfl) (fun y hy => update_of_ne hy _ _) rfl rfl (fun hmem => ?_)
    (fun _ => h.held p i hi) (fun _ => ?_) nofun ?_ ?_
  · rw [Proc.refs, Proc.refs, hrefs, hrefs', hheld]
  · rw [Proc.owns, Proc.owns, howns, howns', hheld]
  · rcases hq with ⟨-, rfl⟩ | ⟨-, rfl⟩
    · exact Iff.rfl
    · simp [hj]
  · rcases hq with ⟨-, rfl⟩ | ⟨-, rfl⟩
    · exact h.nodup
    · exact h.nodup_snoc hnew
  · rcases hq with ⟨-, rfl⟩ | ⟨hq, -⟩
    · exact absurd hmem hnew
    · exact ⟨none, hq⟩
  · exact (update_self (s.bc.buf i).blockno d s.hist.last).symm
  · intro j hj
    rw [hheld] at hj
    exact ⟨fun _ => h.held p i hi, fun _ => h.held p j hj⟩
  · intro s' hbc hqueue
    rw [PcOk]
    rcases hq with ⟨hq, -⟩ | ⟨hq, rfl⟩
    · rw [hq]
      trivial
    · rw [hq]
      refine ⟨hheld ▸ hi, Or.inl ⟨?_, ?_, ?_⟩⟩
      · rw [hqueue]
        simp
      · rw [hbc, Bcache.modifyBuf_self]
        exact h.held p i hi
      · rw [hbc, Bcache.modifyBuf_self]
        rfl

/-- `ideintr`: the request at the head of the queue is done. -/
theorem BioInv.ideintr {rest : List ℕ} (hqueue : s.idequeue = i :: rest) :
    ({ s.transfer i with idequeue := rest } : State N).BioInv := by
  have hmem : i ∈ s.idequeue := by
    rw [hqueue]
    exact List.mem_cons_self
  obtain ⟨p, r, hpc⟩ := h.queued i hmem
  have hown := h.waiting_owns hpc
  obtain ⟨hlt, hdev⟩ := h.lt_of_refs (hown.trans_le (Proc.owns_le_refs i _))
  have hnodup := h.nodup
  rw [hqueue, List.nodup_cons] at hnodup
  have hrest : ∀ j ≠ i, (j ∈ rest ↔ j ∈ s.idequeue) := fun j hj => by
    rw [hqueue, List.mem_cons, or_iff_right hj]
  have hwait : ∀ j r', (s.proc p).pc = .waiting j r' → j = i := fun j r' hr => by
    rw [hpc] at hr
    exact (Pc.waiting.inj hr).1.symm
  have hok : ∀ (f : Buf → Buf), (f (s.bc.buf i)).blockno = (s.bc.buf i).blockno →
      (f (s.bc.buf i)).valid = true → (f (s.bc.buf i)).dirty = false →
      ∀ s' : State N, s'.bc = s.bc.modifyBuf i f → s'.idequeue = rest → s'.PcOk (s.proc p) := by
    intro f hblock hvalid hclean s' hbc hrest'
    have hok := h.pcs p
    have hdone : ∀ r, s'.Pending i r := fun r => by
      refine Or.inr ⟨?_, ?_, ?_⟩
      · rw [hrest']
        exact hnodup.1
      · rw [hbc, Bcache.modifyBuf_self]
        exact hvalid
      · rw [hbc, Bcache.modifyBuf_self]
        exact hclean
    rw [PcOk, hpc] at hok ⊢
    cases r with
    | none => exact ⟨hok.1, hdone none⟩
    | some x =>
      refine ⟨?_, hdone _⟩
      rw [hbc, Bcache.modifyBuf_self]
      exact hblock.trans hok.1
  have hproc : update s.proc p (s.proc p) = s.proc := update_eq_self p s.proc
  by_cases hdirty : (s.bc.buf i).dirty = true
  · have hdata := h.data i hlt hdev (h.dirty i hdirty).2.2
    have hinv := h.own hown (s.proc p) (fun b => { b with valid := true, dirty := false }) rest
      (update s.disk (s.bc.buf i).blockno (s.bc.buf i).data) s.hist (fun _ => rfl) (fun _ => rfl) hwait rfl rfl hrest hnodup.2
      (fun y hy => update_of_ne hy _ _) (fun _ _ => rfl) rfl rfl
      (fun hi => absurd hi hnodup.1) (fun _ => rfl) (fun _ => hdata)
      (fun _ => by rw [update_self, hdata]) (fun j hj => ⟨fun _ => rfl, fun _ => h.held p j hj⟩)
      (hok _ rfl rfl rfl)
    rw [hproc] at hinv
    have hother := hinv.other s.log s.up (if (s.bc.buf i).blockno = logstart ∧ (s.bc.buf i).data 0 ≠ 0#32 then
        { s.hist with durable := s.hist.groups.length } else s.hist)
      (by split <;> rfl) (by split <;> rfl) (by split <;> rfl)
    rw [transfer, if_pos hdirty]
    exact hother
  · rw [Bool.not_eq_true] at hdirty
    have hinv := h.own hown (s.proc p)
      (fun b => { b with valid := true, dirty := false, data := s.disk b.blockno }) rest s.disk s.hist (fun _ => rfl) (fun _ => rfl) hwait rfl rfl hrest hnodup.2
      (fun _ _ => rfl) (fun _ _ => rfl) rfl rfl
      (fun hi => absurd hi hnodup.1) (fun _ => rfl) (fun _ => h.clean_disk hlt hdev hdirty)
      (fun _ => h.clean_disk hlt hdev hdirty) (fun j hj => ⟨fun _ => rfl, fun _ => h.held p j hj⟩)
      (hok _ rfl rfl rfl)
    rw [hproc] at hinv
    rw [transfer, if_neg (by rw [hdirty]; exact nofun)]
    exact hinv

end

theorem boot_bioInv (disk : ℕ → Data) (hist : History) : (boot disk hist : State N).BioInv where
  list := by
    refine ⟨_, Bcache.binit_lru, List.reverse_perm _, ?_⟩
    exact List.pairwise_reverse.2 List.pairwise_lt_range
  clock i hi := hi
  refcnt i := by
    refine Eq.trans ?_ (Finset.sum_eq_zero fun p _ => ?_).symm
    · exact congrFun (Bcache.binitLoop_refcnt nbuf) i
    · rfl
  inUse i hi := by
    have : Bcache.binit.refcnt i = 0 := congrFun (Bcache.binitLoop_refcnt nbuf) i
    exact absurd hi (by rw [show (boot disk hist : State N).bc = Bcache.binit from rfl, this]; exact Nat.lt_irrefl 0)
  unique i _ j _ hi := nomatch (congrArg Buf.dev (Bcache.binit_buf i)).symm.trans hi
  owner _ _ := rfl
  pcs _ := trivial
  held _ _ hi := nomatch hi
  queued _ hi := nomatch hi
  nodup := List.nodup_nil
  dirty i hi := nomatch (congrArg Buf.dirty (Bcache.binit_buf i)).symm.trans hi
  data i _ hi := nomatch (congrArg Buf.dev (Bcache.binit_buf i)).symm.trans hi
  disk _ _ := rfl
  fresh i _ := ⟨congrArg Buf.dev (Bcache.binit_buf i), congrArg Buf.valid (Bcache.binit_buf i)⟩

/-- A step that leaves the cache alone. -/
theorem BioInv.quiet (h : s.BioInv) (hpc : (s.proc p).pc = .ready) (hq : q.pc = .ready)
    (hheld : q.held = (s.proc p).held) (log : Log) (up : Bool) (hist : History)
    (hlast : hist.last = s.hist.last) (hrel : hist.released = s.hist.released)
    (hclock : hist.clock = s.hist.clock) :
    (({ s with log := log, up := up, hist := hist } : State N).setProc p q).BioInv := by
  refine (h.other log up hist hlast hrel hclock).setProc (fun j => ?_) (fun j => ?_) ?_ ?_ fun j r hr => ?_
  · rw [Proc.refs, Proc.refs, hq, hpc, hheld]
  · rw [Proc.owns, Proc.owns, hq, hpc, hheld]
  · rw [PcOk, hq]
    trivial
  · rw [hheld]
    exact h.held p
  · rw [hpc] at hr
    cases hr

theorem writes_held {a : Instr} (hw : s.writes p a = some (i, d)) : i ∈ (s.proc p).held := by
  cases a with
  | bwrite x e =>
    obtain ⟨k, hk, heq⟩ := Option.map_eq_some_iff.1 hw
    obtain ⟨rfl, -⟩ := Prod.mk.inj heq
    exact (holding_eq_some hk).1
  | bwriteCopy dst src =>
    obtain ⟨k, hk, hw⟩ := Option.bind_eq_some_iff.1 hw
    obtain ⟨_, -, heq⟩ := Option.map_eq_some_iff.1 hw
    obtain ⟨rfl, -⟩ := Prod.mk.inj heq
    exact (holding_eq_some hk).1
  | bwriteHead =>
    obtain ⟨k, hk, heq⟩ := Option.map_eq_some_iff.1 hw
    obtain ⟨rfl, -⟩ := Prod.mk.inj heq
    exact (holding_eq_some hk).1
  | _ => cases hw

theorem BioInv.exec (h : s.BioInv) {a : Instr} (hpc : (s.proc p).pc = .ready) (hq : q.pc = .ready)
    (hheld : q.held = (s.proc p).held) (he : s.Exec p q a s') : s'.BioInv := by
  cases he with
  | bread hb => exact h.bget hpc hb rfl hheld
  | logWrite hi _ _ =>
    refine h.setProc (fun j => ?_) (fun j => ?_) ?_ ?_ fun j r hr => ?_
    · rw [Proc.refs, Proc.refs, hpc, hheld]
      rfl
    · rw [Proc.owns, Proc.owns, hpc, hheld]
      rfl
    · rw [hheld]
      exact (holding_eq_some hi).1
    · rw [hheld]
      exact h.held p
    · rw [hpc] at hr
      cases hr
  | write hw _ =>
    refine h.give (Or.inl hpc) (writes_held hw) ?_ ?_
    exacts [hheld, Or.inr ⟨rfl, rfl⟩]
  | brelse hi => exact h.release hpc (holding_eq_some hi).1 rfl (congrArg (List.erase · _) hheld)
  | endOpLast _ _ =>
    refine h.quiet hpc ?_ ?_ _ _ _ ?_ ?_ ?_
    · exact hq
    · exact hheld
    all_goals split <;> rfl
  | _ =>
    refine h.quiet hpc ?_ ?_ _ _ _ ?_ ?_ ?_
    exacts [hq, hheld, rfl, rfl, rfl]

/-- A process whose request is done no longer has it in the queue. -/
theorem Pending.done (hp : s.Pending i r) (hvalid : (s.bc.buf i).valid = true)
    (hdirty : (s.bc.buf i).dirty = false) : i ∉ s.idequeue := by
  rcases hp with ⟨-, hv, hd⟩ | ⟨hno, -, -⟩
  · rw [hvalid] at hv
    rw [hdirty, ← hv] at hd
    cases hd
  · exact hno

/-- `bread` returns: the process has the buffer. -/
theorem BioInv.returned (h : s.BioInv)
    (hpc : (s.proc p).pc = .checking i x ∨ (s.proc p).pc = .waiting i (some x))
    (hvalid : (s.bc.buf i).valid = true) (hdone : i ∉ s.idequeue) (hq : q.pc = .ready)
    (hheld : q.held = i :: (s.proc p).held) : (s.setProc p q).BioInv := by
  refine h.setProc (fun j => ?_) (fun j => ?_) ?_ ?_ fun j r hr => ?_
  · rw [Proc.refs, Proc.refs, hq, hheld, List.count_cons]
    rcases hpc with hpc | hpc <;> rw [hpc] <;> simp only [Pc.refs, beq_iff_eq] <;> omega
  · rw [Proc.owns, Proc.owns, hq, hheld, List.count_cons]
    rcases hpc with hpc | hpc <;> rw [hpc] <;> simp only [Pc.owns, beq_iff_eq] <;> omega
  · rw [PcOk, hq]
    trivial
  · rw [hheld]
    intro j hj
    rcases List.mem_cons.1 hj with rfl | hj
    · exact hvalid
    · exact h.held p j hj
  · rcases hpc with hpc | hpc
    · rw [hpc] at hr
      cases hr
    · rw [hpc] at hr
      obtain ⟨rfl, -⟩ := Pc.waiting.inj hr
      exact hdone

theorem BioInv.runs (h : s.BioInv) (hr : s.Runs p s') : s'.BioInv := by
  cases hr with
  | exec hpc htodo he =>
    refine h.exec hpc ?_ ?_ he
    exacts [hpc, rfl]
  | acquire hpc hlock => exact h.acquire hpc hlock rfl rfl
  | hit hpc hvalid =>
    refine h.returned (Or.inl hpc) hvalid (h.not_queued (p := p) ?_ fun r hr => ?_) rfl rfl
    · rw [Proc.owns, hpc, Pc.owns, if_pos rfl]
      exact Nat.succ_pos _
    · rw [hpc] at hr
      cases hr
  | submit hpc hvalid _ => exact h.submit hpc hvalid rfl rfl
  | read hpc hvalid hdirty =>
    have hok := h.pcs p
    rw [PcOk, hpc] at hok
    exact h.returned (Or.inr hpc) hvalid (hok.2.done hvalid hdirty) rfl rfl
  | written hpc hvalid hdirty =>
    have hok := h.pcs p
    rw [PcOk, hpc] at hok
    refine h.setProc (fun j => ?_) (fun j => ?_) trivial (h.held p) fun j r hr => ?_
    · rw [Proc.refs, Proc.refs, hpc]
      rfl
    · rw [Proc.owns, Proc.owns, hpc]
      rfl
    · rw [hpc] at hr
      obtain ⟨rfl, -⟩ := Pc.waiting.inj hr
      exact hok.2.done hvalid hdirty
  | unref hpc =>
    refine h.unref hpc ?_ ?_ ?_ (fun hzero => ?_) fun hpos => ?_
    · rfl
    · rfl
    · split <;> rfl
    · rw [if_pos hzero]
      exact ⟨rfl, rfl⟩
    · rw [if_neg hpos]
      exact ⟨rfl, rfl⟩
  | @append i d hpc =>
    have hok := h.pcs p
    rw [PcOk, hpc] at hok
    have hinv := h.give (d := d)
      (q := { s.proc p with pc := .ready, logged := insert (s.bc.buf i).blockno (s.proc p).logged })
      (Or.inr ⟨_, hpc⟩) hok rfl (Or.inl ⟨rfl, rfl⟩)
    exact hinv.other _ _ _ rfl rfl rfl

theorem BioInv.step (h : s.BioInv) (hs : s.step a = some s') : s'.BioInv := by
  cases a with
  | call p a =>
    obtain ⟨hpc, -, -, -, rfl⟩ := step_call hs
    refine h.quiet hpc ?_ ?_ _ _ _ ?_ ?_ ?_
    exacts [hpc, rfl, rfl, rfl, rfl]
  | run p => exact h.runs (run_eq_some hs)
  | intr =>
    obtain ⟨i, rest, hqueue, rfl⟩ := ideintr_eq_some hs
    exact h.ideintr hqueue
  | crash =>
    obtain rfl := Option.some.inj hs
    exact boot_bioInv _ _

end Steps

/-! ## Transparency -/

theorem bioInv_of_reach {ok : State N → Event N → Prop} (h : (system N).Reach ok s) : s.BioInv := by
  refine h.invariant (I := BioInv) ?_ fun s a s' hinv _ hs => hinv.step hs
  rintro s ⟨disk, rfl⟩
  exact boot_bioInv disk History.start

theorem give_ident (s : State N) (i j : ℕ) (d : Data) :
    ((s.give i d).bc.buf j).ident = (s.bc.buf j).ident :=
  Bcache.modifyBuf_ident (c := s.bc) (f := fun b => { b with dirty := true, data := d }) rfl

theorem transfer_ident (s : State N) (i j : ℕ) :
    ((s.transfer i).bc.buf j).ident = (s.bc.buf j).ident := by
  rw [transfer]
  split
  · exact Bcache.modifyBuf_ident (f := fun b => { b with valid := true, dirty := false }) rfl
  · exact Bcache.modifyBuf_ident
      (f := fun b => { b with valid := true, dirty := false, data := s.disk b.blockno }) rfl

/-- Only `bget` changes which block a buffer is for. -/
theorem Exec.ident {a : Instr} (he : s.Exec p q a s') :
    (∀ j, (s'.bc.buf j).ident = (s.bc.buf j).ident) ∨
      ∃ x i, s.bc.bget rootdev x = some (i, s'.bc) := by
  cases he with
  | bread hb => exact Or.inr ⟨_, _, hb⟩
  | write => exact Or.inl fun j => s.give_ident _ j _
  | _ => exact Or.inl fun j => rfl

theorem step_ident (hs : s.step a = some s') (ha : a ≠ .crash) :
    (∀ j, (s'.bc.buf j).ident = (s.bc.buf j).ident) ∨
      ∃ x i, s.bc.bget rootdev x = some (i, s'.bc) := by
  cases a with
  | call p a =>
    obtain ⟨-, -, -, -, rfl⟩ := step_call hs
    exact Or.inl fun j => rfl
  | run p =>
    cases run_eq_some hs with
    | exec _ _ he => exact he.ident
    | unref => exact Or.inl fun j => congrArg (fun b => (b j).ident) (Bcache.unref_buf ..)
    | append => exact Or.inl fun j => s.give_ident _ j _
    | _ => exact Or.inl fun j => rfl
  | intr =>
    obtain ⟨i, rest, -, rfl⟩ := ideintr_eq_some hs
    exact Or.inl fun j => s.transfer_ident i j
  | crash => exact absurd rfl ha

/-- `bread(x)` by process `p` returns buffer `i` in the step from `s` to `s'`. -/
def Breads (s : State N) (p : Fin (N + 1)) (x i : ℕ) (s' : State N) : Prop :=
  ((s.proc p).pc = .checking i x ∨ (s.proc p).pc = .waiting i (some x)) ∧ s.step (.run p) = some s' ∧
    (s'.proc p).pc = .ready

/-- What users of the cache may rely on. -/
structure Transparent (s : State N) : Prop where
  /-- No two buffers are for the same block; a buffer that has never been used is for none. -/
  unique : ∀ i < nbuf, ∀ j < nbuf, (s.bc.buf i).ident = (s.bc.buf j).ident →
    i = j ∨ (s.bc.buf i).dev = 0 ∧ (s.bc.buf j).dev = 0 ∧ s.bc.refcnt i = 0 ∧ s.bc.refcnt j = 0
  /-- The list is a doubly linked cycle of all buffers. -/
  list : ∃ l : List ℕ, l.Perm (List.range nbuf) ∧ Cycle s.bc.next s.bc.prev none (l.map some)
  /-- A buffer given to another block is the least recently released one of those that are unused and
  not dirty. -/
  recycled : ∀ a s', s.step a = some s' → a ≠ .crash → ∀ i, (s'.bc.buf i).ident ≠ (s.bc.buf i).ident →
    s.bc.refcnt i = 0 ∧ (s.bc.buf i).dirty = false ∧
      ∀ j < nbuf, j ≠ i → s.bc.refcnt j = 0 → (s.bc.buf j).dirty = false →
        s.hist.released i < s.hist.released j
  /-- `bread` returns a buffer of the block with the contents last given to it. -/
  contents : ∀ p x i s', s.Breads p x i s' →
    i ∈ (s'.proc p).held ∧ (s'.bc.buf i).ident = (rootdev, x) ∧ (s'.bc.buf i).data = s'.hist.last x

theorem BioInv.ident_unique (h : s.BioInv) (hi : i < nbuf) (hj : j < nbuf)
    (hij : (s.bc.buf i).ident = (s.bc.buf j).ident) :
    i = j ∨ (s.bc.buf i).dev = 0 ∧ (s.bc.buf j).dev = 0 ∧ s.bc.refcnt i = 0 ∧ s.bc.refcnt j = 0 := by
  obtain ⟨hdev, hblock⟩ := Prod.mk.inj hij
  by_cases hroot : (s.bc.buf i).dev = rootdev
  · exact Or.inl (h.unique i hi j hj hroot (hdev.symm.trans hroot) hblock)
  · have hzero : ∀ k, (s.bc.buf k).dev ≠ rootdev → s.bc.refcnt k = 0 := fun k hk => by
      by_contra hpos
      exact hk (h.inUse k (Nat.pos_of_ne_zero hpos)).2
    have hroot' : (s.bc.buf j).dev ≠ rootdev := fun heq => hroot (hdev.trans heq)
    exact Or.inr ⟨(h.fresh i hroot).1, (h.fresh j hroot').1, hzero i hroot, hzero j hroot'⟩

theorem BioInv.recycled (h : s.BioInv) (hs : s.step a = some s') (ha : a ≠ .crash)
    (hi : (s'.bc.buf i).ident ≠ (s.bc.buf i).ident) : s.bc.victim = some i := by
  rcases step_ident hs ha with hsame | ⟨x, k, hb⟩
  · exact absurd (hsame i) hi
  · rcases h.bget_cases hb with ⟨-, -, -, hc⟩ | ⟨hv, -, hc⟩
    · rw [hc] at hi
      exact absurd rfl hi
    · rw [hc] at hi
      by_cases hik : i = k
      · rw [hik, hv]
      · rw [Bcache.recycle_buf_of_ne hik] at hi
        exact absurd rfl hi

/-- A buffer that a process has a reference to keeps its block. -/
theorem BioInv.blockno_of_refs (h : s.BioInv) {e : Event N} (hs : s.step e = some s') (he : e ≠ .crash)
    (hi : 0 < (s.proc p).refs i) : (s'.bc.buf i).blockno = (s.bc.buf i).blockno := by
  by_contra hne
  have hv := h.recycled hs he (i := i) fun heq => hne (congrArg Prod.snd heq)
  have := s.refs_le_sum p i
  rw [← h.refcnt, (h.victim_spec hv).2.1] at this
  omega

theorem BioInv.breads (h : s.BioInv) (hb : s.Breads p x i s') :
    i ∈ (s'.proc p).held ∧ (s'.bc.buf i).ident = (rootdev, x) ∧ (s'.bc.buf i).data = s'.hist.last x := by
  obtain ⟨hpc, hs, hready⟩ := hb
  have hinv := h.step hs
  -- the step is the one in which the process gets the buffer
  have hmem : i ∈ (s'.proc p).held ∧ (s'.bc.buf i).blockno = x := by
    have hok := h.pcs p
    have hself : ∀ t : State N, ∀ q, ((t.setProc p q).proc p) = q := fun t q => update_self ..
    cases run_eq_some hs with
    | hit hpc' _ =>
      rw [hself]
      rcases hpc with hpc | hpc
      · rw [PcOk, hpc] at hok
        obtain ⟨rfl, rfl⟩ := Pc.checking.inj (hpc.symm.trans hpc')
        exact ⟨List.mem_cons_self, hok⟩
      · cases hpc.symm.trans hpc'
    | read hpc' _ _ =>
      rw [hself]
      rcases hpc with hpc | hpc
      · cases hpc.symm.trans hpc'
      · rw [PcOk, hpc] at hok
        obtain ⟨rfl, hx⟩ := Pc.waiting.inj (hpc.symm.trans hpc')
        exact ⟨List.mem_cons_self, hok.1⟩
    | submit hpc' _ _ =>
      rw [hself] at hready
      cases hready
    | exec hpc' | acquire hpc' | written hpc' | unref hpc' | append hpc' =>
      rcases hpc with hpc | hpc <;> cases hpc.symm.trans hpc'
  obtain ⟨hheld, hx⟩ := hmem
  obtain ⟨hlt, hdev⟩ := hinv.lt_of_refs (refs_of_held hheld)
  refine ⟨hheld, by rw [Buf.ident, hdev, hx], ?_⟩
  rw [← hx]
  exact hinv.data i hlt hdev (hinv.held p i hheld)

/-- **The buffer cache is transparent**, in every state of every run. -/
theorem bio_transparent (h : (system N).Reach (fun _ _ => True) s) : s.Transparent where
  unique _ hi _ hj hij := (bioInv_of_reach h).ident_unique hi hj hij
  list := by
    obtain ⟨l, hl, hperm, -⟩ := (bioInv_of_reach h).list
    exact ⟨l, hperm, hl⟩
  recycled _ _ hs ha _ hi := by
    obtain ⟨-, hspec⟩ := (bioInv_of_reach h).victim_spec ((bioInv_of_reach h).recycled hs ha hi)
    exact hspec
  contents _ _ _ _ hb := (bioInv_of_reach h).breads hb

theorem bio_transparent_reading :
    ∃ s : State 0, (s.proc 0).pc = .locking 0 1 ∧ s.Transparent := by
  obtain ⟨s, hreach, hpc⟩ := exists_reach (fun _ _ => True) [.run 0] (fun s : State 0 => (s.proc 0).pc matches .locking 0 1)
    (by decide +kernel)
  refine ⟨s, ?_, bio_transparent hreach⟩
  split at hpc
  · assumption
  · cases hpc

end State

end OsLab.Xv6
