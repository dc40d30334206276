import OsLab.Jos.Cpus

/-!
# Identifiers and the list of free environments

`env_alloc` takes the slot at the head of `env_free_list` and gives it the next of
its identifiers; `env_free` puts the slot back.

* `idAt e i` is the identifier that slot `e` gets when it is given out for the
  `i`-th time: a generation that goes from 1 to `2^19 - 1` and starts again, and the
  slot.  `nextEnvId_lastId` is the arithmetic of `env_alloc`.
* `TableMove` is what a step can do to the table: nothing, free a slot that was in
  use, or give out the one at the head (`TrapEnds.tableMove`).
* `FreeOk` and `IdsOk` follow it, and `env_table_ok` is the result over whole runs.
* It needs what keeps the processors apart.  In `listed_in_use` a processor still
  executes an environment that was freed, and its `sys_env_set_status` gives a slot
  on the free list another status.
-/

namespace OsLab.Jos

open Exec Function

/-! ## Generations -/

theorem and_not_low10 (x : Word) : x &&& ~~~BitVec.ofNat 32 (nenv - 1) = (x >>> 10) <<< 10 := by
  refine BitVec.eq_of_getLsbD_eq fun i hi => ?_
  have h1023 : nenv - 1 = 2 ^ 10 - 1 := rfl
  rw [BitVec.getLsbD_and, BitVec.getLsbD_not, BitVec.getLsbD_ofNat, h1023,
    Nat.testBit_two_pow_sub_one]
  by_cases h : i < 10
  · simp [h]
  · simp [h, hi, Nat.add_sub_cancel' (Nat.not_lt.1 h)]

theorem toNat_and_not_low10 (x : Word) :
    (x &&& ~~~BitVec.ofNat 32 (nenv - 1)).toNat = x.toNat / 1024 * 1024 := by
  rw [and_not_low10, BitVec.toNat_shiftLeft, BitVec.toNat_ushiftRight]
  omega

theorem toNat_or_slot {g e : ℕ} (he : e < nenv) (hg : g < 2 ^ 20) :
    (BitVec.ofNat 32 (g * 4096) ||| BitVec.ofNat 32 e).toNat = g * 4096 + e := by
  have he' : e < 2 ^ 12 := Nat.lt_trans he (by decide)
  rw [BitVec.toNat_or, BitVec.toNat_ofNat, BitVec.toNat_ofNat, Nat.mod_eq_of_lt (by omega),
    Nat.mod_eq_of_lt (by omega), Nat.mul_comm g,
    ← Nat.two_pow_add_eq_or_of_lt he']

/-- The next identifier, if the last one has generation `g` (and 0 counts as
generation 0): the mask clears the slot, and the sign bit starts again at 1. -/
theorem nextEnvId_toNat {old : Word} {e g : ℕ} (he : e < nenv) (hg : g < 2 ^ 19)
    (hold : old.toNat / 4096 = g) (hlow : old.toNat % 4096 < 1024) :
    (nextEnvId old e).toNat = (if g + 1 = 2 ^ 19 then 1 else g + 1) * 4096 + e := by
  have hgen : (old + 1#32 <<< envgenshift) &&& ~~~BitVec.ofNat 32 (nenv - 1) =
      BitVec.ofNat 32 ((g + 1) * 4096) := by
    refine BitVec.eq_of_toNat_eq ?_
    rw [toNat_and_not_low10, BitVec.toNat_add, show (1#32 <<< envgenshift : Word).toNat = 4096 by decide,
      BitVec.toNat_ofNat]
    omega
  have hsign : (BitVec.ofNat 32 ((g + 1) * 4096) : Word).toInt ≤ 0 ↔ g + 1 = 2 ^ 19 := by
    rw [BitVec.toInt_eq_toNat_cond, BitVec.toNat_ofNat]
    split <;> omega
  unfold nextEnvId
  simp only [hgen, hsign]
  split
  · rw [show (1#32 <<< envgenshift : Word) = BitVec.ofNat 32 (1 * 4096) by decide,
      toNat_or_slot he (by decide)]
  · rw [toNat_or_slot he (by omega)]

/-- The number of generations. -/
def generations : ℕ := 2 ^ 19 - 1

/-- The identifier that slot `e` gets the `i`-th time, counted from 0. -/
def idAt (e i : ℕ) : Word := BitVec.ofNat 32 ((i % generations + 1) * 4096 + e)

variable {e i j n : ℕ} {v : Env}

theorem idAt_toNat (he : e < nenv) : (idAt e i).toNat = (i % generations + 1) * 4096 + e := by
  have hmod : i % generations < generations := Nat.mod_lt _ (by decide)
  simp only [generations, nenv] at hmod he
  rw [idAt, BitVec.toNat_ofNat, generations]
  omega

/-- Slot `e` has been given out `n` times, and this is its `env_id`. -/
def lastId (e : ℕ) : ℕ → Word
  | 0 => 0#32
  | n + 1 => idAt e n

/-- **`env_alloc` counts the generations.** -/
theorem nextEnvId_lastId (he : e < nenv) (n : ℕ) : nextEnvId (lastId e n) e = idAt e n := by
  refine BitVec.eq_of_toNat_eq ?_
  rw [idAt_toNat he]
  cases n with
  | zero =>
    have h0 : (lastId e 0).toNat = 0 := rfl
    rw [nextEnvId_toNat he (g := 0) (by decide) (by rw [h0]) (by rw [h0]; decide)]
    rfl
  | succ n =>
    have hG : generations + 1 = 2 ^ 19 := rfl
    have hmod : n % generations < generations := Nat.mod_lt _ (by decide)
    have he' : e < 1024 := he
    have hlast : (lastId e (n + 1)).toNat = (n % generations + 1) * 4096 + e := idAt_toNat he
    have hnext : (n + 1) % generations = (n % generations + 1) % generations := by rw [Nat.add_mod]; rfl
    rw [hnext]
    generalize n % generations = q at hmod hlast ⊢
    rw [nextEnvId_toNat he (g := q + 1) (by omega) (by omega) (by omega)]
    by_cases h : q + 1 = generations
    · rw [h, Nat.mod_self, if_pos hG]
    · rw [Nat.mod_eq_of_lt (by omega), if_neg (by omega)]

/-- Identifiers recur after `2^19 - 1` times, and not before. -/
theorem idAt_eq_iff (he : e < nenv) (hij : i ≤ j) : idAt e i = idAt e j ↔ generations ∣ j - i := by
  rw [← Nat.modEq_iff_dvd' hij, Nat.ModEq]
  constructor
  · intro h
    have h' := congrArg BitVec.toNat h
    rw [idAt_toNat he, idAt_toNat he] at h'
    omega
  · intro h
    rw [idAt, idAt, h]

theorem idAt_pos (he : e < nenv) : 0 < (idAt e i).toInt := by
  rw [← nextEnvId_lastId he i]
  exact nextEnvId_pos _ he

theorem envx_idAt (he : e < nenv) : envx (idAt e i) = e := by
  rw [← nextEnvId_lastId he i]
  exact envx_nextEnvId he

/-! ## What a step does to the table -/

/-- As far as the table goes, the slot is the same. -/
structure SameSlot (v v' : Env) : Prop where
  link : v'.envLink = v.envLink
  id : v'.envId = v.envId
  free : v'.envStatus = .free ↔ v.envStatus = .free

theorem SameSlot.refl (v : Env) : SameSlot v v := ⟨rfl, rfl, Iff.rfl⟩

theorem SameSlot.trans {v1 v2 : Env} (h : SameSlot v v1) (h' : SameSlot v1 v2) : SameSlot v v2 :=
  ⟨h'.link.trans h.link, h'.id.trans h.id, h'.free.trans h.free⟩

/-- The table is the same. -/
structure SameTable (k k' : Kern) : Prop where
  list : k'.envFreeList = k.envFreeList
  slot : ∀ e, SameSlot (k.envs e) (k'.envs e)

/-- What a step can do to the table. -/
inductive TableMove (k k' : Kern) : Prop
  | kept (h : SameTable k k')
  | freed (e : ℕ) (hst : (k.envs e).envStatus ≠ .free) (hlist : k'.envFreeList = some e)
      (hlink : (k'.envs e).envLink = k.envFreeList) (hst' : (k'.envs e).envStatus = .free)
      (hid : (k'.envs e).envId = (k.envs e).envId)
      (hother : ∀ e', e' ≠ e → SameSlot (k.envs e') (k'.envs e'))
  | made (e : ℕ) (hhead : k.envFreeList = some e) (hlist : k'.envFreeList = (k.envs e).envLink)
      (hst' : (k'.envs e).envStatus ≠ .free)
      (hid : (k'.envs e).envId = nextEnvId (k.envs e).envId e)
      (hother : ∀ e', e' ≠ e → SameSlot (k.envs e') (k'.envs e'))

section Moves

variable {k k' k₁ k₂ : Kern} {c : ℕ} {busy : ℕ → Prop} {D : ℕ → Option ℕ} {call : Call} {r : ℤ}
  {tf : Trapframe}

theorem SameTable.trans (h : SameTable k k₁) (h' : SameTable k₁ k₂) : SameTable k k₂ :=
  ⟨h'.list.trans h.list, fun e => (h.slot e).trans (h'.slot e)⟩

theorem SameEnvs.sameTable (h : SameEnvs k k') : SameTable k k' := by
  obtain ⟨p, rfl⟩ := h
  exact ⟨rfl, fun _ => .refl _⟩

theorem sameTable_setEnv (f : Env → Env) (hf : SameSlot (k.envs e) (f (k.envs e))) :
    SameTable k (k.setEnv e f) := by
  refine ⟨rfl, fun e' => ?_⟩
  by_cases he : e' = e
  · subst he
    rwa [setEnv_envs_self]
  · rw [setEnv_envs_of_ne _ he]
    exact .refl _

theorem ran_sameTable {j : ℕ} (hj : (k.envs j).envStatus ≠ .free) : SameTable k (ran k j) := by
  refine ⟨ran_envFreeList k j, fun e => ?_⟩
  by_cases hej : e = j
  · subst hej
    rw [ran_envs_self]
    exact ⟨rfl, rfl, ⟨nofun, fun h => absurd h hj⟩⟩
  · rw [ran_envs_of_ne _ hej, descheduled_envs]
    split
    · rename_i h
      exact ⟨rfl, rfl, ⟨nofun, fun hf => by rw [h.2] at hf; cases hf⟩⟩
    · exact .refl _

theorem Leaves.sameTable (h : Leaves k k') : SameTable k k' := by
  cases h with
  | halt => exact ⟨rfl, fun _ => .refl _⟩
  | run j hj =>
    refine ran_sameTable ?_
    rcases hj with hj | ⟨-, hj⟩ <;> rw [hj] <;> nofun

theorem TableMove.before (h : SameTable k k₁) (h' : TableMove k₁ k₂) : TableMove k k₂ := by
  cases h' with
  | kept h' => exact .kept (h.trans h')
  | freed e hst hlist hlink hst' hid hother =>
    exact .freed e (fun hf => hst ((h.slot e).free.2 hf)) hlist (hlink.trans h.list) hst'
      (hid.trans (h.slot e).id) fun e' he' => (h.slot e').trans (hother e' he')
  | made e hhead hlist hst' hid hother =>
    refine .made e (h.list ▸ hhead) (hlist.trans (h.slot e).link) hst' ?_
      fun e' he' => (h.slot e').trans (hother e' he')
    rw [hid, (h.slot e).id]

theorem TableMove.after (h : TableMove k k₁) (h' : SameTable k₁ k₂) : TableMove k k₂ := by
  cases h with
  | kept h => exact .kept (h.trans h')
  | freed e hst hlist hlink hst' hid hother =>
    exact .freed e hst (h'.list.trans hlist) ((h'.slot e).link.trans hlink) ((h'.slot e).free.2 hst')
      ((h'.slot e).id.trans hid) fun e' he' => (hother e' he').trans (h'.slot e')
  | made e hhead hlist hst' hid hother =>
    exact .made e hhead (h'.list.trans hlist) (fun hf => hst' ((h'.slot e).free.1 hf))
      ((h'.slot e).id.trans hid) fun e' he' => (hother e' he').trans (h'.slot e')

theorem freedEnv_tableMove (hst : (k.envs e).envStatus ≠ .free) : TableMove k (freedEnv k e) := by
  refine .freed e hst rfl ?_ ?_ ?_ fun e' he' => ?_
  · rw [freedEnv_envs_self]
  · rw [freedEnv_envs_self]
  · rw [freedEnv_envs_self]
  · rw [freedEnv_envs_of_ne k he']
    exact .refl _

theorem Killed.tableMove (h : Killed k c k') (hst : (k.envs c).envStatus ≠ .free) : TableMove k k' := by
  obtain ⟨-, k₁, hk1, hl⟩ := h
  have hcur : SameTable k₁ { k₁ with curenv := none } := ⟨rfl, fun _ => .refl _⟩
  exact ((freedEnv_tableMove hst).after hk1.sameTable).after (hcur.trans hl.sameTable)

/-- A slot in use stays in use. -/
theorem sameTable_status {f : Env → Env} (hst : (k.envs e).envStatus ≠ .free)
    (hst' : (f (k.envs e)).envStatus ≠ .free) (hlink : (f (k.envs e)).envLink = (k.envs e).envLink)
    (hid : (f (k.envs e)).envId = (k.envs e).envId) : SameTable k (k.setEnv e f) :=
  sameTable_setEnv f ⟨hlink, hid, ⟨fun h => absurd h hst', fun h => absurd h hst⟩⟩

theorem saveTf_sameTable (k : Kern) (c : ℕ) (tf : Trapframe) : SameTable k (k.saveTf c tf) :=
  sameTable_setEnv _ ⟨rfl, rfl, Iff.rfl⟩

/-- **A system call that returns.** -/
theorem CallDone.tableMove (h : CallDone k call r k') (hg : Guarded busy D k) : TableMove k k' := by
  cases h with
  | refused _ hk | quiet _ hk => exact .kept hk.sameTable
  | destroyed hn hk =>
    have hst := hg.names_ne_free hn
    cases hk with
    | dying => exact .kept (sameTable_status hst (by simp) rfl rfl)
    | freed _ _ hk => exact (freedEnv_tableMove hst).after hk.sameTable
  | @forked c e d p _ _ he =>
    refine .made e he rfl ?_ ?_ fun e' he' => ?_
    · simp [Jos.forked, setEnv_envs_self]
    · simp [Jos.forked, setEnv_envs_self, afterAlloc]
    · show SameSlot _ ((update (update k.envs e _) e _) e')
      rw [update_of_ne he', update_of_ne he']
      exact .refl _
  | status hst hn =>
    exact .kept (sameTable_status (hg.names_ne_free hn) (statusArg_ne_free hst).1 rfl rfl)
  | upcall hn =>
    exact .kept (sameTable_setEnv _ ⟨rfl, rfl, Iff.rfl⟩)
  | @sent envid value srcva perm rcv c k₁ hn _ _ hk =>
    have hnoted : SameTable k k₁ := by
      rcases hk with hk | hk
      · exact hk.sameTable
      · have hperm : SameTable k (k.setEnv rcv fun v => { v with envIpcPerm := perm }) :=
          sameTable_setEnv _ ⟨rfl, rfl, Iff.rfl⟩
        exact hperm.trans hk.sameTable
    have hst : (k₁.envs rcv).envStatus ≠ .free := fun hf =>
      hg.names_ne_free hn ((hnoted.slot rcv).free.1 hf)
    exact .kept (hnoted.trans (sameTable_status hst (by simp) rfl rfl))

/-- **A system call that does not return.** -/
theorem CallLeft.tableMove (h : CallLeft k call k') (hg : Guarded busy D k) : TableMove k k' := by
  cases h with
  | yield hk => exact .kept hk.sameTable
  | killed _ hk => exact hk.tableMove (hg.current _ hk.1).2
  | faulted h1 hk =>
    have hsame := h1.sameTable
    obtain ⟨p, rfl⟩ := h1
    exact (hk.tableMove (hg.current _ hk.1).2).before hsame
  | @recv dstva c _ hc _ hk =>
    have hrec : SameTable k (receiving k c dstva) :=
      sameTable_status (hg.current c hc).2 (fun h => nomatch h) rfl rfl
    exact .kept (hrec.trans hk.sameTable)

/-- **What a trap does to the table.** -/
theorem TrapEnds.tableMove {inp : Inputs} (h : TrapEnds inp tf k k') (hg : Guarded busy D k) :
    TableMove k k' := by
  cases h with
  | zombie _ _ hk => exact hk.tableMove (hg.current _ hk.1).2
  | @returned c r k₂ _ _ hc _ _ _ hcall hk =>
    have hret : SameTable k₂ (k₂.setEnv c fun v => v.withRet r) := sameTable_setEnv _ ⟨rfl, rfl, Iff.rfl⟩
    exact ((hcall.tableMove (hg.saveTf hc tf)).before (saveTf_sameTable k c tf)).after
      (hret.trans hk.1.sameTable)
  | left _ hc _ _ _ hcall => exact (hcall.tableMove (hg.saveTf hc tf)).before (saveTf_sameTable k _ tf)
  | @upcall c tf' k₂ _ hc _ _ hk =>
    have hsame := (saveTf_sameTable k c tf').trans hk.sameTable
    exact .kept (hsame.trans (ran_sameTable fun hf => (hg.current c hc).2 ((hsame.slot c).free.1 hf)))
  | @killed c k₁ _ _ _ _ h1 hk =>
    have hsame := (saveTf_sameTable k c tf).trans h1.sameTable
    have hc : k.curenv = some c := by
      obtain ⟨p, rfl⟩ := h1
      exact hk.1
    exact (hk.tableMove fun hf => (hg.current c hc).2 ((hsame.slot c).free.1 hf)).before hsame
  | plain _ hc _ _ hk => exact .kept ((saveTf_sameTable k _ tf).trans hk.sameTable)
  | idleReturned _ _ hcall hk => exact (hcall.tableMove hg).after hk.sameTable
  | idleLeft _ _ hcall => exact hcall.tableMove hg
  | idle _ _ hk => exact .kept hk.sameTable

end Moves

/-! ## Invariants -/

/-- The free list holds the free slots of the table, and there are no slots behind
the table. -/
def FreeOk (k : Kern) : Prop :=
  (∃ l, IsChain (fun e => (k.envs e).envLink) k.envFreeList l ∧
    ∀ e, e ∈ l ↔ e < nenv ∧ (k.envs e).envStatus = .free) ∧
  ∀ e, nenv ≤ e → (k.envs e).envStatus = .free

variable {k k' : Kern} {cfg : BootConfig} {l : List Word} {m m' : Machine} {a : Event} {id : Word}

theorem FreeOk.lt (h : FreeOk k) (hst : (k.envs e).envStatus ≠ .free) : e < nenv :=
  Nat.lt_of_not_le fun hle => hst (h.2 e hle)

theorem FreeOk.head_lt (h : FreeOk k) (he : k.envFreeList = some e) : e < nenv := by
  obtain ⟨⟨l, hl, hmem⟩, -⟩ := h
  exact ((hmem e).1 (hl.head_mem he)).1

theorem FreeOk.move (h : FreeOk k) (hm : TableMove k k') : FreeOk k' := by
  have hlt := fun e => h.lt (e := e)
  have hhead := fun e => h.head_lt (e := e)
  obtain ⟨⟨l, hl, hmem⟩, hout⟩ := h
  cases hm with
  | kept h =>
    refine ⟨⟨l, ?_, fun e => ?_⟩, fun e he => (h.slot e).free.2 (hout e he)⟩
    · rw [h.list]
      exact hl.congr fun y _ => (h.slot y).link
    · rw [hmem e, (h.slot e).free]
  | freed e hst hlist hlink hst' hid hother =>
    have hel : e ∉ l := fun hin => hst ((hmem e).1 hin).2
    refine ⟨⟨e :: l, ?_, fun e' => ?_⟩, fun e' he' => ?_⟩
    · rw [hlist, IsChain.cons_iff]
      refine ⟨rfl, ?_⟩
      rw [hlink]
      exact hl.congr fun y hy => (hother y fun heq => hel (heq ▸ hy)).link
    · rw [List.mem_cons]
      by_cases heq : e' = e
      · subst heq
        exact ⟨fun _ => ⟨hlt e' hst, hst'⟩, fun _ => Or.inl rfl⟩
      · rw [hmem e', (hother e' heq).free]
        exact ⟨fun hor => hor.resolve_left heq, Or.inr⟩
    · by_cases heq : e' = e
      · rw [heq, hst']
      · exact (hother e' heq).free.2 (hout e' he')
  | made e hhead' hlist hst' hid hother =>
    have helt := hhead e hhead'
    cases l with
    | nil =>
      rw [IsChain.nil_iff.1 hl] at hhead'
      cases hhead'
    | cons a t =>
      obtain rfl : a = e := Option.mem_unique hl.1 hhead'
      have hnot : a ∉ t := (List.nodup_cons.1 hl.nodup).1
      refine ⟨⟨t, ?_, fun e' => ?_⟩, fun e' he' => ?_⟩
      · rw [hlist]
        exact hl.2.congr fun y hy => (hother y fun heq => hnot (heq ▸ hy)).link
      · by_cases heq : e' = a
        · subst heq
          exact ⟨fun hin => absurd hin hnot, fun hf => absurd hf.2 hst'⟩
        · rw [(hother e' heq).free, ← hmem e', List.mem_cons]
          exact ⟨Or.inr, fun hor => hor.resolve_left heq⟩
      · have heq : e' ≠ a := fun heq => absurd helt (by rw [← heq]; exact Nat.not_lt.2 he')
        exact (hother e' heq).free.2 (hout e' he')

/-- Slot `e` has been given out as often as its history `l` says, each time with the
next identifier. -/
structure IdsOk (e : ℕ) (v : Env) (l : List Word) : Prop where
  ids : l = (List.range l.length).map (idAt e)
  last : v.envId = lastId e l.length
  used : v.envStatus ≠ .free → l ≠ []
  slot : l ≠ [] → e < nenv

/-- The identifiers that a step assigns to slot `e`. -/
def assigned (m : Machine) (_ : Event) (m' : Machine) (e : ℕ) : List Word :=
  if (m.kern.envs e).envStatus = .free ∧ (m'.kern.envs e).envStatus ≠ .free then
    [(m'.kern.envs e).envId]
  else []

/-- The machine with the identifiers that every slot has had. -/
def josIds (cfg : BootConfig) : System (Machine × (ℕ → List Word)) Event :=
  (jos cfg).recording assigned

theorem assigned_of_same (h : SameSlot (m.kern.envs e) (m'.kern.envs e)) : assigned m a m' e = [] := by
  exact if_neg fun hh => hh.2 (h.free.2 hh.1)

theorem IdsOk.same {v' : Env} (h : IdsOk e v l) (hs : SameSlot v v') : IdsOk e v' l :=
  ⟨h.ids, hs.id.trans h.last, fun hst => h.used fun hf => hst (hs.free.2 hf), h.slot⟩

theorem IdsOk.move (h : IdsOk e (m.kern.envs e) l)
    (hf : FreeOk m.kern) (hm : TableMove m.kern m'.kern) :
    IdsOk e (m'.kern.envs e) (l ++ assigned m a m' e) := by
  have hsame : SameSlot (m.kern.envs e) (m'.kern.envs e) →
      IdsOk e (m'.kern.envs e) (l ++ assigned m a m' e) := fun hs => by
    rw [assigned_of_same hs, List.append_nil]
    exact h.same hs
  have hhead := fun e => hf.head_lt (e := e)
  obtain ⟨⟨L, hL, hmem⟩, -⟩ := hf
  cases hm with
  | kept hk => exact hsame (hk.slot e)
  | freed e' hst _ _ hst' hid hother =>
    by_cases heq : e = e'
    · subst heq
      have hno : assigned m a m' e = [] := if_neg fun hh => hst hh.1
      rw [hno, List.append_nil]
      exact ⟨h.ids, hid.trans h.last, fun hne => absurd hst' hne, h.slot⟩
    · exact hsame (hother e heq)
  | made e' hhead' _ hst' hid hother =>
    by_cases heq : e = e'
    · subst heq
      have he := hhead e hhead'
      have hfree : (m.kern.envs e).envStatus = .free := ((hmem e).1 (hL.head_mem hhead')).2
      have hnew : (m'.kern.envs e).envId = idAt e l.length := by
        rw [hid, h.last, nextEnvId_lastId he]
      rw [assigned, if_pos ⟨hfree, hst'⟩, hnew]
      refine ⟨?_, ?_, fun _ => by simp, fun _ => he⟩
      · rw [List.length_append, List.length_singleton, List.range_succ, List.map_append, ← h.ids]
        rfl
      · rw [List.length_append, hnew]
        rfl
    · exact hsame (hother e heq)

theorem IdsOk.getElem (h : IdsOk e v l) (hi : i < l.length) :
    l[i]? = some (idAt e i) := by
  rw [h.ids, List.getElem?_map, List.getElem?_range hi]
  rfl

theorem IdsOk.mem (h : IdsOk e v l) (hid : id ∈ l) :
    ∃ i, id = idAt e i := by
  rw [h.ids, List.mem_map] at hid
  obtain ⟨i, -, rfl⟩ := hid
  exact ⟨i, rfl⟩

/-- The identifier of an environment in use is the last one its slot was given. -/
theorem IdsOk.live (h : IdsOk e v l) (hst : v.envStatus ≠ .free) :
    e < nenv ∧ l.getLast? = some v.envId ∧ envx v.envId = e := by
  have hne := h.used hst
  have he := h.slot hne
  obtain ⟨n, hn⟩ : ∃ n, l.length = n + 1 :=
    Nat.exists_eq_succ_of_ne_zero (List.length_eq_zero_iff.not.2 hne)
  have hlast : v.envId = idAt e n := by rw [h.last, hn, lastId]
  refine ⟨he, ?_, by rw [hlast, envx_idAt he]⟩
  rw [List.getLast?_eq_getElem?, hn, hlast]
  exact h.getElem (by omega)

/-! ## Whole runs -/

/-- What holds of the table, and of the identifiers that were given out. -/
structure EnvTableOk (k : Kern) (hist : ℕ → List Word) : Prop where
  /-- The free list is finite, has each free slot once, and no other. -/
  list : ∃ l, IsChain (fun e => (k.envs e).envLink) k.envFreeList l ∧ l.Nodup ∧
    ∀ e, e ∈ l ↔ e < nenv ∧ (k.envs e).envStatus = .free
  /-- Identifiers are positive and say in which slot they are. -/
  slot : ∀ e, ∀ id ∈ hist e, 0 < id.toInt ∧ envx id = e
  /-- A live environment has the last identifier of its slot. -/
  live : ∀ e, (k.envs e).envStatus ≠ .free → (hist e).getLast? = some (k.envs e).envId
  distinct : ∀ e e', (k.envs e).envStatus ≠ .free → (k.envs e').envStatus ≠ .free →
    (k.envs e).envId = (k.envs e').envId → e = e'
  /-- A slot gets an identifier again after `2^19 - 1` times, and not before. -/
  recurs : ∀ e i j, i < j → j < (hist e).length →
    ((hist e)[i]? = (hist e)[j]? ↔ 2 ^ 19 - 1 ∣ j - i)
  named : ∀ id e, id ≠ 0#32 → (envid2env id false k = .ok (.ok e) k ↔
    (k.envs e).envStatus ≠ .free ∧ (k.envs e).envId = id)
  refused : ∀ id, id ≠ 0#32 → (∀ e, (k.envs e).envStatus ≠ .free → (k.envs e).envId ≠ id) →
    envid2env id false k = .ok (.error (-eBadEnv)) k

/-- `envid2env` without the check of permission. -/
theorem envid2env_slot (hid : id ≠ 0#32) : envid2env id false k =
    if (k.envs (envx id)).envStatus = .free ∨ (k.envs (envx id)).envId ≠ id then
      .ok (.error (-eBadEnv)) k
    else .ok (.ok (envx id)) k := by
  rw [envid2env, read_bind]
  simp only [Function.id_def, if_neg hid]
  split
  · rfl
  · rfl

theorem FreeOk.table {hist : ℕ → List Word} (h : FreeOk k) (hids : ∀ e, IdsOk e (k.envs e) (hist e)) :
    EnvTableOk k hist := by
  obtain ⟨⟨l, hl, hmem⟩, -⟩ := h
  have hslot : ∀ e, (k.envs e).envStatus ≠ .free → envx (k.envs e).envId = e :=
    fun e hst => ((hids e).live hst).2.2
  refine ⟨⟨l, hl, hl.nodup, hmem⟩, fun e id hid => ?_, fun e hst => ((hids e).live hst).2.1,
    fun e e' hst hst' heq => ?_, fun e i j hij hj => ?_, fun id e hid => ?_, fun id hid hno => ?_⟩
  · have he := (hids e).slot (List.ne_nil_of_mem hid)
    obtain ⟨i, rfl⟩ := (hids e).mem hid
    exact ⟨idAt_pos he, envx_idAt he⟩
  · rw [← hslot e hst, ← hslot e' hst', heq]
  · have he := (hids e).slot (List.ne_nil_of_length_pos (by omega))
    rw [(hids e).getElem (hij.trans hj), (hids e).getElem hj, Option.some.injEq]
    exact idAt_eq_iff he hij.le
  · rw [envid2env_slot hid]
    constructor
    · intro hok
      split at hok
      · cases hok
      · rename_i hno
        cases hok
        exact ⟨fun hf => hno (Or.inl hf), not_not.1 fun hne => hno (Or.inr hne)⟩
    · rintro ⟨hst, rfl⟩
      rw [hslot e hst, if_neg]
      rintro (hf | hne)
      · exact hst hf
      · exact hne rfl
  · rw [envid2env_slot hid, if_pos]
    by_cases hst : (k.envs (envx id)).envStatus = .free
    · exact Or.inl hst
    · exact Or.inr (hno _ hst)

/-- **What an event does to the table.** -/
theorem CpuInv.tableMove (h : CpuInv m)
    (hstep : (jos cfg).step m a m') : TableMove m.kern m'.kern := by
  have hon : ∀ i, SameTable m.kern (m.on i) := fun i => ⟨rfl, fun _ => .refl _⟩
  obtain ⟨hen, hexec⟩ := hstep
  cases a with
  | create binary type =>
    obtain ⟨e, k', hk, rfl⟩ := create_moves hexec
    refine .made e hk.head hk.freeList (by rw [hk.status]; nofun) ?_ fun e' he' => ?_
    · obtain ⟨d, p, tf, type, hv⟩ := hk.self
      rw [hv, afterAlloc, setEnv_envs_self]
    · rw [hk.others e' he']
      exact .refl _
  | start i =>
    obtain ⟨k', hk, rfl⟩ := enter_moves schedYield_moves hexec
    exact .kept ((hon i).trans hk.sameTable)
  | trap i inp tf =>
    have hcs : ¬ tf.FromUser → tf.cs = gdKt := fun hu =>
      hen.elim (fun hh => absurd hh.2 hu) fun hh => hh.2
    obtain ⟨k', hk, rfl⟩ := enter_moves (trap_moves inp tf hcs) hexec
    exact (hk.tableMove (h.guarded i)).before (hon i)
  | store i va b =>
    obtain ⟨k', hk, rfl⟩ := store_moves hexec
    exact .kept hk.sameTable

/-- The invariant of the machine with the identifiers it has given out. -/
structure EnvInv (s : Machine × (ℕ → List Word)) : Prop where
  cpus : CpuInv s.1
  free : FreeOk s.1.kern
  ids : ∀ e, IdsOk e (s.1.kern.envs e) (s.2 e)

theorem EnvInv.start {s : Machine × (ℕ → List Word)} (h : (josIds cfg).init s) :
    EnvInv s := by
  obtain ⟨hstart, hnil⟩ := h
  refine ⟨CpuInv.start hstart, ?_, fun e => ?_⟩
  · obtain ⟨k0, -, hm⟩ := hstart
    obtain ⟨⟨l, hl, hmem⟩, -, -, -, -, hst⟩ := envInit_spec k0
    rw [hm]
    exact ⟨⟨l, hl, fun e => by rw [hmem e]; exact (and_iff_left (hst e)).symm⟩, fun e _ => hst e⟩
  · obtain ⟨k0, -, hm⟩ := hstart
    obtain ⟨o, ho⟩ := envInit_fields k0 e
    rw [hnil e, hm]
    rw [ho]
    exact ⟨rfl, rfl, fun hst => absurd rfl hst, fun hne => absurd rfl hne⟩

theorem EnvInv.step {s s' : Machine × (ℕ → List Word)} (h : EnvInv s)
    (hok : a.StatusOk s.1) (hstep : (josIds cfg).step s a s') : EnvInv s' := by
  obtain ⟨hs, hist⟩ := hstep
  have hm := h.cpus.tableMove hs
  refine ⟨(h.cpus.step hok hs).1, h.free.move hm, fun e => ?_⟩
  rw [hist e]
  exact (h.ids e).move h.free hm

/-- **The table of environments.**  In every run whose calls set a status only where
they may, the free list has exactly the free slots, identifiers are positive, name
their slot and recur after `2^19 - 1` times, live environments have different ones,
and `envid2env` finds exactly those. -/
theorem env_table_ok (cfg : BootConfig) (s : Machine × (ℕ → List Word))
    (h : (josIds cfg).Reach (fun s a => a.StatusOk s.1) s) : EnvTableOk s.1.kern s.2 := by
  have hinv := h.invariant (fun _ hs => EnvInv.start hs) fun _ _ _ hs hok hstep => hs.step hok hstep
  exact hinv.free.table hinv.ids

/-- The first program runs: its identifier finds it. -/
theorem env_table_ok_solo : ∃ s, (josIds smallPc).Reach (fun s a => a.StatusOk s.1) s ∧
    (s.1.kern.envs 0).envStatus = .running ∧ (s.2 0).getLast? = some (s.1.kern.envs 0).envId ∧
    EnvTableOk s.1.kern s.2 := by
  obtain ⟨k0, m, pp, hquiet, hsolo, -⟩ := exists_solo smallPc 0 rfl (by decide)
  obtain ⟨H, hreach⟩ : ∃ H, (josIds smallPc).Reach (fun s a => a.StatusOk s.1) (m, H) :=
    hquiet.recorded fun _ _ _ h => h.statusOk
  have hok := env_table_ok smallPc (m, H) hreach
  exact ⟨(m, H), hreach, hsolo.status, hok.live 0 (by rw [hsolo.status]; nofun), hok⟩

/-- A processor executes the environment in slot `a`, which has been freed, and the
environment makes itself not runnable. -/
theorem Family.setOwn {k0 : Pmap} {a : ℕ}
    (h : Family cfg k0 n a .free id m) (hat : m.At j .user (some a)) (inp : Inputs) :
    ∃ m', (jos cfg).step m (.trap j inp (callTf 8#32 0#32 4#32 0#32 0#32 0#32)) m' ∧
      m'.kern.envFreeList = some a ∧ (m'.kern.envs a).envStatus = .notRunnable := by
  set tf := callTf 8#32 0#32 4#32 0#32 0#32 0#32 with htf
  have hu : tf.FromUser := callTf_fromUser ..
  set k := (m.on j).saveTf a tf with hk
  set k₂ := k.setEnv a fun v => { v with envStatus := .notRunnable } with hk2
  set k3 := k₂.setEnv a fun v => v.withRet 0 with hk3
  have hself : (k3.envs a).envStatus = .notRunnable := by
    rw [setEnv_envs_self, setEnv_envs_self]
    rfl
  have hother : ∀ e, e ≠ a → k3.envs e = m.kern.envs e := fun e he => by
    rw [setEnv_envs_of_ne _ he, setEnv_envs_of_ne _ he, hk, Kern.saveTf,
      setEnv_envs_of_ne _ he]
    rfl
  have hcall : runCall inp tf.call k = .ok 0 k₂ := by
    show sysEnvSetStatus 0#32 4#32 k = _
    rw [sysEnvSetStatus, show statusArg 4#32 = some .notRunnable from rfl]
    simp only
    rw [bind_ok (envid2env_self hat.2 true)]
    rfl
  have hdisp : trapDispatch inp tf (some a) k = .ok () k3 := by
    rw [trapDispatch, if_neg (by decide), if_neg (by decide),
      if_pos (show tf.trapno.toNat = tSyscall from rfl), bind_ok hcall]
    rfl
  have htrap : trap inp tf (m.on j) = .leave { k3 with curenv := none } := by
    have hcur : k3.curenv = some a := hat.2
    rw [trap_user tf hu hat.2 (h.not_dying (by decide) j), bind_ok hdisp, trapReturn,
      read_bind]
    simp only [Function.id_def, hcur, hself]
    exact h.halts hcur hself hother
  refine ⟨m.back j { k3 with curenv := none }, ⟨Or.inl ⟨hat.1, hu⟩, ?_⟩, h.list rfl, hself⟩
  simp only [Event.exec, Machine.enter, htrap]

/-- **A slot on the free list with another status.**  A parent frees a child that
another processor executes; the child, which the processor still executes, then sets
its own status. -/
theorem listed_in_use : ∃ s e, (josIds smallPc).Reach (fun _ _ => True) s ∧
    s.1.kern.envFreeList = some e ∧ (s.1.kern.envs e).envStatus = .notRunnable ∧
    ¬ EnvTableOk s.1.kern s.2 := by
  set inp : Inputs := ⟨0#32, 0, none⟩
  obtain ⟨k0, m, a, id, hreach, hfam, hat⟩ := exists_child 1 (by decide) inp
  obtain ⟨m1, h1⟩ := hfam.condemn inp
  obtain ⟨m2, h2⟩ := h1.family.destroy inp
  have hat2 : m2.At 1 .user (some a) := h2.cpus.at (by decide) (h1.cpus.at (by decide) hat)
  obtain ⟨m3, hs3, hlist, hst⟩ := h2.family.setOwn hat2 inp
  have hr := ((hreach.step trivial h1.step).step trivial h2.step).step trivial hs3
  obtain ⟨H, hH⟩ : ∃ H, (josIds smallPc).Reach (fun _ _ => True) (m3, H) :=
    hr.recorded fun _ _ _ _ => trivial
  refine ⟨(m3, H), a, hH, hlist, hst, fun hok => ?_⟩
  obtain ⟨l, hl, -, hmem⟩ := hok.list
  have hfree := ((hmem a).1 (hl.head_mem hlist)).2
  rw [hst] at hfree
  cases hfree

end OsLab.Jos
