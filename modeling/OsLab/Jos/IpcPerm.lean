import OsLab.Jos.Ipc

/-!
# The permission that `ipc_recv` reports: `lib/ipc.c`

`ipc_recv` reports in `*perm_store` what it finds in `env_ipc_perm`, and the file
server takes a request only if that has `PTE_P`.  The kernel writes
`env_ipc_perm` when a message maps a page, and at no other time: not for a message
without a page, and not in `env_alloc`.

* `josPost` is the machine with the history of every slot, in which each message
  is noted with the page it mapped.
* `SlotNote` says what a step does to the two fields involved, in every run; from
  it, `PostInv` says that `env_ipc_perm` is the permission of the last page that a
  message to the slot has mapped.
* `perm_store_right` says for every completed receive when the report is right.
* `perm_store_stale` is a run in which it is not: a message without a page is
  reported with the permission of the message before it.
-/

namespace OsLab.Jos

open Exec Function

/-! ## The library -/

/-- The address that `ipc_recv(_, pg, _)` passes to `sys_ipc_recv`. -/
def ipcRecvVa (pg : Word) : Word := if pg = 0#32 then 0xFFFFFFFF#32 else pg

/-- What `ipc_recv` stores through its two pointers, and what it returns. -/
structure IpcResult where
  fromEnv : Word
  perm : Word
  value : Word

/-- The rest of `ipc_recv`, once `sys_ipc_recv` has returned `r` and the `struct Env`
of the caller is `v`. -/
def ipcRecv (r : Word) (v : Env) : IpcResult :=
  if r.toInt < 0 then ⟨0#32, 0#32, r⟩ else ⟨v.envIpcFrom, v.envIpcPerm, v.envIpcValue⟩

/-- The test of the file server: `perm & PTE_P`. -/
def ServeHandles (perm : Word) : Prop := perm &&& pteP ≠ 0#32

instance (perm : Word) : Decidable (ServeHandles perm) := inferInstanceAs (Decidable (_ ≠ _))

/-! ## Histories with pages -/

/-- An act, and for a message the address and the permission of the page that it
mapped, if it mapped one. -/
abbrev Noted := Act × Option (Word × Word)

/-- The page that a call, if it sends a message to the environment `v`, maps for it. -/
def sentPage (v : Env) : Call → Option (Word × Word)
  | .ipcTrySend _ _ srcva perm =>
    if srcva < utop ∧ v.envIpcDstva < utop then some (v.envIpcDstva, perm) else none
  | _ => none

/-- The page that a message to slot `e` maps, for the event that sends it. -/
def pageOf (m : Machine) (e : ℕ) : Event → Option (Word × Word)
  | .trap _ _ tf => sentPage (m.kern.envs e) tf.call
  | _ => none

/-- An act of the event `a` on slot `e`, with its note. -/
def note (m : Machine) (a : Event) (e : ℕ) : Act → Noted
  | .sent sender value => (.sent sender value, pageOf m e a)
  | x => (x, none)

/-- What a step of the machine means for slot `e`, with the notes. -/
def notedActs (m : Machine) (a : Event) (m' : Machine) (e : ℕ) : List Noted :=
  (acts m a m' e).map (note m a e)

/-- The machine with the noted history of every slot. -/
def josPost (cfg : BootConfig) : System (Machine × (ℕ → List Noted)) Event :=
  (jos cfg).recording notedActs

/-- What `env_ipc_perm` is after a message that maps `page`. -/
def permAfter (page : Option (Word × Word)) (perm : Word) : Word :=
  match page with
  | some (_, perm') => perm'
  | none => perm

/-- The permission of the last page that a message has mapped, or 0. -/
def lastPerm (l : List Noted) : Word := l.foldl (fun perm x => permAfter x.2 perm) 0#32

/-- **The report is right**: it is non-zero exactly if the message mapped a page at
`pg`, it is then the permission of that page, and the file server handles the
request only if there is such a page. -/
structure PermRight (pg : Word) (res : IpcResult) (page : Option (Word × Word)) : Prop where
  mapped : res.perm ≠ 0#32 ↔ ∃ perm, page = some (pg, perm)
  perm_eq : ∀ perm, page = some (pg, perm) → res.perm = perm
  serves : ServeHandles res.perm → ∃ perm, page = some (pg, perm)

theorem lastPerm_append (l : List Noted) (x : Noted) :
    lastPerm (l ++ [x]) = permAfter x.2 (lastPerm l) := by
  simp only [lastPerm, List.foldl_append, List.foldl_cons, List.foldl_nil]

theorem lastPerm_append_none {l l' : List Noted} (h : ∀ x ∈ l', x.2 = none) :
    lastPerm (l ++ l') = lastPerm l := by
  induction l' generalizing l with
  | nil => rw [List.append_nil]
  | cons x l' ih =>
    rw [List.append_cons, ih fun y hy => h y (List.mem_cons_of_mem _ hy), lastPerm_append,
      h x (List.mem_cons_self ..), permAfter]

theorem sentPage_dstva {v : Env} {call : Call} {va perm : Word}
    (h : sentPage v call = some (va, perm)) : va = v.envIpcDstva ∧ va < utop := by
  cases call with
  | ipcTrySend envid value srcva p =>
    rw [sentPage] at h
    split at h
    · rename_i hlt
      obtain rfl : v.envIpcDstva = va := congrArg Prod.fst (Option.some.inj h)
      exact ⟨rfl, hlt.2⟩
    · cases h
  | _ => cases h

/-! ## What a step does to the two fields -/

/-- `env_ipc_perm` and `env_ipc_dstva` are the same. -/
structure SameNotes (v v' : Env) : Prop where
  perm : v'.envIpcPerm = v.envIpcPerm
  dstva : v'.envIpcDstva = v.envIpcDstva

theorem SameNotes.refl (v : Env) : SameNotes v v := ⟨rfl, rfl⟩

theorem SameNotes.trans {v v' v'' : Env} (h : SameNotes v v') (h' : SameNotes v' v'') :
    SameNotes v v'' :=
  ⟨h'.1.trans h.1, h'.2.trans h.2⟩

theorem SameNotes.sentPage {v v' : Env} (h : SameNotes v v') (call : Call) :
    sentPage v' call = sentPage v call := by
  cases call <;> simp only [Jos.sentPage, h.dstva]

/-- What can happen to the two fields of a slot, by what it means for the slot.  The
message, if there is one, maps `page`. -/
inductive SlotNote (page : Option (Word × Word)) (v : Env) : List Act → Env → Prop
  | same {v' : Env} (h : SameNotes v v') : SlotNote page v [] v'
  | blocked {v' : Env} {tf : Trapframe} (hperm : v'.envIpcPerm = v.envIpcPerm)
      (hcall : tf.call = .ipcRecv v'.envIpcDstva) : SlotNote page v [.blocked tf] v'
  | sent {v' : Env} {sender value : Word} (hdst : v'.envIpcDstva = v.envIpcDstva)
      (hperm : v'.envIpcPerm = permAfter page v.envIpcPerm) : SlotNote page v [.sent sender value] v'

section Kernel

variable {k k' k₁ k₂ : Kern} {c e : ℕ} {call : Call} {r : ℤ} {tf : Trapframe} {v v₁ v' : Env}
  {l : List Act} {page : Option (Word × Word)} {inp : Inputs}

theorem SlotNote.before (h : SlotNote page v₁ l v') (hv : SameNotes v v₁) : SlotNote page v l v' := by
  cases h with
  | same h => exact .same (hv.trans h)
  | blocked hperm hcall => exact .blocked (hperm.trans hv.perm) hcall
  | sent hdst hperm => exact .sent (hdst.trans hv.dstva) (by rw [hperm, hv.perm])

theorem SlotNote.after (h : SlotNote page v l v₁) (hv : SameNotes v₁ v') : SlotNote page v l v' := by
  cases h with
  | same h => exact .same (h.trans hv)
  | blocked hperm hcall => exact .blocked (hv.perm.trans hperm) (by rw [hv.dstva]; exact hcall)
  | sent hdst hperm => exact .sent (hv.dstva.trans hdst) (hv.perm.trans hperm)

theorem setEnv_sameNotes {f : Env → Env} {e' : ℕ} (hf : ∀ v, SameNotes v (f v)) :
    SameNotes (k.envs e) ((k.setEnv e' f).envs e) := by
  by_cases he : e = e'
  · subst he
    rw [setEnv_envs_self]
    exact hf _
  · rw [setEnv_envs_of_ne _ he]
    exact .refl _

theorem Leaves.sameNotes (h : Leaves k k') (e : ℕ) : SameNotes (k.envs e) (k'.envs e) := by
  cases h with
  | halt => exact .refl _
  | run j hj =>
    by_cases hej : e = j
    · subst hej
      rw [ran_envs_self]
      exact ⟨rfl, rfl⟩
    · rw [ran_envs_of_ne _ hej, descheduled_envs]
      split
      · exact ⟨rfl, rfl⟩
      · exact .refl _

theorem freedEnv_sameNotes (k : Kern) (c e : ℕ) : SameNotes (k.envs e) ((freedEnv k c).envs e) := by
  by_cases hec : e = c
  · subst hec
    rw [freedEnv_envs_self]
    exact ⟨rfl, rfl⟩
  · rw [freedEnv_envs_of_ne k hec]
    exact .refl _

theorem Killed.sameNotes (h : Killed k c k') (e : ℕ) : SameNotes (k.envs e) (k'.envs e) := by
  obtain ⟨-, k₁, ⟨p, rfl⟩, hl⟩ := h
  exact (freedEnv_sameNotes k c e).trans (hl.sameNotes e)

theorem saveTf_sameNotes (k : Kern) (c : ℕ) (tf : Trapframe) (e : ℕ) :
    SameNotes (k.envs e) ((k.saveTf c tf).envs e) :=
  setEnv_sameNotes fun _ => ⟨rfl, rfl⟩

theorem noted_self (k : Kern) (e : ℕ) (envid value srcva perm : Word) :
    ((noted k e srcva perm).envs e).envIpcPerm =
      permAfter (sentPage (k.envs e) (.ipcTrySend envid value srcva perm)) (k.envs e).envIpcPerm ∧
    ((noted k e srcva perm).envs e).envIpcDstva = (k.envs e).envIpcDstva := by
  rw [noted, sentPage]
  split
  · rw [setEnv_envs_self]
    exact ⟨rfl, rfl⟩
  · exact ⟨rfl, rfl⟩

/-- **A system call that returns** writes the fields only if it sends a message. -/
theorem runCall_note (tf : Trapframe) (c : ℕ) (hrun : runCall inp call k = .ok r k₂)
    (h : CallDone k call r k₂) (e : ℕ) : SlotNote (sentPage (k.envs e) call) (k.envs e) (callActs tf c k e call (.ok r k₂))
      (k₂.envs e) := by
  cases h with
  | refused hr hk =>
    obtain ⟨p, rfl⟩ := hk
    rw [callActs_refused hr]
    exact .same (.refl _)
  | quiet hq hk =>
    obtain ⟨p, rfl⟩ := hk
    rw [callActs_quiet hq]
    exact .same (.refl _)
  | @destroyed envid e' _ _ hk =>
    cases hk with
    | dying => exact .same (setEnv_sameNotes fun _ => ⟨rfl, rfl⟩)
    | freed _ _ hk =>
      obtain ⟨p, rfl⟩ := hk
      exact .same (freedEnv_sameNotes k e' e)
  | @forked c' e' d p =>
    -- `env_alloc` leaves both fields as the last environment of the slot had them
    refine .same ?_
    by_cases hee : e = e'
    · subst hee
      rw [Jos.forked]
      constructor <;> simp [afterAlloc, setEnv_envs_self]
    · show SameNotes _ ((update (update k.envs e' _) e' _) e)
      rw [update_of_ne hee, update_of_ne hee]
      exact .refl _
  | status | upcall => exact .same (setEnv_sameNotes fun _ => ⟨rfl, rfl⟩)
  | @sent envid value srcva perm =>
    have hmoves := sysIpcTrySend_moves (k := k) inp envid value srcva perm
    rw [wp, show sysIpcTrySend inp envid value srcva perm k = _ from hrun] at hmoves
    obtain ⟨h0, -⟩ | ⟨-, rcv, c', k₁, hn, hc', hrec, ⟨p, rfl⟩, heq⟩ := hmoves
    · exact absurd rfl h0
    rw [callActs_sent hn, heq]
    by_cases hee : e = rcv
    · subst hee
      rw [if_pos rfl, delivered, setEnv_envs_self]
      obtain ⟨hperm, hdst⟩ := noted_self k e envid value srcva perm
      exact .sent hdst hperm
    · rw [if_neg hee, delivered, setEnv_envs_of_ne _ hee]
      refine .same ?_
      unfold noted
      split
      · rw [setEnv_envs_of_ne _ hee]
        exact .refl _
      · exact .refl _

/-- **A system call that does not return** writes `env_ipc_dstva` if it blocks. -/
theorem CallLeft.note (h : CallLeft k call k') (hcall : tf.call = call) (hc : k.curenv = some c)
    (e : ℕ) : SlotNote page (k.envs e) (callActs tf c k e call (.leave k')) (k'.envs e) := by
  cases h with
  | yield hk | killed _ hk => exact .same (hk.sameNotes e)
  | faulted h1 hk =>
    obtain ⟨p, rfl⟩ := h1
    exact .same (hk.sameNotes e)
  | @recv dstva c' _ hc' _ hk =>
    obtain rfl : c = c' := Option.mem_unique hc hc'
    have hl := hk.sameNotes e
    rw [callActs]
    by_cases hec : e = c
    · subst hec
      rw [receiving, setEnv_envs_self] at hl
      rw [if_pos rfl]
      exact .blocked hl.perm (by rw [hl.dstva, hcall])
    · rw [receiving, setEnv_envs_of_ne _ hec] at hl
      rw [if_neg hec]
      exact .same hl

/-- **What a trap does to the two fields of a slot.** -/
theorem TrapEnds.note (h : TrapEnds inp tf k k') (hidle : ¬ tf.FromUser → k.curenv = none)
    (e : ℕ) : SlotNote (sentPage (k.envs e) tf.call) (k.envs e) (trapActs inp tf k e) (k'.envs e) := by
  cases h with
  | @zombie c _ _ hst hk =>
    rw [trapActs_dying hk.1 hst]
    exact .same (hk.sameNotes e)
  | @returned c r k₂ _ _ hc hst hno hrun hcall hk =>
    have hsave := saveTf_sameNotes k c tf e
    have hnote := runCall_note tf c hrun hcall e
    rw [hsave.sentPage] at hnote
    rw [trapActs_syscall hc hst hno, hrun]
    refine (hnote.before hsave).after ?_
    have hret : SameNotes (k₂.envs e) ((k₂.setEnv c fun v => v.withRet r).envs e) :=
      setEnv_sameNotes fun _ => ⟨rfl, rfl⟩
    exact hret.trans (hk.1.sameNotes e)
  | @left c _ _ hc hst hno hrun hcall =>
    rw [trapActs_syscall hc hst hno, hrun]
    exact (hcall.note rfl (show (k.saveTf c tf).curenv = some c from hc) e).before
      (saveTf_sameNotes k c tf e)
  | @upcall c tf' k₂ _ hc hst hno hk =>
    obtain ⟨p, rfl⟩ := hk
    rw [trapActs_other hno]
    refine .same ((saveTf_sameNotes k c tf' e).trans ?_)
    have hran : SameNotes (({ k.saveTf c tf' with pm := p } : Kern).envs e)
        ((ran { k.saveTf c tf' with pm := p } c).envs e) := by
      by_cases hec : e = c
      · subst hec
        rw [ran_envs_self]
        exact ⟨rfl, rfl⟩
      · rw [ran_envs_of_ne _ hec, descheduled_envs]
        split
        · exact ⟨rfl, rfl⟩
        · exact .refl _
    exact hran
  | @killed c k₁ _ _ _ hno h1 hk =>
    obtain ⟨p, rfl⟩ := h1
    rw [trapActs_other hno]
    exact .same ((saveTf_sameNotes k c tf e).trans (hk.sameNotes e))
  | @plain c _ _ _ _ hno hk =>
    rw [trapActs_other hno]
    exact .same ((saveTf_sameNotes k c tf e).trans (hk.sameNotes e))
  | @idleReturned r k₂ _ hu _ hcall hk =>
    rw [trapActs_none (hidle hu), ← hcall.idle (hidle hu) e]
    exact .same (hk.sameNotes e)
  | @idleLeft _ hu _ hcall =>
    rw [trapActs_none (hidle hu)]
    generalize tf.call = call at hcall
    cases hcall with
    | yield hk | killed _ hk => exact .same (hk.sameNotes e)
    | faulted h1 hk =>
      obtain ⟨p, rfl⟩ := h1
      exact .same (hk.sameNotes e)
    | recv hc _ _ =>
      rw [hidle hu] at hc
      cases hc
  | idle _ hno hk =>
    rw [trapActs_other hno]
    exact .same (hk.sameNotes e)

end Kernel

/-! ## Whole runs -/

section Runs

variable {cfg : BootConfig} {s s' : Machine × (ℕ → List Noted)} {a : Event} {m m' : Machine}
  {v v' : Env} {l : List Noted} {x : Noted} {page : Option (Word × Word)} {pg : Word}

/-- A processor that is not in user mode has no current environment. -/
def IdleCpus (m : Machine) : Prop := ∀ i, m.mode i ≠ .user → m.cpuEnv i = none

theorem IdleCpus.back (h : IdleCpus m) (i : ℕ) (k : Kern) : IdleCpus (m.back i k) := by
  intro j hm
  by_cases hj : j = i
  · subst hj
    simp only [Machine.back, update_self] at hm ⊢
    by_contra hcur
    rw [if_neg hcur] at hm
    exact hm rfl
  · simp only [Machine.back, update_of_ne hj] at hm ⊢
    exact h j hm

/-- What an event does to the two fields of a slot. -/
theorem IdleCpus.note (h : IdleCpus m) (hstep : (jos cfg).step m a m') : IdleCpus m' ∧
    ∀ e, ∃ l, acts m a m' e = l ++ statusActs (m.kern.envs e) (m'.kern.envs e) ∧
      SlotNote (pageOf m e a) (m.kern.envs e) l (m'.kern.envs e) := by
  obtain ⟨hen, hexec⟩ := hstep
  cases a with
  | create binary type =>
    obtain ⟨e', k', hk, rfl⟩ := create_moves hexec
    refine ⟨h, fun e => ⟨_, rfl, .same ?_⟩⟩
    by_cases hee : e = e'
    · subst hee
      obtain ⟨d, p, tf, type, hv⟩ := hk.self
      rw [hv]
      constructor <;> simp [afterAlloc, setEnv_envs_self]
    · rw [hk.others e hee]
      exact .refl _
  | start i =>
    obtain ⟨k', hk, rfl⟩ := enter_moves schedYield_moves hexec
    exact ⟨h.back i k', fun e => ⟨_, rfl, .same (hk.sameNotes e)⟩⟩
  | trap i inp tf =>
    have hcs : ¬ tf.FromUser → tf.cs = gdKt := fun hu =>
      hen.elim (fun hh => absurd hh.2 hu) fun hh => hh.2
    obtain ⟨k', hk, rfl⟩ := enter_moves (trap_moves inp tf hcs) hexec
    refine ⟨h.back i k', fun e => ⟨_, rfl, hk.note (fun hu => h i fun hm => ?_) e⟩⟩
    rcases hen with ⟨-, hu'⟩ | ⟨hm', -⟩
    · exact hu hu'
    · rw [hm] at hm'
      cases hm'
  | store i va b =>
    obtain ⟨k', ⟨p, rfl⟩, rfl⟩ := store_moves hexec
    exact ⟨h, fun e => ⟨_, rfl, .same (.refl _)⟩⟩

/-- **The fields of a slot with the noted history `l`.** -/
structure Posted (v : Env) (l : List Noted) : Prop where
  /-- `env_ipc_perm` is the permission of the last page that was mapped. -/
  perm : v.envIpcPerm = lastPerm l
  /-- `env_ipc_dstva` is the argument of the call that blocks the environment. -/
  waits : ∀ l₀ tf p, l = l₀ ++ [(.blocked tf, p)] → tf.call = .ipcRecv v.envIpcDstva
  /-- A page is mapped where the receiver wants it. -/
  pages : ∀ l₁ tf p sender value page l₂,
    l = l₁ ++ (.blocked tf, p) :: (.sent sender value, page) :: l₂ →
    ∀ va perm, page = some (va, perm) → tf.call = .ipcRecv va ∧ va < utop

/-- One more act at the end of a history. -/
theorem Posted.snoc (h : Posted v l) (hperm : v'.envIpcPerm = permAfter x.2 v.envIpcPerm)
    (hblock : ∀ tf, x.1 = .blocked tf → tf.call = .ipcRecv v'.envIpcDstva)
    (hsent : ∀ sender value va perm, x = (.sent sender value, some (va, perm)) →
      va = v.envIpcDstva ∧ va < utop) : Posted v' (l ++ [x]) := by
  refine ⟨?_, ?_, ?_⟩
  · rw [hperm, lastPerm_append, h.perm]
  · intro l0 tf p heq
    obtain ⟨-, hx⟩ := List.append_inj' heq rfl
    exact hblock tf (by rw [List.head_eq_of_cons_eq hx])
  · rintro l1 tf p sender value page l2 heq va perm rfl
    rcases List.eq_nil_or_concat' l2 with rfl | ⟨l2, y, rfl⟩
    · -- the new act is the message, and the receiver still waits where it said it would
      obtain ⟨hl, hx⟩ : l = l1 ++ [(.blocked tf, p)] ∧ [x] = [(.sent sender value, some (va, perm))] :=
        List.append_inj' (by rw [heq, List.append_assoc]; rfl) rfl
      obtain ⟨rfl, hlt⟩ := hsent _ _ _ _ (List.head_eq_of_cons_eq hx)
      exact ⟨h.waits l1 tf p hl, hlt⟩
    · obtain ⟨hl, -⟩ : l = l1 ++ (.blocked tf, p) :: (.sent sender value, some (va, perm)) :: l2 ∧
          [x] = [y] := List.append_inj' (by rw [heq, List.append_assoc]; rfl) rfl
      exact h.pages l1 tf p sender value _ l2 hl va perm rfl

theorem Posted.same (h : Posted v l) (hv : SameNotes v v') : Posted v' l := by
  refine ⟨hv.perm.trans h.perm, fun l0 tf p hl => ?_, h.pages⟩
  rw [hv.dstva]
  exact h.waits l0 tf p hl

/-- The acts that `env_status` shows. -/
theorem Posted.quiet (h : Posted v l) (e : ℕ) (acts : List Act)
    (hq : ∀ x ∈ acts, (∀ tf, x ≠ .blocked tf) ∧ ∀ sender value, x ≠ .sent sender value) :
    Posted v (l ++ acts.map (note m a e)) := by
  induction acts generalizing l with
  | nil => rwa [List.map_nil, List.append_nil]
  | cons x acts ih =>
    obtain ⟨hb, hs⟩ := hq x (List.mem_cons_self ..)
    have hnote : note m a e x = (x, none) := by
      cases x with
      | sent sender value => exact absurd rfl (hs sender value)
      | _ => rfl
    rw [List.map_cons, List.append_cons, hnote]
    refine ih (h.snoc rfl (fun tf htf => absurd htf (hb tf)) ?_) fun y hy =>
      hq y (List.mem_cons_of_mem _ hy)
    intro sender value va perm hx
    cases hx

theorem statusActs_quiet :
    ∀ x ∈ statusActs v v', (∀ tf, x ≠ .blocked tf) ∧ ∀ sender value, x ≠ .sent sender value := by
  intro x hx
  simp only [statusActs, List.mem_append, List.mem_ite_nil_right, List.mem_singleton] at hx
  rcases hx with (⟨-, rfl⟩ | ⟨-, rfl⟩) | ⟨-, rfl⟩ <;> simp

/-- The invariant of every run. -/
structure PostInv (s : Machine × (ℕ → List Noted)) : Prop where
  idle : IdleCpus s.1
  posted : ∀ e, Posted (s.1.kern.envs e) (s.2 e)

theorem PostInv.step (h : PostInv s) (hstep : (josPost cfg).step s a s') : PostInv s' := by
  obtain ⟨hidle, hnote⟩ := h.idle.note hstep.1
  refine ⟨hidle, fun e => ?_⟩
  obtain ⟨l, hacts, hslot⟩ := hnote e
  rw [hstep.2 e, notedActs, hacts, List.map_append, ← List.append_assoc]
  refine Posted.quiet ?_ e _ statusActs_quiet
  have hp := h.posted e
  cases hslot with
  | same hv =>
    rw [List.map_nil, List.append_nil]
    exact hp.same hv
  | blocked hperm hcall =>
    refine hp.snoc hperm (fun tf htf => ?_) fun _ _ _ _ hx => by cases hx
    cases htf
    exact hcall
  | sent hdst hperm =>
    refine hp.snoc hperm (fun tf htf => by cases htf) fun sender value va perm hx => ?_
    have hpage : pageOf s.1 e a = some (va, perm) := congrArg Prod.snd hx
    cases a with
    | trap i inp tf => exact sentPage_dstva hpage
    | _ => cases hpage

theorem PostInv.start (h : (josPost cfg).init s) : PostInv s := by
  obtain ⟨⟨k₀, -, hs⟩, hl⟩ := h
  refine ⟨?_, fun e => ⟨?_, ?_, ?_⟩⟩
  · rw [hs]
    exact fun _ _ => rfl
  · obtain ⟨o, ho⟩ := envInit_fields k₀ e
    rw [hl e, hs, ho]
    rfl
  · intro l0 tf p heq
    rw [hl e] at heq
    simp at heq
  · intro l1 tf p sender value page l2 heq
    rw [hl e] at heq
    simp at heq

theorem PostInv.reach {ok : Machine × (ℕ → List Noted) → Event → Prop}
    (h : (josPost cfg).Reach ok s) : PostInv s :=
  h.invariant (fun _ hs => PostInv.start hs) fun _ _ _ hs _ hstep => hs.step hstep

/-- The condition for the report of a message that maps `page`, after the history
`l`: a page comes with a permission other than 0, and without a page no page has
been mapped before. -/
def ReportOk (l : List Noted) : Option (Word × Word) → Prop
  | some (_, perm) => perm ≠ 0#32
  | none => lastPerm l = 0#32

theorem ipcRecvVa_of_lt (h : ipcRecvVa pg < utop) : ipcRecvVa pg = pg := by
  unfold ipcRecvVa at h ⊢
  split at h
  · exact absurd h (by decide)
  · rename_i hpg
    rw [if_neg hpg]

/-- The report, from what `env_ipc_perm` is. -/
theorem permRight_iff {res : IpcResult} (hres : res.perm = permAfter page (lastPerm l))
    (hpage : ∀ va perm, page = some (va, perm) → va = pg) :
    PermRight pg res page ↔ ReportOk l page := by
  cases page with
  | none =>
    constructor
    · intro h
      by_contra hne
      obtain ⟨perm, hp⟩ := h.mapped.1 (by rw [hres]; exact hne)
      cases hp
    · intro h
      have h0 : res.perm = 0#32 := hres.trans h
      refine ⟨⟨fun hne => absurd h0 hne, fun ⟨_, hp⟩ => (nomatch hp)⟩, fun _ hp => (nomatch hp), fun hs => ?_⟩
      rw [h0] at hs
      exact absurd (by decide) hs
  | some x =>
    obtain ⟨va, perm⟩ := x
    obtain rfl := hpage va perm rfl
    rw [permAfter] at hres
    constructor
    · intro h
      rw [← hres]
      exact h.mapped.2 ⟨perm, rfl⟩
    · intro h
      refine ⟨⟨fun _ => ⟨perm, rfl⟩, fun _ => by rw [hres]; exact h⟩, fun q hq => ?_, fun _ => ⟨perm, rfl⟩⟩
      rw [hres]
      exact congrArg Prod.snd (Option.some.inj hq)

/-- **What `ipc_recv` reports.**  In every run, when `ipc_recv(_, pg, _)` has received
a message that mapped `page`, and `sys_ipc_recv` has returned without an error, the
report is right exactly if the page, if there is one, has a permission other than
0, and if there is none, no page has been mapped in the slot before. -/
theorem perm_store_right (cfg : BootConfig) (s : Machine × (ℕ → List Noted))
    (h : (josPost cfg).Reach (fun _ _ => True) s) (e : ℕ) (pg : Word) (tf tf' : Trapframe)
    (sender value : Word) (page : Option (Word × Word)) (l₁ l₂ : List Noted)
    (hl : s.2 e = l₁ ++ (.blocked tf, none) :: (.sent sender value, page) :: (.resumed tf', none) :: l₂)
    (hl₂ : ∀ x ∈ l₂, ∃ tf'', x = (.resumed tf'', none))
    (hpg : tf.call = .ipcRecv (ipcRecvVa pg)) (hret : 0 ≤ tf'.regs.eax.toInt) :
    PermRight pg (ipcRecv tf'.regs.eax (s.1.kern.envs e)) page ↔ ReportOk l₁ page := by
  have hp := (PostInv.reach h).posted e
  refine permRight_iff ?_ fun va perm hpage => ?_
  · rw [ipcRecv, if_neg (by omega)]
    -- nothing after the message has been noted with a page
    have hnone : ∀ x ∈ (.resumed tf', none) :: l₂, x.2 = none := by
      intro x hx
      rcases List.mem_cons.1 hx with rfl | hx
      · rfl
      · obtain ⟨tf'', rfl⟩ := hl₂ x hx
        rfl
    rw [hp.perm, hl, List.append_cons, List.append_cons, lastPerm_append_none hnone,
      lastPerm_append, lastPerm_append, permAfter]
  · obtain ⟨hcall, hlt⟩ := hp.pages l₁ tf none sender value page _ hl va perm hpage
    obtain rfl : ipcRecvVa pg = va := Call.ipcRecv.inj (hpg.symm.trans hcall)
    exact ipcRecvVa_of_lt hlt

end Runs

/-! ## A page, and then a message without one -/

section Tales

variable {k₀ : Pmap} {n b j : ℕ} {id : Word} {l : List Noted} {m m' : Machine} {a : Event}

/-- The machine is reached by a run with the noted history `l` for slot `e`. -/
def PostTale (m : Machine) (e : ℕ) (l : List Noted) : Prop :=
  ∃ H, (josPost smallPc).Reach (fun _ _ => True) (m, H) ∧ H e = l

theorem PostTale.step (h : PostTale m b l) (l' : List Act) (hstep : (jos smallPc).step m a m')
    (hacts : acts m a m' b = l') : PostTale m' b (l ++ l'.map (note m a b)) := by
  obtain ⟨H, hreach, rfl⟩ := h
  refine ⟨_, System.Reach.record (f := notedActs) hreach trivial hstep, ?_⟩
  rw [notedActs, hacts]

/-- The call `ipc_recv(_, pg, _)` of the child, as processor `j` takes it. -/
theorem PostTale.recv (inp : Inputs) (ht : PostTale m b l) (h : Family smallPc k₀ n b .running id m)
    (hj : j ≠ 0) (hat : m.At j .user (some b)) (va : Word)
    (hva : ¬ (va < utop ∧ va ≠ roundDown va)) : ∃ m', PostTale m' b (l ++ [(.blocked (recvAt va), none)]) ∧
      Family smallPc k₀ n b .notRunnable id m' ∧ (m'.kern.envs b).envIpcRecving = true ∧
      (m'.kern.envs b).envIpcDstva = va ∧ (m'.kern.envs b).envTf = recvAt va ∧
      m'.At j .halted none := by
  obtain ⟨m', hm', hb, hat', k', hcall⟩ := h.recv hj hat inp va hva
  refine ⟨m', ht.step _ hm'.step (h.acts_recv hm'.family hat hcall), hm'.family, ?_, ?_, ?_, hat'⟩ <;>
    rw [hb]

/-- Processor `j` runs the child again. -/
theorem PostTale.wake (inp : Inputs) (ht : PostTale m b l) (h : Family smallPc k₀ n b .runnable id m)
    (hj : j ≠ 0) (hat : m.At j .halted none) : ∃ m',
      PostTale m' b (l ++ [(.resumed (m.kern.envs b).envTf, none)]) ∧
      Family smallPc k₀ n b .running id m' ∧ m'.At j .user (some b) := by
  obtain ⟨m', hm', hb, hat'⟩ := h.wake hj hat inp
  have hacts : acts m (.trap j inp idleTf) m' b = [.resumed (m'.kern.envs b).envTf] :=
    h.acts_wake hm'.family hat
  rw [hb] at hacts
  exact ⟨m', ht.step _ hm'.step hacts, hm'.family, hat'⟩

/-- **A child receives a page.** -/
theorem exists_page_received (inp : Inputs) : ∃ k₀ m b id l sender,
    PostTale m b (l ++ [(.blocked (recvAt 0x1000#32), none),
      (.sent sender 7#32, some (0x1000#32, 7#32)),
      (.resumed (recvAt 0x1000#32).returnsZero, none)]) ∧
    Family smallPc k₀ 0 b .running id m ∧ m.At 1 .user (some b) := by
  obtain ⟨k₀, m, b, id, hreach, hfam, hat⟩ := exists_child 3 (by decide) inp
  obtain ⟨H, hH⟩ : ∃ H, (josPost smallPc).Reach (fun _ _ => True) (m, H) :=
    hreach.recorded fun _ _ _ _ => trivial
  have ht : PostTale m b (H b) := ⟨H, hH, rfl⟩
  obtain ⟨m1, ht1, hfam1, hrec1, hdst1, htf1, hat1⟩ :=
    ht.recv inp hfam (by decide) hat 0x1000#32 (by decide)
  have hva : ¬ BadVa 0x1000#32 := by decide
  obtain ⟨m2, pp, h2, hb2, hown⟩ := hfam1.alloc inp 0x1000#32 hva
  have ht2 := ht1.step [] h2.step (by
    rw [hfam1.acts, statusActs, hfam1.status, h2.family.status]
    rfl)
  have hlt : (m2.kern.envs b).envIpcDstva < utop := by
    rw [hb2, hdst1]
    decide
  obtain ⟨m3, h3, hb3, k₂, hsend⟩ := h2.family.sendPage (by decide) (by rw [hb2, hrec1]) hlt
    hva hown inp 7#32
  have ht3 := ht2.step _ h3.step (h2.family.acts_send h3.family hsend)
  obtain ⟨m4, ht4, hfam4, hat4⟩ := ht3.wake inp h3.family (by decide)
    (h3.cpus.at (by decide) (h2.cpus.at (by decide) hat1))
  refine ⟨k₀, m4, b, id, H b, (m2.kern.envs 0).envId, ?_, hfam4, hat4⟩
  have htf : (m3.kern.envs b).envTf = (recvAt 0x1000#32).returnsZero := by
    rw [hb3, hb2, Env.given, htf1]
    rfl
  have hpage : sentPage (m2.kern.envs b) (callTf 12#32 id 7#32 0x1000#32 7#32 0#32).call =
      some (0x1000#32, 7#32) := by
    show sentPage (m2.kern.envs b) (.ipcTrySend id 7#32 0x1000#32 7#32) = _
    rw [sentPage, if_pos ⟨by decide, hlt⟩, hb2, hdst1]
  rw [htf] at ht4
  simpa [note, pageOf, hpage] using ht4

end Tales

/-- A page is received, and the report is right. -/
theorem perm_store_right_page : ∃ s e l tf sender,
    (josPost smallPc).Reach (fun _ _ => True) s ∧
    s.2 e = l ++ [(.blocked tf, none), (.sent sender 7#32, some (0x1000#32, 7#32)),
      (.resumed tf.returnsZero, none)] ∧
    PermRight 0x1000#32 (ipcRecv 0#32 (s.1.kern.envs e)) (some (0x1000#32, 7#32)) := by
  obtain ⟨k₀, m, b, id, l, sender, ⟨H, hreach, hH⟩, -⟩ := exists_page_received ⟨0#32, 0, none⟩
  refine ⟨(m, H), b, l, recvAt 0x1000#32, sender, hreach, hH, ?_⟩
  exact (perm_store_right smallPc (m, H) hreach b 0x1000#32 (recvAt 0x1000#32)
    (recvAt 0x1000#32).returnsZero sender 7#32 (some (0x1000#32, 7#32)) l [] hH (by simp) rfl
    (by decide)).2 (by show (7#32 : Word) ≠ 0#32; decide)

/-- **A stale permission.**  The child receives a page and then a message without
one.  `ipc_recv` reports the permission of the page for both, and the file server
would handle the second as a request with a page. -/
theorem perm_store_stale : ∃ s e l tf sender,
    (josPost smallPc).Reach (fun _ _ => True) s ∧ tf.call = .ipcRecv (ipcRecvVa 0x1000#32) ∧
    s.2 e = l ++ [(.blocked tf, none), (.sent sender 8#32, none), (.resumed tf.returnsZero, none)] ∧
    (ipcRecv 0#32 (s.1.kern.envs e)).perm = 7#32 ∧ ServeHandles 7#32 ∧
    ¬ PermRight 0x1000#32 (ipcRecv 0#32 (s.1.kern.envs e)) none := by
  set inp : Inputs := ⟨0#32, 0, none⟩
  obtain ⟨k₀, m, b, id, l, sender, ht, hfam, hat⟩ := exists_page_received inp
  obtain ⟨m1, ht1, hfam1, hrec1, -, htf1, hat1⟩ :=
    ht.recv inp hfam (by decide) hat 0x1000#32 (by decide)
  obtain ⟨m2, h2, hb2, k₂, hsend⟩ := hfam1.send nofun hrec1 inp 8#32
  have ht2 := ht1.step _ h2.step (hfam1.acts_send h2.family hsend)
  obtain ⟨m3, ht3, -⟩ := ht2.wake inp h2.family (by decide) (h2.cpus.at (by decide) hat1)
  have htf : (m2.kern.envs b).envTf = (recvAt 0x1000#32).returnsZero := by
    rw [hb2, Env.given, htf1]
    rfl
  have hpage : sentPage (m1.kern.envs b) (callTf 12#32 id 8#32 utop 0#32 0#32).call = none := by
    show sentPage (m1.kern.envs b) (.ipcTrySend id 8#32 utop 0#32) = none
    rw [sentPage, if_neg fun h => absurd h.1 (by decide)]
  rw [htf, List.map_singleton, note, pageOf, hpage, List.append_assoc, List.append_assoc] at ht3
  obtain ⟨H, hreach, hH⟩ := ht3
  have hperm : (ipcRecv 0#32 (m3.kern.envs b)).perm = 7#32 := by
    show (m3.kern.envs b).envIpcPerm = _
    rw [((PostInv.reach hreach).posted b).perm]
    show lastPerm (H b) = _
    rw [hH, lastPerm_append_none (by simp), List.append_cons, List.append_cons,
      lastPerm_append_none (by simp), lastPerm_append, permAfter]
  refine ⟨(m3, H), b, _, recvAt 0x1000#32, (m1.kern.envs 0).envId, hreach, rfl, hH, hperm, by decide,
    fun hright => ?_⟩
  obtain ⟨perm, hp⟩ := hright.mapped.1 (by rw [hperm]; decide)
  cases hp

end OsLab.Jos
