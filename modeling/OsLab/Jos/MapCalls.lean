import OsLab.Jos.Accounts

/-!
# What the mapping calls install

`sys_page_alloc`, `sys_page_map` and `sys_ipc_try_send` take a word of permission
bits from the program and pass it to `page_insert`, which puts it into the page
table entry and into the directory entry as it is.

* `Installs` is what such a call should do to the page tables, and `MapsRight`
  what its outcome should be.
* `mapping_calls_right`: it is, as long as the word has no bits outside
  `PTE_SYSCALL` and, for a page that is sent, has `PTE_U` and `PTE_P`.
* The calls do not check that.  `alloc_redirects` is a program that asks for a
  page with the word `0xFFFFF007`: the call returns 0, and from then on the
  processor takes physical page `0xFFFFF` for a page table of the program.
-/

namespace OsLab.Jos

open Exec Spaces

/-- The permissions a program may ask for: flags of `PTE_SYSCALL`, among them
`PTE_U` and `PTE_P`. -/
def GoodPerm (perm : Word) : Prop := PermOk perm ∧ ¬ BadPerm perm

instance (perm : Word) : Decidable (GoodPerm perm) := inferInstanceAs (Decidable (_ ∧ _))

/-- The page tables of `k'` are those of `k` but for page `pp` at `va` in `e`, with
the permissions `perm`; if a page table is new, its page was unused. -/
structure Installs (k : Kern) (e : ℕ) (va : Word) (pp : ℕ) (perm : Word) (k' : Kern) : Prop where
  dirs : k'.dirs = k.dirs
  good : GoodPerm perm
  addr : pteAddr ((view k'.dirs k'.pm).pte (slot e va)) = page2pa pp
  flags : pteFlags ((view k'.dirs k'.pm).pte (slot e va)) = perm
  others : ∀ x, x ≠ slot e va → (view k'.dirs k'.pm).pte x = (view k.dirs k.pm).pte x
  tables : ∀ x, (view k'.dirs k'.pm).table x = (view k.dirs k.pm).table x ∨
    x = (e, pdx va) ∧ (view k.dirs k.pm).table x = none ∧
      ∃ q, (view k'.dirs k'.pm).table x = some q ∧ (view k.dirs k.pm).refs q = 0

/-- `PTE_W` is passed on only by who has it. -/
def WritableFrom (k : Kern) (e : ℕ) (va perm : Word) : Prop :=
  perm &&& pteW ≠ 0#32 → (view k.dirs k.pm).pte (slot e va) &&& pteW ≠ 0#32

/-- The call fails and changes nothing, if it returns. -/
def Refused (k : Kern) (out : Outcome Panic Kern ℤ) : Prop :=
  ∀ r k', out = .ok r k' → r < 0 ∧ k' = k

/-- The outcome a mapping call should have.  If it returns 0 it has installed the
page it just allocated, or the one it found at the source address; with
permissions no program may ask for it fails and changes nothing. -/
def MapsRight (k : Kern) (out : Outcome Panic Kern ℤ) : Call → Prop
  | .pageAlloc envid va perm =>
    (∀ k', out = .ok 0 k' → ∃ e pp, Names k envid true e ∧ (view k.dirs k.pm).refs pp = 0 ∧
      Installs k e va pp perm k') ∧
    (¬ GoodPerm perm → Refused k out ∧
      ((∃ e, Names k envid true e) → out = .ok (-eInval) k))
  | .pageMap srcenvid srcva dstenvid dstva perm =>
    (∀ k', out = .ok 0 k' → ∃ se de pp, Names k srcenvid true se ∧ Names k dstenvid true de ∧
      (view k.dirs k.pm).page (slot se srcva) = some pp ∧ WritableFrom k se srcva perm ∧
      Installs k de dstva pp perm k') ∧
    (¬ GoodPerm perm → Refused k out ∧
      ((∃ se d, Names k srcenvid true se ∧ k.dirs se = some d) →
        (∃ de, Names k dstenvid true de) → out = .ok (-eInval) k))
  | .ipcTrySend envid _ srcva perm =>
    srcva < utop →
    (∀ k', out = .ok 0 k' → ∃ rcv c pp, Names k envid false rcv ∧ k.curenv = some c ∧
      (view k.dirs k.pm).page (slot c srcva) = some pp ∧
      ((k.envs rcv).envIpcDstva < utop →
        WritableFrom k c srcva perm ∧ Installs k rcv (k.envs rcv).envIpcDstva pp perm k')) ∧
    (¬ GoodPerm perm → Refused k out)
  | _ => True

/-- What the calls rely on and do not check: no bits outside `PTE_SYSCALL`, and for
a page that is sent the two bits without which it is of no use. -/
def Call.AsksRight : Call → Prop
  | .pageAlloc _ _ perm => PermOk perm
  | .pageMap _ _ _ _ perm => PermOk perm
  | .ipcTrySend _ _ srcva perm => srcva < utop → GoodPerm perm
  | _ => True

variable {M : ℕ → Prop} {k₀ : Pmap} {k k' : Kern} {e pp : ℕ} {va perm : Word} {inp : Inputs} {m : Machine} {a : Event}

theorem GoodPerm.or_pteP (h : GoodPerm perm) : perm ||| pteP = perm := by
  have hbits : perm &&& (pteU ||| pteP) = pteU ||| pteP := not_not.1 h.2
  have hP : perm &&& pteP = pteP := by
    calc perm &&& pteP = perm &&& (pteU ||| pteP) &&& pteP := by
          rw [BitVec.and_assoc, show (pteU ||| pteP) &&& pteP = pteP by decide]
      _ = pteP := by rw [hbits]; decide
  rw [← hP]
  ext i hi
  simp only [BitVec.getElem_or, BitVec.getElem_and]
  cases perm[i] <;> rfl

/-- With good permissions, what `page_insert` does is right. -/
theorem Mapped.installs {p1 p2 : Pmap} (hm : Mapped M k.dirs p1 e pp va perm p2)
    (hv : view k.dirs p1 = view k.dirs k.pm) (hpp : pp < 2 ^ 20) (hg : GoodPerm perm)
    (hd : k'.dirs = k.dirs) (hp : k'.pm = p2) : Installs k e va pp perm k' := by
  have hlow := hg.1.lowPerm
  refine ⟨hd, hg, ?_, ?_, fun x hx => ?_, fun x => ?_⟩
  · rw [hd, hp, hm.pte_self, pteAddr_eq, pgnum_mkPte hpp hlow]
  · rw [hd, hp, hm.pte_self, pteFlags_mkPte hpp hlow, hg.or_pteP]
  · rw [hd, hp, hm.pte_other x hx, hv]
  · rw [hd, hp, ← hv]
    rcases hm.table x with heq | ⟨hx, hnone, q, hq, -, h0⟩
    · exact Or.inl heq
    · exact Or.inr ⟨hx, hnone, q, hq, h0⟩

/-! ## Calls that are refused -/

theorem sysPageAlloc_badPerm {envid : Word} (hn : Names k envid true e) (hbad : BadPerm perm) :
    sysPageAlloc envid va perm k = .ok (-eInval) k := by
  rw [sysPageAlloc, bind_ok (envid2env_of_names hn)]
  simp only [if_pos hbad, ite_self]
  rfl

/-- `sys_page_map` looks at the permissions only after it has found the page; either
way the error is the same. -/
theorem sysPageMap_badPerm {srcenvid srcva dstenvid dstva : Word} {se de d : ℕ}
    (h : KernInv M k₀ k) (hse : Names k srcenvid true se) (hde : Names k dstenvid true de)
    (hdir : k.dirs se = some d) (hbad : BadPerm perm) :
    sysPageMap srcenvid srcva dstenvid dstva perm k = .ok (-eInval) k := by
  rw [sysPageMap, bind_ok (envid2env_of_names hse)]
  simp only
  rw [bind_ok (envid2env_of_names hde)]
  simp only
  split
  · rfl
  rename_i hva
  push Not at hva
  rw [bind_ok (pgdirOf_some hdir)]
  cases hpg : (view k.dirs k.pm).page (slot se srcva) with
  | none =>
    rw [bind_ok (pmap_ok (pageLookup_none h.pages hdir (pdx_lt_nupde (BitVec.not_le.1 hva.1)) hpg))]
    rfl
  | some pp =>
    obtain ⟨q, -, -, hlook⟩ := pageLookup_some h.pages hdir hpg
    rw [bind_ok (pmap_ok hlook)]
    rfl

/-! ## Calls that ask for what they may have -/

theorem sysPageAlloc_right (envid va : Word) (h : KernInv M k₀ k)
    (hb : Bounded k.dirs k.pm) (hperm : PermOk perm) :
    MapsRight k (runCall inp (.pageAlloc envid va perm) k) (.pageAlloc envid va perm) := by
  show (∀ k', sysPageAlloc envid va perm k = _ → _) ∧ (_ → Refused k (sysPageAlloc envid va perm k) ∧
    (_ → sysPageAlloc envid va perm k = _))
  have hgood : ¬ BadPerm perm → GoodPerm perm := fun hbad => ⟨hperm, hbad⟩
  refine ⟨fun k' hk' => ?_, fun hng => ⟨fun r k' hk' => ?_, fun ⟨e, hn⟩ =>
    sysPageAlloc_badPerm hn (not_not.1 fun hbad => hng (hgood hbad))⟩⟩
  all_goals
    rcases sysPageAlloc_cases h hb envid va hperm.lowPerm with
      heq | ⟨r1, hr, heq⟩ | ⟨e, pp, p1, hn, -, -, hbad, hf, ⟨p2, heq, -⟩ | ⟨p2, heq, hmap⟩⟩
  all_goals rw [heq] at hk'; cases hk'
  · exact absurd hr (by decide)
  · exact ⟨e, pp, hn, hf.unused, hmap.installs hf.view_eq (h.pages.managed_lt hf.managed) (hgood hbad)
      rfl rfl⟩
  · exact ⟨hr, rfl⟩
  · exact absurd (hgood hbad) hng
  · exact absurd (hgood hbad) hng

theorem sysPageMap_right (srcenvid srcva dstenvid dstva : Word) (h : KernInv M k₀ k)
    (hb : Bounded k.dirs k.pm) (hperm : PermOk perm) :
    MapsRight k (runCall inp (.pageMap srcenvid srcva dstenvid dstva perm) k)
      (.pageMap srcenvid srcva dstenvid dstva perm) := by
  show (∀ k', sysPageMap srcenvid srcva dstenvid dstva perm k = _ → _) ∧
    (_ → Refused k (sysPageMap srcenvid srcva dstenvid dstva perm k) ∧
      (_ → _ → sysPageMap srcenvid srcva dstenvid dstva perm k = _))
  have hgood : ¬ BadPerm perm → GoodPerm perm := fun hbad => ⟨hperm, hbad⟩
  refine ⟨fun k' hk' => ?_, fun hng => ⟨fun r k' hk' => ?_, fun ⟨se, d, hse, hdir⟩ ⟨de, hde⟩ =>
    sysPageMap_badPerm h hse hde hdir (not_not.1 fun hbad => hng (hgood hbad))⟩⟩
  all_goals
    rcases sysPageMap_cases h hb srcenvid srcva dstenvid dstva hperm.lowPerm with
      heq | ⟨r1, hr, heq⟩ | ⟨se, de, pp, p', hse, hde, -, -, -, hpg, hbad, hw, heq, hmap⟩
  all_goals rw [heq] at hk'; cases hk'
  · exact absurd hr (by decide)
  · exact ⟨se, de, pp, hse, hde, hpg, hw, hmap.installs rfl
      (h.pages.managed_lt (h.pages.wf.page_managed hpg)) (hgood hbad) rfl rfl⟩
  · exact ⟨hr, rfl⟩
  · exact absurd (hgood hbad) hng

/-- The test `(*pte & perm & 7) == (perm & 7)` covers the test for `PTE_W` after it. -/
theorem writable_of_sub {w : Word} (h : w &&& perm &&& 7#32 = perm &&& 7#32)
    (hw : perm &&& pteW ≠ 0#32) : w &&& pteW ≠ 0#32 := by
  intro h0
  refine hw ?_
  have hW : (7#32 : Word) &&& pteW = pteW := by decide
  calc perm &&& pteW = perm &&& 7#32 &&& pteW := by rw [BitVec.and_assoc, hW]
    _ = w &&& perm &&& 7#32 &&& pteW := by rw [h]
    _ = perm &&& (w &&& pteW) := by rw [BitVec.and_assoc, hW, BitVec.and_comm w perm, BitVec.and_assoc]
    _ = 0#32 := by rw [h0, BitVec.and_zero]

theorem sysIpcTrySend_right (envid value srcva : Word) (h : KernInv M k₀ k)
    (hb : Bounded k.dirs k.pm) (hperm : srcva < utop → GoodPerm perm) :
    MapsRight k (runCall inp (.ipcTrySend envid value srcva perm) k)
      (.ipcTrySend envid value srcva perm) := by
  intro hsrc
  refine ⟨fun k' hk' => ?_, fun hng => absurd (hperm hsrc) hng⟩
  replace hk' : sysIpcTrySend inp envid value srcva perm k = .ok 0 k' := hk'
  rcases sysIpcTrySend_cases h hb inp envid value srcva fun _ => (hperm hsrc).1.lowPerm with
    ⟨r, -, heq⟩ | ⟨r, hr, heq⟩ | ⟨rcv, c, k1, hname, hc, -, htr, heq⟩
  all_goals rw [heq] at hk'; cases hk'
  · exact absurd hr (by decide)
  · rcases htr with ⟨hno, -⟩ | ⟨-, pp, -, hpg, hsub, hend⟩
    · exact absurd hsrc hno
    refine ⟨rcv, c, pp, hname, hc, hpg, fun hdst => ⟨writable_of_sub hsub, ?_⟩⟩
    rcases hend with ⟨-, hno⟩ | ⟨p', rfl, -, -, hmap⟩
    · exact absurd hdst hno
    refine hmap.installs rfl (h.pages.managed_lt (h.pages.wf.page_managed hpg)) (hperm hsrc) ?_ rfl
    rw [delivered, setEnv_dirs_same _ rfl, setEnv_dirs_same _ rfl]
    rfl

theorem runCall_right {call : Call} (h : KernInv M k₀ k) (hb : Bounded k.dirs k.pm)
    (hask : call.AsksRight) : MapsRight k (runCall inp call k) call := by
  cases call with
  | pageAlloc envid va perm => exact sysPageAlloc_right envid va h hb hask
  | pageMap srcenvid srcva dstenvid dstva perm =>
    exact sysPageMap_right srcenvid srcva dstenvid dstva h hb hask
  | ipcTrySend envid value srcva perm => exact sysIpcTrySend_right envid value srcva h hb hask
  | _ => exact trivial

/-! ## Over whole runs -/

/-- The condition on the steps of a run: calls ask for what they may have, and do
not map a page too often. -/
def AskStep (m : Machine) (a : Event) : Prop :=
  (∀ call, a.call = some call → call.AsksRight) ∧ a.HasRoom m ∧ a.CountOk m

theorem AskStep.countStep (h : AskStep m a) : CountStep m a := by
  refine ⟨fun call perm hcall hp => ?_, h.2⟩
  have hask := h.1 call hcall
  cases call with
  | pageAlloc | pageMap => exact Option.some.inj hp ▸ hask
  | ipcTrySend envid value srcva perm' =>
    rw [Call.permArg] at hp
    split at hp
    · rename_i hsrc
      exact Option.some.inj hp ▸ (hask hsrc).1
    · cases hp
  | _ => cases hp

/-- What a system call of processor `i` works on: the trap frame has been saved. -/
def Machine.atCall (m : Machine) (i : ℕ) (tf : Trapframe) : Kern :=
  match m.cpuEnv i with
  | none => m.on i
  | some c => (m.on i).saveTf c tf

/-- **The mapping calls install what they should.**  In every state of a run whose
calls all ask for what they may have, so does the next call of any processor. -/
theorem mapping_calls_right (cfg : BootConfig) (m : Machine) (h : (jos cfg).Reach AskStep m)
    (i : ℕ) (inp : Inputs) (tf : Trapframe) (hask : tf.call.AsksRight) :
    MapsRight (m.atCall i tf) (runCall inp tf.call (m.atCall i tf)) tf.call := by
  obtain ⟨⟨k₀, -, hinv, hcpu⟩, hb⟩ := MachInv.reach_counts (h.mono fun _ _ hs => hs.countStep)
  have hon : KernInv (Managed cfg k₀) k₀ (m.on i) := hinv.withCurenv _ (hcpu i)
  have hat : KernInv (Managed cfg k₀) k₀ (m.atCall i tf) ∧ (m.atCall i tf).dirs = m.kern.dirs ∧
      (m.atCall i tf).pm = m.kern.pm := by
    unfold Machine.atCall
    split
    · exact ⟨hon, rfl, rfl⟩
    · exact ⟨hon.saveTf _ tf, saveTf_dirs, rfl⟩
  refine runCall_right hat.1 ?_ hask
  rw [hat.2.1, hat.2.2]
  exact hb

theorem QuietStep.askStep (h : QuietStep m a) : AskStep m a :=
  ⟨fun _ hcall => (nomatch h.2.symm.trans hcall), h.1.2.2, h.countOk⟩

/-- A program on a small machine: a call that asks for what it may have. -/
theorem mapping_calls_right_solo : ∃ m, (jos smallPc).Reach AskStep m ∧ m.mode 0 = .user ∧
    MapsRight (m.atCall 0 (callTf 4#32 0#32 0#32 7#32 0#32 0#32))
      (runCall ⟨0#32, 0, none⟩ (.pageAlloc 0#32 0#32 7#32)
        (m.atCall 0 (callTf 4#32 0#32 0#32 7#32 0#32 0#32))) (.pageAlloc 0#32 0#32 7#32) := by
  obtain ⟨k₀, m, pp, hquiet, hsolo, -⟩ := exists_solo smallPc 0 rfl (by decide)
  have hreach : (jos smallPc).Reach AskStep m := hquiet.mono fun _ _ h => h.askStep
  exact ⟨m, hreach, hsolo.mode, mapping_calls_right smallPc m hreach 0 ⟨0#32, 0, none⟩
    (callTf 4#32 0#32 0#32 7#32 0#32 0#32) (show PermOk 7#32 by decide)⟩

/-! ## A call that asks for more -/

/-- Whatever the permissions, `page_insert` adds them to the directory entry. -/
theorem pageInsert_pde {dirs : ℕ → Option ℕ} {c : ℕ → ℕ} {H : ℕ → Prop} {p : Pmap} {pgdir : ℕ}
    (pp : ℕ) (va perm : Word) (h : Rep M dirs c H p) (hdir : dirs e = some pgdir) (hd : pdx va < nupde)
    (hempty : (view dirs p).page (slot e va) = none) (hfree : ∃ r, M r ∧ c r = 0 ∧ ¬ H r) :
    ∃ p' w, pageInsert pgdir pp va perm p = .ok 0 p' ∧ p'.mem pgdir (pdx va) = w ||| perm := by
  rcases pgdirWalk_create h hdir hd with ⟨-, -, hfull⟩ | ⟨q, c', p1, hwalk, hw⟩
  · obtain ⟨r, hM, h0, hH⟩ := hfree
    exact ((hfull r hM).elim (fun hne => hne h0) hH).elim
  have hnone : (view dirs p1).page (slot e va) = none := by rw [slot, hw.page_eq e, ← slot, hempty]
  have hword : ¬ Present (p1.mem q (ptx va)) := by
    rw [← view_pte hw.table (ptx_lt va)]
    intro hpres
    exact ne_zero_of_present hpres (page_slot_none hw.rep hnone)
  have hword' : ¬ Present ((p1.setRef pp ((p1.pages pp).ppRef + 1#16)).mem q (ptx va)) := hword
  set p2 := (p1.setRef pp ((p1.pages pp).ppRef + 1#16)).setWord q (ptx va) (mkPte pp perm)
  refine ⟨p2.setWord pgdir (pdx va) (p2.mem pgdir (pdx va) ||| perm), p2.mem pgdir (pdx va), ?_,
    by rw [mem_setWord, if_pos ⟨rfl, rfl⟩]⟩
  rw [pageInsert, bind_ok hwalk]
  simp only
  rw [bind_ok (pageIncref_apply _ _), read_bind, when, if_neg hword']
  rfl

theorem pgnum_or_high (w : Word) : pgnum (w ||| 0xFFFFF007#32) = 0xFFFFF := by
  have hsplit : pgnum (w ||| 0xFFFFF007#32) = pgnum w ||| (2 ^ 20 - 1) := by
    rw [pgnum, BitVec.ushiftRight_or_distrib]
    rfl
  rw [hsplit]
  refine Nat.eq_of_testBit_eq fun i => ?_
  rw [Nat.testBit_or, Nat.testBit_two_pow_sub_one]
  by_cases hi : i < 20
  · rw [decide_eq_true hi, Bool.or_true]
  · have hlt : pgnum w < 2 ^ i := (pgnum_lt w).trans_le (Nat.pow_le_pow_right (by decide) (by omega))
    rw [Nat.testBit_lt_two_pow hlt, Bool.false_or]

/-- **A mapping of a page that was not given.**  A program asks for a page at
address 0 with the permissions `0xFFFFF007`.  The call returns 0, and the page
table of the program is now physical page `0xFFFFF`, on a machine with 1024. -/
theorem alloc_redirects : ∃ m k', (jos smallPc).Reach AskStep m ∧ m.mode 0 = .user ∧
    let tf := callTf 4#32 0#32 0#32 0xFFFFF007#32 0#32 0#32
    let k := m.atCall 0 tf
    runCall ⟨0#32, 0, none⟩ (.pageAlloc 0#32 0#32 0xFFFFF007#32) k = .ok 0 k' ∧
    (view k'.dirs k'.pm).table (0, 0) = some 0xFFFFF ∧
    ¬ MapsRight k (runCall ⟨0#32, 0, none⟩ (.pageAlloc 0#32 0#32 0xFFFFF007#32) k)
      (.pageAlloc 0#32 0#32 0xFFFFF007#32) := by
  obtain ⟨k₀, m, pp, hquiet, hsolo, -, -, honly, -⟩ := exists_solo smallPc 2 rfl (by decide)
  set tf := callTf 4#32 0#32 0#32 0xFFFFF007#32 0#32 0#32 with htf
  have hat : m.atCall 0 tf = m.saved tf := by
    unfold Machine.atCall
    rw [hsolo.cpu]
    rfl
  have hk := hsolo.saved_inv tf
  have hdd := saved_dirs m tf
  obtain ⟨d, hdir⟩ := hsolo.dir
  rw [← hdd] at hdir
  obtain ⟨s, hs, hfree⟩ := hsolo.spare
  obtain ⟨r0, hr0⟩ := Finset.card_pos.1 (by omega : 0 < s.card)
  -- a page for the program, and one for the page table
  rcases alloc_fresh hk.pages true with ⟨-, hfull⟩ | ⟨pg, p1, halloc, hf⟩
  · exact absurd (by rw [hdd]; exact (hfree r0 hr0).2) (hfull r0 (hfree r0 hr0).1)
  obtain ⟨r, hr, hne⟩ := Finset.exists_mem_ne (by omega : 1 < s.card) pg
  have hempty : (view (m.saved tf).dirs p1).page (slot 0 0#32) = none := by
    rw [hf.view_eq]
    have h0 : (view m.kern.dirs m.kern.pm).pte (slot 0 0#32) = 0#32 :=
      honly _ rfl (slot_ne (by decide))
    show target ((view m.kern.dirs m.kern.pm).pte (slot 0 0#32)) = none
    rw [h0]
    decide
  obtain ⟨p', w, hins, hpde⟩ := pageInsert_pde pg 0#32 0xFFFFF007#32 hf.rep hdir
    (by decide) hempty ⟨r, (hfree r hr).1, by rw [hdd]; exact (hfree r hr).2, hne⟩
  have hrun : sysPageAlloc 0#32 0#32 0xFFFFF007#32 (m.saved tf) =
      .ok 0 { m.saved tf with pm := p' } := by
    rw [sysPageAlloc, bind_ok (envid2env_self hsolo.cpu true)]
    simp only
    rw [if_neg (by decide), if_neg (by decide), bind_ok (pmap_ok halloc)]
    simp only
    rw [bind_ok (pgdirOf_some (show Kern.dirs { m.saved tf with pm := p1 } 0 = some d from hdir)),
      bind_ok (pmap_ok hins)]
    rfl
  refine ⟨m, { m.saved tf with pm := p' }, hquiet.mono fun _ _ h => h.askStep, hsolo.mode, ?_⟩
  intro k
  have hrun' : runCall ⟨0#32, 0, none⟩ (.pageAlloc 0#32 0#32 0xFFFFF007#32) (m.atCall 0 tf) =
      .ok 0 { m.saved tf with pm := p' } := by
    rw [hat]
    exact hrun
  refine ⟨hrun', ?_, fun hright => ?_⟩
  · refine view_table_some.2 ⟨d, hdir, by decide, ?_, ?_⟩
    · show Present (p'.mem d (pdx 0#32))
      rw [hpde, BitVec.or_comm]
      exact present_or (by decide) w
    · show pgnum (p'.mem d (pdx 0#32)) = 0xFFFFF
      rw [hpde]
      exact pgnum_or_high w
  · have hk' := hright.2 (by decide)
    rw [hrun'] at hk'
    exact absurd (hk'.1 _ _ rfl).1 (by decide)

end OsLab.Jos
