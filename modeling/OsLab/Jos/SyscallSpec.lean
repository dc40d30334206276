import OsLab.Jos.KernSpec
import OsLab.Jos.Trap

/-!
# What a kernel call does

One theorem per system call that edits an address space, listing everything it
can do (`sysPageAlloc_cases`, `sysPageMap_cases`, `sysPageUnmap_cases`,
`ipcSendPage_cases`), and from these that every call, and with it every trap,
keeps the invariant of the kernel (`runCall_safe`, `trap_safe`).

The two conditions are the ones the code relies on and does not check: the
permission bits of a call stay within the twelve flag bits, and no page has so
many mappings that its counter wraps.
-/

namespace OsLab.Jos

open Exec Spaces

variable {M : ℕ → Prop} {k₀ p : Pmap} {T : Prop} {k : Kern} {inp : Inputs} {envid va perm srcva value dstva srcenvid : Word}
  {e rcv pgdir pp c d r : ℕ} {dirs : ℕ → Option ℕ} {tf : Trapframe} {β α : Type} {b : BitVec 8} {call : Call}

theorem pdx_lt_of_not_badVa (h : ¬ BadVa va) : pdx va < nupde := by
  refine pdx_lt_nupde ?_
  exact BitVec.not_le.1 fun hle => h (Or.inl hle)

theorem thisenv_some (h : k.curenv = some e) : thisenv k = .ok e k := by
  rw [thisenv, read_bind, h]
  rfl

theorem thisenv_none (h : k.curenv = none) : thisenv k = .panic .nullDeref := by
  rw [thisenv, read_bind, h]
  rfl

section Rules

variable {Q : β → Kern → Prop} {L : Kern → Prop} {P : Panic → Prop} {f : ℕ → KernM β}

/-- Code that begins with `thisenv`. -/
theorem wp_thisenv (hP : P .nullDeref) (hf : ∀ c, k.curenv = some c → wp (f c) Q L P k) :
    wp (thisenv >>= f) Q L P k := by
  cases hc : k.curenv with
  | none => exact wp_of_panic (bind_panic (thisenv_none hc)) hP
  | some c => exact wp_step (thisenv_some hc) (hf c hc)

/-- Code that begins by following `e->env_pgdir`. -/
theorem wp_pgdirOf (hP : P .nullDeref) (hf : ∀ d, k.dirs e = some d → wp (f d) Q L P k) :
    wp (pgdirOf e >>= f) Q L P k := by
  cases hd : k.dirs e with
  | none => exact wp_of_panic (bind_panic (pgdirOf_none hd)) hP
  | some d => exact wp_step (pgdirOf_some hd) (hf d hd)

/-- Code that begins with `envid2env`. -/
theorem wp_envid2env {f : Except ℤ ℕ → KernM β} {cp : Bool} (hP : P .nullDeref)
    (herr : wp (f (.error (-eBadEnv))) Q L P k) (hf : ∀ e, Names k envid cp e → wp (f (.ok e)) Q L P k) :
    wp (envid2env envid cp >>= f) Q L P k := by
  rcases envid2env_cases k envid cp with henv | henv | ⟨e, henv, hname⟩
  · exact wp_of_panic (bind_panic henv) hP
  · exact wp_step henv herr
  · exact wp_step henv (hf e hname)

end Rules

/-! ## Mapping calls -/

/-- A call with an argument that is refused. -/
theorem refused {A C P : Prop} [Decidable P] {m : KernM ℤ} (hP : P) :
    A ∨ (∃ r < 0, (if P then pure (-eInval) else m) k = .ok r k) ∨ C :=
  Or.inr (Or.inl ⟨-eInval, by decide, by rw [if_pos hP, pure_apply]⟩)

section

variable (h : KernInv M k₀ k) (hb : Bounded k.dirs k.pm)

include h hb

/-- **`sys_page_alloc`** refuses and changes nothing, gives the page it took back
because there was none for the page table, or maps a fresh zeroed page. -/
theorem sysPageAlloc_cases (envid va : Word) (hperm : LowPerm perm) :
    sysPageAlloc envid va perm k = .panic .nullDeref ∨
    (∃ r < 0, sysPageAlloc envid va perm k = .ok r k) ∨
    ∃ e pp p1, Names k envid true e ∧ (∃ pgdir, k.dirs e = some pgdir) ∧ ¬ BadVa va ∧
      ¬ BadPerm perm ∧ Fresh M k.dirs true k.pm pp p1 ∧
      ((∃ p2, sysPageAlloc envid va perm k = .ok (-eNoMem) { k with pm := p2 } ∧
          GivenBack M k.dirs k.pm pp p2) ∨
        ∃ p2, sysPageAlloc envid va perm k = .ok 0 { k with pm := p2 } ∧
          Mapped M k.dirs p1 e pp va perm p2) := by
  rw [sysPageAlloc]
  rcases envid2env_cases k envid true with henv | henv | ⟨e, henv, hname⟩
  · exact Or.inl (bind_panic henv)
  · exact Or.inr (Or.inl ⟨-eBadEnv, by decide, bind_ok henv⟩)
  rw [bind_ok henv]
  simp only
  by_cases hva : BadVa va
  · exact refused hva
  rw [if_neg hva]
  by_cases hbad : BadPerm perm
  · exact refused hbad
  rw [if_neg hbad]
  rcases alloc_fresh h.pages true with ⟨hfail, -⟩ | ⟨pp, p1, hsome, hf⟩
  · refine Or.inr (Or.inl ⟨-eNoMem, by decide, ?_⟩)
    rw [bind_ok (pmap_ok hfail)]
    rfl
  rw [bind_ok (pmap_ok hsome)]
  simp only
  cases hdir : k.dirs e with
  | none => exact Or.inl (bind_panic (pgdirOf_none (k := { k with pm := p1 }) hdir))
  | some pgdir =>
    rw [bind_ok (pgdirOf_some (k := { k with pm := p1 }) hdir)]
    refine Or.inr (Or.inr ⟨e, pp, p1, hname, ⟨pgdir, hdir⟩, hva, hbad, hf, ?_⟩)
    rcases insert_fresh h.pages hb hf hdir (pdx_lt_of_not_badVa hva) hperm with
      ⟨p2, hins, hfree, hgb, -⟩ | ⟨p2, hins, hmap⟩
    · refine Or.inl ⟨p2, ?_, hgb⟩
      rw [bind_ok (pmap_ok hins), if_pos (by decide), bind_ok (pmap_ok hfree), pure_apply]
    · refine Or.inr ⟨p2, ?_, hmap⟩
      rw [bind_ok (pmap_ok hins), if_neg (by decide), pure_apply]

/-- **`sys_page_map`** refuses and changes nothing, or maps the page it finds at
the source address, writable only if it was writable there. -/
theorem sysPageMap_cases (srcenvid srcva dstenvid dstva : Word) (hperm : LowPerm perm) :
    sysPageMap srcenvid srcva dstenvid dstva perm k = .panic .nullDeref ∨
    (∃ r < 0, sysPageMap srcenvid srcva dstenvid dstva perm k = .ok r k) ∨
    ∃ se de pp p', Names k srcenvid true se ∧ Names k dstenvid true de ∧
      (∃ pgdir, k.dirs de = some pgdir) ∧ ¬ BadVa srcva ∧ ¬ BadVa dstva ∧
      (view k.dirs k.pm).page (slot se srcva) = some pp ∧ ¬ BadPerm perm ∧
      (perm &&& pteW ≠ 0#32 → (view k.dirs k.pm).pte (slot se srcva) &&& pteW ≠ 0#32) ∧
      sysPageMap srcenvid srcva dstenvid dstva perm k = .ok 0 { k with pm := p' } ∧
      Mapped M k.dirs k.pm de pp dstva perm p' := by
  rw [sysPageMap]
  rcases envid2env_cases k srcenvid true with henv | henv | ⟨se, henv, hse⟩
  · exact Or.inl (bind_panic henv)
  · exact Or.inr (Or.inl ⟨-eBadEnv, by decide, bind_ok henv⟩)
  rw [bind_ok henv]
  simp only
  rcases envid2env_cases k dstenvid true with henv | henv | ⟨de, henv, hde⟩
  · exact Or.inl (bind_panic henv)
  · exact Or.inr (Or.inl ⟨-eBadEnv, by decide, bind_ok henv⟩)
  rw [bind_ok henv]
  simp only
  by_cases hva : utop ≤ srcva ∨ utop ≤ dstva ∨ roundDown srcva ≠ srcva ∨ roundDown dstva ≠ dstva
  · exact refused hva
  rw [if_neg hva]
  push Not at hva
  obtain ⟨hs, hd, hsr, hdr⟩ := hva
  have hsva : ¬ BadVa srcva := by
    rintro (hbad | hbad)
    · exact hs hbad
    · exact hbad hsr
  have hdva : ¬ BadVa dstva := by
    rintro (hbad | hbad)
    · exact hd hbad
    · exact hbad hdr
  cases hsd : k.dirs se with
  | none => exact Or.inl (bind_panic (pgdirOf_none hsd))
  | some sdir =>
    rw [bind_ok (pgdirOf_some hsd)]
    cases hpg : (view k.dirs k.pm).page (slot se srcva) with
    | none =>
      refine Or.inr (Or.inl ⟨-eInval, by decide, ?_⟩)
      rw [bind_ok (pmap_ok (pageLookup_none h.pages hsd (pdx_lt_of_not_badVa hsva) hpg))]
      rfl
    | some pp =>
      obtain ⟨q, -, hpte, hlook⟩ := pageLookup_some h.pages hsd hpg
      rw [bind_ok (pmap_ok hlook)]
      simp only
      by_cases hbad : BadPerm perm
      · exact refused hbad
      rw [if_neg hbad, read_bind]
      by_cases hw : k.pm.mem q (ptx srcva) &&& pteW = 0#32 ∧ perm &&& pteW ≠ 0#32
      · exact refused hw
      rw [if_neg hw]
      cases hdd : k.dirs de with
      | none => exact Or.inl (bind_panic (pgdirOf_none hdd))
      | some ddir =>
        rw [bind_ok (pgdirOf_some hdd)]
        rcases insert_mapped h.pages hb hdd (pdx_lt_of_not_badVa hdva) hpg hperm with
          ⟨hins, -⟩ | ⟨p', hins, hmap⟩
        · exact Or.inr (Or.inl ⟨-eNoMem, by decide, pmap_ok hins⟩)
        · refine Or.inr (Or.inr ⟨se, de, pp, p', hse, hde, ⟨ddir, hdd⟩, hsva, hdva, hpg, hbad, ?_,
            pmap_ok hins, hmap⟩)
          intro hpw hzero
          rw [← hpte] at hzero
          exact hw ⟨hzero, hpw⟩

/-- **`sys_page_map`** of a page that is there, between environments the caller may
change: it fails if the page would become writable by it, or if there is no page for the
table, and else the page is mapped. -/
theorem sysPageMap_named {dstenvid : Word} {se de d' : ℕ} (hse : Names k srcenvid true se)
    (hde : Names k dstenvid true de) (hdir : k.dirs se = some d) (hdir' : k.dirs de = some d')
    (hsva : ¬ BadVa srcva) (hdva : ¬ BadVa dstva)
    (hpg : (view k.dirs k.pm).page (slot se srcva) = some pp) (hperm : LowPerm perm)
    (hbad : ¬ BadPerm perm) :
    (sysPageMap srcenvid srcva dstenvid dstva perm k = .ok (-eInval) k ∧ perm &&& pteW ≠ 0#32 ∧
      (view k.dirs k.pm).pte (slot se srcva) &&& pteW = 0#32) ∨
    (perm &&& pteW ≠ 0#32 → (view k.dirs k.pm).pte (slot se srcva) &&& pteW ≠ 0#32) ∧
    ((sysPageMap srcenvid srcva dstenvid dstva perm k = .ok (-eNoMem) k ∧
        ∀ r, M r → (view k.dirs k.pm).refs r ≠ 0) ∨
      ∃ p', sysPageMap srcenvid srcva dstenvid dstva perm k = .ok 0 { k with pm := p' } ∧
        Mapped M k.dirs k.pm de pp dstva perm p') := by
  obtain ⟨q, -, hpte, hlook⟩ := pageLookup_some h.pages hdir hpg
  have hva : ¬ (utop ≤ srcva ∨ utop ≤ dstva ∨ roundDown srcva ≠ srcva ∨ roundDown dstva ≠ dstva) := by
    rintro (h1 | h1 | h1 | h1)
    exacts [hsva (Or.inl h1), hdva (Or.inl h1), hsva (Or.inr h1), hdva (Or.inr h1)]
  rw [sysPageMap, bind_ok (envid2env_of_names hse)]
  simp only
  rw [bind_ok (envid2env_of_names hde)]
  simp only
  rw [if_neg hva, bind_ok (pgdirOf_some hdir), bind_ok (pmap_ok hlook)]
  simp only
  rw [if_neg hbad, read_bind, hpte]
  by_cases hw : (view k.dirs k.pm).pte (slot se srcva) &&& pteW = 0#32 ∧ perm &&& pteW ≠ 0#32
  · rw [if_pos hw]
    exact Or.inl ⟨rfl, hw.2, hw.1⟩
  · rw [if_neg hw, bind_ok (pgdirOf_some hdir')]
    refine Or.inr ⟨fun hp h0 => hw ⟨h0, hp⟩, ?_⟩
    rcases insert_mapped h.pages hb hdir' (pdx_lt_of_not_badVa hdva) hpg hperm with
      ⟨hins, hfull⟩ | ⟨p', hins, hmap⟩
    · exact Or.inl ⟨pmap_ok hins, hfull⟩
    · exact Or.inr ⟨p', pmap_ok hins, hmap⟩

/-- A program that maps one of its pages a second time succeeds if there is a page
to spare for a table. -/
theorem sysPageMap_self (srcva dstva perm : Word) (hc : k.curenv = some c) (hdir : k.dirs c = some d)
    (hsva : ¬ BadVa srcva) (hdva : ¬ BadVa dstva)
    (hpg : (view k.dirs k.pm).page (slot c srcva) = some pp) (hperm : LowPerm perm)
    (hbad : ¬ BadPerm perm) (hw : (view k.dirs k.pm).pte (slot c srcva) &&& pteW ≠ 0#32)
    (hfree : ∃ r, M r ∧ (view k.dirs k.pm).refs r = 0) :
    ∃ p', sysPageMap 0#32 srcva 0#32 dstva perm k = .ok 0 { k with pm := p' } ∧
      Mapped M k.dirs k.pm c pp dstva perm p' := by
  have hn : Names k 0#32 true c := Or.inl ⟨rfl, hc⟩
  rcases sysPageMap_named h hb hn hn hdir hdir hsva hdva hpg hperm hbad with
    ⟨-, -, h0⟩ | ⟨-, ⟨-, hfull⟩ | hmap⟩
  · exact absurd h0 hw
  · obtain ⟨r, hM, h0⟩ := hfree
    exact absurd h0 (hfull r hM)
  · exact hmap

/-- **`sys_page_unmap`** refuses and changes nothing, or leaves the slot empty. -/
theorem sysPageUnmap_cases (envid va : Word) :
    sysPageUnmap envid va k = .panic .nullDeref ∨
    (∃ r < 0, sysPageUnmap envid va k = .ok r k) ∨
    ∃ e p', Names k envid true e ∧ ¬ BadVa va ∧
      sysPageUnmap envid va k = .ok 0 { k with pm := p' } ∧
      Unmapped M k.dirs k.pm (slot e va) p' := by
  rw [sysPageUnmap]
  rcases envid2env_cases k envid true with henv | henv | ⟨e, henv, hname⟩
  · exact Or.inl (bind_panic henv)
  · exact Or.inr (Or.inl ⟨-eBadEnv, by decide, bind_ok henv⟩)
  rw [bind_ok henv]
  simp only
  by_cases hva : BadVa va
  · exact refused hva
  rw [if_neg hva]
  cases hdir : k.dirs e with
  | none => exact Or.inl (bind_panic (pgdirOf_none hdir))
  | some pgdir =>
    rw [bind_ok (pgdirOf_some hdir)]
    obtain ⟨p', hrem, hu⟩ := remove_unmapped va h.pages hb hdir (pdx_lt_of_not_badVa hva)
    refine Or.inr (Or.inr ⟨e, p', hname, hva, ?_, hu⟩)
    rw [bind_ok (pmap_ok hrem), pure_apply]

/-! ## Sending a page -/

/-- **The page transfer of `sys_ipc_try_send`** panics on the unassigned pointer,
refuses and changes nothing, has no one to map the page for, or maps the
sender's page for the receiver and records the permission. -/
theorem ipcSendPage_cases (inp : Inputs) (rcv : ℕ) (hsrc : srcva < utop) (hperm : LowPerm perm) :
    (∃ r, r ≠ .pageFree ∧ ipcSendPage inp rcv srcva perm k = .panic r) ∨
    (∃ r < 0, ipcSendPage inp rcv srcva perm k = .ok r k) ∨
    ∃ c pp, k.curenv = some c ∧ roundDown srcva = srcva ∧
      (view k.dirs k.pm).page (slot c srcva) = some pp ∧
      (view k.dirs k.pm).pte (slot c srcva) &&& perm &&& 7#32 = perm &&& 7#32 ∧
      ((ipcSendPage inp rcv srcva perm k = .ok 0 k ∧ ¬ (k.envs rcv).envIpcDstva < utop) ∨
        ∃ p', ipcSendPage inp rcv srcva perm k = .ok 0 (({ k with pm := p' } : Kern).setEnv rcv
            fun v => { v with envIpcPerm := perm }) ∧
          (k.envs rcv).envIpcDstva < utop ∧ (∃ pgdir, k.dirs rcv = some pgdir) ∧
          Mapped M k.dirs k.pm rcv pp (k.envs rcv).envIpcDstva perm p') := by
  rw [ipcSendPage]
  cases hc : k.curenv with
  | none => exact Or.inl ⟨.nullDeref, Panic.noConfusion, bind_panic (thisenv_none hc)⟩
  | some c =>
    rw [bind_ok (thisenv_some hc)]
    cases hsd : k.dirs c with
    | none => exact Or.inl ⟨.nullDeref, Panic.noConfusion, bind_panic (pgdirOf_none hsd)⟩
    | some sdir =>
      rw [bind_ok (pgdirOf_some hsd)]
      cases hpg : (view k.dirs k.pm).page (slot c srcva) with
      | none =>
        rw [bind_ok (pmap_ok (pageLookup_none h.pages hsd (pdx_lt_nupde hsrc) hpg))]
        by_cases hal : srcva ≠ roundDown srcva
        · exact refused hal
        rw [if_neg hal]
        cases hst : inp.stalePte with
        | none =>
          refine Or.inl ⟨.kernelPageFault, Panic.noConfusion, bind_panic ?_⟩
          simp [readPte, hst]
        | some w =>
          refine Or.inr (Or.inl ⟨-eInval, by decide, ?_⟩)
          have hread : readPte inp none k = .ok w k := by simp [readPte, hst]
          rw [bind_ok hread]
          split <;> rfl
      | some pp =>
        obtain ⟨q, -, hpte, hlook⟩ := pageLookup_some h.pages hsd hpg
        rw [bind_ok (pmap_ok hlook)]
        by_cases hal : srcva ≠ roundDown srcva
        · exact refused hal
        rw [if_neg hal]
        have hread : readPte inp (some (pp, (q, ptx srcva))) k =
            .ok ((view k.dirs k.pm).pte (slot c srcva)) k := by
          rw [← hpte]
          rfl
        rw [bind_ok hread]
        by_cases hsub : (view k.dirs k.pm).pte (slot c srcva) &&& perm &&& 7#32 ≠ perm &&& 7#32
        · exact refused hsub
        rw [if_neg hsub]
        simp only
        by_cases hw : perm &&& pteW ≠ 0#32 ∧ (view k.dirs k.pm).pte (slot c srcva) &&& pteW = 0#32
        · exact refused hw
        rw [if_neg hw, read_bind]
        push Not at hal hsub
        by_cases hdst : (k.envs rcv).envIpcDstva < utop
        · rw [if_pos hdst]
          cases hdd : k.dirs rcv with
          | none => exact Or.inl ⟨.nullDeref, Panic.noConfusion, bind_panic (pgdirOf_none hdd)⟩
          | some ddir =>
            rw [bind_ok (pgdirOf_some hdd)]
            rcases insert_mapped h.pages hb hdd (pdx_lt_nupde hdst) hpg hperm with
              ⟨hins, -⟩ | ⟨p', hins, hmap⟩
            · refine Or.inr (Or.inl ⟨-eNoMem, by decide, ?_⟩)
              rw [bind_ok (pmap_ok hins), if_pos (by decide), pure_apply]
            · refine Or.inr (Or.inr ⟨c, pp, rfl, hal.symm, hpg, hsub,
                Or.inr ⟨p', ?_, hdst, ⟨ddir, rfl⟩, hmap⟩⟩)
              rw [bind_ok (pmap_ok hins), if_neg (by decide), modifyEnv, modify_bind,
                pure_apply, ← hc]
        · exact Or.inr (Or.inr ⟨c, pp, rfl, hal.symm, hpg, hsub,
            Or.inl ⟨by rw [if_neg hdst, pure_apply], hdst⟩⟩)

end

/-- The state after the message has been stored in the receiver. -/
def delivered (k : Kern) (rcv c : ℕ) (value : Word) : Kern :=
  k.setEnv rcv fun v => { v with
    envIpcRecving := false
    envIpcFrom := (k.envs c).envId
    envIpcValue := value
    envStatus := .runnable
    envTf := { v.envTf with regs := { v.envTf.regs with eax := 0#32 } } }

/-- The page transfer of `sys_ipc_try_send` from `c` to `rcv` led from `k` to `k₁`. -/
def Transferred (M : ℕ → Prop) (k : Kern) (rcv c : ℕ) (srcva perm : Word) (k₁ : Kern) : Prop :=
  ¬ srcva < utop ∧ k₁ = k ∨
  srcva < utop ∧ ∃ pp, roundDown srcva = srcva ∧
    (view k.dirs k.pm).page (slot c srcva) = some pp ∧
    (view k.dirs k.pm).pte (slot c srcva) &&& perm &&& 7#32 = perm &&& 7#32 ∧
    (k₁ = k ∧ ¬ (k.envs rcv).envIpcDstva < utop ∨
      ∃ p', k₁ = ({ k with pm := p' } : Kern).setEnv rcv (fun v => { v with envIpcPerm := perm }) ∧
        (k.envs rcv).envIpcDstva < utop ∧ (∃ pgdir, k.dirs rcv = some pgdir) ∧
        Mapped M k.dirs k.pm rcv pp (k.envs rcv).envIpcDstva perm p')

theorem ipcDeliver_ok (hc : k.curenv = some c) :
    ipcDeliver rcv value k = .ok () (delivered k rcv c value) := by
  rw [ipcDeliver, bind_ok (thisenv_some hc)]
  rfl

/-- **`sys_ipc_try_send`** panics on the unassigned pointer, refuses and changes
nothing, or hands over the page and the message. -/
theorem sysIpcTrySend_cases (h : KernInv M k₀ k) (hb : Bounded k.dirs k.pm) (inp : Inputs)
    (envid value srcva : Word) (hperm : srcva < utop → LowPerm perm) :
    (∃ r, r ≠ .pageFree ∧ sysIpcTrySend inp envid value srcva perm k = .panic r) ∨
    (∃ r < 0, sysIpcTrySend inp envid value srcva perm k = .ok r k) ∨
    ∃ rcv c k1, Names k envid false rcv ∧ k.curenv = some c ∧ (k.envs rcv).envIpcRecving = true ∧
      Transferred M k rcv c srcva perm k1 ∧
      sysIpcTrySend inp envid value srcva perm k = .ok 0 (delivered k1 rcv c value) := by
  rw [sysIpcTrySend]
  rcases envid2env_cases k envid false with henv | henv | ⟨rcv, henv, hname⟩
  · exact Or.inl ⟨.nullDeref, Panic.noConfusion, bind_panic henv⟩
  · exact Or.inr (Or.inl ⟨-eBadEnv, by decide, bind_ok henv⟩)
  rw [bind_ok henv]
  simp only
  rw [read_bind]
  by_cases hrec : (k.envs rcv).envIpcRecving = false
  · exact Or.inr (Or.inl ⟨-eIpcNotRecv, by decide, by rw [if_pos hrec, pure_apply]⟩)
  rw [if_neg hrec]
  rw [Bool.not_eq_false] at hrec
  -- a message needs a sender, whether or not a page goes with it
  have hend : ∀ k1 : Kern, ipcTransfer inp rcv srcva perm k = .ok 0 k1 →
      k1.curenv = k.curenv → ∀ c, k.curenv = some c →
      (ipcTransfer inp rcv srcva perm >>= fun ret => if ret ≠ 0 then pure ret
        else ipcDeliver rcv value >>= fun _ => pure 0 : KernM ℤ) k =
        .ok 0 (delivered k1 rcv c value) := by
    intro k1 heq hcur c hc
    rw [bind_ok heq, if_neg (by decide), bind_ok (ipcDeliver_ok (hcur.trans hc)), pure_apply]
  by_cases hsrc : srcva < utop
  · have htr : ipcTransfer inp rcv srcva perm k = ipcSendPage inp rcv srcva perm k := by
      rw [ipcTransfer, if_pos hsrc]
    rcases ipcSendPage_cases h hb inp rcv hsrc (hperm hsrc) with
      ⟨r, hr, heq⟩ | ⟨r, hr, heq⟩ | ⟨c, pp, hc, hal, hpg, hsub, hend'⟩
    · exact Or.inl ⟨r, hr, bind_panic (htr.trans heq)⟩
    · refine Or.inr (Or.inl ⟨r, hr, ?_⟩)
      rw [bind_ok (htr.trans heq), if_pos hr.ne, pure_apply]
    · rcases hend' with ⟨heq, hdst⟩ | ⟨p', heq, hdst, hdd, hmap⟩
      · have ht : Transferred M k rcv c srcva perm k :=
          Or.inr ⟨hsrc, pp, hal, hpg, hsub, Or.inl ⟨rfl, hdst⟩⟩
        exact Or.inr (Or.inr ⟨rcv, c, k, hname, hc, hrec, ht, hend k (htr.trans heq) rfl c hc⟩)
      · have ht : Transferred M k rcv c srcva perm _ :=
          Or.inr ⟨hsrc, pp, hal, hpg, hsub, Or.inr ⟨p', rfl, hdst, hdd, hmap⟩⟩
        exact Or.inr (Or.inr ⟨rcv, c, _, hname, hc, hrec, ht, hend _ (htr.trans heq) rfl c hc⟩)
  · have htr : ipcTransfer inp rcv srcva perm k = .ok 0 k := by
      rw [ipcTransfer, if_neg hsrc, pure_apply]
    cases hc : k.curenv with
    | none =>
      refine Or.inl ⟨.nullDeref, Panic.noConfusion, ?_⟩
      rw [bind_ok htr]
      exact bind_panic (bind_panic (thisenv_none hc))
    | some c =>
      have ht : Transferred M k rcv c srcva perm k := Or.inl ⟨hsrc, rfl⟩
      exact Or.inr (Or.inr ⟨rcv, c, k, hname, rfl, hrec, ht, hend k htr rfl c hc⟩)

/-! ## Every call keeps the invariant -/

/-- The permissions a call asks for, if it is to map a page. -/
def Call.permArg : Call → Option Word
  | .pageAlloc _ _ perm => some perm
  | .pageMap _ _ _ _ perm => some perm
  | .ipcTrySend _ _ srcva perm => if srcva < utop then some perm else none
  | _ => none

/-- What a call that maps a page relies on: the page has fewer mappings than its
counter can count. -/
def Call.CountOk (k : Kern) : Call → Prop
  | .pageMap srcenvid srcva _ _ _ => ∀ e p, Names k srcenvid true e →
      (view k.dirs k.pm).page (slot e srcva) = some p → (view k.dirs k.pm).mapCount p < 65535
  | .ipcTrySend _ _ srcva _ => ∀ c p, k.curenv = some c → srcva < utop →
      (view k.dirs k.pm).page (slot c srcva) = some p → (view k.dirs k.pm).mapCount p < 65535
  | _ => True

theorem Mapped.kernOk {p1 p2 : Pmap} (h : KernInv M k₀ k)
    (hk : Keeps M k.dirs k.pm p1) (hm : Mapped M k.dirs p1 e pp va perm p2)
    (hdir : k.dirs e = some pgdir) (hd : pdx va < nupde) (hb : Bounded k.dirs p1)
    (hpp : T → (view k.dirs p1).mapCount pp < 65535) : KernOk M k₀ T { k with pm := p2 } :=
  ⟨h.withPages hm.inv (hk.trans hm.keeps), fun ht =>
    hm.bounded (h.pages.wf.dir_lt hdir) hd hb (hpp ht)⟩

theorem safe_bind {m : KernM α} {f : α → KernM β} (h : Safe M k₀ T m k)
    (hf : ∀ a k', KernOk M k₀ T k' → Safe M k₀ T (f a) k') : Safe M k₀ T (m >>= f) k := by
  rw [Safe, wp_bind]
  exact wp_post h hf

section

variable (h : KernInv M k₀ k) (hb : Bounded k.dirs k.pm)

include h hb

theorem sysPageAlloc_safe (hperm : LowPerm perm) : Safe M k₀ T (sysPageAlloc envid va perm) k := by
  rcases sysPageAlloc_cases h hb envid va hperm with
    heq | ⟨r, -, heq⟩ | ⟨e, pp, p1, -, ⟨d, hd⟩, hva, -, hf, ⟨p2, heq, hgb⟩ | ⟨p2, heq, hmap⟩⟩
  · exact wp_of_panic heq nofun
  · exact wp_of_ok heq ⟨h, fun _ => hb⟩
  · refine wp_of_ok heq ⟨h.withPages hgb.inv hgb.keeps, fun _ p => ?_⟩
    show (view k.dirs p2).mapCount p < 65536
    rw [hgb.view_eq]
    exact hb p
  · refine wp_of_ok heq (hmap.kernOk h hf.keeps hd (pdx_lt_of_not_badVa hva) ?_ fun _ => ?_)
    · intro p
      rw [hf.view_eq]
      exact hb p
    · rw [hf.mapCount]
      decide

theorem sysPageMap_safe {dstenvid : Word} (hperm : LowPerm perm)
    (hT : T → (Call.pageMap srcenvid srcva dstenvid dstva perm).CountOk k) :
    Safe M k₀ T (sysPageMap srcenvid srcva dstenvid dstva perm) k := by
  rcases sysPageMap_cases h hb srcenvid srcva dstenvid dstva hperm with
    heq | ⟨r, -, heq⟩ | ⟨se, de, pp, p', hse, -, ⟨d, hd⟩, -, hdva, hpg, -, -, heq, hmap⟩
  · exact wp_of_panic heq nofun
  · exact wp_of_ok heq ⟨h, fun _ => hb⟩
  · exact wp_of_ok heq (hmap.kernOk h (Keeps.refl M k.dirs k.pm) hd (pdx_lt_of_not_badVa hdva) hb
      fun ht => hT ht se pp hse hpg)

theorem sysPageUnmap_safe : Safe M k₀ T (sysPageUnmap envid va) k := by
  rcases sysPageUnmap_cases h hb envid va with
    heq | ⟨r, -, heq⟩ | ⟨e, p', -, -, heq, hu⟩
  · exact wp_of_panic heq nofun
  · exact wp_of_ok heq ⟨h, fun _ => hb⟩
  · exact wp_of_ok heq ⟨h.withPages hu.inv hu.keeps, fun _ => hu.bounded hb⟩

theorem sysIpcTrySend_safe (hperm : srcva < utop → LowPerm perm)
    (hT : T → (Call.ipcTrySend envid value srcva perm).CountOk k) :
    Safe M k₀ T (sysIpcTrySend inp envid value srcva perm) k := by
  have hok : KernOk M k₀ T k := ⟨h, fun _ => hb⟩
  rcases sysIpcTrySend_cases h hb inp envid value srcva hperm with
    ⟨r, hr, heq⟩ | ⟨r, -, heq⟩ | ⟨rcv, c, k1, -, hc, -, htrans, heq⟩
  · exact wp_of_panic heq hr
  · exact wp_of_ok heq hok
  · refine wp_of_ok heq (KernOk.setEnv ?_ _ rfl rfl)
    rcases htrans with ⟨-, rfl⟩ | ⟨hsrc, pp, -, hpg, -, ⟨rfl, -⟩ | ⟨p', rfl, hdst, ⟨d, hd⟩, hmap⟩⟩
    · exact hok
    · exact hok
    · exact (hmap.kernOk h (Keeps.refl M k.dirs k.pm) hd (pdx_lt_nupde hdst) hb
        fun ht => hT ht c pp hc hsrc hpg).setEnv _ rfl rfl

theorem sysEnvDestroy_safe : Safe M k₀ T (sysEnvDestroy envid) k := by
  refine wp_envid2env nofun ⟨h, fun _ => hb⟩ fun e _ => ?_
  exact safe_bind (envDestroy_safe h hb) fun _ _ hk' => hk'

end

theorem sysExofork_safe (h : KernOk M k₀ T k) (hk : KernelHalf M k₀) :
    Safe M k₀ T sysExofork k := by
  refine wp_thisenv nofun fun c _ => ?_
  rw [wp_bind, wp_read, wp_bind]
  rcases envAlloc_spec h.inv hk (k.envs c).envId with ⟨r, -, heq, -⟩ |
    ⟨e, d, p, heq, -, -, -, hmade, hinv⟩
  · exact wp_of_ok heq h
  · refine wp_of_ok heq ?_
    refine (KernOk.mk hinv fun ht => ?_).setEnv _ rfl rfl
    rw [afterAlloc_dirs]
    exact hmade.bounded (h.bounded ht)

theorem sysEnvSetStatus_safe {status : Word} (h : KernOk M k₀ T k) :
    Safe M k₀ T (sysEnvSetStatus envid status) k := by
  rw [sysEnvSetStatus]
  cases statusArg status with
  | none => exact h
  | some st => exact wp_envid2env nofun h fun e _ => h.setEnv _ rfl rfl

theorem sysEnvSetPgfaultUpcall_safe {func : Word} (h : KernOk M k₀ T k) :
    Safe M k₀ T (sysEnvSetPgfaultUpcall envid func) k :=
  wp_envid2env nofun h fun _ _ => h.setEnv _ rfl rfl

theorem sysIpcRecv_safe (h : KernOk M k₀ T k) :
    Safe M k₀ T (sysIpcRecv dstva) k := by
  rw [sysIpcRecv]
  split
  · exact h
  · refine wp_thisenv nofun fun c _ => ?_
    exact schedYield_safe (h.setEnv _ rfl rfl)

/-! ## Reading and writing user memory -/

theorem pgdirWalk_readOnly (pgdir : ℕ) (va : Word) :
    ReadOnly (· ≠ Panic.pageFree) (pgdirWalk pgdir va false) := by
  have hslot : ReadOnly (· ≠ Panic.pageFree) (pteSlot pgdir va) := by
    refine (ReadOnly.read _).bind fun pde => ReadOnly.bind ?_ fun pt => .pure _
    refine (ReadOnly.read _).bind fun n => ?_
    split
    · exact .panic Panic.noConfusion
    · exact .pure _
  refine (ReadOnly.read _).bind fun pde => ?_
  split
  · exact hslot
  · exact .pure _

theorem userMemLoop_readOnly (pgdir : ℕ) (va perm : Word) {n : ℕ} {i : Word} :
    ReadOnly (· ≠ Panic.pageFree) (userMemLoop pgdir va perm n i) := by
  induction n generalizing i with
  | zero => exact .pure _
  | succ n ih =>
    refine (pgdirWalk_readOnly pgdir i).bind fun pte => (ReadOnly.read _).bind fun bad => ?_
    split
    · exact .pure _
    · exact ih

theorem kernLoad_readOnly (pgdir : ℕ) (va : Word) :
    ReadOnly (· ≠ Panic.pageFree) (kernLoad pgdir va) := by
  refine (ReadOnly.read _).bind fun r => ?_
  cases r with
  | none => exact .panic Panic.noConfusion
  | some p => exact .read _

theorem printStr_readOnly (pgdir n : ℕ) (p : Word) (precision : ℤ) :
    ReadOnly (· ≠ Panic.pageFree) (printStr pgdir n p precision) := by
  induction n generalizing p precision with
  | zero => exact .pure _
  | succ n ih =>
    refine (kernLoad_readOnly pgdir p).bind fun ch => ?_
    split
    · exact .pure _
    · split
      · exact ih _ _
      · split
        · exact ih _ _
        · exact .pure _

theorem pmap_safe_readOnly {m : PmapM α} (hm : ReadOnly (· ≠ Panic.pageFree) m) :
    wp (pmap m) (fun _ k' => k' = k) (fun _ => False) (fun e => e ≠ .pageFree) k := by
  rcases hm k.pm with ⟨a, ha⟩ | ⟨r, hr, hp⟩
  · exact wp_of_ok (pmap_ok ha) rfl
  · exact wp_of_panic (pmap_panic hp) hr

/-- After `user_mem_assert` returns, the state is as before or the environment
was not the current one; either way the invariant holds. -/
theorem userMemAssert_safe {len : Word} (h : KernInv M k₀ k) (hb : Bounded k.dirs k.pm) :
    Safe M k₀ T (userMemAssert e va len perm) k := by
  refine wp_pgdirOf nofun fun d _ => ?_
  rw [wp_bind]
  refine wp_stay (pmap_safe_readOnly (userMemLoop_readOnly d va (perm ||| pteU)))
    (fun r k' hk' => ?_)
  subst hk'
  cases r with
  | none => exact ⟨h, fun _ => hb⟩
  | some a => exact envDestroy_safe h hb

theorem sysCputs_safe {s len : Word} (h : KernInv M k₀ k) (hb : Bounded k.dirs k.pm) :
    Safe M k₀ T (sysCputs s len) k := by
  refine wp_thisenv nofun fun c _ => safe_bind (userMemAssert_safe h hb) fun _ k' hk' => ?_
  refine wp_pgdirOf nofun fun d _ => ?_
  by_cases hs : s ≠ 0#32
  · rw [when_pos hs]
    refine wp_stay (pmap_safe_readOnly (printStr_readOnly d _ s len.toInt))
      (fun _ k'' hk'' => ?_)
    rw [hk'']
    exact hk'
  · rw [when_neg hs]
    exact hk'

/-- Stores into mapped pages: no page table changes. -/
structure Stored (M : ℕ → Prop) (dirs : ℕ → Option ℕ) (p p' : Pmap) : Prop where
  inv : PageInv M dirs p'
  keeps : Keeps M dirs p p'
  view_eq : view dirs p' = view dirs p

theorem Stored.bounded {p' : Pmap} (h : Stored M dirs p p')
    (hb : Bounded dirs p) : Bounded dirs p' := by
  intro r
  rw [h.view_eq]
  exact hb r

theorem Stored.trans {p' p'' : Pmap} (h : Stored M dirs p p')
    (h' : Stored M dirs p' p'') : Stored M dirs p p'' :=
  ⟨h'.inv, h.keeps.trans h'.keeps, h'.view_eq.trans h.view_eq⟩

theorem storeByte_stored {x : ℕ × ℕ × ℕ} {off : ℕ}
    (h : PageInv M dirs p) (hr : (view dirs p).page x = some r) :
    Stored M dirs p (p.storeByte r off b) := by
  have hnd : ∀ e, dirs e ≠ some r := fun e => h.wf.page_ne_dir hr
  have hmem : ∀ q, q ≠ r → (p.storeByte r off b).mem q = p.mem q :=
    fun q hq => mem_setWord_page_of_ne hq
  have hview : view dirs (p.storeByte r off b) = view dirs p :=
    view_of_mem_eq_off hnd (fun y => h.wf.page_ne_table hr) hmem
  refine ⟨⟨h.npages_le, ?_, fun q => le_rfl, ?_⟩, ?_, hview⟩
  · rw [hview]
    exact h.wf
  · rw [hview]
    exact h.book.of_pages rfl rfl rfl
  · exact .of_page ⟨rfl, rfl, rfl⟩ (h.wf.page_managed hr) hnd hmem

/-- An address in the user half reaches the page mapped at its slot. -/
theorem walk_page {need : Word}
    (hdir : dirs e = some pgdir) (hd : pdx va < nupde) (hw : walk p pgdir va need = some r) :
    (view dirs p).page (slot e va) = some r := by
  unfold walk at hw
  simp only at hw
  split at hw
  · rename_i hpde
    split at hw
    · rename_i hpte
      have hq : (view dirs p).table (e, pdx va) = some (pgnum (p.mem pgdir (pdx va))) :=
        view_table_some.2 ⟨pgdir, hdir, hd, hpde.1, rfl⟩
      rw [page, slot, view_pte hq (ptx_lt va), target_eq_some]
      exact ⟨hpte.1, Option.some.inj hw⟩
    · cases hw
  · cases hw

section KernStore

variable {dirs : ℕ → Option ℕ} {p p₀ : Pmap} {c d : ℕ}

/-- The outcomes of kernel stores below `UTOP`, relative to the memory `p₀` they
started from. -/
def StoreSafe (M : ℕ → Prop) (dirs : ℕ → Option ℕ) (p₀ : Pmap) (m : PmapM Unit) (p : Pmap) : Prop :=
  wp m (fun _ p' => Stored M dirs p₀ p') (fun _ => False) (fun r => r ≠ .pageFree) p

theorem StoreSafe.bind {m m' : PmapM Unit} (h : StoreSafe M dirs p₀ m p)
    (h' : ∀ p', Stored M dirs p₀ p' → StoreSafe M dirs p₀ m' p') :
    StoreSafe M dirs p₀ (m >>= fun _ => m') p := by
  rw [StoreSafe, wp_bind]
  exact wp_post h fun _ => h'

theorem kernStore_safe (hdir : dirs c = some d) (hva : va.toNat < utop.toNat)
    (h : Stored M dirs p₀ p) : StoreSafe M dirs p₀ (kernStore d va b) p := by
  rw [StoreSafe, kernStore, wp_bind, wp_read]
  cases hw : walk p d va pteW with
  | none => exact Panic.noConfusion
  | some r => exact h.trans (storeByte_stored h.inv (walk_page hdir (pdx_lt_nupde hva) hw))

theorem kernStoreWord_safe {w : Word} (hdir : dirs c = some d) (hva : va.toNat + 4 ≤ utop.toNat)
    (h : Stored M dirs p₀ p) : StoreSafe M dirs p₀ (kernStoreWord d va w) p := by
  have h1 : (va + 1#32).toNat = va.toNat + 1 := BitVec.toNat_add_of_lt (by simp; omega)
  have h2 : (va + 2#32).toNat = va.toNat + 2 := BitVec.toNat_add_of_lt (by simp; omega)
  have h3 : (va + 3#32).toNat = va.toNat + 3 := BitVec.toNat_add_of_lt (by simp; omega)
  refine (kernStore_safe hdir (by omega) h).bind fun _ h => ?_
  refine (kernStore_safe hdir (by omega) h).bind fun _ h => ?_
  refine (kernStore_safe hdir (by omega) h).bind fun _ h => ?_
  exact kernStore_safe hdir (by omega) h

theorem kernStoreWords_safe (hdir : dirs c = some d) (ws : List Word)
    (hva : va.toNat + 4 * ws.length ≤ utop.toNat) (h : Stored M dirs p₀ p) :
    StoreSafe M dirs p₀ (kernStoreWords d va ws) p := by
  induction ws generalizing va p with
  | nil => exact h
  | cons w ws ih =>
    rw [List.length_cons] at hva
    have h4 : (va + 4#32).toNat % 2 ^ 32 = (va.toNat + 4) % 2 ^ 32 := by
      simp
    refine (kernStoreWord_safe hdir (by omega) h).bind fun p' hp' => ?_
    refine ih ?_ hp'
    by_cases hws : ws.length = 0
    · omega
    · omega

end KernStore

/-! ## Traps -/

theorem utrapframeTop_le (tf : Trapframe) : (utrapframeTop tf).toNat ≤ utop.toNat := by
  unfold utrapframeTop
  split
  · rename_i h
    exact h.2.le
  · exact le_rfl

theorem le_utrapframeTop (tf : Trapframe) : 56 ≤ (utrapframeTop tf).toNat := by
  unfold utrapframeTop
  split
  · rename_i h
    have h1 : (uxstacktop - BitVec.ofNat 32 pgsize).toNat < tf.esp.toNat := h.1
    have h2 : 56 ≤ (uxstacktop - BitVec.ofNat 32 pgsize).toNat := by decide
    omega
  · decide

/-- The frame pushed for a page fault lies below `UTOP`. -/
theorem utrapframe_below (faultVa : Word) (tf : Trapframe) :
    (utrapframeTop tf - utrapframeRoom).toNat + 4 * (utrapframe faultVa tf).length ≤
      utop.toNat := by
  have h1 := utrapframeTop_le tf
  have h2 := le_utrapframeTop tf
  have hroom : utrapframeRoom.toNat = 56 := rfl
  rw [BitVec.toNat_sub_of_le (show utrapframeRoom.toNat ≤ (utrapframeTop tf).toNat by omega)]
  show _ + 4 * 13 ≤ _
  omega

theorem pageFaultHandler_safe (h : KernInv M k₀ k) (hb : Bounded k.dirs k.pm) :
    Safe M k₀ T (pageFaultHandler inp tf) k := by
  rw [pageFaultHandler]
  split
  · exact Panic.noConfusion
  refine wp_thisenv nofun fun c _ => ?_
  rw [wp_bind, wp_read]
  split
  · refine safe_bind (userMemAssert_safe h hb) fun _ k1 h1 => wp_pgdirOf nofun fun d hd => ?_
    have hself : Stored M k1.dirs k1.pm k1.pm := ⟨h1.inv.pages, Keeps.refl _ _ _, rfl⟩
    refine safe_bind (wp_zoom (wp_stay (kernStoreWords_safe hd _
      (utrapframe_below inp.cr2 tf) hself) (fun _ p' hp' => ?_))) fun _ k2 h2 => ?_
    · exact ⟨h1.inv.withPages hp'.inv hp'.keeps, fun ht => hp'.bounded (h1.bounded ht)⟩
    · rw [Safe, wp_bind]
      by_cases hc : c < nenv
      · exact envRun_safe (h2.setEnv _ rfl rfl) hc
      · exact absurd (h1.inv.pages.wf.dir_lt hd) hc
  · exact envDestroy_safe h hb

/-- The permission bits of a call are flag bits. -/
def Call.LowPerm (call : Call) : Prop := ∀ perm, call.permArg = some perm → Jos.LowPerm perm

/-- **Every system call keeps the invariant of the kernel.** -/
theorem runCall_safe (h : KernInv M k₀ k) (hk : KernelHalf M k₀)
    (hb : Bounded k.dirs k.pm) (hperm : call.LowPerm) (hT : T → call.CountOk k) :
    Safe M k₀ T (runCall inp call) k := by
  have hok : KernOk M k₀ T k := ⟨h, fun _ => hb⟩
  cases call with
  | cputs s len => exact safe_bind (sysCputs_safe h hb) fun _ _ hk' => hk'
  | cgetc => exact hok
  | getenvid => exact wp_thisenv nofun fun c _ => hok
  | envDestroy envid => exact sysEnvDestroy_safe h hb
  | yield => exact schedYield_safe hok
  | exofork => exact sysExofork_safe hok hk
  | envSetStatus envid status => exact sysEnvSetStatus_safe hok
  | pageAlloc envid va perm => exact sysPageAlloc_safe h hb (hperm _ rfl)
  | pageMap srcenvid srcva dstenvid dstva perm => exact sysPageMap_safe h hb (hperm _ rfl) hT
  | pageUnmap envid va => exact sysPageUnmap_safe h hb
  | envSetPgfaultUpcall envid func => exact sysEnvSetPgfaultUpcall_safe hok
  | ipcTrySend envid value srcva perm =>
    exact sysIpcTrySend_safe h hb (fun hsrc => hperm perm (if_pos hsrc)) hT
  | ipcRecv dstva => exact sysIpcRecv_safe hok
  | invalid => exact hok

theorem trapReturn_safe (h : KernOk M k₀ T k) : Safe M k₀ T trapReturn k := by
  rw [Safe, trapReturn, wp_bind, wp_read]
  split
  · rename_i c hc
    split
    · exact envRun_safe h (h.inv.curenv_lt c hc)
    · exact schedYield_safe h
  · exact schedYield_safe h

theorem trapDispatch_safe {home : Option ℕ} (h : KernInv M k₀ k)
    (hk : KernelHalf M k₀) (hb : Bounded k.dirs k.pm)
    (hperm : tf.trapno.toNat = tSyscall → tf.call.LowPerm)
    (hT : T → tf.trapno.toNat = tSyscall → tf.call.CountOk k) :
    Safe M k₀ T (trapDispatch inp tf home) k := by
  have hok : KernOk M k₀ T k := ⟨h, fun _ => hb⟩
  rw [trapDispatch]
  split
  · exact pageFaultHandler_safe h hb
  split
  · exact Panic.noConfusion
  split
  · rename_i hsys
    refine safe_bind (runCall_safe h hk hb (hperm hsys) fun ht => hT ht hsys) fun r k' hk' => ?_
    split
    · exact hk'.setEnv _ rfl rfl
    · exact hk'
  split
  · exact hok
  split
  · exact schedYield_safe hok
  split
  · exact Panic.noConfusion
  · exact wp_thisenv nofun fun c _ => envDestroy_safe h hb

/-- Saving the trap frame changes no name and no mapping. -/
theorem Call.CountOk.saveTf (h : call.CountOk k) :
    call.CountOk (k.saveTf c tf) := by
  cases call with
  | pageMap srcenvid srcva dstenvid dstva perm =>
    intro e p hname hpg
    rw [saveTf_dirs] at hpg ⊢
    exact h e p (names_saveTf.1 hname) hpg
  | ipcTrySend envid value srcva perm =>
    intro c' p hc hsrc hpg
    rw [saveTf_dirs] at hpg ⊢
    exact h c' p hc hsrc hpg
  | _ => trivial

/-- **Every trap keeps the invariant of the kernel**, whatever environment it
comes from and whatever is in its registers. -/
theorem trap_safe (inp : Inputs) (tf : Trapframe) (h : KernInv M k₀ k) (hk : KernelHalf M k₀)
    (hb : Bounded k.dirs k.pm) (hperm : tf.trapno.toNat = tSyscall → tf.call.LowPerm)
    (hT : T → tf.trapno.toNat = tSyscall → tf.call.CountOk k) : Safe M k₀ T (trap inp tf) k := by
  rw [trap]
  split
  · rw [Safe, wp_bind, wp_read]
    split
    · exact Panic.noConfusion
    · rw [wp_bind, wp_read]
      split
      · refine safe_bind (envFree_safe h hb) fun _ k' hk' => ?_
        exact schedYield_safe (hk'.withCurenv none fun _ hf => by cases hf)
      · rename_i c _ _
        rw [wp_bind]
        have h1 : KernInv M k₀ (k.saveTf c tf) := h.saveTf c tf
        refine safe_bind (trapDispatch_safe h1 hk ?_ hperm fun ht hsys => ?_) fun _ k' hk' =>
          trapReturn_safe hk'
        · show Bounded (k.saveTf c tf).dirs k.pm
          rw [saveTf_dirs]
          exact hb
        · exact (hT ht hsys).saveTf
  · exact safe_bind (trapDispatch_safe h hk hb hperm hT) fun _ k' hk' => trapReturn_safe hk'

end OsLab.Jos
