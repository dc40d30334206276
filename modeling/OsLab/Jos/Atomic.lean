import OsLab.Jos.EnvMoves
import OsLab.Jos.Solo

/-!
# Calls that fail change nothing

`sys_page_alloc`, `sys_page_map`, `sys_page_unmap` and `sys_exofork` can fail after
they have taken pages from the free list.  When one of them returns a negative
value, everything is as it was, except for the contents of free pages.

* `Restored` says this: the environments, the list of free ones, every `pp_ref`
  and every `pp_link`, the list of free pages and the contents of all others.
* `pageInsert_fails`: `page_insert` fails only when there is no free page, and
  before it has done anything.
* `failed_call_restores` is the result, for all arguments.  Memory that
  `sys_page_alloc` took for the page itself goes back to the front of a list that is
  empty by then, so the list is the same.
-/

namespace OsLab.Jos

open Exec Function

/-- The page is on the list of free pages. -/
def Pmap.OnFreeList (p : Pmap) (pp : ℕ) : Prop := ∃ l, IsChain p.link p.pageFreeList l ∧ pp ∈ l

/-- **Nothing has changed**, except perhaps the contents of free pages. -/
structure Restored (k k' : Kern) : Prop where
  envs : k'.envs = k.envs
  envFreeList : k'.envFreeList = k.envFreeList
  curenv : k'.curenv = k.curenv
  /-- The same reference counts and the same links. -/
  pages : k'.pm.pages = k.pm.pages
  pageFreeList : k'.pm.pageFreeList = k.pm.pageFreeList
  mem : ∀ pp, ¬ k.pm.OnFreeList pp → k'.pm.mem pp = k.pm.mem pp
  /-- In particular the same page directories and page tables. -/
  dir : ∀ e d, k.dirs e = some d → k'.pm.mem d = k.pm.mem d
  table : ∀ x q, (view k.dirs k.pm).table x = some q → k'.pm.mem q = k.pm.mem q

/-- The calls in question. -/
def Call.Maps : Call → Prop
  | .pageAlloc _ _ _ | .pageMap _ _ _ _ _ | .pageUnmap _ _ | .exofork => True
  | _ => False

section Pages

variable {M : ℕ → Prop} {dirs : ℕ → Option ℕ} {p p' : Pmap} {pgdir pp : ℕ} {va perm : Word} {r : ℤ}

/-- The last line of `pgdir_walk` does not return a null pointer. -/
theorem pteSlot_found :
    wp (pteSlot pgdir va) (fun o _ => o ≠ none) (fun _ => True) (fun _ => True) p := by
  rw [pteSlot, wp_bind, wp_read, wp_bind]
  exact wp_post wp_trivial (fun _ _ _ => Option.some_ne_none _)

/-- `pgdir_walk`, asked to create the table, finds no slot only if there is no page
for it. -/
theorem pgdirWalk_fails : wp (pgdirWalk pgdir va true)
    (fun o p' => o = none → p' = p ∧ p.pageFreeList = none) (fun _ => True) (fun _ => True) p := by
  have hfound : ∀ p', wp (pteSlot pgdir va) (fun o p' => o = none → p' = p ∧ p.pageFreeList = none)
      (fun _ => True) (fun _ => True) p' := fun p' =>
    wp_post pteSlot_found (fun _ _ hne h => absurd h hne)
  rw [pgdirWalk, wp_bind, wp_read]
  split
  · exact hfound p
  rw [if_pos rfl, wp_bind]
  refine wp_stay pageAlloc_takes (fun o p1 h1 => ?_)
  rcases h1 with ⟨rfl, rfl, hfree⟩ | ⟨q, rfl, rfl, -⟩
  · exact fun _ => ⟨rfl, hfree⟩
  · rw [wp_bind, pageIncref]
    exact hfound _

/-- **`page_insert` fails** only if there is no page for the table, and then at once. -/
theorem pageInsert_fails : wp (pageInsert pgdir pp va perm)
    (fun r p' => r < 0 → p' = p ∧ p.pageFreeList = none) (fun _ => True) (fun _ => True) p := by
  rw [pageInsert, wp_bind]
  refine wp_post pgdirWalk_fails (fun o p1 h1 => ?_)
  cases o with
  | none => exact fun _ => h1 rfl
  | some pte =>
    rw [wp_bind, pageIncref, wp_modify, wp_bind, wp_read, wp_bind]
    refine wp_post wp_trivial (fun _ p2 _ => ?_)
    exact fun h => absurd h (by decide)

/-- A page that was taken goes back. -/
theorem pageFree_taken (hfree : p.pageFreeList = some pp) :
    wp (pageFree pp) (fun _ p' => p'.pages = p.pages ∧ p'.pageFreeList = p.pageFreeList ∧
      p'.mem = (taken p pp).mem) (fun _ => True) (fun _ => True) (taken p pp) := by
  rw [pageFree, wp_bind, wp_read]
  split
  · trivial
  refine ⟨?_, hfree.symm, rfl⟩
  simp only [taken, Pmap.setLink, Pmap.zeroPage, update_self, update_idem]
  exact update_eq_self ..

theorem pageLookup_readOnly (pgdir : ℕ) (va : Word) :
    ReadOnly (· ≠ Panic.pageFree) (pageLookup pgdir va) := by
  refine (pgdirWalk_readOnly pgdir va).bind fun o => ?_
  cases o with
  | none => exact .pure _
  | some pte =>
    refine (ReadOnly.read _).bind fun w => ?_
    split
    · exact .pure _
    refine ReadOnly.bind ?_ fun pp => .pure _
    refine (ReadOnly.read _).bind fun n => ?_
    split
    · exact .panic Panic.noConfusion
    · exact .pure _

end Pages

/-! ## The calls -/

section Calls

variable {M : ℕ → Prop} {k k' : Kern}

theorem Restored.refl (k : Kern) : Restored k k :=
  ⟨rfl, rfl, rfl, rfl, rfl, fun _ _ => rfl, fun _ _ _ => rfl, fun _ _ _ => rfl⟩

/-- A page that is referenced is not free. -/
theorem not_onFreeList (h : PageInv M k.dirs k.pm) {pp : ℕ} (hpp : (view k.dirs k.pm).refs pp ≠ 0) :
    ¬ k.pm.OnFreeList pp := by
  rintro ⟨l, hl, hmem⟩
  obtain ⟨l', hl', hfree⟩ := h.book.free
  obtain rfl := hl.det hl'
  exact hpp ((hfree pp).1 hmem).2.1

/-- The page at the head of the list has been taken and given back. -/
theorem PageInv.restored (h : PageInv M k.dirs k.pm) {pp : ℕ} {p : Pmap}
    (hfree : k.pm.pageFreeList = some pp) (hp : p.pages = k.pm.pages ∧
      p.pageFreeList = k.pm.pageFreeList ∧ p.mem = (taken k.pm pp).mem) :
    Restored k { k with pm := p } := by
  obtain ⟨hpages, hlist, hmem⟩ := hp
  obtain ⟨l, hl, hM⟩ := h.book.free
  have hpp : pp ∈ l := hl.head_mem hfree
  have hnum : pgnum (page2pa pp) = pp := pgnum_page2pa (h.managed_lt ((hM pp).1 hpp).1)
  have hkept : ∀ q, ¬ k.pm.OnFreeList q → p.mem q = k.pm.mem q := by
    intro q hq
    have hne : q ≠ pp := fun he => hq ⟨l, hl, he ▸ hpp⟩
    rw [hmem, taken, hnum]
    exact update_of_ne hne ..
  refine ⟨rfl, rfl, rfl, hpages, hlist, hkept, fun e d hd => hkept d ?_, fun x q hq => hkept q ?_⟩
  · have hd' : (view k.dirs k.pm).dir e = some d := hd
    exact not_onFreeList h (by rw [h.wf.refs_dir hd']; decide)
  · exact not_onFreeList h (by rw [h.wf.refs_table hq]; decide)

/-- The code, if it returns a negative value, has changed nothing. -/
def Undoes (m : KernM ℤ) (k : Kern) : Prop :=
  wp m (fun r k' => r < 0 → Restored k k') (fun _ => True) (fun _ => True) k

theorem undoes_pure : Undoes (pure r) k := fun _ => Restored.refl k

/-- A name that is not good is refused. -/
theorem undoes_envid2env {envid : Word} {cp : Bool} {f : Except ℤ ℕ → KernM ℤ}
    (herr : ∀ r, f (.error r) = pure r) (hf : ∀ e, Undoes (f (.ok e)) k) :
    Undoes (envid2env envid cp >>= f) k :=
  wp_envid2env trivial (by rw [herr]; exact undoes_pure) fun e _ => hf e

theorem undoes_pgdirOf {e : ℕ} {f : ℕ → KernM ℤ} (hf : ∀ d, Undoes (f d) k) :
    Undoes (pgdirOf e >>= f) k :=
  wp_pgdirOf trivial fun d _ => hf d

theorem undoes_pageLookup {pgdir : ℕ} {va : Word} {f : Option (ℕ × PtePtr) → KernM ℤ}
    (hf : ∀ o, Undoes (f o) k) : Undoes (pmap (pageLookup pgdir va) >>= f) k := by
  rw [Undoes, wp_bind]
  rcases pageLookup_readOnly pgdir va k.pm with ⟨o, ho⟩ | ⟨e, -, he⟩
  · exact wp_of_ok (pmap_ok ho) (hf o)
  · exact wp_of_panic (pmap_panic he) trivial

theorem undoes_pageInsert (pgdir : ℕ) :
    Undoes (pmap (pageInsert pgdir pp va perm)) k := by
  refine wp_zoom (wp_post pageInsert_fails (fun r p' h hr => ?_))
  obtain ⟨rfl, -⟩ := h hr
  exact Restored.refl k

/-- **`sys_page_alloc`** gives back the page if there is none for the table. -/
theorem sysPageAlloc_undoes (h : PageInv M k.dirs k.pm) (envid va perm : Word) :
    Undoes (sysPageAlloc envid va perm) k := by
  refine undoes_envid2env (fun _ => rfl) fun e => ?_
  show Undoes (if BadVa va then _ else _) k
  split
  · exact undoes_pure
  split
  · exact undoes_pure
  rw [Undoes, wp_bind]
  refine wp_zoom (wp_stay pageAlloc_takes (fun o p1 h1 => ?_))
  rcases h1 with ⟨rfl, rfl, -⟩ | ⟨pp, rfl, rfl, hfree⟩
  · exact undoes_pure
  have hdirs : ({ k with pm := taken k.pm pp } : Kern).dirs e = k.dirs e := rfl
  rw [wp_bind, pgdirOf, wp_bind, wp_read, hdirs]
  cases k.dirs e with
  | none => trivial
  | some d =>
    rw [wp_pure, wp_bind]
    refine wp_zoom (wp_post pageInsert_fails (fun r p2 h2 => ?_))
    split
    · rw [wp_bind]
      by_cases hr : r < 0
      · obtain ⟨rfl, -⟩ := h2 hr
        refine wp_zoom (wp_post (pageFree_taken hfree) (fun _ p3 h3 _ => ?_))
        exact h.restored hfree h3
      · exact wp_post wp_trivial (fun _ _ _ hr' => absurd hr' hr)
    · exact fun hr => absurd hr (by decide)

/-- **`sys_page_map`** does nothing before `page_insert`. -/
theorem sysPageMap_undoes {srcva dstenvid dstva : Word} (srcenvid : Word) :
    Undoes (sysPageMap srcenvid srcva dstenvid dstva perm) k := by
  refine undoes_envid2env (fun _ => rfl) fun se => undoes_envid2env (fun _ => rfl) fun de => ?_
  show Undoes (if _ then _ else _) k
  split
  · exact undoes_pure
  refine undoes_pgdirOf fun sdir => undoes_pageLookup fun o => ?_
  cases o with
  | none => exact undoes_pure
  | some x =>
    show Undoes (if BadPerm perm then _ else _) k
    split
    · exact undoes_pure
    rw [Undoes, wp_bind, wp_read]
    split
    · exact undoes_pure
    · exact undoes_pgdirOf fun ddir => undoes_pageInsert ..

theorem sysPageUnmap_undoes (envid va : Word) : Undoes (sysPageUnmap envid va) k := by
  refine undoes_envid2env (fun _ => rfl) fun e => ?_
  show Undoes (if BadVa va then _ else _) k
  split
  · exact undoes_pure
  refine undoes_pgdirOf fun pgdir => ?_
  rw [Undoes, wp_bind]
  exact wp_post wp_trivial (fun _ _ _ hr => absurd hr (by decide))

/-- **`sys_exofork`** fails without an environment or without a page for the directory,
and the identifier it returns otherwise is positive. -/
theorem sysExofork_undoes (hlt : ∀ e, k.envFreeList = some e → e < nenv) : Undoes sysExofork k := by
  refine wp_thisenv trivial fun c _ => ?_
  rw [wp_bind, wp_read, wp_bind]
  refine wp_mono (envAlloc_moves _) (fun r k1 h1 => ?_) (fun _ _ => trivial)
  rcases h1 with ⟨x, -, rfl, rfl⟩ | ⟨e, d, p, rfl, hfree, rfl⟩
  · exact fun _ => Restored.refl k1
  · intro hneg
    have hpos := nextEnvId_pos (k.envs e).envId (hlt e hfree)
    simp only [afterAlloc, setEnv_envs_self] at hneg
    omega

/-- **A call that fails has changed nothing.**  For every state in which the pages
are accounted for, and all arguments: if the call returns a negative value, then
everything is as before but the contents of free pages. -/
theorem failed_call_restores (M : ℕ → Prop) (k : Kern) (h : PageInv M k.dirs k.pm)
    (hlt : ∀ e, k.envFreeList = some e → e < nenv) (inp : Inputs) (call : Call) (hcall : call.Maps)
    (r : ℤ) (k' : Kern) (hrun : runCall inp call k = .ok r k') (hr : r < 0) : Restored k k' := by
  have hundo : Undoes (runCall inp call) k := by
    cases call with
    | pageAlloc envid va perm => exact sysPageAlloc_undoes h envid va perm
    | pageMap srcenvid srcva dstenvid dstva perm => exact sysPageMap_undoes ..
    | pageUnmap envid va => exact sysPageUnmap_undoes envid va
    | exofork => exact sysExofork_undoes hlt
    | _ => exact hcall.elim
  rw [Undoes, wp, hrun] at hundo
  exact hundo hr

end Calls

/-- The first program asks for a page at an address that is not its own. -/
theorem failed_call_restores_solo : ∃ k k', runCall ⟨0#32, 0, none⟩ (.pageAlloc 0#32 utop 7#32) k =
    .ok (-eInval) k' ∧ Restored k k' := by
  obtain ⟨k0, m, pp, -, hsolo, -⟩ := exists_solo smallPc 0 rfl (by decide)
  have hrun : runCall ⟨0#32, 0, none⟩ (.pageAlloc 0#32 utop 7#32) (m.on 0) = .ok (-eInval) (m.on 0) := by
    show sysPageAlloc 0#32 utop 7#32 (m.on 0) = _
    rw [sysPageAlloc, bind_ok (envid2env_self hsolo.cpu true)]
    have hva : BadVa utop := by decide
    simp only
    rw [if_pos hva, pure_apply]
  have hlt : ∀ e, (m.on 0).envFreeList = some e → e < nenv := by
    intro e he
    obtain ⟨l, hl, hfree⟩ := hsolo.inv.freeEnvs
    exact (hfree e (hl.head_mem he)).1
  exact ⟨m.on 0, m.on 0, hrun, failed_call_restores _ (m.on 0) hsolo.inv.pages hlt _
    (.pageAlloc 0#32 utop 7#32) trivial _ _ hrun (by decide)⟩

end OsLab.Jos
