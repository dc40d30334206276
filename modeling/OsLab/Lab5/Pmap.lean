import OsLab.Jos.Book

/-!
# The page tables of the earlier laboratory: `lab5/kern/pmap.c`

The functions of `lab5/kern/pmap.c` that edit page tables, over the same memory as those of
`oslab6/kern/pmap.c`, and how far the two versions agree.

* `agree_iff`: along every sequence of calls, from any state, the two do the same and treat
  addresses without a page as such if and only if no `page_lookup` or `page_remove` meets a page
  table whose entry for the address is empty;
* `page_remove_hole`: there `page_lookup` of the earlier version returns `&pages[0]`, and
  `page_remove` drops a reference to page 0.
-/

namespace OsLab.Lab5

open Exec Jos

/-! ## The code -/

/-- `page_alloc(alloc_flags)`. -/
def pageAlloc (zero : Bool) : PmapM (Option ℕ) := do
  match ← read Pmap.pageFreeList with
  | none => pure none
  | some result =>
    modify fun k => { k with pageFreeList := (k.pages result).ppLink }
    modify fun k => k.setLink result none
    if zero then
      let p ← kaddr (page2pa result)
      modify fun k => k.zeroPage p
      pure (some result)
    else pure (some result)

/-- `page_free(pp)`: the two conditions are assertions. -/
def pageFree (pp : ℕ) : PmapM Unit := do
  let ref ← read fun k => (k.pages pp).ppRef
  if ref ≠ 0#16 then panic .pageFree
  else
    let link ← read fun k => (k.pages pp).ppLink
    if link ≠ none then panic .pageFree
    else modify fun k => { k.setLink pp k.pageFreeList with pageFreeList := some pp }

/-- `page_decref(pp)`. -/
def pageDecref (pp : ℕ) : PmapM Unit := do
  modify fun k => k.setRef pp ((k.pages pp).ppRef - 1#16)
  let r ← read fun k => (k.pages pp).ppRef
  if r = 0#16 then pageFree pp else pure ()

/-- `pgdir_walk(pgdir, va, create)`. -/
def pgdirWalk (pgdir : ℕ) (va : Word) (create : Bool) : PmapM (Option PtePtr) := do
  let pde ← read fun k => k.mem pgdir (pdx va)
  if Present pde then pteSlot pgdir va
  else if create then
    match ← pageAlloc true with
    | none => pure none
    | some newPage =>
      pageIncref newPage
      modify fun k => k.setWord pgdir (pdx va) (page2pa newPage ||| pteP ||| pteW ||| pteU)
      pteSlot pgdir va
  else pure none

/-- `page_lookup(pgdir, va, pte_store)`.  The entry is not looked at. -/
def pageLookup (pgdir : ℕ) (va : Word) : PmapM (Option (ℕ × PtePtr)) := do
  match ← pgdirWalk pgdir va false with
  | none => pure none
  | some entry =>
    let w ← read fun k => k.mem entry.1 entry.2
    let pp ← pa2page w
    pure (some (pp, entry))

/-- `page_remove(pgdir, va)`. -/
def pageRemove (pgdir : ℕ) (va : Word) : PmapM Unit := do
  let found ← pageLookup pgdir va
  let entry ← pgdirWalk pgdir va false
  match found with
  | none => pure ()
  | some (pp, _) =>
    pageDecref pp
    match entry with
    | none => pure ()
    | some entry => modify fun k => k.setWord entry.1 entry.2 0#32

/-- `page_insert(pgdir, pp, va, perm)`. -/
def pageInsert (pgdir pp : ℕ) (va perm : Word) : PmapM ℤ := do
  match ← pgdirWalk pgdir va true with
  | none => pure (-eNoMem)
  | some entry =>
    pageIncref pp
    let w ← read fun k => k.mem entry.1 entry.2
    when (Present w) (pageRemove pgdir va)
    modify fun k => k.setWord entry.1 entry.2 (mkPte pp perm)
    modify fun k => k.setWord pgdir (pdx va) (k.mem pgdir (pdx va) ||| perm)
    pure 0

/-! ## Sequences of calls -/

/-- A call of one of the six functions, on a fixed page directory. -/
inductive Op where
  | alloc (zero : Bool)
  | free (pp : ℕ)
  | walk (va : Word) (create : Bool)
  | insert (pp : ℕ) (va perm : Word)
  | lookup (va : Word)
  | remove (va : Word)

/-- What a call returns. -/
inductive Reply where
  | page (pp : Option ℕ)
  | slot (pte : Option PtePtr)
  | code (r : ℤ)
  | found (pg : Option (ℕ × PtePtr))
  | done

/-- The six functions in one of the two versions. -/
structure Version where
  alloc : Bool → PmapM (Option ℕ)
  free : ℕ → PmapM Unit
  walk : ℕ → Word → Bool → PmapM (Option PtePtr)
  insert : ℕ → ℕ → Word → Word → PmapM ℤ
  lookup : ℕ → Word → PmapM (Option (ℕ × PtePtr))
  remove : ℕ → Word → PmapM Unit

def lab5 : Version := ⟨pageAlloc, pageFree, pgdirWalk, pageInsert, pageLookup, pageRemove⟩

def oslab6 : Version :=
  ⟨Jos.pageAlloc, Jos.pageFree, Jos.pgdirWalk, Jos.pageInsert, Jos.pageLookup, Jos.pageRemove⟩

namespace Version

/-- One call. -/
def exec (v : Version) (pgdir : ℕ) : Op → PmapM Reply
  | .alloc zero => do return .page (← v.alloc zero)
  | .free pp => do v.free pp; return .done
  | .walk va create => do return .slot (← v.walk pgdir va create)
  | .insert pp va perm => do return .code (← v.insert pgdir pp va perm)
  | .lookup va => do return .found (← v.lookup pgdir va)
  | .remove va => do v.remove pgdir va; return .done

/-- Several calls, with what they return. -/
def run (v : Version) (pgdir : ℕ) : List Op → PmapM (List Reply)
  | [] => pure []
  | op :: ops => do
    let r ← v.exec pgdir op
    let rs ← v.run pgdir ops
    return r :: rs

end Version

/-- The entry for `va`, if there is a page table for it. -/
def entryAt (pgdir : ℕ) (va : Word) (k : Pmap) : Option Word :=
  if Present (k.mem pgdir (pdx va)) then
    some (k.mem (pgnum (pteAddr (k.mem pgdir (pdx va)))) (ptx va))
  else none

/-- A page is mapped at `va`. -/
def HasPage (pgdir : ℕ) (va : Word) (k : Pmap) : Prop := ∃ w, entryAt pgdir va k = some w ∧ Present w

/-- The call looks up or removes an address that has a page table but no page. -/
def Hole (pgdir : ℕ) (op : Op) (k : Pmap) : Prop :=
  match op with
  | .lookup va | .remove va => ∃ w, entryAt pgdir va k = some w ∧ ¬ Present w
  | _ => False

/-- **The two versions agree on a sequence of calls**: after every part of it they have returned the
same and reached the same state, and an address without a page is treated as one. -/
structure Agree (pgdir : ℕ) (ops : List Op) (k : Pmap) : Prop where
  same : ∀ pre, pre <+: ops → lab5.run pgdir pre k = oslab6.run pgdir pre k
  lookup_null : ∀ pre va post rs k', ops = pre ++ .lookup va :: post →
    oslab6.run pgdir pre k = .ok rs k' → ¬ HasPage pgdir va k' →
    lab5.lookup pgdir va k' = .ok none k' ∧ oslab6.lookup pgdir va k' = .ok none k'
  remove_nothing : ∀ pre va post rs k', ops = pre ++ .remove va :: post →
    oslab6.run pgdir pre k = .ok rs k' → ¬ HasPage pgdir va k' →
    lab5.remove pgdir va k' = .ok () k' ∧ oslab6.remove pgdir va k' = .ok () k'

/-- No call of the sequence meets a hole. -/
def Spares (pgdir : ℕ) (ops : List Op) (k : Pmap) : Prop :=
  ∀ pre op post rs k', ops = pre ++ op :: post → oslab6.run pgdir pre k = .ok rs k' → ¬ Hole pgdir op k'

/-! ## The functions that are the same -/

theorem pageAlloc_eq : pageAlloc = Jos.pageAlloc := rfl

theorem pageFree_eq : pageFree = Jos.pageFree := by
  funext pp k
  simp only [pageFree, Jos.pageFree, bind_apply, read_apply]
  by_cases hr : (k.pages pp).ppRef ≠ 0#16
  · rw [if_pos hr, if_pos (Or.inl hr)]
  · rw [if_neg hr]
    by_cases hl : (k.pages pp).ppLink ≠ none
    · rw [if_pos (Or.inr hl)]
      exact congrFun (if_pos hl) k
    · rw [if_neg (not_or_intro hr hl)]
      exact congrFun (if_neg hl) k

theorem pageDecref_eq : pageDecref = Jos.pageDecref := by
  funext pp
  rw [pageDecref, Jos.pageDecref, pageFree_eq]

theorem pgdirWalk_eq : pgdirWalk = Jos.pgdirWalk := by
  have hflags : ∀ pp : ℕ, page2pa pp ||| pteP ||| pteW ||| pteU = page2pa pp ||| pteP ||| pteU ||| pteW :=
    fun pp => by rw [BitVec.or_assoc, BitVec.or_comm pteW, ← BitVec.or_assoc]
  funext pgdir va create
  have hwalk := pgdirWalk.eq_1 pgdir va create
  simp only [pageAlloc_eq, hflags] at hwalk
  exact hwalk

/-! ## `page_lookup` and `page_remove` -/

variable {k' : Pmap}

section Lookup

variable {pgdir : ℕ} {va w : Word} {k : Pmap}

/-- The page table entry is found, unless the directory entry is not a page of memory. -/
theorem pgdirWalk_entry (h : entryAt pgdir va k = some w) :
    Jos.pgdirWalk pgdir va false k = .panic .kaddr ∨
      ∃ p t, Jos.pgdirWalk pgdir va false k = .ok (some (p, t)) k ∧ k.mem p t = w := by
  rw [entryAt] at h
  split_ifs at h with hp
  rw [Jos.pgdirWalk]
  simp only [if_pos hp, pteSlot, kaddr, bind_apply, read_apply]
  by_cases hn : k.npages ≤ pgnum (pteAddr (k.mem pgdir (pdx va)))
  · exact Or.inl (by rw [if_pos hn]; rfl)
  · exact Or.inr ⟨_, _, by rw [if_neg hn]; rfl, Option.some.inj h⟩

theorem pgdirWalk_none (h : entryAt pgdir va k = none) : Jos.pgdirWalk pgdir va false k = .ok none k := by
  rw [entryAt] at h
  split_ifs at h with hp
  rw [Jos.pgdirWalk, bind_apply, read_apply]
  simp only [if_neg hp]
  rfl

theorem pgnum_pteAddr : pgnum (pteAddr w) = pgnum w := by
  rw [pteAddr_eq, pgnum_page2pa (pgnum_lt w)]

theorem pageLookup_none (h : entryAt pgdir va k = none) : Jos.pageLookup pgdir va k = .ok none k := by
  rw [Jos.pageLookup, bind_ok (pgdirWalk_none h)]
  rfl

theorem pageRemove_none (h : entryAt pgdir va k = none) : Jos.pageRemove pgdir va k = .ok () k := by
  rw [Jos.pageRemove, bind_ok (pageLookup_none h)]
  rfl

/-- On an entry that is not zero the two lookups are one. -/
theorem pageLookup_eq (h : entryAt pgdir va k ≠ some 0#32) :
    pageLookup pgdir va k = Jos.pageLookup pgdir va k := by
  rw [pageLookup, Jos.pageLookup, pgdirWalk_eq]
  cases he : entryAt pgdir va k with
  | none => rw [bind_ok (pgdirWalk_none he), bind_ok (pgdirWalk_none he)]
  | some w =>
    rcases pgdirWalk_entry he with hpanic | ⟨p, t, hok, hw⟩
    · rw [bind_panic hpanic, bind_panic hpanic]
    · rw [bind_ok hok, bind_ok hok]
      have hne : k.mem p t ≠ 0#32 := fun h0 => h (by rw [he, ← hw, h0])
      simp only [bind_apply, read_apply, if_neg hne, pa2page, pgnum_pteAddr]

/-- What the earlier lookup does where there is a page table. -/
theorem pageLookup_entry (h : entryAt pgdir va k = some w) :
    (∃ e, pageLookup pgdir va k = .panic e) ∨
      ∃ p t, Jos.pgdirWalk pgdir va false k = .ok (some (p, t)) k ∧
        pageLookup pgdir va k = .ok (some (pgnum w, (p, t))) k := by
  rw [pageLookup, pgdirWalk_eq]
  rcases pgdirWalk_entry h with hpanic | ⟨p, t, hok, hw⟩
  · exact Or.inl ⟨_, bind_panic hpanic⟩
  · rw [bind_ok hok]
    simp only [bind_apply, read_apply, hw, pa2page]
    by_cases hn : k.npages ≤ pgnum w
    · exact Or.inl ⟨_, by rw [if_pos hn]; rfl⟩
    · exact Or.inr ⟨p, t, hok, by rw [if_neg hn]; rfl⟩

theorem pageRemove_eq (h : entryAt pgdir va k ≠ some 0#32) :
    pageRemove pgdir va k = Jos.pageRemove pgdir va k := by
  rw [pageRemove, Jos.pageRemove, pgdirWalk_eq, pageDecref_eq]
  cases he : entryAt pgdir va k with
  | none =>
    have hl := pageLookup_none he
    rw [bind_ok ((pageLookup_eq h).trans hl), bind_ok hl, bind_ok (pgdirWalk_none he)]
  | some w =>
    rcases pageLookup_entry he with ⟨e, hl⟩ | ⟨p, t, hw, hl⟩
    · rw [bind_panic hl, bind_panic ((pageLookup_eq h).symm.trans hl)]
    · rw [bind_ok hl, bind_ok ((pageLookup_eq h).symm.trans hl), bind_ok hw]

theorem pageDecref_ppRef {pp : ℕ} (h : Jos.pageDecref pp k = .ok () k') :
    (k'.pages pp).ppRef = (k.pages pp).ppRef - 1#16 := by
  have hset : ((k.setRef pp ((k.pages pp).ppRef - 1#16)).pages pp).ppRef = (k.pages pp).ppRef - 1#16 := by
    rw [Pmap.setRef_ppRef, if_pos rfl]
  simp only [Jos.pageDecref, bind_apply, modify_apply, read_apply] at h
  split_ifs at h
  · simp only [Jos.pageFree, bind_apply, read_apply] at h
    split_ifs at h
    · cases h
    · rw [← (Outcome.ok.inj h).2]
      exact (Pmap.setLink_ppRef _ _ _ _).trans hset
  · rw [← (Outcome.ok.inj h).2, hset]

/-- Where there is a page table, the earlier `page_remove` drops a reference. -/
theorem pageRemove_entry (h : entryAt pgdir va k = some w) : pageRemove pgdir va k ≠ .ok () k := by
  intro hr
  rw [pageRemove, pgdirWalk_eq, pageDecref_eq] at hr
  rcases pageLookup_entry h with ⟨e, hl⟩ | ⟨p, t, hw, hl⟩
  · rw [bind_panic hl] at hr
    cases hr
  · rw [bind_ok hl, bind_ok hw] at hr
    obtain ⟨_, k1, hd, hk⟩ := bind_eq_ok.1 hr
    have hk' : k1.setWord p t 0#32 = k := (Outcome.ok.inj hk).2
    have hpages : (k1.setWord p t 0#32).pages = k.pages := congrArg Pmap.pages hk'
    have href := pageDecref_ppRef hd
    rw [show k1.pages = k.pages from hpages] at href
    exact absurd href (by bv_omega)

/-- The slot that `pgdir_walk` returns is the one of the entry. -/
theorem entryAt_pgdirWalk {create : Bool} {pte : PtePtr}
    (h : Jos.pgdirWalk pgdir va create k = .ok (some pte) k') :
    entryAt pgdir va k' = some (k'.mem pte.1 pte.2) := by
  -- the slot is computed from the directory entry of the state it is returned in
  have hslot : ∀ {k1 : Pmap}, Present (k1.mem pgdir (pdx va)) →
      pteSlot pgdir va k1 = .ok (some pte) k' → entryAt pgdir va k' = some (k'.mem pte.1 pte.2) := by
    intro k1 hp hs
    simp only [pteSlot, kaddr, bind_apply, read_apply] at hs
    split_ifs at hs
    · cases hs
    · obtain ⟨hpte, rfl⟩ := Outcome.ok.inj hs
      rw [entryAt, if_pos hp, ← Option.some.inj hpte]
  simp only [Jos.pgdirWalk, bind_apply, read_apply] at h
  split_ifs at h with hp hc
  · exact hslot hp h
  · rw [bind_apply] at h
    cases ha : Jos.pageAlloc true k with
    | panic | leave => rw [ha] at h; cases h
    | ok pp k1 =>
      rw [ha] at h
      cases pp with
      | none => cases h
      | some pp =>
        refine hslot ?_ h
        simp only [Pmap.setWord, Function.update_self]
        exact present_or (present_or present_or_pteP _) _
  · cases h

theorem pageInsert_eq : pageInsert = Jos.pageInsert := by
  funext pgdir pp va perm k
  rw [pageInsert, Jos.pageInsert, pgdirWalk_eq]
  cases hw : Jos.pgdirWalk pgdir va true k with
  | panic e => rw [bind_panic hw, bind_panic hw]
  | leave k' => rw [bind_leave hw, bind_leave hw]
  | ok pte k' =>
    rw [bind_ok hw, bind_ok hw]
    cases pte with
    | none => rfl
    | some pte =>
      simp only [bind_apply, read_apply, pageIncref, modify_apply]
      by_cases hp : Present ((k'.setRef pp ((k'.pages pp).ppRef + 1#16)).mem pte.1 pte.2)
      · rw [when_pos hp, when_pos hp, pageRemove_eq]
        have he : entryAt pgdir va (k'.setRef pp ((k'.pages pp).ppRef + 1#16)) =
            some (k'.mem pte.1 pte.2) := (entryAt_pgdirWalk hw :)
        rw [he]
        exact fun h0 => ne_zero_of_present hp (Option.some.inj h0)
      · rw [when_neg hp, when_neg hp]

end Lookup

/-! ## Agreement -/

section Agreement

variable {pgdir : ℕ} {op : Op} {ops : List Op} {k : Pmap}

/-- A call that meets no hole does the same in both versions. -/
theorem exec_eq (h : ¬ Hole pgdir op k) : lab5.exec pgdir op k = oslab6.exec pgdir op k := by
  have hne : ∀ va, (∀ w, entryAt pgdir va k = some w → Present w) → entryAt pgdir va k ≠ some 0#32 :=
    fun va hp h0 => absurd (hp _ h0) (by decide)
  cases op with
  | alloc zero => rfl
  | free pp => simp only [Version.exec, lab5, oslab6, pageFree_eq]
  | walk va create => simp only [Version.exec, lab5, oslab6, pgdirWalk_eq]
  | insert pp va perm => simp only [Version.exec, lab5, oslab6, pageInsert_eq]
  | lookup va =>
    have he := pageLookup_eq (hne va fun w hw => by_contra fun hp => h ⟨w, hw, hp⟩)
    simp only [Version.exec, lab5, oslab6, bind_apply, he]
  | remove va =>
    have he := pageRemove_eq (hne va fun w hw => by_contra fun hp => h ⟨w, hw, hp⟩)
    simp only [Version.exec, lab5, oslab6, bind_apply, he]

theorem Spares.head (h : Spares pgdir (op :: ops) k) : ¬ Hole pgdir op k :=
  h [] op ops [] k rfl rfl

theorem Spares.tail (h : Spares pgdir (op :: ops) k) {r : Reply}
    (hop : oslab6.exec pgdir op k = .ok r k') : Spares pgdir ops k' := by
  rintro pre op' post rs k'' rfl hpre
  refine h (op :: pre) op' post (r :: rs) k'' rfl ?_
  rw [Version.run, bind_ok hop, bind_ok hpre]
  rfl

theorem Spares.pre (h : Spares pgdir ops k) {pre : List Op} (hpre : pre <+: ops) : Spares pgdir pre k := by
  obtain ⟨rest, rfl⟩ := hpre
  rintro pre' op post rs k' rfl hrun
  exact h pre' op (post ++ rest) rs k' (by rw [List.append_assoc, List.cons_append]) hrun

theorem Spares.run_eq (h : Spares pgdir ops k) : lab5.run pgdir ops k = oslab6.run pgdir ops k := by
  induction ops generalizing k with
  | nil => rfl
  | cons op ops ih =>
    have hop := exec_eq h.head
    rw [Version.run, Version.run, bind_apply, bind_apply, hop]
    cases hr : oslab6.exec pgdir op k with
    | ok r k' =>
      simp only [bind_apply, ih (h.tail hr)]
    | leave k' => rfl
    | panic e => rfl

end Agreement

/-- **When the two versions agree.**  For every sequence of calls from every state, the two versions
return the same, reach the same states and treat addresses without a page as such, if and only if
no lookup or removal of the sequence meets a page table with an empty entry. -/
theorem agree_iff (pgdir : ℕ) (ops : List Op) (k : Pmap) : Agree pgdir ops k ↔ Spares pgdir ops k := by
  constructor
  · intro h pre op post rs k' hops hpre hhole
    cases op with
    | lookup va =>
      obtain ⟨w, hw, hp⟩ := hhole
      have hno : ¬ HasPage pgdir va k' := by
        rintro ⟨w', hw', hp'⟩
        rw [hw] at hw'
        exact hp (Option.some.inj hw' ▸ hp')
      have hnull : pageLookup pgdir va k' = .ok none k' := (h.lookup_null pre va post rs k' hops hpre hno).1
      rcases pageLookup_entry hw with ⟨e, hl⟩ | ⟨p, t, -, hl⟩
      · cases hl.symm.trans hnull
      · cases hl.symm.trans hnull
    | remove va =>
      obtain ⟨w, hw, hp⟩ := hhole
      have hno : ¬ HasPage pgdir va k' := by
        rintro ⟨w', hw', hp'⟩
        rw [hw] at hw'
        exact hp (Option.some.inj hw' ▸ hp')
      exact pageRemove_entry hw (h.remove_nothing pre va post rs k' hops hpre hno).1
    | _ => exact hhole
  · intro h
    -- at an address without a page there is no page table either
    have hnone : ∀ pre op va post rs k', ops = pre ++ op :: post → oslab6.run pgdir pre k = .ok rs k' →
        (op = .lookup va ∨ op = .remove va) → ¬ HasPage pgdir va k' → entryAt pgdir va k' = none := by
      intro pre op va post rs k' hops hpre hop hno
      by_contra hne
      obtain ⟨w, hw⟩ := Option.ne_none_iff_exists'.1 hne
      have hhole : ∃ w, entryAt pgdir va k' = some w ∧ ¬ Present w := ⟨w, hw, fun hp => hno ⟨w, hw, hp⟩⟩
      refine h pre op post rs k' hops hpre ?_
      rcases hop with rfl | rfl
      · exact hhole
      · exact hhole
    refine ⟨fun pre hpre => (h.pre hpre).run_eq, fun pre va post rs k' hops hpre hno => ?_,
      fun pre va post rs k' hops hpre hno => ?_⟩
    · have he := hnone pre _ va post rs k' hops hpre (Or.inl rfl) hno
      exact ⟨(pageLookup_eq (by rw [he]; nofun)).trans (pageLookup_none he), pageLookup_none he⟩
    · have he := hnone pre _ va post rs k' hops hpre (Or.inr rfl) hno
      exact ⟨(pageRemove_eq (by rw [he]; nofun)).trans (pageRemove_none he), pageRemove_none he⟩

/-! ## A hole -/

/-- Four pages: page 0 is reserved as by `page_init`, page 2 is an empty page directory and page 3 is
free. -/
def fourPages : Pmap where
  npages := 4
  pages p := ⟨none, if p = 3 then 0#16 else 1#16⟩
  pageFreeList := some 3
  kernPgdir := 2
  mmioNext := 0#32
  mem _ _ := 0#32

/-- Page 1 is mapped at 0x1000, which makes a page table; then address 0, which has no page, is looked
up and unmapped. -/
def holeCalls : List Op := [.insert 1 0x1000#32 7#32, .lookup 0#32, .remove 0#32]

/-- **The versions differ.**  In the earlier one `page_lookup` finds page 0 at an address that has no
page, and `page_remove` puts page 0 on the free list. -/
theorem page_remove_hole : ¬ Agree 2 holeCalls fourPages ∧
    ∃ rs rs' k k', lab5.run 2 holeCalls fourPages = .ok rs k ∧ oslab6.run 2 holeCalls fourPages = .ok rs' k' ∧
      rs = [.code 0, .found (some (0, (3, 0))), .done] ∧ rs' = [.code 0, .found none, .done] ∧
      k.pageFreeList = some 0 ∧ k'.pageFreeList = none := by
  have h : ∃ rs rs' k k', lab5.run 2 holeCalls fourPages = .ok rs k ∧
      oslab6.run 2 holeCalls fourPages = .ok rs' k' ∧
      rs = [.code 0, .found (some (0, (3, 0))), .done] ∧ rs' = [.code 0, .found none, .done] ∧
      k.pageFreeList = some 0 ∧ k'.pageFreeList = none :=
    ⟨_, _, _, _, rfl, rfl, rfl, rfl, rfl, rfl⟩
  refine ⟨fun ha => ?_, h⟩
  obtain ⟨rs, rs', k, k', h5, h6, -, -, hk, hk'⟩ := h
  rw [ha.same _ (List.prefix_refl _), h6] at h5
  rw [(Outcome.ok.inj h5).2, hk] at hk'
  cases hk'

end OsLab.Lab5
