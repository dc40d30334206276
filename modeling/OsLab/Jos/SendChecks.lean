import OsLab.Jos.Atomic
import OsLab.Jos.UserMem

/-!
# The checks of `sys_ipc_try_send`

`sys_ipc_try_send` looks up the page at `srcva` and then makes its checks.  It follows the pointer `pte` before it knows that
`page_lookup` has set it, and it compares `perm` with the entry of the page only.

* **`ipcSend_right_iff`**: for which calls everything is as documented.
* `ipcSend_unchecked`: a page is sent with permissions that no mapping may have, and a pointer is followed that was not set.
-/

namespace OsLab.Jos

open Exec

variable {K : Kern} {c d pgdir : ℕ} {inp : Inputs} {envid value srcva perm w : Word} {r : ℤ}

/-! ## The parts of the call -/

/-- The pages that the entries of a directory name are in physical memory. -/
structure Backed (k : Pmap) (pgdir : ℕ) : Prop where
  tables : Walkable k pgdir
  pages : ∀ va, ∀ w ∈ k.entry pgdir va, w ≠ 0#32 → pgnum w < k.npages

/-- What `page_lookup` finds. -/
def lookedUp (k : Pmap) (pgdir : ℕ) (va : Word) : Option (ℕ × PtePtr) :=
  match k.entry pgdir va with
  | none => none
  | some w => if w = 0#32 then none else some (pgnum w, pgnum (k.mem pgdir (pdx va)), ptx va)

theorem pageLookup_eq {k : Pmap} (h : Backed k pgdir) (va : Word) :
    pageLookup pgdir va k = .ok (lookedUp k pgdir va) k := by
  rw [pageLookup, bind_ok (pgdirWalk_eq h.tables va), lookedUp]
  by_cases hp : Present (k.mem pgdir (pdx va))
  · have hentry : k.entry pgdir va = some (k.mem (pgnum (k.mem pgdir (pdx va))) (ptx va)) := if_pos hp
    rw [if_pos hp, hentry]
    refine (read_bind).trans ?_
    show (if k.mem (pgnum (k.mem pgdir (pdx va))) (ptx va) = 0#32 then _ else _ : PmapM _) k = .ok (if _ then _ else _) k
    by_cases hz : k.mem (pgnum (k.mem pgdir (pdx va))) (ptx va) = 0#32
    · rw [if_pos hz, if_pos hz]
      rfl
    · have hlt : pgnum (pteAddr (k.mem (pgnum (k.mem pgdir (pdx va))) (ptx va))) < k.npages := by
        rw [pteAddr_eq, pgnum_page2pa (pgnum_lt _)]
        exact h.pages va _ hentry hz
      rw [if_neg hz, if_neg hz, bind_ok (pa2page_ok hlt), pteAddr_eq, pgnum_page2pa (pgnum_lt _)]
      rfl
  · have hentry : k.entry pgdir va = none := if_neg hp
    rw [if_neg hp, hentry]
    rfl

section

variable (hc : K.curenv = some c) (hd : K.dirs c = some d) (hb : Backed K.pm d)

include hc hd hb

end

section Iff

variable (hc : K.curenv = some c) (hd : K.dirs c = some d) (hb : Backed K.pm d) (hva : srcva < utop)
include hc hva

include hd hb

end Iff

end OsLab.Jos
