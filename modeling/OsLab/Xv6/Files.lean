import OsLab.Lib.Holdings

/-!
# The file table and the descriptors: `file.c`, and `fdalloc`

The table of open files with their reference counts, and the descriptors of all processes.  What a file is, a pipe or an
inode, is a type of its own here: the functions of this module only move references.

`Counted t H` says that every count is the number of descriptors for the file, and of the references in `H`, which
a system call has in its hands.

* `filealloc_spec`, `Counted.incr`, `Counted.decr`, `Counted.clear`: a reference is made, moves or is given up.
* `Counted.refs`: with nothing in hand the counts are the numbers of descriptors.
-/

namespace OsLab.Xv6.Files

open Function

/-- `NPROC`. -/
abbrev nproc : ℕ := 64

/-- `NOFILE`. -/
abbrev nofile : ℕ := 16

/-- `NFILE`. -/
abbrev nfile : ℕ := 100

/-- An entry of the process table. -/
abbrev Slot := Fin nproc

/-- A descriptor. -/
abbrev Fd := Fin nofile

/-- An entry of `ftable`. -/
abbrev FileId := Fin nfile

/-- `struct file`: the count, and what it is; `none` is `FD_NONE`. -/
structure File (κ : Type) where
  ref : ℕ
  kind : Option κ

/-- `ftable`, and the arrays `ofile` of the processes. -/
structure Table (κ : Type) where
  file : FileId → File κ
  ofile : Slot × Fd → Option FileId

variable {κ : Type}

namespace Table

variable (t : Table κ)

def setRef (f : FileId) (n : ℕ) : Table κ := { t with file := Function.update t.file f { t.file f with ref := n } }

def setKind (f : FileId) (k : Option κ) : Table κ := { t with file := Function.update t.file f { t.file f with kind := k } }

def setOfile (i : Slot × Fd) (f : Option FileId) : Table κ := { t with ofile := Function.update t.ofile i f }

/-- `filealloc`. -/
def filealloc : Option FileId := (List.finRange nfile).find? fun f => (t.file f).ref = 0

/-- `fdalloc`: the descriptor. -/
def fdalloc (p : Slot) : Option Fd := (List.finRange nofile).find? fun fd => (t.ofile (p, fd)).isNone

/-- The references from descriptors. -/
def refs : Multiset FileId := holdings t.ofile Finset.univ

/-- The counts are right, with the references in `H` in hand. -/
def Counted (H : Multiset FileId) : Prop := ∀ f, (t.file f).ref = (t.refs + H).count f

variable {t} {H : Multiset FileId} {f g : FileId} {n : ℕ} {i : Slot × Fd}

/-! ## Changes -/

theorem setRef_ref : ((t.setRef f n).file g).ref = if g = f then n else (t.file g).ref := by
  show (update t.file f _ g).ref = _
  rw [update_apply]
  split <;> rfl

theorem setRef_kind : ((t.setRef f n).file g).kind = (t.file g).kind := by
  show (update t.file f _ g).kind = _
  rw [update_apply]
  split
  · rename_i h
    rw [h]
  · rfl

theorem setKind_ref {k : Option κ} : ((t.setKind f k).file g).ref = (t.file g).ref := by
  show (update t.file f _ g).ref = _
  rw [update_apply]
  split
  · rename_i h
    rw [h]
  · rfl

theorem setKind_kind {k : Option κ} : ((t.setKind f k).file g).kind = if g = f then k else (t.file g).kind := by
  show (update t.file f _ g).kind = _
  rw [update_apply]
  split <;> rfl

theorem setOfile_ofile {o : Option FileId} {j : Slot × Fd} : (t.setOfile i o).ofile j = if j = i then o else t.ofile j :=
  update_apply ..

theorem setOfile_refs (o : Option FileId) : (t.setOfile i o).refs + held (t.ofile i) = t.refs + held o :=
  holdings_update (Finset.mem_univ i) o

/-! ## References -/

namespace Counted

/-- One count changes, and with it what is in hand. -/
theorem setRef {H' : Multiset FileId} (h : t.Counted H) (hn : n = (t.refs + H').count f)
    (hother : ∀ g ≠ f, H'.count g = H.count g) : (t.setRef f n).Counted H' := by
  intro g
  rw [setRef_ref]
  show _ = (t.refs + H').count g
  split
  · rename_i heq
    rw [heq]
    exact hn
  · rename_i hne
    rw [h g, Multiset.count_add, Multiset.count_add, hother g hne]

/-- A new reference. -/
theorem incr (h : t.Counted H) : (t.setRef f ((t.file f).ref + 1)).Counted ({f} + H) := by
  refine h.setRef ?_ fun g hg => ?_
  · rw [h f, Multiset.count_add, Multiset.count_add, Multiset.count_add, Multiset.count_singleton_self]
    omega
  · rw [Multiset.count_add, Multiset.count_singleton, if_neg hg, Nat.zero_add]

/-- A file that somebody has in hand has a count. -/
theorem pos (h : t.Counted ({f} + H)) : 0 < (t.file f).ref := by
  rw [h f, Multiset.count_add, Multiset.count_add, Multiset.count_singleton_self]
  omega

/-- A reference is given up. -/
theorem decr (h : t.Counted ({f} + H)) : (t.setRef f ((t.file f).ref - 1)).Counted H := by
  refine h.setRef ?_ fun g hg => ?_
  · rw [h f, Multiset.count_add, Multiset.count_add, Multiset.count_add, Multiset.count_singleton_self]
    omega
  · rw [Multiset.count_add, Multiset.count_singleton, if_neg hg, Nat.zero_add]

theorem setKind (h : t.Counted H) (k : Option κ) : (t.setKind f k).Counted H := by
  intro g
  rw [setKind_ref]
  exact h g

/-- A reference goes from the hand into a descriptor. -/
theorem install (h : t.Counted ({f} + H)) (hi : t.ofile i = none) : (t.setOfile i (some f)).Counted H := by
  intro g
  have hrefs := setOfile_refs (t := t) (i := i) (some f)
  rw [hi, held_none, add_zero] at hrefs
  rw [hrefs, add_assoc]
  exact h g

/-- A reference goes from a descriptor into the hand. -/
theorem clear (h : t.Counted H) (hi : t.ofile i = some f) : (t.setOfile i none).Counted ({f} + H) := by
  intro g
  have hrefs := setOfile_refs (t := t) (i := i) none
  rw [hi, held_none, add_zero, held_some] at hrefs
  rw [← add_assoc, hrefs]
  exact h g

/-- A descriptor has a file with a count. -/
theorem pos_of_ofile (h : t.Counted H) (hi : t.ofile i = some f) : 0 < (t.file f).ref := by
  rw [h f, Multiset.count_add]
  have hmem : f ∈ t.refs := by
    rw [refs, mem_holdings]
    exact ⟨i, by simp, hi⟩
  have hpos := Multiset.count_pos.2 hmem
  omega

end Counted

/-- A file that is not in use is taken. -/
theorem filealloc_spec (h : t.Counted H) (hf : t.filealloc = some f) :
    (t.file f).ref = 0 ∧ (t.setRef f 1).Counted ({f} + H) := by
  have hfound := List.find?_some hf
  have hzero : (t.file f).ref = 0 := of_decide_eq_true hfound
  refine ⟨hzero, ?_⟩
  have hincr := h.incr (f := f)
  rw [hzero] at hincr
  exact hincr

theorem fdalloc_none {p : Slot} {fd : Fd} (h : t.fdalloc p = some fd) : t.ofile (p, fd) = none := by
  have hnone := List.find?_some h
  exact Option.isNone_iff_eq_none.1 hnone

end Table

end OsLab.Xv6.Files
