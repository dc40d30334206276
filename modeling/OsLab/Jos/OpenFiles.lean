import OsLab.Jos.Pmap
import OsLab.Lib.Run

/-!
# Open files: `fs/serv.c`

The table of open files of the file server: `openfile_alloc`, `openfile_lookup` and the part of
`serve_open` that concerns them.  A file is open as long as some client has its `Fd` page mapped;
clients copy (`dup`, `fork`) and remove such mappings at any time.

* `opentab_ok_iff`: in every run, every part of the table's contract holds of every state, with one
  exception: `openfile_alloc` returns a negative number whenever the first free slot has the sign bit
  of its next id set;
* `openfile_alloc_negative`: this comes about after 2^21 - 1 opens.
-/

namespace OsLab.Jos

open Function

def eMaxOpen : ℤ := 10

/-- `MAXOPEN`. -/
def maxopen : ℕ := 1024

/-! ## The code -/

/-- An entry of `opentab`, and of its page `o_fd` whether the server has it mapped and how many
mappings clients have. -/
structure OpenFile where
  fileid : Word
  mapped : Bool
  clients : ℕ

namespace OpenFile

/-- `pageref(o->o_fd)`. -/
def pageref (o : OpenFile) : ℕ := if o.mapped then 1 + o.clients else 0

/-- The end of `openfile_alloc`: the entry is taken and gets a new id. -/
def take (o : OpenFile) : OpenFile :=
  { o with fileid := o.fileid + BitVec.ofNat 32 maxopen, mapped := true }

end OpenFile

/-- The loop of `openfile_alloc` over the entries `is` of the table: what it returns, and the entry it
takes.  `mem` says whether there is memory for a page. -/
def openfileAllocLoop (opentab : ℕ → OpenFile) (mem : Bool) : List ℕ → ℤ × Option ℕ
  | [] => (-eMaxOpen, none)
  | i :: is =>
    match (opentab i).pageref with
    | 0 => if mem then ((opentab i).take.fileid.toInt, some i) else (-eNoMem, none)
    | 1 => ((opentab i).take.fileid.toInt, some i)
    | _ => openfileAllocLoop opentab mem is

/-- `openfile_alloc(&o)`. -/
@[irreducible] def openfileAlloc (opentab : ℕ → OpenFile) (mem : Bool) : ℤ × Option ℕ :=
  openfileAllocLoop opentab mem (List.range maxopen)

/-- `openfile_lookup(envid, fileid, &o)`: the entry, or the error. -/
def openfileLookup (opentab : ℕ → OpenFile) (fileid : Word) : Except ℤ ℕ :=
  let i := fileid.toNat % maxopen
  if (opentab i).pageref ≤ 1 ∨ (opentab i).fileid ≠ fileid then .error (-eInval) else .ok i

/-! ## The server and its clients -/

/-- An entry with its history: how often it was taken, the id of the file whose `Fd` page clients have
mapped, and the ids of files that no client has any more. -/
structure Slot extends OpenFile where
  allocs : ℕ
  live : Option Word
  closed : List Word

/-- The server: the entries by their index. -/
abbrev FileServer := ℕ → Slot

/-- What decides how `serve_open` goes: whether there is memory for a page, whether the file is found
or created, and whether the client takes the page it is sent. -/
structure OpenChoice where
  mem : Bool
  found : Bool
  sent : Bool

/-- What happens to the table. -/
inductive FileEvent where
  /-- A client opens a file. -/
  | open (c : OpenChoice)
  /-- A client's mapping of the `Fd` page of entry `i` is copied. -/
  | dup (i : ℕ)
  /-- A client's mapping is removed. -/
  | unmap (i : ℕ)

namespace Slot

/-- The entry is taken by `openfile_alloc`. -/
def take (o : Slot) : Slot := { o with toOpenFile := o.toOpenFile.take, allocs := o.allocs + 1 }

/-- A client receives the `Fd` page of a file it has opened. -/
def send (o : Slot) : Slot := { o with clients := o.clients + 1, live := some o.fileid }

def dup (o : Slot) : Slot := { o with clients := o.clients + 1 }

/-- A client loses a mapping; with the last one the file is closed. -/
def unmap (o : Slot) : Slot :=
  if o.clients = 1 then
    { o with clients := 0, live := none, closed := o.live.toList ++ o.closed }
  else { o with clients := o.clients - 1 }

-- unfolded first, since comparing `o.take` with `o` would compute with the ids
@[simp] theorem take_fileid (o : Slot) : o.take.fileid = o.fileid + BitVec.ofNat 32 maxopen := by
  unfold take; rfl
@[simp] theorem take_mapped (o : Slot) : o.take.mapped = true := by unfold take; rfl
@[simp] theorem take_clients (o : Slot) : o.take.clients = o.clients := by
  unfold take OpenFile.take; rfl
@[simp] theorem take_allocs (o : Slot) : o.take.allocs = o.allocs + 1 := by unfold take; rfl
@[simp] theorem take_live (o : Slot) : o.take.live = o.live := by unfold take; rfl
@[simp] theorem take_closed (o : Slot) : o.take.closed = o.closed := by unfold take; rfl

end Slot

namespace FileServer

/-- `opentab`. -/
def opentab (s : FileServer) (i : ℕ) : OpenFile := (s i).toOpenFile

/-- `serve_open`, and the receipt of its reply. -/
def serveOpen (s : FileServer) (c : OpenChoice) : FileServer :=
  match openfileAlloc s.opentab c.mem with
  | (_, none) => s
  | (r, some i) =>
    Function.update s i (if 0 ≤ r ∧ c.found ∧ c.sent then (s i).take.send else (s i).take)

def step (s : FileServer) : FileEvent → Option FileServer
  | .open c => some (s.serveOpen c)
  | .dup i => if 0 < (s i).clients then some (Function.update s i (s i).dup) else none
  | .unmap i => if 0 < (s i).clients then some (Function.update s i (s i).unmap) else none

end FileServer

/-- The table after `serve_init`. -/
def serveInit : FileServer := fun i => ⟨⟨BitVec.ofNat 32 i, false, 0⟩, 0, none, []⟩

def fileSystem : System FileServer FileEvent where
  init s := s = serveInit
  step s a s' := s.step a = some s'

/-! ## The contract -/

namespace FileServer

/-- The first entry no client has mapped. -/
structure FirstFree (s : FileServer) (i : ℕ) : Prop where
  lt : i < maxopen
  free : (s i).clients = 0
  before : ∀ j < i, 0 < (s j).clients

/-- What the clients and the server rely on. -/
structure TableOk (s : FileServer) : Prop where
  /-- `openfile_alloc` fails for want of an entry only if all are in use; -/
  full : ∀ mem, (openfileAlloc s.opentab mem).1 = -eMaxOpen → ∀ i < maxopen, 0 < (s i).clients
  /-- otherwise it returns an id of the entry, which is that of no open file; -/
  fresh : (∃ i < maxopen, (s i).clients = 0) → ∃ r, ∃ i < maxopen,
    openfileAlloc s.opentab true = (r, some i) ∧ 0 ≤ r ∧ r % maxopen = i ∧
      ∀ j < maxopen, ∀ id, (s j).live = some id → id.toInt ≠ r
  /-- an id is found exactly if its file is open; -/
  lookup : ∀ id i, openfileLookup s.opentab id = .ok i ↔ i < maxopen ∧ (s i).live = some id
  /-- the id of a closed file is not found, until the ids of its entry are used up. -/
  stale : ∀ i < maxopen, ∀ id ∈ (s i).closed, (s i).allocs ≤ 2 ^ 22 →
    openfileLookup s.opentab id = .error (-eInval)

end FileServer

/-! ## Ids -/

/-- The id of entry `i` when it is taken for the `k`-th time. -/
def fileId (i k : ℕ) : Word := BitVec.ofNat 32 (i + maxopen * k)

section Ids

variable {i j k k' : ℕ}

theorem fileId_succ : fileId i (k + 1) = fileId i k + BitVec.ofNat 32 maxopen := by
  rw [fileId, fileId, ← BitVec.ofNat_add, Nat.mul_succ, Nat.add_assoc]

theorem fileId_mod (hi : i < maxopen) (k : ℕ) : (fileId i k).toNat % maxopen = i := by
  rw [fileId, BitVec.toNat_ofNat, maxopen] at *
  omega

theorem fileId_toInt_mod (hi : i < maxopen) : (fileId i k).toInt % maxopen = i := by
  have hmod := fileId_mod hi k
  rw [BitVec.toInt_eq_toNat_cond]
  rw [maxopen] at *
  split <;> omega

/-- The sign of an id is that of the count, modulo the 2^22 ids of an entry. -/
theorem fileId_nonneg_iff (hi : i < maxopen) : 0 ≤ (fileId i k).toInt ↔ k % 2 ^ 22 < 2 ^ 21 := by
  rw [BitVec.toInt_eq_toNat_cond, fileId, BitVec.toNat_ofNat]
  rw [maxopen] at *
  split <;> omega

theorem fileId_ne (hk : 1 ≤ k) (hlt : k < k') (hle : k' ≤ 2 ^ 22) : fileId i k ≠ fileId i k' := by
  intro h
  have := congrArg BitVec.toNat h
  rw [fileId, fileId, BitVec.toNat_ofNat, BitVec.toNat_ofNat, maxopen] at this
  omega

end Ids

/-! ## `openfile_alloc` -/

section Alloc

variable {opentab : ℕ → OpenFile} {mem : Bool} {i : ℕ}

theorem openfileAllocLoop_skip {is : List ℕ} (h : ∀ j ∈ is, 2 ≤ (opentab j).pageref) (js : List ℕ) :
    openfileAllocLoop opentab mem (is ++ js) = openfileAllocLoop opentab mem js := by
  induction is with
  | nil => rfl
  | cons j is ih =>
    obtain ⟨n, hn⟩ := Nat.exists_eq_add_of_le' (h j List.mem_cons_self)
    rw [List.cons_append, openfileAllocLoop, hn]
    exact ih fun j' hj' => h j' (List.mem_cons_of_mem j hj')

theorem OpenFile.pageref_ge_two {o : OpenFile} (hm : o.mapped = true) (hc : 0 < o.clients) :
    2 ≤ o.pageref := by
  rw [pageref, if_pos hm]
  omega

/-- All entries are in use. -/
theorem openfileAlloc_full (h : ∀ i < maxopen, 2 ≤ (opentab i).pageref) :
    openfileAlloc opentab mem = (-eMaxOpen, none) := by
  have hskip : openfileAllocLoop opentab mem (List.range maxopen ++ []) = _ :=
    openfileAllocLoop_skip (fun j hj => h j (List.mem_range.1 hj)) []
  rw [List.append_nil] at hskip
  unfold openfileAlloc
  exact hskip

/-- The first free entry is taken, unless it needs a page and there is none. -/
theorem openfileAlloc_free (hi : i < maxopen) (hfree : (opentab i).clients = 0)
    (hbefore : ∀ j < i, 2 ≤ (opentab j).pageref) :
    openfileAlloc opentab mem = if (opentab i).mapped = false ∧ mem = false then (-eNoMem, none)
      else ((opentab i).take.fileid.toInt, some i) := by
  have hrange : List.range maxopen = List.range i ++ i :: List.range' (i + 1) (maxopen - (i + 1)) := by
    rw [List.range_eq_range', List.range_eq_range', ← List.range'_succ,
      show maxopen - (i + 1) + 1 = maxopen - i by omega]
    have happend := @List.range'_append 0 i (maxopen - i) 1
    rw [Nat.one_mul, Nat.zero_add, Nat.add_sub_cancel' hi.le] at happend
    exact happend.symm
  unfold openfileAlloc
  rw [hrange, openfileAllocLoop_skip fun j hj => hbefore j (List.mem_range.1 hj),
    openfileAllocLoop]
  cases hmap : (opentab i).mapped with
  | false =>
    rw [OpenFile.pageref, hmap]
    cases mem <;> rfl
  | true =>
    rw [OpenFile.pageref, hmap, hfree]
    rfl

end Alloc

/-! ## What every step keeps -/

/-- The id of an entry counts how often it was taken, and its open file has this id. -/
structure Slot.Tracks (i : ℕ) (o : Slot) : Prop where
  id : o.fileid = fileId i o.allocs
  live : o.live = if 0 < o.clients then some o.fileid else none
  used : 0 < o.clients → i < maxopen ∧ o.mapped = true ∧ 1 ≤ o.allocs
  closed : ∀ id ∈ o.closed, ∃ k, 1 ≤ k ∧ k ≤ o.allocs ∧ id = fileId i k ∧ (k = o.allocs → o.clients = 0)

namespace Slot.Tracks

variable {i : ℕ} {o : Slot}

theorem take (h : o.Tracks i) (hfree : o.clients = 0) : o.take.Tracks i where
  id := by rw [take_fileid, take_allocs, fileId_succ, h.id]
  live := by
    rw [take_live, take_clients, h.live, hfree, if_neg (Nat.lt_irrefl 0), if_neg (Nat.lt_irrefl 0)]
  used hpos := by
    rw [take_clients, hfree] at hpos
    exact absurd hpos (Nat.lt_irrefl 0)
  closed id hid := by
    obtain ⟨k, h1, hk, hid, -⟩ := h.closed id (take_closed o ▸ hid)
    rw [take_clients]
    exact ⟨k, h1, Nat.le_succ_of_le hk, hid, fun _ => hfree⟩

/-- A new id is that of no closed file, so the file that gets it is new. -/
theorem send (h : o.Tracks i) (hi : i < maxopen) (hm : o.mapped = true)
    (ha : 1 ≤ o.allocs) (hclosed : ∀ id ∈ o.closed, ∃ k, 1 ≤ k ∧ k < o.allocs ∧ id = fileId i k) :
    o.send.Tracks i where
  id := h.id
  live := by
    show some o.fileid = if 0 < o.clients + 1 then some o.fileid else none
    rw [if_pos (Nat.succ_pos _)]
  used _ := ⟨hi, hm, ha⟩
  closed id hid := by
    obtain ⟨k, h1, hk, hid⟩ := hclosed id hid
    exact ⟨k, h1, hk.le, hid, fun heq => absurd heq hk.ne⟩

theorem take_send (h : o.Tracks i) (hfree : o.clients = 0) (hi : i < maxopen) : o.take.send.Tracks i := by
  refine (h.take hfree).send hi o.take_mapped (Nat.le_add_left 1 _) fun id hid => ?_
  obtain ⟨k, h1, hk, hid, -⟩ := h.closed id (o.take_closed ▸ hid)
  exact ⟨k, h1, Nat.lt_succ_of_le hk, hid⟩

theorem dup (h : o.Tracks i) (hpos : 0 < o.clients) : o.dup.Tracks i where
  id := h.id
  live := by
    show o.live = if 0 < o.clients + 1 then some o.fileid else none
    rw [h.live, if_pos hpos, if_pos (Nat.succ_pos _)]
  used _ := h.used hpos
  closed id hid := by
    obtain ⟨k, h1, hk, hid, hfree⟩ := h.closed id hid
    exact ⟨k, h1, hk, hid, fun heq => absurd (hfree heq) hpos.ne'⟩

theorem unmap (h : o.Tracks i) (hpos : 0 < o.clients) : o.unmap.Tracks i := by
  rw [Slot.unmap]
  split
  · refine ⟨h.id, rfl, fun hpos => absurd hpos (Nat.lt_irrefl 0), fun id hid => ?_⟩
    rcases List.mem_append.1 hid with hlive | hid
    · -- the file that is closed now
      rw [h.live, if_pos hpos, Option.toList_some, List.mem_singleton] at hlive
      exact ⟨o.allocs, (h.used hpos).2.2, Nat.le_refl _, hlive.trans h.id, fun _ => rfl⟩
    · obtain ⟨k, h1, hk, hid, -⟩ := h.closed id hid
      exact ⟨k, h1, hk, hid, fun _ => rfl⟩
  · rename_i hne
    have hpos' : 0 < o.clients - 1 := by omega
    refine ⟨h.id, ?_, fun _ => h.used hpos, fun id hid => ?_⟩
    · rw [h.live, if_pos hpos, if_pos hpos']
    · obtain ⟨k, h1, hk, hid, hfree⟩ := h.closed id hid
      exact ⟨k, h1, hk, hid, fun heq => absurd (hfree heq) hpos.ne'⟩

end Slot.Tracks

namespace FileServer

variable {s s' : FileServer} {i : ℕ} {mem : Bool} {c : OpenChoice} {id : Word} {r : ℤ}

theorem pageref_ge_two (h : ∀ i, (s i).Tracks i) (hpos : 0 < (s i).clients) : 2 ≤ (s.opentab i).pageref :=
  OpenFile.pageref_ge_two ((h i).used hpos).2.1 hpos

theorem FirstFree.alloc (hi : s.FirstFree i) (h : ∀ i, (s i).Tracks i) (mem : Bool) :
    openfileAlloc s.opentab mem = if (s i).mapped = false ∧ mem = false then (-eNoMem, none)
      else ((fileId i ((s i).allocs + 1)).toInt, some i) := by
  have hid : (s.opentab i).take.fileid = fileId i ((s i).allocs + 1) := by
    rw [fileId_succ, ← (h i).id]
    rfl
  have hfree : (s.opentab i).clients = 0 := hi.free
  rw [openfileAlloc_free hi.lt hfree fun j hj => pageref_ge_two h (hi.before j hj), hid]
  rfl

/-- Either all entries are in use or there is a first free one. -/
theorem full_or_firstFree (s : FileServer) : (∀ i < maxopen, 0 < (s i).clients) ∨ ∃ i, s.FirstFree i := by
  by_cases hex : ∃ i, i < maxopen ∧ (s i).clients = 0
  · refine Or.inr ⟨Nat.find hex, (Nat.find_spec hex).1, (Nat.find_spec hex).2, fun j hj => ?_⟩
    have hmin := Nat.find_min hex hj
    rw [not_and] at hmin
    exact Nat.pos_of_ne_zero (hmin (hj.trans (Nat.find_spec hex).1))
  · refine Or.inl fun i hi => Nat.pos_of_ne_zero fun hfree => hex ⟨i, hi, hfree⟩

theorem tracks_update (h : ∀ i, (s i).Tracks i) {o : Slot} (ho : o.Tracks i) :
    ∀ j, (update s i o j).Tracks j := by
  intro j
  by_cases hji : j = i
  · rw [hji, update_self]
    exact ho
  · rw [update_of_ne hji]
    exact h j

theorem serveOpen_none (h : openfileAlloc s.opentab c.mem = (r, none)) :
    s.serveOpen c = s := by
  rw [serveOpen, h]

theorem serveOpen_some (h : openfileAlloc s.opentab c.mem = (r, some i)) :
    s.serveOpen c =
      update s i (if 0 ≤ r ∧ c.found ∧ c.sent then (s i).take.send else (s i).take) := by
  rw [serveOpen, h]

theorem tracks_serveOpen (h : ∀ i, (s i).Tracks i) (c : OpenChoice) : ∀ i, (s.serveOpen c i).Tracks i := by
  rcases s.full_or_firstFree with hfull | ⟨j, hj⟩
  · rw [serveOpen_none (openfileAlloc_full fun i hi => pageref_ge_two h (hfull i hi))]
    exact h
  · have halloc := hj.alloc h c.mem
    split_ifs at halloc with hmem
    · rw [serveOpen_none halloc]
      exact h
    · rw [serveOpen_some halloc]
      refine tracks_update h ?_
      split_ifs
      · exact (h j).take_send hj.free hj.lt
      · exact (h j).take hj.free

/-- **Every step keeps the count of each entry.** -/
theorem tracks_step {a : FileEvent} (h : ∀ i, (s i).Tracks i) (ha : s.step a = some s') :
    ∀ i, (s' i).Tracks i := by
  cases a with
  | «open» c =>
    obtain rfl := Option.some.inj ha
    exact tracks_serveOpen h c
  | dup j =>
    rw [step, Option.ite_none_right_eq_some] at ha
    obtain ⟨hpos, ha⟩ := ha
    obtain rfl := Option.some.inj ha
    exact tracks_update h ((h j).dup hpos)
  | unmap j =>
    rw [step, Option.ite_none_right_eq_some] at ha
    obtain ⟨hpos, ha⟩ := ha
    obtain rfl := Option.some.inj ha
    exact tracks_update h ((h j).unmap hpos)

theorem serveInit_tracks (i : ℕ) : (serveInit i).Tracks i where
  id := by rw [fileId]; rfl
  live := rfl
  used h := absurd h (Nat.lt_irrefl 0)
  closed := nofun

theorem reach_tracks (h : fileSystem.Reach (fun _ _ => True) s) : ∀ i, (s i).Tracks i :=
  h.invariant (fun _ hs => hs ▸ serveInit_tracks) fun _ _ _ h _ ha => tracks_step h ha

/-! ## `openfile_lookup` -/

theorem lookup_iff (h : ∀ i, (s i).Tracks i) (id : Word) (i : ℕ) :
    openfileLookup s.opentab id = .ok i ↔ i < maxopen ∧ (s i).live = some id := by
  rw [openfileLookup]
  constructor
  · intro hok
    split_ifs at hok with hbad
    rw [not_or, not_not, not_le] at hbad
    obtain ⟨href, hid⟩ := hbad
    obtain rfl := Except.ok.inj hok
    refine ⟨Nat.mod_lt _ (by decide), ?_⟩
    have hpos : 0 < (s (id.toNat % maxopen)).clients := by
      rw [OpenFile.pageref] at href
      split_ifs at href
      · exact Nat.lt_of_add_lt_add_left href
      · exact absurd href (by decide)
    rw [(h _).live, if_pos hpos]
    exact congrArg some hid
  · rintro ⟨hi, hlive⟩
    have hpos : 0 < (s i).clients := by
      by_contra hpos
      rw [(h i).live, if_neg hpos] at hlive
      cases hlive
    rw [(h i).live, if_pos hpos, Option.some.injEq] at hlive
    have hmod : id.toNat % maxopen = i := by
      rw [← hlive, (h i).id, fileId_mod hi]
    have href := pageref_ge_two h hpos
    simp only [hmod]
    rw [if_neg]
    rintro (hle | hne)
    · omega
    · exact hne hlive

theorem lookup_closed (h : ∀ i, (s i).Tracks i) (hi : i < maxopen) (hid : id ∈ (s i).closed)
    (ha : (s i).allocs ≤ 2 ^ 22) : openfileLookup s.opentab id = .error (-eInval) := by
  obtain ⟨k, h1, hk, rfl, hfree⟩ := (h i).closed id hid
  cases hl : openfileLookup s.opentab (fileId i k) with
  | error e =>
    rw [openfileLookup] at hl
    split_ifs at hl
    exact hl.symm
  | ok j =>
    exfalso
    have hj : j = i := by
      rw [openfileLookup] at hl
      split_ifs at hl
      rw [← Except.ok.inj hl, fileId_mod hi]
    subst hj
    obtain ⟨-, hlive⟩ := (lookup_iff h _ j).1 hl
    rw [(h j).live] at hlive
    split_ifs at hlive with hpos
    rw [Option.some.injEq, (h j).id] at hlive
    rcases hk.lt_or_eq with hlt | heq
    · exact fileId_ne h1 hlt ha hlive.symm
    · exact absurd (hfree heq) hpos.ne'

/-- An id of an entry that is free is that of no open file. -/
theorem fresh_id (h : ∀ i, (s i).Tracks i) (hi : i < maxopen) (hfree : (s i).clients = 0) {j : ℕ}
    (hj : j < maxopen) (hid : (s j).live = some id) : id.toInt ≠ (fileId i k).toInt := by
  intro heq
  rw [(h j).live] at hid
  split_ifs at hid with hpos
  rw [Option.some.injEq, (h j).id] at hid
  have hij := congrArg (· % (maxopen : ℤ)) heq
  simp only [← hid, fileId_toInt_mod hi, fileId_toInt_mod hj, Nat.cast_inj] at hij
  rw [hij, hfree] at hpos
  exact absurd hpos (Nat.lt_irrefl 0)

/-- The contract holds if and only if the next id is not negative. -/
theorem tableOk_iff (h : ∀ i, (s i).Tracks i) :
    s.TableOk ↔ ∀ i, s.FirstFree i → ((s i).allocs + 1) % 2 ^ 22 < 2 ^ 21 := by
  constructor
  · intro hok i hi
    obtain ⟨r, j, hj, halloc, hnonneg, -, -⟩ := hok.fresh ⟨i, hi.lt, hi.free⟩
    rw [hi.alloc h, if_neg (by simp)] at halloc
    rw [← fileId_nonneg_iff hi.lt, (Prod.mk.inj halloc).1]
    exact hnonneg
  · intro hnext
    have hnonneg : ∀ i, s.FirstFree i → 0 ≤ (fileId i ((s i).allocs + 1)).toInt := fun i hi =>
      (fileId_nonneg_iff hi.lt).2 (hnext i hi)
    refine ⟨fun mem hret i hi => ?_, fun ⟨i, hi, hfree⟩ => ?_, lookup_iff h, fun i hi id hid ha =>
      lookup_closed h hi hid ha⟩
    · rcases s.full_or_firstFree with hfull | ⟨j, hj⟩
      · exact hfull i hi
      · have hpos := hnonneg j hj
        rw [hj.alloc h] at hret
        rw [eMaxOpen] at hret
        split_ifs at hret
        · exact absurd hret (by decide)
        · omega
    · rcases s.full_or_firstFree with hfull | ⟨j, hj⟩
      · exact absurd hfree (hfull i hi).ne'
      · exact ⟨_, j, hj.lt, (hj.alloc h true).trans (if_neg (by simp)), hnonneg j hj,
          fileId_toInt_mod hj.lt, fun j' hj' id hid => fresh_id h hj.lt hj.free hj' hid⟩

end FileServer

/-- **The table of open files.**  In every state of every history of opens, copies and closes, the
contract holds if and only if the id that the first free entry gets next has its sign bit clear:
the entry was taken fewer than 2^21 - 1 times, modulo the 2^22 ids it has. -/
theorem opentab_ok_iff (s : FileServer) (h : fileSystem.Reach (fun _ _ => True) s) :
    s.TableOk ↔ ∀ i, s.FirstFree i → ((s i).allocs + 1) % 2 ^ 22 < 2 ^ 21 :=
  FileServer.tableOk_iff (FileServer.reach_tracks h)

/-! ## Histories -/

namespace FileServer

/-- `n` clients try to open a file that does not exist. -/
def missing (s : FileServer) : ℕ → FileServer
  | 0 => s
  | n + 1 => (s.missing n).serveOpen ⟨true, false, false⟩

theorem reach_missing (n : ℕ) : fileSystem.Reach (fun _ _ => True) (serveInit.missing n) := by
  induction n with
  | zero => exact .init rfl
  | succ n ih => exact ih.step (a := .open ⟨true, false, false⟩) trivial rfl

/-- Every attempt takes the first entry once more. -/
theorem missing_allocs (n : ℕ) :
    (serveInit.missing n 0).allocs = n ∧ ∀ i, (serveInit.missing n i).clients = 0 := by
  induction n with
  | zero => exact ⟨rfl, fun _ => rfl⟩
  | succ n ih =>
    obtain ⟨hallocs, hclients⟩ := ih
    have hfirst : (serveInit.missing n).FirstFree 0 := ⟨by decide, hclients 0, nofun⟩
    have halloc := hfirst.alloc (reach_tracks (reach_missing n)) true
    rw [if_neg (by simp)] at halloc
    rw [missing, serveOpen_some halloc, if_neg (by simp)]
    refine ⟨?_, fun i => ?_⟩
    · rw [update_self, Slot.take_allocs, hallocs]
    · by_cases hi : i = 0
      · rw [hi, update_self, Slot.take_clients, hclients]
      · rw [update_of_ne hi, hclients]

theorem missing_firstFree (n : ℕ) : (serveInit.missing n).FirstFree 0 :=
  ⟨by decide, (missing_allocs n).2 0, nofun⟩

end FileServer

/-- After one failed attempt the table is as it should be. -/
theorem opentab_ok_iff_missing : fileSystem.Reach (fun _ _ => True) (serveInit.missing 1) ∧
    (serveInit.missing 1).TableOk := by
  refine ⟨FileServer.reach_missing 1, (opentab_ok_iff _ (FileServer.reach_missing 1)).2 fun i hi => ?_⟩
  have hi0 : i = 0 := by
    by_contra hne
    exact absurd (hi.before 0 (Nat.pos_of_ne_zero hne)) (by rw [(FileServer.missing_allocs 1).2]; decide)
  rw [hi0, (FileServer.missing_allocs 1).1]
  decide

/-- **The 2^21-th open.**  When the first entry has been taken 2^21 - 1 times, `openfile_alloc` returns
-2^31, although there is memory and no file is open. -/
theorem openfile_alloc_negative : ∃ s : FileServer, fileSystem.Reach (fun _ _ => True) s ∧
    (∀ i, (s i).clients = 0) ∧ openfileAlloc s.opentab true = (-2 ^ 31, some 0) ∧ ¬ s.TableOk := by
  have hfirst := FileServer.missing_firstFree (2 ^ 21 - 1)
  have hallocs := FileServer.missing_allocs (2 ^ 21 - 1)
  have hreach := FileServer.reach_missing (2 ^ 21 - 1)
  have halloc := hfirst.alloc (FileServer.reach_tracks hreach) true
  rw [if_neg (by simp), hallocs.1] at halloc
  refine ⟨_, hreach, hallocs.2, halloc, fun hok => ?_⟩
  obtain ⟨r, i, -, hr, hnonneg, -⟩ := hok.fresh ⟨0, hfirst.lt, hfirst.free⟩
  rw [halloc] at hr
  rw [← (Prod.mk.inj hr).1] at hnonneg
  exact absurd hnonneg (by decide)

end OsLab.Jos
