import Mathlib.Tactic

/-!
# `filewrite`

A write to a file goes to the inode in chunks, each in a transaction of its own.

* `writei_done`: a chunk that `writei` accepts changes exactly the bytes it should.
* `filewrite_reports_iff`: the returned value says what was written, unless the write begins inside the
  largest file and ends outside it: then chunks are written before the one that is refused.
-/

namespace OsLab.Xv6.Filewrite

abbrev Byte := BitVec 8

def bsize : ℕ := 512
def ndirect : ℕ := 12
def nindirect : ℕ := bsize / 4
def maxfile : ℕ := ndirect + nindirect
def maxopblocks : ℕ := 10

/-- The largest chunk: `max` of `filewrite`. -/
def chunk : ℕ := (maxopblocks - 1 - 1 - 2) / 2 * 512

/-- An inode that is not a device, with the blocks that `bmap` and `bread` find. -/
structure Inode where
  size : ℕ
  block : ℕ → ℕ → Byte

inductive FileType where
  | none
  | pipe
  | inode

structure File where
  type : FileType
  writable : Bool
  off : ℕ

/-- `memmove(data + at_, src, m)`. -/
def memmove (data : ℕ → Byte) (at_ : ℕ) (src : ℕ → Byte) (m : ℕ) : ℕ → Byte := fun j =>
  if at_ ≤ j ∧ j < at_ + m then src (j - at_) else data j

theorem writeLoop_decreases {off tot n : ℕ} (h : tot < n) :
    n - (tot + min (n - tot) (bsize - off % bsize)) < n - tot := by
  have hlt : off % bsize < bsize := Nat.mod_lt _ (by decide)
  omega

/-- The loop of `writei`. -/
def writeLoop (src : ℕ → Byte) (n : ℕ) (ip : Inode) (off tot : ℕ) : Inode × ℕ :=
  if _h : tot < n then
    let m := min (n - tot) (bsize - off % bsize)
    let data := memmove (ip.block (off / bsize)) (off % bsize) (fun j => src (tot + j)) m
    writeLoop src n { ip with block := Function.update ip.block (off / bsize) data } (off + m) (tot + m)
  else (ip, off)
termination_by n - tot
decreasing_by exact writeLoop_decreases _h

def writei (ip : Inode) (src : ℕ → Byte) (off n : ℕ) : ℤ × Inode :=
  if ip.size < off ∨ (off + n) % 2 ^ 32 < off then (-1, ip)
  else if maxfile * bsize < (off + n) % 2 ^ 32 then (-1, ip)
  else
    let (ip, off) := writeLoop src n ip off 0
    (n, if 0 < n ∧ ip.size < off then { ip with size := off } else ip)

theorem filewriteLoop_decreases {n i : ℕ} (h : i < n) : n - (i + min (n - i) chunk) < n - i := by
  have hpos : 0 < chunk := by decide
  omega

/-- The loop of `filewrite`; `none` is the panic at a short write. -/
def filewriteLoop (addr : ℕ → Byte) (n : ℕ) (ip : Inode) (off i : ℕ) : Option (ℕ × ℕ × Inode) :=
  if _h : i < n then
    let n1 := min (n - i) chunk
    let (r, ip) := writei ip (fun j => addr (i + j)) off n1
    let off := if 0 < r then (off + r.toNat) % 2 ^ 32 else off
    if r < 0 then some (i, off, ip)
    else if r ≠ n1 then none
    else filewriteLoop addr n ip off (i + n1)
  else some (i, off, ip)
termination_by n - i
decreasing_by exact filewriteLoop_decreases _h

/-- `filewrite(f, addr, n)`, where `pipewrite` is what `pipewrite` returns; `none` is a panic. -/
def filewrite (pipewrite : ℤ) (f : File) (ip : Inode) (addr : ℕ → Byte) (n : ℕ) : Option (ℤ × File × Inode) :=
  if f.writable = false then some (-1, f, ip)
  else match f.type with
    | .pipe => some (pipewrite, f, ip)
    | .inode => (filewriteLoop addr n ip f.off 0).map fun (i, off, ip) =>
        (if i = n then (n : ℤ) else -1, { f with off := off }, ip)
    | .none => none

/-! ## What a write changes -/

/-- The byte at offset `x`. -/
def Inode.byte (ip : Inode) (x : ℕ) : Byte := ip.block (x / bsize) (x % bsize)

/-- The first `k` bytes of `src` are at `off`, and nothing else is changed. -/
structure Wrote (src : ℕ → Byte) (ip ip' : Inode) (off k : ℕ) : Prop where
  byte : ∀ x, ip'.byte x = if off ≤ x ∧ x < off + k then src (x - off) else ip.byte x
  size : ip'.size = if k = 0 then ip.size else max ip.size (off + k)

variable {src addr : ℕ → Byte} {ip ip' ip'' : Inode} {off n m i k : ℕ}

/-- The file with `m` bytes of the block at `off` replaced. -/
def Inode.put (ip : Inode) (off m : ℕ) (src : ℕ → Byte) : Inode :=
  { ip with block := Function.update ip.block (off / bsize) (memmove (ip.block (off / bsize)) (off % bsize) src m) }

theorem byte_put (h : m ≤ bsize - off % bsize) (x : ℕ) :
    (ip.put off m src).byte x = if off ≤ x ∧ x < off + m then src (x - off) else ip.byte x := by
  simp only [Inode.byte, Inode.put, bsize] at h ⊢
  by_cases hx : x / 512 = off / 512
  · have hin : (off % 512 ≤ x % 512 ∧ x % 512 < off % 512 + m) ↔ off ≤ x ∧ x < off + m := by omega
    rw [hx, Function.update_self, memmove]
    simp only [hin]
    split_ifs
    · congr 1
      omega
    · rfl
  · rw [Function.update_of_ne hx, if_neg]
    omega

theorem writeLoop_byte (src : ℕ → Byte) (tot : ℕ) : ∀ ip off, tot ≤ n →
    (writeLoop src n ip off tot).2 = off + (n - tot) ∧ (writeLoop src n ip off tot).1.size = ip.size ∧
      ∀ x, (writeLoop src n ip off tot).1.byte x =
        if off ≤ x ∧ x < off + (n - tot) then src (tot + (x - off)) else ip.byte x := by
  -- on what is left to write
  induction hk : n - tot using Nat.strong_induction_on generalizing tot with
  | _ k ih =>
    intro ip off hle
    rw [writeLoop]
    by_cases h : tot < n
    · rw [dif_pos h]
      have hlt : off % bsize < bsize := Nat.mod_lt _ (by decide)
      generalize hm : min (n - tot) (bsize - off % bsize) = m
      obtain ⟨hoff, hsize, hbyte⟩ := ih (n - (tot + m)) (by omega) (tot + m) rfl
        (ip.put off m fun j => src (tot + j)) (off + m) (by omega)
      refine ⟨hoff.trans (by omega), hsize, fun x => (hbyte x).trans ?_⟩
      rw [byte_put (by omega)]
      split_ifs
      any_goals omega
      · congr 1
        omega
      · rfl
      · rfl
    · rw [dif_neg h]
      refine ⟨by dsimp only; omega, rfl, fun x => ?_⟩
      rw [if_neg (by omega)]

/-- **A chunk that is accepted** is written, and nothing else. -/
theorem writei_done (src : ℕ → Byte) (hoff : off ≤ ip.size) (hle : off + n ≤ maxfile * bsize) :
    ∃ ip', writei ip src off n = ((n : ℤ), ip') ∧ Wrote src ip ip' off n := by
  have hmax : maxfile * bsize = 71680 := by decide
  obtain ⟨hoff', hsize, hbyte⟩ := writeLoop_byte src 0 ip off (Nat.zero_le n)
  simp only [Nat.sub_zero, Nat.zero_add] at hoff' hbyte
  rw [writei, if_neg (by omega), if_neg (by omega)]
  refine ⟨_, rfl, fun x => ?_, ?_⟩
  · rw [← hbyte]
    split_ifs <;> rfl
  · rw [apply_ite Inode.size]
    dsimp only
    split_ifs <;> omega

/-- A chunk that is refused. -/
theorem writei_refused (h : ip.size < off ∨ maxfile * bsize < off + n) (hoff : off < 2 ^ 32) (hn : n < 2 ^ 31) :
    writei ip src off n = (-1, ip) := by
  rw [writei]
  by_cases hwrap : ip.size < off ∨ (off + n) % 2 ^ 32 < off
  · rw [if_pos hwrap]
  · rw [if_neg hwrap, if_pos (by omega)]

/-! ## The loop of `filewrite` -/

theorem filewriteLoop_end (h : ¬ i < n) : filewriteLoop addr n ip off i = some (i, off, ip) := by
  rw [filewriteLoop, dif_neg h]

theorem filewriteLoop_next (addr : ℕ → Byte) (h : i < n) (hoff : off ≤ ip.size) (hle : off + min (n - i) chunk ≤ maxfile * bsize) :
    ∃ ip', Wrote (fun j => addr (i + j)) ip ip' off (min (n - i) chunk) ∧ filewriteLoop addr n ip off i =
      filewriteLoop addr n ip' (off + min (n - i) chunk) (i + min (n - i) chunk) := by
  obtain ⟨ip', hw, hwrote⟩ := writei_done (fun j => addr (i + j)) hoff hle
  have hmax : maxfile * bsize = 71680 := by decide
  have hmod : (off + min (n - i) chunk) % 2 ^ 32 = off + min (n - i) chunk := Nat.mod_eq_of_lt (by omega)
  have hpos : (0 : ℤ) < (min (n - i) chunk : ℕ) := by
    have : 0 < chunk := by decide
    omega
  refine ⟨ip', hwrote, ?_⟩
  rw [filewriteLoop, dif_pos h]
  simp only [hw, hpos, hpos.not_gt, hmod, Int.toNat_natCast, ne_eq, not_true_eq_false, if_true, if_false]

theorem filewriteLoop_stop (h : i < n) (hbad : ip.size < off ∨ maxfile * bsize < off + min (n - i) chunk)
    (hoff : off < 2 ^ 32) (hn : n < 2 ^ 31) : filewriteLoop addr n ip off i = some (i, off, ip) := by
  rw [filewriteLoop, dif_pos h]
  simp only [writei_refused hbad hoff (by omega)]
  rfl

theorem Wrote.le_size (h : Wrote src ip ip' off k) (hoff : off ≤ ip.size) : off + k ≤ ip'.size := by
  rw [h.size]
  split_ifs <;> omega

/-- Two chunks are one. -/
theorem Wrote.append (h : Wrote (fun j => addr (i + j)) ip ip' off k)
    (h' : Wrote (fun j => addr (i + k + j)) ip' ip'' (off + k) m) :
    Wrote (fun j => addr (i + j)) ip ip'' off (k + m) where
  byte x := by
    rw [h'.byte, h.byte]
    split_ifs
    any_goals omega
    · congr 1
      omega
    · rfl
    · rfl
  size := by
    rw [h'.size, h.size]
    split_ifs <;> omega

/-- The whole write fits. -/
theorem filewriteLoop_fits (addr : ℕ → Byte) (i : ℕ) : ∀ ip off, i ≤ n →
    i = n ∨ off ≤ ip.size ∧ off + (n - i) ≤ maxfile * bsize →
    ∃ ip', filewriteLoop addr n ip off i = some (n, off + (n - i), ip') ∧
      Wrote (fun j => addr (i + j)) ip ip' off (n - i) := by
  induction hk : n - i using Nat.strong_induction_on generalizing i with
  | _ k ih =>
    intro ip off hi hfit
    by_cases h : i < n
    · have hpos : 0 < chunk := by decide
      obtain ⟨hoff, hle⟩ := hfit.resolve_left h.ne
      obtain ⟨ip₁, hw, heq⟩ := filewriteLoop_next addr h hoff (by omega)
      generalize hn1 : min (n - i) chunk = n1 at hw heq
      obtain ⟨ip₂, heq', hw'⟩ := ih (n - (i + n1)) (by omega) (i + n1) rfl ip₁ (off + n1) (by omega)
        (Or.inr ⟨hw.le_size hoff, by omega⟩)
      refine ⟨ip₂, ?_, ?_⟩
      · rw [heq, heq', show off + n1 + (n - (i + n1)) = off + k by omega]
      · rw [show k = n1 + (n - (i + n1)) by omega]
        exact hw.append hw'
    · obtain rfl : i = n := by omega
      refine ⟨ip, ?_, fun x => ?_, ?_⟩
      · rw [filewriteLoop_end h, show off + k = off by omega]
      · rw [if_neg (by omega)]
      · rw [if_pos (by omega)]

/-- The write does not fit: some chunk is refused, perhaps after others. -/
theorem filewriteLoop_over (addr : ℕ → Byte) (hn : n < 2 ^ 31) (i : ℕ) : ∀ ip off, i ≤ n → off ≤ ip.size → ip.size ≤ maxfile * bsize →
    maxfile * bsize < off + (n - i) →
    ∃ i' off' ip', filewriteLoop addr n ip off i = some (i', off', ip') ∧ i' < n ∧ off ≤ off' ∧
      (off + min (n - i) chunk ≤ maxfile * bsize → off < off') := by
  have hmax : maxfile * bsize = 71680 := by decide
  have hpos : 0 < chunk := by decide
  induction hk : n - i using Nat.strong_induction_on generalizing i with
  | _ k ih =>
    intro ip off hi hoff hsize hover
    by_cases hle : off + min (n - i) chunk ≤ maxfile * bsize
    · obtain ⟨ip₁, hw, heq⟩ := filewriteLoop_next addr (by omega) hoff hle
      generalize hn1 : min (n - i) chunk = n1 at hw heq
      have hsize₁ : ip₁.size ≤ maxfile * bsize := by
        rw [hw.size]
        split_ifs <;> omega
      obtain ⟨i', off', ip', heq', hi', hoff', -⟩ := ih (n - (i + n1)) (by omega) (i + n1) rfl ip₁ (off + n1)
        (by omega) (hw.le_size hoff) hsize₁ (by omega)
      exact ⟨i', off', ip', heq.trans heq', hi', by omega, fun _ => by omega⟩
    · refine ⟨i, off, ip, filewriteLoop_stop (by omega) (Or.inr (by omega)) (by omega) hn, by omega, le_rfl, fun h => ?_⟩
      omega

/-! ## What is reported -/

/-- `r` says what became of the file: its first `r` bytes were written and the offset went on by as much,
or, if `r` is -1, nothing happened. -/
def Reports (addr : ℕ → Byte) (f f' : File) (ip ip' : Inode) (r : ℤ) : Prop :=
  (∀ k : ℕ, r = k → f'.off = f.off + k ∧ Wrote addr ip ip' f.off k) ∧ (r = -1 → f'.off = f.off ∧ ip' = ip)

/-- **`filewrite` reports what it did**, unless it begins to write and the end of the write is beyond the
largest file. -/
theorem filewrite_reports_iff (pipewrite : ℤ) (f : File) (ip : Inode) (addr : ℕ → Byte) (n : ℕ)
    (hwritable : f.writable = true) (htype : f.type = .inode) (hoff : f.off < 2 ^ 32)
    (hsize : ip.size ≤ maxfile * bsize) (hn : n < 2 ^ 31) :
    ∃ r f' ip', filewrite pipewrite f ip addr n = some (r, f', ip') ∧ (Reports addr f f' ip ip' r ↔
      ip.size < f.off ∨ maxfile * bsize < f.off + min n chunk ∨ f.off + n ≤ maxfile * bsize) := by
  have hrun : ∀ {i off ip'}, filewriteLoop addr n ip f.off 0 = some (i, off, ip') →
      filewrite pipewrite f ip addr n = some (if i = n then (n : ℤ) else -1, { f with off := off }, ip') := by
    intro i off ip' heq
    simp only [filewrite, hwritable, htype, heq, Option.map_some]
    rfl
  by_cases hfit : n = 0 ∨ f.off ≤ ip.size ∧ f.off + n ≤ maxfile * bsize
  · obtain ⟨ip', heq, hw⟩ := filewriteLoop_fits addr 0 ip f.off (Nat.zero_le n) (by omega)
    simp only [Nat.sub_zero, Nat.zero_add] at heq hw
    have h := hrun heq
    rw [if_pos rfl] at h
    refine ⟨_, _, _, h, iff_of_true ⟨fun k hk => ?_, fun hk => ?_⟩ (by omega)⟩
    · obtain rfl := Int.ofNat.inj hk
      exact ⟨rfl, hw⟩
    · exact absurd hk (by omega)
  · by_cases hstop : ip.size < f.off ∨ maxfile * bsize < f.off + min n chunk
    · have h := hrun (filewriteLoop_stop (by omega) (by rwa [Nat.sub_zero]) hoff hn)
      refine ⟨_, _, _, h, iff_of_true ⟨fun k hk => ?_, fun _ => ⟨rfl, rfl⟩⟩ (by omega)⟩
      exact absurd hk (by omega)
    · -- a chunk is written before one is refused
      obtain ⟨i, off, ip', heq, hi, -, hlt⟩ := filewriteLoop_over addr hn 0 ip f.off (Nat.zero_le n)
        (by omega) hsize (by omega)
      have h := hrun heq
      rw [if_neg hi.ne] at h
      refine ⟨_, _, _, h, iff_of_false (fun hr => ?_) (by omega)⟩
      exact (hlt (by omega)).ne (hr.2 rfl).1.symm

/-- A byte at the start of an empty file. -/
theorem filewrite_reports_byte :
    ∃ r f' ip', filewrite 0 ⟨.inode, true, 0⟩ ⟨0, fun _ _ => 0⟩ (fun _ => 1) 1 = some (r, f', ip') ∧
      Reports (fun _ => 1) ⟨.inode, true, 0⟩ f' ⟨0, fun _ _ => 0⟩ ip' r := by
  obtain ⟨r, f', ip', heq, h⟩ := filewrite_reports_iff 0 ⟨.inode, true, 0⟩ ⟨0, fun _ _ => 0⟩ (fun _ => 1) 1
    rfl rfl (by decide) (by decide) (by decide)
  exact ⟨r, f', ip', heq, h.2 (by decide)⟩

/-- One byte more than a file can have, to an empty file: -1 is returned, and the offset has moved. -/
theorem filewrite_misreports : ∃ f' ip',
    filewrite 0 ⟨.inode, true, 0⟩ ⟨0, fun _ _ => 0⟩ (fun _ => 1) (maxfile * bsize + 1) = some (-1, f', ip') ∧
      f'.off ≠ 0 := by
  obtain ⟨i, off, ip', heq, hi, -, hlt⟩ := filewriteLoop_over (fun _ => 1) (n := maxfile * bsize + 1)
    (by decide) 0 ⟨0, fun _ _ => 0⟩ 0 (Nat.zero_le _) le_rfl (Nat.zero_le _) (by decide)
  refine ⟨⟨.inode, true, off⟩, ip', ?_, (hlt (by decide)).ne'⟩
  simp only [filewrite, heq, Option.map_some, hi.ne, if_false]
  rfl

end OsLab.Xv6.Filewrite
