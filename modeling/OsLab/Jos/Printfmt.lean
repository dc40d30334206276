import OsLab.Jos.Pmap

/-!
# Formatted output: `lib/printfmt.c`

`vprintfmt` reads the format one character at a time.  An escape has any number of flags and is ended by a
conversion; at a character that is neither, a `%` is printed and the format is gone back to what follows the `%`,
which is text now.

* `vsnprintf_stores`: `vprintfmt` returns and reads nothing beyond the format, and `vsnprintf` stores as much of its
  output as fits, and a NUL.
-/

namespace OsLab.Jos.Printfmt

abbrev Byte := BitVec 8

abbrev Word := BitVec 32

def chr (c : Char) : Byte := .ofNat 8 c.toNat

def bytes (s : String) : List Byte := s.toList.map chr

/-- An argument, and the string at that address. -/
structure Arg where
  word : Word
  str : List Byte

/-- `err >= MAXERROR || (p = error_string[err]) == NULL`, or else `p`.  The least number is its own negative, and
addresses the entry 0. -/
def errorString (err : Word) : Option (List Byte) :=
  let texts := ["unspecified error", "bad environment", "invalid parameter", "out of memory", "out of environments",
    "segmentation fault", "env is not recving", "unexpected end of file", "no free space on disk",
    "too many files are open", "file or block not found", "invalid path", "file already exists",
    "file is not a valid executable", "operation not supported"]
  if 16 ≤ err.toInt then none else (none :: texts.map fun s => some (bytes s))[err.toNat % 2 ^ 30]?.join

def digit (d : ℕ) : Byte := (bytes "0123456789abcdef").getD d 0

/-- The digits of `num`, padded on the left.  With a base below 2 it would not return. -/
def printnum (base : ℕ) (hbase : 2 ≤ base) (num : ℕ) (width : Word) (padc : Byte) : List Byte :=
  (if base ≤ num then printnum base hbase (num / base) (width - 1) padc
    else .replicate (width - 1).toInt.toNat padc) ++ [digit (num % base)]
termination_by num
decreasing_by exact Nat.div_lt_self (by omega) hbase

/-- The number, and how many words of the arguments it takes. -/
def getuint (args : ℕ → Arg) (lflag : Word) : BitVec 64 × ℕ :=
  if 2 ≤ lflag.toInt then ((args 1).word ++ (args 0).word, 2) else ((args 0).word.setWidth 64, 1)

@[inherit_doc getuint] def getint (args : ℕ → Arg) (lflag : Word) : BitVec 64 × ℕ :=
  if 2 ≤ lflag.toInt then ((args 1).word ++ (args 0).word, 2) else ((args 0).word.signExtend 64, 1)

/-- What an escape has set. -/
structure Escape where
  padc : Byte := chr ' '
  width : Word := -1
  precision : Word := -1
  lflag : Word := 0
  altflag : Bool := false

/-- `process_precision`. -/
def Escape.processPrecision (e : Escape) : Escape :=
  if e.width.toInt < 0 then { e with width := e.precision, precision := -1 } else e

/-- `precision = precision * 10 + ch - '0'`. -/
def Escape.digit (e : Escape) (ch : Byte) : Escape :=
  { e with precision := e.precision * 10 + ch.setWidth 32 - 48 }

/-- The case `s`; `pad` is what goes to the left, and `width` what is then left of the width. -/
def putString (e : Escape) (p : List Byte) : List Byte :=
  let left := 0 < e.width.toInt ∧ e.padc ≠ chr '-'
  let rest := e.width - .ofNat 32 (min p.length e.precision.toNat)
  let pad := if left then rest.toInt.toNat else 0
  let width := if left then if 0 < rest.toInt then 0 else rest else e.width
  let shown := if e.precision.toInt < 0 then p else p.take e.precision.toNat
  .replicate pad e.padc ++
    shown.map (fun ch => if e.altflag ∧ (ch.slt (chr ' ') ∨ (chr '~').slt ch) then chr '?' else ch) ++
    .replicate (width - .ofNat 32 shown.length).toInt.toNat (chr ' ')

/-- What a character of an escape leads to; `used` is how many words of the arguments are taken. -/
inductive Next where
  | reswitch (e : Escape) (used : ℕ)
  | digits (e : Escape)
  | put (out : List Byte) (used : ℕ)
  | error (err : Word)
  | unrecognized

/-- The `switch`. -/
def convert (e : Escape) (args : ℕ → Arg) (ch : Byte) : Next :=
  let arg := (args 0).word
  let (num, used) := getuint args e.lflag
  let number (base : ℕ) (hbase : 2 ≤ base) (num : ℕ) := printnum base hbase num e.width e.padc
  match Char.ofNat ch.toNat with
  | '-' | '0' => .reswitch { e with padc := ch } 0
  | '1' | '2' | '3' | '4' | '5' | '6' | '7' | '8' | '9' => .digits ({ e with precision := 0 }.digit ch)
  | '*' => .reswitch { e with precision := arg }.processPrecision 1
  | '.' => .reswitch { e with width := if e.width.toInt < 0 then 0 else e.width } 0
  | '#' => .reswitch { e with altflag := true } 0
  | 'l' => .reswitch { e with lflag := e.lflag + 1 } 0
  | 'c' => .put [arg.setWidth 8] 1
  | 'e' => .error (if arg.toInt < 0 then -arg else arg)
  | 's' => .put (putString e (if arg = 0 then bytes "(null)" else (args 0).str)) 1
  | 'd' =>
    let (num, used) := getint args e.lflag
    .put (if num.toInt < 0 then chr '-' :: number 10 (by decide) (-num).toNat
      else number 10 (by decide) num.toNat) used
  | 'u' => .put (number 10 (by decide) num.toNat) used
  | 'o' => .put (number 8 (by decide) num.toNat) used
  | 'p' => .put (bytes "0x" ++ number 16 (by decide) arg.toNat) 1
  | 'x' => .put (number 16 (by decide) num.toNat) used
  | '%' => .put [ch] 0
  | _ => .unrecognized

/-- Where `vprintfmt` is: in text, at the next character of an escape, at the next digit of a number, or going
back. -/
inductive Mode where
  | text
  | escape (e : Escape)
  | digits (e : Escape)
  | back

/-- `*(unsigned char *) fmt`, where nothing beyond the NUL may be read. -/
def read (fmt : List Byte) (i : ℕ) : Option Byte := (fmt ++ [0#8])[i]?

def rest (args : ℕ → Arg) (used : ℕ) : ℕ → Arg := fun j => args (j + used)

/-- The calls of `printfmt` for an error. -/
def printError (vprintfmt : List Byte → (ℕ → Arg) → Mode → ℕ → Option (List Byte)) (err : Word) :
    Option (List Byte) :=
  match errorString err with
  | none => vprintfmt (bytes "error %d") (fun _ => ⟨err, []⟩) .text 0
  -- the constant is not at the address 0
  | some p => vprintfmt (bytes "%s") (fun _ => ⟨1, p⟩) .text 0

/-- The characters that `vprintfmt` gives to `putch`, if it returns within so many rounds and reads nothing outside
the format. -/
def vprintfmt : ℕ → List Byte → (ℕ → Arg) → Mode → ℕ → Option (List Byte)
  | 0, _, _, _, _ => none
  | n + 1, fmt, args, .text, i => do
    let ch ← read fmt i
    if ch = chr '%' then vprintfmt n fmt args (.escape {}) (i + 1)
    else if ch = 0#8 then some []
    else (vprintfmt n fmt args .text (i + 1)).map (ch :: ·)
  | n + 1, fmt, args, .escape e, i => do
    match convert e args (← read fmt i) with
    | .reswitch e used => vprintfmt n fmt (rest args used) (.escape e) (i + 1)
    | .digits e => vprintfmt n fmt args (.digits e) (i + 1)
    | .put out used => (vprintfmt n fmt (rest args used) .text (i + 1)).map (out ++ ·)
    | .error err =>
      let msg ← printError (vprintfmt n) err
      (vprintfmt n fmt (rest args 1) .text (i + 1)).map (msg ++ ·)
    | .unrecognized => (vprintfmt n fmt args .back i).map (chr '%' :: ·)
  | n + 1, fmt, args, .digits e, i => do
    let ch ← read fmt i
    if chr '0' ≤ ch ∧ ch ≤ chr '9' then vprintfmt n fmt args (.digits (e.digit ch)) (i + 1)
    else vprintfmt n fmt args (.escape e.processPrecision) i
  | _ + 1, _, _, .back, 0 => none
  | n + 1, fmt, args, .back, i + 1 => do
    if (← read fmt i) = chr '%' then vprintfmt n fmt args .text (i + 1) else vprintfmt n fmt args .back i

/-- `struct sprintbuf`, and what has been stored where. -/
structure Sprintbuf where
  buf : ℕ
  ebuf : ℕ
  cnt : Word
  stores : List (Byte × ℕ)

def sprintputch (b : Sprintbuf) (ch : Byte) : Sprintbuf :=
  if b.buf < b.ebuf then { b with cnt := b.cnt + 1, buf := b.buf + 1, stores := b.stores ++ [(ch, b.buf)] }
  else { b with cnt := b.cnt + 1 }

/-- The number returned, and the stores. -/
def vsnprintf (k buf : ℕ) (n : Word) (fmt : List Byte) (args : ℕ → Arg) : Option (ℤ × List (Byte × ℕ)) :=
  if buf = 0 ∨ n.toInt < 1 then some (-eInval, [])
  else do
    let b := (← vprintfmt k fmt args .text 0).foldl sprintputch ⟨buf, buf + n.toNat - 1, 0#32, []⟩
    return (b.cnt.toInt, b.stores ++ [(0#8, b.buf)])

/-! ## The end of the format -/

variable {fmt : List Byte} {args args' : ℕ → Arg} {m m' : Mode} {i i' p : ℕ} {ch : Byte}

/-- From there `vprintfmt` returns. -/
def Halts (fmt : List Byte) (args : ℕ → Arg) (m : Mode) (i : ℕ) : Prop :=
  ∃ out N, ∀ n ≥ N, vprintfmt n fmt args m i = some out

theorem Halts.of_add (k : ℕ) (h : ∃ out, ∀ n, vprintfmt (n + k) fmt args m i = some out) :
    Halts fmt args m i := by
  obtain ⟨out, hout⟩ := h
  refine ⟨out, k, fun n hn => ?_⟩
  obtain ⟨n, rfl⟩ := Nat.exists_eq_add_of_le' hn
  exact hout n

/-- One round; `g` adds what it prints. -/
theorem Halts.step (g : List Byte → List Byte) (h : Halts fmt args' m' i')
    (hstep : ∀ n, vprintfmt (n + 1) fmt args m i = (vprintfmt n fmt args' m' i').map g) : Halts fmt args m i := by
  obtain ⟨out, N, hout⟩ := h
  refine ⟨g out, N + 1, fun n hn => ?_⟩
  obtain ⟨n, rfl⟩ := Nat.exists_eq_add_of_le' (Nat.le_of_add_left_le hn)
  rw [hstep, hout n (Nat.le_of_add_le_add_right hn), Option.map_some]

theorem exists_read (h : i ≤ fmt.length) : ∃ ch, read fmt i = some ch ∧ (ch ≠ 0#8 → i < fmt.length) := by
  obtain rfl | hlt := Nat.eq_or_lt_of_le h
  · exact ⟨0#8, by simp [read], fun hne => absurd rfl hne⟩
  · exact ⟨fmt[i], by rw [read, List.getElem?_append_left hlt, List.getElem?_eq_getElem hlt], fun _ => hlt⟩

/-- Going back ends at the `%` at the latest. -/
theorem halts_back (htext : ∀ r, p < r → r ≤ fmt.length → Halts fmt args .text r)
    (hp : read fmt p = some (chr '%')) (hlt : p < i) (hi : i ≤ fmt.length) : Halts fmt args .back i := by
  induction i with
  | zero => exact absurd hlt p.not_lt_zero
  | succ i ih =>
    obtain ⟨ch, hread, -⟩ := exists_read (Nat.le_of_succ_le hi)
    by_cases hch : ch = chr '%'
    · exact (htext (i + 1) hlt hi).step id fun n => by simp [vprintfmt, hread, hch]
    · have hne : p ≠ i := by
        rintro rfl
        exact hch (Option.some.inj (hread.symm.trans hp))
      exact (ih (by omega) (Nat.le_of_succ_le hi)).step id fun n => by simp [vprintfmt, hread, hch]

/-- The calls of `printfmt`. -/
theorem printError_halts (err : Word) : ∃ msg N, ∀ n ≥ N, printError (vprintfmt n) err = some msg := by
  unfold printError
  cases errorString err with
  | none => exact Halts.of_add 10 ⟨_, fun _ => rfl⟩
  | some p => exact Halts.of_add 4 ⟨_, fun _ => rfl⟩

/-- An escape, and a number in it, after the `%` at `p`. -/
theorem halts_escape (htext : ∀ args r, p < r → r ≤ fmt.length → Halts fmt args .text r)
    (hp : read fmt p = some (chr '%')) (hlt : p < i) (hi : i ≤ fmt.length) (args : ℕ → Arg) (e : Escape) :
    Halts fmt args (.escape e) i ∧ Halts fmt args (.digits e) i := by
  induction hd : fmt.length - i using Nat.strong_induction_on generalizing i args e with
  | _ d ih =>
  have hnext := fun hlt' : i < fmt.length => ih (fmt.length - (i + 1)) (by omega) (Nat.lt_succ_of_lt hlt) hlt'
  obtain ⟨ch, hread, hnul⟩ := exists_read hi
  have hescape : ∀ e, Halts fmt args (.escape e) i := by
    intro e
    have hsucc : convert e args ch ≠ .unrecognized → i < fmt.length := fun h => hnul fun h0 => h (h0 ▸ rfl)
    cases hconv : convert e args ch with
    | unrecognized =>
      exact (halts_back (htext args) hp hlt hi).step (chr '%' :: ·) fun n => by simp [vprintfmt, hread, hconv]
    | reswitch e used =>
      have hlt' := hsucc (by simp [hconv])
      exact (hnext hlt' (rest args used) e rfl).1.step id fun n => by simp [vprintfmt, hread, hconv]
    | digits e =>
      have hlt' := hsucc (by simp [hconv])
      exact (hnext hlt' args e rfl).2.step id fun n => by simp [vprintfmt, hread, hconv]
    | put out used =>
      have hlt' := hsucc (by simp [hconv])
      exact (htext (rest args used) (i + 1) (by omega) hlt').step (out ++ ·) fun n => by
        simp [vprintfmt, hread, hconv]
    | error err =>
      have hlt' := hsucc (by simp [hconv])
      obtain ⟨msg, N, hmsg⟩ := printError_halts err
      obtain ⟨out, N', hout⟩ := htext (rest args 1) (i + 1) (by omega) hlt'
      refine ⟨msg ++ out, max N N' + 1, fun n hn => ?_⟩
      obtain ⟨n, rfl⟩ := Nat.exists_eq_add_of_le' (Nat.le_of_add_left_le hn)
      simp [vprintfmt, hread, hconv, hmsg n (by omega), hout n (by omega)]
  refine ⟨hescape e, ?_⟩
  by_cases hdigit : chr '0' ≤ ch ∧ ch ≤ chr '9'
  · have hlt' := hnul (by rintro rfl; exact absurd hdigit (by decide))
    exact (hnext hlt' args (e.digit ch) rfl).2.step id fun n => by simp [vprintfmt, hread, hdigit]
  · exact (hescape e.processPrecision).step id fun n => by simp [vprintfmt, hread, hdigit]

/-- **`vprintfmt` returns**: after an escape it is further on than the `%`. -/
theorem halts_text (hi : i ≤ fmt.length) (args : ℕ → Arg) : Halts fmt args .text i := by
  induction hd : fmt.length - i using Nat.strong_induction_on generalizing i args with
  | _ d ih =>
  obtain ⟨ch, hread, hnul⟩ := exists_read hi
  have hlater : ∀ args r, i < r → r ≤ fmt.length → Halts fmt args .text r :=
    fun args r hr hle => ih (fmt.length - r) (by omega) hle args rfl
  by_cases hch : ch = chr '%'
  · subst hch
    have hescape := halts_escape hlater hread i.lt_succ_self (hnul (by decide)) args {}
    exact hescape.1.step id fun n => by simp [vprintfmt, hread]
  by_cases h0 : ch = 0#8
  · exact .of_add 1 ⟨[], fun n => by simp [vprintfmt, hread, h0, show 0#8 ≠ chr '%' by decide]⟩
  · exact (hlater args (i + 1) i.lt_succ_self (hnul h0)).step (ch :: ·) fun n => by
      simp [vprintfmt, hread, h0, hch]

/-! ## The buffer -/

/-- `sprintputch` for every character, with room for `r` of them. -/
theorem foldl_sprintputch (out : List Byte) (buf r : ℕ) : out.foldl sprintputch ⟨buf, buf + r, 0#32, []⟩ =
    ⟨buf + (out.take r).length, buf + r, .ofNat 32 out.length, (out.take r).zipIdx buf⟩ := by
  induction out using List.reverseRecOn with
  | nil => simp
  | append_singleton out ch ih =>
    rw [List.foldl_append, ih]
    by_cases hroom : out.length < r
    · simp [sprintputch, List.take_of_length_le, Nat.le_of_lt hroom, hroom, List.zipIdx_append, Nat.add_assoc,
        BitVec.ofNat_add]
    · simp [sprintputch, hroom, List.take_append_of_le_length (Nat.le_of_not_lt hroom), BitVec.ofNat_add]

/-- **`vsnprintf` stores what fits of the output, and a NUL**, and returns the length of the whole output. -/
theorem vsnprintf_stores (fmt : List Byte) (args : ℕ → Arg) :
    ∃ out N, ∀ k ≥ N, vprintfmt k fmt args .text 0 = some out ∧
      ∀ buf n, buf ≠ 0 → 1 ≤ n.toInt → out.length < 2 ^ 31 →
        vsnprintf k buf n fmt args = some ((out.length : ℤ), (out.take (n.toNat - 1) ++ [0#8]).zipIdx buf) := by
  obtain ⟨out, N, hout⟩ := halts_text (Nat.zero_le fmt.length) args
  refine ⟨out, N, fun k hk => ⟨hout k hk, fun buf n hbuf hn hlen => ?_⟩⟩
  have hpos : 1 ≤ n.toNat := by
    by_contra hzero
    simp [BitVec.toInt, show n.toNat = 0 by omega] at hn
  have hcnt : (BitVec.ofNat 32 out.length).toInt = out.length := by
    rw [BitVec.toInt_eq_toNat_of_lt, BitVec.toNat_ofNat] <;> simp <;> omega
  rw [vsnprintf, if_neg (by omega), hout k hk, Nat.add_sub_assoc hpos]
  simp [foldl_sprintputch, hcnt, List.zipIdx_append]

/-- A lone `%` is printed; here one character fits. -/
theorem vsnprintf_stores_lone :
    ∃ k, vsnprintf k 1 2 (bytes "a%") (fun _ => ⟨0, []⟩) = some (2, [(chr 'a', 1), (0#8, 2)]) := by
  obtain ⟨out, N, h⟩ := vsnprintf_stores (bytes "a%") fun _ => ⟨0, []⟩
  obtain ⟨hout, hstores⟩ := h (N + 5) (Nat.le_add_right N 5)
  obtain rfl : bytes "a%" = out := Option.some.inj hout
  exact ⟨N + 5, hstores 1 2 (by decide) (by decide) (by decide)⟩

end OsLab.Jos.Printfmt
