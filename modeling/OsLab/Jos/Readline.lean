import Mathlib.Tactic

/-!
# Reading a line: `lib/readline.c`

`readline` takes characters from `getchar` until the line ends.  Whether a character edits the line, is stored or ends
the line is decided by one chain of conditions, in which a delete character that finds nothing to delete goes on to the
next condition and is stored as any other character.

* `readline_steps`: what is in `buf` after a number of characters.
* `readline_right_iff`: when the line is the one that was typed.
-/

namespace OsLab.Jos.Readline

open Function

abbrev Byte := BitVec 8

/-- `BUFLEN`. -/
def buflen : ℕ := 1024

/-- `'\b'`. -/
def bs : Byte := 0x08#8

/-- `'\x7f'`. -/
def del : Byte := 0x7f#8

/-- `c == '\n' || c == '\r'`. -/
def IsEol (c : Byte) : Prop := c = 0x0a#8 ∨ c = 0x0d#8

instance (c : Byte) : Decidable (IsEol c) := inferInstanceAs (Decidable (_ ∨ _))

/-- The buffer, the number of characters in it, and the places of it that have been written. -/
structure State where
  buf : ℕ → Byte
  i : ℕ
  written : List ℕ

/-- `buf[i] = c`. -/
def State.put (s : State) (c : Byte) : State :=
  { s with buf := update s.buf s.i c, written := s.i :: s.written }

/-- How `readline` ends, if it does not wait for `getchar`: with `NULL` or with `buf`. -/
inductive Result where
  | waits (s : State)
  | null (s : State)
  | line (s : State)

def Result.state : Result → State
  | waits s | null s | line s => s

/-- The loop of `readline` on what `getchar` returns, where `none` is a negative number. -/
def readline (s : State) : List (Option Byte) → Result
  | [] => .waits s
  | none :: _ => .null s
  | some c :: cs =>
    if (c = bs ∨ c = del) ∧ 0 < s.i then readline { s with i := s.i - 1 } cs
    else if 0x20#8 ≤ c ∧ s.i < buflen - 1 then readline { s.put c with i := s.i + 1 } cs
    else if IsEol c then .line (s.put 0#8)
    else readline s cs

/-! ## What a line is meant to be -/

/-- A character is typed. -/
def edit (held : List Byte) (c : Byte) : List Byte :=
  if c = bs ∨ c = del then held.dropLast
  else if 0x20#8 ≤ c ∧ held.length < buflen - 1 then held ++ [c]
  else held

/-- The string in `buf`. -/
def IsString (buf : ℕ → Byte) (l : List Byte) : Prop :=
  (∀ k, (hk : k < l.length) → buf k = l[k]) ∧ buf l.length = 0#8 ∧ 0#8 ∉ l

/-- `readline` does with the characters `l`, the first ones after a call, what it should: it returns the line when it
ends after these, `NULL` when then there is an error, and goes on otherwise; and it stays within `buf`. -/
structure Right (buf : ℕ → Byte) (l : List Byte) : Prop where
  line : ∀ c cs, IsEol c → ∃ s, readline ⟨buf, 0, []⟩ (l.map some ++ some c :: cs) = .line s ∧
    IsString s.buf (l.foldl edit [])
  null : ∀ cs, ∃ s, readline ⟨buf, 0, []⟩ (l.map some ++ none :: cs) = .null s
  waits : ∃ s, readline ⟨buf, 0, []⟩ (l.map some) = .waits s
  bounds : ∀ cs, ∀ k ∈ (readline ⟨buf, 0, []⟩ cs).state.written, k < buflen

/-! ## One character -/

variable {s : State} {l held : List Byte} {c : Byte} {buf : ℕ → Byte}

/-- The buffer holds the characters `held`. -/
structure Holds (s : State) (held : List Byte) : Prop where
  i : s.i = held.length
  lt : held.length < buflen
  buf : ∀ k, (hk : k < held.length) → s.buf k = held[k]
  nonzero : 0#8 ∉ held

theorem Holds.push (h : Holds s held) (hc : 0x20#8 ≤ c) (hroom : held.length < buflen - 1) :
    Holds { s.put c with i := s.i + 1 } (held ++ [c]) := by
  refine ⟨by simp [h.i], by simp; omega, fun k hk => ?_, ?_⟩
  · show update s.buf s.i c k = _
    rw [h.i]
    by_cases hlt : k < held.length
    · rw [update_of_ne hlt.ne, h.buf k hlt, List.getElem_append_left hlt]
    · obtain rfl : k = held.length := by simp at hk; omega
      simp
  · have hne : (0#8 : Byte) ≠ c := by rintro rfl; exact absurd hc (by decide)
    simp [h.nonzero, hne]

theorem Holds.pop (h : Holds s held) : Holds { s with i := s.i - 1 } held.dropLast := by
  refine ⟨by simp [h.i], ?_, fun k hk => ?_, fun hmem => h.nonzero (List.mem_of_mem_dropLast hmem)⟩
  · have hlt := h.lt
    simp
    omega
  · rw [List.getElem_dropLast]
    exact h.buf k _

theorem Holds.string (h : Holds s held) : IsString (s.put 0#8).buf held := by
  have hput : ∀ k, (s.put 0#8).buf k = if k = held.length then 0#8 else s.buf k := fun k => by
    rw [← h.i]
    exact update_apply ..
  refine ⟨fun k hk => ?_, ?_, h.nonzero⟩
  · rw [hput, if_neg hk.ne, h.buf k hk]
  · rw [hput, if_pos rfl]

/-- **A character that does not end the line** is processed as it should be, unless it is a delete character and
there is nothing to delete. -/
theorem Holds.step (h : Holds s held) (hc : ¬ IsEol c) (hdel : c = del → held ≠ []) :
    ∃ s', Holds s' (edit held c) ∧ ∀ cs, readline s (some c :: cs) = readline s' cs := by
  by_cases hback : c = bs ∨ c = del
  · rw [edit, if_pos hback]
    by_cases hi : 0 < s.i
    · exact ⟨_, h.pop, fun cs => by rw [readline, if_pos ⟨hback, hi⟩]⟩
    · -- nothing is held, so the character is a backspace, which is no character to store
      obtain rfl : held = [] := List.eq_nil_of_length_eq_zero (by rw [← h.i]; omega)
      have hbs : c = bs := hback.resolve_right fun hd => hdel hd rfl
      refine ⟨s, h, fun cs => ?_⟩
      rw [readline, if_neg fun hh => hi hh.2, if_neg fun hh => absurd hh.1 (by rw [hbs]; decide), if_neg hc]
  · rw [edit, if_neg hback]
    by_cases hroom : 0x20#8 ≤ c ∧ held.length < buflen - 1
    · rw [if_pos hroom]
      refine ⟨_, h.push hroom.1 hroom.2, fun cs => ?_⟩
      rw [readline, if_neg fun hh => hback hh.1, if_pos (by rw [h.i]; exact hroom)]
    · rw [if_neg hroom]
      refine ⟨s, h, fun cs => ?_⟩
      rw [readline, if_neg fun hh => hback hh.1, if_neg (by rw [h.i]; exact hroom), if_neg hc]

/-! ## All characters -/

/-- A delete character never comes when there is nothing to delete. -/
def NoIdleDel (l : List Byte) : Prop := ∀ l', l' ++ [del] <+: l → l'.foldl edit [] ≠ []

/-- What is in `buf` after the characters `l`. -/
theorem readline_steps (buf : ℕ → Byte) (hl : ∀ c ∈ l, ¬ IsEol c) (hdel : NoIdleDel l) :
    ∃ s, Holds s (l.foldl edit []) ∧ ∀ cs, readline ⟨buf, 0, []⟩ (l.map some ++ cs) = readline s cs := by
  induction l using List.reverseRecOn with
  | nil => exact ⟨_, ⟨rfl, by decide, nofun, nofun⟩, fun cs => rfl⟩
  | append_singleton l c ih =>
    obtain ⟨s, hs, hrun⟩ := ih (fun x hx => hl x (by simp [hx])) fun l' hl' =>
      hdel l' (hl'.trans (List.prefix_append l [c]))
    obtain ⟨s', hs', hstep⟩ := hs.step (hl c (by simp)) fun hc => hdel l (by rw [hc])
    refine ⟨s', by rw [List.foldl_append]; exact hs', fun cs => ?_⟩
    rw [List.map_append, List.append_assoc, hrun]
    exact hstep cs

/-- **`buf` is written within its bounds**, whatever is typed. -/
theorem readline_bounds (cs : List (Option Byte)) (hi : s.i < buflen) (hs : ∀ k ∈ s.written, k < buflen) :
    ∀ k ∈ (readline s cs).state.written, k < buflen := by
  have hput : ∀ k ∈ s.i :: s.written, k < buflen := by
    simpa using ⟨hi, hs⟩
  fun_induction readline s cs with
  | case1 | case2 => exact hs
  | case3 s c cs h ih => exact ih (by simp; omega) hs (by simpa using ⟨by omega, hs⟩)
  | case4 s c cs h h' ih => exact ih (by simp; omega) hput (by simpa [State.put] using ⟨by omega, hi, hs⟩)
  | case5 => exact hput
  | case6 s c cs h h' h'' ih => exact ih hi hs hput

theorem Right.of_noIdleDel (hl : ∀ c ∈ l, ¬ IsEol c) (hdel : NoIdleDel l) : Right buf l := by
  obtain ⟨s, hs, hrun⟩ := readline_steps buf hl hdel
  refine ⟨fun c cs hc => ⟨_, (hrun _).trans ?_, hs.string⟩, fun cs => ⟨s, hrun _⟩, ⟨s, ?_⟩, fun cs =>
    readline_bounds cs (Nat.zero_lt_succ _) nofun⟩
  · have hne : ¬ ((c = bs ∨ c = del) ∧ 0 < s.i) ∧ ¬ (0x20#8 ≤ c ∧ s.i < buflen - 1) := by
      rcases hc with rfl | rfl <;> exact ⟨fun h => absurd h.1 (by decide), fun h => absurd h.1 (by decide)⟩
    rw [readline, if_neg hne.1, if_neg hne.2, if_pos hc]
  · simpa [readline] using hrun []

/-- A delete character that finds nothing to delete is stored. -/
theorem not_right_of_idle (hl : ∀ c ∈ l, ¬ IsEol c) (hdel : NoIdleDel l) (hnil : l.foldl edit [] = []) :
    ¬ Right buf (l ++ [del]) := by
  intro hright
  obtain ⟨s, hs, hrun⟩ := readline_steps buf hl hdel
  rw [hnil] at hs
  obtain ⟨s', hline, -, hend, -⟩ := hright.line 0x0a#8 [] (by decide)
  have hi : s.i = 0 := hs.i
  have hstored : readline s [some del, some 0x0a#8] = .line (({ s.put del with i := 1 } : State).put 0#8) := by
    simp [readline, hi, bs, del, buflen, IsEol]
  rw [List.map_append, List.append_assoc, hrun] at hline
  obtain rfl := Result.line.inj (hstored.symm.trans hline)
  rw [List.foldl_append, hnil] at hend
  have hzero : update (update s.buf s.i del) 1 0#8 0 = 0#8 := hend
  rw [update_of_ne (by decide), hi, update_self] at hzero
  exact absurd hzero (by decide)

/-- **When the line is the one that was typed.**  For all characters `l` that do not end a line, `readline` does with
them, and with each of their beginnings, what it should, if and only if a delete character never comes when there is
nothing to delete. -/
theorem readline_right_iff (buf : ℕ → Byte) (l : List Byte) (hl : ∀ c ∈ l, ¬ IsEol c) :
    (∀ l', l' <+: l → Right buf l') ↔ NoIdleDel l := by
  constructor
  · intro hright
    induction l using List.reverseRecOn with
    | nil => simp [NoIdleDel]
    | append_singleton l c ih =>
      have hl' : ∀ c ∈ l, ¬ IsEol c := fun x hx => hl x (by simp [hx])
      have hdel := ih hl' fun l' h => hright l' (h.trans (List.prefix_append l [c]))
      intro l' h
      rcases List.prefix_concat_iff.1 h with heq | h
      · obtain ⟨rfl, hc⟩ := List.append_inj' heq rfl
        obtain rfl : del = c := by simpa using hc
        exact fun hnil => not_right_of_idle hl' hdel hnil (hright _ (List.prefix_refl _))
      · exact hdel l' h
  · intro hdel l' hl'
    exact .of_noIdleDel (fun c hc => hl c (hl'.subset hc)) fun l'' h => hdel l'' (h.trans hl')

/-- A character is typed and deleted. -/
theorem readline_right_iff_typed : NoIdleDel [0x61#8, del] ∧ ∀ l', l' <+: [0x61#8, del] → Right (fun _ => 0#8) l' := by
  have hok : NoIdleDel [0x61#8, del] := by
    intro l' h
    have hmem : l' ++ [del] ∈ [0x61#8, del].inits := (List.mem_inits _ _).2 h
    have hl' : l' = [0x61#8] := by
      rw [show [0x61#8, del].inits = [[], [0x61#8], [0x61#8, del]] from rfl] at hmem
      rcases l' with _ | ⟨x, _ | ⟨y, l⟩⟩ <;> simp_all [del]
    rw [hl']
    decide
  exact ⟨hok, (readline_right_iff (fun _ => 0#8) [0x61#8, del] (by decide)).2 hok⟩

/-- **A stray character.**  After a delete character at the start of the line, the line begins with it. -/
theorem del_stored : ¬ Right (fun _ => 0#8) [del] :=
  not_right_of_idle (l := []) nofun (by simp [NoIdleDel]) rfl

end OsLab.Jos.Readline
