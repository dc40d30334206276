import Mathlib.Computability.Language

/-!
# `grep`

The matcher of `grep.c` and its loop over what `read` returns.  Strings are the bytes before the terminating NUL.

* `matchhere_iff`: `matchhere` finds a beginning of the text that is in the language of the pattern.
* `match_iff`: `match` finds a substring.
* `grep_lines_iff`: `grep` writes the lines that match, if no read result without a newline comes before one that has
  one; else a part of some line is lost.
-/

namespace OsLab.Xv6.Grep

abbrev Byte := BitVec 8

def caret : Byte := 94#8
def dollar : Byte := 36#8
def dot : Byte := 46#8
def star : Byte := 42#8
def newline : Byte := 10#8

mutual

def matchhere (re text : List Byte) : Bool :=
  match re with
  | [] => true
  | c :: re =>
    if re.head? = some star then matchstar c re.tail text
    else if c = dollar ∧ re = [] then text.isEmpty
    else
      match text with
      | [] => false
      | t :: text => if c = dot ∨ c = t then matchhere re text else false
termination_by (re.length, text.length, 0)

def matchstar (c : Byte) (re text : List Byte) : Bool :=
  if matchhere re text then true
  else
    match text with
    | [] => false
    | t :: text => if t = c ∨ c = dot then matchstar c re text else false
termination_by (re.length, text.length, 1)

end

/-- The loop of `match`. -/
def matchLoop (re : List Byte) : List Byte → Bool
  | [] => matchhere re []
  | t :: text => if matchhere re (t :: text) then true else matchLoop re text

/-- `match`. -/
def matchRe (re text : List Byte) : Bool :=
  match re with
  | [] => matchLoop [] text
  | c :: re => if c = caret then matchhere re text else matchLoop (c :: re) text

/-! ## What a pattern means -/

/-- The character of a pattern stands for the character of a text. -/
def Fits (c t : Byte) : Prop := c = dot ∨ c = t

/-- A piece of a pattern: a character, or one with a star after it. -/
inductive Piece where
  | one (c : Byte)
  | many (c : Byte)

def Piece.lang : Piece → Language Byte
  | .one c => {w | ∃ t, Fits c t ∧ w = [t]}
  | .many c => {w | ∀ t ∈ w, Fits c t}

/-- The pieces of a pattern without a leading `^`.  A final `$` is none. -/
def pieces : List Byte → List Piece
  | [] => []
  | [c] => if c = dollar then [] else [.one c]
  | c :: s :: re => if s = star then .many c :: pieces re else .one c :: pieces (s :: re)

/-- The pattern has a final `$`. -/
def endsAt : List Byte → Bool
  | [] => false
  | [c] => c = dollar
  | _ :: s :: re => if s = star then endsAt re else endsAt (s :: re)

/-- The language of a pattern without a leading `^`. -/
def lang (re : List Byte) : Language Byte := ((pieces re).map Piece.lang).prod

/-- The text has a beginning in the language, which is all of it if there is a final `$`. -/
def Here (re text : List Byte) : Prop := ∃ w v, text = w ++ v ∧ w ∈ lang re ∧ (endsAt re → v = [])

variable {c s t : Byte} {re text w : List Byte}

theorem matchstar_iff : matchstar c re text ↔
    ∃ u v, text = u ++ v ∧ (∀ t ∈ u, Fits c t) ∧ matchhere re v := by
  induction text with
  | nil =>
    rw [matchstar]
    simp
  | cons t text ih =>
    rw [matchstar]
    constructor
    · intro h
      by_cases hhere : matchhere re (t :: text)
      · exact ⟨[], t :: text, rfl, by simp, hhere⟩
      · simp only [hhere, Bool.false_eq_true, if_false, Bool.if_false_right, Bool.and_eq_true, decide_eq_true_eq] at h
        obtain ⟨u, v, rfl, hu, hv⟩ := ih.1 h.2
        refine ⟨t :: u, v, rfl, ?_, hv⟩
        intro x hx
        rcases List.mem_cons.1 hx with rfl | hx
        · exact h.1.symm.imp_right Eq.symm
        · exact hu x hx
    · rintro ⟨u, v, huv, hu, hv⟩
      cases u with
      | nil =>
        rw [List.nil_append] at huv
        rw [huv, if_pos hv]
      | cons x u =>
        obtain ⟨rfl, rfl⟩ := List.cons.inj huv
        have hfit : t = c ∨ c = dot := (hu t List.mem_cons_self).symm.imp_left Eq.symm
        have hrest : matchstar c re (u ++ v) := ih.2 ⟨u, v, rfl, fun y hy => hu y (List.mem_cons_of_mem t hy), hv⟩
        rw [List.append_eq, if_pos hfit, hrest, ite_self]

theorem matchhere_many : matchhere (c :: star :: re) text = matchstar c re text := by
  rw [matchhere.eq_def]
  simp

theorem matchhere_one (hre : re.head? ≠ some star) (hc : c = dollar → re ≠ []) :
    matchhere (c :: re) text ↔ ∃ t v, text = t :: v ∧ Fits c t ∧ matchhere re v := by
  rw [matchhere.eq_def]
  have hc' : ¬ (c = dollar ∧ re = []) := fun h => hc h.1 h.2
  simp only [if_neg hre, if_neg hc']
  cases text with
  | nil => simp
  | cons t text => simp [Fits]

theorem matchhere_dollar : matchhere [dollar] text ↔ text = [] := by
  rw [matchhere.eq_def]
  simp

theorem here_many : Here (c :: star :: re) text ↔ ∃ u v, text = u ++ v ∧ (∀ t ∈ u, Fits c t) ∧ Here re v := by
  constructor
  · rintro ⟨_, v, rfl, ⟨u, hu, w, hw, rfl⟩, hv⟩
    exact ⟨u, w ++ v, List.append_assoc .., hu, w, v, rfl, hw, hv⟩
  · rintro ⟨u, _, rfl, hu, w, v, rfl, hw, hv⟩
    exact ⟨u ++ w, v, (List.append_assoc ..).symm, ⟨u, hu, w, hw, rfl⟩, hv⟩

theorem here_one (hre : re.head? ≠ some star) (hc : c = dollar → re ≠ []) :
    Here (c :: re) text ↔ ∃ t v, text = t :: v ∧ Fits c t ∧ Here re v := by
  have hpieces : pieces (c :: re) = .one c :: pieces re ∧ endsAt (c :: re) = endsAt re := by
    cases re with
    | nil => simp [pieces, endsAt, show c ≠ dollar from fun h => hc h rfl]
    | cons s re => simp [pieces, endsAt, show s ≠ star from fun h => hre (congrArg some h)]
  simp only [Here, lang, hpieces, List.map_cons, List.prod_cons, Language.mem_mul]
  constructor
  · rintro ⟨_, v, rfl, ⟨_, ⟨t, ht, rfl⟩, w, hw, rfl⟩, hv⟩
    exact ⟨t, w ++ v, rfl, ht, w, v, rfl, hw, hv⟩
  · rintro ⟨t, _, rfl, ht, w, v, rfl, hw, hv⟩
    exact ⟨t :: w, v, rfl, ⟨[t], ⟨t, ht, rfl⟩, w, hw, rfl⟩, hv⟩

/-- **`matchhere` finds a beginning of the text that is in the language.** -/
theorem matchhere_iff : matchhere re text ↔ Here re text := by
  -- the induction is that of `pieces`
  induction re using pieces.induct generalizing text with
  | case1 =>
    rw [matchhere.eq_def]
    simp only [true_iff]
    exact ⟨[], text, rfl, rfl, nofun⟩
  | case2 =>
    rw [matchhere_dollar]
    simp [Here, lang, pieces, endsAt, Language.mem_one]
  | case3 c hc =>
    have hno : c = dollar → ([] : List Byte) ≠ [] := fun h => absurd h hc
    rw [matchhere_one (by simp) hno, here_one (by simp) hno]
    simp [matchhere.eq_def [], Here, lang, pieces, endsAt, Language.mem_one]
  | case4 c re ih =>
    rw [matchhere_many, matchstar_iff, here_many]
    simp only [ih]
  | case5 c s re hs ih =>
    have hre : (s :: re).head? ≠ some star := fun h => hs (Option.some.inj h)
    rw [matchhere_one hre fun _ => List.cons_ne_nil s re, here_one hre fun _ => List.cons_ne_nil s re]
    simp only [ih]

theorem matchLoop_iff : matchLoop re text ↔ ∃ u v, text = u ++ v ∧ Here re v := by
  induction text with
  | nil => simp [matchLoop, matchhere_iff]
  | cons t text ih =>
    rw [matchLoop, Bool.if_true_left, Bool.or_eq_true, decide_eq_true_eq, ih, matchhere_iff]
    constructor
    · rintro (h | ⟨u, v, rfl, h⟩)
      · exact ⟨[], _, rfl, h⟩
      · exact ⟨t :: u, v, rfl, h⟩
    · rintro ⟨u, v, huv, h⟩
      cases u with
      | nil =>
        rw [List.nil_append] at huv
        exact Or.inl (huv ▸ h)
      | cons x u => exact Or.inr ⟨u, v, (List.cons.inj huv).2, h⟩

/-- The pattern after a leading `^`. -/
def unanchored (re : List Byte) : List Byte := if re.head? = some caret then re.tail else re

/-- **`match` returns 1 exactly if the text has a substring in the language of the pattern**, at the start of the text
after a leading `^` and at its end before a final `$`. -/
theorem match_iff (re text : List Byte) : matchRe re text ↔
    ∃ u w v, text = u ++ w ++ v ∧ w ∈ lang (unanchored re) ∧ (re.head? = some caret → u = []) ∧
      (endsAt (unanchored re) → v = []) := by
  have hfree : ∀ re', matchLoop re' text ↔ ∃ u w v, text = u ++ w ++ v ∧ w ∈ lang re' ∧ (endsAt re' → v = []) := by
    intro re'
    rw [matchLoop_iff]
    constructor
    · rintro ⟨u, _, rfl, w, v, rfl, hw, hv⟩
      exact ⟨u, w, v, (List.append_assoc ..).symm, hw, hv⟩
    · rintro ⟨u, w, v, rfl, hw, hv⟩
      exact ⟨u, w ++ v, List.append_assoc .., w, v, rfl, hw, hv⟩
  cases re with
  | nil => simp [matchRe, unanchored, hfree]
  | cons c re =>
    by_cases hc : c = caret
    · simp [matchRe, unanchored, hc, matchhere_iff, Here]
    · simp [matchRe, unanchored, hc, hfree]

/-! ## The loop of `grep` -/

/-- `sizeof(buf)`. -/
def bufsize : ℕ := 1024

/-- The loop over the lines in the buffer, from `p` on: what is written, and where `p` is at last. -/
def scan (re p : List Byte) : List Byte × List Byte :=
  let line := p.takeWhile (· ≠ newline)
  -- `strchr` stops at a NUL
  if line.length < p.length ∧ 0#8 ∉ line then
    let r := scan re (p.drop (line.length + 1))
    ((if matchRe re line then line ++ [newline] else []) ++ r.1, r.2)
  else ([], p)
termination_by p.length

/-- The loop of `grep` over the results of `read`, with what is in the buffer: what is written.  `read` does not return more
than it is asked for. -/
def grepLoop (re : List Byte) : List (List Byte) → List Byte → Option (List Byte)
  | [], _ => some []
  | r :: reads, m =>
    if bufsize - m.length - 1 < r.length then none
    else
      let s := scan re (m ++ r)
      let m' := if s.2.length = (m ++ r).length then [] else s.2
      (grepLoop re reads m').map (s.1 ++ ·)

def grep (re : List Byte) (reads : List (List Byte)) : Option (List Byte) := grepLoop re reads []

/-- The lines of the stream that match, each with its newline. -/
def matching (re stream : List Byte) : List Byte :=
  (((stream.splitOn newline).dropLast).filter (matchRe re)).flatMap (· ++ [newline])

variable {l m p x y : List Byte} {reads : List (List Byte)} {out : List Byte}

theorem matching_eq_nil (h : newline ∉ l) : matching re l = [] := by
  simp [matching, List.splitOn_eq_singleton h]

theorem matching_append (re x y : List Byte) : matching re (x ++ newline :: y) = matching re (x ++ [newline]) ++ matching re y := by
  have hy := List.splitOn_ne_nil newline y
  simp [matching, List.splitOn_append_cons_self, List.dropLast_append_of_ne_nil hy, List.splitOn_nil]

theorem matching_line (h : newline ∉ l) : matching re (l ++ [newline]) = if matchRe re l then l ++ [newline] else [] := by
  rw [matching, List.splitOn_append_cons_self_of_not_mem h, List.splitOn_nil]
  split_ifs with hm
  · simp [hm]
  · simp [hm]

theorem takeWhile_line (hl : newline ∉ l) : (l ++ p).takeWhile (· ≠ newline) = l ++ p.takeWhile (· ≠ newline) := by
  refine List.takeWhile_append_of_pos fun t ht => ?_
  rw [decide_eq_true_eq]
  rintro rfl
  exact hl ht

theorem scan_cons (hl : newline ∉ l) (h0 : 0#8 ∉ l) :
    scan re (l ++ newline :: p) = (matching re (l ++ [newline]) ++ (scan re p).1, (scan re p).2) := by
  have hline : (l ++ newline :: p).takeWhile (· ≠ newline) = l := by
    rw [takeWhile_line hl]
    simp
  rw [scan, hline, if_pos (by simp [h0]), matching_line hl]
  simp

theorem scan_rest (h : newline ∉ p) : scan re p = ([], p) := by
  have hline := takeWhile_line (p := []) h
  rw [List.append_nil, List.takeWhile_nil, List.append_nil] at hline
  rw [scan, hline, if_neg (by simp)]

/-- The lines in the buffer are written if they match, and the rest is kept. -/
theorem scan_eq (hy : newline ∉ y) (h0 : 0#8 ∉ x) : scan re (x ++ newline :: y) = (matching re (x ++ [newline]), y) := by
  induction hn : x.length using Nat.strong_induction_on generalizing x with
  | _ n ih =>
    by_cases hx : newline ∈ x
    · obtain ⟨l, x', rfl, hl⟩ := List.eq_append_cons_of_mem hx
      simp only [List.mem_append, List.mem_cons, not_or] at h0
      rw [List.length_append, List.length_cons] at hn
      rw [List.append_assoc, List.cons_append, scan_cons hl h0.1, ih x'.length (by omega) h0.2.2 rfl,
        List.append_assoc, List.cons_append, matching_append re l (x' ++ [newline])]
    · rw [scan_cons hx h0, scan_rest hy, List.append_nil]

theorem exists_last_newline (h : newline ∈ l) : ∃ x y, l = x ++ newline :: y ∧ newline ∉ y := by
  obtain ⟨y, x, hl, hy⟩ := List.eq_append_cons_of_mem (List.mem_reverse.2 h)
  refine ⟨x.reverse, y.reverse, ?_, fun h => hy (List.mem_reverse.1 h)⟩
  rw [← List.reverse_reverse l, hl]
  simp

/-- **A step of the loop.**  After a read result with a newline what follows the last newline is kept. -/
theorem grepLoop_cons (h0m : 0#8 ∉ m) {r : List Byte} (h0 : 0#8 ∉ r) (hr : newline ∈ r)
    (h : grepLoop re (r :: reads) m = some out) : ∃ x y out', m ++ r = x ++ newline :: y ∧ newline ∉ y ∧ 0#8 ∉ y ∧
      grepLoop re reads y = some out' ∧ out = matching re (x ++ [newline]) ++ out' := by
  obtain ⟨x, y, hbuf, hy⟩ := exists_last_newline (List.mem_append_right m hr)
  have h0buf : 0#8 ∉ x ++ newline :: y := by
    rw [← hbuf, List.mem_append, not_or]
    exact ⟨h0m, h0⟩
  simp only [List.mem_append, List.mem_cons, not_or] at h0buf
  rw [grepLoop, hbuf, scan_eq hy h0buf.1] at h
  split_ifs at h with hroom
  have hlen : ¬ y.length = (x ++ newline :: y).length := by
    rw [List.length_append, List.length_cons]
    omega
  simp only [if_neg hlen, Option.map_eq_some_iff] at h
  obtain ⟨out', hout, rfl⟩ := h
  exact ⟨x, y, out', hbuf, hy, h0buf.2.2, hout, rfl⟩

/-- After one without a newline nothing is kept. -/
theorem grepLoop_lost (hm : newline ∉ m) {r : List Byte} (hr : newline ∉ r) (h : grepLoop re (r :: reads) m = some out) :
    grepLoop re reads [] = some out := by
  have hbuf : newline ∉ m ++ r := by
    rw [List.mem_append, not_or]
    exact ⟨hm, hr⟩
  rw [grepLoop, scan_rest hbuf] at h
  split_ifs at h
  simpa using h

/-- Every read result that comes before one with a newline has a newline, too. -/
def Lines (reads : List (List Byte)) : Prop := reads.Pairwise fun r r' => newline ∈ r' → newline ∈ r

theorem grepLoop_right (hreads : Lines reads) (h0 : ∀ r ∈ reads, 0#8 ∉ r) (hm : newline ∉ m) (h0m : 0#8 ∉ m)
    (h : grepLoop re reads m = some out) : out = matching re (m ++ reads.flatten) := by
  induction reads generalizing m out with
  | nil =>
    obtain rfl := Option.some.inj h
    rw [List.flatten_nil, List.append_nil, matching_eq_nil hm]
  | cons r reads ih =>
    obtain ⟨hfirst, hrest⟩ := List.pairwise_cons.1 hreads
    obtain ⟨h0r, h0rest⟩ := List.forall_mem_cons.1 h0
    by_cases hr : newline ∈ r
    · obtain ⟨x, y, out', hbuf, hy, h0y, hloop, rfl⟩ := grepLoop_cons h0m h0r hr h
      rw [ih hrest h0rest hy h0y hloop, List.flatten_cons, ← List.append_assoc, hbuf, List.append_assoc, List.cons_append,
        matching_append re x (y ++ reads.flatten)]
    · -- there is no newline any more
      have hflat : newline ∉ reads.flatten := by
        rw [List.mem_flatten]
        rintro ⟨r', hr', hmem⟩
        exact hr (hfirst r' hr' hmem)
      rw [ih hrest h0rest (List.not_mem_nil) (List.not_mem_nil) (grepLoop_lost hm hr h), List.nil_append, matching_eq_nil hflat]
      refine (matching_eq_nil ?_).symm
      simp only [List.flatten_cons, List.mem_append, not_or]
      exact ⟨hm, hr, hflat⟩

/-- Every line matches the empty pattern. -/
theorem matching_nil : matching [] (x ++ [newline]) = x ++ [newline] := by
  have hall : ∀ l, matchRe [] l := fun l => (match_iff [] l).2 ⟨[], [], l, rfl, rfl, nofun, nofun⟩
  induction hn : x.length using Nat.strong_induction_on generalizing x with
  | _ n ih =>
    by_cases hx : newline ∈ x
    · obtain ⟨l, x', rfl, hl⟩ := List.eq_append_cons_of_mem hx
      rw [List.length_append, List.length_cons] at hn
      rw [List.append_assoc, List.cons_append, matching_append, ih x'.length (by omega) rfl, matching_line hl, if_pos (hall l)]
      simp
    · rw [matching_line hx, if_pos (hall x)]

/-- **What is lost.**  With the empty pattern `grep` writes fewer bytes than it should, unless all lines are kept. -/
theorem grepLoop_length (hreads : ∀ r ∈ reads, r ≠ [] ∧ 0#8 ∉ r) (hm : newline ∉ m) (h0m : 0#8 ∉ m)
    (h : grepLoop [] reads m = some out) : out.length ≤ (matching [] (m ++ reads.flatten)).length ∧
      (out.length = (matching [] (m ++ reads.flatten)).length → Lines reads) := by
  induction reads generalizing m out with
  | nil =>
    obtain rfl := Option.some.inj h
    exact ⟨Nat.zero_le _, fun _ => List.Pairwise.nil⟩
  | cons r reads ih =>
    obtain ⟨⟨hne, h0⟩, hrest⟩ := List.forall_mem_cons.1 hreads
    by_cases hr : newline ∈ r
    · obtain ⟨x, y, out', hbuf, hy, h0y, hloop, rfl⟩ := grepLoop_cons h0m h0 hr h
      obtain ⟨hle, hlines⟩ := ih hrest hy h0y hloop
      rw [List.flatten_cons, ← List.append_assoc, hbuf, List.append_assoc, List.cons_append, matching_append [] x (y ++ reads.flatten),
        List.length_append, List.length_append]
      refine ⟨by omega, fun heq => List.pairwise_cons.2 ⟨fun _ _ _ => hr, hlines (by omega)⟩⟩
    · obtain ⟨hle, -⟩ := ih hrest List.not_mem_nil List.not_mem_nil (grepLoop_lost hm hr h)
      rw [List.nil_append] at hle
      by_cases hflat : newline ∈ reads.flatten
      · -- a line with a part in `r`
        obtain ⟨x, y, hxy, -⟩ := List.eq_append_cons_of_mem hflat
        have hpos := List.length_pos_iff.2 hne
        have hall : m ++ (r :: reads).flatten = (m ++ r ++ x) ++ newline :: y := by simp [hxy]
        rw [hxy, matching_append, matching_nil] at hle
        rw [hall, matching_append, matching_nil]
        simp only [List.length_append] at hle ⊢
        exact ⟨by omega, by omega⟩
      · rw [matching_eq_nil hflat] at hle
        refine ⟨hle.trans (Nat.zero_le _), fun _ => ?_⟩
        have hno : ∀ r' ∈ reads, newline ∉ r' := fun r' hr' hmem => hflat (List.mem_flatten.2 ⟨r', hr', hmem⟩)
        refine List.pairwise_cons.2 ⟨fun r' hr' hmem => absurd hmem (hno r' hr'), ?_⟩
        exact List.pairwise_of_forall_mem_list fun _ _ r' hr' hmem => absurd hmem (hno r' hr')

/-- **`grep` writes the lines that match, for every pattern**, exactly if every read result that comes before one with a
newline has a newline itself. -/
theorem grep_lines_iff (reads : List (List Byte)) (hreads : ∀ r ∈ reads, r ≠ [] ∧ 0#8 ∉ r)
    (hfit : ∀ re, (grep re reads).isSome) :
    (∀ re, grep re reads = some (matching re reads.flatten)) ↔ Lines reads := by
  constructor
  · intro h
    exact (grepLoop_length hreads List.not_mem_nil List.not_mem_nil (h [])).2 rfl
  · intro hlines re
    obtain ⟨out, hout⟩ := Option.isSome_iff_exists.1 (hfit re)
    rw [hout, grepLoop_right hlines (fun r hr => (hreads r hr).2) List.not_mem_nil List.not_mem_nil hout, List.nil_append]

theorem grep_lines_one : (∀ re, grep re [[97#8, newline]] = some (matching re [97#8, newline])) ∧
    Lines [[97#8, newline]] := by
  have hlines : Lines [[97#8, newline]] := List.pairwise_singleton _ _
  exact ⟨(grep_lines_iff [[97#8, newline]] (by decide) (by simp [grep, grepLoop, bufsize])).2 hlines, hlines⟩

/-- **A line that comes in two parts is not written whole.** -/
theorem grep_loses : grep [] [[97#8], [newline]] ≠ some (matching [] [97#8, newline]) := by
  intro h
  have hlines := (grepLoop_length (by decide) List.not_mem_nil List.not_mem_nil h).2 rfl
  rw [Lines, List.pairwise_pair] at hlines
  exact absurd (hlines List.mem_cons_self) (by decide)

end OsLab.Xv6.Grep
