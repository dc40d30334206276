import OsLab.Xv6.BioSpec

/-!
# Operations and commits

Who may change the header of the log: the operations in progress, by `log_write`; once the last one
has ended, the process that commits; and before that, at boot, process 0.  `OpInv` holds in every state
of every run in which `log_write` is only called inside an operation; `operations_counted` is what it says.
-/

namespace OsLab.Xv6

open Function

/-! ## What a process has left to do -/

namespace Instr

/-- A call of the layers above. -/
def isCall : Instr → Bool
  | .bread _ | .logWrite _ _ | .bwrite _ _ | .brelse _ | .beginOp | .endOp => true
  | _ => false

/-- An instruction of `commit` or `recover_from_log` that does not touch the header in memory. -/
def isCopy : Instr → Bool
  | .bread _ | .brelse _ | .bwriteCopy _ _ | .bwriteHead => true
  | _ => false

end Instr

/-- `log_write` and `end_op` are called inside an operation, `begin_op` outside. -/
def Proc.Allowed (q : Proc) : Instr → Prop
  | .logWrite _ _ | .endOp => q.op.isSome
  | .beginOp => q.op = none
  | _ => True

/-- The instructions of `l` are followed by a last one. -/
theorem suffix_concat {α : Type} {P : α → Prop} {body rest : List α} {e a : α} (hbody : ∀ b ∈ body, P b)
    (h : a :: rest <:+ body ++ [e]) : P a ∧ rest ≠ [] ∨ a = e ∧ rest = [] := by
  obtain ⟨t, ht⟩ := h
  rcases List.eq_nil_or_concat rest with rfl | ⟨r, e', rfl⟩
  · exact Or.inr ⟨(List.cons.inj (List.append_inj' ht rfl).2).1, rfl⟩
  · refine Or.inl ⟨hbody a ?_, by simp⟩
    rw [List.concat_eq_append, ← List.cons_append, ← List.append_assoc] at ht
    rw [← (List.append_inj' ht rfl).1]
    simp

variable {a : Instr}

theorem Proc.Allowed.congr {q q' : Proc} (hop : q'.op = q.op) (h : q.Allowed a) : q'.Allowed a := by
  cases a with
  | logWrite | endOp => exact (congrArg Option.isSome hop).trans h
  | beginOp => exact hop.trans h
  | _ => trivial

namespace State

variable {block : ℕ → ℕ} {n : ℕ}

theorem writeLog_copies : ∀ a ∈ writeLog n block, a.isCopy = true := by
  intro a ha
  simp only [writeLog, List.mem_flatMap, List.mem_cons, List.not_mem_nil, or_false] at ha
  obtain ⟨t, -, rfl | rfl | rfl | rfl | rfl⟩ := ha <;> rfl

theorem installTrans_copies : ∀ a ∈ installTrans n block, a.isCopy = true := by
  intro a ha
  simp only [installTrans, List.mem_flatMap, List.mem_cons, List.not_mem_nil, or_false] at ha
  obtain ⟨t, -, rfl | rfl | rfl | rfl | rfl⟩ := ha <;> rfl

theorem writeHead_copies : ∀ a ∈ writeHead, a.isCopy = true := by
  intro a ha
  simp only [writeHead, List.mem_cons, List.not_mem_nil, or_false] at ha
  obtain rfl | rfl | rfl := ha <;> rfl

variable {rest : List Instr} {log : Log}

theorem commit_suffix (h : a :: rest <:+ commit log) :
    (a.isCopy = true ∨ a = .clear) ∧ rest ≠ [] ∨ a = .committed ∧ rest = [] := by
  refine suffix_concat (P := fun a => a.isCopy = true ∨ a = .clear) ?_ h
  intro b hb
  split_ifs at hb with hn
  · simp only [List.mem_append, List.mem_singleton] at hb
    rcases hb with (((hb | hb) | hb) | hb) | hb
    · exact Or.inl (writeLog_copies b hb)
    · exact Or.inl (writeHead_copies b hb)
    · exact Or.inl (installTrans_copies b hb)
    · exact Or.inr hb
    · exact Or.inl (writeHead_copies b hb)
  · cases hb

theorem recoverRest_suffix (h : a :: rest <:+ recoverRest n block) :
    (a.isCopy = true ∨ a = .clear) ∧ rest ≠ [] ∨ a = .booted ∧ rest = [] := by
  refine suffix_concat (P := fun a => a.isCopy = true ∨ a = .clear) ?_ h
  intro b hb
  simp only [List.cons_append, List.mem_append, List.mem_cons, List.not_mem_nil, or_false] at hb
  rcases hb with rfl | (hb | hb) | hb
  · exact Or.inl rfl
  · exact Or.inl (installTrans_copies b hb)
  · exact Or.inr hb
  · exact Or.inl (writeHead_copies b hb)

theorem initlog_suffix (h : a :: rest <:+ initlog) :
    a.isCopy = true ∧ rest ≠ [] ∨ a = .readHead ∧ rest = [] := by
  have hbody : ∀ b ∈ [Instr.bread 1, .brelse 1, .bread logstart], b.isCopy = true := by
    intro b hb
    simp only [List.mem_cons, List.not_mem_nil, or_false] at hb
    obtain rfl | rfl | rfl := hb <;> rfl
  exact suffix_concat hbody h

/-- Nothing, or one call. -/
def Client (todo : List Instr) : Prop := ∀ a rest, todo = a :: rest → rest = [] ∧ a.isCall = true

/-- The rest of a commit; the header in memory is cleared in it, or empty. -/
def CommitTail (n : ℕ) (todo : List Instr) : Prop :=
  todo ≠ [] ∧ (∃ log, todo <:+ commit log) ∧ (.clear ∈ todo ∨ n = 0)

/-- The rest of a boot. -/
def BootTail (n : ℕ) (todo : List Instr) : Prop :=
  todo ≠ [] ∧ (todo <:+ initlog ∨ (∃ m block, todo <:+ recoverRest m block) ∧ (.clear ∈ todo ∨ n = 0))

variable {N n x : ℕ} {s s' : State N} {p p' : Fin (N + 1)} {q : Proc} {a : Instr} {rest : List Instr} {d : Data}

theorem Client.pop (h : Client (a :: rest)) : rest = [] ∧ a.isCall = true := h a rest rfl

theorem client_nil : Client [] := fun _ _ h => nomatch h

theorem client_singleton (ha : a.isCall = true) : Client [a] := by
  intro b rest hb
  obtain ⟨rfl, rfl⟩ := List.cons.inj hb
  exact ⟨rfl, ha⟩

theorem isCopy_ne_clear (ha : a.isCopy = true) : a ≠ .clear := by
  rintro rfl
  cases ha

/-- A commit goes on after an instruction that leaves the header alone. -/
theorem CommitTail.pop (h : CommitTail n (a :: rest)) (ha : a.isCopy = true) : CommitTail n rest := by
  obtain ⟨-, ⟨log, hlog⟩, hclear⟩ := h
  rcases commit_suffix hlog with ⟨-, hne⟩ | ⟨rfl, -⟩
  · refine ⟨hne, ⟨log, (List.suffix_cons a rest).trans hlog⟩, hclear.imp_left fun hmem => ?_⟩
    exact (List.mem_cons.1 hmem).resolve_left (isCopy_ne_clear ha).symm
  · cases ha

theorem CommitTail.clear (h : CommitTail n (.clear :: rest)) : CommitTail 0 rest := by
  obtain ⟨-, ⟨log, hlog⟩, -⟩ := h
  rcases commit_suffix hlog with ⟨-, hne⟩ | ⟨ha, -⟩
  · exact ⟨hne, ⟨log, (List.suffix_cons _ rest).trans hlog⟩, Or.inr rfl⟩
  · cases ha

theorem CommitTail.committed (h : CommitTail n (.committed :: rest)) : rest = [] ∧ n = 0 := by
  obtain ⟨-, ⟨log, hlog⟩, hclear⟩ := h
  rcases commit_suffix hlog with ⟨ha | ha, -⟩ | ⟨-, rfl⟩
  · cases ha
  · cases ha
  · refine ⟨rfl, hclear.resolve_left fun hmem => ?_⟩
    exact nomatch hmem

/-- The instructions of a commit. -/
theorem CommitTail.head (h : CommitTail n (a :: rest)) : a.isCopy = true ∨ a = .clear ∨ a = .committed := by
  obtain ⟨-, ⟨log, hlog⟩, -⟩ := h
  rcases commit_suffix hlog with ⟨ha | ha, -⟩ | ⟨ha, -⟩
  · exact Or.inl ha
  · exact Or.inr (Or.inl ha)
  · exact Or.inr (Or.inr ha)

theorem BootTail.pop (h : BootTail n (a :: rest)) (ha : a.isCopy = true) : BootTail n rest := by
  obtain ⟨-, hinit | ⟨⟨m, block, hrest⟩, hclear⟩⟩ := h
  · rcases initlog_suffix hinit with ⟨-, hne⟩ | ⟨rfl, -⟩
    · exact ⟨hne, Or.inl ((List.suffix_cons a rest).trans hinit)⟩
    · cases ha
  · rcases recoverRest_suffix hrest with ⟨-, hne⟩ | ⟨rfl, -⟩
    · refine ⟨hne, Or.inr ⟨⟨m, block, (List.suffix_cons a rest).trans hrest⟩, hclear.imp_left fun hmem => ?_⟩⟩
      exact (List.mem_cons.1 hmem).resolve_left (isCopy_ne_clear ha).symm
    · cases ha

theorem BootTail.clear (h : BootTail n (.clear :: rest)) : BootTail 0 rest := by
  obtain ⟨-, hinit | ⟨⟨m, block, hrest⟩, -⟩⟩ := h
  · rcases initlog_suffix hinit with ⟨ha, -⟩ | ⟨ha, -⟩ <;> cases ha
  · rcases recoverRest_suffix hrest with ⟨-, hne⟩ | ⟨ha, -⟩
    · exact ⟨hne, Or.inr ⟨⟨m, block, (List.suffix_cons _ rest).trans hrest⟩, Or.inr rfl⟩⟩
    · cases ha

theorem BootTail.booted (h : BootTail n (.booted :: rest)) : rest = [] ∧ n = 0 := by
  obtain ⟨-, hinit | ⟨⟨m, block, hrest⟩, hclear⟩⟩ := h
  · rcases initlog_suffix hinit with ⟨ha, -⟩ | ⟨ha, -⟩ <;> cases ha
  · rcases recoverRest_suffix hrest with ⟨ha | ha, -⟩ | ⟨-, rfl⟩
    · cases ha
    · cases ha
    · refine ⟨rfl, hclear.resolve_left fun hmem => ?_⟩
      exact nomatch hmem

theorem BootTail.head (h : BootTail n (a :: rest)) :
    a.isCopy = true ∨ a = .clear ∨ a = .readHead ∨ a = .booted := by
  obtain ⟨-, hinit | ⟨⟨m, block, hrest⟩, -⟩⟩ := h
  · rcases initlog_suffix hinit with ⟨ha, -⟩ | ⟨ha, -⟩
    · exact Or.inl ha
    · exact Or.inr (Or.inr (Or.inl ha))
  · rcases recoverRest_suffix hrest with ⟨ha | ha, -⟩ | ⟨ha, -⟩
    · exact Or.inl ha
    · exact Or.inr (Or.inl ha)
    · exact Or.inr (Or.inr (Or.inr ha))

theorem CommitTail.allowed (h : CommitTail n (a :: rest)) : q.Allowed a := by
  rcases h.head with ha | rfl | rfl
  · cases a <;> trivial
  · trivial
  · trivial

theorem BootTail.allowed (h : BootTail n (a :: rest)) : q.Allowed a := by
  rcases h.head with ha | rfl | rfl | rfl
  · cases a <;> trivial
  all_goals trivial

theorem bootTail_recoverRest (m : ℕ) (block : ℕ → ℕ) (n : ℕ) : BootTail n (recoverRest m block) := by
  refine ⟨by simp [recoverRest], Or.inr ⟨⟨m, block, List.suffix_refl _⟩, Or.inl ?_⟩⟩
  simp [recoverRest]

theorem commitTail_commit (log : Log) : CommitTail log.n (commit log) := by
  refine ⟨by simp [commit], ⟨log, List.suffix_refl _⟩, ?_⟩
  by_cases hn : 0 < log.n
  · exact Or.inl (by simp [commit, hn])
  · exact Or.inr (Nat.eq_zero_of_not_pos hn)

/-! ## The header -/

/-- The header lists the block. -/
def Lists (log : Log) (x : ℕ) : Prop := ∃ i < log.n, log.block i = x

/-- A block that is in the header is not entered again. -/
theorem logAppend_of_lists (h : Lists log x) : logAppend log x = log := by
  obtain ⟨i, hi, hx⟩ := h
  have hfind : ((List.range log.n).find? fun i => log.block i = x).isSome :=
    List.find?_isSome.2 ⟨i, List.mem_range.2 hi, decide_eq_true hx⟩
  obtain ⟨k, hk⟩ := Option.isSome_iff_exists.1 hfind
  have hidx : logIndex log x = k := by rw [logIndex, hk, Option.getD_some]
  have hlt := List.mem_range.1 (List.mem_of_find?_eq_some hk)
  have hkx : log.block k = x := by simpa using List.find?_some hk
  rw [logAppend, hidx, if_neg hlt.ne, ← hkx, update_eq_self]

/-- A block that is not in the header is entered at its end. -/
theorem logAppend_of_not_lists (h : ¬ Lists log x) :
    logAppend log x = { log with block := update log.block log.n x, n := log.n + 1 } := by
  have hfind : ((List.range log.n).find? fun i => log.block i = x) = none := by
    rw [List.find?_eq_none]
    intro i hi hx
    exact h ⟨i, List.mem_range.1 hi, of_decide_eq_true hx⟩
  have hidx : logIndex log x = log.n := by rw [logIndex, hfind, Option.getD_none]
  rw [logAppend, hidx, if_pos rfl]

theorem lists_logAppend {y : ℕ} : Lists (logAppend log x) y ↔ y = x ∨ Lists log y := by
  by_cases h : Lists log x
  · rw [logAppend_of_lists h]
    exact ⟨Or.inr, fun hy => hy.elim (fun heq => heq ▸ h) id⟩
  · rw [logAppend_of_not_lists h]
    constructor
    · rintro ⟨i, hi, hiy⟩
      rcases Nat.lt_succ_iff_lt_or_eq.1 hi with hlt | rfl
      · refine Or.inr ⟨i, hlt, ?_⟩
        rw [← hiy]
        exact (update_of_ne hlt.ne _ _).symm
      · left
        rw [← hiy]
        exact update_self ..
    · rintro (rfl | ⟨i, hi, hiy⟩)
      · exact ⟨log.n, Nat.lt_succ_self _, update_self ..⟩
      · exact ⟨i, hi.trans (Nat.lt_succ_self _), (update_of_ne hi.ne _ _).trans hiy⟩

theorem nodup_logAppend (h : ((List.range log.n).map log.block).Nodup) :
    ((List.range (logAppend log x).n).map (logAppend log x).block).Nodup := by
  by_cases hx : Lists log x
  · rw [logAppend_of_lists hx]
    exact h
  · rw [logAppend_of_not_lists hx]
    show ((List.range (log.n + 1)).map (update log.block log.n x)).Nodup
    have hsame : (List.range log.n).map (update log.block log.n x) = (List.range log.n).map log.block :=
      List.map_congr_left fun i hi => update_of_ne (List.mem_range.1 hi).ne _ _
    rw [List.range_succ, List.map_append, hsame, List.map_singleton, update_self]
    refine List.nodup_append.2 ⟨h, List.nodup_singleton _, fun y hy z hz heq => hx ?_⟩
    obtain ⟨i, hi, rfl⟩ := List.mem_map.1 hy
    exact ⟨i, List.mem_range.1 hi, heq.trans (List.mem_singleton.1 hz)⟩

/-! ## The invariant -/

/-- The operations in progress. -/
def inOp (q : Proc) : ℕ := if q.op.isSome then 1 else 0

/-- What is left of a commit or, at boot, of the recovery. -/
def Tail (s : State N) (p : Fin (N + 1)) (todo : List Instr) : Prop :=
  s.up = true ∧ s.log.committing = true ∧ CommitTail s.log.n todo ∨ s.up = false ∧ p.val = 0 ∧ BootTail s.log.n todo

/-- Who does what to the log. -/
structure OpInv (s : State N) : Prop where
  /-- Processes are clients, but for one that commits or, at boot, recovers. -/
  mode : ∀ p, Client (s.proc p).todo ∨ s.Tail p (s.proc p).todo
  one : ∀ p p', ¬ Client (s.proc p).todo → ¬ Client (s.proc p').todo → p = p'
  booting : s.up = false → s.log.outstanding = 0 ∧ s.log.committing = false ∧ ¬ Client (s.proc 0).todo ∧
    ∀ p ≠ 0, (s.proc p).todo = []
  committing : s.log.committing = true → s.log.outstanding = 0
  count : s.log.outstanding = ∑ p, inOp (s.proc p)
  idle : s.up = true → s.log.committing = false → s.log.outstanding = 0 → s.log.n = 0
  calls : ∀ p a rest, (s.proc p).todo = a :: rest → (s.proc p).Allowed a
  appends : ∀ p i d, (s.proc p).pc = .appending i d → (s.proc p).op.isSome
  nodup : s.up = true → ((List.range s.log.n).map s.log.block).Nodup
  logged : ∀ p, (s.proc p).op.isSome → ∀ x ∈ (s.proc p).logged, Lists s.log x

theorem CommitTail.not_client (h : CommitTail n rest) : ¬ Client rest := by
  intro hc
  obtain ⟨hne, ⟨log, hlog⟩, -⟩ := h
  obtain ⟨a, r, rfl⟩ := List.exists_cons_of_ne_nil hne
  obtain ⟨hr, ha⟩ := hc.pop
  rcases commit_suffix hlog with ⟨-, hr'⟩ | ⟨rfl, -⟩
  · exact hr' hr
  · cases ha

theorem BootTail.not_client (h : BootTail n rest) : ¬ Client rest := by
  intro hc
  obtain ⟨hne, hinit | ⟨⟨m, block, hrest⟩, -⟩⟩ := h
  · obtain ⟨a, r, rfl⟩ := List.exists_cons_of_ne_nil hne
    obtain ⟨hr, ha⟩ := hc.pop
    rcases initlog_suffix hinit with ⟨-, hr'⟩ | ⟨rfl, -⟩
    · exact hr' hr
    · cases ha
  · obtain ⟨a, r, rfl⟩ := List.exists_cons_of_ne_nil hne
    obtain ⟨hr, ha⟩ := hc.pop
    rcases recoverRest_suffix hrest with ⟨-, hr'⟩ | ⟨rfl, -⟩
    · exact hr' hr
    · cases ha

theorem Tail.not_client (h : s.Tail p rest) : ¬ Client rest := by
  rcases h with ⟨-, -, hc⟩ | ⟨-, -, hc⟩
  · exact hc.not_client
  · exact hc.not_client

theorem transfer_frame (s : State N) (i : ℕ) :
    (s.transfer i).log = s.log ∧ (s.transfer i).up = s.up ∧ (s.transfer i).proc = s.proc := by
  rw [transfer]
  split <;> exact ⟨rfl, rfl, rfl⟩

/-- What the invariant says of one process. -/
structure Fair (s : State N) (p : Fin (N + 1)) (q : Proc) : Prop where
  mode : Client q.todo ∨ s.Tail p q.todo
  calls : ∀ a rest, q.todo = a :: rest → q.Allowed a
  appends : ∀ i d, q.pc = .appending i d → q.op.isSome
  logged : q.op.isSome → ∀ x ∈ q.logged, Lists s.log x

theorem Fair.congr {q' : Proc} (h : s.Fair p q) (hlog : s'.log = s.log) (hup : s'.up = s.up) (htodo : q'.todo = q.todo)
    (hop : q'.op = q.op) (hlogged : q'.logged = q.logged) (happ : ∀ i d, q'.pc = .appending i d → q'.op.isSome) : s'.Fair p q' := by
  refine ⟨by rw [Tail, hlog, hup, htodo]; exact h.mode, fun a rest hr => ?_, happ, by rw [hlog, hop, hlogged]; exact h.logged⟩
  rw [htodo] at hr
  exact (h.calls a rest hr).congr hop

/-- Whoever does the rest of a commit or of a boot does nothing else. -/
theorem fair_tail (hmode : s.Tail p q.todo) (happ : ∀ i d, q.pc = .appending i d → q.op.isSome)
    (hlogged : q.op.isSome → ∀ x ∈ q.logged, Lists s.log x) : s.Fair p q := by
  refine ⟨Or.inr hmode, fun a rest hr => ?_, happ, hlogged⟩
  rw [hr] at hmode
  rcases hmode with ⟨-, -, hc⟩ | ⟨-, -, hc⟩
  · exact hc.allowed
  · exact hc.allowed

namespace OpInv

section

variable (h : s.OpInv)

include h

/-- No operation is in progress. -/
theorem no_ops (hout : s.log.outstanding = 0) (p : Fin (N + 1)) : (s.proc p).op = none := by
  have hsum := h.count
  rw [hout] at hsum
  have hp := (Finset.sum_eq_zero_iff.1 hsum.symm) p (Finset.mem_univ p)
  rw [inOp] at hp
  split_ifs at hp with hsome
  exact Option.not_isSome_iff_eq_none.1 hsome

/-- A process that does not act for a client is the only such one, and no operation is in progress. -/
theorem not_client (hp : ¬ Client (s.proc p).todo) :
    s.log.outstanding = 0 ∧ ∀ p' ≠ p, Client (s.proc p').todo := by
  refine ⟨?_, fun p' hp' => by_contra fun hno => hp' (h.one p' p hno hp)⟩
  rcases h.mode p with hc | ⟨-, hcom, -⟩ | ⟨hup, -, -⟩
  · exact absurd hc hp
  · exact h.committing hcom
  · exact (h.booting hup).1

/-- The number of operations when one process changes. -/
theorem count_update (p : Fin (N + 1)) (q : Proc) :
    ∑ p', inOp (update s.proc p q p') + inOp (s.proc p) = s.log.outstanding + inOp q := by
  rw [sum_update s.proc inOp p q, h.count]

theorem fair (p : Fin (N + 1)) : s.Fair p (s.proc p) := ⟨h.mode p, h.calls p, h.appends p, h.logged p⟩

/-- One process changes, and perhaps the log. -/
theorem change (hproc : s'.proc = update s.proc p q) (hown : s'.Fair p q)
    (hothers : ∀ p' ≠ p, s'.Fair p' (s.proc p')) (hone : ¬ Client q.todo → ∀ p' ≠ p, Client (s.proc p').todo)
    (hbooting : s'.up = false → s'.log.outstanding = 0 ∧ s'.log.committing = false ∧ ¬ Client (s'.proc 0).todo ∧
      ∀ p ≠ 0, (s'.proc p).todo = [])
    (hcom : s'.log.committing = true → s'.log.outstanding = 0)
    (hcount : s'.log.outstanding + inOp (s.proc p) = s.log.outstanding + inOp q)
    (hidle : s'.up = true → s'.log.committing = false → s'.log.outstanding = 0 → s'.log.n = 0)
    (hnodup : s'.up = true → ((List.range s'.log.n).map s'.log.block).Nodup) : s'.OpInv := by
  have hfair : ∀ p', s'.Fair p' (s'.proc p') := fun p' => by
    rcases proc_cases hproc p' with ⟨rfl, heq⟩ | ⟨hne, heq⟩ <;> rw [heq]
    · exact hown
    · exact hothers p' hne
  refine ⟨fun p' => (hfair p').mode, fun p1 p2 h1 h2 => ?_, hbooting, hcom, ?_, hidle, fun p' => (hfair p').calls,
    fun p' => (hfair p').appends, hnodup, fun p' => (hfair p').logged⟩
  · rcases proc_cases hproc p1 with ⟨rfl, heq1⟩ | ⟨hne1, heq1⟩ <;> rcases proc_cases hproc p2 with ⟨rfl, heq2⟩ | ⟨hne2, heq2⟩ <;>
      rw [heq1] at h1 <;> rw [heq2] at h2
    · exact absurd (hone h1 p2 hne2) h2
    · exact absurd (hone h2 p1 hne1) h1
    · exact h.one p1 p2 h1 h2
  · rw [hproc]
    have hsum := h.count_update p q
    omega

/-- One process changes; the log is as it was. -/
theorem update_same (hproc : s'.proc = update s.proc p q) (hlog : s'.log = s.log) (hup : s'.up = s.up)
    (hown : s'.Fair p q) (hone : ¬ Client q.todo → ¬ Client (s.proc p).todo) (hop : q.op = (s.proc p).op)
    (hbooting : s.up = false → ¬ Client (s'.proc 0).todo ∧ ∀ p ≠ 0, (s'.proc p).todo = []) : s'.OpInv := by
  refine h.change hproc hown (fun p' _ => ?_) (fun hno => (h.not_client (hone hno)).2) (fun hb => ?_) (by rw [hlog]; exact h.committing)
    (by rw [hlog, inOp, inOp, hop]) (by rw [hlog, hup]; exact h.idle) (by rw [hlog, hup]; exact h.nodup)
  · exact (h.fair p').congr hlog hup rfl rfl rfl (h.appends p')
  · rw [hup] at hb
    rw [hlog]
    exact ⟨(h.booting hb).1, (h.booting hb).2.1, hbooting hb⟩

/-- A client with a call to make. -/
theorem up_of_call (htodo : (s.proc p).todo = a :: rest) (hc : Client (s.proc p).todo) :
    s.up = true := by
  by_contra hup
  obtain ⟨-, -, hno, hnil⟩ := h.booting (Bool.eq_false_of_not_eq_true hup)
  by_cases hp : p = 0
  · subst hp
    exact hno hc
  · rw [hnil p hp] at htodo
    cases htodo

/-- An instruction that leaves the log alone is begun. -/
theorem pop (htodo : (s.proc p).todo = a :: rest) (ha : a.isCall = true ∨ a.isCopy = true)
    (hlog : s'.log = s.log) (hup : s'.up = s.up) (hproc : s'.proc = update s.proc p q)
    (hq : q.todo = rest) (hop : q.op = (s.proc p).op) (hlogged : q.logged = (s.proc p).logged)
    (happ : ∀ i d, q.pc = .appending i d → q.op.isSome) : s'.OpInv := by
  have hcopy : a.isCall = false → a.isCopy = true := fun hno =>
    ha.resolve_left (by rw [hno]; exact nofun)
  have hlists : q.op.isSome → ∀ x ∈ q.logged, Lists s'.log x := by
    rw [hlog, hop, hlogged]
    exact h.logged p
  rcases h.mode p with hc | hspecial
  · -- a client is done with its call
    rw [htodo] at hc
    obtain rfl := hc.pop.1
    refine h.update_same hproc hlog hup ⟨Or.inl (hq ▸ client_nil), fun a r hr => (nomatch hq.symm.trans hr), happ, hlists⟩
      (fun hno => absurd (hq ▸ client_nil) hno) hop fun hb => ?_
    have := h.up_of_call htodo (htodo ▸ hc)
    rw [hb] at this
    cases this
  · -- the others go on with their script
    have hmode : s.Tail p q.todo := by
      rw [htodo] at hspecial
      rw [hq]
      refine hspecial.imp (And.imp_right (And.imp_right fun hc => hc.pop ?_)) (And.imp_right (And.imp_right fun hc => hc.pop ?_))
      · rcases hc.head with ha' | rfl | rfl
        exacts [ha', hcopy rfl, hcopy rfl]
      · rcases hc.head with ha' | rfl | rfl | rfl
        exacts [ha', hcopy rfl, hcopy rfl, hcopy rfl]
    have hno := hspecial.not_client
    refine h.update_same hproc hlog hup (fair_tail (by rw [Tail, hlog, hup]; exact hmode) happ hlists) (fun _ => hno) hop
      fun hb => ?_
    obtain ⟨-, -, h3, h4⟩ := h.booting hb
    obtain rfl : p = 0 := h.one p 0 hno h3
    rw [hproc, update_self]
    exact ⟨hmode.not_client, fun p' hp' => by rw [update_of_ne hp', h4 p' hp']⟩

/-- A step of the process that commits or recovers; no operation is in progress. -/
theorem special (hp : ¬ Client (s.proc p).todo) (hproc : s'.proc = update s.proc p q)
    (hout : s'.log.outstanding = s.log.outstanding) (hop : q.op = (s.proc p).op) (hpc : q.pc = (s.proc p).pc)
    (hmode : q.todo = [] ∨ s'.Tail p q.todo)
    (hbooting : s'.up = false → s.up = false ∧ s'.log.committing = s.log.committing ∧ ¬ Client q.todo)
    (hidle : s'.up = true → s'.log.committing = false → s'.log.n = 0)
    (hnodup : s'.up = true → ((List.range s'.log.n).map s'.log.block).Nodup) : s'.OpInv := by
  obtain ⟨hzero, hclients⟩ := h.not_client hp
  have hnone := h.no_ops hzero
  have hown : s'.Fair p q := by
    have happ : ∀ i d, q.pc = .appending i d → q.op.isSome := by
      rw [hpc, hop]
      exact h.appends p
    have hlogged : q.op.isSome → ∀ x ∈ q.logged, Lists s'.log x := by
      rw [hop, hnone p]
      exact nofun
    rcases hmode with hnil | htail
    · exact ⟨Or.inl (hnil ▸ client_nil), fun a r hr => (nomatch hnil.symm.trans hr), happ, hlogged⟩
    · exact fair_tail htail happ hlogged
  refine h.change hproc hown
    (fun p' hp' => ⟨Or.inl (hclients p' hp'), h.calls p', h.appends p', fun hsome => nomatch (hnone p') ▸ hsome⟩)
    (fun _ => hclients) (fun hb => ?_) (fun _ => by rw [hout, hzero]) (by rw [hout, inOp, inOp, hop]) (fun hu hc _ => hidle hu hc) hnodup
  obtain ⟨hb', hcom, hq⟩ := hbooting hb
  obtain ⟨-, h2, h3, h4⟩ := h.booting hb'
  obtain rfl : p = 0 := (h.one 0 p h3 hp).symm
  rw [hproc]
  exact ⟨by rw [hout, hzero], by rw [hcom, h2], hq, fun p' hp' => by rw [update_of_ne hp', h4 p' hp']⟩

/-- Who does an instruction that is no call commits or recovers. -/
theorem script (htodo : (s.proc p).todo = a :: rest) (ha : a.isCall ≠ true) :
    ¬ Client (s.proc p).todo ∧ s.Tail p (a :: rest) := by
  have hmode := h.mode p
  rw [htodo] at hmode ⊢
  have hno : ¬ Client (a :: rest) := fun hc => ha hc.pop.2
  exact ⟨hno, hmode.resolve_left hno⟩

theorem clear (htodo : (s.proc p).todo = .clear :: rest)
    (hlog : s'.log = { s.log with n := 0 }) (hup : s'.up = s.up) (hproc : s'.proc = update s.proc p q)
    (hq : q.todo = rest) (hop : q.op = (s.proc p).op) (hpc : q.pc = (s.proc p).pc) : s'.OpInv := by
  obtain ⟨hno, hscript⟩ := h.script htodo nofun
  have hmode : s'.Tail p q.todo := by
    rw [Tail, hlog, hup, hq]
    exact hscript.imp (And.imp_right (And.imp_right CommitTail.clear)) (And.imp_right (And.imp_right BootTail.clear))
  refine h.special hno hproc (by rw [hlog]) hop hpc (Or.inr hmode) (fun hb => ?_) (fun _ _ => by rw [hlog])
    (fun _ => by rw [hlog]; exact List.nodup_nil)
  rcases hmode with ⟨hu, -, -⟩ | ⟨hu, -, hc⟩
  · cases hb.symm.trans hu
  · exact ⟨hup.symm.trans hu, by rw [hlog], hc.not_client⟩

theorem committed (htodo : (s.proc p).todo = .committed :: rest)
    (hlog : s'.log = { s.log with committing := false }) (hup : s'.up = s.up)
    (hproc : s'.proc = update s.proc p q)
    (hq : q.todo = rest) (hop : q.op = (s.proc p).op) (hpc : q.pc = (s.proc p).pc) : s'.OpInv := by
  obtain ⟨hno, ⟨hu, -, hc⟩ | ⟨-, -, hc⟩⟩ := h.script htodo nofun
  · obtain ⟨rfl, hn⟩ := hc.committed
    exact h.special hno hproc (by rw [hlog]) hop hpc (Or.inl hq) (fun hb => nomatch (hup.trans hu).symm.trans hb)
      (fun _ _ => by rw [hlog, hn]) fun _ => by rw [hlog, hn]; exact List.nodup_nil
  · rcases hc.head with ha | ha | ha | ha <;> cases ha

theorem readHead (htodo : (s.proc p).todo = .readHead :: rest)
    (hlog : s'.log = { s.log with n := n, block := block }) (hup : s'.up = s.up)
    (hproc : s'.proc = update s.proc p q)
    (hq : q.todo = recoverRest n block) (hop : q.op = (s.proc p).op) (hpc : q.pc = (s.proc p).pc) : s'.OpInv := by
  obtain ⟨hno, ⟨-, -, hc⟩ | ⟨hb, hp, -⟩⟩ := h.script htodo nofun
  · rcases hc.head with ha | ha | ha <;> cases ha
  have htail := bootTail_recoverRest n block s'.log.n
  rw [← hq] at htail
  have hup' : s'.up ≠ true := by
    rw [hup, hb]
    exact nofun
  exact h.special hno hproc (by rw [hlog]) hop hpc (Or.inr (Or.inr ⟨hup.trans hb, hp, htail⟩))
    (fun _ => ⟨hb, by rw [hlog], htail.not_client⟩) (fun hu => absurd hu hup') (fun hu => absurd hu hup')

theorem booted (htodo : (s.proc p).todo = .booted :: rest)
    (hlog : s'.log = s.log) (hup : s'.up = true) (hproc : s'.proc = update s.proc p q)
    (hq : q.todo = rest) (hop : q.op = (s.proc p).op) (hpc : q.pc = (s.proc p).pc) : s'.OpInv := by
  obtain ⟨hno, ⟨-, -, hc⟩ | ⟨-, -, hc⟩⟩ := h.script htodo nofun
  · rcases hc.head with ha | ha | ha <;> cases ha
  · obtain ⟨rfl, hn⟩ := hc.booted
    exact h.special hno hproc (by rw [hlog]) hop hpc (Or.inl hq) (fun hb => nomatch hup.symm.trans hb)
      (fun _ _ => by rw [hlog, hn]) fun _ => by rw [hlog, hn]; exact List.nodup_nil

/-- While no process commits, one that begins or ends an operation is a client. -/
theorem client_of_op (htodo : (s.proc p).todo = a :: rest) (ha : a = .beginOp ∨ a = .endOp)
    (hcom : s.log.committing = false) : Client (a :: rest) := by
  have hmode := h.mode p
  rw [htodo] at hmode
  rcases hmode with hc | ⟨-, hc, -⟩ | ⟨-, -, hc⟩
  · exact hc
  · rw [hcom] at hc
    cases hc
  · rcases ha with rfl | rfl <;> rcases hc.head with ha | ha | ha | ha <;> cases ha

/-- When an operation is in progress, every process is a client. -/
theorem all_clients (hout : s.log.outstanding ≠ 0) (p : Fin (N + 1)) : Client (s.proc p).todo :=
  by_contra fun hno => hout (h.not_client hno).1

theorem outstanding_pos (hop : (s.proc p).op.isSome) : s.log.outstanding ≠ 0 := fun hzero => by
  rw [h.no_ops hzero p] at hop
  cases hop

/-- A call changes the number of operations in progress. -/
theorem changeOp (htodo : (s.proc p).todo = a :: rest) (ha : a = .beginOp ∨ a = .endOp)
    (hcom : s.log.committing = false) (hup : s'.up = s.up) (hproc : s'.proc = update s.proc p q)
    (hn : s'.log.n = s.log.n) (hblock : s'.log.block = s.log.block)
    (hcom' : s'.log.committing = true → s'.log.outstanding = 0)
    (hpos : s'.log.committing = false → s'.log.outstanding ≠ 0)
    (hcount : s'.log.outstanding + inOp (s.proc p) = s.log.outstanding + inOp q)
    (hq : q.todo = [] ∨ s'.log.committing = true ∧ q.todo = commit s.log) (hpc : q.pc = (s.proc p).pc)
    (hready : (s.proc p).pc = .ready) (hlogged : q.op.isSome → q.logged = ∅) : s'.OpInv := by
  -- no process commits, and the machine is up
  have hu := h.up_of_call htodo (htodo ▸ h.client_of_op htodo ha hcom)
  have hclients : ∀ p', Client (s.proc p').todo := fun p' => by
    rcases h.mode p' with hc | ⟨-, hc, -⟩ | ⟨hc, -, -⟩
    · exact hc
    · rw [hcom] at hc
      cases hc
    · rw [hu] at hc
      cases hc
  have hq' : Client q.todo ∨ s'.log.committing = true ∧ CommitTail s'.log.n q.todo := by
    rcases hq with hnil | ⟨hc, hcommit⟩
    · rw [hnil]
      exact Or.inl client_nil
    · rw [hcommit, hn]
      exact Or.inr ⟨hc, commitTail_commit s.log⟩
  refine h.change hproc ⟨hq'.imp_right fun hc => Or.inl ⟨hup.trans hu, hc⟩, fun b r hr => ?_, fun i d hpc' => ?_, fun hsome => ?_⟩
    (fun p' _ => ⟨Or.inl (hclients p'), h.calls p', h.appends p', fun hsome x hx => ?_⟩) (fun _ p' _ => hclients p') (fun hb => ?_) hcom'
    hcount (fun _ hc hz => absurd hz (hpos hc)) (by rw [hn, hblock, hup]; exact h.nodup)
  · rcases hq with hnil | ⟨-, hcommit⟩
    · cases hnil.symm.trans hr
    · have hc := commitTail_commit s.log
      rw [← hcommit, hr] at hc
      exact hc.allowed
  · cases (hpc.trans hready).symm.trans hpc'
  · rw [hlogged hsome]
    exact fun x hx => absurd hx (Finset.notMem_empty x)
  · rw [Lists, hn, hblock]
    exact h.logged p' hsome x hx
  · cases (hup.trans hu).symm.trans hb

/-- The end of `log_write`. -/
theorem append {i : ℕ} (hpc : (s.proc p).pc = .appending i d)
    (hlog : s'.log = logAppend s.log x) (hup : s'.up = s.up) (hproc : s'.proc = update s.proc p q)
    (hq : q.pc = .ready) (htodo : q.todo = (s.proc p).todo) (hop : q.op = (s.proc p).op)
    (hlogged : q.logged = insert x (s.proc p).logged) : s'.OpInv := by
  have hsome := h.appends p i d hpc
  have hpos := h.outstanding_pos hsome
  have hout : s'.log.outstanding = s.log.outstanding := by rw [hlog]; rfl
  have hcom : s'.log.committing = s.log.committing := by rw [hlog]; rfl
  have hclients := h.all_clients hpos
  refine h.change hproc ⟨Or.inl (by rw [htodo]; exact hclients p), fun b r hr => ?_, fun j e hpc' => (nomatch hq.symm.trans hpc'),
      fun _ y hy => ?_⟩
    (fun p' _ => ⟨Or.inl (hclients p'), h.calls p', h.appends p', fun hsome y hy => ?_⟩) (fun _ p' _ => hclients p') (fun hb => ?_)
    (by rw [hout, hcom]; exact h.committing) (by rw [hout, inOp, inOp, hop]) (fun _ _ hz => absurd (hout.symm.trans hz) hpos)
    fun hu => ?_
  · rw [htodo] at hr
    exact (h.calls p b r hr).congr hop
  · rw [hlogged, Finset.mem_insert] at hy
    rw [hlog, lists_logAppend]
    exact hy.imp_right (h.logged p hsome y)
  · rw [hlog, lists_logAppend]
    exact Or.inr (h.logged p' hsome y hy)
  · rw [hup] at hb
    exact absurd (h.booting hb).1 hpos
  · rw [hlog]
    exact nodup_logAppend (h.nodup (hup.symm.trans hu))

/-- What follows an instruction is not a `log_write`. -/
theorem not_logWrite (htodo : (s.proc p).todo = a :: .logWrite x d :: rest) :
    False := by
  rcases h.mode p with hc | ⟨-, -, -, ⟨log, hlog⟩, -⟩ | ⟨-, -, -, hinit | ⟨⟨m, block, hrest⟩, -⟩⟩
  · rw [htodo] at hc
    cases hc.pop.1
  · rw [htodo] at hlog
    rcases commit_suffix ((List.suffix_cons a _).trans hlog) with ⟨ha | ha, -⟩ | ⟨ha, -⟩ <;> cases ha
  · rw [htodo] at hinit
    rcases initlog_suffix ((List.suffix_cons a _).trans hinit) with ⟨ha, -⟩ | ⟨ha, -⟩ <;> cases ha
  · rw [htodo] at hrest
    rcases recoverRest_suffix ((List.suffix_cons a _).trans hrest) with ⟨ha | ha, -⟩ | ⟨ha, -⟩ <;> cases ha

theorem exec (hready : (s.proc p).pc = .ready) (htodo : (s.proc p).todo = a :: rest)
    (he : s.Exec p { s.proc p with todo := rest } a s') : s'.OpInv := by
  cases he with
  | bread => exact h.pop htodo (Or.inl rfl) rfl rfl rfl rfl rfl rfl nofun
  | logWrite => exact h.pop htodo (Or.inl rfl) rfl rfl rfl rfl rfl rfl fun _ _ _ => h.calls p _ _ htodo
  | write hw =>
    refine h.pop htodo ?_ rfl rfl rfl rfl rfl rfl nofun
    cases a with
    | bwrite => exact Or.inl rfl
    | bwriteCopy | bwriteHead => exact Or.inr rfl
    | _ => cases hw
  | readHead => exact h.readHead htodo rfl rfl rfl rfl rfl rfl
  | brelse => exact h.pop htodo (Or.inl rfl) rfl rfl rfl rfl rfl rfl nofun
  | clear => exact h.clear htodo rfl rfl rfl rfl rfl rfl
  | committed => exact h.committed htodo rfl rfl rfl rfl rfl rfl
  | beginOp hcom _ =>
    have hnone : (s.proc p).op = none := h.calls p _ _ htodo
    have hnil := (h.client_of_op htodo (Or.inl rfl) hcom).pop.1
    refine h.changeOp htodo (Or.inl rfl) hcom rfl rfl rfl rfl (fun hc => ?_) (fun _ => Nat.succ_ne_zero _) ?_
      (Or.inl hnil) rfl hready fun _ => rfl
    · exact absurd (hcom.symm.trans hc) nofun
    · rw [inOp, hnone]
      rfl
  | endOpLast hcom hlast =>
    have hsome : (s.proc p).op.isSome := h.calls p _ _ htodo
    have hpos := h.outstanding_pos hsome
    refine h.changeOp htodo (Or.inr rfl) hcom rfl rfl rfl rfl (fun _ => hlast) nofun ?_
      (Or.inr ⟨rfl, rfl⟩) rfl hready nofun
    show s.log.outstanding - 1 + inOp (s.proc p) = s.log.outstanding + 0
    rw [inOp, if_pos hsome]
    omega
  | endOp hcom hlast =>
    have hsome : (s.proc p).op.isSome := h.calls p _ _ htodo
    have hpos := h.outstanding_pos hsome
    have hnil : rest = [] := by
      have hc := h.all_clients hpos p
      rw [htodo] at hc
      exact hc.pop.1
    refine h.changeOp htodo (Or.inr rfl) hcom rfl rfl rfl rfl (fun hc => ?_) (fun _ => hlast) ?_
      (Or.inl hnil) rfl hready nofun
    · exact absurd (hcom.symm.trans hc) nofun
    · show s.log.outstanding - 1 + inOp (s.proc p) = s.log.outstanding + 0
      rw [inOp, if_pos hsome]
      omega
  | booted => exact h.booted htodo rfl rfl rfl rfl rfl rfl

/-- A process goes on with an instruction. -/
theorem go (hlog : s'.log = s.log) (hup : s'.up = s.up) (hproc : s'.proc = update s.proc p q)
    (htodo : q.todo = (s.proc p).todo) (hop : q.op = (s.proc p).op) (hlogged : q.logged = (s.proc p).logged)
    (happ : ∀ i d, q.pc = .appending i d → q.op.isSome) : s'.OpInv := by
  have hsame : ∀ p', (s'.proc p').todo = (s.proc p').todo := fun p' => by
    rcases proc_cases hproc p' with ⟨rfl, heq⟩ | ⟨-, heq⟩ <;> rw [heq]
    exact htodo
  refine h.update_same hproc hlog hup ((h.fair p).congr hlog hup htodo hop hlogged happ)
    (by rw [htodo]; exact id) hop fun hb => ?_
  rw [hsame]
  exact ⟨(h.booting hb).2.2.1, fun p' hp' => (hsame p').trans ((h.booting hb).2.2.2 p' hp')⟩

theorem runs (hr : s.Runs p s') : s'.OpInv := by
  cases hr with
  | exec hready htodo he => exact h.exec hready htodo he
  | acquire | hit | submit | read | written | unref => exact h.go rfl rfl rfl rfl rfl rfl nofun
  | append hpc => exact h.append hpc rfl rfl rfl rfl rfl rfl rfl

/-- A client makes a call. -/
theorem call (hup : s.up = true) (ha : a.isCall = true)
    (hok : (s.proc p).Allowed a) (hlog : s'.log = s.log) (hup' : s'.up = s.up)
    (hproc : s'.proc = update s.proc p q) (hq : q.todo = [a]) (hop : q.op = (s.proc p).op)
    (hlogged : q.logged = (s.proc p).logged) (hpc : q.pc = (s.proc p).pc) : s'.OpInv := by
  refine h.update_same hproc hlog hup' ⟨Or.inl (hq ▸ client_singleton ha), fun b r hr => ?_, fun i d hpc' => ?_, ?_⟩
    (fun hno => absurd (hq ▸ client_singleton ha) hno) hop fun hb => nomatch hup.symm.trans hb
  · rw [hq] at hr
    obtain ⟨rfl, -⟩ := List.cons.inj hr
    exact hok.congr hop
  · rw [hpc] at hpc'
    rw [hop]
    exact h.appends p i d hpc'
  · rw [hlog, hop, hlogged]
    exact h.logged p

end

end OpInv

theorem boot_opInv {disk : ℕ → Data} (hist : History) : (boot disk hist : State N).OpInv := by
  have hzero : ((boot disk hist : State N).proc 0).todo = initlog := rfl
  have hother : ∀ p ≠ 0, ((boot disk hist : State N).proc p).todo = [] := fun p hp => if_neg hp
  have htail : BootTail 0 initlog := ⟨nofun, Or.inl (List.suffix_refl _)⟩
  have honly : ∀ p, ¬ Client ((boot disk hist : State N).proc p).todo → p = 0 := fun p hno => by
    by_contra hp
    rw [hother p hp] at hno
    exact hno client_nil
  refine ⟨fun p => ?_, fun p p' h h' => (honly p h).trans (honly p' h').symm,
    fun _ => ⟨rfl, rfl, htail.not_client, hother⟩, nofun, ?_, fun _ _ _ => rfl, fun p a r hr => ?_, fun _ _ _ => nofun,
    fun _ => List.nodup_nil, nofun⟩
  · by_cases hp : p = 0
    · subst hp
      exact Or.inr (Or.inr ⟨rfl, rfl, htail⟩)
    · rw [hother p hp]
      exact Or.inl client_nil
  · exact (Finset.sum_eq_zero fun p _ => rfl).symm
  · by_cases hp : p = 0
    · subst hp
      rw [hzero] at hr
      rw [hr] at htail
      exact htail.allowed
    · rw [hother p hp] at hr
      cases hr

/-- `log_write` is only called inside an operation. -/
def InOp (s : State N) : Event N → Prop
  | .call p (.logWrite _ _) => (s.proc p).op.isSome
  | _ => True

theorem mayCall_allowed (hmay : s.MayCall p a) (hok : s.InOp (.call p a)) :
    a.isCall = true ∧ (s.proc p).Allowed a := by
  cases a with
  | logWrite => exact ⟨rfl, hok⟩
  | beginOp | endOp => exact ⟨rfl, hmay⟩
  | bread | brelse | bwrite => exact ⟨rfl, trivial⟩
  | _ => cases hmay

theorem OpInv.step (h : s.OpInv) {e : Event N} (hok : s.InOp e) (hs : s.step e = some s') : s'.OpInv := by
  cases e with
  | call p a =>
    obtain ⟨-, -, hup, hmay, rfl⟩ := step_call hs
    obtain ⟨hcall, hallowed⟩ := mayCall_allowed hmay hok
    exact h.call hup hcall hallowed rfl rfl rfl rfl rfl rfl rfl
  | run p => exact h.runs (run_eq_some hs)
  | intr =>
    obtain ⟨i, rest, -, rfl⟩ := ideintr_eq_some hs
    obtain ⟨hlog, hup, hproc⟩ := transfer_frame s i
    exact h.go hlog hup (hproc.trans (update_eq_self 0 s.proc).symm) rfl rfl rfl (h.appends 0)
  | crash =>
    obtain rfl := Option.some.inj hs
    exact boot_opInv _

end State
end OsLab.Xv6
