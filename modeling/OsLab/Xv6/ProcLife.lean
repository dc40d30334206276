import OsLab.Xv6.ProcSteps

/-!
# The life of a process

* `History`: a process that has exited is a zombie, or has been reaped once, by the process that made it or, if
  that one has exited, by `init`.
* `ptable_sound`: pids, parents and reapers, in every state reached.
-/

namespace OsLab.Xv6.Ptable

open Function

variable {s s' : Table} {p q np : Slot} {v : Proc} {a : Event}

namespace Table

/-- What the past has to do with the table. -/
structure History (s : Table) : Prop where
  init : s.past.born s.initproc = 0
  alive : ∀ p, (s.proc p).state ≠ .unused → (s.proc p).state ≠ .zombie → s.past.exited (s.past.born p) = false
  zombie : ∀ p, (s.proc p).state = .zombie → s.past.exited (s.past.born p) = true
  unreaped : ∀ p, (s.proc p).state ≠ .unused → s.past.reapers (s.past.born p) = []
  fresh : ∀ n, s.past.forks < n → s.past.exited n = false ∧ s.past.reapers n = []
  reaped : ∀ n, s.past.reapers n ≠ [] → s.past.exited n = true
  gone : ∀ n, s.past.exited n = true → (∃ p, (s.proc p).state = .zombie ∧ s.past.born p = n) ∨
    ∃ r, s.past.reapers n = [r] ∧ (r = s.past.mother n ∨ r = 0 ∧ s.past.exited (s.past.mother n) = true)
  parent : ∀ p q, (s.proc p).state ≠ .unused → (s.proc p).parent = some q →
    s.past.born q = s.past.mother (s.past.born p) ∨ q = s.initproc ∧ s.past.exited (s.past.mother (s.past.born p)) = true
  child : ∀ p np, (s.pc p).child = some np → s.past.born p = s.past.mother (s.past.born np)

/-- Nobody is made, exits or is reaped. -/
theorem History.of_same (h : s.History) (hpast : s.past.Same s'.past) (hinit : s'.initproc = s.initproc)
    (hused : ∀ p, (s'.proc p).state ≠ .unused → (s.proc p).state ≠ .unused)
    (hzombie : ∀ p, (s'.proc p).state = .zombie ↔ (s.proc p).state = .zombie)
    (hparent : ∀ p q, (s'.proc p).parent = some q →
      (s.proc p).parent = some q ∨ s.past.born q = s.past.mother (s.past.born p))
    (hchild : ∀ p np, (s'.pc p).child = some np → (s.pc p).child = some np) : s'.History := by
  obtain ⟨hforks, hborn, hmother, hexited, hreapers⟩ := hpast
  constructor
  · rw [hborn, hinit]
    exact h.init
  · intro p hp hz
    rw [Ne, hzombie] at hz
    rw [hexited, hborn]
    exact h.alive p (hused p hp) hz
  · intro p hz
    rw [hexited, hborn]
    exact h.zombie p ((hzombie p).1 hz)
  · intro p hp
    rw [hreapers, hborn]
    exact h.unreaped p (hused p hp)
  · rw [hforks, hexited, hreapers]
    exact h.fresh
  · rw [hexited, hreapers]
    exact h.reaped
  · intro n hn
    rw [hexited] at hn ⊢
    rw [hreapers, hmother, hborn]
    rcases h.gone n hn with ⟨p, hp, heq⟩ | hr
    · exact Or.inl ⟨p, (hzombie p).2 hp, heq⟩
    · exact Or.inr hr
  · intro p q hp hq
    rw [hexited, hborn, hmother, hinit]
    rcases hparent p q hq with hq' | heq
    · exact h.parent p q (hused p hp) hq'
    · exact Or.inl heq
  · intro p np hc
    rw [hborn, hmother]
    exact h.child p np (hchild p np hc)

theorem History.mild (h : s.History) (hm : Mild s s') : s'.History := by
  refine h.of_same hm.past hm.initproc (fun p hp => ?_) (fun p => (hm.proc p).eq_iff (not_live_zombie rfl)) (fun p q hq => ?_)
    fun p np => hm.child.1
  · rwa [Ne, (hm.proc p).eq_iff (not_live_unused rfl)] at hp
  · rw [(hm.proc p).parent] at hq
    exact Or.inl hq

/-- A stage of `fork`. -/
theorem History.moves {pc : Pc} (h : s.History) (hinv : s.Inv) (hm : Moves s s' p np v pc) (hpast : s.past.Same s'.past)
    (hc : (s.pc p).child = some np) (hv : v.state ≠ .zombie)
    (hparent : v.parent = (s.proc np).parent ∨ v.parent = some p) (hpc : pc.child = some np ∨ pc.child = none) :
    s'.History := by
  have hemb := (hinv.child p np hc).2
  refine h.of_same hpast hm.initproc (fun q hq => ?_) (fun q => ?_) (fun q r hr => ?_) fun q c hq => ?_
  · by_cases hqn : q = np
    · rw [hqn, hemb]
      exact nofun
    · rwa [hm.other q hqn] at hq
  · by_cases hqn : q = np
    · rw [hqn, hm.self, hemb]
      exact ⟨fun hz => absurd hz hv, nofun⟩
    · rw [hm.other q hqn]
  · by_cases hqn : q = np
    · subst hqn
      rw [hm.self] at hr
      rcases hparent with heq | heq
      · exact Or.inl (heq ▸ hr)
      · obtain rfl := Option.mem_unique heq hr
        exact Or.inr (h.child p q hc)
    · rw [hm.other q hqn] at hr
      exact Or.inl hr
  · by_cases hqp : q = p
    · subst hqp
      rw [hm.pcSelf] at hq
      rcases hpc with heq | heq
      · rw [hc, ← heq, hq]
      · cases heq.symm.trans hq
    · rwa [hm.pcOther q hqp] at hq

/-- A new process: its number is one that nobody had. -/
theorem History.take (h : s.History) (hinv : s.Inv) (hp : s.Idle p) (hun : (s.proc np).state = .unused) :
    (s.take p np).History := by
  have hm := moves_take s p np
  have hinit : s.initproc ≠ np := by
    rintro rfl
    exact not_live_unused hun hinv.init
  have hpn : p ≠ np := by
    rintro rfl
    cases hp.1.symm.trans hun
  have hmother : ∀ n ≤ s.past.forks, (s.take p np).past.mother n = s.past.mother n :=
    fun n hn => update_of_ne (by omega) _ _
  have hborn : ∀ {q}, q ≠ np → (s.take p np).past.born q = s.past.born q := fun hq => take_born_of_ne s p hq
  have hself : (s.take p np).past.born np = s.past.forks + 1 := take_born_self s p np
  have hnew := h.fresh (s.past.forks + 1) (Nat.lt_succ_self _)
  constructor
  · show (s.take p np).past.born s.initproc = 0
    rw [hborn hinit]
    exact h.init
  · intro q hq hz
    by_cases hqn : q = np
    · rw [hqn, hself]
      exact hnew.1
    · rw [hm.other q hqn] at hq hz
      rw [hborn hqn]
      exact h.alive q hq hz
  · intro q hz
    have hqn : q ≠ np := by
      rintro rfl
      rw [hm.self] at hz
      cases hz
    rw [hm.other q hqn] at hz
    rw [hborn hqn]
    exact h.zombie q hz
  · intro q hq
    by_cases hqn : q = np
    · rw [hqn, hself]
      exact hnew.2
    · rw [hm.other q hqn] at hq
      rw [hborn hqn]
      exact h.unreaped q hq
  · exact fun n hn => h.fresh n (Nat.lt_of_succ_lt hn)
  · exact h.reaped
  · intro n hn
    have hle : n ≤ s.past.forks := by
      by_contra hlt
      cases (h.fresh n (by omega)).1.symm.trans hn
    rw [hmother n hle]
    refine (h.gone n hn).imp_left ?_
    rintro ⟨q, hq, heq⟩
    have hqn : q ≠ np := by
      rintro rfl
      cases hun.symm.trans hq
    exact ⟨q, by rw [hm.other q hqn]; exact hq, by rw [hborn hqn]; exact heq⟩
  · intro q r hq hr
    have hqn : q ≠ np := by
      rintro rfl
      rw [hm.self] at hr
      cases (hinv.unused q hun).symm.trans hr
    rw [hm.other q hqn] at hq hr
    rw [hborn hqn, hmother _ (hinv.born q hq)]
    refine (h.parent q r hq hr).imp_left fun heq => ?_
    -- a parent lives, or is in `fork`
    have hrn : r ≠ np := by
      rintro rfl
      have hlive : (s.proc r).state.Live := by
        by_cases hemb : (s.proc q).state = .embryo
        · obtain ⟨t, ht⟩ := hinv.embryo q hemb
          have hready := hinv.ready t q ht
          rw [hr] at hready
          split_ifs at hready
          exact Option.some.inj hready ▸ (hinv.child t q ht).1
        · have hst : (s.proc q).state.Live ∨ (s.proc q).state = .zombie := by
            revert hq hemb
            cases (s.proc q).state <;> simp [PState.Live]
          have hqi : q ≠ s.initproc := by
            rintro rfl
            cases hinv.initParent.symm.trans hr
          obtain ⟨t, ht, hl⟩ := hinv.parent q hqi hst
          exact Option.mem_unique hr ht ▸ hl
      exact not_live_unused hun hlive
    rw [hborn hrn]
    exact heq
  · intro q c hc
    by_cases hqp : q = p
    · subst hqp
      rw [hm.pcSelf] at hc
      obtain rfl := Option.some.inj hc
      rw [hself, hborn hpn]
      exact (update_self (s.past.forks + 1) (s.past.born q) s.past.mother).symm
    · rw [hm.pcOther q hqp] at hc
      obtain ⟨hl, he⟩ := hinv.child q c hc
      have hqn : q ≠ np := by
        rintro rfl
        exact not_live_unused hun hl
      have hcn : c ≠ np := by
        rintro rfl
        cases hun.symm.trans he
      rw [hborn hqn, hborn hcn, hmother _ (hinv.born c (by rw [he]; exact nofun))]
      exact h.child q c hc

/-- A process exits. -/
theorem History.leave (h : s.History) (hinv : s.Inv) (hlive : (s.proc p).state.Live) (hp : p ≠ s.initproc) :
    (s.leave p).History := by
  have hused : (s.proc p).state ≠ .unused := fun hu => not_live_unused hu hlive
  have hself : (s.leave p).past.exited (s.past.born p) = true := update_self ..
  have hother : ∀ {n}, n ≠ s.past.born p → (s.leave p).past.exited n = s.past.exited n :=
    fun hn => update_of_ne hn _ _
  have hmono : ∀ {n}, s.past.exited n = true → (s.leave p).past.exited n = true := by
    intro n hn
    by_cases heq : n = s.past.born p
    · rw [heq]
      exact hself
    · rw [hother heq]
      exact hn
  have hst : ∀ {q}, q ≠ p → ((s.leave p).proc q).state = (s.proc q).state := fun hq => leave_state_of_ne s hq
  have huse : ∀ {q}, ((s.leave p).proc q).state ≠ .unused → (s.proc q).state ≠ .unused := by
    intro q hq
    by_cases hqp : q = p
    · rw [hqp]
      exact hused
    · rwa [hst hqp] at hq
  constructor
  · exact h.init
  · intro q hq hz
    have hqp : q ≠ p := by
      rintro rfl
      exact hz (leave_state_self s q)
    rw [hst hqp] at hq hz
    show (s.leave p).past.exited (s.past.born q) = false
    rw [hother fun heq => hqp (hinv.bornInj q p hq hused heq)]
    exact h.alive q hq hz
  · intro q hz
    by_cases hqp : q = p
    · rw [hqp]
      exact hself
    · rw [hst hqp] at hz
      exact hmono (h.zombie q hz)
  · exact fun q hq => h.unreaped q (huse hq)
  · intro n hn
    have hn' := h.fresh n hn
    have hne : n ≠ s.past.born p := by
      rintro rfl
      exact absurd (hinv.born p hused) (Nat.not_le.2 hn)
    exact ⟨by rw [hother hne]; exact hn'.1, hn'.2⟩
  · exact fun n hn => hmono (h.reaped n hn)
  · intro n hn
    by_cases heq : n = s.past.born p
    · exact Or.inl ⟨p, leave_state_self s p, heq.symm⟩
    · rw [hother heq] at hn
      rcases h.gone n hn with ⟨q, hq, hb⟩ | ⟨r, hr, hwho⟩
      · have hqp : q ≠ p := by
          rintro rfl
          exact heq hb.symm
        exact Or.inl ⟨q, by rw [hst hqp]; exact hq, hb⟩
      · exact Or.inr ⟨r, hr, hwho.imp_right fun hw => ⟨hw.1, hmono hw.2⟩⟩
  · intro q r hq hr
    rw [leave_parent] at hr
    split_ifs at hr with hqp
    · -- the children of `p` are passed to `init`
      obtain rfl := Option.some.inj hr
      refine Or.inr ⟨rfl, ?_⟩
      rcases h.parent q p (huse hq) hqp with heq | ⟨heq, -⟩
      · exact heq ▸ hself
      · exact absurd heq hp
    · exact (h.parent q r (huse hq) hr).imp_right fun hw => ⟨hw.1, hmono hw.2⟩
  · exact h.child

/-- A zombie is reaped by its parent. -/
theorem History.reap {clear : Proc → Proc} (h : s.History) (hinv : s.Inv) (hno : (s.pc p).child = none)
    (hparent : (s.proc q).parent = some p) (hz : (s.proc q).state = .zombie)
    (hstate : (clear (s.proc q)).state = .unused) : (s.reap p q clear).History := by
  have hm := moves_reap s p q clear
  have hused : (s.proc q).state ≠ .unused := by
    rw [hz]
    exact nofun
  have hself : (s.reap p q clear).past.reapers (s.past.born q) = [s.past.born p] := by
    refine (update_self ..).trans ?_
    rw [h.unreaped q hused]
    rfl
  have hother : ∀ {n}, n ≠ s.past.born q → (s.reap p q clear).past.reapers n = s.past.reapers n :=
    fun hn => update_of_ne hn _ _
  have huse : ∀ {r}, ((s.reap p q clear).proc r).state ≠ .unused → r ≠ q := by
    rintro r hr rfl
    rw [hm.self] at hr
    exact hr hstate
  constructor
  · exact h.init
  · intro r hr hrz
    have hrq := huse hr
    rw [hm.other r hrq] at hr hrz
    exact h.alive r hr hrz
  · intro r hrz
    have hrq : r ≠ q := huse (by rw [hrz]; exact nofun)
    rw [hm.other r hrq] at hrz
    exact h.zombie r hrz
  · intro r hr
    have hrq := huse hr
    rw [hm.other r hrq] at hr
    show (s.reap p q clear).past.reapers (s.past.born r) = []
    rw [hother fun heq => hrq (hinv.bornInj r q hr hused heq)]
    exact h.unreaped r hr
  · intro n hn
    have hne : n ≠ s.past.born q := by
      rintro rfl
      exact absurd (hinv.born q hused) (Nat.not_le.2 hn)
    rw [hother hne]
    exact h.fresh n hn
  · intro n hn
    by_cases heq : n = s.past.born q
    · rw [heq]
      exact h.zombie q hz
    · rw [hother heq] at hn
      exact h.reaped n hn
  · intro n hn
    by_cases heq : n = s.past.born q
    · subst heq
      refine Or.inr ⟨s.past.born p, hself, ?_⟩
      rcases h.parent q p hused hparent with hmo | ⟨rfl, hex⟩
      · exact Or.inl hmo
      · exact Or.inr ⟨h.init, hex⟩
    · rw [hother heq]
      refine (h.gone n hn).imp_left ?_
      rintro ⟨r, hr, hb⟩
      have hrq : r ≠ q := by
        rintro rfl
        exact heq hb.symm
      exact ⟨r, by rw [hm.other r hrq]; exact hr, hb⟩
  · intro r t hr ht
    have hrq := huse hr
    rw [hm.other r hrq] at hr ht
    exact h.parent r t hr ht
  · intro r c hc
    have hrp : r ≠ p := by
      rintro rfl
      rw [hm.pcSelf] at hc
      cases hc
    rw [hm.pcOther r hrp] at hc
    exact h.child r c hc

theorem History.step (h : s.History) (hinv : s.Inv) (hs : s.step a = some s') : s'.History := by
  have hpast := Past.Same.refl s.past
  cases step_change hs with
  | quiet hq => exact h.mild hq.toMild
  | kill pid => exact h.mild (mild_kill pid)
  | tick => exact h.mild (mild_tick s)
  | updatestatistics => exact h.mild (mild_updatestatistics s)
  | take hp hnp => exact h.take hinv hp hnp
  | @kalloc p np hp =>
    obtain ⟨hc, hemb, -⟩ := hinv.making hp rfl
    exact h.moves hinv (moves_setPc s p np) hpast hc (by rw [hemb]; exact nofun) (Or.inl rfl) (Or.inl rfl)
  | @setUp p np _ hp =>
    obtain ⟨hc, hemb, -⟩ := hinv.making hp rfl
    exact h.moves hinv (moves_fork s p np) ⟨rfl, rfl, rfl, rfl, rfl⟩ hc (fun hz => nomatch hemb.symm.trans hz)
      (Or.inl rfl) (Or.inl rfl)
  | @copy p np hp =>
    obtain ⟨hc, hemb, -⟩ := hinv.making hp rfl
    exact h.moves hinv (moves_setPc s p np) hpast hc (by rw [hemb]; exact nofun) (Or.inl rfl) (Or.inl rfl)
  | @inherit p np _ hp =>
    obtain ⟨hc, hemb, -⟩ := hinv.making hp rfl
    exact h.moves hinv (moves_fork s p np) hpast hc (fun hz => nomatch hemb.symm.trans hz) (Or.inr rfl) (Or.inl rfl)
  | @drop p np hp =>
    have hc : (s.pc p).child = some np := by
      rcases hp with hp | hp
      · exact (hinv.making hp rfl).1
      · exact (hinv.making hp rfl).1
    exact h.moves hinv (moves_setState s p np .unused) hpast hc nofun (Or.inl rfl) (Or.inr rfl)
  | @launch p np _ hp =>
    exact h.moves hinv (moves_setState s p np .runnable) hpast (hinv.making hp rfl).1 nofun (Or.inl rfl) (Or.inr rfl)
  | @leave p s1 hq hp hpc hinit =>
    refine (h.mild hq.toMild).leave (hinv.mild hq.toMild) ((hq.proc p).live.2 (Or.inr (Or.inr hp.1))) ?_
    rw [hq.initproc]
    exact hinit
  | reap hrun hno hparent hz hclear =>
    rcases hclear with rfl | rfl
    · exact h.reap hinv hno hparent hz rfl
    · exact h.reap hinv hno hparent hz rfl

theorem Start.history (h : s.Start) : s.History := by
  have hstate : ∀ p, (s.proc p).state ≠ .zombie := by
    intro p
    by_cases hp : p = s.initproc
    · rw [hp, h.init]
      exact nofun
    · rw [h.other p hp]
      exact nofun
  refine ⟨h.born, fun p _ _ => h.exited _, fun p hp => absurd hp (hstate p), fun p _ => h.reapers _,
    fun n _ => ⟨h.exited n, h.reapers n⟩, fun n hn => absurd (h.reapers n) hn, fun n hn => ?_, fun p q _ hq => ?_,
    fun p np hc => ?_⟩
  · rw [h.exited n] at hn
    cases hn
  · by_cases hp : p = s.initproc
    · rw [hp, h.init] at hq
      cases hq
    · rw [h.other p hp] at hq
      cases hq
  · rw [h.pc p] at hc
    cases hc

theorem reach_history {ok : Table → Event → Prop} (h : system.Reach ok s) : s.History := by
  have hboth : s.Inv ∧ s.History := by
    refine h.invariant (I := fun s => s.Inv ∧ s.History) (fun s hs => ⟨hs.inv, hs.history⟩) ?_
    rintro s a s' ⟨hinv, hh⟩ - hs
    exact ⟨hinv.step hs, hh.step hinv hs⟩
  exact hboth.2

/-! ## Pids, parents and reapers -/

/-- **Every process has a pid of its own, and a parent that lives; whoever exits is reaped once.**  The pids are
positive as long as there have been fewer than `2 ^ 31 - 1` calls of `fork`. -/
theorem ptable_sound (h : system.Reach (fun _ _ => True) s) :
    (s.past.forks < 2 ^ 31 - 1 →
      (∀ p, (s.proc p).state ≠ .unused → 0 < (s.proc p).pid.toInt) ∧
      ∀ p q, (s.proc p).state ≠ .unused → (s.proc q).state ≠ .unused → (s.proc p).pid = (s.proc q).pid → p = q) ∧
    (∀ p ≠ s.initproc, (s.proc p).state.Live ∨ (s.proc p).state = .zombie →
      ∃ q, (s.proc p).parent = some q ∧ (s.proc q).state ≠ .unused ∧ (s.proc q).state ≠ .zombie) ∧
    (∀ p, (s.proc p).state = .unused → (s.proc p).parent = none) ∧
    (∀ n, s.past.exited n = true →
      (∃ p, (s.proc p).state = .zombie ∧ s.past.born p = n) ∧ s.past.reapers n = [] ∨
        ∃ r, s.past.reapers n = [r] ∧ (r = s.past.mother n ∨ r = 0 ∧ s.past.exited (s.past.mother n) = true)) ∧
    ∀ n, s.past.exited n = false → s.past.reapers n = [] := by
  have hinv := reach_inv h
  have hhist := reach_history h
  refine ⟨fun hforks => ?_, fun p hp hst => ?_, hinv.unused, fun n hn => ?_, fun n hn => ?_⟩
  · have hpid : ∀ p, (s.proc p).state ≠ .unused → (s.proc p).pid.toInt = s.past.born p + 1 := by
      intro p hp
      have hle := hinv.born p hp
      rw [hinv.pid p hp, toInt_ofNat (by omega)]
      rfl
    refine ⟨fun p hp => ?_, fun p q hp hq heq => hinv.bornInj p q hp hq ?_⟩
    · rw [hpid p hp]
      omega
    · have hint := congrArg BitVec.toInt heq
      rw [hpid p hp, hpid q hq] at hint
      omega
  · obtain ⟨q, hq, hl⟩ := hinv.parent p hp hst
    exact ⟨q, hq, fun hu => not_live_unused hu hl, fun hz => not_live_zombie hz hl⟩
  · rcases hhist.gone n hn with ⟨p, hp, rfl⟩ | hr
    · exact Or.inl ⟨⟨p, hp, rfl⟩, hhist.unreaped p (by rw [hp]; exact nofun)⟩
    · exact Or.inr hr
  · by_contra hr
    cases hn.symm.trans (hhist.reaped n hr)

theorem ptable_sound_boot : system.Reach (fun _ _ => True) boot ∧ 0 < (boot.proc 0).pid.toInt := by
  have hboot : system.Reach (fun _ _ => True) boot := .init start_boot
  exact ⟨hboot, ((ptable_sound hboot).1 (by decide)).1 0 nofun⟩

/-- `init` alone, after `n` calls of `fork` for which there was no memory. -/
structure Alone (s : Table) (n : ℕ) : Prop where
  reach : system.Reach (fun _ _ => True) s
  run : s.Idle s.initproc
  unused : ∀ p ≠ s.initproc, (s.proc p).state = .unused
  forks : s.past.forks = n

/-- The next call of `fork`. -/
theorem Alone.take {n : ℕ} (h : Alone s n) : ∃ np ≠ s.initproc, s.step (.fork s.initproc) = some (s.take s.initproc np) := by
  have hne : (1 : Slot) ≠ 0 := by decide
  obtain ⟨q, hq⟩ : ∃ q : Slot, q ≠ s.initproc := by
    by_cases hi : s.initproc = 0
    · exact ⟨1, hi ▸ hne⟩
    · exact ⟨0, Ne.symm hi⟩
  obtain ⟨np, hnp⟩ := Option.isSome_iff_exists.1
    (first_isSome (P := fun q => decide ((s.proc q).state = .unused)) (decide_eq_true (h.unused q hq)))
  refine ⟨np, ?_, ?_⟩
  · rintro rfl
    cases h.run.1.symm.trans (of_decide_eq_true (first_eq_some hnp))
  · rw [step, if_pos h.run, allocproc, hnp]

theorem Alone.next {n : ℕ} (h : Alone s n) : ∃ s', Alone s' (n + 1) := by
  obtain ⟨np, hnp, hfork⟩ := h.take
  have hm := moves_take s s.initproc np
  set s1 := s.take s.initproc np with hs1
  have hstep : s1.step (.forkStep s1.initproc false) = some ((s1.setState np .unused).setPc s1.initproc .idle) := by
    have hrun : (s1.proc s1.initproc).state = .running := by
      rw [hm.initproc, hm.other _ hnp.symm]
      exact h.run.1
    have hpc : s1.pc s1.initproc = .kalloc np := by
      exact hm.pcSelf
    rw [step, if_pos hrun, forkStep, hpc]
    rfl
  have hm' := moves_setState s1 s1.initproc np .unused
  refine ⟨_, (h.reach.step (a := Event.fork s.initproc) trivial hfork).step (a := Event.forkStep s1.initproc false) trivial hstep,
    ⟨?_, hm'.pcSelf⟩, fun q hq => ?_, congrArg (· + 1) h.forks⟩
  · rw [hm'.initproc, hm'.other _ (by rw [hm.initproc]; exact hnp.symm), hm.initproc, hm.other _ hnp.symm]
    exact h.run.1
  · by_cases hqn : q = np
    · rw [hqn, hm'.self]
    · rw [hm'.other q hqn, hm.other q hqn]
      exact h.unused q hq

theorem alone (n : ℕ) : ∃ s, Alone s n := by
  induction n with
  | zero =>
    refine ⟨_, reach_booted, ⟨rfl, rfl⟩, fun p hp => ?_, rfl⟩
    have hp : p ≠ 0 := hp
    rw [dispatch, setProc_of_ne _ _ hp, start_boot.other p hp]
  | succ n ih =>
    obtain ⟨s, hs⟩ := ih
    exact hs.next

/-- After `2 ^ 31 - 1` calls of `fork` a process has a negative pid: the pid of `init` counts too. -/
theorem ptable_negative_pid :
    ∃ s p, system.Reach (fun _ _ => True) s ∧ s.past.forks < 2 ^ 31 ∧ (s.proc p).state ≠ .unused ∧ (s.proc p).pid.toInt < 0 := by
  obtain ⟨s, hs⟩ := alone (2 ^ 31 - 2)
  obtain ⟨np, hnp, hfork⟩ := hs.take
  have hreach := hs.reach.step (a := Event.fork s.initproc) trivial hfork
  have hm := moves_take s s.initproc np
  have hused : ((s.take s.initproc np).proc np).state ≠ .unused := by
    rw [hm.self]
    exact nofun
  refine ⟨_, np, hreach, ?_, hused, ?_⟩
  · show s.past.forks + 1 < 2 ^ 31
    rw [hs.forks]
    decide
  · rw [(reach_inv hreach).pid np hused, take_born_self, hs.forks]
    decide

end Table

end OsLab.Xv6.Ptable
