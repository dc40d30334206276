import OsLab.Jos.Cpus

/-!
# Messages: `sys_ipc_recv` and `sys_ipc_try_send`

A receiver blocks in `sys_ipc_recv`, a sender's call stores the message in the
receiver's `struct Env` and makes it runnable, and the receiver's call returns
when a processor runs it again.  All of this is spread over calls of different
environments, so what it means that each message arrives once is said about the
history of a slot of the table.

* `Act` is what can happen to a slot, `acts` reads it off a step of the machine,
  and `josIpc` is the machine together with the history of every slot.
* `Phase` is what a slot goes through, one `Phase.next` for each act, and `Fits`
  says what the `struct Env` looks like in each phase.
* `Moved` lists what a step can do to one slot (`TrapEnds.moved`), and `Fits.moved`
  follows it.
* `messages_arrive_once` is the result over whole runs.
* It asks that an environment is not destroyed twice while another processor
  executes it, which the kernel does not check: `message_lost` is a run in which
  the second `sys_env_destroy` costs a later environment its message.
-/

namespace OsLab.Jos

open Exec Function

/-! ## Histories -/

/-- The frame with which a system call returns 0. -/
def Trapframe.returnsZero (tf : Trapframe) : Trapframe :=
  { tf with regs := { tf.regs with eax := 0#32 } }

/-- What happens to a slot, as far as messages are concerned. -/
inductive Act where
  /-- `env_alloc` gives the slot out. -/
  | made
  /-- `sys_ipc_recv`, called with the frame `tf`, blocks the environment. -/
  | blocked (tf : Trapframe)
  /-- `sys_ipc_try_send` of `value` to the environment returns 0 to `sender`. -/
  | sent (sender value : Word)
  /-- A processor begins to run the environment, from the frame `tf`. -/
  | resumed (tf : Trapframe)
  /-- `env_free` takes the slot back. -/
  | gone
  deriving DecidableEq

/-- What a system call of `c` with the frame `tf` means for slot `e`, from the state
`k` it starts in and its outcome. -/
def callActs (tf : Trapframe) (c : ℕ) (k : Kern) (e : ℕ) : Call → Outcome Panic Kern ℤ → List Act
  | .ipcRecv _, .leave _ => if e = c then [.blocked tf] else []
  | .ipcTrySend envid value _ _, .ok r _ =>
    match envid2env envid false k with
    | .ok (.ok rcv) _ => if r = 0 ∧ e = rcv then [.sent (k.envs c).envId value] else []
    | _ => []
  | _, _ => []

/-- What a trap means for slot `e` because of the system call it makes, if any. -/
def trapActs (inp : Inputs) (tf : Trapframe) (k : Kern) (e : ℕ) : List Act :=
  match k.curenv with
  | none => []
  | some c =>
    if tf.trapno.toNat = tSyscall ∧ (k.envs c).envStatus ≠ .dying then
      callActs tf c (k.saveTf c tf) e tf.call (runCall inp tf.call (k.saveTf c tf))
    else []

/-- What the change of a slot from `v` to `v'` means: the rest is seen from
`env_status`. -/
def statusActs (v v' : Env) : List Act :=
  (if v.envStatus = .free ∧ v'.envStatus ≠ .free then [.made] else []) ++
  (if v.envStatus ≠ .free ∧ v'.envStatus = .free then [.gone] else []) ++
  (if v.envStatus ≠ .running ∧ v'.envStatus = .running then [.resumed v'.envTf] else [])

/-- What a step of the machine means for slot `e`. -/
def acts (m : Machine) (a : Event) (m' : Machine) (e : ℕ) : List Act :=
  (match a with
    | .trap i inp tf => trapActs inp tf (m.on i) e
    | _ => []) ++ statusActs (m.kern.envs e) (m'.kern.envs e)

/-- The machine with the history of every slot. -/
def josIpc (cfg : BootConfig) : System (Machine × (ℕ → List Act)) Event := (jos cfg).recording acts

/-- **Every message arrives once**, for a slot with the contents `v` and the history
`l`. -/
structure ArriveOnce (v : Env) (l : List Act) : Prop where
  /-- A `sys_ipc_recv` that ends has been sent exactly one message, and returns 0. -/
  completes : ∀ l₁ tf l₂ tf' l₃, l = l₁ ++ .blocked tf :: (l₂ ++ .resumed tf' :: l₃) →
    .gone ∉ l₂ → (∀ tf'', .resumed tf'' ∉ l₂) →
    (∃ sender value, l₂ = [.sent sender value]) ∧ tf' = tf.returnsZero
  /-- A message is sent to a blocked environment, and the next thing that happens to
  the slot is that its `sys_ipc_recv` returns 0, or that it is destroyed. -/
  used : ∀ l₁ sender value l₂, l = l₁ ++ .sent sender value :: l₂ →
    ∃ l₀ tf, l₁ = l₀ ++ [.blocked tf] ∧
      (l₂ = [] ∨ (∃ l₃, l₂ = .resumed tf.returnsZero :: l₃) ∨ ∃ l₃, l₂ = .gone :: l₃)
  /-- The message stays where the receiver finds it until the next `sys_ipc_recv`. -/
  kept : ∀ l₁ sender value l₂, l = l₁ ++ .sent sender value :: l₂ →
    (∀ x ∈ l₂, ∃ tf, x = .resumed tf) → v.envIpcValue = value ∧ v.envIpcFrom = sender

/-! ## Phases -/

/-- What a slot goes through. -/
inductive Phase where
  /-- The slot is free. -/
  | dead
  /-- Its environment has never run. -/
  | fresh
  /-- It runs and has never received. -/
  | idle
  /-- It is blocked in the `sys_ipc_recv` that it called with the frame `tf`. -/
  | waiting (tf : Trapframe)
  /-- It has been sent a message and not run since. -/
  | delivered (tf : Trapframe) (sender value : Word)
  /-- It runs, and this was the last message it received. -/
  | received (sender value : Word)

namespace Phase

/-- The phase after an act, if the act may happen. -/
def next : Phase → Act → Option Phase
  | .dead, .made => some .fresh
  | .dead, _ => none
  | _, .gone => some .dead
  | .fresh, .resumed _ => some .idle
  | .idle, .resumed _ => some .idle
  | .idle, .blocked tf => some (.waiting tf)
  | .waiting tf, .sent s w => some (.delivered tf s w)
  | .delivered tf s w, .resumed tf' => if tf' = tf.returnsZero then some (.received s w) else none
  | .received s w, .resumed _ => some (.received s w)
  | .received _ _, .blocked tf => some (.waiting tf)
  | _, _ => none

/-- The phase after a history, if the history may happen. -/
def run (φ : Phase) (l : List Act) : Option Phase := l.foldlM next φ

variable {φ ψ : Phase} {l l₁ l₂ : List Act} {x : Act} {tf : Trapframe} {s w : Word}

theorem run_cons : φ.run (x :: l) = (φ.next x).bind fun ψ => ψ.run l := rfl

theorem run_append : φ.run (l₁ ++ l₂) = (φ.run l₁).bind fun ψ => ψ.run l₂ := List.foldlM_append ..

theorem run_cons_some : φ.run (x :: l) = some ψ ↔ ∃ χ, φ.next x = some χ ∧ χ.run l = some ψ := by
  rw [run_cons, Option.bind_eq_some_iff]

theorem run_append_some :
    φ.run (l₁ ++ l₂) = some ψ ↔ ∃ χ, φ.run l₁ = some χ ∧ χ.run l₂ = some ψ := by
  rw [run_append, Option.bind_eq_some_iff]

theorem next_made (h : φ.next .made = some ψ) : ψ = .fresh := by
  cases φ <;> cases h
  rfl

/-- A message is sent to a blocked environment. -/
theorem next_sent (h : φ.next (.sent s w) = some ψ) :
    ∃ tf, φ = .waiting tf ∧ ψ = .delivered tf s w := by
  cases φ <;> cases h
  exact ⟨_, rfl, rfl⟩

theorem next_blocked (h : φ.next (.blocked tf) = some ψ) : ψ = .waiting tf := by
  cases φ <;> cases h <;> rfl

theorem waiting_next (h : (waiting tf).next x = some ψ) :
    x = .gone ∨ ∃ s w, x = .sent s w ∧ ψ = .delivered tf s w := by
  cases x <;> cases h
  · exact Or.inr ⟨_, _, rfl, rfl⟩
  · exact Or.inl rfl

theorem delivered_next (h : (delivered tf s w).next x = some ψ) :
    x = .gone ∨ x = .resumed tf.returnsZero ∧ ψ = .received s w := by
  cases x with
  | gone => exact Or.inl rfl
  | resumed tf' =>
    obtain ⟨rfl, hψ⟩ := Option.ite_none_right_eq_some.1 h
    exact Or.inr ⟨rfl, (Option.some.inj hψ).symm⟩
  | made | blocked | sent => cases h

/-- The act that leads to a blocked environment. -/
theorem next_waiting (h : φ.next x = some (.waiting tf)) : x = .blocked tf := by
  cases φ with
  | delivered tf' s w =>
    rcases delivered_next h with rfl | ⟨-, hr⟩
    · cases h
    · cases hr
  | dead | fresh | idle | waiting | received => cases x <;> cases h <;> rfl

/-- The last act of a history that ends with a blocked environment. -/
theorem run_waiting (h : dead.run l = some (.waiting tf)) : ∃ l0, l = l0 ++ [.blocked tf] := by
  rcases List.eq_nil_or_concat' l with rfl | ⟨l0, x, rfl⟩
  · cases h
  · obtain ⟨χ, -, hlast⟩ := run_append_some.1 h
    obtain ⟨χ', hx, hn⟩ := run_cons_some.1 hlast
    obtain rfl : χ' = .waiting tf := Option.some.inj hn
    exact ⟨l0, by rw [next_waiting hx]⟩

/-- A slot that was just given out. -/
theorem run_made (h : dead.run l = some φ) (hl : l.getLast? = some .made) : φ = .fresh := by
  rcases List.eq_nil_or_concat' l with rfl | ⟨l0, x, rfl⟩
  · cases hl
  · obtain rfl : x = .made := by simpa using hl
    obtain ⟨χ, -, hlast⟩ := run_append_some.1 h
    obtain ⟨χ', hx, hn⟩ := run_cons_some.1 hlast
    rw [← Option.some.inj hn]
    exact next_made hx

/-- While the receiver runs, the last message is the last message. -/
theorem run_resumed (h : (received s w).run l = some φ) (hl : ∀ x ∈ l, ∃ tf, x = .resumed tf) :
    φ = .received s w := by
  induction l with
  | nil => exact (Option.some.inj h).symm
  | cons x l ih =>
    obtain ⟨tf, rfl⟩ := hl x (List.mem_cons_self ..)
    exact ih h fun y hy => hl y (List.mem_cons_of_mem _ hy)

end Phase

/-! ## What the slot looks like -/

/-- The environment has run and has not blocked or been freed since. -/
def Env.Awake (v : Env) : Prop :=
  v.envStatus = .runnable ∨ v.envStatus = .running ∨ v.envStatus = .dying

/-- The `struct Env` in each phase. -/
def Fits (v : Env) : Phase → Prop
  | .dead => v.envStatus = .free
  | .fresh => v.envIpcRecving = false ∧ (v.envStatus = .runnable ∨ v.envStatus = .notRunnable)
  | .idle => v.envIpcRecving = false ∧ v.Awake
  | .waiting tf => v.envIpcRecving = true ∧ v.envStatus = .notRunnable ∧ v.envTf = tf
  | .delivered tf s w => v.envIpcRecving = false ∧ v.envStatus = .runnable ∧
      v.envTf = tf.returnsZero ∧ v.envIpcFrom = s ∧ v.envIpcValue = w
  | .received s w => v.envIpcRecving = false ∧ v.Awake ∧ v.envIpcFrom = s ∧ v.envIpcValue = w

/-- A history that may happen, and a slot that looks like its end. -/
def Tracked (v : Env) (l : List Act) : Prop := ∃ φ, Phase.dead.run l = some φ ∧ Fits v φ

variable {l : List Act} {v v' : Env}

/-- **A tracked slot loses no message and receives none twice.** -/
theorem Tracked.arriveOnce (h : Tracked v l) : ArriveOnce v l := by
  obtain ⟨φ, hrun, hfits⟩ := h
  refine ⟨?_, ?_, ?_⟩
  · rintro l₁ tf l₂ tf' l3 rfl hgone hres
    obtain ⟨χ, -, h1⟩ := Phase.run_append_some.1 hrun
    obtain ⟨χ1, hb, h2⟩ := Phase.run_cons_some.1 h1
    obtain rfl := Phase.next_blocked hb
    cases l₂ with
    | nil =>
      obtain ⟨χ2, hx, -⟩ := Phase.run_cons_some.1 h2
      cases hx
    | cons x l₂ =>
      obtain ⟨χ2, hx, h3⟩ := Phase.run_cons_some.1 h2
      obtain rfl | ⟨s, w, rfl, rfl⟩ := Phase.waiting_next hx
      · exact absurd (List.mem_cons_self ..) hgone
      -- after the message, the slot can only be resumed or freed
      cases l₂ with
      | nil =>
        obtain ⟨χ3, hy, -⟩ := Phase.run_cons_some.1 h3
        rcases Phase.delivered_next hy with h | ⟨h, -⟩
        · cases h
        · cases h
          exact ⟨⟨s, w, rfl⟩, rfl⟩
      | cons y l₂ =>
        obtain ⟨χ3, hy, -⟩ := Phase.run_cons_some.1 h3
        rcases Phase.delivered_next hy with rfl | ⟨rfl, -⟩
        · exact absurd (List.mem_cons_of_mem _ (List.mem_cons_self ..)) hgone
        · exact absurd (List.mem_cons_of_mem _ (List.mem_cons_self ..)) (hres _)
  · rintro l₁ s w l₂ rfl
    obtain ⟨χ, h1, h2⟩ := Phase.run_append_some.1 hrun
    obtain ⟨χ1, hs, h3⟩ := Phase.run_cons_some.1 h2
    obtain ⟨tf, rfl, rfl⟩ := Phase.next_sent hs
    obtain ⟨l0, rfl⟩ := Phase.run_waiting h1
    refine ⟨l0, tf, rfl, ?_⟩
    cases l₂ with
    | nil => exact Or.inl rfl
    | cons y l₂ =>
      obtain ⟨χ2, hy, -⟩ := Phase.run_cons_some.1 h3
      rcases Phase.delivered_next hy with rfl | ⟨rfl, -⟩
      · exact Or.inr (Or.inr ⟨l₂, rfl⟩)
      · exact Or.inr (Or.inl ⟨l₂, rfl⟩)
  · rintro l₁ s w l₂ rfl hl2
    obtain ⟨χ, -, h2⟩ := Phase.run_append_some.1 hrun
    obtain ⟨χ1, hs, h3⟩ := Phase.run_cons_some.1 h2
    obtain ⟨tf, -, rfl⟩ := Phase.next_sent hs
    cases l₂ with
    | nil =>
      obtain rfl : .delivered tf s w = φ := Option.some.inj h3
      exact ⟨hfits.2.2.2.2, hfits.2.2.2.1⟩
    | cons y l₂ =>
      obtain ⟨χ2, hy, h4⟩ := Phase.run_cons_some.1 h3
      obtain ⟨tf', rfl⟩ := hl2 y (List.mem_cons_self ..)
      rcases Phase.delivered_next hy with h | ⟨-, rfl⟩
      · cases h
      · obtain rfl := Phase.run_resumed h4 fun x hx => hl2 x (List.mem_cons_of_mem _ hx)
        exact ⟨hfits.2.2.2, hfits.2.2.1⟩

/-! ## What a step does to one slot -/

/-- The message fields are the same. -/
structure SameMsg (v v' : Env) : Prop where
  recving : v'.envIpcRecving = v.envIpcRecving
  sender : v'.envIpcFrom = v.envIpcFrom
  value : v'.envIpcValue = v.envIpcValue

theorem SameMsg.refl (v : Env) : SameMsg v v := ⟨rfl, rfl, rfl⟩

theorem SameMsg.trans {v'' : Env} (h : SameMsg v v') (h' : SameMsg v' v'') : SameMsg v v'' :=
  ⟨h'.1.trans h.1, h'.2.trans h.2, h'.3.trans h.3⟩

/-- What a step of the machine can do to a slot.  The list says what its system call
means for the slot; `fresh` is the condition under which the status of the slot may
be set. -/
inductive Moved (fresh : Prop) (v : Env) : List Act → Env → Prop
  | kept {v' : Env} (hst : v'.envStatus = v.envStatus) (hmsg : SameMsg v v')
      (htf : v.envStatus ≠ .running → v'.envTf = v.envTf) : Moved fresh v [] v'
  | yielded {v' : Env} (hst : v.envStatus = .running) (hst' : v'.envStatus = .runnable)
      (hmsg : SameMsg v v') : Moved fresh v [] v'
  | resumed {v' : Env} (hst : v.envStatus = .runnable) (hst' : v'.envStatus = .running)
      (hmsg : SameMsg v v') (htf : v'.envTf = v.envTf) : Moved fresh v [] v'
  | condemned {v' : Env} (hst : v.envStatus = .running) (hst' : v'.envStatus = .dying)
      (hmsg : SameMsg v v') : Moved fresh v [] v'
  | freed {v' : Env} (hst : v.envStatus ≠ .free) (hst' : v'.envStatus = .free) : Moved fresh v [] v'
  | made {v' : Env} (hst : v.envStatus = .free)
      (hst' : v'.envStatus = .runnable ∨ v'.envStatus = .notRunnable)
      (hrec : v'.envIpcRecving = false) : Moved fresh v [] v'
  | set {v' : Env} (hf : fresh) (hst' : v'.envStatus = .runnable ∨ v'.envStatus = .notRunnable)
      (hmsg : SameMsg v v') : Moved fresh v [] v'
  | blocked {v' : Env} (hst : v.envStatus = .running) (hst' : v'.envStatus = .notRunnable)
      (hrec : v'.envIpcRecving = true) : Moved fresh v [.blocked v'.envTf] v'
  | sent {v' : Env} (hst : v.envStatus = .notRunnable) (hrec : v.envIpcRecving = true)
      (hst' : v'.envStatus = .runnable) (hrec' : v'.envIpcRecving = false)
      (htf : v'.envTf = v.envTf.returnsZero) : Moved fresh v [.sent v'.envIpcFrom v'.envIpcValue] v'

/-- **What a step does to a slot takes it to the next phase.** -/
theorem Fits.moved {fresh : Prop} {φ : Phase} (h : Fits v φ)
    (hm : Moved fresh v l v') (hf : fresh → φ = .fresh) :
    ∃ ψ, φ.run (l ++ statusActs v v') = some ψ ∧ Fits v' ψ := by
  cases hm with
  | kept hst hmsg htf =>
    have hacts : statusActs v v' = [] := by
      unfold statusActs
      rw [hst]
      simp
    refine ⟨φ, by rw [hacts]; rfl, ?_⟩
    cases φ <;> simp_all [Fits, Env.Awake, hmsg.1, hmsg.2, hmsg.3]
  | yielded hst hst' hmsg =>
    have hacts : statusActs v v' = [] := by simp [statusActs, hst, hst']
    refine ⟨φ, by rw [hacts]; rfl, ?_⟩
    cases φ <;> simp_all [Fits, Env.Awake, hmsg.1, hmsg.2, hmsg.3]
  | resumed hst hst' hmsg htf =>
    have hacts : statusActs v v' = [.resumed v'.envTf] := by simp [statusActs, hst, hst']
    cases φ <;>
      simp_all [Fits, Env.Awake, hmsg.1, hmsg.2, hmsg.3, Phase.run, Phase.next]
  | condemned hst hst' hmsg =>
    have hacts : statusActs v v' = [] := by simp [statusActs, hst, hst']
    refine ⟨φ, by rw [hacts]; rfl, ?_⟩
    cases φ <;> simp_all [Fits, Env.Awake, hmsg.1, hmsg.2, hmsg.3]
  | freed hst hst' =>
    have hacts : statusActs v v' = [.gone] := by simp [statusActs, hst, hst']
    refine ⟨.dead, ?_, hst'⟩
    rw [hacts]
    cases φ with
    | dead => exact absurd h hst
    | _ => rfl
  | made hst hst' hrec =>
    have hacts : statusActs v v' = [.made] := by
      rcases hst' with h' | h' <;> simp [statusActs, hst, h']
    refine ⟨.fresh, ?_, hrec, hst'⟩
    cases φ <;> simp_all [Fits, Env.Awake, Phase.run, Phase.next]
  | set hfr hst' hmsg =>
    obtain rfl := hf hfr
    have hacts : statusActs v v' = [] := by
      rcases h.2 with h1 | h1 <;> rcases hst' with h2 | h2 <;> simp [statusActs, h1, h2]
    exact ⟨.fresh, by rw [hacts]; rfl, hmsg.1.trans h.1, hst'⟩
  | blocked hst hst' hrec =>
    have hacts : statusActs v v' = [] := by simp [statusActs, hst, hst']
    refine ⟨.waiting v'.envTf, ?_, hrec, hst', rfl⟩
    cases φ <;> simp_all [Fits, Env.Awake, Phase.run, Phase.next]
  | sent hst hrec hst' hrec' htf =>
    have hacts : statusActs v v' = [] := by simp [statusActs, hst, hst']
    cases φ <;> simp_all [Fits, Env.Awake, Phase.run, Phase.next]

/-! ## Steps of the kernel -/

/-- A turn of the scheduler: an environment may stop or start to run. -/
structure Turned (v v' : Env) : Prop where
  msg : SameMsg v v'
  tf : v'.envTf = v.envTf
  status : v'.envStatus = v.envStatus ∨ v.envStatus = .running ∧ v'.envStatus = .runnable ∨
    v.envStatus = .runnable ∧ v'.envStatus = .running

variable {k k' k₁ k₂ : Kern} {c e : ℕ} {fresh busy : ℕ → Prop} {D : ℕ → Option ℕ} {v v₁ v' : Env} {inp : Inputs}

theorem Turned.refl (v : Env) : Turned v v := ⟨.refl v, rfl, Or.inl rfl⟩

theorem Leaves.turned (h : Leaves k k') (e : ℕ) : Turned (k.envs e) (k'.envs e) := by
  cases h with
  | halt => exact .refl _
  | run j hj =>
    by_cases hej : e = j
    · subst hej
      rw [ran_envs_self]
      have hst : (k.envs e).envStatus = .runnable ∨ (k.envs e).envStatus = .running :=
        hj.imp_right fun h => h.2
      exact ⟨⟨rfl, rfl, rfl⟩, rfl,
        hst.elim (fun h => Or.inr (Or.inr ⟨h, rfl⟩)) fun h => Or.inl h.symm⟩
    · rw [ran_envs_of_ne _ hej, descheduled_envs]
      split
      · rename_i h
        exact ⟨⟨rfl, rfl, rfl⟩, rfl, Or.inr (Or.inl ⟨h.2, rfl⟩)⟩
      · exact .refl _

/-- A turn of the scheduler, after changes that messages do not see. -/
theorem Turned.moved {fresh : Prop} (h : Turned v₁ v') (hst : v₁.envStatus = v.envStatus)
    (hmsg : SameMsg v v₁) (htf : v.envStatus ≠ .running → v₁.envTf = v.envTf) :
    Moved fresh v [] v' := by
  have hmsg' := hmsg.trans h.msg
  rcases h.status with h1 | ⟨h1, h2⟩ | ⟨h1, h2⟩
  · exact .kept (h1.trans hst) hmsg' fun hne => h.tf.trans (htf hne)
  · exact .yielded (hst ▸ h1) h2 hmsg'
  · have hne : v.envStatus ≠ .running := by
      rw [← hst, h1]
      nofun
    exact .resumed (hst ▸ h1) h2 hmsg' (h.tf.trans (htf hne))

/-- A slot whose frame may have been saved. -/
theorem saveTf_slot (hrun : (k.envs c).envStatus = .running) (tf : Trapframe) (e : ℕ) :
    ((k.saveTf c tf).envs e).envStatus = (k.envs e).envStatus ∧
      SameMsg (k.envs e) ((k.saveTf c tf).envs e) ∧
      ((k.envs e).envStatus ≠ .running → ((k.saveTf c tf).envs e).envTf = (k.envs e).envTf) := by
  by_cases hec : e = c
  · subst hec
    rw [Kern.saveTf, setEnv_envs_self]
    exact ⟨rfl, ⟨rfl, rfl, rfl⟩, fun h => absurd hrun h⟩
  · rw [Kern.saveTf, setEnv_envs_of_ne _ hec]
    exact ⟨rfl, .refl _, fun _ => rfl⟩

/-- The current environment is freed. -/
theorem Killed.moved {fresh : Prop} (h : Killed k₁ c k') (hne : e = c → v.envStatus ≠ .free)
    (hst : (k₁.envs e).envStatus = v.envStatus) (hmsg : SameMsg v (k₁.envs e))
    (htf : v.envStatus ≠ .running → (k₁.envs e).envTf = v.envTf) : Moved fresh v [] (k'.envs e) := by
  obtain ⟨-, k₂, ⟨p, rfl⟩, hl⟩ := h
  have ht := hl.turned e
  by_cases hec : e = c
  · subst hec
    have hfree : ((freedEnv k₁ e).envs e).envStatus = .free := by rw [freedEnv_envs_self]
    refine .freed (hne rfl) ?_
    rcases ht.status with h | ⟨h, -⟩ | ⟨h, -⟩
    · exact h.trans hfree
    all_goals
      rw [hfree] at h
      cases h
  · rw [freedEnv_envs_of_ne k₁ hec] at ht
    exact ht.moved hst hmsg htf

/-- What a call relies on and does not check: `sys_env_set_status` is applied to a
fresh environment only, and `sys_env_destroy` not to one that another processor
executes and that is dying already. -/
def Call.IpcOk (fresh busy : ℕ → Prop) (k : Kern) : Call → Prop
  | .envSetStatus envid _ => ∀ e, Names k envid true e → fresh e
  | .envDestroy envid => ∀ e, Names k envid true e → busy e → (k.envs e).envStatus ≠ .dying
  | _ => True

section Calls

variable {call : Call} {r : ℤ} {tf : Trapframe}

theorem callActs_refused (hr : r ≠ 0) : callActs tf c k e call (.ok r k₂) = [] := by
  cases call with
  | ipcTrySend envid value srcva perm =>
    simp only [callActs, hr, false_and, if_false]
    split <;> rfl
  | _ => rfl

theorem callActs_quiet {out : Outcome Panic Kern ℤ} (hq : call.IsQuiet) :
    callActs tf c k e call out = [] := by
  cases call <;> first | rfl | exact hq.elim

theorem callActs_sent {envid value srcva perm : Word} {rcv : ℕ} (hn : Names k envid false rcv) :
    callActs tf c k e (.ipcTrySend envid value srcva perm) (.ok 0 k₂) =
      if e = rcv then [.sent (k.envs c).envId value] else [] := by
  simp only [callActs, envid2env_of_names hn, true_and]

section

variable (h : CallDone k call r k₂) (tf) (hg : Guarded busy D k) (hok : call.IpcOk fresh busy k) (hc : k.curenv = some c)

include h hg hok hc

/-- The slots other than that of the caller, after a call that returns. -/
theorem CallDone.other (hec : e ≠ c) :
    Moved (fresh e) (k.envs e) (callActs tf c k e call (.ok r k₂)) (k₂.envs e) := by
  have hsame : ∀ {k₂ : Kern}, k₂.envs e = k.envs e → Moved (fresh e) (k.envs e) [] (k₂.envs e) :=
    fun h => by
      rw [h]
      exact .kept rfl (.refl _) fun _ => rfl
  cases h with
  | refused hr hk =>
    obtain ⟨p, rfl⟩ := hk
    rw [callActs_refused hr]
    exact hsame rfl
  | quiet hq hk =>
    obtain ⟨p, rfl⟩ := hk
    rw [callActs_quiet hq]
    exact hsame rfl
  | @destroyed envid e' _ hn hk =>
    by_cases hee : e = e'
    · subst hee
      cases hk with
      | dying hst _ =>
        refine .condemned hst ?_ ?_ <;> rw [setEnv_envs_self]
        exact ⟨rfl, rfl, rfl⟩
      | freed _ _ hk =>
        obtain ⟨p, rfl⟩ := hk
        refine .freed (hg.names_ne_free hn) ?_
        rw [freedEnv_envs_self]
    · cases hk with
      | dying => exact hsame (setEnv_envs_of_ne _ hee)
      | freed _ _ hk =>
        obtain ⟨p, rfl⟩ := hk
        exact hsame (freedEnv_envs_of_ne k hee)
  | @forked c e' d p r _ he =>
    by_cases hee : e = e'
    · subst hee
      have hfree : (k.envs e).envStatus = .free := hg.head_free he
      refine .made hfree (Or.inr ?_) ?_ <;> simp [Jos.forked, setEnv_envs_self, afterAlloc]
    · refine hsame ?_
      show (update (update k.envs e' _) e' _) e = _
      rw [update_of_ne hee, update_of_ne hee]
  | @status envid status st e' hst hn =>
    by_cases hee : e = e'
    · subst hee
      refine .set (hok e hn) ?_ ?_ <;> rw [setEnv_envs_self]
      · exact (statusArg_ne_free hst).2.symm
      · exact ⟨rfl, rfl, rfl⟩
    · exact hsame (setEnv_envs_of_ne _ hee)
  | @upcall envid func e' hn =>
    by_cases hee : e = e'
    · subst hee
      refine .kept ?_ ?_ fun _ => ?_ <;> rw [setEnv_envs_self]
      exact ⟨rfl, rfl, rfl⟩
    · exact hsame (setEnv_envs_of_ne _ hee)
  | @sent envid value srcva perm rcv c' k₁ hn hc' hrec hk =>
    obtain rfl : c = c' := Option.mem_unique hc hc'
    rw [callActs_sent hn]
    by_cases hee : e = rcv
    · subst hee
      have hst := (hg.recving e hrec).resolve_right (hg.names_ne_free hn)
      obtain ⟨q, hself⟩ := hk.self
      have hcaller : (k₁.envs c).envId = (k.envs c).envId := by rw [hk.other hec.symm]
      have hv' : (delivered k₁ e c value).envs e = { k.envs e with
          envIpcPerm := q, envIpcRecving := false, envIpcFrom := (k.envs c).envId
          envIpcValue := value, envStatus := .runnable, envTf := (k.envs e).envTf.returnsZero } := by
        rw [delivered, setEnv_envs_self, hself, hcaller]
        rfl
      have hmoved : Moved (fresh e) (k.envs e) [.sent ((delivered k₁ e c value).envs e).envIpcFrom
          ((delivered k₁ e c value).envs e).envIpcValue] ((delivered k₁ e c value).envs e) :=
        .sent hst hrec (by rw [hv']) (by rw [hv']) (by rw [hv'])
      rw [if_pos rfl]
      rw [hv'] at hmoved ⊢
      exact hmoved
    · rw [if_neg hee]
      refine hsame ?_
      rw [delivered, setEnv_envs_of_ne _ hee, hk.other hee]

/-- The slot of the caller, after a call that returns. -/
theorem CallDone.self (hrun : (k.envs c).envStatus = .running)
    (hfresh : ¬ fresh c) : (k₂.envs c).envStatus = .running ∧ SameMsg (k.envs c) (k₂.envs c) ∧
      callActs tf c k c call (.ok r k₂) = [] := by
  have hsame : ∀ {k₂ : Kern}, k₂.envs c = k.envs c →
      (k₂.envs c).envStatus = .running ∧ SameMsg (k.envs c) (k₂.envs c) := fun h => by
    rw [h]
    exact ⟨hrun, .refl _⟩
  rw [← and_assoc]
  cases h with
  | refused hr hk =>
    obtain ⟨p, rfl⟩ := hk
    exact ⟨hsame rfl, callActs_refused hr⟩
  | quiet hq hk =>
    obtain ⟨p, rfl⟩ := hk
    exact ⟨hsame rfl, callActs_quiet hq⟩
  | @destroyed envid e _ hn hk =>
    refine ⟨hsame ?_, rfl⟩
    cases hk with
    | dying _ hne => exact setEnv_envs_of_ne _ fun h => hne (h ▸ hc)
    | freed _ hne hk =>
      obtain ⟨p, rfl⟩ := hk
      exact freedEnv_envs_of_ne k fun h => hne (h ▸ hc)
  | @forked c' e d p r _ he =>
    have hce : c ≠ e := fun h => by
      rw [h, hg.head_free he] at hrun
      cases hrun
    refine ⟨hsame ?_, rfl⟩
    show (update (update k.envs e _) e _) c = _
    rw [update_of_ne hce, update_of_ne hce]
  | @status envid status st e hst hn =>
    exact ⟨hsame (setEnv_envs_of_ne _ fun h => hfresh (h ▸ hok e hn)), rfl⟩
  | @upcall envid func e hn =>
    refine ⟨?_, rfl⟩
    by_cases hce : c = e
    · subst hce
      rw [setEnv_envs_self]
      exact ⟨hrun, rfl, rfl, rfl⟩
    · exact hsame (setEnv_envs_of_ne _ hce)
  | @sent envid value srcva perm rcv c' k₁ hn hc' hrec hk =>
    have hcr : c ≠ rcv := fun h => by
      rcases hg.recving rcv hrec with h1 | h1 <;> rw [← h, hrun] at h1 <;> cases h1
    rw [callActs_sent hn, if_neg hcr]
    exact ⟨hsame (by rw [delivered, setEnv_envs_of_ne _ hcr, hk.other hcr]), rfl⟩

end

theorem Call.IpcOk.saveTf (h : call.IpcOk fresh busy k) : call.IpcOk fresh busy (k.saveTf c tf) := by
  cases call with
  | envSetStatus envid status => exact fun e hn => h e (names_saveTf.1 hn)
  | envDestroy envid =>
    intro e hn
    rw [saveTf_envs]
    exact h e (names_saveTf.1 hn)
  | _ => trivial

/-- The caller goes on after its call. -/
theorem ran_withRet_other (r : ℤ) (hc : k₂.curenv = some c) (hec : e ≠ c) :
    (ran (k₂.setEnv c fun v => v.withRet r) c).envs e = k₂.envs e := by
  have hcur : (k₂.setEnv c fun v => v.withRet r).curenv = some c := hc
  rw [ran_envs_of_ne _ hec, descheduled_envs, if_neg, setEnv_envs_of_ne _ hec]
  rintro ⟨h, -⟩
  exact hec (Option.mem_unique hcur h).symm

/-- **A system call that returns**, followed to the end of the trap. -/
theorem Returns.moved (hcall : CallDone (k.saveTf c tf) call r k₂)
    (hret : Returns (k₂.setEnv c fun v => v.withRet r) k') (hg : Guarded busy D k)
    (hok : call.IpcOk fresh busy k) (hc : k.curenv = some c) (hrun : (k.envs c).envStatus = .running)
    (hfresh : ¬ fresh c) (e : ℕ) : Moved (fresh e) (k.envs e)
      (callActs tf c (k.saveTf c tf) e call (.ok r k₂)) (k'.envs e) := by
  have hg1 := hg.saveTf hc tf
  obtain ⟨hst1, hmsg1, -⟩ := saveTf_slot hrun tf c
  have hc1 : (k.saveTf c tf).curenv = some c := hc
  have hc2 : k₂.curenv = some c := hcall.curenv.trans hc
  obtain ⟨hst2, hmsg2, hacts⟩ := hcall.self tf hg1 hok.saveTf hc1 (hst1.trans hrun) hfresh
  -- the caller is still running, so it is the one to go on
  obtain rfl : k' = ran (k₂.setEnv c fun v => v.withRet r) c := by
    refine hret.2 c hc2 ?_
    rw [setEnv_envs_self]
    exact hst2
  by_cases hec : e = c
  · subst hec
    rw [hacts, ran_envs_self, setEnv_envs_self]
    have hmsg := hmsg1.trans hmsg2
    exact .kept hrun.symm ⟨hmsg.1, hmsg.2, hmsg.3⟩ fun h => absurd hrun h
  · rw [ran_withRet_other r hc2 hec]
    have hother := hcall.other tf hg1 hok.saveTf hc1 hec
    rwa [Kern.saveTf, setEnv_envs_of_ne _ hec] at hother

/-- **A system call that does not return.** -/
theorem CallLeft.moved (hcall : CallLeft (k.saveTf c tf) call k') (hg : Guarded busy D k)
    (hc : k.curenv = some c) (hrun : (k.envs c).envStatus = .running) (e : ℕ) :
    Moved (fresh e) (k.envs e) (callActs tf c (k.saveTf c tf) e call (.leave k')) (k'.envs e) := by
  obtain ⟨hst, hmsg, htf⟩ := saveTf_slot hrun tf e
  have hne : ∀ c', (k.saveTf c tf).curenv = some c' → e = c' → (k.envs e).envStatus ≠ .free := by
    rintro c' hc' rfl
    exact (hg.current e hc').2
  cases hcall with
  | yield hk => exact (hk.turned e).moved hst hmsg htf
  | killed _ hk => exact hk.moved (hne _ hk.1) hst hmsg htf
  | faulted h1 hk =>
    obtain ⟨p, rfl⟩ := h1
    exact hk.moved (hne _ hk.1) hst hmsg htf
  | @recv dstva c' _ hc' _ hk =>
    obtain rfl : c = c' := Option.mem_unique hc hc'
    have ht := hk.turned e
    by_cases hec : e = c
    · subst hec
      have hv : (receiving (k.saveTf e tf) e dstva).envs e = { k.envs e with
          envTf := tf, envIpcRecving := true, envStatus := .notRunnable, envIpcDstva := dstva } := by
        rw [receiving, setEnv_envs_self, Kern.saveTf, setEnv_envs_self]
      rw [hv] at ht
      have hst' : (k'.envs e).envStatus = .notRunnable := by
        rcases ht.status with h | ⟨h, -⟩ | ⟨h, -⟩
        · exact h
        · cases h
        · cases h
      have hacts : callActs tf e (k.saveTf e tf) e (.ipcRecv dstva) (.leave k') = [.blocked tf] :=
        if_pos rfl
      have htf' : (k'.envs e).envTf = tf := ht.tf
      rw [hacts, ← htf']
      exact .blocked hrun hst' ht.msg.recving
    · have hacts : callActs tf c (k.saveTf c tf) e (.ipcRecv dstva) (.leave k') = [] := if_neg hec
      rw [receiving, setEnv_envs_of_ne _ hec] at ht
      rw [hacts]
      exact ht.moved hst hmsg htf

end Calls

/-- A processor without a current environment changes nothing by a system call. -/
theorem CallDone.idle {call : Call} {r : ℤ} (h : CallDone k call r k₂) (hc : k.curenv = none) (e : ℕ) :
    k₂.envs e = k.envs e := by
  have hnames : ∀ {envid : Word} {e : ℕ}, ¬ Names k envid true e := by
    rintro envid e (⟨-, h⟩ | ⟨-, -, -, -, h⟩)
    · rw [hc] at h
      cases h
    · rcases h rfl with h | ⟨c, h, -⟩ <;> rw [hc] at h <;> cases h
  cases h with
  | refused _ hk => obtain ⟨p, rfl⟩ := hk; rfl
  | quiet _ hk => obtain ⟨p, rfl⟩ := hk; rfl
  | destroyed hn _ => exact (hnames hn).elim
  | forked h _ =>
    rw [hc] at h
    cases h
  | status _ hn | upcall hn => exact (hnames hn).elim
  | sent _ h _ _ =>
    rw [hc] at h
    cases h

section TrapActs

variable {inp : Inputs} {tf : Trapframe}

theorem trapActs_syscall (hc : k.curenv = some c) (hst : (k.envs c).envStatus ≠ .dying)
    (hsys : tf.trapno.toNat = tSyscall) : trapActs inp tf k e =
      callActs tf c (k.saveTf c tf) e tf.call (runCall inp tf.call (k.saveTf c tf)) := by
  unfold trapActs
  rw [hc]
  exact if_pos ⟨hsys, hst⟩

theorem trapActs_other (hno : tf.trapno.toNat ≠ tSyscall) : trapActs inp tf k e = [] := by
  unfold trapActs
  split
  · rfl
  · exact if_neg fun h => hno h.1

theorem trapActs_none (hc : k.curenv = none) : trapActs inp tf k e = [] := by
  unfold trapActs
  rw [hc]

theorem trapActs_dying (hc : k.curenv = some c) (hst : (k.envs c).envStatus = .dying) :
    trapActs inp tf k e = [] := by
  unfold trapActs
  rw [hc]
  exact if_neg fun h => h.2 hst

end TrapActs

/-- **What a trap does to a slot.** -/
theorem TrapEnds.moved {tf : Trapframe} (h : TrapEnds inp tf k k')
    (hg : Guarded busy D k) (hrun : ∀ c, k.curenv = some c →
      (k.envs c).envStatus = .running ∨ (k.envs c).envStatus = .dying)
    (hidle : ¬ tf.FromUser → k.curenv = none)
    (hfresh : ∀ e, fresh e → (k.envs e).envStatus ≠ .running)
    (hok : tf.trapno.toNat = tSyscall → tf.call.IpcOk fresh busy k) (e : ℕ) :
    Moved (fresh e) (k.envs e) (trapActs inp tf k e) (k'.envs e) := by
  have hne : ∀ c, k.curenv = some c → e = c → (k.envs e).envStatus ≠ .free := by
    rintro c hc rfl
    exact (hg.current e hc).2
  cases h with
  | @zombie c _ hu hst hk =>
    rw [trapActs_dying hk.1 hst]
    exact hk.moved (hne c hk.1) rfl (.refl _) fun _ => rfl
  | @returned c r k₂ _ hu hc hst hsys hcall' hcall hk =>
    have hr := (hrun c hc).resolve_right hst
    rw [trapActs_syscall hc hst hsys, hcall']
    exact Returns.moved hcall hk hg (hok hsys) hc hr (fun hf => hfresh c hf hr) e
  | @left c _ hu hc hst hsys hcall' hcall =>
    rw [trapActs_syscall hc hst hsys, hcall']
    exact hcall.moved hg hc ((hrun c hc).resolve_right hst) e
  | @upcall c tf' k₂ hu hc hst hno hk =>
    have hr := (hrun c hc).resolve_right hst
    obtain ⟨hst1, hmsg1, htf1⟩ := saveTf_slot hr tf' e
    obtain ⟨p, rfl⟩ := hk
    rw [trapActs_other hno]
    have hleaves : Leaves { k.saveTf c tf' with pm := p } (ran { k.saveTf c tf' with pm := p } c) := by
      refine .run c (Or.inr ⟨hc, ?_⟩)
      rw [saveTf_envs]
      exact hr
    exact (hleaves.turned e).moved hst1 hmsg1 htf1
  | @killed c k₁ _ hu hst hno h1 hk =>
    obtain ⟨p, rfl⟩ := h1
    have hc : k.curenv = some c := hk.1
    obtain ⟨hst1, hmsg1, htf1⟩ := saveTf_slot ((hrun c hc).resolve_right hst) tf e
    rw [trapActs_other hno]
    exact hk.moved (hne c hc) hst1 hmsg1 htf1
  | @plain c _ hu hc hst hno hk =>
    obtain ⟨hst1, hmsg1, htf1⟩ := saveTf_slot ((hrun c hc).resolve_right hst) tf e
    rw [trapActs_other hno]
    exact (hk.turned e).moved hst1 hmsg1 htf1
  | @idleReturned r k₂ _ hu hsys hcall hk =>
    have ht := hk.turned e
    rw [hcall.idle (hidle hu)] at ht
    rw [trapActs_none (hidle hu)]
    exact ht.moved rfl (.refl _) fun _ => rfl
  | @idleLeft _ hu hsys hcall =>
    rw [trapActs_none (hidle hu)]
    generalize tf.call = call at hcall
    cases hcall with
    | yield hk => exact (hk.turned e).moved rfl (.refl _) fun _ => rfl
    | killed _ hk => exact hk.moved (hne _ hk.1) rfl (.refl _) fun _ => rfl
    | faulted h1 hk =>
      obtain ⟨p, rfl⟩ := h1
      exact hk.moved (hne _ hk.1) rfl (.refl _) fun _ => rfl
    | recv hc _ _ =>
      rw [hidle hu] at hc
      cases hc
  | idle hu hno hk =>
    rw [trapActs_other hno]
    exact (hk.turned e).moved rfl (.refl _) fun _ => rfl

/-! ## Whole runs -/

/-- The condition on an event, given the histories of the slots: the status of an
environment is set only if nothing has happened to it since it was made, and a
dying environment is not destroyed again while another processor executes it. -/
def Event.IpcOk (s : Machine × (ℕ → List Act)) : Event → Prop
  | .trap i _ tf => tf.trapno.toNat = tSyscall →
      tf.call.IpcOk (fun e => (s.2 e).getLast? = some .made) (s.1.Busy i) (s.1.on i)
  | _ => True

variable {cfg : BootConfig} {s s' : Machine × (ℕ → List Act)} {a : Event}

/-- The invariant: processors run apart, and every slot is tracked. -/
structure IpcInv (s : Machine × (ℕ → List Act)) : Prop where
  cpus : CpuInv s.1
  tracked : ∀ e, Tracked (s.1.kern.envs e) (s.2 e)

theorem Tracked.fits_fresh (h : Tracked v l) (hl : l.getLast? = some .made) :
    Fits v .fresh := by
  obtain ⟨φ, hrun, hfits⟩ := h
  rwa [Phase.run_made hrun hl] at hfits

theorem Tracked.fresh_status (h : Tracked v l)
    (hl : l.getLast? = some .made) : v.envStatus ≠ .running ∧ v.envStatus ≠ .dying := by
  obtain ⟨-, hst⟩ := h.fits_fresh hl
  rcases hst with h' | h' <;> rw [h'] <;> exact ⟨nofun, nofun⟩

/-- What messages ask for is enough to keep the processors apart. -/
theorem IpcInv.statusOk (h : IpcInv s) (hok : a.IpcOk s) : a.StatusOk s.1 := by
  cases a with
  | trap i inp tf =>
    intro hsys
    have hcall := hok hsys
    generalize tf.call = call at hcall
    cases call with
    | envSetStatus envid status =>
      intro e hn
      have hl := hcall e hn
      obtain ⟨hrun, hdying⟩ := (h.tracked e).fresh_status hl
      exact ⟨(h.cpus.guarded i).not_busy hrun hdying, fun _ => ((h.tracked e).fits_fresh hl).1⟩
    | envDestroy envid => exact hcall
    | _ => trivial
  | _ => trivial

theorem QuietStep.ipcOk {m : Machine} {H : ℕ → List Act} (h : QuietStep m a) : a.IpcOk (m, H) := by
  cases a with
  | trap => exact fun hsys => absurd hsys h.not_syscall
  | _ => trivial

/-- What an event does to a slot. -/
theorem IpcInv.moved {m' : Machine} (h : IpcInv s) (hok : a.IpcOk s) (hstep : (jos cfg).step s.1 a m')
    (e : ℕ) : ∃ l, acts s.1 a m' e = l ++ statusActs (s.1.kern.envs e) (m'.kern.envs e) ∧
      Moved ((s.2 e).getLast? = some .made) (s.1.kern.envs e) l (m'.kern.envs e) := by
  obtain ⟨hen, hexec⟩ := hstep
  refine ⟨_, rfl, ?_⟩
  cases a with
  | create binary type =>
    obtain ⟨e', k', hk, rfl⟩ := create_moves hexec
    by_cases hee : e = e'
    · subst hee
      exact .made ((h.cpus.guarded 0).head_free hk.head) (Or.inl hk.status) hk.recving
    · refine .kept ?_ ?_ fun _ => ?_ <;> rw [show ({ s.1 with kern := k' } : Machine).kern = k' from rfl,
        hk.others e hee]
      exact .refl _
  | start i =>
    obtain ⟨k', hk, rfl⟩ := enter_moves schedYield_moves hexec
    exact (hk.turned e).moved rfl (.refl _) fun _ => rfl
  | trap i inp tf =>
    have hcs : ¬ tf.FromUser → tf.cs = gdKt := fun hu =>
      hen.elim (fun hh => absurd hh.2 hu) fun hh => hh.2
    obtain ⟨k', hk, rfl⟩ := enter_moves (trap_moves inp tf hcs) hexec
    refine hk.moved (h.cpus.guarded i) (fun c hc => h.cpus.status_of hc) (fun hu => ?_)
      (fun e' hf => ((h.tracked e').fresh_status hf).1) hok e
    refine h.cpus.idle i fun hm => ?_
    rcases hen with ⟨-, hu'⟩ | ⟨hm', -⟩
    · exact hu hu'
    · rw [hm] at hm'
      cases hm'
  | store i va b =>
    obtain ⟨k', ⟨p, rfl⟩, rfl⟩ := store_moves hexec
    exact .kept rfl (.refl _) fun _ => rfl

/-- **Every event keeps the invariant.** -/
theorem IpcInv.step (h : IpcInv s) (hok : a.IpcOk s) (hstep : (josIpc cfg).step s a s') :
    IpcInv s' := by
  refine ⟨(h.cpus.step (h.statusOk hok) hstep.1).1, fun e => ?_⟩
  obtain ⟨φ, hrun, hfits⟩ := h.tracked e
  obtain ⟨l, hacts, hmoved⟩ := h.moved hok hstep.1 e
  obtain ⟨ψ, hnext, hfits'⟩ := hfits.moved hmoved fun hl => Phase.run_made hrun hl
  refine ⟨ψ, ?_, hfits'⟩
  rw [hstep.2 e, hacts, Phase.run_append, hrun]
  exact hnext

theorem IpcInv.start (h : (josIpc cfg).init s) : IpcInv s := by
  refine ⟨CpuInv.start h.1, fun e => ⟨.dead, by rw [h.2 e]; rfl, ?_⟩⟩
  obtain ⟨⟨k₀, -, hs⟩, -⟩ := h
  rw [hs]
  exact (envInit_spec k₀).2.2.2.2.2 e

/-- **Messages arrive once.**  In every run in which environments are destroyed and
their status is set only where that is sound, each slot of the table loses no
message and receives none twice. -/
theorem messages_arrive_once (cfg : BootConfig) (s : Machine × (ℕ → List Act))
    (h : (josIpc cfg).Reach (fun s a => a.IpcOk s) s) (e : ℕ) :
    ArriveOnce (s.1.kern.envs e) (s.2 e) := by
  have hinv : IpcInv s := h.invariant (fun _ hs => IpcInv.start hs) fun _ _ _ hs hok hstep =>
    hs.step hok hstep
  exact (hinv.tracked e).arriveOnce

/-! ## Runs of a parent and its child -/

/-- The machine is reached by a run with the history `l` for slot `e`. -/
def Tale (ok : Machine × (ℕ → List Act) → Event → Prop) (m : Machine) (e : ℕ) (l : List Act) : Prop :=
  ∃ H, (josIpc smallPc).Reach ok (m, H) ∧ H e = l

section Tales

variable {ok : Machine × (ℕ → List Act) → Event → Prop} {k₀ : Pmap} {n b j : ℕ} {id : Word}
  {st : EnvStatus} {l : List Act} {m m' : Machine}

/-- The processors other than 0 and `j` are where they were. -/
def Machine.Apart (m : Machine) (j : ℕ) (m' : Machine) : Prop :=
  ∀ i md c, i ≠ 0 → i ≠ j → m.At i md c → m'.At i md c

theorem Tale.step (h : Tale ok m e l) (l' : List Act) (hstep : (jos smallPc).step m a m')
    (hok : ∀ H, H e = l → ok (m, H) a) (hacts : acts m a m' e = l') : Tale ok m' e (l ++ l') := by
  obtain ⟨H, hreach, rfl⟩ := h
  refine ⟨_, System.Reach.record (f := acts) hreach (hok H rfl) hstep, ?_⟩
  rw [← hacts]

/-- What a call of the parent means for the slot of the child. -/
theorem Family.acts (h : Family smallPc k₀ n b st id m)
    (no a1 a2 a3 a4 a5 : Word) :
    acts m (.trap 0 inp (callTf no a1 a2 a3 a4 a5)) m' b =
      callActs (callTf no a1 a2 a3 a4 a5) 0 (m.saved (callTf no a1 a2 a3 a4 a5)) b
        (decodeCall no a1 a2 a3 a4 a5)
        (runCall inp (decodeCall no a1 a2 a3 a4 a5) (m.saved (callTf no a1 a2 a3 a4 a5))) ++
      statusActs (m.kern.envs b) (m'.kern.envs b) := by
  have hst : (m.kern.envs 0).envStatus ≠ .dying := by
    rw [h.solo.status]
    nofun
  have hcur : (m.on 0).curenv = some 0 := h.solo.cpu
  unfold Jos.acts trapActs
  simp only [hcur]
  rw [if_pos ⟨rfl, hst⟩]
  rfl

/-- A processor picks the child. -/
theorem Family.acts_start (h : Family smallPc k₀ n b .runnable id m)
    (h' : Family smallPc k₀ n b .running id m') :
    Jos.acts m (.start j) m' b = [.resumed (m'.kern.envs b).envTf] := by
  show [] ++ statusActs _ _ = _
  rw [statusActs, h.status, h'.status]
  rfl

theorem Family.acts_wake (h : Family smallPc k₀ n b .runnable id m)
    (h' : Family smallPc k₀ n b .running id m') (hat : m.At j .halted none) :
    Jos.acts m (.trap j inp idleTf) m' b = [.resumed (m'.kern.envs b).envTf] := by
  have hcur : (m.on j).curenv = none := hat.2
  unfold Jos.acts trapActs
  simp only [hcur]
  rw [statusActs, h.status, h'.status]
  rfl

/-- The child blocks. -/
theorem Family.acts_recv {dstva : Word} {k' : Kern}
    (h : Family smallPc k₀ n b .running id m) (h' : Family smallPc k₀ n b .notRunnable id m')
    (hat : m.At j .user (some b))
    (hcall : runCall inp (.ipcRecv dstva) ((m.on j).saveTf b (recvAt dstva)) = .leave k') :
    Jos.acts m (.trap j inp (recvAt dstva)) m' b = [.blocked (recvAt dstva)] := by
  have hcur : (m.on j).curenv = some b := hat.2
  unfold Jos.acts trapActs
  simp only [hcur]
  rw [if_pos ⟨rfl, h.not_dying nofun j⟩, statusActs, h.status, h'.status,
    show (recvAt dstva).call = .ipcRecv dstva from rfl, hcall, callActs, if_pos rfl]
  rfl

/-- The child is sent a message. -/
theorem Family.acts_send {value srcva perm : Word} {k₂ : Kern} {n' : ℕ}
    (h : Family smallPc k₀ n b .notRunnable id m) (h' : Family smallPc k₀ n' b .runnable id m')
    (hsend : runCall inp (.ipcTrySend id value srcva perm)
      (m.saved (callTf 12#32 id value srcva perm 0#32)) = .ok 0 k₂) :
    Jos.acts m (.trap 0 inp (callTf 12#32 id value srcva perm 0#32)) m' b =
      [.sent (m.kern.envs 0).envId value] := by
  rw [h.acts, statusActs, h.status, h'.status,
    show decodeCall 12#32 id value srcva perm 0#32 = .ipcTrySend id value srcva perm from rfl, hsend,
    callActs_sent (h.names nofun false _), if_pos rfl]
  rfl

/-- **A child is made and runs on processor `j`.** -/
theorem Tale.birth (inp : Inputs) (hok : ∀ s a, a.IpcOk s → ok s a) (ht : Tale ok m b l)
    (h : Family smallPc k₀ (n + 1) b .free id m) (hj : j ≠ 0) (hat : m.At j .boot none) :
    ∃ m' id' tf, Tale ok m' b (l ++ [.made, .resumed tf]) ∧
      Family smallPc k₀ n b .running id' m' ∧ m'.At j .user (some b) ∧ m.Apart j m' := by
  obtain ⟨m1, m2, m3, id', h1, h2, h3, hat3⟩ := h.birth inp hj hat
  have ht1 : Tale ok m1 b (l ++ [.made]) :=
    ht.step _ h1.step (fun H _ => hok _ _ fun _ => trivial) (by
      rw [h.acts, statusActs, h.status, h1.family.status]
      rfl)
  have ht2 : Tale ok m2 b (l ++ [.made] ++ []) := by
    refine ht1.step _ h2.step (fun H hH => hok _ _ fun _ e hn => ?_) ?_
    · -- the identifier names the child, to which nothing has happened since it was made
      obtain ⟨⟨h0, hx⟩, -⟩ := h1.family.child nofun
      obtain rfl : e = b := by
        rcases hn with ⟨hn, -⟩ | ⟨-, hn, -⟩
        · exact absurd hn h0
        · exact hn.trans hx
      show (H e).getLast? = some .made
      rw [hH, List.getLast?_append]
      rfl
    · rw [h1.family.acts, statusActs, h1.family.status, h2.family.status]
      rfl
  have ht3 : Tale ok m3 b (l ++ [.made] ++ [] ++ [.resumed (m3.kern.envs b).envTf]) :=
    ht2.step _ h3.step (fun H _ => hok _ _ trivial) (h2.family.acts_start h3.family)
  refine ⟨m3, _, (m3.kern.envs b).envTf, ?_, h3.family, hat3, fun i md c hi hij hi0 => ?_⟩
  · simpa using ht3
  · exact h3.cpus.at hij (h2.cpus.at hi (h1.cpus.at hi hi0))

/-- **The child waits for a message on processor `j`, and the parent sends one.** -/
theorem Tale.message (inp : Inputs) (hok : ∀ s a, a.IpcOk s → ok s a) (ht : Tale ok m b l)
    (h : Family smallPc k₀ n b .running id m) (hj : j ≠ 0) (hat : m.At j .user (some b))
    (value : Word) : ∃ m' sender, Tale ok m' b (l ++ [.blocked recvTf, .sent sender value]) ∧
      Family smallPc k₀ n b .runnable id m' ∧ (m'.kern.envs b).envTf = recvTf.returnsZero ∧
      m'.At j .halted none ∧ m.Apart j m' := by
  obtain ⟨m1, h1, hb1, hat1, k', hcall⟩ := h.recv hj hat inp utop (by decide)
  have ht1 : Tale ok m1 b (l ++ [.blocked recvTf]) :=
    ht.step _ h1.step (fun H _ => hok _ _ fun _ => trivial) (h.acts_recv h1.family hat hcall)
  obtain ⟨m2, h2, hb2, k₂, hsend⟩ := h1.family.send nofun (by rw [hb1]) inp value
  have ht2 : Tale ok m2 b (l ++ [.blocked recvTf] ++ [.sent (m1.kern.envs 0).envId value]) :=
    ht1.step _ h2.step (fun H _ => hok _ _ fun _ => trivial) (h1.family.acts_send h2.family hsend)
  refine ⟨m2, (m1.kern.envs 0).envId, ?_, h2.family, ?_, h2.cpus.at hj hat1,
    fun i md c hi hij hi0 => h2.cpus.at hi (h1.cpus.at hij hi0)⟩
  · rwa [List.append_assoc] at ht2
  · rw [hb2, hb1]
    rfl

/-- A run of the machine is a run with histories. -/
theorem exists_tale {ok0 : Machine → Event → Prop} (hok : ∀ m H a, ok0 m a → ok (m, H) a)
    (h : (jos smallPc).Reach ok0 m) (e : ℕ) : ∃ l, Tale ok m e l := by
  obtain ⟨H, hH⟩ := h.recorded (f := acts) hok
  exact ⟨H e, H, hH, rfl⟩

/-- The first program runs, and the other processors have not started. -/
theorem exists_parent (n : ℕ) (hn : n ≤ 100) (hok : ∀ s a, a.IpcOk s → ok s a) : ∃ k₀ m b id l,
    Tale ok m b l ∧ Family smallPc k₀ n b .free id m ∧ ∀ j, j ≠ 0 → m.At j .boot none := by
  obtain ⟨k₀, m, pp, hquiet, hsolo, -, -, -, hnothing⟩ := exists_solo smallPc n rfl
    (Nat.le_trans (Nat.add_le_add_right hn 71) (by decide))
  obtain ⟨b, id, hfam⟩ := hnothing.family hsolo
  obtain ⟨l, ht⟩ := exists_tale (fun m H a ha => hok (m, H) a (QuietStep.ipcOk ha)) hquiet b
  exact ⟨k₀, m, b, id, l, ht, hfam, hnothing.boot⟩

end Tales

/-- A message that is sent and received. -/
theorem messages_arrive_once_family : ∃ s e l tf tf' sender value,
    (josIpc smallPc).Reach (fun s a => a.IpcOk s) s ∧
    s.2 e = l ++ [.made, .resumed tf, .blocked tf', .sent sender value, .resumed tf'.returnsZero] ∧
    ArriveOnce (s.1.kern.envs e) (s.2 e) := by
  have hok : ∀ (s : Machine × (ℕ → List Act)) (a : Event), a.IpcOk s → a.IpcOk s := fun _ _ h => h
  obtain ⟨k₀, m, b, id, l, ht, hfam, hboot⟩ := exists_parent 2 (by decide) hok
  obtain ⟨m1, id1, tf, ht1, hfam1, hat1, -⟩ := Tale.birth ⟨0#32, 0, none⟩ hok ht hfam
    (by decide) (hboot 1 (by decide))
  obtain ⟨m2, sender, ht2, hfam2, htf2, hat2, -⟩ := Tale.message ⟨0#32, 0, none⟩ hok ht1
    hfam1 (by decide) hat1 7#32
  obtain ⟨m3, h3, hb3, -⟩ := hfam2.wake (by decide) hat2 ⟨0#32, 0, none⟩
  have ht3 := ht2.step [.resumed recvTf.returnsZero] h3.step
    (fun H _ hsys => absurd hsys (by decide)) (by rw [hfam2.acts_wake h3.family hat2, hb3, ← htf2])
  obtain ⟨H, hreach, hH⟩ := ht3
  refine ⟨(m3, H), b, l, tf, recvTf, sender, 7#32, hreach, ?_, messages_arrive_once smallPc _ hreach b⟩
  simpa using hH

/-- The condition that `fork` itself keeps: the status of an environment is set only
if nothing has happened to it since it was made. -/
def Event.FreshOnly (s : Machine × (ℕ → List Act)) : Event → Prop
  | .trap i _ tf => tf.trapno.toNat = tSyscall →
      tf.call.IpcOk (fun e => (s.2 e).getLast? = some .made) (fun _ => False) (s.1.on i)
  | _ => True

theorem Event.IpcOk.freshOnly {s : Machine × (ℕ → List Act)} {a : Event} (h : a.IpcOk s) :
    a.FreshOnly s := by
  cases a with
  | trap i inp tf =>
    intro hsys
    have hcall := h hsys
    generalize tf.call = call at hcall
    cases call with
    | envSetStatus envid status => exact hcall
    | envDestroy envid => exact fun _ _ hf => hf.elim
    | _ => trivial
  | _ => trivial

/-- **A lost message.**  A child is destroyed twice while processor 1 executes it.
The next child gets the slot, runs on processor 2 and waits for a message; the
message is sent, and then processor 1, which still executes the first child, takes
a timer interrupt: the frame it saves replaces the one in which `sys_ipc_recv`
returns 0. -/
theorem message_lost : ∃ s e l tf sender value tf',
    (josIpc smallPc).Reach (fun s a => a.FreshOnly s) s ∧
    s.2 e = l ++ [.blocked tf, .sent sender value, .resumed tf'] ∧ tf' ≠ tf.returnsZero ∧
    ¬ ArriveOnce (s.1.kern.envs e) (s.2 e) := by
  have hok : ∀ (s : Machine × (ℕ → List Act)) (a : Event), a.IpcOk s → a.FreshOnly s :=
    fun _ _ h => h.freshOnly
  set inp : Inputs := ⟨0#32, 0, none⟩
  obtain ⟨k₀, m, b, id, l, ht, hfam, hboot⟩ := exists_parent 2 (by decide) hok
  obtain ⟨m1, id1, tf, ht1, hfam1, hat1, hapart1⟩ := Tale.birth inp hok ht hfam
    (by decide) (hboot 1 (by decide))
  -- the two calls of `sys_env_destroy`
  obtain ⟨m2, h2⟩ := hfam1.condemn inp
  have ht2 := ht1.step [] h2.step (fun H _ _ _ _ hf => hf.elim) (by
    rw [hfam1.acts, statusActs, hfam1.status, h2.family.status]
    rfl)
  obtain ⟨m3, h3⟩ := h2.family.destroy inp
  have ht3 := ht2.step [.gone] h3.step (fun H _ _ _ _ hf => hf.elim) (by
    rw [h2.family.acts, statusActs, h2.family.status, h3.family.status]
    rfl)
  -- the second child, on processor 2
  have hboot3 : m3.At 2 .boot none := h3.cpus.at (by decide)
    (h2.cpus.at (by decide) (hapart1 2 _ _ (by decide) (by decide) (hboot 2 (by decide))))
  obtain ⟨m4, id4, tf4, ht4, hfam4, hat4, hapart4⟩ := Tale.birth inp hok ht3 h3.family (by decide) hboot3
  obtain ⟨m5, sender, ht5, hfam5, -, -, hapart5⟩ := Tale.message inp hok ht4 hfam4 (by decide) hat4 7#32
  -- processor 1 still executes the slot
  have huser3 : m3.At 1 .user (some b) := h3.cpus.at (by decide) (h2.cpus.at (by decide) hat1)
  have huser5 : m5.At 1 .user (some b) := hapart5 1 _ _ (by decide) (by decide)
    (hapart4 1 _ _ (by decide) (by decide) huser3)
  obtain ⟨m6, h6, hb6⟩ := hfam5.tick (by decide) huser5 inp
  obtain ⟨H, hreach, hH⟩ := ht5.step [.resumed timerTf] h6.step
    (fun H _ hsys => absurd hsys (by decide)) (by
      have hcur : (m5.on 1).curenv = some b := huser5.2
      unfold Jos.acts trapActs
      simp only [hcur]
      rw [statusActs, hfam5.status, hb6]
      rfl)
  have hne : timerTf ≠ recvTf.returnsZero := by decide
  obtain ⟨l', hhist⟩ : ∃ l', H b = l' ++ [.blocked recvTf, .sent sender 7#32, .resumed timerTf] :=
    ⟨l ++ [.made, .resumed tf] ++ [] ++ [.gone] ++ [.made, .resumed tf4], by
      rw [hH, List.append_assoc]
      rfl⟩
  refine ⟨(m6, H), b, l', recvTf, sender, 7#32, timerTf, hreach, hhist, hne, fun harrive => ?_⟩
  have hcomplete := harrive.completes l' recvTf [.sent sender 7#32] timerTf [] hhist (by simp) (by simp)
  exact hne hcomplete.2

end OsLab.Jos
