import OsLab.Jos.PipeEnds

/-!
# When is a pipe closed?

`_pipeisclosed` is right if the data page of a pipe is mapped at least once for every mapping of one of
its ends.  `dup` and `close` see to that at every system call; a `fork` in progress does not, because it
maps the Fd pages of the child before its data pages.

* `World.Inv.step`: in every environment that `fork` has completed, an end is mapped with its data.
* `World.MapInv.ends_le`: without a torn pipe, its data is mapped at least as often as its two ends together.
* `pipeisclosed_careful`: `_pipeisclosed` returns 1 only if nobody had the other end, provided that no fork is
  halfway through the pipe and that a change of pages between the two counts shows in `env_runs`.
* `pipeisclosed_fork_race`: the same is false in a run with two forks.
-/

namespace OsLab.Jos.PipeEnds

open Function

variable {N pn' q : ℕ} {w w' w1 : World N} {e e' c : Fin N} {i j k pn : ℕ} {pg : ℕ} {v : Option ℕ} {P : Ends} {pc : Pc N}
  {x : Fin N × ℕ} {as : List (Event N)} {a : Event N} {y : Input N} {mem : Bool} {z : ℤ}

/-! ## Addresses -/

theorem fdPage_eq (h0 : 0 ≤ z) (h : z < maxfd) : fdPage z = fdtable + z.toNat := by
  rw [fdPage, fdtable]
  rw [maxfd] at h
  omega

theorem dataPage_eq (h0 : 0 ≤ z) (h : z < maxfd) : dataPage z = fdtable + maxfd + z.toNat := by
  rw [dataPage, fdtable]
  rw [maxfd] at h ⊢
  omega

theorem fdPage_nat (h : i < maxfd) : fdPage i = fdtable + i := by
  rw [fdPage_eq (Int.natCast_nonneg i) (by exact_mod_cast h), Int.toNat_natCast]

theorem dataPage_nat (h : i < maxfd) : dataPage i = fdtable + maxfd + i := by
  rw [dataPage_eq (Int.natCast_nonneg i) (by exact_mod_cast h), Int.toNat_natCast]

theorem fdPage_inj (hi : i < maxfd) (hj : j < maxfd) (h : fdPage i = fdPage j) : i = j := by
  rw [fdPage_nat hi, fdPage_nat hj] at h
  omega

theorem dataPage_inj (hi : i < maxfd) (hj : j < maxfd) (h : dataPage i = dataPage j) : i = j := by
  rw [dataPage_nat hi, dataPage_nat hj] at h
  omega

theorem fdPage_ne_dataPage (hi : i < maxfd) (hj : j < maxfd) : fdPage i ≠ dataPage j := by
  rw [fdPage_nat hi, dataPage_nat hj]
  omega

theorem fdPage_lt (hi : i < maxfd) : fdPage i < ustackPages := by
  rw [fdPage_nat hi, fdtable, ustackPages]
  rw [maxfd] at hi
  omega

theorem dataPage_lt (hi : i < maxfd) : dataPage i < ustackPages := by
  rw [dataPage_nat hi, fdtable, ustackPages]
  rw [maxfd] at hi ⊢
  omega

theorem lt_utopPages (h : pn < ustackPages) : pn < utopPages := h.trans (by decide)

/-- An Fd page and its data page are in one page table. -/
theorem fdPage_mem_sameTable (hi : i < maxfd) : fdPage i ∈ sameTable (dataPage i) := by
  rw [sameTable, List.mem_map]
  refine ⟨i, List.mem_range.2 (hi.trans (by decide)), ?_⟩
  rw [dataPage_nat hi, fdPage_nat hi, fdtable]
  rw [maxfd] at hi ⊢
  omega

/-! ## The condition -/

namespace World

/-- Some environment has an Fd page of the pipe mapped without the data page. -/
def Torn (w : World N) (P : Ends) : Prop :=
  ∃ e i pg, i < maxfd ∧ w.map (e, fdPage i) = some pg ∧ P.Has pg ∧ w.map (e, dataPage i) ≠ some P.buf

/-- The index given to `dup` is one of a file descriptor; while the second reference count is read no
fork has mapped an Fd page of the pipe to its child and not yet the data page; and if `env_runs` has not
changed, then no environment has mapped or unmapped a page between the two reads. -/
def Careful (w : World N) : Event N → Prop
  | .call _ (.dup _ new) => 0 ≤ new ∧ new < maxfd
  | .run e _ =>
    match w.pc e with
    | .counted i _ _ _ => ∀ P ∈ w.pipes, ∀ pg, w.map (e, fdPage i) = some pg → P.Has pg → ¬ w.Torn P
    | .compared _ n _ _ mixed => w.runs e = n → mixed = false
    | _ => True
  | _ => True

/-! ## The invariant -/

/-- The page at `pn` is mapped nowhere else, and is not an end of a pipe that has been made. -/
def Own (w : World N) (e : Fin N) (pn : ℕ) : Prop :=
  ∃ pg, w.map (e, pn) = some pg ∧ (∀ x, w.map x = some pg → x = (e, pn)) ∧ ∀ P ∈ w.pipes, ¬ P.Has pg

end World

def After.Ok (i : ℕ) : After → Prop
  | .done => True
  | .dup old new => old < maxfd ∧ new = i

namespace World

/-- What an environment relies on at each point. -/
def Local (w : World N) (e : Fin N) : Pc N → Prop
  | .pipeFd1 i => i < maxfd ∧ w.Own e (fdPage i)
  | .pipeData i j => i < maxfd ∧ j < maxfd ∧ i ≠ j ∧ w.Own e (fdPage i) ∧ w.Own e (fdPage j)
  | .pipeMap i j => (i < maxfd ∧ j < maxfd ∧ i ≠ j ∧ w.Own e (fdPage i) ∧ w.Own e (fdPage j)) ∧
      (w.map (e, dataPage i)).isSome
  | .pipeErr3 i j => (i < maxfd ∧ j < maxfd) ∧ w.Own e (fdPage i)
  | .pipeErr2 i j => i < maxfd ∧ j < maxfd
  | .pipeErr1 i => i < maxfd
  | .closeFd i k => i < maxfd ∧ k.Ok i
  | .closeData i k => i < maxfd ∧ k.Ok i ∧ w.map (e, fdPage i) = none
  | .closeRest i k => i < maxfd ∧ k.Ok i ∧ w.map (e, fdPage i) = none
  | .dupData old new => old < maxfd ∧ ∃ i < maxfd, new = (i : ℕ) ∧ w.map (e, fdPage i) = none
  | .dupFd old new => old < maxfd ∧ ∃ i < maxfd, new = (i : ℕ) ∧
      (w.map (e, dataPage i) = w.map (e, dataPage old) ∨ w.map (e, dataPage old) = none)
  | .dupErr1 new => ∃ i < maxfd, new = (i : ℕ)
  | .dupErr2 new => ∃ i < maxfd, new = (i : ℕ) ∧ w.map (e, fdPage i) = none
  | .asking i => i < maxfd
  | .counting i _ => i < maxfd
  | .counted i _ _ _ => i < maxfd
  | .compared i _ _ _ _ => i < maxfd
  | _ => True

/-- The child has nothing but pages of its parent below `pn`, and with every Fd page below `pn` the data
page if that is below `pn`, too. -/
structure Copied (w : World N) (e c : Fin N) (pn : ℕ) : Prop where
  sub : ∀ pn' pg, w.map (c, pn') = some pg → pn' < pn ∧ w.map (e, pn') = some pg
  data : ∀ i < maxfd, (w.map (c, fdPage i)).isSome → dataPage i < pn → w.map (c, dataPage i) = w.map (e, dataPage i)

/-- The pages at which references are counted. -/
def slots (N : ℕ) : Finset (Fin N × ℕ) := Finset.univ ×ˢ Finset.range utopPages

/-- The memory of all environments and the reference counts. -/
structure MapInv (w : World N) : Prop where
  ref : ∀ pg, w.ref pg = refCount w.map (slots N) pg
  low : ∀ x pg, w.map x = some pg → x.2 < utopPages ∧ pg < w.next
  ends : ∀ P ∈ w.pipes, P.rd ≠ P.wr
  made : ∀ P ∈ w.pipes, ∀ pg, P.Has pg → pg < w.next
  placed : ∀ P ∈ w.pipes, ∀ x pg, w.map x = some pg → P.Has pg → ∃ i < maxfd, x.2 = fdPage i

/-- Every Fd page of a pipe that `e` has mapped has its data page. -/
def Whole (w : World N) (e : Fin N) : Prop :=
  ∀ P ∈ w.pipes, ∀ i < maxfd, ∀ pg, w.map (e, fdPage i) = some pg → P.Has pg → w.map (e, dataPage i) = some P.buf

/-- The invariant. -/
structure Inv (w : World N) : Prop extends MapInv w where
  whole : ∀ e, w.pc e ≠ .born → w.Whole e
  copying : ∀ e c pn, w.pc e = .copying c pn → w.pc c = .born ∧ w.Copied e c pn
  unique : ∀ e e' c pn pn', w.pc e = .copying c pn → w.pc e' = .copying c pn' → e = e'
  free : ∀ e, w.pc e = .free → ∀ pn, w.map (e, pn) = none
  locals : ∀ e, w.Local e (w.pc e)

/-! ## Changes of one page -/

@[simp] theorem set_map :
    (w.set e x v).map = update w.map x v := rfl

theorem set_pc_self : (w.set e x v).pc e = w.pc e := if_pos rfl

theorem set_pc_of_ne (h : e' ≠ e) :
    (w.set e x v).pc e' = (w.pc e').mix := if_neg h

@[simp] theorem setPc_self (w : World N) (e : Fin N) (pc : Pc N) : (w.setPc e pc).pc e = pc := update_self ..

theorem setPc_of_ne (w : World N) (pc : Pc N) (h : e' ≠ e) : (w.setPc e pc).pc e' = w.pc e' :=
  update_of_ne h _ _

theorem MapInv.congr (h : w.MapInv) (hmap : w'.map = w.map) (href : w'.ref = w.ref) (hnext : w.next ≤ w'.next)
    (hpipes : w'.pipes = w.pipes) : w'.MapInv where
  ref pg := by rw [href, hmap, h.ref]
  low x pg hx := by
    rw [hmap] at hx
    obtain ⟨hlt, hpg⟩ := h.low x pg hx
    exact ⟨hlt, hpg.trans_le hnext⟩
  ends := by
    rw [hpipes]
    exact h.ends
  made := by
    rw [hpipes]
    exact fun P hP pg hpg => (h.made P hP pg hpg).trans_le hnext
  placed := by
    rw [hpipes, hmap]
    exact h.placed

theorem MapInv.set (h : w.MapInv) (hx : x.2 < utopPages)
    (hv : ∀ pg, v = some pg → pg < w.next ∧ ∀ P ∈ w.pipes, P.Has pg → ∃ i < maxfd, x.2 = fdPage i) :
    (w.set e x v).MapInv where
  ref pg := by
    have hmem : x ∈ slots N := Finset.mem_product.2 ⟨Finset.mem_univ _, Finset.mem_range.2 hx⟩
    have hcount := refCount_update (f := w.map) hmem v pg
    show w.ref pg + (if v = some pg then 1 else 0) - (if w.map x = some pg then 1 else 0) = _
    rw [h.ref, set_map]
    omega
  low y pg hy := by
    by_cases hyx : y = x
    · rw [hyx, set_map, update_self] at hy
      rw [hyx]
      exact ⟨hx, (hv pg hy).1⟩
    · rw [set_map, update_of_ne hyx] at hy
      exact h.low y pg hy
  ends := h.ends
  made := h.made
  placed P hP y pg hy hpg := by
    by_cases hyx : y = x
    · rw [hyx, set_map, update_self] at hy
      rw [hyx]
      exact (hv pg hy).2 P hP hpg
    · rw [set_map, update_of_ne hyx] at hy
      exact h.placed P hP y pg hy hpg

/-- What an environment relies on depends on its own memory and on what only it has. -/
theorem Local.congr (h : w.Local e pc) (hmap : ∀ pn, w'.map (e, pn) = w.map (e, pn))
    (hown : ∀ pn, w.Own e pn → w'.Own e pn) : w'.Local e pc := by
  cases pc with
  | pipeFd1 | pipeErr3 => exact ⟨h.1, hown _ h.2⟩
  | pipeData i j => exact ⟨h.1, h.2.1, h.2.2.1, hown _ h.2.2.2.1, hown _ h.2.2.2.2⟩
  | pipeMap i j =>
    obtain ⟨⟨hi, hj, hij, hown1, hown2⟩, hdata⟩ := h
    refine ⟨⟨hi, hj, hij, hown _ hown1, hown _ hown2⟩, ?_⟩
    rw [hmap]
    exact hdata
  | closeData | closeRest | dupData | dupFd | dupErr2 =>
    simp only [Local, hmap]
    exact h
  | pipeErr2 | pipeErr1 | closeFd | dupErr1 | asking | counting | counted | compared => exact h
  | _ => trivial

theorem local_mix : w.Local e pc.mix ↔ w.Local e pc := by cases pc <;> exact Iff.rfl

theorem mix_mix : pc.mix.mix = pc.mix := by cases pc <;> rfl

theorem mix_eq_born : pc.mix = .born ↔ pc = .born := by cases pc <;> simp [Pc.mix]

theorem mix_eq_free : pc.mix = .free ↔ pc = .free := by cases pc <;> simp [Pc.mix]

theorem mix_eq_copying : pc.mix = .copying c pn ↔ pc = .copying c pn := by cases pc <;> simp [Pc.mix]

/-- A page that is mapped once is still so when another page is changed. -/
theorem Own.set (h : w.Own e' pn) (hx : x ≠ (e', pn)) (hv : v ≠ w.map (e', pn)) : (w.set e x v).Own e' pn := by
  obtain ⟨pg, hpg, honly, hpipes⟩ := h
  refine ⟨pg, ?_, fun y hy => ?_, hpipes⟩
  · rw [set_map, update_of_ne (Ne.symm hx), hpg]
  · by_cases hyx : y = x
    · rw [hyx, set_map, update_self, ← hpg] at hy
      exact absurd hy hv
    · rw [set_map, update_of_ne hyx] at hy
      exact honly y hy

end World

/-- The environment exists, and does not copy its memory. -/
def Pc.Plain : Pc N → Prop
  | .born | .free | .copying _ _ => False
  | _ => True

namespace World

/-- Nothing has changed for the environments that are not in `C`, and no child of theirs is in `C`. -/
structure Kept (w w' : World N) (C : Set (Fin N)) : Prop where
  pc : ∀ e ∉ C, (w'.pc e).mix = (w.pc e).mix
  map : ∀ e ∉ C, ∀ pn, w'.map (e, pn) = w.map (e, pn)
  own : ∀ e ∉ C, ∀ pn, w.Own e pn → w'.Own e pn
  child : ∀ e ∉ C, ∀ c pn, w.pc e = .copying c pn → c ∉ C

/-- The invariant has to be shown for the environments that have changed. -/
theorem Inv.of_kept {C : Set (Fin N)} (h : w.Inv) (hmap : w'.MapInv) (hpipes : w'.pipes = w.pipes) (hk : Kept w w' C)
    (hwhole : ∀ e ∈ C, w'.pc e ≠ .born → w'.Whole e)
    (hcopying : ∀ e ∈ C, ∀ c pn, w'.pc e = .copying c pn → (c ∈ C ∧ w'.pc c = .born ∧ w'.Copied e c pn) ∧
      ∀ e' ∈ C, ∀ pn', w'.pc e' = .copying c pn' → e = e')
    (hfree : ∀ e ∈ C, w'.pc e = .free → ∀ pn, w'.map (e, pn) = none) (hlocals : ∀ e ∈ C, w'.Local e (w'.pc e)) : w'.Inv := by
  have hborn : ∀ {e}, e ∉ C → (w'.pc e = .born ↔ w.pc e = .born) := fun he => by
    rw [← mix_eq_born, hk.pc _ he, mix_eq_born]
  have hcopies : ∀ {e c pn}, e ∉ C → w'.pc e = .copying c pn → w.pc e = .copying c pn := fun he h' => by
    rwa [← mix_eq_copying, hk.pc _ he, mix_eq_copying] at h'
  refine ⟨hmap, fun e he => ?_, fun e c pn he => ?_, fun e1 e2 c pn1 pn2 h1 h2 => ?_, fun e he pn => ?_, fun e => ?_⟩
  · by_cases hC : e ∈ C
    · exact hwhole e hC he
    · intro P hP i hi pg hpg hhas
      rw [hk.map e hC] at hpg ⊢
      exact h.whole e (mt (hborn hC).2 he) P (hpipes ▸ hP) i hi pg hpg hhas
  · by_cases hC : e ∈ C
    · exact (hcopying e hC c pn he).1.2
    · obtain ⟨hc, hcopied⟩ := h.copying e c pn (hcopies hC he)
      have hcC := hk.child e hC c pn (hcopies hC he)
      refine ⟨(hborn hcC).2 hc, fun pn' pg hpg => ?_, fun i hi hsome hlt => ?_⟩
      · rw [hk.map c hcC] at hpg
        rw [hk.map e hC]
        exact hcopied.sub pn' pg hpg
      · rw [hk.map c hcC] at hsome ⊢
        rw [hk.map e hC]
        exact hcopied.data i hi hsome hlt
  · by_cases hC1 : e1 ∈ C <;> by_cases hC2 : e2 ∈ C
    · exact (hcopying e1 hC1 c pn1 h1).2 e2 hC2 pn2 h2
    · exact absurd (hcopying e1 hC1 c pn1 h1).1.1 (hk.child e2 hC2 c pn2 (hcopies hC2 h2))
    · exact absurd (hcopying e2 hC2 c pn2 h2).1.1 (hk.child e1 hC1 c pn1 (hcopies hC1 h1))
    · exact h.unique e1 e2 c pn1 pn2 (hcopies hC1 h1) (hcopies hC2 h2)
  · by_cases hC : e ∈ C
    · exact hfree e hC he pn
    · rw [← mix_eq_free, hk.pc e hC, mix_eq_free] at he
      rw [hk.map e hC, h.free e he]
  · by_cases hC : e ∈ C
    · exact hlocals e hC
    · rw [← local_mix, hk.pc e hC, local_mix]
      exact (h.locals e).congr (hk.map e hC) (hk.own e hC)

section

variable (h : w.Inv) (hborn : w.pc e ≠ .born)

include h hborn

/-- An environment that exists has done something to its own memory, and goes on. -/
theorem Inv.goOn (hmapinv : w'.MapInv) (hpipes : w'.pipes = w.pipes)
    (hpc : ∀ e' ≠ e, (w'.pc e').mix = (w.pc e').mix) (hmap : ∀ e' ≠ e, ∀ pn, w'.map (e', pn) = w.map (e', pn))
    (hown : ∀ e' ≠ e, ∀ pn, w.Own e' pn → w'.Own e' pn) (hwhole : w'.Whole e) (hplain : pc.Plain) (hlocal : w'.Local e pc) :
    (w'.setPc e pc).Inv := by
  refine h.of_kept (C := {e}) (hmapinv.congr rfl rfl (Nat.le_refl _) rfl) hpipes ⟨fun e' he => ?_, hmap, hown, ?_⟩ ?_ ?_ ?_ ?_
  · rw [setPc_of_ne _ _ he]
    exact hpc e' he
  · rintro e' - c pn hc rfl
    exact hborn (h.copying e' c pn hc).1
  · rintro _ rfl -
    exact hwhole
  · rintro _ rfl c pn hc
    rw [setPc_self] at hc
    subst hc
    exact hplain.elim
  · rintro _ rfl hf
    rw [setPc_self] at hf
    subst hf
    exact hplain.elim
  · rintro _ rfl
    rw [setPc_self]
    exact hlocal.congr (fun _ => rfl) fun _ hown => hown

/-- An environment that exists goes on, with its memory as it is. -/
theorem Inv.setPc (hlocal : w.Local e pc)
    (hplain : pc.Plain) : (w.setPc e pc).Inv :=
  h.goOn hborn h.toMapInv rfl (fun _ _ => rfl) (fun _ _ _ => rfl) (fun _ _ _ hown => hown) (h.whole e hborn) hplain hlocal

/-- An environment changes a page of its own. -/
theorem Inv.setOwn (hpn : pn < utopPages)
    (hv : ∀ pg, v = some pg → pg < w.next ∧ ∀ P ∈ w.pipes, P.Has pg → ∃ i < maxfd, pn = fdPage i)
    (hsrc : ∀ pg, v = some pg → (∃ pn', w.map (e, pn') = some pg) ∨ ∀ y, w.map y ≠ some pg)
    (hwhole : (w.set e (e, pn) v).Whole e) (hplain : pc.Plain) (hlocal : (w.set e (e, pn) v).Local e pc) :
    ((w.set e (e, pn) v).setPc e pc).Inv := by
  have hx : ∀ e' ≠ e, ∀ pn', (e, pn) ≠ (e', pn') := fun e' hne pn' heq => hne (congrArg Prod.fst heq).symm
  refine h.goOn hborn (h.toMapInv.set hpn hv) rfl (fun e' hne => ?_) (fun e' hne pn' => ?_) (fun e' hne pn' hown => ?_) hwhole
    hplain hlocal
  · rw [set_pc_of_ne hne, mix_mix]
  · exact update_of_ne (hx e' hne pn').symm _ _
  · refine hown.set (hx e' hne pn') fun heq => ?_
    obtain ⟨pg, hpg, honly, -⟩ := hown
    rcases hsrc pg (heq.trans hpg) with ⟨pn1, hpn1⟩ | hno
    · exact hne (congrArg Prod.fst (honly _ hpn1)).symm
    · exact hno _ hpg

/-- An environment allocates a page. -/
theorem Inv.alloc (hpn : pn < utopPages)
    (hwhole : (w.alloc e pn).Whole e) (hlocal : (w.alloc e pn).Local e pc)
    (hplain : pc.Plain) : ((w.alloc e pn).setPc e pc).Inv := by
  have hnext : ({ w with next := w.next + 1 } : World N).Inv :=
    h.of_kept (C := ∅) (h.toMapInv.congr rfl rfl (Nat.le_succ _) rfl) rfl
      ⟨fun _ _ => rfl, fun _ _ _ => rfl, fun _ _ _ hown => hown, fun _ _ _ _ _ => id⟩ nofun nofun nofun nofun
  refine hnext.setOwn hborn hpn (fun pg hpg => ?_) (fun pg hpg => Or.inr fun y hy => ?_) hwhole hplain hlocal
  · obtain rfl := Option.some.inj hpg
    refine ⟨Nat.lt_succ_self _, fun P hP hhas => ?_⟩
    exact absurd (h.made P hP _ hhas) (Nat.lt_irrefl _)
  · obtain rfl := Option.some.inj hpg
    exact absurd (h.low y _ hy).2 (Nat.lt_irrefl _)

/-- An environment maps a page that it has at a second place. -/
theorem Inv.mapOwn (hpn : pn < utopPages) (hpg : w.map (e, pn') = some pg)
    (hplace : ∀ P ∈ w.pipes, P.Has pg → ∃ i < maxfd, pn = fdPage i) (hwhole : (w.set e (e, pn) (some pg)).Whole e)
    (hlocal : (w.set e (e, pn) (some pg)).Local e pc) (hplain : pc.Plain) :
    ((w.set e (e, pn) (some pg)).setPc e pc).Inv := by
  refine h.setOwn hborn hpn ?_ ?_ hwhole hplain hlocal
  · rintro _ ⟨⟩
    exact ⟨(h.low _ _ hpg).2, hplace⟩
  · rintro _ ⟨⟩
    exact Or.inl ⟨pn', hpg⟩

end

theorem sysPageMap_eq_some (h : w.sysPageMap e pn x mem = some w') :
    ∃ pg, w.map (e, pn) = some pg ∧ x.2 < utopPages ∧ w.TableFor x.1 x.2 mem ∧ w' = w.set e x (some pg) := by
  unfold sysPageMap at h
  by_cases hlt : pn < utopPages ∧ x.2 < utopPages
  · rw [if_pos hlt] at h
    cases hpg : w.map (e, pn) with
    | none =>
      rw [hpg] at h
      cases h
    | some pg =>
      rw [hpg] at h
      split_ifs at h with htable
      exact ⟨pg, rfl, hlt.2, htable, (Option.some.inj h).symm⟩
  · rw [if_neg hlt] at h
    cases h

/-! ## Fd pages with their data -/

/-- An Fd page is mapped where its data page is, or none. -/
theorem Whole.setFd (h : w.Whole e) (hi : i < maxfd)
    (hv : ∀ P ∈ w.pipes, ∀ pg, v = some pg → P.Has pg → w.map (e, dataPage i) = some P.buf) :
    (w.set e (e, fdPage i) v).Whole e := by
  intro P hP j hj pg hpg hhas
  have hdata : (w.set e (e, fdPage i) v).map (e, dataPage j) = w.map (e, dataPage j) :=
    update_of_ne (fun heq => fdPage_ne_dataPage hi hj (congrArg Prod.snd heq).symm) _ _
  rw [hdata]
  by_cases hij : j = i
  · subst hij
    rw [set_map, update_self] at hpg
    exact hv P hP pg hpg hhas
  · rw [set_map, update_of_ne fun heq => hij (fdPage_inj hj hi (congrArg Prod.snd heq))] at hpg
    exact h P hP j hj pg hpg hhas

/-- The data page is changed where no end of a pipe is mapped. -/
theorem Whole.setData (h : w.Whole e) (hi : i < maxfd)
    (hfd : ∀ P ∈ w.pipes, ∀ pg, w.map (e, fdPage i) = some pg → ¬ P.Has pg) :
    (w.set e (e, dataPage i) v).Whole e := by
  intro P hP j hj pg hpg hhas
  rw [set_map, update_of_ne fun heq => fdPage_ne_dataPage hj hi (congrArg Prod.snd heq)] at hpg
  have hij : j ≠ i := fun heq => hfd P hP pg (heq ▸ hpg) hhas
  rw [set_map, update_of_ne fun heq => hij (dataPage_inj hj hi (congrArg Prod.snd heq))]
  exact h P hP j hj pg hpg hhas

theorem Own.not_has (h : w.Own e pn) (hP : P ∈ w.pipes) (hpg : w.map (e, pn) = some pg) : ¬ P.Has pg := by
  obtain ⟨pg', hpg', -, hpipes⟩ := h
  obtain rfl : pg = pg' := Option.mem_unique hpg hpg'
  exact hpipes P hP

/-- A page that has been allocated is the environment's own. -/
theorem MapInv.own_alloc (h : w.MapInv) (e : Fin N) (pn : ℕ) : (w.alloc e pn).Own e pn := by
  refine ⟨w.next, update_self .., fun y hy => ?_, fun P hP hhas => ?_⟩
  · by_contra hne
    change update w.map (e, pn) (some w.next) y = _ at hy
    rw [update_of_ne hne] at hy
    exact absurd (h.low y _ hy).2 (Nat.lt_irrefl _)
  · exact absurd (h.made P hP _ hhas) (Nat.lt_irrefl _)

theorem Own.alloc (h : w.Own e pn) (hinv : w.MapInv) (hne : pn' ≠ pn) : (w.alloc e pn').Own e pn := by
  have hown : ({ w with next := w.next + 1 } : World N).Own e pn := h
  refine hown.set (fun heq => hne (congrArg Prod.snd heq)) fun heq => ?_
  exact absurd (hinv.low (e, pn) _ heq.symm).2 (Nat.lt_irrefl _)

/-- A pipe has been made. -/
theorem Inv.addPipe (h : w.Inv) {Q : Ends} (hpc : w.pc e = .idle) (hi : i < maxfd) (hj : j < maxfd)
    (hrd : w.map (e, fdPage i) = some Q.rd) (hrd' : ∀ x, w.map x = some Q.rd → x = (e, fdPage i))
    (hwr : w.map (e, fdPage j) = some Q.wr) (hwr' : ∀ x, w.map x = some Q.wr → x = (e, fdPage j)) (hij : i ≠ j)
    (hdi : w.map (e, dataPage i) = some Q.buf) (hdj : w.map (e, dataPage j) = some Q.buf) :
    ({ w with pipes := w.pipes ++ [Q] } : World N).Inv := by
  have hmem : ∀ {P}, P ∈ w.pipes ++ [Q] → P ∈ w.pipes ∨ P = Q := fun hP => by
    rwa [List.mem_append, List.mem_singleton] at hP
  have hends : ∀ {x pg}, w.map x = some pg → Q.Has pg → x = (e, fdPage i) ∨ x = (e, fdPage j) := by
    rintro x pg hx (rfl | rfl)
    · exact Or.inl (hrd' x hx)
    · exact Or.inr (hwr' x hx)
  have hne : Q.rd ≠ Q.wr := fun heq => by
    have := hwr' (e, fdPage i) (hrd.trans (congrArg some heq))
    exact hij (fdPage_inj hi hj (congrArg Prod.snd this))
  refine ⟨⟨h.ref, h.low, fun P hP => ?_, fun P hP pg hpg => ?_, fun P hP x pg hx hpg => ?_⟩, fun e' he P hP k hk pg hpg hhas => ?_,
    fun e' c pn he => ?_, h.unique, h.free, fun e' => ?_⟩
  · rcases hmem hP with hP | rfl
    · exact h.ends P hP
    · exact hne
  · rcases hmem hP with hP | rfl
    · exact h.made P hP pg hpg
    · rcases hpg with rfl | rfl
      · exact (h.low _ _ hrd).2
      · exact (h.low _ _ hwr).2
  · rcases hmem hP with hP | rfl
    · exact h.placed P hP x pg hx hpg
    · rcases hends hx hpg with rfl | rfl
      · exact ⟨i, hi, rfl⟩
      · exact ⟨j, hj, rfl⟩
  · rcases hmem hP with hP | rfl
    · exact h.whole e' he P hP k hk pg hpg hhas
    · rcases hends hpg hhas with heq | heq
      · obtain ⟨rfl, hk'⟩ := Prod.mk.inj heq
        rw [fdPage_inj hk hi hk']
        exact hdi
      · obtain ⟨rfl, hk'⟩ := Prod.mk.inj heq
        rw [fdPage_inj hk hj hk']
        exact hdj
  · obtain ⟨hc, hcopied⟩ := h.copying e' c pn he
    exact ⟨hc, hcopied.1, hcopied.2⟩
  · by_cases heq : e' = e
    · subst heq
      rw [hpc]
      trivial
    · -- what another environment has for itself is not the new pipe
      refine (h.locals e').congr (fun _ => rfl) fun pn hown => ?_
      obtain ⟨pg, hpg, honly, hpipes⟩ := hown
      refine ⟨pg, hpg, honly, fun P hP hhas => ?_⟩
      rcases hmem hP with hP | rfl
      · exact hpipes P hP hhas
      · rcases hends hpg hhas with hno | hno <;> exact heq (congrArg Prod.fst hno)

/-! ## Fork -/

/-- `e` is copying its memory to the child `c`. -/
theorem Inv.of_copying (h : w.Inv) (hmap : w'.MapInv) (hpipes : w'.pipes = w.pipes) (hk : Kept w w' {e, c})
    (he : w'.pc e = .copying c pn) (hc : w'.pc c = .born) (hwhole : w'.Whole e) (hcopied : w'.Copied e c pn) : w'.Inv := by
  refine h.of_kept hmap hpipes hk ?_ ?_ ?_ ?_
  · rintro _ (rfl | rfl) hb
    · exact hwhole
    · exact absurd hc hb
  · rintro _ (rfl | rfl) c' pn' he'
    · obtain ⟨rfl, rfl⟩ := Pc.copying.inj (he.symm.trans he')
      refine ⟨⟨Or.inr rfl, hc, hcopied⟩, ?_⟩
      rintro _ (rfl | rfl) pn' he2
      · rfl
      · cases hc.symm.trans he2
    · cases hc.symm.trans he'
  · rintro _ (rfl | rfl) hf
    · cases he.symm.trans hf
    · cases hc.symm.trans hf
  · rintro _ (rfl | rfl)
    · rw [he]
      trivial
    · rw [hc]
      trivial

/-- `sys_exofork`. -/
theorem Inv.fork (h : w.Inv) (he : w.pc e = .forking) (hc : w.pc c = .free) :
    ((w.setPc c .born).setPc e (.copying c 0)).Inv := by
  have hce : c ≠ e := fun heq => nomatch (heq ▸ hc).symm.trans he
  have hc' : ((w.setPc c .born).setPc e (.copying c 0)).pc c = .born := by rw [setPc_of_ne _ _ hce, setPc_self]
  refine h.of_copying (h.toMapInv.congr rfl rfl (Nat.le_refl _) rfl) rfl
    ⟨fun e' hC => ?_, fun _ _ _ => rfl, fun _ _ _ hown => hown, ?_⟩ (setPc_self ..) hc'
    (h.whole e (by rw [he]; exact nofun)) ⟨fun pn' pg hpg => ?_, fun i _ hsome => ?_⟩
  · rw [setPc_of_ne _ _ fun heq => hC (Or.inl heq), setPc_of_ne _ _ fun heq => hC (Or.inr heq)]
  · rintro e' - c' pn he' (rfl | rfl)
    · cases he.symm.trans (h.copying _ _ _ he').1
    · cases hc.symm.trans (h.copying _ _ _ he').1
  · cases (h.free c hc pn').symm.trans hpg
  · exact absurd (h.free c hc _) (Option.isSome_iff_ne_none.1 hsome)

/-- `fork` goes on to the next page.  Only the memory of the child has changed, and there only page `pn`. -/
theorem Inv.copied (h : w.Inv) (he : w.pc e = .copying c pn) (hpc : ∀ e', (w'.pc e').mix = (w.pc e').mix)
    (hmapinv : w'.MapInv) (hmap : ∀ x, x ≠ (c, pn) → w'.map x = w.map x) (hpipes : w'.pipes = w.pipes)
    (hval : w'.map (c, pn) = w.map (e, pn) ∨ w'.map (c, pn) = none)
    (hdata : ∀ i < maxfd, dataPage i = pn → (w.map (c, fdPage i)).isSome → w'.map (c, pn) = w.map (e, pn)) :
    (w'.setPc e (.copying c (pn + 1))).Inv := by
  obtain ⟨hborn, hcopied⟩ := h.copying e c pn he
  have hce : c ≠ e := fun heq => nomatch (heq ▸ hborn).symm.trans he
  have hmap' : ∀ {e'} pn', e' ≠ c → w'.map (e', pn') = w.map (e', pn') := fun pn' hne =>
    hmap _ fun heq => hne (congrArg Prod.fst heq)
  have hc' : (w'.setPc e (.copying c (pn + 1))).pc c = .born := by
    rw [setPc_of_ne _ _ hce, ← mix_eq_born, hpc, hborn]
    rfl
  refine h.of_copying (hmapinv.congr rfl rfl (Nat.le_refl _) rfl) hpipes
    ⟨fun e' hC => ?_, fun e' hC pn' => hmap' pn' fun heq => hC (Or.inr heq), fun e' hC pn' hown => ?_, ?_⟩ (setPc_self ..) hc'
    (fun P hP i hi pg hpg hhas => ?_) ⟨fun pn' pg hpg => ?_, fun i hi hsome hlt => ?_⟩
  · rw [setPc_of_ne _ _ fun heq => hC (Or.inl heq), hpc]
  · obtain ⟨pg, hpg, honly, hno⟩ := hown
    refine ⟨pg, (hmap' _ fun heq => hC (Or.inr heq)).trans hpg, fun x hx => ?_, fun P hP => hno P (hpipes ▸ hP)⟩
    by_cases hxc : x = (c, pn)
    · -- the page came from the parent
      change w'.map x = some pg at hx
      rw [hxc] at hx
      rcases hval with hv | hv <;> rw [hv] at hx
      · exact absurd (congrArg Prod.fst (honly _ hx)).symm fun heq => hC (Or.inl heq)
      · cases hx
    · exact honly x ((hmap x hxc).symm.trans hx)
  · rintro e' hC c' pn' he' (rfl | rfl)
    · cases he.symm.trans (h.copying _ _ _ he').1
    · exact hC (Or.inl (h.unique e' e _ pn' pn he' he))
  · change w'.map (_, fdPage i) = some pg at hpg
    show w'.map (_, dataPage i) = some P.buf
    rw [hmap' _ (Ne.symm hce)] at hpg ⊢
    exact h.whole _ (by rw [he]; exact nofun) P (hpipes ▸ hP) i hi pg hpg hhas
  · change w'.map (c, pn') = some pg at hpg
    show pn' < pn + 1 ∧ w'.map (e, pn') = some pg
    rw [hmap' _ (Ne.symm hce)]
    by_cases heq : pn' = pn
    · rw [heq] at hpg ⊢
      refine ⟨Nat.lt_succ_self _, ?_⟩
      rcases hval with hv | hv <;> rw [hv] at hpg
      · exact hpg
      · cases hpg
    · rw [hmap _ fun hx => heq (congrArg Prod.snd hx)] at hpg
      obtain ⟨hlt, hold⟩ := hcopied.sub pn' pg hpg
      exact ⟨hlt.trans (Nat.lt_succ_self _), hold⟩
  · change (w'.map (c, fdPage i)).isSome at hsome
    show w'.map (c, dataPage i) = w'.map (e, dataPage i)
    have hfd : fdPage i < dataPage i := by
      rw [fdPage_nat hi, dataPage_nat hi]
      omega
    rw [hmap _ fun hx => by rw [Prod.mk.injEq] at hx; omega] at hsome
    rw [hmap' _ (Ne.symm hce)]
    rcases Nat.lt_succ_iff_lt_or_eq.1 hlt with hlt | heq
    · rw [hmap _ fun hx => hlt.ne (congrArg Prod.snd hx)]
      exact hcopied.data i hi hsome hlt
    · rw [heq]
      exact hdata i hi heq hsome

/-- The child is ready. -/
theorem Inv.forked (h : w.Inv) (he : w.pc e = .copying c pn) (hpn : ustackPages ≤ pn) :
    ((w.setPc c .idle).setPc e .idle).Inv := by
  obtain ⟨hborn, hcopied⟩ := h.copying e c pn he
  have hidle : ∀ e' ∈ ({e, c} : Set (Fin N)), ((w.setPc c .idle).setPc e .idle).pc e' = .idle := by
    rintro e' (rfl | rfl)
    · exact setPc_self ..
    · by_cases heq : e' = e
      · rw [heq, setPc_self]
      · rw [setPc_of_ne _ _ heq, setPc_self]
  have hwhole : w.Whole e := h.whole e (by rw [he]; exact nofun)
  refine h.of_kept (C := {e, c}) (h.toMapInv.congr rfl rfl (Nat.le_refl _) rfl) rfl
    ⟨fun e' hC => ?_, fun _ _ _ => rfl, fun _ _ _ hown => hown, ?_⟩ ?_ (fun e' hC c' pn' he' => ?_) (fun e' hC hf => ?_)
    fun e' hC => ?_
  · rw [setPc_of_ne _ _ fun heq => hC (Or.inl heq), setPc_of_ne _ _ fun heq => hC (Or.inr heq)]
  · rintro e' hC c' pn' he' (rfl | rfl)
    · cases he.symm.trans (h.copying _ _ _ he').1
    · exact hC (Or.inl (h.unique e' e _ pn' pn he' he))
  · rintro _ (rfl | rfl) -
    · exact hwhole
    · -- the child has what the parent has
      intro P hP i hi pg hpg hhas
      have hbuf := hwhole P hP i hi pg (hcopied.sub _ pg hpg).2 hhas
      refine (hcopied.data i hi ?_ ((dataPage_lt hi).trans_le hpn)).trans hbuf
      exact Option.isSome_iff_exists.2 ⟨pg, hpg⟩
  · cases (hidle e' hC).symm.trans he'
  · cases (hidle e' hC).symm.trans hf
  · rw [hidle e' hC]
    trivial

/-! ## Steps -/

theorem fdAlloc_eq_some (h : w.fdAlloc e = some i) : i < maxfd ∧ w.map (e, fdPage i) = none := by
  refine ⟨List.mem_range.1 (List.mem_of_find?_eq_some h), ?_⟩
  have := List.find?_some h
  exact Option.isNone_iff_eq_none.1 this

theorem fdLookup_eq_some (h : w.fdLookup e z = some i) : i < maxfd ∧ z = i := by
  unfold fdLookup at h
  split_ifs at h with hz
  obtain rfl := Option.some.inj h
  omega

/-- A data page is no end of a pipe. -/
theorem MapInv.data_not_end (h : w.MapInv) (hi : i < maxfd) (hpg : w.map (e, dataPage i) = some pg) (hP : P ∈ w.pipes) :
    ¬ P.Has pg := fun hhas => by
  obtain ⟨k, hk, heq⟩ := h.placed P hP _ _ hpg hhas
  exact fdPage_ne_dataPage hk hi heq.symm

section

variable (h : w.Inv) (hborn : w.pc e ≠ .born)

include h hborn

/-- The last system call of `pipe`. -/
theorem Inv.pipeMade (hi : i < maxfd) (hj : j < maxfd) (hij : i ≠ j)
    (hown1 : w.Own e (fdPage i)) (hown2 : w.Own e (fdPage j)) (hpg : w.map (e, dataPage i) = some pg) :
    (((w.set e (e, dataPage j) (some pg)).made e i j).setPc e .idle).Inv := by
  -- in two parts: the second mapping of the data, and the record of the pipe
  have hinv : ((w.set e (e, dataPage j) (some pg)).setPc e .idle).Inv :=
    h.mapOwn hborn (lt_utopPages (dataPage_lt hj)) hpg (fun P hP hhas => absurd hhas (h.data_not_end hi hpg hP))
      ((h.whole e hborn).setData hj fun P hP pg' hpg' => hown2.not_has hP hpg') trivial trivial
  obtain ⟨f0, hf0, honly0, -⟩ := hown1
  obtain ⟨f1, hf1, honly1, -⟩ := hown2
  have hfd : ∀ {k : ℕ}, k < maxfd → (w.set e (e, dataPage j) (some pg)).map (e, fdPage k) = w.map (e, fdPage k) :=
    fun hk => update_of_ne (fun heq => fdPage_ne_dataPage hk hj (congrArg Prod.snd heq)) _ _
  have hd : (w.set e (e, dataPage j) (some pg)).map (e, dataPage i) = some pg :=
    (update_of_ne (fun heq => hij (dataPage_inj hi hj (congrArg Prod.snd heq))) _ _).trans hpg
  have hne : ∀ {k f : ℕ}, k < maxfd → (∀ x, w.map x = some f → x = (e, fdPage k)) →
      ∀ x, (w.set e (e, dataPage j) (some pg)).map x = some f → x = (e, fdPage k) := by
    intro k f hk honly x hx
    by_cases hxj : x = (e, dataPage j)
    · rw [hxj, set_map, update_self] at hx
      have := honly (e, dataPage i) (hpg.trans hx)
      exact absurd (congrArg Prod.snd this).symm (fdPage_ne_dataPage hk hi)
    · rw [set_map, update_of_ne hxj] at hx
      exact honly x hx
  have hQ : ((w.set e (e, dataPage j) (some pg)).made e i j).setPc e .idle =
      { (w.set e (e, dataPage j) (some pg)).setPc e .idle with pipes := w.pipes ++ [⟨f0, f1, pg⟩] } := by
    rw [made, hfd hi, hfd hj, hd, hf0, hf1]
    rfl
  rw [hQ]
  refine hinv.addPipe (setPc_self _ e _) hi hj ?_ ?_ ?_ ?_ hij hd ?_
  · exact (hfd hi).trans hf0
  · exact hne hi honly0
  · exact (hfd hj).trans hf1
  · exact hne hj honly1
  · exact update_self ..

/-- The Fd page of a new file descriptor. -/
theorem Inv.allocFd (hi : i < maxfd) (hlocal : (w.alloc e (fdPage i)).Local e pc)
    (hplain : pc.Plain) : ((w.alloc e (fdPage i)).setPc e pc).Inv := by
  refine h.alloc hborn (lt_utopPages (fdPage_lt hi)) ?_ hlocal hplain
  refine Whole.setFd (w := { w with next := w.next + 1 }) (h.whole e hborn) hi fun P hP pg hpg hhas => ?_
  obtain rfl := Option.some.inj hpg
  exact absurd (h.made P hP _ hhas) (Nat.lt_irrefl _)

theorem Inv.unmapFd (hi : i < maxfd) (hlocal : (w.set e (e, fdPage i) none).Local e pc)
    (hplain : pc.Plain) : ((w.unmap e (fdPage i)).setPc e pc).Inv := by
  rw [unmap, if_pos (lt_utopPages (fdPage_lt hi))]
  exact h.setOwn hborn (lt_utopPages (fdPage_lt hi)) nofun nofun ((h.whole e hborn).setFd hi nofun) hplain hlocal

theorem Inv.unmapData (hi : i < maxfd)
    (hfd : ∀ P ∈ w.pipes, ∀ pg, w.map (e, fdPage i) = some pg → ¬ P.Has pg)
    (hlocal : (w.set e (e, dataPage i) none).Local e pc) (hplain : pc.Plain) :
    ((w.unmap e (dataPage i)).setPc e pc).Inv := by
  rw [unmap, if_pos (lt_utopPages (dataPage_lt hi))]
  exact h.setOwn hborn (lt_utopPages (dataPage_lt hi)) nofun nofun ((h.whole e hborn).setData hi hfd) hplain hlocal

/-- `dup` maps the data page of the new file descriptor. -/
theorem Inv.dupData (hj : j < maxfd) (hi : i < maxfd) (hnone : w.map (e, fdPage i) = none)
    (hpg : w.map (e, dataPage j) = some pg) : ((w.set e (e, dataPage i) (some pg)).setPc e (.dupFd j i)).Inv := by
  have hsame : (w.set e (e, dataPage i) (some pg)).map (e, dataPage j) = some pg := by
    by_cases heq : dataPage j = dataPage i
    · rw [heq]
      exact update_self ..
    · exact (update_of_ne (fun hx => heq (congrArg Prod.snd hx)) _ _).trans hpg
  refine h.mapOwn hborn (lt_utopPages (dataPage_lt hi)) hpg (fun P hP hhas => absurd hhas (h.data_not_end hj hpg hP))
    ((h.whole e hborn).setData hi fun P _ pg' hpg' => nomatch hnone.symm.trans hpg') ⟨hj, i, hi, rfl, Or.inl ?_⟩ trivial
  rw [hsame]
  exact update_self ..

/-- `dup` maps the Fd page.  The data page is there, because the old descriptor has it. -/
theorem Inv.dupFd (hj : j < maxfd) (hi : i < maxfd)
    (hdata : w.map (e, dataPage i) = w.map (e, dataPage j) ∨ w.map (e, dataPage j) = none)
    (hpg : w.map (e, fdPage j) = some pg) : ((w.set e (e, fdPage i) (some pg)).setPc e .idle).Inv := by
  refine h.mapOwn hborn (lt_utopPages (fdPage_lt hi)) hpg (fun _ _ _ => ⟨i, hi, rfl⟩)
    ((h.whole e hborn).setFd hi fun P hP pg' hpg' hhas => ?_) trivial trivial
  obtain rfl := Option.some.inj hpg'
  have hbuf := h.whole e hborn P hP j hj pg hpg hhas
  rcases hdata with hd | hd
  · rw [hd, hbuf]
  · cases hd.symm.trans hbuf

end

/-- The loop of `fork`. -/
theorem Inv.copyExec (h : w.Inv) {x : Input N} (hx : w.exec e x = some w') (hpc : w.pc e = .copying c pn) : w'.Inv := by
  obtain ⟨hborn, hcopied⟩ := h.copying e c pn hpc
  have hempty : w.map (c, pn) = none := by
    by_contra hne
    obtain ⟨pg, hpg⟩ := Option.ne_none_iff_exists'.1 hne
    exact absurd (hcopied.sub pn pg hpg).1 (Nat.lt_irrefl _)
  rw [exec, hpc] at hx
  dsimp only at hx
  by_cases hlt : pn < ustackPages
  · rw [if_pos hlt] at hx
    by_cases hsome : (w.map (e, pn)).isSome
    · rw [if_pos hsome] at hx
      obtain rfl := Option.some.inj hx
      cases hmap : w.sysPageMap e pn (c, pn) x.mem with
      | some w1 =>
        obtain ⟨pg, hpg, hutop, -, rfl⟩ := sysPageMap_eq_some hmap
        refine h.copied hpc (fun e' => ?_) (h.toMapInv.set hutop fun pg' hpg' => ?_)
          (fun y hy => update_of_ne hy _ _) rfl (Or.inl ?_) fun i _ _ _ => ?_
        · show ((w.set e (c, pn) (some pg)).pc e').mix = _
          by_cases he : e' = e
          · rw [he, set_pc_self]
          · rw [set_pc_of_ne he, mix_mix]
        · obtain rfl := Option.some.inj hpg'
          exact ⟨(h.low _ _ hpg).2, fun P hP hhas => h.placed P hP (e, pn) _ hpg hhas⟩
        · exact (update_self ..).trans hpg.symm
        · exact (update_self ..).trans hpg.symm
      | none =>
        refine h.copied hpc (fun _ => rfl) h.toMapInv (fun _ _ => rfl) rfl (Or.inr hempty) fun i hi heq hfd => ?_
        -- the page table of the child is there, so the call does not fail
        have htable : w.TableFor c pn x.mem := Or.inr ⟨fdPage i, heq ▸ fdPage_mem_sameTable hi, hfd⟩
        obtain ⟨pg, hpg⟩ := Option.isSome_iff_exists.1 hsome
        rw [sysPageMap, if_pos ⟨lt_utopPages hlt, lt_utopPages hlt⟩, hpg] at hmap
        dsimp only at hmap
        rw [if_pos htable] at hmap
        cases hmap
    · rw [if_neg hsome] at hx
      obtain rfl := Option.some.inj hx
      have hnone := Option.not_isSome_iff_eq_none.1 hsome
      exact h.copied hpc (fun _ => rfl) h.toMapInv (fun _ _ => rfl) rfl (Or.inr hempty)
        fun i _ _ _ => hempty.trans hnone.symm
  · split_ifs at hx
    obtain rfl := Option.some.inj hx
    exact h.forked hpc (Nat.le_of_not_lt hlt)

/-- **Every step keeps the invariant.** -/
theorem Inv.exec (h : w.Inv) {x : Input N} (hexec : w.exec e x = some w') : w'.Inv := by
  have hlocal := h.locals e
  have hx := hexec
  have hborn : w.pc e ≠ .born := fun hb => by
    rw [World.exec, hb] at hx
    cases hx
  rw [World.exec] at hx
  revert hlocal hx
  cases hpc : w.pc e with
  | free | born | idle => exact fun _ => nofun
  | pipeFd0 =>
    rintro - hx
    dsimp only at hx
    split at hx
    · obtain rfl := Option.some.inj hx
      exact h.setPc hborn trivial trivial
    · obtain ⟨hi, -⟩ := fdAlloc_eq_some ‹_›
      split_ifs at hx <;> obtain rfl := Option.some.inj hx
      · exact h.allocFd hborn hi ⟨hi, h.own_alloc e _⟩ trivial
      · exact h.setPc hborn trivial trivial
  | pipeFd1 i =>
    rintro ⟨hi, hown⟩ hx
    dsimp only at hx
    split at hx
    · obtain rfl := Option.some.inj hx
      exact h.setPc hborn hi trivial
    · rename_i j hj
      obtain ⟨hj, hnone⟩ := fdAlloc_eq_some hj
      split_ifs at hx <;> obtain rfl := Option.some.inj hx
      · have hij : i ≠ j := by
          rintro rfl
          obtain ⟨pg, hpg, -⟩ := hown
          cases hnone.symm.trans hpg
        exact h.allocFd hborn hj
          ⟨hi, hj, hij, hown.alloc h.toMapInv fun heq => hij (fdPage_inj hj hi heq).symm, h.own_alloc e _⟩ trivial
      · exact h.setPc hborn hi trivial
  | pipeData i j =>
    rintro ⟨hi, hj, hij, hown1, hown2⟩ hx
    dsimp only at hx
    split_ifs at hx <;> obtain rfl := Option.some.inj hx
    · refine h.alloc hborn (lt_utopPages (dataPage_lt hi)) ?_ ⟨⟨hi, hj, hij, hown1.alloc h.toMapInv
        (fdPage_ne_dataPage hi hi).symm, hown2.alloc h.toMapInv (fdPage_ne_dataPage hj hi).symm⟩, ?_⟩ trivial
      · exact Whole.setData (w := { w with next := w.next + 1 }) (h.whole e hborn) hi fun P hP pg hpg =>
          hown1.not_has hP hpg
      · show (update w.map (e, dataPage i) (some w.next) (e, dataPage i)).isSome
        rw [update_self]
        rfl
    · exact h.setPc hborn ⟨hi, hj⟩ trivial
  | pipeMap i j =>
    rintro ⟨⟨hi, hj, hij, hown1, hown2⟩, -⟩ hx
    dsimp only at hx
    split at hx <;> obtain rfl := Option.some.inj hx
    · obtain ⟨pg, hpg, -, -, rfl⟩ := sysPageMap_eq_some ‹_›
      exact h.pipeMade hborn hi hj hij hown1 hown2 hpg
    · exact h.setPc hborn ⟨⟨hi, hj⟩, hown1⟩ trivial
  | pipeErr3 i j =>
    rintro ⟨⟨hi, hj⟩, hown⟩ ⟨⟩
    exact h.unmapData hborn hi (fun P hP pg hpg => hown.not_has hP hpg) ⟨hi, hj⟩ trivial
  | pipeErr2 i j =>
    rintro ⟨hi, hj⟩ ⟨⟩
    exact h.unmapFd hborn hj hi trivial
  | pipeErr1 i =>
    rintro hi ⟨⟩
    exact h.unmapFd hborn hi trivial trivial
  | closeFd i k =>
    rintro ⟨hi, hk⟩ ⟨⟩
    exact h.unmapFd hborn hi ⟨hi, hk, update_self ..⟩ trivial
  | closeData i k =>
    rintro ⟨hi, hk, hnone⟩ ⟨⟩
    refine h.unmapData hborn hi (fun P _ pg hpg => nomatch hnone.symm.trans hpg) ⟨hi, hk, ?_⟩ trivial
    exact (update_of_ne (fun heq => fdPage_ne_dataPage hi hi (congrArg Prod.snd heq)) _ _).trans hnone
  | closeRest i k =>
    rintro ⟨hi, hk, -⟩ ⟨⟩
    cases k with
    | done => exact h.unmapFd hborn hi trivial trivial
    | dup old new => exact h.unmapFd hborn hi ⟨hk.1, i, hi, hk.2, update_self ..⟩ trivial
  | dupData old z =>
    rintro ⟨hold, i, hi, rfl, hnone⟩ hx
    dsimp only at hx
    split_ifs at hx with hsome
    · split at hx <;> obtain rfl := Option.some.inj hx
      · obtain ⟨pg, hpg, -, -, rfl⟩ := sysPageMap_eq_some ‹_›
        exact h.dupData hborn hold hi hnone hpg
      · exact h.setPc hborn ⟨i, hi, rfl⟩ trivial
    · obtain rfl := Option.some.inj hx
      exact h.setPc hborn ⟨hold, i, hi, rfl, Or.inr (Option.not_isSome_iff_eq_none.1 hsome)⟩ trivial
  | dupFd old z =>
    rintro ⟨hold, i, hi, rfl, hdata⟩ hx
    dsimp only at hx
    split at hx <;> obtain rfl := Option.some.inj hx
    · obtain ⟨pg, hpg, -, -, rfl⟩ := sysPageMap_eq_some ‹_›
      exact h.dupFd hborn hold hi hdata hpg
    · exact h.setPc hborn ⟨i, hi, rfl⟩ trivial
  | dupErr1 z =>
    rintro ⟨i, hi, rfl⟩ ⟨⟩
    exact h.unmapFd hborn hi ⟨i, hi, rfl, update_self ..⟩ trivial
  | dupErr2 z =>
    rintro ⟨i, hi, rfl, hnone⟩ ⟨⟩
    exact h.unmapData hborn hi (fun P _ pg hpg => nomatch hnone.symm.trans hpg) trivial trivial
  | forking =>
    rintro - hx
    dsimp only at hx
    split at hx
    · obtain rfl := Option.some.inj hx
      exact h.fork hpc ‹_›
    · cases hx
  | copying c pn => exact fun _ _ => h.copyExec hexec hpc
  | asking i | counting i n | counted i n a m =>
    rintro hi ⟨⟩
    exact h.setPc hborn hi trivial
  | compared i n a b m =>
    rintro hi ⟨⟩
    by_cases hruns : w.runs e = n
    · rw [if_pos hruns]
      exact h.setPc hborn trivial trivial
    · rw [if_neg hruns]
      exact h.setPc hborn hi trivial

/-- An environment begins a call. -/
theorem Inv.call (h : w.Inv) {c : Call} (hpc : w.pc e = .idle) (hdup : ∀ old new, c = .dup old new → 0 ≤ new ∧ new < maxfd) :
    (w.setPc e (w.begin e c)).Inv := by
  have hborn : w.pc e ≠ .born := by rw [hpc]; exact nofun
  cases c with
  | pipe => exact h.setPc hborn trivial trivial
  | close fdnum =>
    rw [begin]
    cases hfd : w.fdLookup e fdnum with
    | none => exact h.setPc hborn trivial trivial
    | some i => exact h.setPc hborn ⟨(fdLookup_eq_some hfd).1, trivial⟩ trivial
  | dup old new =>
    obtain ⟨h0, hlt⟩ := hdup old new rfl
    rw [begin]
    cases hold : w.fdLookup e old with
    | none => exact h.setPc hborn trivial trivial
    | some i =>
      have hi := (fdLookup_eq_some hold).1
      cases hnew : w.fdLookup e new with
      | some j => exact h.setPc hborn ⟨(fdLookup_eq_some hnew).1, hi, (fdLookup_eq_some hnew).2⟩ trivial
      | none =>
        refine h.setPc hborn ⟨hi, new.toNat, by omega, by omega, ?_⟩ trivial
        rw [Int.toNat_of_nonneg h0]
        by_contra hne
        rw [fdLookup, if_pos ⟨h0, hlt, Option.isSome_iff_ne_none.2 hne⟩] at hnew
        cases hnew
  | fork => exact h.setPc hborn trivial trivial
  | pipeisclosed fdnum =>
    rw [begin]
    cases hfd : w.fdLookup e fdnum with
    | none => exact h.setPc hborn trivial trivial
    | some i => exact h.setPc hborn (fdLookup_eq_some hfd).1 trivial

theorem step_call {c : Call} (h : w.step (.call e c) = some w') : w.pc e = .idle ∧ w' = w.setPc e (w.begin e c) := by
  rw [World.step] at h
  split at h
  · exact ⟨‹_›, (Option.some.inj h).symm⟩
  · cases h

theorem Inv.step (h : w.Inv) (hok : w.Careful a) (hstep : w.step a = some w') : w'.Inv := by
  cases a with
  | call e c =>
    obtain ⟨hpc, rfl⟩ := step_call hstep
    refine h.call hpc fun old new hc => ?_
    subst hc
    exact hok
  | run e x => exact h.exec hstep
  | resume e =>
    obtain rfl := Option.some.inj hstep
    exact h.of_kept (C := ∅) (h.toMapInv.congr rfl rfl (Nat.le_refl _) rfl) rfl
      ⟨fun _ _ => rfl, fun _ _ _ => rfl, fun _ _ _ hown => hown, fun _ _ _ _ _ => id⟩ nofun nofun nofun nofun

theorem Start.inv (h : w.Start) : w.Inv := by
  have hno : ∀ {P : Prop}, (∃ P, P ∈ w.pipes) → P := by
    rintro _ ⟨P, hP⟩
    rw [h.pipes] at hP
    cases hP
  have hpc : ∀ e, w.pc e ≠ .born ∧ (∀ c pn, w.pc e ≠ .copying c pn) ∧ w.Local e (w.pc e) := by
    intro e
    rcases h.pc e with he | he <;> rw [he] <;> exact ⟨nofun, nofun, trivial⟩
  refine ⟨⟨fun pg => ?_, fun x pg hx => ?_, fun P hP => hno ⟨P, hP⟩, fun P hP => hno ⟨P, hP⟩, fun P hP => hno ⟨P, hP⟩⟩,
    fun e _ P hP => hno ⟨P, hP⟩, fun e c pn he => absurd he ((hpc e).2.1 c pn),
    fun e _ c pn _ he => absurd he ((hpc e).2.1 c pn), fun e _ pn => h.map _, fun e => (hpc e).2.2⟩
  · rw [h.ref, eq_comm, refCount_eq_zero]
    intro x _ hx
    cases (h.map x).symm.trans hx
  · cases (h.map x).symm.trans hx

/-- **The invariant holds in every careful run.** -/
theorem inv_of_reach (h : (system N).Reach World.Careful w) : w.Inv :=
  h.invariant (fun _ hs => hs.inv) fun _ _ _ hI hok hstep => hI.step hok hstep

/-! ## Counting -/

/-- **The data of a pipe is mapped at least as often as its ends together**, unless some environment has an
end without the data. -/
theorem MapInv.ends_le (h : w.MapInv) (hP : P ∈ w.pipes) (htorn : ¬ w.Torn P) : w.ref P.rd + w.ref P.wr ≤ w.ref P.buf := by
  rw [h.ref, h.ref, h.ref]
  have hinj : Function.Injective fun x : Fin N × ℕ => (x.1, x.2 + maxfd) := by
    rintro ⟨e1, pn1⟩ ⟨e2, pn2⟩ heq
    obtain ⟨he, hpn⟩ := Prod.mk.inj heq
    exact Prod.ext he (Nat.add_right_cancel hpn)
  refine refCount_add_le (h.ends P hP) hinj fun x _ hx => ?_
  obtain ⟨pg, hpg, hhas⟩ : ∃ pg, w.map x = some pg ∧ P.Has pg := by
    rcases hx with hx | hx
    · exact ⟨_, hx, Or.inl rfl⟩
    · exact ⟨_, hx, Or.inr rfl⟩
  obtain ⟨i, hi, hxi⟩ := h.placed P hP x pg hpg hhas
  have hdata : x.2 + maxfd = dataPage i := by
    rw [hxi, fdPage_nat hi, dataPage_nat hi, Nat.add_right_comm]
  rw [hdata]
  have hbuf : w.map (x.1, dataPage i) = some P.buf := by
    by_contra hne
    refine htorn ⟨x.1, i, pg, hi, ?_, hhas, hne⟩
    rw [← hxi]
    exact hpg
  exact ⟨Finset.mem_product.2 ⟨Finset.mem_univ _, Finset.mem_range.2 (h.low _ _ hbuf).1⟩, hbuf⟩

theorem MapInv.ref_pos (h : w.MapInv) (hmapped : w.Mapped pg) : 0 < w.ref pg := by
  obtain ⟨x, hx⟩ := hmapped
  rw [h.ref, refCount_pos]
  exact ⟨x, Finset.mem_product.2 ⟨Finset.mem_univ _, Finset.mem_range.2 (h.low _ _ hx).1⟩, hx⟩

theorem pageref_eq (h : w.map (e, pn) = some pg) : w.pageref e pn = w.ref pg := by rw [pageref, h]

/-- While another environment has the other end, the count of an end is smaller than that of the data. -/
theorem Inv.pageref_lt (h : w.Inv) (hi : i < maxfd) (hheld : w.OtherHeld e i)
    (htorn : ∀ P ∈ w.pipes, ∀ pg, w.map (e, fdPage i) = some pg → P.Has pg → ¬ w.Torn P) :
    w.pageref e (fdPage i) < w.pageref e (dataPage i) := by
  obtain ⟨P, hP, hends⟩ : ∃ P ∈ w.pipes, ∃ mine other, P.Has mine ∧ w.map (e, fdPage i) = some mine ∧
      w.Mapped other ∧ w.ref mine + w.ref other = w.ref P.rd + w.ref P.wr := by
    rcases hheld with ⟨P, hP, ⟨hmap, hother⟩ | ⟨hmap, hother⟩⟩
    · exact ⟨P, hP, _, _, Or.inl rfl, hmap, hother, rfl⟩
    · exact ⟨P, hP, _, _, Or.inr rfl, hmap, hother, Nat.add_comm _ _⟩
  obtain ⟨mine, other, hhas, hmine, hother, hsum⟩ := hends
  have hno := htorn P hP mine hmine hhas
  have hle := h.ends_le hP hno
  have hpos := h.ref_pos hother
  have hbuf : w.map (e, dataPage i) = some P.buf := by
    by_contra hne
    exact hno ⟨e, i, mine, hi, hmine, hhas, hne⟩
  rw [pageref_eq hmine, pageref_eq hbuf]
  omega

/-! ## The answer -/

/-- What the counts that have been read tell, if nothing was mapped or unmapped since the first. -/
def Honest (w : World N) (e : Fin N) : Prop :=
  match w.pc e with
  | .counted i _ a false => a = w.pageref e (fdPage i)
  | .compared _ _ a b false => a ≠ b
  | _ => True

/-- Seen from `e`, some page has been changed, or nothing that it counts. -/
def Seen (w w' : World N) (e : Fin N) : Prop :=
  w'.pc e = (w.pc e).mix ∨ w'.pc e = w.pc e ∧ w'.map = w.map ∧ w'.ref = w.ref

theorem Seen.rfl : Seen w w e := Or.inr ⟨Eq.refl _, Eq.refl _, Eq.refl _⟩

theorem Seen.made {j k : ℕ} (h : Seen w w1 e) : Seen w (w1.made e' j k) e := h

theorem Seen.setPc (h : Seen w w1 e) (hne : e ≠ e') : Seen w (w1.setPc e' pc) e := by
  rcases h with hmix | ⟨hpc, hmap, href⟩
  · exact Or.inl ((setPc_of_ne _ _ hne).trans hmix)
  · exact Or.inr ⟨(setPc_of_ne _ _ hne).trans hpc, hmap, href⟩

theorem seen_set (hne : e ≠ e') : Seen w (w.set e' x v) e := Or.inl (set_pc_of_ne hne)

theorem seen_alloc (hne : e ≠ e') : Seen w (w.alloc e' pn) e := Or.inl (set_pc_of_ne hne)

theorem seen_unmap (hne : e ≠ e') : Seen w (w.unmap e' pn) e := by
  rw [unmap]
  split
  · exact seen_set hne
  · exact Seen.rfl

theorem seen_sysPageMap (hne : e ≠ e') (h : w.sysPageMap e' pn x mem = some w') : Seen w w' e := by
  obtain ⟨pg, -, -, -, rfl⟩ := sysPageMap_eq_some h
  exact seen_set hne

/-- A step of another environment. -/
theorem exec_seen (hinv : w.Inv) (hasks : w.Asks e i) (hne : e ≠ e') (hx : w.exec e' y = some w') :
    Seen w w' e := by
  have hpc : w.pc e ≠ .free ∧ w.pc e ≠ .born := by
    constructor <;> intro hpc <;> rw [Asks, hpc] at hasks <;> exact hasks
  rw [exec] at hx
  split at hx
  case h_4 | h_5 =>
    split at hx
    · exact Option.some.inj hx ▸ Seen.rfl.setPc hne
    · split_ifs at hx
      · exact Option.some.inj hx ▸ (seen_alloc hne).setPc hne
      · exact Option.some.inj hx ▸ Seen.rfl.setPc hne
  case h_6 =>
    split_ifs at hx
    · exact Option.some.inj hx ▸ (seen_alloc hne).setPc hne
    · exact Option.some.inj hx ▸ Seen.rfl.setPc hne
  case h_7 =>
    split at hx
    · exact Option.some.inj hx ▸ (seen_sysPageMap hne ‹_›).made.setPc hne
    · exact Option.some.inj hx ▸ Seen.rfl.setPc hne
  case h_14 =>
    split_ifs at hx
    · split at hx
      · exact Option.some.inj hx ▸ (seen_sysPageMap hne ‹_›).setPc hne
      · exact Option.some.inj hx ▸ Seen.rfl.setPc hne
    · exact Option.some.inj hx ▸ Seen.rfl.setPc hne
  case h_15 =>
    split at hx
    · exact Option.some.inj hx ▸ (seen_sysPageMap hne ‹_›).setPc hne
    · exact Option.some.inj hx ▸ Seen.rfl.setPc hne
  case h_18 =>
    split at hx
    · rename_i hfree
      have hchild : e ≠ y.child := fun heq => hpc.1 (heq ▸ hfree)
      exact Option.some.inj hx ▸ (Seen.rfl.setPc hchild).setPc hne
    · cases hx
  case h_19 c pn hcopying =>
    have hchild : e ≠ c := fun heq => hpc.2 (heq ▸ (hinv.copying e' c pn hcopying).1)
    by_cases hlt : pn < ustackPages
    · rw [if_pos hlt] at hx
      by_cases hsome : (w.map (e', pn)).isSome
      · rw [if_pos hsome] at hx
        cases hmap : w.sysPageMap e' pn (c, pn) y.mem with
        | some w1 =>
          rw [hmap] at hx
          exact Option.some.inj hx ▸ (seen_sysPageMap hne hmap).setPc hne
        | none =>
          rw [hmap] at hx
          exact Option.some.inj hx ▸ Seen.rfl.setPc hne
      · rw [if_neg hsome] at hx
        exact Option.some.inj hx ▸ Seen.rfl.setPc hne
    · split_ifs at hx
      exact Option.some.inj hx ▸ (Seen.rfl.setPc hchild).setPc hne
  all_goals first
    | exact Option.some.inj hx ▸ (seen_unmap hne).setPc hne
    | exact Option.some.inj hx ▸ Seen.rfl.setPc hne
    | cases hx

theorem Honest.seen (h : w.Honest e) (hseen : Seen w w' e) : w'.Honest e := by
  rcases hseen with hmix | ⟨hpc, hmap, href⟩
  · rw [Honest, hmix]
    cases w.pc e <;> trivial
  · have hcount : w'.pageref e = w.pageref e := funext fun pn => by rw [pageref, pageref, hmap, href]
    rw [Honest, hpc, hcount]
    exact h

/-- A step of `_pipeisclosed`. -/
theorem Honest.exec (h : w.Honest e) (hinv : w.Inv) (hasks : w.Asks e i) (hheld : w.OtherHeld e i)
    (hok : w.Careful (.run e y)) (hx : w.exec e y = some w') : w'.Honest e := by
  rw [World.exec] at hx
  rw [Careful] at hok
  rw [Honest] at h
  rw [Asks] at hasks
  have hlocal := hinv.locals e
  cases hpc : w.pc e with
  | asking j =>
    rw [hpc] at hx
    obtain rfl := Option.some.inj hx
    rw [Honest, setPc_self]
    trivial
  | counting j n =>
    rw [hpc] at hx
    obtain rfl := Option.some.inj hx
    rw [Honest, setPc_self]
    exact Eq.refl _
  | counted j n a mixed =>
    rw [hpc] at hx h hok hasks hlocal
    obtain rfl := Option.some.inj hx
    obtain rfl : j = i := hasks
    rw [Honest, setPc_self]
    cases mixed with
    | true => trivial
    | false =>
      -- nothing was changed since the first count, so it is what the count is now
      have hcount : a = w.pageref e (fdPage j) := h
      rw [hcount]
      exact (hinv.pageref_lt hlocal hheld hok).ne
  | compared j n a b mixed =>
    rw [hpc] at hx
    obtain rfl := Option.some.inj hx
    rw [Honest, setPc_self]
    by_cases hruns : w.runs e = n
    · rw [if_pos hruns]
      trivial
    · rw [if_neg hruns]
      trivial
  | _ =>
    rw [hpc] at hasks
    exact hasks.elim

theorem Honest.step (h : w.Honest e) (hinv : w.Inv) (hasks : w.Asks e i) (hheld : w.OtherHeld e i)
    (hok : w.Careful a) (hstep : w.step a = some w') : w'.Honest e := by
  cases a with
  | call e' c =>
    obtain ⟨hidle, rfl⟩ := step_call hstep
    have hne : e ≠ e' := by
      rintro rfl
      rw [Asks, hidle] at hasks
      exact hasks
    exact h.seen (Seen.rfl.setPc hne)
  | run e' y =>
    by_cases hne : e = e'
    · subst hne
      exact h.exec hinv hasks hheld hok hstep
    · exact h.seen (exec_seen hinv hasks hne hstep)
  | resume e' =>
    obtain rfl := Option.some.inj hstep
    exact h

end World

open World

theorem Throughout.inv (h : Throughout World.Careful e i w) : w.Inv ∧ w.Asks e i ∧ w.OtherHeld e i ∧ w.Honest e := by
  induction h with
  | @start w0 w1 fdnum hreach hok hstep hasks hheld =>
    refine ⟨(inv_of_reach hreach).step hok hstep, hasks, hheld, ?_⟩
    obtain ⟨-, rfl⟩ := step_call hstep
    rw [Honest, setPc_self, begin]
    cases w0.fdLookup e fdnum <;> trivial
  | go _ hok hstep hasks hheld ih =>
    obtain ⟨hinv, hasks', hheld', hhonest⟩ := ih
    exact ⟨hinv.step hok hstep, hasks, hheld, hhonest.step hinv hasks' hheld' hok hstep⟩

/-! ## Runs on given inputs -/

/-- Environment 0 runs and the others are free. -/
def World.boot (N : ℕ) : World (N + 1) where
  pc e := if e.val = 0 then .idle else .free
  runs _ := 0#32
  map _ := none
  ref _ := 0
  next := 0
  pipes := []

theorem World.boot_start : (boot N).Start where
  pc e := by
    by_cases he : e.val = 0
    · exact Or.inl (if_pos he)
    · exact Or.inr (if_neg he)
  map _ := rfl
  ref _ := rfl
  pipes := rfl

/-- The state after some events. -/
def World.after (w : World N) (as : List (Event N)) : World N := (as.foldlM World.step w).getD w

theorem foldlM_step (h : (List.foldlM World.step w (a :: as)).isSome) :
    ∃ w1, w.step a = some w1 ∧ (List.foldlM World.step w1 as).isSome ∧ w.after (a :: as) = w1.after as := by
  rw [List.foldlM_cons] at h
  cases hstep : w.step a with
  | none =>
    rw [hstep] at h
    cases h
  | some w1 =>
    rw [hstep] at h
    refine ⟨w1, rfl, h, ?_⟩
    obtain ⟨w2, hw2⟩ := Option.isSome_iff_exists.1 h
    replace hw2 : as.foldlM World.step w1 = some w2 := hw2
    rw [after, after, List.foldlM_cons, hstep, Option.bind_eq_bind, Option.bind_some, hw2]
    rfl

theorem reach_after (h : (system N).Reach (fun _ _ => True) w)
    (hsome : (as.foldlM World.step w).isSome) : (system N).Reach (fun _ _ => True) (w.after as) := by
  induction as generalizing w with
  | nil => exact h
  | cons a as ih =>
    obtain ⟨w1, hw1, hrest, heq⟩ := foldlM_step hsome
    rw [heq]
    exact ih (h.step trivial hw1) hrest

/-- `fork` passes over pages that are not mapped. -/
theorem reach_skip (h : (system N).Reach (fun _ _ => True) w) (hpc : w.pc e = .copying c pn) (hle : pn ≤ q)
    (hq : q ≤ ustackPages) (hnone : ∀ pn', pn ≤ pn' → pn' < q → w.map (e, pn') = none) :
    (system N).Reach (fun _ _ => True) (w.setPc e (.copying c q)) := by
  induction q, hle using Nat.le_induction with
  | base =>
    have hsame : w.setPc e (.copying c pn) = w := by
      rw [setPc, ← hpc, update_eq_self]
    rw [hsame]
    exact h
  | succ q hle ih =>
    have hprev := ih (by omega) fun pn' h1 h2 => hnone pn' h1 (by omega)
    refine hprev.step (a := .run e ⟨true, e⟩) trivial ?_
    show (w.setPc e (.copying c q)).exec e ⟨true, e⟩ = _
    have hmap : ¬ ((w.setPc e (.copying c q)).map (e, q)).isSome := by
      show ¬ (w.map (e, q)).isSome
      rw [hnone q hle (Nat.lt_succ_self q)]
      exact nofun
    rw [exec, setPc_self]
    dsimp only
    rw [if_pos (by omega), if_neg hmap, setPc, setPc, setPc, update_idem]

/-- A call of `_pipeisclosed` in which nothing else happens, up to the comparison. -/
theorem Throughout.undisturbed {ok : World N → Event N → Prop} {fdnum : ℤ} (h : (system N).Reach ok w)
    (hidle : w.pc e = .idle) (hfd : w.fdLookup e fdnum = some i) (hheld : w.OtherHeld e i)
    (hcall : ok w (.call e (.pipeisclosed fdnum)))
    (hrun : ∀ pc : Pc N, (∀ i n a b m, pc ≠ .compared i n a b m) → ok (w.setPc e pc) (.run e y)) :
    Throughout ok e i
      (w.setPc e (.compared i (w.runs e) (w.pageref e (fdPage i)) (w.pageref e (dataPage i)) false)) := by
  have hgo : ∀ {pc pc' : Pc N}, Throughout ok e i (w.setPc e pc) →
      (w.setPc e pc).exec e y = some ((w.setPc e pc).setPc e pc') → (w.setPc e pc').Asks e i →
      (∀ i n a b m, pc ≠ .compared i n a b m) → Throughout ok e i (w.setPc e pc') := by
    intro pc pc' hprev hexec hasks hpc
    rw [setPc, setPc, update_idem] at hexec
    exact hprev.go (hrun pc hpc) hexec hasks hheld
  have hasks : ∀ {pc : Pc N}, (∃ n a b m, pc = .asking i ∨ pc = .counting i n ∨ pc = .counted i n a m ∨
      pc = .compared i n a b m) → (w.setPc e pc).Asks e i := by
    rintro pc ⟨n, a, b, m, rfl | rfl | rfl | rfl⟩ <;> rw [Asks, setPc_self]
  have h1 : Throughout ok e i (w.setPc e (.asking i)) := by
    refine .start h hcall ?_ (hasks (by simp)) hheld
    rw [World.step, hidle]
    rw [begin, hfd]
  have h2 : Throughout ok e i (w.setPc e (.counting i (w.runs e))) := by
    refine hgo h1 ?_ (hasks (by simp)) nofun
    rw [exec, setPc_self]
    rfl
  have h3 : Throughout ok e i (w.setPc e (.counted i (w.runs e) (w.pageref e (fdPage i)) false)) := by
    refine hgo h2 ?_ (hasks (by simp)) nofun
    rw [exec, setPc_self]
    rfl
  refine hgo h3 ?_ (hasks (by simp)) nofun
  rw [exec, setPc_self]
  rfl

/-- Only a fork in progress has an end without the data. -/
theorem World.Inv.not_torn (h : w.Inv) (hP : P ∈ w.pipes) (hborn : ∀ e, w.pc e ≠ .born) : ¬ w.Torn P := by
  rintro ⟨e, i, pg, hi, hpg, hhas, hne⟩
  exact hne (h.whole e (hborn e) P hP i hi pg hpg hhas)

/-- An environment that has made a pipe. -/
def World.piped : World 1 :=
  (boot 0).after [.call 0 .pipe, .run 0 ⟨true, 0⟩, .run 0 ⟨true, 0⟩, .run 0 ⟨true, 0⟩, .run 0 ⟨true, 0⟩]

theorem piped_reach : (system 1).Reach World.Careful piped := by
  let a : Event 1 := .run 0 ⟨true, 0⟩
  have h1 : (system 1).Reach World.Careful ((boot 0).after [.call 0 .pipe]) :=
    .step (a := .call 0 .pipe) (.init boot_start) trivial rfl
  have h2 : (system 1).Reach World.Careful ((boot 0).after [.call 0 .pipe, a]) := h1.step (a := a) trivial rfl
  have h3 : (system 1).Reach World.Careful ((boot 0).after [.call 0 .pipe, a, a]) := h2.step (a := a) trivial rfl
  have h4 : (system 1).Reach World.Careful ((boot 0).after [.call 0 .pipe, a, a, a]) := h3.step (a := a) trivial rfl
  exact h4.step (a := a) trivial rfl

/-- Environment 0 has made a pipe and begins to fork. -/
def World.raceFork : World 3 :=
  (boot 2).after [.call 0 .pipe, .run 0 ⟨true, 0⟩, .run 0 ⟨true, 0⟩, .run 0 ⟨true, 0⟩, .run 0 ⟨true, 0⟩,
    .call 0 .fork, .run 0 ⟨true, 1⟩]

/-- It has copied the Fd pages. -/
def World.raceFds : World 3 := (raceFork.setPc 0 (.copying 1 fdtable)).after [.run 0 ⟨true, 0⟩, .run 0 ⟨true, 0⟩]

/-- It has copied the data pages. -/
def World.raceData : World 3 :=
  (raceFds.setPc 0 (.copying 1 (fdtable + 32))).after [.run 0 ⟨true, 0⟩, .run 0 ⟨true, 0⟩]

/-- The fork is complete; the child closes the end to which one writes, and the parent forks again. -/
def World.raceAgain : World 3 :=
  (raceData.setPc 0 (.copying 1 ustackPages)).after [.run 0 ⟨true, 0⟩, .call 1 (.close 1), .run 1 ⟨true, 0⟩,
    .run 1 ⟨true, 0⟩, .run 1 ⟨true, 0⟩, .call 0 .fork, .run 0 ⟨true, 2⟩]

/-- The parent has copied the end from which one reads to its second child. -/
def World.raceTorn : World 3 := (raceAgain.setPc 0 (.copying 2 fdtable)).after [.run 0 ⟨true, 0⟩]

theorem raceFork_map : raceFork.map =
    update (update (update (update (fun _ => none) (0, fdtable) (some 0))
      (0, fdtable + 1) (some 1)) (0, fdtable + 32) (some 2)) (0, fdtable + 33) (some 2) := rfl

theorem raceFork_none (h0 : q ≠ fdtable) (h1 : q ≠ fdtable + 1) (h2 : q ≠ fdtable + 32) (h3 : q ≠ fdtable + 33) :
    raceFork.map (0, q) = none := by
  have hne : ∀ {q'}, q ≠ q' → ((0, q) : Fin 3 × ℕ) ≠ (0, q') := fun h heq => h (congrArg Prod.snd heq)
  rw [raceFork_map, update_of_ne (hne h3), update_of_ne (hne h2), update_of_ne (hne h1),
    update_of_ne (hne h0)]

/-- The parent has the same pages throughout. -/
theorem race_map (q : ℕ) : raceFds.map (0, q) = raceFork.map (0, q) ∧ raceData.map (0, q) = raceFork.map (0, q) ∧
    raceAgain.map (0, q) = raceFork.map (0, q) := ⟨rfl, rfl, rfl⟩

theorem raceTorn_reach : (system 3).Reach (fun _ _ => True) raceTorn := by
  have h1 : (system 3).Reach (fun _ _ => True) raceFork := reach_after (.init boot_start) (by decide)
  have h2 : (system 3).Reach (fun _ _ => True) raceFds := by
    refine reach_after (reach_skip h1 rfl (Nat.zero_le _) (by decide) fun q _ hq => ?_) (by decide)
    exact raceFork_none (by omega) (by omega) (by omega) (by omega)
  have h3 : (system 3).Reach (fun _ _ => True) raceData := by
    refine reach_after (reach_skip h2 rfl (by decide) (by decide) fun q hle hq => ?_) (by decide)
    rw [(race_map q).1]
    exact raceFork_none (by omega) (by omega) (by omega) (by omega)
  have h4 : (system 3).Reach (fun _ _ => True) raceAgain := by
    refine reach_after (reach_skip h3 rfl (by decide) (by decide) fun q hle hq => ?_) (by decide)
    rw [(race_map q).2.1]
    exact raceFork_none (by omega) (by omega) (by omega) (by omega)
  refine reach_after (reach_skip h4 rfl (Nat.zero_le _) (by decide) fun q _ hq => ?_) (by decide)
  rw [(race_map q).2.2]
  exact raceFork_none (by omega) (by omega) (by omega) (by omega)

/-! ## End of pipe -/

/-- **End of pipe is detected rightly in careful runs.**  When `_pipeisclosed` returns 1, then at some moment
of the call no environment had the other end mapped. -/
theorem pipeisclosed_careful {y : Input N} (h : Throughout World.Careful e i w) (hok : w.Careful (.run e y)) :
    ¬ w.ReturnsOne e := by
  rintro ⟨j, a, mixed, hpc⟩
  obtain ⟨-, -, -, hhonest⟩ := h.inv
  rw [Careful, hpc] at hok
  obtain rfl : mixed = false := hok rfl
  rw [Honest, hpc] at hhonest
  exact hhonest rfl

theorem pipeisclosed_careful_piped : ¬ (piped.setPc 0 (.compared 0 0#32 1 2 false)).ReturnsOne 0 := by
  have hinv := inv_of_reach piped_reach
  have hborn : ∀ e, piped.pc e ≠ .born := by
    intro e
    obtain rfl := Subsingleton.elim e 0
    exact nofun
  have hheld : piped.OtherHeld 0 0 := ⟨⟨0, 1, 2⟩, List.mem_singleton.2 rfl, Or.inl ⟨rfl, (0, fdtable + 1), rfl⟩⟩
  have hfd : piped.fdLookup 0 0 = some 0 := by decide
  have hcall := Throughout.undisturbed (y := ⟨true, 0⟩) piped_reach rfl hfd hheld trivial
    fun pc hpc => ?_
  · exact pipeisclosed_careful (y := ⟨true, 0⟩) hcall fun _ => rfl
  · cases pc with
    | counted i n a m => exact fun P hP _ _ _ => hinv.not_torn hP hborn
    | compared i n a b m => exact absurd rfl (hpc i n a b m)
    | _ => trivial

/-- **A fork hides a writer.**  While a fork has mapped the end from which one reads and not yet the data, both
are mapped three times, and environment 1 is told that the pipe is closed although environment 0 has the other
end all the time. -/
theorem pipeisclosed_fork_race : ∃ w : World 3, Throughout (fun _ _ => True) 1 0 w ∧ w.ReturnsOne 1 := by
  have hheld : raceTorn.OtherHeld 1 0 := ⟨⟨0, 1, 2⟩, List.mem_singleton.2 rfl, Or.inl ⟨rfl, (0, fdtable + 1), rfl⟩⟩
  have hfd : raceTorn.fdLookup 1 0 = some 0 := by decide
  have hcall := Throughout.undisturbed (y := ⟨true, 0⟩) raceTorn_reach rfl hfd hheld trivial
    fun _ _ => trivial
  exact ⟨_, hcall, 0, 3, false, setPc_self ..⟩

end OsLab.Jos.PipeEnds
