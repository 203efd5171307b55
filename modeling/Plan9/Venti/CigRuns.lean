/-
Runs of an arena with its groups: clumps written, addresses looked up and groups summed up in any
order, from an empty arena, each with a disk of its own.

A run keeps the groups if each clump finds the directory small enough and gets its block of it
(`Good`): `writeaclump` does not look at what `writeclumpinfo` returns, and a clump without its info is
lost to the groups that are loaded later and to the summaries.
-/
import Plan9.Venti.ArenaRuns
import Plan9.Venti.CigFacts

namespace Plan9.Venti.Cig

open Option List

inductive Event
  | writeaclump (k : Call)
  | arenatog (io : Io) (addr : Nat)
  | asumload (io : Io) (g nentries : Nat)

def Event.io : Event → Io
  | .writeaclump k => k.io
  | .arenatog io _ => io
  | .asumload io _ _ => io

/-- The arena, its groups, and the clumps it accepted. -/
structure CigSys where
  st : ArenaState
  groups : Groups
  log : List Stored

namespace CigSys

def arenaSys (x : CigSys) : ArenaSys := ⟨x.st, x.log⟩

def step (ar : Arena) (x : CigSys) : Event → Option CigSys
  | .writeaclump k =>
    match writeaclump ar k.io x.st x.groups k.c k.clbuf with
    | none => none
    | some (st, gs, none) => some ⟨st, gs, x.log⟩
    | some (st, gs, some aa) =>
      some ⟨st, gs, x.log ++ [⟨aa, storedBytes k.c ((packclump k.c ar.clumpmagic).getD []) k.clbuf, k.c.info⟩]⟩
  | .arenatog io addr => some { x with groups := (arenatog ar io x.st x.groups addr).1 }
  | .asumload io g nentries => some { x with groups := (asumload ar io x.st x.groups g nentries).1 }

def exec (ar : Arena) : List Event → CigSys → Option CigSys
  | [], x => some x
  | e :: es, x =>
    match x.step ar e with
    | none => none
    | some x => exec ar es x

/-- An empty arena, on whatever was on the partition. -/
def empty (part : Nat → UInt8) : CigSys := ⟨⟨⟨0, 0, 0, 0, false⟩, part⟩, ⟨none, 0⟩, []⟩

def GoodEvent (ar : Arena) (x : CigSys) : Event → Prop
  | .writeaclump k => x.st.memstats.isSealed = false → Good ar k.io x.st
  | _ => True

/-- Each clump that comes before the arena is sealed finds the directory small enough and gets its block. -/
def GoodRun (ar : Arena) : List Event → CigSys → Prop
  | [], _ => True
  | e :: es, x => GoodEvent ar x e ∧ ∀ y, x.step ar e = some y → GoodRun ar es y

end CigSys

/-! ## Writing a clump -/

section

variable {ar : Arena} {io : Io} {s s' : ArenaState} {log : List Stored} {c : Clump} {clbuf : List UInt8} {gs gs' : Groups}
  {r : Option Nat}

theorem writeaclump_arena (ar : Arena) (io : Io) (s : ArenaState) (gs : Groups) (c : Clump) (clbuf : List UInt8) :
    (writeaclump ar io s gs c clbuf).map (fun (s, _, r) => (s, r)) = ar.writeaclump io s c clbuf := by
  unfold writeaclump Arena.writeaclump
  by_cases hfull : s.memstats.isSealed = true ∨
      s.memstats.used + (c.info.size + clumpSize + u32Size) + u32Size + ar.arenadirsize (u32 (s.memstats.clumps + 1)) > ar.size
  · rw [if_pos hfull, if_pos hfull]
    split <;> rfl
  rw [if_neg hfull, if_neg hfull]
  cases packclump c ar.clumpmagic with
  | none => rfl
  | some head =>
    dsimp only
    generalize ar.writeBlocks io _ _ _ _ _ = w
    obtain ⟨_, done⟩ := w
    cases done with
    | false => rfl
    | true =>
      dsimp only
      by_cases hwrap : u32 ((s.memstats.clumps : Int) + 1) = 0
      · rw [if_pos hwrap, if_pos hwrap]
        rfl
      · rw [if_neg hwrap, if_neg hwrap]
        rfl

/-- The groups stay if the clump is refused; else they are as `addcig` makes them of the directory there was. -/
theorem writeaclump_groups (hok : ar.Ok) (hal : ar.Aligned) (hl : Logged ar s log) (hg : Good ar io s)
    (hbuf : c.info.size + clumpSize + u32Size ≤ clbuf.length)
    (h : writeaclump ar io s gs c clbuf = some (s', gs', r)) :
    r = none ∧ gs' = gs ∨ r = some s.memstats.used ∧
      ∃ mid, Dir ar mid (log.map Stored.info) ∧ gs' = addcig ar io mid gs log.length s.memstats.used := by
  have hlt := Arena.clumps_lt hok hg.dir
  have hnext : u32 ((s.memstats.clumps : Int) + 1) = s.memstats.clumps + 1 := u32_nat (x := s.memstats.clumps + 1) (by omega)
  have hmono : ar.dirBytes s.memstats.clumps ≤ ar.dirBytes (s.memstats.clumps + 1) := ar.dirBytes_mono (by omega)
  have hsize : 0 < clumpSize := by decide
  unfold writeaclump at h
  dsimp only at h
  rw [hnext, Arena.arenadirsize_eq hg.dir] at h
  split at h
  · split at h
    · cases h
      exact .inl ⟨rfl, rfl⟩
    · cases h
      exact .inl ⟨rfl, rfl⟩
  split at h
  · cases h
    exact .inl ⟨rfl, rfl⟩
  rename_i head hhead
  have hlen := length_clumpBytes (length_packclump hhead) hbuf
  have hroom : s.memstats.used + (Arena.clumpBytes c head clbuf).length + ar.dirBytes (s.memstats.clumps + 1) ≤
      ar.size := by omega
  rw [← hlen] at h
  split at h
  · cases h
    exact .inl ⟨rfl, rfl⟩
  rename_i part hw
  obtain ⟨hframe, -⟩ := writeBlocks_between hok hal (by omega) hroom hw
  cases h
  refine .inr ⟨rfl, ⟨_, part⟩, ⟨?_, ?_, fun i ci hci => ?_⟩, by rw [← hl.clumps]⟩
  · exact hl.clumps.trans (List.length_map _).symm
  · exact hl.small
  obtain ⟨e, he, rfl⟩ : ∃ e, log[i]? = some e ∧ e.info = ci := by
    rw [List.getElem?_map, map_eq_some_iff] at hci
    exact hci
  obtain ⟨hi, -⟩ := List.getElem?_eq_some_iff.mp he
  have habove := hl.info_above hok hi
  rw [← hl.infos i e he]
  exact Memory.load_congr fun x hx _ => hframe x (by omega)

end

/-! ## Runs -/

namespace CigSys

/-- What the groups of an arena are for. -/
structure Grouped (ar : Arena) (x : CigSys) : Prop where
  addr : ∀ i e, x.log[i]? = some e → e.addr = starts (x.log.map Stored.info) i
  loadcig : ∀ cig, x.groups.cig = some cig → ∀ io : Io, (∀ a, io.ok a = true) →
    loadcig ar io x.st ⟨none, 0⟩ = ⟨some cig, x.groups.ncig⟩
  arenatog : ∀ io addr, addr < x.st.memstats.used →
    match arenatog ar io x.st x.groups addr with
    | (gs, none) => gs.ncig = -1
    | (_, some (g, gstart, glimit)) => InGroup (x.log.map Stored.info) x.st.memstats.used addr g gstart glimit
  arenatog_ok : x.groups.ncig ≠ -1 → ∀ io : Io, (∀ a, io.ok a = true) → ∀ addr < x.st.memstats.used,
    (Cig.arenatog ar io x.st x.groups addr).2 ≠ none
  asumload : ∀ io addr g gstart glimit, addr < x.st.memstats.used →
    (Cig.arenatog ar io x.st x.groups addr).2 = some (g, gstart, glimit) →
    ∀ io' nentries, arenaCIGSize ≤ nentries →
      (∀ i, g * arenaCIGSize ≤ i → i < (g + 1) * arenaCIGSize → i < x.log.length → readable ar io' i = true) →
      (asumload ar io' x.st (Cig.arenatog ar io x.st x.groups addr).1 g nentries).2.map (scacheload gstart) =
        some (summary ((x.log.drop (g * arenaCIGSize)).take arenaCIGSize))

section

variable {ar : Arena} {x y : CigSys}

structure Inv (ar : Arena) (x : CigSys) : Prop where
  arena : ArenaSys.Inv ar x.arenaSys
  loaded : Loaded (x.log.map Stored.info) x.groups

theorem Inv.total_take (h : Inv ar x) (i : Nat) : total (x.log.take i) = starts (x.log.map Stored.info) i := by
  unfold total starts
  rw [← List.map_take, List.map_map]
  refine congrArg _ (List.map_congr_left fun f hf => ?_)
  rw [Function.comp_apply, h.arena.size f (List.mem_of_mem_take hf), Nat.add_comm]

theorem Inv.addr (h : Inv ar x) {i : Nat} {e : Stored} (he : x.log[i]? = some e) :
    e.addr = starts (x.log.map Stored.info) i := by
  rw [h.arena.logged.addr i e he]
  exact h.total_take i

theorem Inv.used (h : Inv ar x) : x.st.memstats.used = starts (x.log.map Stored.info) (x.log.map Stored.info).length := by
  have htotal := h.total_take x.log.length
  rw [take_length] at htotal
  rw [length_map, ← htotal]
  exact h.arena.logged.used

theorem Inv.dir (h : Inv ar x) : Dir ar x.st (x.log.map Stored.info) := by
  refine ⟨h.arena.logged.clumps.trans (length_map _).symm, h.arena.logged.small, fun i ci hci => ?_⟩
  obtain ⟨e, he, rfl⟩ : ∃ e, x.log[i]? = some e ∧ e.info = ci := by
    rw [getElem?_map, map_eq_some_iff] at hci
    exact hci
  exact h.arena.logged.infos i e he

theorem inv_empty (hok : ar.Ok) (part : Nat → UInt8) : Inv ar (empty part) :=
  ⟨ArenaSys.inv_empty hok part, .inl ⟨rfl, .inl rfl⟩⟩

theorem step_writeaclump (ar : Arena) (x : CigSys) (k : Call) :
    (x.step ar (.writeaclump k)).map arenaSys = x.arenaSys.step ar k := by
  have harena := writeaclump_arena ar k.io x.st x.groups k.c k.clbuf
  unfold step ArenaSys.step
  rw [show ar.writeaclump k.io x.arenaSys.st k.c k.clbuf = _ from harena.symm]
  dsimp only
  cases writeaclump ar k.io x.st x.groups k.c k.clbuf with
  | none => rfl
  | some res =>
    obtain ⟨_, _, r⟩ := res
    cases r <;> rfl

theorem step_sealed (h : x.st.memstats.isSealed = true) (k : Call) : x.step ar (.writeaclump k) = some x := by
  unfold step writeaclump
  dsimp only
  rw [if_pos (.inl h), if_pos h]

theorem inv_step (hok : ar.Ok) (hal : ar.Aligned) (h : Inv ar x) {e : Event} (hg : GoodEvent ar x e) :
    ∃ y, x.step ar e = some y ∧ Inv ar y ∧
      (x.groups.ncig ≠ -1 → (∀ a, e.io.ok a = true) → y.groups.ncig ≠ -1) := by
  cases e with
  | writeaclump k =>
    cases hsealed : x.st.memstats.isSealed with
    | true => exact ⟨x, step_sealed hsealed k, h, fun hn _ => hn⟩
    | false =>
    replace hg := hg hsealed
    obtain ⟨z, hz, hinv⟩ := ArenaSys.inv_step hok hal h.arena hg
    rw [← step_writeaclump, map_eq_some_iff] at hz
    obtain ⟨y, hy, rfl⟩ := hz
    refine ⟨y, hy, ?_⟩
    unfold step at hy
    dsimp only at hy
    cases hw : writeaclump ar k.io x.st x.groups k.c k.clbuf with
    | none =>
      rw [hw] at hy
      cases hy
    | some res =>
      obtain ⟨_, _, r⟩ := res
      rw [hw] at hy
      have hlogged : Logged ar x.st x.log := h.arena.logged
      rcases writeaclump_groups hok hal hlogged hg k.room hw with ⟨rfl, rfl⟩ | ⟨rfl, _, hmid, rfl⟩
      · cases hy
        exact ⟨⟨hinv, h.loaded⟩, fun hn _ => hn⟩
      cases hy
      have hlen : x.log.length = (x.log.map Stored.info).length := (length_map _).symm
      refine ⟨⟨hinv, ?_⟩, fun hn hio => ?_⟩
      · rw [map_append, map_singleton, h.used, hlen]
        exact addcig_loaded hok hmid h.loaded k.c.info
      · rw [hlen]
        exact addcig_ncig hok hmid hio h.loaded hn _
  | arenatog io addr =>
    refine ⟨_, rfl, ⟨h.arena, ?_⟩, fun hn hio => ?_⟩
    · rw [arenatog_groups]
      exact (ready_of_loaded hok h.dir h.loaded).loaded
    · rw [arenatog_groups]
      exact ensured_ncig hok h.dir hio h.loaded hn
  | asumload io g nentries =>
    refine ⟨_, rfl, ⟨h.arena, ?_⟩, fun hn hio => ?_⟩
    · rcases asumload_groups ar io x.st x.groups g nentries with hgs | hgs
      · rw [hgs]
        exact h.loaded
      · rw [hgs]
        exact (ready_of_loaded hok h.dir h.loaded).loaded
    rcases asumload_groups ar io x.st x.groups g nentries with hgs | hgs
    · rw [hgs]
      exact hn
    · rw [hgs]
      exact ensured_ncig hok h.dir hio h.loaded hn

theorem inv_exec (hok : ar.Ok) (hal : ar.Aligned) {es : List Event} (h : Inv ar x) (hg : GoodRun ar es x) :
    ∃ y, exec ar es x = some y ∧ Inv ar y ∧
      (x.groups.ncig ≠ -1 → (∀ e ∈ es, ∀ a, e.io.ok a = true) → y.groups.ncig ≠ -1) := by
  induction es generalizing x with
  | nil => exact ⟨x, rfl, h, fun hn _ => hn⟩
  | cons e es ih =>
    obtain ⟨y, hstep, hy, hncig⟩ := inv_step hok hal h hg.1
    obtain ⟨z, hexec, hz, hncig'⟩ := ih hy (hg.2 y hstep)
    refine ⟨z, ?_, hz, fun hn hio => hncig' (hncig hn (hio e (.head _))) fun e' he' => hio e' (.tail _ he')⟩
    rw [exec, hstep]
    exact hexec

theorem grouped_of_inv (hok : ar.Ok) (h : Inv ar x) : Grouped ar x := by
  have htog := fun io addr => @arenatog_spec _ addr ar io x.st _ hok h.dir h.loaded h.used
  refine ⟨fun i e he => h.addr he, fun cig hcig io hio => ?_, fun io addr haddr => ?_, fun hn io hio addr haddr => ?_,
    fun io addr g gstart glimit haddr heq io' nentries hne hread => ?_⟩
  · rcases h.loaded with ⟨hnone, _⟩ | ⟨hsome, hncig⟩
    · rw [hnone] at hcig
      cases hcig
    rw [hsome] at hcig
    cases hcig
    rw [hncig]
    exact loadcig_ok hok h.dir hio (.inl ⟨rfl, .inl rfl⟩) (by decide)
  · obtain ⟨-, hspec⟩ := htog io addr
    replace hspec := hspec haddr
    generalize arenatog ar io x.st x.groups addr = res at hspec ⊢
    obtain ⟨_, _ | ⟨g, gstart, glimit⟩⟩ := res
    · exact hspec
    · exact hspec
  · intro hnone
    obtain ⟨-, hspec⟩ := htog io addr
    replace hspec := hspec haddr
    rw [hnone, arenatog_groups] at hspec
    exact ensured_ncig hok h.dir hio h.loaded hn hspec
  obtain ⟨hready, hspec⟩ := htog io addr
  replace hspec := hspec haddr
  rw [heq] at hspec
  have hsome := arenatog_some heq
  have hkeep : (asumload ar io' x.st (Cig.arenatog ar io x.st x.groups addr).1 g nentries).1 =
      (Cig.arenatog ar io x.st x.groups addr).1 := by
    rcases asumload_groups ar io' x.st (Cig.arenatog ar io x.st x.groups addr).1 g nentries with hgs | hgs
    · exact hgs
    · rw [hgs, hsome, if_neg Bool.false_ne_true]
  have hlt := hspec.lt
  rw [length_map] at hlt
  obtain ⟨-, hsum⟩ :=
    @asumload_spec _ ar io' x.st x.log hok h.dir (fun i e he => h.addr he) hready.loaded g nentries hne
  cases hload : (asumload ar io' x.st (Cig.arenatog ar io x.st x.groups addr).1 g nentries).2 with
  | none =>
    rw [hload, hkeep] at hsum
    rcases hready with ⟨hcig, _⟩ | ⟨_, hncig⟩
    · rw [hcig] at hsome
      cases hsome
    · omega
  | some entries =>
    rw [hload] at hsum
    obtain ⟨m, hm, hentries, hend⟩ := hsum
    rw [map_some, hspec.start, hentries]
    rcases Nat.lt_or_eq_of_le hm with hlt | rfl
    · -- the end of the log ended it
      have hpast : x.log.length ≤ g * arenaCIGSize + m := by
        by_contra hin
        refine absurd (hend hlt) (not_or.mpr ⟨fun hno => ?_, hin⟩)
        rw [hread _ (Nat.le_add_right _ _) (by rw [Nat.add_mul, Nat.one_mul]; omega) (by omega)] at hno
        cases hno
      rw [take_of_length_le (by rw [length_drop]; omega), take_of_length_le (by rw [length_drop]; omega)]
    · rfl

/-- **The groups of an arena**: a run that keeps the directory small and gets its blocks keeps them. -/
theorem cig_kept (hok : ar.Ok) (hal : ar.Aligned) {part : Nat → UInt8} {es : List Event} (hg : GoodRun ar es (empty part)) :
    ∃ y, exec ar es (empty part) = some y ∧ Grouped ar y ∧
      (y.groups.ncig = -1 → ∃ e ∈ es, ∃ a, e.io.ok a = false) := by
  obtain ⟨y, hy, hinv, hncig⟩ := inv_exec hok hal (inv_empty hok part) hg
  refine ⟨y, hy, grouped_of_inv hok hinv, fun hlost => ?_⟩
  by_contra hall
  refine hncig (show (0 : Int) ≠ -1 by decide) (fun e he a => ?_) hlost
  by_contra hno
  exact hall ⟨e, he, a, Bool.eq_false_of_not_eq_true hno⟩

end

/-! ## A clump without its info -/

/-- A disk that has lost the block at `lost`. -/
def lostIo (lost : Nat) : Io := ⟨fun a => a ≠ lost, fun _ => 0⟩

/-- Two empty clumps, the block of the directory being lost for the second. -/
def lostRun : List Event := [.writeaclump ArenaSys.emptyClump, .writeaclump { ArenaSys.emptyClump with io := lostIo 2088960 }]

theorem cig_kept_two : ∃ y, exec ArenaSys.smallArena
      [.writeaclump ArenaSys.emptyClump, .arenatog ArenaSys.allOk 10] (empty fun _ => 0) = some y ∧
    Grouped ArenaSys.smallArena y ∧ (y.groups.ncig = -1 →
      ∃ e ∈ [Event.writeaclump ArenaSys.emptyClump, .arenatog ArenaSys.allOk 10], ∃ a, e.io.ok a = false) :=
  cig_kept ArenaSys.smallArena_ok ⟨by decide, by decide⟩ ⟨fun _ => ⟨by decide, rfl⟩, fun _ _ => ⟨trivial, fun _ _ => trivial⟩⟩

theorem arenatog_one (ar : Arena) (io : Io) (s : ArenaState) (addr : Nat) :
    (arenatog ar io s ⟨some [0], 1⟩ addr).2 = some (0, 0, s.memstats.used) := by
  have hrange := Bisect.last_range (p := fun m => decide ([0].getD m.toNat 0 ≤ addr)) (l := 1) (r := 1 - 1) (by decide)
  have hzero : (Bisect.last (fun m => decide ([0].getD m.toNat 0 ≤ addr)) 1 (1 - 1)).toNat = 0 := by omega
  unfold arenatog
  dsimp only [Option.isNone_some]
  rw [if_neg Bool.false_ne_true]
  dsimp only
  rw [if_neg (by decide), hzero]
  rfl

/-- Address 40 is in group 0, which has two clumps, and one is summed up. -/
theorem cig_lost : ∃ y, exec ArenaSys.smallArena lostRun (empty fun _ => 0) = some y ∧
    (arenatog ArenaSys.smallArena ArenaSys.allOk y.st y.groups 40).2 = some (0, 0, 76) ∧
    (asumload ArenaSys.smallArena ArenaSys.allOk y.st
        (arenatog ArenaSys.smallArena ArenaSys.allOk y.st y.groups 40).1 0 arenaCIGSize).2.map (scacheload 0) ≠
      some (summary ((y.log.drop 0).take arenaCIGSize)) := by
  have hsome : (exec ArenaSys.smallArena lostRun (empty fun _ => 0)).isSome := by decide
  obtain ⟨y, hy⟩ := Option.isSome_iff_exists.1 hsome
  have hgroups : (exec ArenaSys.smallArena lostRun (empty fun _ => 0)).map (fun y => (y.groups, y.st.memstats.used)) =
      some (⟨some [0], 1⟩, 76) := by decide
  have hsums : (exec ArenaSys.smallArena lostRun (empty fun _ => 0)).map (fun y =>
      (((asumload ArenaSys.smallArena ArenaSys.allOk y.st ⟨some [0], 1⟩ 0 arenaCIGSize).2.map (scacheload 0)).map length,
        (summary ((y.log.drop 0).take arenaCIGSize)).length)) = some (some 1, 2) := by decide
  rw [hy, Option.map_some, Option.some_inj, Prod.mk.injEq] at hgroups hsums
  obtain ⟨hgs, hused⟩ := hgroups
  have htog : (arenatog ArenaSys.smallArena ArenaSys.allOk y.st y.groups 40).1 = ⟨some [0], 1⟩ := by
    rw [arenatog_groups, hgs]
    rfl
  refine ⟨y, hy, by rw [hgs, arenatog_one, hused], fun heq => ?_⟩
  rw [htog] at heq
  rw [heq, Option.map_some, hsums.2] at hsums
  exact absurd hsums.1 (by decide)

end CigSys

end Plan9.Venti.Cig
