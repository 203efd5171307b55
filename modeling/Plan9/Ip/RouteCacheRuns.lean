/-
When the route that a conversation keeps is the one that the tables have.

What a lookup stored is what the search for the same address finds, as long as the
version that stored it does not change (`Inv`). A lookup that takes the kept route
tests only that a counter is the one stored with it: the counter of the other
version may be that too, and the address may be another. Where the kept route was
stored by the same version for the same address, and the version has not changed
since, the lookup returns what it returns with no `Conv`.
-/
import Plan9.Ip.RouteCacheFacts

namespace Plan9.Ip

open Option

variable {w : Ifaces} {net net' : Net} {c : Conv} {s s' : Sys} {v : Version} {la turns : Nat} {r : Option Nat} {found : Found}
  {looked : Looked}

/-! ## What is kept -/

/-- What a search returns. -/
def Found.number : Found → Option Nat
  | .route q => q.map Route.id
  | .noifc => none

/-- The search of the version gets to its end with `r`. -/
def Finds (w : Ifaces) (net : Net) : Version → Nat → Option Nat → Prop
  | .v4, la, r => ∃ turns q net', v4find w net turns la = some (.route q, net') ∧ r = q.map Route.id
  | .v6, la, r => ∃ q, (v6find w net la).1 = .route q ∧ r = q.map Route.id

theorem Finds.like (h : Finds w net v la r) (hlike : Like w v net net') : Finds w net' v la r := by
  cases v with
  | v4 =>
    obtain ⟨turns, q, _, hfind, hr⟩ := h
    obtain ⟨net2, hfind⟩ := hlike.v4find hfind
    exact ⟨turns, q, net2, hfind, hr⟩
  | v6 =>
    obtain ⟨q, hfind, hr⟩ := h
    exact ⟨q, (hlike.v6find la).trans hfind, hr⟩

/-- What is stored is what its search finds, until its version changes. -/
structure Inv (w : Ifaces) (s : Sys) : Prop where
  owned : ∃ own, s.net.fs.Owned own
  stored : ∀ v la g, s.c.stored = some (v, la, g) →
    g ≤ (s.net.fs.table v).generation ∧ (g = (s.net.fs.table v).generation → Finds w s.net v la s.c.r)

theorem Inv.like (h : Inv w ⟨net, c⟩) (howned : ∃ own, net'.fs.Owned own) (hlike : ∀ v, Like w v net net') : Inv w ⟨net', c⟩ := by
  refine ⟨howned, fun v la g hstored => ?_⟩
  obtain ⟨hle, hfinds⟩ := h.stored v la g hstored
  rw [(hlike v).table]
  exact ⟨hle, fun hg => (hfinds hg).like (hlike v)⟩

theorem Inv.store (h : Inv w ⟨net, c⟩) (hfinds : Finds w net v la r) (rgen : Nat) :
    Inv w ⟨net, ⟨r, rgen, some (v, la, (net.fs.table v).generation)⟩⟩ := by
  refine ⟨h.owned, fun v' la' g hstored => ?_⟩
  obtain ⟨rfl, hrest⟩ := Prod.mk.inj (some.inj hstored)
  cases hrest
  exact ⟨le_rfl, fun _ => hfinds⟩

/-! ## Searches -/

theorem v4find_like (hs : ∃ own, net.fs.Owned own) (h : v4find w net turns la = some (found, net')) :
    (∃ own, net'.fs.Owned own) ∧ ∀ v, Like w v net net' := by
  obtain ⟨own, howned⟩ := hs
  rcases v4find_net h with ⟨q, -, hhas, hattach⟩ | ⟨-, rfl⟩
  · exact ⟨⟨own, howned.attach_owned hattach⟩, howned.attach_like hhas hattach⟩
  · exact ⟨⟨own, howned⟩, fun v => ⟨rfl, fun x _ => rfl⟩⟩

theorem v6find_like (hs : ∃ own, net.fs.Owned own) (w : Ifaces) (la : Nat) :
    (∃ own, (v6find w net la).2.fs.Owned own) ∧ ∀ v, Like w v net (v6find w net la).2 := by
  obtain ⟨own, howned⟩ := hs
  rcases @v6find_net w net la with ⟨q, -, hhas, hattach⟩ | ⟨-, heq⟩
  · exact ⟨⟨own, howned.attach_owned hattach⟩, howned.attach_like hhas hattach⟩
  · rw [heq]
    exact ⟨⟨own, howned⟩, fun v => ⟨rfl, fun x _ => rfl⟩⟩

theorem keep_r (t : Table) (c : Option Conv) (res : Found × Net) : (keep v t la c res).r = res.1.number := by
  obtain ⟨found, _⟩ := res
  cases found <;> rfl

variable {a n : Nat} {c' : Conv}

theorem Inv.keep {c : Option Conv} (h : Inv w ⟨net, c.getD c'⟩) (howned : ∃ own, net'.fs.Owned own)
    (hlike : ∀ v, Like w v net net') (hfinds : ∀ q, found = .route q → Finds w net v la (q.map Route.id)) :
    let looked := Ip.keep v (net.fs.table v) la c (found, net')
    Inv w ⟨looked.net, looked.c.getD c'⟩ := by
  have hsame : Inv w ⟨net', c.getD c'⟩ := h.like howned hlike
  cases found with
  | noifc => exact hsame
  | route q =>
    cases c with
    | none => exact hsame
    | some c =>
      have hstore := hsame.store ((hfinds q rfl).like (hlike v)) (net.fs.table v).routegeneration
      rw [(hlike v).table] at hstore
      exact hstore

theorem Inv.v4lookup {c : Option Conv} (h : Inv w ⟨net, c.getD c'⟩) (hl : Ip.v4lookup w turns net la c = some looked) :
    Inv w ⟨looked.net, looked.c.getD c'⟩ := by
  unfold Ip.v4lookup at hl
  split at hl
  · cases hl
    exact h
  · obtain ⟨⟨_, net'⟩, hfind, rfl⟩ := map_eq_some_iff.1 hl
    obtain ⟨howned, hlike⟩ := v4find_like h.owned hfind
    exact h.keep (v := .v4) howned hlike fun q hq => ⟨turns, q, net', hq ▸ hfind, rfl⟩

theorem Inv.v6look {c : Option Conv} (h : Inv w ⟨net, c.getD c'⟩) (la : Nat) :
    Inv w ⟨(Ip.v6look w net la c).net, (Ip.v6look w net la c).c.getD c'⟩ := by
  unfold Ip.v6look
  split
  · exact h
  · obtain ⟨howned, hlike⟩ := v6find_like h.owned w la
    exact h.keep (v := .v6) howned hlike fun q hq => ⟨q, hq, rfl⟩

theorem Inv.v6lookup {c : Option Conv} (h : Inv w ⟨net, c.getD c'⟩) (hl : Ip.v6lookup w turns net la c = some looked) :
    Inv w ⟨looked.net, looked.c.getD c'⟩ := by
  unfold Ip.v6lookup at hl
  split at hl
  · split at hl
    · exact nomatch hl
    rename_i first hfirst
    have hinv := h.v4lookup hfirst
    split at hl
    · cases hl
      exact hinv
    · cases hl
      exact hinv.v6look la
  · cases hl
    exact h.v6look la

/-! ## Runs -/

theorem Inv.init (w : Ifaces) : Inv w Sys.init := by
  refine ⟨⟨fun _ => none, fun v h n => ?_, fun n _ => rfl, rfl⟩, fun v la g h => nomatch h⟩
  cases v <;> exact Nat.zero_le _

theorem Inv.change (h : Inv w s) {call : RouteCall} (hend : (call.run turns s.net.fs).side.queue = []) :
    Inv w { s with net := { s.net with fs := call.run turns s.net.fs } } := by
  obtain ⟨_, howned⟩ := h.owned
  obtain ⟨own', hchanged⟩ := run_grown howned hend
  refine ⟨⟨own', hchanged.owned⟩, fun v la g hstored => ?_⟩
  obtain ⟨hle, hfinds⟩ := h.stored v la g hstored
  by_cases hv : v = call.version
  · rw [hv] at hle ⊢
    rw [hchanged.generation]
    exact ⟨by omega, fun heq => by omega⟩
  have htable := hchanged.other v hv
  rw [htable]
  refine ⟨hle, fun heq => (hfinds heq).like ⟨htable, fun x hx => ?_⟩⟩
  obtain ⟨hh, hx⟩ := hx
  have hifcid := hchanged.ifcid x.id v hh ((howned.trees v).of_mem hx) hv
  rw [attach_isSome, attach_isSome]
  unfold Net.attached
  rw [hifcid]

theorem Inv.overwrite (h : Inv w s) (hdead : ¬ s.net.fs.Live n) (i : Option Nat) :
    Inv w { s with net := { s.net with ifc := Function.update s.net.ifc n i } } := by
  refine ⟨h.owned, fun v la g hstored => ?_⟩
  obtain ⟨hle, hfinds⟩ := h.stored v la g hstored
  refine ⟨hle, fun heq => (hfinds heq).like ⟨rfl, fun x hx => ?_⟩⟩
  have hne : x.id ≠ n := by
    rintro rfl
    obtain ⟨hh, hx⟩ := hx
    cases v with
    | v4 => exact hdead ⟨hh, x, .inl hx, rfl⟩
    | v6 => exact hdead ⟨hh, x, .inr hx, rfl⟩
  rw [attach_isSome, attach_isSome]
  unfold Net.attached
  dsimp only
  rw [Function.update_of_ne hne]

theorem Sys.arg_getD (s : Sys) (conv : Bool) : (s.arg conv).getD s.c = s.c := by
  cases conv <;> rfl

theorem Inv.step {e : Event} (h : Inv w s) (hstep : CacheStep w s e s') : Inv w s' := by
  have harg : ∀ conv, Inv w ⟨s.net, (s.arg conv).getD s.c⟩ := fun conv => by
    rw [s.arg_getD]
    exact h
  cases hstep with
  | change hend => exact h.change hend
  | overwrite hdead => exact h.overwrite hdead _
  | v4lookup hl => exact (harg _).v4lookup hl
  | v6lookup hl => exact (harg _).v6lookup hl

/-! ## What a lookup returns -/

def V4Returns (w : Ifaces) (net : Net) (a : Nat) (c : Option Conv) (r : Option Nat) : Prop :=
  ∃ turns looked, v4lookup w turns net a c = some looked ∧ looked.r = r

def V6Returns (w : Ifaces) (net : Net) (a : Nat) (c : Option Conv) (r : Option Nat) : Prop :=
  ∃ turns looked, v6lookup w turns net a c = some looked ∧ looked.r = r

theorem filter_hit {c : Conv} {t : Table} (h : c.hit net t = true) : (some c).filter (Conv.hit · net t) = some c := by
  rw [Option.filter_some, if_pos h]

theorem filter_miss {c : Conv} {t : Table} (h : c.hit net t = false) : (some c).filter (Conv.hit · net t) = none := by
  rw [Option.filter_some, if_neg (by rw [h]; exact Bool.false_ne_true)]

theorem v4lookup_hit (h : s.c.hit s.net s.net.fs.v4 = true) :
    v4lookup w turns s.net a (some s.c) = some ⟨s.c.r, s.net, some s.c⟩ := by
  unfold v4lookup
  rw [filter_hit h]

theorem v4lookup_miss (h : s.c.hit s.net s.net.fs.v4 = false) :
    v4lookup w turns s.net a (some s.c) = (v4find w s.net turns a).map (keep .v4 s.net.fs.v4 a (some s.c)) := by
  unfold v4lookup
  rw [filter_miss h]

theorem v4lookup_nil : v4lookup w turns net a none = (v4find w net turns a).map (keep .v4 net.fs.v4 a none) := rfl

/-- A lookup takes the kept route only where the same version stored it, for the same address, and has not changed since. -/
def Sys.KeptFor (s : Sys) (v : Version) (a : Nat) : Prop := s.c.stored = some (v, a, (s.net.fs.table v).generation)

theorem Inv.finds (h : Inv w s) (hkept : s.KeptFor v a) : Finds w s.net v a s.c.r := (h.stored v a _ hkept).2 rfl

theorem Inv.v4_transparent (h : Inv w s) (hc : s.c.hit s.net s.net.fs.v4 = true → s.KeptFor .v4 a) :
    V4Returns w s.net a (some s.c) r ↔ V4Returns w s.net a none r := by
  by_cases hhit : s.c.hit s.net s.net.fs.v4 = true
  · obtain ⟨turns0, q, _, hfind, hr⟩ := h.finds (hc hhit)
    constructor
    · rintro ⟨turns, looked, hl, rfl⟩
      rw [v4lookup_hit hhit] at hl
      cases hl
      exact ⟨turns0, _, by rw [v4lookup_nil, hfind]; rfl, hr.symm⟩
    rintro ⟨turns, looked, hl, rfl⟩
    obtain ⟨res, hres, rfl⟩ := map_eq_some_iff.1 hl
    obtain rfl := v4find_unique hfind hres
    exact ⟨0, _, v4lookup_hit hhit, hr⟩
  have hmiss := Bool.eq_false_iff.2 hhit
  constructor
  · rintro ⟨turns, looked, hl, rfl⟩
    rw [v4lookup_miss hmiss] at hl
    obtain ⟨res, hres, rfl⟩ := map_eq_some_iff.1 hl
    exact ⟨turns, _, by rw [v4lookup_nil, hres]; rfl, by rw [keep_r, keep_r]⟩
  · rintro ⟨turns, looked, hl, rfl⟩
    obtain ⟨res, hres, rfl⟩ := map_eq_some_iff.1 hl
    exact ⟨turns, _, by rw [v4lookup_miss hmiss, hres]; rfl, by rw [keep_r, keep_r]⟩

theorem v6look_nil : (v6look w net a none).r = (v6find w net a).1.number := keep_r _ _ _

theorem v6look_miss {c : Conv} (h : c.hit net net.fs.v6 = false) : (v6look w net a (some c)).r = (v6look w net a none).r := by
  unfold v6look
  rw [filter_miss h]
  exact (keep_r _ _ _).trans (keep_r _ _ _).symm

theorem Inv.v6look_transparent (h : Inv w s) (hc : s.c.hit s.net s.net.fs.v6 = true → s.KeptFor .v6 a) :
    (Ip.v6look w s.net a (some s.c)).r = (Ip.v6look w s.net a none).r := by
  by_cases hhit : s.c.hit s.net s.net.fs.v6 = true
  · obtain ⟨q, hfind, hr⟩ := h.finds (hc hhit)
    rw [v6look_nil, hfind]
    unfold Ip.v6look
    rw [filter_hit hhit]
    exact hr
  · exact v6look_miss (Bool.eq_false_iff.2 hhit)

/-- The v4 route of the address has no interface. -/
def NoIfc (w : Ifaces) (net : Net) (la : Nat) : Prop := ∃ turns net', v4find w net turns la = some (.noifc, net')

theorem Inv.v6_miss (h : Inv w s) (hv4 : isv4 a = true) (hmiss : s.c.hit s.net s.net.fs.v4 = false)
    (hc : s.c.hit s.net s.net.fs.v6 = true → NoIfc w s.net (a % 2 ^ 32) → s.KeptFor .v6 a) :
    (Ip.v6lookup w turns s.net a (some s.c)).map Looked.r = (Ip.v6lookup w turns s.net a none).map Looked.r := by
  unfold Ip.v6lookup
  rw [if_pos hv4, if_pos hv4, v4lookup_miss hmiss, v4lookup_nil]
  cases hfind : v4find w s.net turns (a % 2 ^ 32) with
  | none => rfl
  | some res =>
    obtain ⟨_, _⟩ := res
    rcases v4find_net hfind with ⟨q, rfl, -, -⟩ | ⟨rfl | rfl, rfl⟩
    · rfl
    · -- the Conv is left without a route
      exact congrArg some (v6look_miss rfl)
    · exact congrArg some (h.v6look_transparent fun hhit => hc hhit ⟨turns, _, hfind⟩)

theorem Inv.v6_transparent (h : Inv w s)
    (hc4 : isv4 a = true → s.c.hit s.net s.net.fs.v4 = true → s.KeptFor .v4 (a % 2 ^ 32))
    (hc6 : s.c.hit s.net s.net.fs.v6 = true →
      (isv4 a = true → s.c.hit s.net s.net.fs.v4 = false ∧ NoIfc w s.net (a % 2 ^ 32)) → s.KeptFor .v6 a) :
    V6Returns w s.net a (some s.c) r ↔ V6Returns w s.net a none r := by
  by_cases hv4 : isv4 a = true
  · by_cases hhit : s.c.hit s.net s.net.fs.v4 = true
    · obtain ⟨n, hn⟩ : ∃ n, s.c.r = some n := by
        cases hr : s.c.r with
        | none => unfold Conv.hit at hhit; rw [hr] at hhit; exact nomatch hhit
        | some n => exact ⟨n, rfl⟩
      have htake : ∀ turns, Ip.v6lookup w turns s.net a (some s.c) = some ⟨s.c.r, s.net, some s.c⟩ := fun turns => by
        unfold Ip.v6lookup
        rw [if_pos hv4, v4lookup_hit hhit]
        rw [hn]
        rfl
      have hall := @Inv.v4_transparent w s s.c.r _ h (hc4 hv4)
      obtain ⟨turns0, looked0, hl0, hr0⟩ := hall.1 ⟨0, _, v4lookup_hit hhit, rfl⟩
      have hnil : ∀ turns looked, Ip.v4lookup w turns s.net (a % 2 ^ 32) none = some looked →
          Ip.v6lookup w turns s.net a none = some looked := fun turns looked hl => by
        obtain ⟨turns1, looked1, hl1, hr1⟩ := (h.v4_transparent (hc4 hv4)).2 ⟨turns, looked, hl, rfl⟩
        rw [v4lookup_hit hhit] at hl1
        cases hl1
        unfold Ip.v6lookup
        rw [if_pos hv4, hl]
        dsimp only
        rw [← hr1]
        rw [hn]
        rfl
      constructor
      · rintro ⟨turns, looked, hl, rfl⟩
        rw [htake] at hl
        cases hl
        exact ⟨turns0, looked0, hnil turns0 looked0 hl0, hr0⟩
      rintro ⟨turns, looked, hl, rfl⟩
      refine ⟨0, _, htake 0, ?_⟩
      cases hfind : Ip.v4lookup w turns s.net (a % 2 ^ 32) none with
      | none =>
        unfold Ip.v6lookup at hl
        rw [if_pos hv4, hfind] at hl
        exact nomatch hl
      | some first =>
        obtain rfl := some.inj ((hnil turns first hfind).symm.trans hl)
        obtain ⟨turns1, looked1, hl1, hr1⟩ := (h.v4_transparent (hc4 hv4)).2 ⟨turns, first, hfind, rfl⟩
        rw [v4lookup_hit hhit] at hl1
        cases hl1
        exact hr1
    have hmiss := Bool.eq_false_iff.2 hhit
    have hsame := fun turns => @Inv.v6_miss w s turns a h hv4 hmiss fun hhit6 hnoifc => hc6 hhit6 fun _ => ⟨hmiss, hnoifc⟩
    constructor
    · rintro ⟨turns, looked, hl, rfl⟩
      have := hsame turns
      rw [hl] at this
      obtain ⟨looked', hl', hr'⟩ := map_eq_some_iff.1 this.symm
      exact ⟨turns, looked', hl', hr'⟩
    rintro ⟨turns, looked, hl, rfl⟩
    have := hsame turns
    rw [hl] at this
    obtain ⟨looked', hl', hr'⟩ := map_eq_some_iff.1 this
    exact ⟨turns, looked', hl', hr'⟩
  have hplain : ∀ turns c, Ip.v6lookup w turns s.net a c = some (Ip.v6look w s.net a c) := fun turns c => by
    unfold Ip.v6lookup
    rw [if_neg hv4]
  have hsame := h.v6look_transparent fun hhit => hc6 hhit fun hv => absurd hv hv4
  constructor
  · rintro ⟨turns, looked, hl, rfl⟩
    rw [hplain] at hl
    cases hl
    exact ⟨0, _, hplain 0 none, hsame.symm⟩
  rintro ⟨turns, looked, hl, rfl⟩
  rw [hplain] at hl
  cases hl
  exact ⟨0, _, hplain 0 _, hsame⟩

/-! ## Routes that are there -/

theorem Fs.Has.live {f : Fs} {x : Route} (h : f.Has v x) : f.Live x.id := by
  obtain ⟨hh, hx⟩ := h
  cases v with
  | v4 => exact ⟨hh, x, .inl hx, rfl⟩
  | v6 => exact ⟨hh, x, .inr hx, rfl⟩

theorem v4find_live (h : v4find w net turns la = some (found, net')) (hn : found.number = some n) : net.fs.Live n := by
  rcases v4find_net h with ⟨q, rfl, hhas, -⟩ | ⟨rfl | rfl, -⟩
  · cases hn
    exact hhas.live
  · exact nomatch hn
  · exact nomatch hn

theorem v6find_live (hn : (v6find w net la).1.number = some n) : net.fs.Live n := by
  rcases @v6find_net w net la with ⟨q, hq, hhas, -⟩ | ⟨hq | hq, -⟩
  · rw [hq] at hn
    cases hn
    exact hhas.live
  · rw [hq] at hn
    exact nomatch hn
  · rw [hq] at hn
    exact nomatch hn

theorem V4Returns.live (h : V4Returns w net a none (some n)) : net.fs.Live n := by
  obtain ⟨_, _, hl, hr⟩ := h
  obtain ⟨_, hres, rfl⟩ := map_eq_some_iff.1 hl
  rw [keep_r] at hr
  exact v4find_live hres hr

theorem V6Returns.live (h : V6Returns w net a none (some n)) : net.fs.Live n := by
  obtain ⟨turns, _, hl, hr⟩ := h
  unfold v6lookup at hl
  split at hl
  · rw [v4lookup_nil] at hl
    cases hfind : v4find w net turns (a % 2 ^ 32) with
    | none =>
      rw [hfind] at hl
      exact nomatch hl
    | some res =>
      rw [hfind, map_some] at hl
      dsimp only at hl
      split at hl
      · cases hl
        rw [keep_r] at hr
        exact v4find_live hfind hr
      cases hl
      obtain ⟨_, _⟩ := res
      rcases v4find_net hfind with ⟨q, rfl, -, -⟩ | ⟨rfl | rfl, rfl⟩
      · rename_i hnone
        exact absurd rfl hnone
      · exact v6find_live (v6look_nil.symm.trans hr)
      · exact v6find_live (v6look_nil.symm.trans hr)
  · cases hl
    exact v6find_live (v6look_nil.symm.trans hr)

theorem V6Returns.unique {r' : Option Nat} (h : V6Returns w net a none r) (h' : V6Returns w net a none r') : r = r' := by
  obtain ⟨turns, _, hl, rfl⟩ := h
  obtain ⟨turns', _, hl', rfl⟩ := h'
  unfold v6lookup at hl hl'
  by_cases hv4 : isv4 a = true
  · rw [if_pos hv4, v4lookup_nil] at hl hl'
    cases hfind : v4find w net turns (a % 2 ^ 32) with
    | none =>
      rw [hfind] at hl
      exact nomatch hl
    | some res =>
      cases hfind' : v4find w net turns' (a % 2 ^ 32) with
      | none =>
        rw [hfind'] at hl'
        exact nomatch hl'
      | some res' =>
        obtain rfl := v4find_unique hfind hfind'
        rw [hfind] at hl
        rw [hfind'] at hl'
        rw [some.inj (hl.symm.trans hl')]
  · rw [if_neg hv4] at hl hl'
    rw [some.inj (hl.symm.trans hl')]

/-! ## Runs that can be followed -/

/-- What happens, with a number of turns for the loops, but for the memory of freed nodes. -/
def Sys.next (w : Ifaces) (turns : Nat) (s : Sys) : Event → Option Sys
  | .change call =>
    if (call.run turns s.net.fs).side.queue.isEmpty then
      some { s with net := { s.net with fs := call.run turns s.net.fs } }
    else none
  | .overwrite _ _ => none
  | .v4lookup a conv => (v4lookup w turns s.net a.toNat (s.arg conv)).map (Looked.sys s)
  | .v6lookup a conv => (v6lookup w turns s.net a.toNat (s.arg conv)).map (Looked.sys s)

def Sys.run (w : Ifaces) (turns : Nat) (s : Sys) : List Event → Option Sys
  | [] => some s
  | e :: es =>
    match s.next w turns e with
    | none => none
    | some s => s.run w turns es

theorem Sys.next_step {e : Event} (h : s.next w turns e = some s') : CacheStep w s e s' := by
  cases e with
  | change call =>
    unfold Sys.next at h
    dsimp only at h
    split at h
    · rename_i hend
      cases h
      exact .change (List.isEmpty_iff.1 hend)
    · exact nomatch h
  | overwrite n i => exact nomatch h
  | v4lookup a conv =>
    obtain ⟨looked, hl, rfl⟩ := map_eq_some_iff.1 h
    exact .v4lookup hl
  | v6lookup a conv =>
    obtain ⟨looked, hl, rfl⟩ := map_eq_some_iff.1 h
    exact .v6lookup hl

theorem Sys.run_reachable {es : List Event} (hs : Trans.Reachable (· = Sys.init) (CacheStep w) s)
    (h : s.run w turns es = some s') : Trans.Reachable (· = Sys.init) (CacheStep w) s' := by
  induction es generalizing s with
  | nil =>
    cases h
    exact hs
  | cons e es ih =>
    unfold Sys.run at h
    cases hnext : s.next w turns e with
    | none =>
      rw [hnext] at h
      exact nomatch h
    | some s1 =>
      rw [hnext] at h
      exact ih (hs.next (Sys.next_step hnext)) h

/-! ## What a kept route is good for -/

/-- Where a lookup of the address takes the kept route, a lookup of the same version and address stored it, and no
change of the version came since. -/
def Sys.Careful (w : Ifaces) (s : Sys) : Version → Nat → Prop
  | .v4, a => s.c.hit s.net s.net.fs.v4 = true → s.KeptFor .v4 a
  | .v6, a => (isv4 a = true → s.c.hit s.net s.net.fs.v4 = true → s.KeptFor .v4 (a % 2 ^ 32)) ∧
      (s.c.hit s.net s.net.fs.v6 = true →
        (isv4 a = true → s.c.hit s.net s.net.fs.v4 = false ∧ NoIfc w s.net (a % 2 ^ 32)) → s.KeptFor .v6 a)

def Returns (w : Ifaces) (net : Net) : Version → Nat → Option Conv → Option Nat → Prop
  | .v4 => V4Returns w net
  | .v6 => V6Returns w net

/-- An interface on the network 10.1.1.0. -/
def oneIfc : Ifaces := ⟨fun _ => 1, fun gate _ => if gate.take 15 = v4prefix ++ [10, 1, 1] then some 0 else none⟩

/-- ::ffff:10.1.1.5 -/
def mapped : BitVec 128 := 0xffff0a010105#128

/-- A route of each version, and a lookup of an address of the interface's network. -/
def keptRun : List Event :=
  [.change (.v6add [] 0x20010000000000000000000000000001#128 (BitVec.allOnes 128) (List.replicate 16 0) 2),
    .change (.v4add [] 0x0a010100#32 0xffffff00#32 [0, 0, 0, 0] 2),
    .v6lookup mapped true]

/-- After any changes and lookups, a lookup with the `Conv` returns what it returns with none, and that is no route that
has been freed, if it is careful with what the `Conv` has kept. -/
theorem cached_lookup (w : Ifaces) {s : Sys} (hs : Trans.Reachable (· = Sys.init) (CacheStep w) s) (v : Version) (a : Nat)
    (hcareful : s.Careful w v a) :
    (∀ r, Returns w s.net v a (some s.c) r ↔ Returns w s.net v a none r) ∧
      ∀ n, Returns w s.net v a (some s.c) (some n) → s.net.fs.Live n := by
  have hinv : Inv w s := hs.invariant (Inv w) (fun s (hs : s = Sys.init) => hs ▸ Inv.init w) fun s e s' h hstep => h.step hstep
  cases v with
  | v4 =>
    have hsame := fun r => @Inv.v4_transparent w s r a hinv hcareful
    exact ⟨hsame, fun n hn => V4Returns.live ((hsame (some n)).1 hn)⟩
  | v6 =>
    have hsame := fun r => @Inv.v6_transparent w s r a hinv hcareful.1 hcareful.2
    exact ⟨hsame, fun n hn => V6Returns.live ((hsame (some n)).1 hn)⟩

/-- The conversation has its route from the interface's network. -/
theorem cached_lookup_kept :
    ∃ s : Sys, s.c.r = some 1 ∧ (∀ r, Returns oneIfc s.net .v6 mapped.toNat (some s.c) r ↔ Returns oneIfc s.net .v6 mapped.toNat none r) ∧
      ∀ n, Returns oneIfc s.net .v6 mapped.toNat (some s.c) (some n) → s.net.fs.Live n := by
  have hends : (match Sys.init.run oneIfc 3 keptRun with
      | none => false
      | some s => s.c.r == some 1 && s.c.hit s.net s.net.fs.v4 &&
          s.c.stored == some (.v4, mapped.toNat % 2 ^ 32, (s.net.fs.table .v4).generation)) = true := by
    decide +kernel
  cases hrun : Sys.init.run oneIfc 3 keptRun with
  | none =>
    rw [hrun] at hends
    exact nomatch hends
  | some s =>
    rw [hrun] at hends
    rw [Bool.and_eq_true, Bool.and_eq_true, beq_iff_eq, beq_iff_eq] at hends
    obtain ⟨⟨hr, hhit⟩, hstored⟩ := hends
    refine ⟨s, hr, cached_lookup oneIfc (Sys.run_reachable (.start rfl) hrun) .v6 mapped.toNat ⟨fun _ _ => hstored, fun _ hmiss => ?_⟩⟩
    exact nomatch hhit.symm.trans (hmiss rfl).1

/-- Then the network is put under one with a gateway that no interface is attached to, and deleted. -/
def staleRun : List Event :=
  keptRun ++ [.change (.v4add [] 0x0a010000#32 0xffff0000#32 [192, 168, 9, 9] 0), .change (.v4del 0x0a010100#32 0xffffff00#32)]

theorem staleRun_ends :
    (match Sys.init.run oneIfc 3 staleRun with
      | none => false
      | some s => (v6lookup oneIfc 3 s.net mapped.toNat (some s.c)).map Looked.r == some (some 1) &&
          (v6lookup oneIfc 3 s.net mapped.toNat none).map Looked.r == some none &&
          (s.net.fs.v4.root (hash 0x0a010105)).count 1 == 0) = true := by
  decide +kernel

/-- The lookup returns the route that was deleted, number 1, which is in no tree that its address leads to; with no `Conv`
it returns none. -/
theorem v6lookup_stale :
    ∃ s, Trans.Reachable (· = Sys.init) (CacheStep oneIfc) s ∧ (s.net.fs.v4.root (hash 0x0a010105)).count 1 = 0 ∧
      Returns oneIfc s.net .v6 mapped.toNat (some s.c) (some 1) ∧ Returns oneIfc s.net .v6 mapped.toNat none none ∧
      ¬ ∀ r, Returns oneIfc s.net .v6 mapped.toNat (some s.c) r ↔ Returns oneIfc s.net .v6 mapped.toNat none r := by
  have hends := staleRun_ends
  cases hrun : Sys.init.run oneIfc 3 staleRun with
  | none =>
    rw [hrun] at hends
    exact nomatch hends
  | some s =>
    rw [hrun] at hends
    rw [Bool.and_eq_true, Bool.and_eq_true, beq_iff_eq, beq_iff_eq, beq_iff_eq] at hends
    obtain ⟨⟨hconv, hnil⟩, hcount⟩ := hends
    obtain ⟨looked, hl, hr⟩ := Option.map_eq_some_iff.1 hconv
    obtain ⟨looked', hl', hr'⟩ := Option.map_eq_some_iff.1 hnil
    have hnone : V6Returns oneIfc s.net mapped.toNat none none := ⟨3, looked', hl', hr'⟩
    refine ⟨s, Sys.run_reachable (.start rfl) hrun, hcount, ⟨3, looked, hl, hr⟩, hnone, fun hall => ?_⟩
    exact nomatch hnone.unique ((hall (some 1)).1 ⟨3, looked, hl, hr⟩)

end Plan9.Ip
