/-
The tags of routes, and `flush tag` (`routeflush`, `routewrite` in `9/ip/iproute.c`).

A flush deletes one route in each walk over a tree, in all the trees that its prefix is in,
until no route of the tree has the tag. The routes that a walk can find are the keys of the
tree, and there is one less after each (`flushLoop_spec`). A channel has its tag with blanks up to
four bytes, but a flush compares what it is given as a C string.
-/
import Mathlib.Data.Finset.Card
import Plan9.Ip.RouteCache

namespace Plan9.Ip

open Function Option Prefixes List

/-- The `tag` of an `IPaux`. -/
def newipaux (tag : List UInt8) : List UInt8 := (tag ++ List.replicate 4 32).take 4

/-- `strncmp(s, t, n) == 0` -/
def strncmp : Nat → List UInt8 → List UInt8 → Bool
  | 0, _, _ => true
  | n + 1, s, t => s.headD 0 == t.headD 0 && (s.headD 0 == 0 || strncmp n s.tail t.tail)

/-- The mask of `convroute` is that of the range. -/
def delroute (turns : Nat) (f : Fs) (r : Route) : Fs :=
  if r.type.testBit 0 then
    v4delroute turns f (BitVec.ofNat 32 r.address) (~~~(BitVec.ofNat 32 r.endaddress ^^^ BitVec.ofNat 32 r.address))
  else v6delroute turns f (BitVec.ofNat 128 r.address) (~~~(BitVec.ofNat 128 r.endaddress ^^^ BitVec.ofNat 128 r.address))

/-- Whether a flush deletes the route. -/
def Entry.flushed (tag : Option (List UInt8)) (e : Entry) : Bool :=
  rifc e.type == false && (match tag with | none => true | some t => strncmp 4 t e.tag)

/-- The route that `routeflush` deletes. It returns 0 where there is none. -/
def routeflush (tag : Option (List UInt8)) : RTree → Option Route
  | .nil => none
  | .node p _ l m r =>
    match routeflush tag m with
    | some x => some x
    | none =>
      match routeflush tag l with
      | some x => some x
      | none =>
        match routeflush tag r with
        | some x => some x
        | none => if p.entry.flushed tag then some p else none

def Fs.root (f : Fs) : Version → Nat → RTree
  | .v4 => f.v4.root
  | .v6 => f.v6.root

/-- `for(changed = 1; changed;)`, a number of turns. -/
def flushLoop (turns : Nat) (tag : Option (List UInt8)) (v : Version) (h : Nat) : Nat → Fs → Option Fs
  | 0, _ => none
  | n + 1, f =>
    match routeflush tag (f.root v h) with
    | none => some f
    | some r => flushLoop turns tag v h n (delroute turns f r)

/-- A `flush` command. Each loop gets a turn more than there are routes in its tree. -/
def flush (turns : Nat) (tag : Option (List UInt8)) (f : Fs) : Option Fs :=
  [Version.v4, .v6].foldlM (fun f v =>
    (List.range 1024).foldlM (fun f h => flushLoop turns tag v h ((f.root v h).routes.length + 1) f) f) f

/-! ## One tree -/

theorem routeflush_mem {tag : Option (List UInt8)} {t : RTree} {x : Route} (h : routeflush tag t = some x) :
    x ∈ t.routes ∧ x.entry.flushed tag = true := by
  induction t with
  | nil => cases h
  | node p d l m r ihl ihm ihr =>
    rw [RTree.mem_routes_node]
    rw [routeflush] at h
    split at h
    · rename_i y hy
      cases h
      exact ⟨.inr (.inr (.inl (ihm hy).1)), (ihm hy).2⟩
    split at h
    · rename_i y hy
      cases h
      exact ⟨.inr (.inl (ihl hy).1), (ihl hy).2⟩
    split at h
    · rename_i y hy
      cases h
      exact ⟨.inr (.inr (.inr (ihr hy).1)), (ihr hy).2⟩
    split at h
    · rename_i hp
      cases h
      exact ⟨.inl rfl, hp⟩
    · cases h

theorem routeflush_none {tag : Option (List UInt8)} {t : RTree} (h : routeflush tag t = none) :
    ∀ x ∈ t.routes, x.entry.flushed tag = false := by
  induction t with
  | nil => exact fun x hx => nomatch hx
  | node p d l m r ihl ihm ihr =>
    intro x hx
    rw [RTree.mem_routes_node] at hx
    rw [routeflush] at h
    split at h
    · cases h
    rename_i hm
    split at h
    · cases h
    rename_i hl
    split at h
    · cases h
    rename_i hr
    split at h
    · cases h
    rename_i hp
    rcases hx with rfl | hx | hx | hx
    · exact Bool.not_eq_true _ ▸ hp
    · exact ihl hl x hx
    · exact ihm hm x hx
    · exact ihr hr x hx

/-! ## What is known of the routes -/

def Version.width : Version → Nat
  | .v4 => 32
  | .v6 => 128

def Routes.set (R : Routes) : Version → RouteSet
  | .v4 => R.v4
  | .v6 => R.v6

/-- The tag of the last addition of each prefix. -/
abbrev Tags := Version → Nat × Nat → Option (List UInt8)

/-- The route of the prefix `k`, of the version `v`. -/
structure Made (v : Version) (k : Nat × Nat) (tag : Option (List UInt8)) (e : Entry) : Prop where
  range : ∃ a mask : BitVec v.width, Contiguous mask ∧ k = rangeOf a mask
  version : e.type.testBit 0 = decide (v = .v4)
  once : rifc e.type = false → e.count = 1
  tag : rifc e.type = false → tag = some e.tag
  size : e.tag.length = 4

def Routes.Made (R : Routes) (tags : Tags) : Prop := ∀ v k e, R.set v k = some e → Ip.Made v k (tags v k) e

theorem rangeOf_range {w : Nat} (a mask : BitVec w) :
    rangeOf (BitVec.ofNat w (rangeOf a mask).1)
      (~~~(BitVec.ofNat w (rangeOf a mask).2 ^^^ BitVec.ofNat w (rangeOf a mask).1)) = rangeOf a mask ∧
    ~~~(BitVec.ofNat w (rangeOf a mask).2 ^^^ BitVec.ofNat w (rangeOf a mask).1) = mask := by
  have hmask : ~~~((a ||| ~~~mask) ^^^ (a &&& mask)) = mask := by
    ext i hi
    simp only [BitVec.getElem_not, BitVec.getElem_xor, BitVec.getElem_or, BitVec.getElem_and]
    cases a[i] <;> cases mask[i] <;> rfl
  have hand : a &&& mask &&& mask = a &&& mask := by rw [BitVec.and_assoc, BitVec.and_self]
  have hor : a &&& mask ||| ~~~mask = a ||| ~~~mask := by
    ext i hi
    simp only [BitVec.getElem_not, BitVec.getElem_or, BitVec.getElem_and]
    cases a[i] <;> cases mask[i] <;> rfl
  simp only [rangeOf, BitVec.ofNat_toNat, BitVec.setWidth_eq, hmask, hand, hor]
  exact ⟨trivial, trivial⟩

variable {f f' : Fs} {R R' : Routes} {tags : Tags} {turns h : Nat} {tag : Option (List UInt8)} {v : Version} {x : Route}

theorem Fs.Holds.tree (hf : f.Holds R) (v : Version) (h : Nat) : Ip.Holds (f.root v h) (R.set v) h := by
  cases v with
  | v4 => exact hf.v4.tree h
  | v6 => exact hf.v6.tree h

theorem Fs.Holds.delroute (hturns : 3 ≤ turns) (hf : f.Holds R) (hmade : R.Made tags) (hx : x ∈ (f.root v h).routes)
    (hifc : rifc x.type = false) :
    ∃ R', (delroute turns f x).Holds R' ∧ ∀ u, R'.set u = if u = v then update (R.set v) x.key none else R.set u := by
  have hentry := (hf.tree v h).entry hx
  obtain ⟨⟨a, mask, hmask, hkey⟩, hversion, honce, -, -⟩ := hmade v x.key x.entry hentry
  have hdel : (R.set v).del x.key = update (R.set v) x.key none := by
    rw [RouteSet.del, hentry]
    dsimp only
    rw [if_pos (by rw [honce hifc])]
  obtain ⟨hrange, hback⟩ := rangeOf_range a mask
  rw [← hkey] at hrange hback
  unfold Ip.delroute
  cases v with
  | v4 =>
    rw [if_pos (show x.type.testBit 0 = true from hversion)]
    refine ⟨_, @Fs.Holds.run f R (.v4del _ _) turns hturns hf (show Contiguous _ from hback.symm ▸ hmask), fun u => ?_⟩
    cases u with
    | v4 =>
      rw [if_pos rfl, ← hdel]
      exact congrArg R.v4.del hrange
    | v6 => rfl
  | v6 =>
    rw [if_neg (show ¬ x.type.testBit 0 = true from Bool.not_eq_true _ ▸ hversion)]
    refine ⟨_, @Fs.Holds.run f R (.v6del _ _) turns hturns hf (show Contiguous _ from hback.symm ▸ hmask), fun u => ?_⟩
    cases u with
    | v4 => rfl
    | v6 =>
      rw [if_pos rfl, ← hdel]
      exact congrArg R.v6.del hrange

/-- Some of the flushed routes are gone. -/
def Pruned (tag : Option (List UInt8)) (R R' : Routes) : Prop :=
  ∀ v k, R'.set v k = R.set v k ∨ R'.set v k = none ∧ ∃ e, R.set v k = some e ∧ e.flushed tag = true

theorem Pruned.refl : Pruned tag R R := fun _ _ => .inl rfl

theorem Pruned.trans {R'' : Routes} (h : Pruned tag R R') (h' : Pruned tag R' R'') : Pruned tag R R'' := by
  intro v k
  rcases h' v k with heq | ⟨hnone, e, he, hflushed⟩
  · rw [heq]
    exact h v k
  rcases h v k with heq | ⟨hgone, -⟩
  · exact .inr ⟨hnone, e, heq ▸ he, hflushed⟩
  · rw [hgone] at he
    cases he

theorem Pruned.entry (h : Pruned tag R R') {k : Nat × Nat} {e : Entry} (he : R'.set v k = some e) : R.set v k = some e := by
  rcases h v k with heq | ⟨hnone, -⟩
  · rw [← heq, he]
  · rw [hnone] at he
    cases he

theorem Pruned.made (h : Pruned tag R R') (hmade : R.Made tags) : R'.Made tags := fun v k e he => hmade v k e (h.entry he)

theorem flushLoop_spec (tag : Option (List UInt8)) (hturns : 3 ≤ turns) (n : Nat) (hf : f.Holds R) (hmade : R.Made tags)
    (hn : ((f.root v h).routes.map Route.key).toFinset.card < n) :
    ∃ f' R', flushLoop turns tag v h n f = some f' ∧ f'.Holds R' ∧ Pruned tag R R' ∧
      ∀ k e, R'.set v k = some e → h ∈ hashes k.1 k.2 → e.flushed tag = false := by
  induction n generalizing f R with
  | zero => cases hn
  | succ n ih =>
    rw [flushLoop]
    cases hx : routeflush tag (f.root v h) with
    | none =>
      refine ⟨f, R, rfl, hf, .refl, fun k e he hh => ?_⟩
      obtain ⟨y, hy, rfl, rfl⟩ := ((hf.tree v h).mem k e).2 ⟨he, hh⟩
      exact routeflush_none hx y hy
    | some x =>
      obtain ⟨hmem, hflushed⟩ := routeflush_mem hx
      have hifc : rifc x.type = false := beq_iff_eq.1 (Bool.and_eq_true_iff.1 hflushed).1
      have hentry := (hf.tree v h).entry hmem
      obtain ⟨R1, hf1, hR1⟩ := hf.delroute hturns hmade hmem hifc
      have hcut : Pruned tag R R1 := by
        intro u k
        rw [hR1]
        split
        · rename_i hu
          by_cases hk : k = x.key
          · rw [hk, hu, update_self]
            exact .inr ⟨rfl, x.entry, hentry, hflushed⟩
          · rw [hu, update_of_ne hk]
            exact .inl rfl
        · exact .inl rfl
      -- The keys of the tree are those it had, less that of `x`.
      have hkeys : (((Ip.delroute turns f x).root v h).routes.map Route.key).toFinset ⊆
          (((f.root v h).routes.map Route.key).toFinset).erase x.key := by
        intro k hk
        obtain ⟨y, hy, rfl⟩ := mem_map.1 (mem_toFinset.1 hk)
        obtain ⟨hy', hh⟩ := ((hf1.tree v h).mem _ _).1 ⟨y, hy, rfl, rfl⟩
        obtain ⟨z, hz, hzk, -⟩ := ((hf.tree v h).mem _ _).2 ⟨hcut.entry hy', hh⟩
        refine Finset.mem_erase.2 ⟨fun heq => ?_, mem_toFinset.2 (mem_map.2 ⟨z, hz, hzk⟩)⟩
        rw [hR1, if_pos rfl, heq, update_self] at hy'
        cases hy'
      have hlt := Finset.card_erase_lt_of_mem (mem_toFinset.2 (mem_map_of_mem (f := Route.key) hmem))
      have hle := Finset.card_le_card hkeys
      obtain ⟨f', R', hloop, hf', hcut', hclean⟩ := ih hf1 (hcut.made hmade) (by omega)
      exact ⟨f', R', hloop, hf', hcut.trans hcut', hclean⟩

/-! ## A flush -/

def Clean (tag : Option (List UInt8)) (R : RouteSet) (h : Nat) : Prop :=
  ∀ k e, R k = some e → h ∈ hashes k.1 k.2 → e.flushed tag = false

theorem flushTrees_spec (tag : Option (List UInt8)) (v : Version) (hturns : 3 ≤ turns) (hs : List Nat) (hf : f.Holds R) (hmade : R.Made tags) :
    ∃ f' R', hs.foldlM (fun f h => flushLoop turns tag v h ((f.root v h).routes.length + 1) f) f = some f' ∧ f'.Holds R' ∧
      Pruned tag R R' ∧ ∀ h ∈ hs, Clean tag (R'.set v) h := by
  induction hs generalizing f R with
  | nil => exact ⟨f, R, rfl, hf, .refl, fun h hh => nomatch hh⟩
  | cons h hs ih =>
    have hcard : ((f.root v h).routes.map Route.key).toFinset.card < (f.root v h).routes.length + 1 := by
      have hle : ((f.root v h).routes.map Route.key).toFinset.card ≤ _ := toFinset_card_le _
      rw [length_map] at hle
      omega
    obtain ⟨_, _, hloop, hf1, hcut1, hclean⟩ := flushLoop_spec tag hturns _ hf hmade hcard
    obtain ⟨f', R', hrest, hf', hcut', hcleans⟩ := ih hf1 (hcut1.made hmade)
    refine ⟨f', R', ?_, hf', hcut1.trans hcut', fun h' hh' => ?_⟩
    · rw [foldlM_cons, hloop]
      exact hrest
    · rcases mem_cons.1 hh' with rfl | hh'
      · exact fun k e he => hclean k e (hcut'.entry he)
      · exact hcleans h' hh'

/-- A flush ends, and takes the routes that compare equal. -/
theorem flush_spec (tag : Option (List UInt8)) (hturns : 3 ≤ turns) (hf : f.Holds R) (hmade : R.Made tags) :
    ∃ f' R', flush turns tag f = some f' ∧ f'.Holds R' ∧ ∀ v k, R'.set v k = (R.set v k).filter fun e => !e.flushed tag := by
  obtain ⟨_, _, h1, hf1, hcut1, hclean1⟩ := flushTrees_spec tag .v4 hturns (range 1024) hf hmade
  obtain ⟨f2, R2, h2, hf2, hcut2, hclean2⟩ := flushTrees_spec tag .v6 hturns (range 1024) hf1 (hcut1.made hmade)
  have hcut := hcut1.trans hcut2
  have hclean : ∀ v, ∀ h ∈ range 1024, Clean tag (R2.set v) h := by
    intro v h hh
    cases v with
    | v4 => exact fun k e he => hclean1 h hh k e (hcut2.entry he)
    | v6 => exact hclean2 h hh
  refine ⟨f2, R2, ?_, hf2, fun v k => ?_⟩
  · unfold flush
    rw [foldlM_cons, h1, bind_eq_bind, bind_some, foldlM_cons, h2]
    rfl
  -- Every prefix has a tree.
  have hall : ∀ e, R2.set v k = some e → e.flushed tag = false := by
    intro e he
    obtain ⟨a, _, hmask, hk⟩ := (hmade v k e (hcut.entry he)).range
    have hprefix : IsPrefix k.1 k.2 := hk ▸ hmask.isPrefix a
    refine hclean v (hash k.1) (mem_range.2 ?_) k e he (hash_mem hprefix le_rfl hprefix.le)
    unfold hash
    omega
  rcases hcut v k with heq | ⟨hnone, e, he, hflushed⟩
  · rw [← heq]
    cases he : R2.set v k with
    | none => rfl
    | some e => rw [Option.filter_some, hall e he, if_pos (by simp)]
  · rw [hnone, he, Option.filter_some, hflushed, if_neg (by simp)]

/-! ## Runs -/

/-- What the callers pass. -/
def RouteCall.Proper (c : RouteCall) : Prop :=
  c.Contiguous ∧ match c with
    | .v4add tag _ _ _ _ => tag.length = 4
    | .v6add tag _ _ _ type => tag.length = 4 ∧ type.testBit 0 = false
    | _ => True

/-- A route that is added again over one that is not of an interface, and is not itself, has the tag of that one. -/
def RouteCall.SameTag (f : Fs) : RouteCall → Prop
  | .v4add tag a mask _ type =>
    ∀ h, ∀ x ∈ (f.v4.root h).routes, x.key = rangeOf a mask → rifc x.type = false → rifc type = false → x.tag = tag
  | .v6add tag a mask _ type =>
    ∀ h, ∀ x ∈ (f.v6.root h).routes, x.key = rangeOf a mask → rifc x.type = false → rifc type = false → x.tag = tag
  | _ => True

/-- The tag that is flushed has four bytes, or no route has it or compares equal. -/
def Flushes (f : Fs) (tag : List UInt8) : Prop :=
  0 ∉ tag ∧ (4 ≤ tag.length ∨ ∀ v h, ∀ x ∈ (f.root v h).routes, rifc x.type = false → x.tag ≠ newipaux tag ∧ strncmp 4 tag x.tag = false)

def Tags.after (tags : Tags) : RouteCall → Tags
  | .v4add tag a mask _ _ => update tags .v4 (update (tags .v4) (rangeOf a mask) (some tag))
  | .v6add tag a mask _ _ => update tags .v6 (update (tags .v6) (rangeOf a mask) (some tag))
  | _ => tags

/-- The runs in which each addition and each flush is as above. -/
inductive Tagged (turns : Nat) : Fs → Tags → Prop
  | init : Tagged turns Fs.init fun _ _ => none
  | call {f : Fs} {tags : Tags} {c : RouteCall} (h : Tagged turns f tags) (hproper : c.Proper) (hsame : c.SameTag f) :
      Tagged turns (c.run turns f) (tags.after c)
  | flush {f f' : Fs} {tags : Tags} {tag : List UInt8} (h : Tagged turns f tags) (htag : Flushes f tag)
      (hflush : Ip.flush turns (some tag) f = some f') : Tagged turns f' tags

theorem rifc_v4 (type : Nat) : rifc ((rv4 ||| type) % 256) = rifc type := by
  rw [rifc, rifc, show (256 : Nat) = 2 ^ 8 from rfl, Nat.testBit_mod_two_pow, Nat.testBit_or,
    show Nat.testBit rv4 1 = false from rfl]
  simp

theorem rifc_v6 (type : Nat) : rifc (type % 256) = rifc type := by
  rw [rifc, rifc, show (256 : Nat) = 2 ^ 8 from rfl, Nat.testBit_mod_two_pow]
  simp

theorem Made.add {v : Version} {S : RouteSet} (last : Nat × Nat → Option (List UInt8)) {r k : Nat × Nat} {e : Entry} {type : Nat}
    {gate new : List UInt8} (hold : ∀ k e, S k = some e → Made v k (last k) e)
    (hrange : ∃ a mask : BitVec v.width, Contiguous mask ∧ r = rangeOf a mask) (hversion : type.testBit 0 = decide (v = .v4))
    (hsize : new.length = 4) (hsame : ∀ e, S r = some e → rifc e.type = false → rifc type = false → e.tag = new)
    (he : S.add r type gate new k = some e) : Made v k (update last r (some new) k) e := by
  unfold RouteSet.add at he
  by_cases hk : k = r
  · subst hk
    rw [update_self] at he ⊢
    cases hS : S k with
    | none =>
      rw [hS] at he
      cases he
      exact ⟨hrange, hversion, fun _ => rfl, fun _ => rfl, hsize⟩
    | some e0 =>
      rw [hS] at he
      cases he
      have hmade := hold k e0 hS
      change Made v k (some new) (e0.again type gate)
      unfold Entry.again
      by_cases hifc : rifc e0.type = false
      · rw [if_pos hifc]
        exact ⟨hrange, hversion, fun _ => hmade.once hifc, fun hnew => congrArg some (hsame e0 hS hifc hnew).symm, hmade.size⟩
      rw [if_neg hifc]
      split
      · exact ⟨hrange, hmade.version, fun h => absurd h hifc, fun h => absurd h hifc, hmade.size⟩
      · exact ⟨hrange, hmade.version, fun h => absurd h hifc, fun h => absurd h hifc, hmade.size⟩
  · rw [update_of_ne hk] at he ⊢
    exact hold k e he

theorem Made.del {v : Version} {k : Nat × Nat} {t : Option (List UInt8)} {R : RouteSet} {d : Nat × Nat} {e : Entry}
    (hold : ∀ e, R k = some e → Made v k t e) (he : R.del d k = some e) : Made v k t e := by
  unfold RouteSet.del at he
  by_cases hk : k = d
  · subst hk
    rw [update_self] at he
    cases hR : R k with
    | none =>
      rw [hR] at he
      cases he
    | some e0 =>
      rw [hR] at he
      dsimp only at he
      split at he
      · cases he
      cases he
      have hmade := hold e0 hR
      refine ⟨hmade.range, hmade.version, fun h => ?_, hmade.tag, hmade.size⟩
      have := hmade.once h
      omega
  · rw [update_of_ne hk] at he
    exact hold e he

theorem Fs.Holds.node {k : Nat × Nat} {e : Entry} (hf : f.Holds R) (hmade : R.Made tags) (he : R.set v k = some e) :
    ∃ h, ∃ x ∈ (f.root v h).routes, x.key = k ∧ x.entry = e := by
  obtain ⟨a, _, hmask, hk⟩ := (hmade v k e he).range
  have hprefix : IsPrefix k.1 k.2 := hk ▸ hmask.isPrefix a
  exact ⟨hash k.1, ((hf.tree v _).mem k e).2 ⟨he, hash_mem hprefix le_rfl hprefix.le⟩⟩

theorem Routes.Made.after {c : RouteCall} (hf : f.Holds R) (hmade : R.Made tags) (hc : c.Proper) (hsame : c.SameTag f) :
    (R.after c).Made (tags.after c) := by
  intro v k e he
  cases c with
  | v4add tag a mask gate type =>
    cases v with
    | v4 =>
      refine Made.add (tags .v4) (hmade .v4) ⟨a, mask, hc.1, rfl⟩ ?_ hc.2 (fun e he hifc hnew => ?_) he
      · rw [show (256 : Nat) = 2 ^ 8 from rfl, Nat.testBit_mod_two_pow, Nat.testBit_or]
        rfl
      · obtain ⟨h, x, hx, hkey, rfl⟩ := hf.node hmade (v := .v4) he
        exact hsame h x hx hkey hifc (rifc_v4 type ▸ hnew)
    | v6 => exact hmade .v6 k e he
  | v6add tag a mask gate type =>
    cases v with
    | v4 => exact hmade .v4 k e he
    | v6 =>
      refine Made.add (tags .v6) (hmade .v6) ⟨a, mask, hc.1, rfl⟩ ?_ hc.2.1 (fun e he hifc hnew => ?_) he
      · rw [show (256 : Nat) = 2 ^ 8 from rfl, Nat.testBit_mod_two_pow, hc.2.2]
        rfl
      · obtain ⟨h, x, hx, hkey, rfl⟩ := hf.node hmade (v := .v6) he
        exact hsame h x hx hkey hifc (rifc_v6 type ▸ hnew)
  | v4del a mask =>
    cases v with
    | v4 => exact Made.del (hmade .v4 k) he
    | v6 => exact hmade .v6 k e he
  | v6del a mask =>
    cases v with
    | v4 => exact hmade .v4 k e he
    | v6 => exact Made.del (hmade .v6 k) he

theorem Tagged.holds (hturns : 3 ≤ turns) (h : Tagged turns f tags) : ∃ R : Routes, f.Holds R ∧ R.Made tags := by
  induction h with
  | init => exact ⟨_, Fs.Holds.init, fun v k e he => by cases v <;> cases he⟩
  | call _ hproper hsame ih =>
    obtain ⟨R, hf, hmade⟩ := ih
    exact ⟨_, hf.run hturns hproper.1, hmade.after hf hproper hsame⟩
  | @flush f f' tags tag _ _ hflush ih =>
    obtain ⟨R, hf, hmade⟩ := ih
    obtain ⟨f'', R', heq, hf', hset⟩ := flush_spec (some tag) hturns hf hmade
    obtain rfl : f' = f'' := some.inj (hflush.symm.trans heq)
    refine ⟨R', hf', fun v k e he => hmade v k e ?_⟩
    rw [hset] at he
    exact (Option.filter_eq_some_iff.1 he).1

theorem strncmp_iff {n : Nat} {s t : List UInt8} (hs : 0 ∉ s) (hn : n ≤ s.length) (hn' : n ≤ t.length) :
    strncmp n s t = true ↔ t.take n = s.take n := by
  induction n generalizing s t with
  | zero => simp [strncmp]
  | succ n ih =>
    cases s with
    | nil => cases hn
    | cons b s =>
      cases t with
      | nil => cases hn'
      | cons c t =>
        rw [mem_cons, not_or] at hs
        have hb : (b == 0) = false := beq_eq_false_iff_ne.2 (Ne.symm hs.1)
        rw [strncmp, take_succ_cons, take_succ_cons, cons.injEq, Bool.and_eq_true, headD_cons, headD_cons,
          hb, Bool.false_or, tail_cons, tail_cons, ih hs.2 (Nat.le_of_succ_le_succ hn) (Nat.le_of_succ_le_succ hn'),
          beq_iff_eq]
        exact and_congr_left fun _ => eq_comm

/-- In such a run each route that is not of an interface has the tag of the last addition of its prefix, and a flush ends
and takes from the trees the routes that have the tag, and no other. -/
theorem tagged_routes (hturns : 3 ≤ turns) (hrun : Tagged turns f tags) :
    (∀ v h, ∀ x ∈ (f.root v h).routes, rifc x.type = false → tags v x.key = some x.tag) ∧
      ∀ tag, Flushes f tag → ∃ f', flush turns (some tag) f = some f' ∧
        ∀ v h k e, (∃ x ∈ (f'.root v h).routes, x.key = k ∧ x.entry = e) ↔
          (∃ x ∈ (f.root v h).routes, x.key = k ∧ x.entry = e) ∧ ¬ (rifc e.type = false ∧ e.tag = newipaux tag) := by
  obtain ⟨R, hf, hmade⟩ := hrun.holds hturns
  refine ⟨fun v h x hx hifc => (hmade v x.key x.entry ((hf.tree v h).entry hx)).tag hifc, fun tag htag => ?_⟩
  obtain ⟨f', _, hflush, hf', hset⟩ := flush_spec (some tag) hturns hf hmade
  refine ⟨f', hflush, fun v h k e => ?_⟩
  rw [(hf'.tree v h).mem, (hf.tree v h).mem, hset, Option.filter_eq_some_iff, and_right_comm]
  refine and_congr_right fun he => ?_
  have hflushed : e.flushed (some tag) = true ↔ rifc e.type = false ∧ e.tag = newipaux tag := by
    rw [Entry.flushed, Bool.and_eq_true, beq_iff_eq]
    refine and_congr_right fun hifc => ?_
    rcases htag.2 with hlong | hnone
    · have hsize := (hmade v k e he.1).size
      rw [strncmp_iff htag.1 hlong (Nat.le_of_eq hsize.symm), take_of_length_le (Nat.le_of_eq hsize), newipaux,
        take_append_of_le_length hlong]
    · obtain ⟨h', x, hx, -, rfl⟩ := hf.node hmade he.1
      obtain ⟨hne, hcmp⟩ := hnone v h' x hx hifc
      exact iff_of_false (by rw [show x.entry.tag = x.tag from rfl, hcmp]; simp) hne
  rw [← hflushed]
  simp

/-- A host by way of 10.0.0.2. -/
def host (tag : List UInt8) : RouteCall := .v4add tag 0x0a000001 (BitVec.allOnes 32) [10, 0, 0, 2] 0

theorem tagged_routes_host :
    (∀ v h, ∀ x ∈ (((host [97, 97, 97, 97]).run 3 Fs.init).root v h).routes, rifc x.type = false →
        Tags.after (fun _ _ => none) (host [97, 97, 97, 97]) v x.key = some x.tag) ∧
      ∀ tag, Flushes ((host [97, 97, 97, 97]).run 3 Fs.init) tag →
        ∃ f', flush 3 (some tag) ((host [97, 97, 97, 97]).run 3 Fs.init) = some f' ∧
          ∀ v h k e, (∃ x ∈ (f'.root v h).routes, x.key = k ∧ x.entry = e) ↔
            (∃ x ∈ (((host [97, 97, 97, 97]).run 3 Fs.init).root v h).routes, x.key = k ∧ x.entry = e) ∧
              ¬ (rifc e.type = false ∧ e.tag = newipaux tag) :=
  tagged_routes (Nat.le_refl 3) (.call .init ⟨⟨0, by decide, by decide⟩, rfl⟩ fun _ _ hx => nomatch hx)

/-- The route keeps the tag it was first added with. -/
theorem readded_tag :
    ¬ ∀ v h, ∀ x ∈ (([host [97, 97, 97, 97], host [98, 98, 98, 98]].foldl (RouteCall.run 3) Fs.init).root v h).routes,
      rifc x.type = false →
        [host [97, 97, 97, 97], host [98, 98, 98, 98]].foldl Tags.after (fun _ _ => none) v x.key = some x.tag := by
  intro hall
  have hroot : (([host [97, 97, 97, 97], host [98, 98, 98, 98]].foldl (RouteCall.run 3) Fs.init).root .v4 256).routes =
      [⟨0, 0x0a000001, 0x0a000001, 1, [10, 0, 0, 2], [97, 97, 97, 97], 1⟩] := rfl
  have := hall .v4 256 _ (hroot ▸ mem_singleton_self _) rfl
  revert this
  decide

end Plan9.Ip
