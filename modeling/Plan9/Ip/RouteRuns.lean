/-
Runs of `v4addroute`, `v6addroute`, `v4delroute` and `v6delroute`, against a table
that has for every range at most one route (`RouteSet`).

A range is in the trees that the hashes of its ends lead to, and in no other. The
tree of a hash holds the routes of those ranges (`Holds`); a change of a range is
made in each of its trees, one after the other.
-/
import Plan9.Lib.Prefixes
import Plan9.Ip.RouteFacts

namespace Plan9.Ip

open Function Option Prefixes RTree Route List

/-! ## The routes of a version -/

structure Entry where
  type : Nat
  gate : List UInt8
  tag : List UInt8
  /-- How many deletes it takes. -/
  count : Nat
  deriving DecidableEq, Repr

def Route.entry (r : Route) : Entry := ⟨r.type, r.gate, r.tag, r.ref⟩

/-- The routes by their ranges. -/
abbrev RouteSet := Nat × Nat → Option Entry

/-- A route that is not of an interface makes way for a later one, in type and gate; one of an interface stays, and
counts those of an interface that come. -/
def Entry.again (e : Entry) (type : Nat) (gate : List UInt8) : Entry :=
  if rifc e.type = false then { e with type := type, gate := gate }
  else if rifc type then { e with count := e.count + 1 }
  else e

def RouteSet.add (R : RouteSet) (k : Nat × Nat) (type : Nat) (gate tag : List UInt8) : RouteSet :=
  Function.update R k (some (match R k with
    | none => ⟨type, gate, tag, 1⟩
    | some e => e.again type gate))

def RouteSet.del (R : RouteSet) (k : Nat × Nat) : RouteSet :=
  Function.update R k (match R k with
    | none => none
    | some e => if e.count - 1 = 0 then none else some { e with count := e.count - 1 })

/-- Every range is one of a prefix. -/
def RouteSet.Prefixes (R : RouteSet) : Prop := ∀ k e, R k = some e → IsPrefix k.1 k.2

/-- The route `q` has the address, and so has no route with a longer prefix; there is none if no route has it. -/
def RouteSet.Longest (R : RouteSet) (la : Nat) : Option Route → Prop
  | none => ∀ k e, R k = some e → ¬ (k.1 ≤ la ∧ la ≤ k.2)
  | some q => R q.key = some q.entry ∧ q.Has la ∧
      ∀ k e, R k = some e → k.1 ≤ la → la ≤ k.2 → k.1 ≤ q.address ∧ q.endaddress ≤ k.2

/-! ## The tree of a hash -/

/-- The tree has the routes of the ranges that the hash `h` is of. -/
structure Holds (t : RTree) (R : RouteSet) (h : Nat) : Prop where
  ok : t.Ok
  mem : ∀ k e, (∃ x ∈ t.routes, x.key = k ∧ x.entry = e) ↔ R k = some e ∧ h ∈ hashes k.1 k.2

variable {t t' : RTree} {R : RouteSet} {h la : Nat} {k : Nat × Nat} {c : Option Route} {new old x : Route} {s : Side}

theorem Holds.entry (ht : Holds t R h) (hx : x ∈ t.routes) : R x.key = some x.entry := ((ht.mem _ _).1 ⟨x, hx, rfl, rfl⟩).1

theorem Holds.nested (ht : Holds t R h) (hR : R.Prefixes) (hnew : IsPrefix new.address new.endaddress) (hx : x ∈ t.routes) :
    new.Nested x := by
  have hx' : IsPrefix x.address x.endaddress := hR x.key x.entry (ht.entry hx)
  by_cases hkey : new.key = x.key
  · exact .inr (.inr (.inr (.inr hkey)))
  rcases hnew.nested hx' with hlt | hlt | ⟨h1, h2⟩ | ⟨h1, h2⟩
  · exact .inl hlt
  · exact .inr (.inl hlt)
  · exact .inr (.inr (.inl ⟨h1, h2, hkey⟩))
  · exact .inr (.inr (.inr (.inl ⟨h1, h2, Ne.symm hkey⟩)))

theorem Holds.changed (ht : Holds t R h) (hok : t'.Ok) (hmem : ∀ x, x ∈ t'.routes ↔ changed c k t x)
    (hc : ∀ x, c = some x → x.key = k) (hh : h ∈ hashes k.1 k.2) :
    Holds t' (update R k (c.map Route.entry)) h := by
  refine ⟨hok, fun k' e => ?_⟩
  by_cases hkk : k' = k
  · subst hkk
    rw [update_self, map_eq_some_iff, and_iff_left hh]
    constructor
    · rintro ⟨x, hx, hkey, he⟩
      rcases (hmem x).1 hx with hx | ⟨-, hne⟩
      · exact ⟨x, hx, he⟩
      · exact absurd hkey hne
    · rintro ⟨x, hx, he⟩
      exact ⟨x, (hmem x).2 (.inl hx), hc x hx, he⟩
  rw [update_of_ne hkk, ← ht.mem]
  constructor
  · rintro ⟨x, hx, hkey, he⟩
    rcases (hmem x).1 hx with hx | ⟨hx, -⟩
    · exact absurd (hkey.symm.trans (hc x hx)) hkk
    · exact ⟨x, hx, hkey, he⟩
  · rintro ⟨x, hx, hkey, he⟩
    exact ⟨x, (hmem x).2 (.inr ⟨hx, hkey ▸ hkk⟩), hkey, he⟩

theorem Holds.other (ht : Holds t R h) (hh : h ∉ hashes k.1 k.2) (v : Option Entry) :
    Holds t (update R k v) h := by
  refine ⟨ht.ok, fun k' e => ?_⟩
  rw [ht.mem]
  by_cases hkk : k' = k
  · subst hkk
    exact ⟨fun h' => absurd h'.2 hh, fun h' => absurd h'.2 hh⟩
  · rw [update_of_ne hkk]

theorem supersede_entry (p new : Route) : (supersede p new).entry = p.entry.again new.type new.gate := by
  have htype : p.entry.type = p.type := rfl
  unfold supersede Entry.again
  rw [htype]
  by_cases hp : rifc p.type = false
  · rw [if_pos hp, if_pos hp]
    rfl
  rw [if_neg hp, if_neg hp]
  by_cases hnew : rifc new.type = true
  · rw [if_pos hnew, if_pos hnew]
    rfl
  · rw [if_neg hnew, if_neg hnew]

theorem Holds.absent (ht : Holds t R h) (hh : h ∈ hashes k.1 k.2) (hne : ∀ x ∈ t.routes, x.key ≠ k) : R k = none := by
  by_contra hsome
  obtain ⟨e, he⟩ := ne_none_iff_exists'.1 hsome
  obtain ⟨x, hx, hkey, -⟩ := (ht.mem k e).2 ⟨he, hh⟩
  exact hne x hx hkey

theorem Holds.add (ht : Holds t R h) (hR : R.Prefixes) (hnew : IsPrefix new.address new.endaddress) (href : new.ref = 1)
    (hh : h ∈ hashes new.key.1 new.key.2) (hqueue : s.queue = []) {turns : Nat} (hturns : 1 ≤ turns) :
    ∃ root s' root' ifcid, addnode new .nil t s = (root, s') ∧ requeue turns root s' = (root', ⟨[], ifcid⟩) ∧
      Holds root' (R.add new.key new.type new.gate new.tag) h := by
  obtain ⟨root, s', c, Q, hadd, hqueued, hlen, hplaced, hparted⟩ :=
    addnode_fresh ht.ok hnew.le (fun x hx => ht.nested hR hnew hx) hqueue
  obtain ⟨root', htake, hok, hmem⟩ := hparted.requeue hqueued (Nat.le_trans hlen hturns)
  refine ⟨root, s', root', s'.ifcid, hadd, htake, ?_⟩
  have hholds := ht.changed hok hmem (fun x hx => some.inj hx ▸ hplaced.key) hh
  suffices hentry : R.add new.key new.type new.gate new.tag = update R new.key ((some c).map Route.entry) by
    rw [hentry]
    exact hholds
  unfold RouteSet.add
  rcases hplaced with ⟨p, hp, hkey, rfl⟩ | ⟨hne, rfl⟩
  · have hold := ht.entry hp
    rw [hkey] at hold
    rw [hold, map_some, supersede_entry]
  · rw [ht.absent hh hne, map_some, Route.entry, href]

theorem Holds.del (ht : Holds t R h) (hR : R.Prefixes) (hold : IsPrefix old.address old.endaddress)
    (hh : h ∈ hashes old.key.1 old.key.2) (hqueue : s.queue = []) {turns : Nat} (hturns : 3 ≤ turns) :
    ∃ root s' root' ifcid, delnode old t s = (root, s') ∧ requeue turns root s' = (root', ⟨[], ifcid⟩) ∧
      Holds root' (R.del old.key) h := by
  obtain ⟨root, s', c, Q, hdelnode, hqueued, hlen, hremoved, hparted⟩ :=
    delnode_spec ht.ok hold.le (fun x hx => ht.nested hR hold hx) hqueue
  obtain ⟨root', htake, hok, hmem⟩ := hparted.requeue hqueued (Nat.le_trans hlen hturns)
  refine ⟨root, s', root', s'.ifcid, hdelnode, htake, ?_⟩
  have hholds := ht.changed hok hmem (fun x => hremoved.key) hh
  suffices hentry : R.del old.key = update R old.key (c.map Route.entry) by
    rw [hentry]
    exact hholds
  unfold RouteSet.del
  rcases hremoved with ⟨hne, rfl⟩ | ⟨p, hp, hkey, rfl⟩
  · rw [ht.absent hh hne, Option.map_none]
  have hfound := ht.entry hp
  rw [hkey] at hfound
  rw [hfound]
  dsimp only [Route.entry]
  by_cases hlast : p.ref - 1 = 0
  · rw [if_pos hlast, if_pos hlast, Option.map_none]
  · rw [if_neg hlast, if_neg hlast]
    rfl

/-! ## All of the trees -/

theorem foldl_holds {f : Adding → Nat → Adding} {R R' : RouteSet} {hs : List Nat}
    (hf : ∀ a, ∀ h ∈ hs, a.side.queue = [] → Holds (a.root h) R h →
      ∃ t, (f a h).root = update a.root h t ∧ Holds t R' h ∧ (f a h).side.queue = [])
    (hnodup : hs.Nodup) (a : Adding) (hqueue : a.side.queue = []) (hall : ∀ h ∈ hs, Holds (a.root h) R h) :
    (hs.foldl f a).side.queue = [] ∧ (∀ h ∈ hs, Holds ((hs.foldl f a).root h) R' h) ∧
      ∀ h, h ∉ hs → (hs.foldl f a).root h = a.root h := by
  induction hs generalizing a with
  | nil => exact ⟨hqueue, fun h hh => (nomatch hh), fun h _ => rfl⟩
  | cons h hs ih =>
    obtain ⟨hnot, hnodup⟩ := nodup_cons.1 hnodup
    obtain ⟨t, hroot, ht, hqueue'⟩ := hf a h mem_cons_self hqueue (hall h mem_cons_self)
    obtain ⟨h1, h2, h3⟩ := ih (fun a h' hh' => hf a h' (mem_cons_of_mem _ hh')) hnodup (f a h) hqueue' fun h' hh' => by
      have hne : h' ≠ h := fun heq => hnot (heq ▸ hh')
      rw [hroot, update_of_ne hne]
      exact hall h' (mem_cons_of_mem _ hh')
    refine ⟨h1, fun h' hh' => ?_, fun h' hh' => ?_⟩
    · rcases mem_cons.1 hh' with rfl | hh'
      · rw [foldl_cons, h3 h' hnot, hroot, update_self]
        exact ht
      · exact h2 h' hh'
    · have hne : h' ≠ h := fun heq => hh' (heq ▸ mem_cons_self)
      rw [foldl_cons, h3 h' fun hmem => hh' (mem_cons_of_mem _ hmem), hroot, update_of_ne hne]

/-- The trees of a version have the routes of `R`. -/
structure Table.Holds (t : Table) (R : RouteSet) : Prop where
  tree : ∀ h, Ip.Holds (t.root h) R h
  isPrefix : R.Prefixes

variable {w : Nat} {f : Fs} {T : Table}

theorem mem_hashes {sa ea h : Nat} : h ∈ hashes sa ea ↔ hash sa ≤ h ∧ h ≤ hash ea := by
  unfold hashes
  rw [mem_range'_1]
  omega

theorem hash_mem {sa ea : Nat} (hr : IsPrefix sa ea) (hs : sa ≤ la) (he : la ≤ ea) : hash la ∈ hashes sa ea := by
  rw [mem_hashes]
  exact ⟨Nat.div_le_div_right (hr.mod_mono 27 hs he).1, Nat.div_le_div_right (hr.mod_mono 27 hs he).2⟩

/-- The trees of a range are changed, one after the other. -/
theorem Table.Holds.folded {g : Adding → Nat → Adding} {k : Nat × Nat} {v : Option Entry} (hT : T.Holds R)
    (hqueue : f.side.queue = []) (hk : IsPrefix k.1 k.2)
    (hg : ∀ b, ∀ h ∈ hashes k.1 k.2, b.side.queue = [] → Ip.Holds (b.root h) R h →
      ∃ t, (g b h).root = update b.root h t ∧ Ip.Holds t (update R k v) h ∧ (g b h).side.queue = []) :
    Table.Holds ⟨((hashes k.1 k.2).foldl g ⟨T.root, f.side, f.next⟩).root, T.generation + 1⟩ (update R k v) ∧
      ((hashes k.1 k.2).foldl g ⟨T.root, f.side, f.next⟩).side.queue = [] := by
  obtain ⟨h1, h2, h3⟩ := foldl_holds hg nodup_range' ⟨T.root, f.side, f.next⟩ hqueue fun h _ => hT.tree h
  refine ⟨⟨fun h => ?_, fun k' e he => ?_⟩, h1⟩
  · by_cases hh : h ∈ hashes k.1 k.2
    · exact h2 h hh
    dsimp only
    rw [h3 h hh]
    exact (hT.tree h).other hh _
  by_cases hkk : k' = k
  · rw [hkk]
    exact hk
  · rw [update_of_ne hkk] at he
    exact hT.isPrefix k' e he

theorem Table.Holds.addroute {turns : Nat} (hturns : 1 ≤ turns) (hT : T.Holds R) (hqueue : f.side.queue = []) (a : BitVec w) {mask : BitVec w}
    (hmask : Contiguous mask) (type : Nat) (gate tag : List UInt8) :
    (T.addroute turns f a mask type gate tag).1.Holds (R.add (rangeOf a mask) type gate tag) ∧
      (T.addroute turns f a mask type gate tag).2.side.queue = [] := by
  refine hT.folded (k := rangeOf a mask) hqueue (hmask.isPrefix a) fun b h hh hq ht => ?_
  let new : Route := ⟨b.next, (a &&& mask).toNat, (a ||| ~~~mask).toNat, type, gate, tag, 1⟩
  have hnew : IsPrefix new.address new.endaddress := hmask.isPrefix a
  obtain ⟨_, _, root', _, hadd, htake, hholds⟩ := ht.add hT.isPrefix hnew rfl hh hq hturns
  unfold add1route
  rw [hq]
  dsimp only
  rw [hadd]
  rw [htake]
  exact ⟨root', rfl, hholds, rfl⟩

theorem Table.Holds.delroute {turns : Nat} (hturns : 3 ≤ turns) (hT : T.Holds R) (hqueue : f.side.queue = []) (a : BitVec w) {mask : BitVec w}
    (hmask : Contiguous mask) :
    (T.delroute turns f a mask).1.Holds (R.del (rangeOf a mask)) ∧ (T.delroute turns f a mask).2.side.queue = [] := by
  refine hT.folded (k := rangeOf a mask) hqueue (hmask.isPrefix a) fun b h hh hq ht => ?_
  let old : Route := ⟨0, (a &&& mask).toNat, (a ||| ~~~mask).toNat, 0, [], [], 0⟩
  have hold : IsPrefix old.address old.endaddress := hmask.isPrefix a
  obtain ⟨_, _, root', _, hdel, htake, hholds⟩ := ht.del hT.isPrefix hold hh hq hturns
  unfold del1route
  rw [hq]
  dsimp only
  rw [hdel]
  rw [htake]
  exact ⟨root', rfl, hholds, rfl⟩

theorem Table.Holds.longest (hT : T.Holds R) (la : Nat) : R.Longest la (T.walk la) := by
  have ht := hT.tree (hash la)
  have hmem : ∀ k e, R k = some e → k.1 ≤ la → la ≤ k.2 → ∃ x ∈ (T.root (hash la)).routes, x.key = k := by
    intro k e hk h1 h2
    obtain ⟨x, hx, hkey, -⟩ := (ht.mem k e).2 ⟨hk, hash_mem (hT.isPrefix k e hk) h1 h2⟩
    exact ⟨x, hx, hkey⟩
  unfold Table.walk
  rcases lookwalk_spec ht.ok la none with ⟨heq, hnone⟩ | ⟨q, hq, heq, hhas, hinner⟩
  · rw [heq]
    rintro k e hk ⟨h1, h2⟩
    obtain ⟨x, hx, rfl⟩ := hmem k e hk h1 h2
    exact hnone x hx ⟨h1, h2⟩
  rw [heq]
  refine ⟨ht.entry hq, hhas, fun k e hk h1 h2 => ?_⟩
  obtain ⟨x, hx, rfl⟩ := hmem k e hk h1 h2
  rcases hinner x hx ⟨h1, h2⟩ with rfl | hin
  · exact ⟨le_rfl, le_rfl⟩
  · exact ⟨hin.1, hin.2.1⟩

/-! ## Runs -/

/-- A call that changes the tables. -/
inductive RouteCall
  | v4add (tag : List UInt8) (a mask : BitVec 32) (gate : List UInt8) (type : Nat)
  | v6add (tag : List UInt8) (a mask : BitVec 128) (gate : List UInt8) (type : Nat)
  | v4del (a mask : BitVec 32)
  | v6del (a mask : BitVec 128)

namespace RouteCall

def Contiguous : RouteCall → Prop
  | v4add _ _ mask _ _ => Prefixes.Contiguous mask
  | v6add _ _ mask _ _ => Prefixes.Contiguous mask
  | v4del _ mask => Prefixes.Contiguous mask
  | v6del _ mask => Prefixes.Contiguous mask

def run (turns : Nat) (f : Fs) : RouteCall → Fs
  | v4add tag a mask gate type => v4addroute turns f tag a mask gate type
  | v6add tag a mask gate type => v6addroute turns f tag a mask gate type
  | v4del a mask => v4delroute turns f a mask
  | v6del a mask => v6delroute turns f a mask

end RouteCall

/-- The routes added and not yet deleted. -/
structure Routes where
  v4 : RouteSet
  v6 : RouteSet

def Routes.empty : Routes := ⟨fun _ => none, fun _ => none⟩

def Routes.after (R : Routes) : RouteCall → Routes
  | .v4add tag a mask gate type => { R with v4 := R.v4.add (rangeOf a mask) ((rv4 ||| type) % 256) gate tag }
  | .v6add tag a mask gate type => { R with v6 := R.v6.add (rangeOf a mask) (type % 256) gate tag }
  | .v4del a mask => { R with v4 := R.v4.del (rangeOf a mask) }
  | .v6del a mask => { R with v6 := R.v6.del (rangeOf a mask) }

structure Fs.Holds (f : Fs) (R : Routes) : Prop where
  v4 : f.v4.Holds R.v4
  v6 : f.v6.Holds R.v6
  queue : f.side.queue = []

theorem Fs.Holds.init : Fs.init.Holds Routes.empty := by
  have hempty : ∀ h, Ip.Holds .nil (fun _ => none) h := fun h =>
    ⟨trivial, fun k e => ⟨fun ⟨x, hx, _⟩ => (nomatch hx), fun hR => (nomatch hR.1)⟩⟩
  exact ⟨⟨hempty, fun k e he => (nomatch he)⟩, ⟨hempty, fun k e he => (nomatch he)⟩, rfl⟩

theorem Fs.Holds.run {R : Routes} {call : RouteCall} {turns : Nat} (hturns : 3 ≤ turns) (hf : f.Holds R) (hcall : call.Contiguous) :
    (call.run turns f).Holds (R.after call) := by
  cases call with
  | v4add tag a mask gate type =>
    obtain ⟨htable, hqueue⟩ := Table.Holds.addroute (Nat.le_trans (by omega) hturns) hf.v4 hf.queue a hcall ((rv4 ||| type) % 256) gate tag
    exact ⟨htable, hf.v6, hqueue⟩
  | v6add tag a mask gate type =>
    obtain ⟨htable, hqueue⟩ := Table.Holds.addroute (Nat.le_trans (by omega) hturns) hf.v6 hf.queue a hcall (type % 256) gate tag
    exact ⟨hf.v4, htable, hqueue⟩
  | v4del a mask =>
    obtain ⟨htable, hqueue⟩ := Table.Holds.delroute hturns hf.v4 hf.queue a hcall
    exact ⟨htable, hf.v6, hqueue⟩
  | v6del a mask =>
    obtain ⟨htable, hqueue⟩ := Table.Holds.delroute hturns hf.v6 hf.queue a hcall
    exact ⟨hf.v4, htable, hqueue⟩

theorem Fs.Holds.runs {R : Routes} {calls : List RouteCall} {turns : Nat} (hturns : 3 ≤ turns) (hf : f.Holds R) (hcalls : ∀ call ∈ calls, call.Contiguous) :
    (calls.foldl (RouteCall.run turns) f).Holds (calls.foldl Routes.after R) := by
  induction calls generalizing f R with
  | nil => exact hf
  | cons call calls ih =>
    exact ih (Fs.Holds.run hturns hf (hcalls call mem_cons_self)) fun c hc => hcalls c (mem_cons_of_mem _ hc)

/-- After any calls with contiguous masks the queue is empty, which takes three turns of its loop at most, and the walks
find the longest prefixes of the routes added and not yet deleted. -/
theorem longest_match (calls : List RouteCall) (hcalls : ∀ call ∈ calls, call.Contiguous) (turns : Nat) (hturns : 3 ≤ turns) :
    let f := calls.foldl (RouteCall.run turns) Fs.init
    let R := calls.foldl Routes.after Routes.empty
    f.side.queue = [] ∧ (∀ la : BitVec 32, R.v4.Longest la.toNat (f.v4.walk la.toNat)) ∧
      ∀ la : BitVec 128, R.v6.Longest la.toNat (f.v6.walk la.toNat) := by
  have h := Fs.Holds.runs hturns Fs.Holds.init hcalls
  exact ⟨h.queue, fun la => h.v4.longest la.toNat, fun la => h.v6.longest la.toNat⟩

/-- A network, a network inside it that is an interface's, twice, and one delete of each. -/
theorem longest_match_nested :
    let calls := [.v4add [] 0x0a000000#32 0xff000000#32 [10, 0, 0, 1] 0, .v4add [] 0x0a010000#32 0xffff0000#32 [0, 0, 0, 0] 2,
      .v4add [] 0x0a010000#32 0xffff0000#32 [0, 0, 0, 0] 2, .v4del 0x0a010000#32 0xffff0000#32, .v4del 0x0a000000#32 0xff000000#32]
    let f := calls.foldl (RouteCall.run 3) Fs.init
    let R := calls.foldl Routes.after Routes.empty
    f.side.queue = [] ∧ (∀ la : BitVec 32, R.v4.Longest la.toNat (f.v4.walk la.toNat)) ∧
      ∀ la : BitVec 128, R.v6.Longest la.toNat (f.v6.walk la.toNat) := by
  have h8 : Prefixes.Contiguous 0xff000000#32 := ⟨24, by decide, by decide⟩
  have h16 : Prefixes.Contiguous 0xffff0000#32 := ⟨16, by decide, by decide⟩
  refine longest_match _ (fun call hcall => ?_) 3 (Nat.le_refl 3)
  simp only [mem_cons, not_mem_nil, or_false] at hcall
  rcases hcall with rfl | rfl | rfl | rfl | rfl
  · exact h8
  · exact h16
  · exact h16
  · exact h16
  · exact h8

end Plan9.Ip
