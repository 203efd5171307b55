/-
The turns of `v4lookup` (`again`, in `9/ip/iproute.c`).

A turn ends the lookup unless the route that it finds is a default route that gets no
interface; then the next turn looks for the gateway of that route (`Net.again`). A default
route is the root of the tree that it is in, and it is in all of them, with one gateway
(`Fs.Rooted`), whatever the masks of the other routes; so a second turn that comes to it is
followed by turns that do nothing else.
-/
import Plan9.Ip.RouteCacheFacts

namespace Plan9.Ip

open Function Option RTree Route List

/-- The address that is looked for after `la`, at `goto again`. -/
def Net.again (w : Ifaces) (net : Net) (la : Nat) : Option Nat :=
  match net.fs.v4.walk la with
  | none => none
  | some q =>
    if net.attach w q (v4gate q) = none ∧ q.address = 0 ∧ q.endaddress = 2 ^ 32 - 1 then some (nhgetl q.gate) else none

variable {w : Ifaces} {net : Net} {turns la g : Nat} {c : Option Conv}

theorem v4find_again (h : net.again w la = some g) : v4find w net (turns + 1) la = v4find w net turns g := by
  unfold Net.again at h
  rw [v4find]
  cases hq : net.fs.v4.walk la with
  | none =>
    rw [hq] at h
    cases h
  | some q =>
    rw [hq] at h
    dsimp only at h ⊢
    split at h
    · rename_i hagain
      rw [hagain.1]
      rw [if_pos hagain.2, some.inj h]
    · cases h

theorem v4find_settled (h : net.again w la = none) : (v4find w net (turns + 1) la).isSome := by
  unfold Net.again at h
  rw [v4find]
  cases hq : net.fs.v4.walk la with
  | none => rfl
  | some q =>
    rw [hq] at h
    dsimp only at h ⊢
    split at h
    · cases h
    rename_i hagain
    cases hattach : net.attach w q (v4gate q) with
    | some net' => rfl
    | none =>
      rw [if_neg fun hdefault => hagain ⟨hattach, hdefault⟩]
      rfl

/-- The addresses of so many turns. -/
def Net.visit (w : Ifaces) (net : Net) (n la : Nat) : Option Nat := (fun x : Option Nat => x.bind (net.again w))^[n] (some la)

theorem Net.visit_succ (h : net.again w la = some g) (n : Nat) : net.visit w (n + 1) la = net.visit w n g := by
  unfold Net.visit
  rw [iterate_succ_apply, bind_some, h]

theorem v4find_ends (w : Ifaces) (net : Net) (la : Nat) :
    (∃ turns, (v4find w net turns la).isSome) ↔ ∃ n, net.visit w n la = none := by
  constructor
  · rintro ⟨turns, h⟩
    induction turns generalizing la with
    | zero => cases h
    | succ turns ih =>
      cases hagain : net.again w la with
      | none => exact ⟨1, hagain⟩
      | some g =>
        rw [v4find_again hagain] at h
        obtain ⟨n, hn⟩ := ih g h
        exact ⟨n + 1, by rw [Net.visit_succ hagain, hn]⟩
  rintro ⟨n, h⟩
  induction n generalizing la with
  | zero => cases h
  | succ n ih =>
    cases hagain : net.again w la with
    | none => exact ⟨1, v4find_settled hagain⟩
    | some g =>
      rw [Net.visit_succ hagain] at h
      obtain ⟨turns, hturns⟩ := ih g h
      exact ⟨turns + 1, by rw [v4find_again hagain, hturns]⟩

/-! ## The default route -/

def Route.Default (r : Route) : Prop := r.address = 0 ∧ r.endaddress = 2 ^ 32 - 1

/-- Of some of the addresses. -/
structure Route.Part (r : Route) : Prop where
  address : r.address < 2 ^ 32
  endaddress : r.endaddress < 2 ^ 32
  part : ¬ r.Default

def RTree.Parts (t : RTree) : Prop := ∀ x ∈ t.routes, x.Part

def Side.Parts (s : Side) : Prop := ∀ t ∈ s.queue, t.Parts

/-- The default route of a tree is its root, and all else is inside it. -/
inductive Rooted : Option Entry → RTree → Prop
  | without {t : RTree} (h : t.Parts) : Rooted none t
  | top {p : Route} {d : Nat} {m : RTree} (hp : p.Default) (hm : m.Parts) : Rooted (some p.entry) (.node p d .nil m .nil)

variable {p new old : Route} {d : Nat} {l m r t newmid : RTree} {s : Side} {e : Option Entry}

theorem parts_node : (RTree.node p d l m r).Parts ↔ p.Part ∧ l.Parts ∧ m.Parts ∧ r.Parts := by
  unfold RTree.Parts
  simp only [mem_routes_node]
  grind

theorem parts_nil : RTree.nil.Parts := fun x hx => by cases hx

theorem balancetree_parts : t.balancetree.Parts ↔ t.Parts := by
  unfold RTree.Parts
  rw [balancetree_routes]

theorem Route.Part.supersede (hp : p.Part) : (supersede p new).Part := by
  obtain ⟨h1, h2⟩ := supersede_key p new
  refine ⟨h1 ▸ hp.address, h2 ▸ hp.endaddress, fun hdefault => hp.part ?_⟩
  rwa [Route.Default, h1, h2] at hdefault

theorem Route.Default.supersede (hp : p.Default) : (supersede p new).Default := by
  obtain ⟨h1, h2⟩ := supersede_key p new
  rwa [Route.Default, h1, h2]

theorem supersede_queue (s : Side) (p : Route) : (s.supersede p).queue = s.queue := by
  unfold Side.supersede
  split <;> rfl

theorem Side.Parts.addqueue (hs : s.Parts) (ht : t.Parts) : (s.addqueue t).Parts := by
  cases t with
  | nil => exact hs
  | node p d l m r =>
    intro u hu
    rcases mem_cons.1 hu with rfl | hu
    · exact ht
    · exact hs u hu

theorem compare_part (hdefault : new.Default) (hp : p.Part) : rangecompare new p = .Rcontains := by
  obtain ⟨h1, h2⟩ := hdefault
  obtain ⟨h3, h4, hne⟩ := hp
  unfold Route.Default at hne
  unfold rangecompare
  rw [if_neg (by omega), if_neg (by omega), if_pos (by omega), if_neg (by omega)]

theorem compare_default (hnew : new.Part) (hdefault : p.Default) : rangecompare new p = .Rcontained := by
  obtain ⟨h1, h2⟩ := hdefault
  obtain ⟨h3, h4, hne⟩ := hnew
  unfold Route.Default at hne
  unfold rangecompare
  rw [if_neg (by omega), if_neg (by omega), if_neg (by omega)]

theorem compare_both (hnew : new.Default) (hp : p.Default) : rangecompare new p = .Requals := by
  obtain ⟨h1, h2⟩ := hnew
  obtain ⟨h3, h4⟩ := hp
  unfold rangecompare
  rw [if_neg (by omega), if_neg (by omega), if_pos (by omega), if_pos (by omega)]

theorem addnode_parts (hnew : new.Part) (hmid : newmid.Parts) (ht : t.Parts) (hs : s.Parts) :
    (addnode new newmid t s).1.Parts ∧ (addnode new newmid t s).2.Parts := by
  induction t generalizing s with
  | nil => exact ⟨parts_node.2 ⟨hnew, parts_nil, hmid, parts_nil⟩, hs⟩
  | node p d l m r ihl ihm ihr =>
    have hnode := ht
    obtain ⟨hp, hl, hm, hr⟩ := parts_node.1 ht
    unfold addnode
    cases rangecompare new p with
    | Rpreceeds =>
      obtain ⟨h1, h2⟩ := ihl hl hs
      exact ⟨balancetree_parts.2 (parts_node.2 ⟨hp, h1, hm, hr⟩), h2⟩
    | Rfollows =>
      obtain ⟨h1, h2⟩ := ihr hr hs
      exact ⟨balancetree_parts.2 (parts_node.2 ⟨hp, hl, hm, h1⟩), h2⟩
    | Rcontained =>
      obtain ⟨h1, h2⟩ := ihm hm hs
      exact ⟨balancetree_parts.2 (parts_node.2 ⟨hp, hl, h1, hr⟩), h2⟩
    | Rcontains => exact ⟨balancetree_parts.2 ((parts_node (d := 1)).2 ⟨hnew, parts_nil, hmid, parts_nil⟩), hs.addqueue hnode⟩
    | Requals =>
      refine ⟨balancetree_parts.2 (parts_node.2 ⟨hp.supersede, hl, hm, hr⟩), fun u hu => hs u ?_⟩
      rwa [supersede_queue] at hu

theorem Rooted.addnode (ht : Rooted e t) (hnew : new.Part) (hmid : newmid.Parts) (hs : s.Parts) :
    Rooted e (addnode new newmid t s).1 ∧ (addnode new newmid t s).2.Parts := by
  cases ht with
  | without ht =>
    obtain ⟨h1, h2⟩ := addnode_parts hnew hmid ht hs
    exact ⟨.without h1, h2⟩
  | @top p d m hp hm =>
    obtain ⟨h1, h2⟩ := addnode_parts hnew hmid hm hs
    unfold Ip.addnode
    rw [compare_default hnew hp]
    exact ⟨.top hp h1, h2⟩

/-- What an addition of the default route leaves. -/
def defaultAdd (e : Option Entry) (type : Nat) (gate tag : List UInt8) : Entry :=
  e.elim ⟨type, gate, tag, 1⟩ fun e => e.again type gate

theorem Rooted.add_default (ht : Rooted e t) (hnew : new.Default) (href : new.ref = 1) (hs : s.Parts) :
    Rooted (some (defaultAdd e new.type new.gate new.tag)) (Ip.addnode new .nil t s).1 ∧ (Ip.addnode new .nil t s).2.Parts := by
  have hentry : new.entry = ⟨new.type, new.gate, new.tag, 1⟩ := by rw [Route.entry, href]
  cases ht with
  | without ht =>
    rw [defaultAdd, elim_none, ← hentry]
    cases t with
    | nil => exact ⟨.top hnew parts_nil, hs⟩
    | node p d l m r =>
      unfold Ip.addnode
      rw [compare_part hnew (parts_node.1 ht).1]
      exact ⟨.top hnew parts_nil, hs.addqueue ht⟩
  | @top p d m hp hm =>
    rw [defaultAdd, elim_some, ← supersede_entry]
    unfold Ip.addnode
    rw [compare_both hnew hp]
    refine ⟨.top hp.supersede hm, fun u hu => hs u ?_⟩
    rwa [supersede_queue] at hu

theorem Rooted.walkadd (ht : t.Parts) {root : RTree} (hroot : Rooted e root) (hs : s.Parts) :
    Rooted e (walkadd t root s).1 ∧ (walkadd t root s).2.Parts := by
  induction t generalizing root s with
  | nil => exact ⟨hroot, hs⟩
  | node p d l m r ihl _ ihr =>
    obtain ⟨hp, hl, hm, hr⟩ := parts_node.1 ht
    obtain ⟨h1, h2⟩ := hroot.addnode hp hm hs
    obtain ⟨h3, h4⟩ := ihl hl h1 h2
    exact ihr hr h3 h4

theorem Rooted.requeue {rounds : Nat} (ht : Rooted e t) (hs : s.Parts) : Rooted e (requeue rounds t s).1 := by
  induction rounds generalizing t s with
  | zero => exact ht
  | succ rounds ih =>
    obtain ⟨queue, ifcid⟩ := s
    cases queue with
    | nil => exact ht
    | cons u queue =>
      obtain ⟨h1, h2⟩ := @Rooted.walkadd u ⟨queue, ifcid⟩ e (hs u mem_cons_self) t ht fun v hv => hs v (mem_cons_of_mem u hv)
      exact ih h1 h2

theorem delnode_parts (ht : t.Parts) (hs : s.Parts) : (delnode old t s).1.Parts ∧ (delnode old t s).2.Parts := by
  induction t generalizing s with
  | nil => exact ⟨ht, hs⟩
  | node p d l m r ihl ihm ihr =>
    have hnode := ht
    obtain ⟨hp, hl, hm, hr⟩ := parts_node.1 ht
    unfold delnode
    cases rangecompare old p with
    | Rpreceeds =>
      obtain ⟨h1, h2⟩ := ihl hl hs
      exact ⟨parts_node.2 ⟨hp, h1, hm, hr⟩, h2⟩
    | Rfollows =>
      obtain ⟨h1, h2⟩ := ihr hr hs
      exact ⟨parts_node.2 ⟨hp, hl, hm, h1⟩, h2⟩
    | Rcontained =>
      obtain ⟨h1, h2⟩ := ihm hm hs
      exact ⟨parts_node.2 ⟨hp, hl, h1, hr⟩, h2⟩
    | Rcontains => exact ⟨hnode, hs⟩
    | Requals =>
      dsimp only
      split
      · exact ⟨parts_nil, ((hs.addqueue hl).addqueue hm).addqueue hr⟩
      · exact ⟨parts_node.2 ⟨⟨hp.address, hp.endaddress, hp.part⟩, hl, hm, hr⟩, hs⟩

theorem Rooted.delnode (ht : Rooted e t) (hold : old.Part) (hs : s.Parts) :
    Rooted e (delnode old t s).1 ∧ (delnode old t s).2.Parts := by
  cases ht with
  | without ht =>
    obtain ⟨h1, h2⟩ := @delnode_parts old t s ht hs
    exact ⟨.without h1, h2⟩
  | @top p d m hp hm =>
    obtain ⟨h1, h2⟩ := @delnode_parts old m s hm hs
    unfold Ip.delnode
    rw [compare_default hold hp]
    exact ⟨.top hp h1, h2⟩

/-- What a deletion of the default route leaves. -/
def defaultDel (e : Option Entry) : Option Entry :=
  e.bind fun e => if e.count - 1 = 0 then none else some { e with count := e.count - 1 }

theorem Rooted.del_default (ht : Rooted e t) (hold : old.Default) (hs : s.Parts) :
    Rooted (defaultDel e) (Ip.delnode old t s).1 ∧ (Ip.delnode old t s).2.Parts := by
  cases ht with
  | without ht =>
    cases t with
    | nil => exact ⟨.without ht, hs⟩
    | node p d l m r =>
      unfold Ip.delnode
      rw [compare_part hold (parts_node.1 ht).1]
      exact ⟨.without ht, hs⟩
  | @top p d m hp hm =>
    have hcount : p.entry.count = p.ref := rfl
    unfold Ip.delnode
    rw [compare_both hold hp, defaultDel, bind_some, hcount]
    dsimp only
    split
    · exact ⟨.without parts_nil, hs.addqueue hm⟩
    · have hkept : Route.Default { p with ref := p.ref - 1 } := hp
      exact ⟨.top hkept hm, hs⟩

/-! ## The default routes of all of the trees -/

/-- The trees have one default route, or none. -/
def Table.Rooted (t : Table) (e : Option Entry) : Prop := ∀ h, h < 2 ^ 10 → Ip.Rooted e (t.root h)

section Turns

variable {f : Adding → Nat → Adding} {hs : List Nat} {a : Adding} {e' : Option Entry} {rounds : Nat}

/-- No more happens with a queue that is not empty, so it was empty all along if it is at the end. -/
theorem foldl_through (hstuck : ∀ a h, a.side.queue ≠ [] → f a h = a) (hend : (hs.foldl f a).side.queue = []) :
    a.side.queue = [] := by
  by_contra hne
  have hsame : hs.foldl f a = a := by
    clear hend
    induction hs with
    | nil => rfl
    | cons h hs ih => rw [foldl_cons, hstuck a h hne, ih]
  rw [hsame] at hend
  exact hne hend

/-- The trees of a range are changed, each in its turn. -/
theorem foldl_rooted (hstuck : ∀ a h, a.side.queue ≠ [] → f a h = a)
    (hturn : ∀ a h, a.side.queue = [] → ∃ t, (f a h).root = update a.root h t ∧ (Ip.Rooted e (a.root h) → Ip.Rooted e' t))
    (hend : (hs.foldl f a).side.queue = []) (hnodup : hs.Nodup) :
    (∀ h, h ∉ hs → (hs.foldl f a).root h = a.root h) ∧
      ∀ h ∈ hs, Ip.Rooted e (a.root h) → Ip.Rooted e' ((hs.foldl f a).root h) := by
  induction hs generalizing a with
  | nil => exact ⟨fun h _ => rfl, fun h hh => by cases hh⟩
  | cons k hs ih =>
    obtain ⟨hnot, hnodup⟩ := nodup_cons.1 hnodup
    obtain ⟨t, hroot, hrooted⟩ := hturn a k (foldl_through hstuck hend)
    obtain ⟨hother, hin⟩ := ih hend hnodup
    refine ⟨fun h hh => ?_, fun h hh ht => ?_⟩
    · rw [mem_cons, not_or] at hh
      rw [foldl_cons, hother h hh.2, hroot, update_of_ne hh.1]
    rw [foldl_cons]
    rcases mem_cons.1 hh with rfl | hh
    · rw [hother h hnot, hroot, update_self]
      exact hrooted ht
    · refine hin h hh ?_
      have hne : h ≠ k := fun heq => hnot (heq ▸ hh)
      rw [hroot, update_of_ne hne]
      exact ht

end Turns

section Calls

variable {T : Table} {f : Fs} {rounds : Nat}

theorem hash_lt (la : Nat) : hash la < 2 ^ 10 := by
  unfold hash
  omega

/-- The default route is in the trees of all the hashes. -/
theorem mem_hashes_default {h : Nat} (hh : h < 2 ^ 10) : h ∈ hashes 0 (2 ^ 32 - 1) := by
  unfold hashes hash
  rw [mem_range'_1]
  omega

theorem Side.Parts.empty (hs : s.queue = []) : s.Parts := fun t ht => by
  rw [hs] at ht
  cases ht

/-- Only a change of the range of the default route changes it, and that is made in all of the trees. -/
theorem Table.Rooted.changed {step : Adding → Nat → Adding} {sa ea : Nat} (hT : T.Rooted e)
    (hstuck : ∀ a h, a.side.queue ≠ [] → step a h = a)
    (hturn : ∃ e', (e' = e ∨ sa = 0 ∧ ea = 2 ^ 32 - 1) ∧ ∀ a h, a.side.queue = [] →
      ∃ t, (step a h).root = update a.root h t ∧ (Ip.Rooted e (a.root h) → Ip.Rooted e' t))
    (hend : ((hashes sa ea).foldl step ⟨T.root, f.side, f.next⟩).side.queue = []) (generation : Nat) :
    ∃ e', Table.Rooted ⟨((hashes sa ea).foldl step ⟨T.root, f.side, f.next⟩).root, generation⟩ e' := by
  obtain ⟨e', he, hturn⟩ := hturn
  obtain ⟨hother, hin⟩ := foldl_rooted hstuck hturn hend nodup_range'
  refine ⟨e', fun h hh => ?_⟩
  by_cases hmem : h ∈ hashes sa ea
  · exact hin h hmem (hT h hh)
  rcases he with rfl | ⟨rfl, rfl⟩
  · dsimp only
    rw [hother h hmem]
    exact hT h hh
  · exact absurd (mem_hashes_default hh) hmem

theorem add1route_stuck {turns sa ea type : Nat} {gate tag : List UInt8} (a : Adding) (h : Nat) (hne : a.side.queue ≠ []) :
    add1route turns sa ea type gate tag a h = a := by
  unfold add1route
  split
  · rfl
  · rename_i hqueue
    exact absurd hqueue hne

theorem del1route_stuck {turns : Nat} (a : Adding) (h : Nat) (hne : a.side.queue ≠ []) : del1route turns old a h = a := by
  unfold del1route
  split
  · rfl
  · rename_i hqueue
    exact absurd hqueue hne

theorem Table.Rooted.addroute (hT : T.Rooted e) (a mask : BitVec 32) (type : Nat) (gate tag : List UInt8)
    (hend : (T.addroute rounds f a mask type gate tag).2.side.queue = []) :
    ∃ e', (T.addroute rounds f a mask type gate tag).1.Rooted e' := by
  refine hT.changed add1route_stuck ?_ hend (T.generation + 1)
  let new (n : Nat) : Route := ⟨n, (rangeOf a mask).1, (rangeOf a mask).2, type, gate, tag, 1⟩
  by_cases hdefault : (rangeOf a mask).1 = 0 ∧ (rangeOf a mask).2 = 2 ^ 32 - 1
  · refine ⟨some (defaultAdd e type gate tag), .inr hdefault, fun b h hqueue => ?_⟩
    unfold add1route
    rw [hqueue]
    refine ⟨_, rfl, fun ht => ?_⟩
    obtain ⟨h1, h2⟩ := @Rooted.add_default (new b.next) (b.root h) b.side e ht hdefault rfl (Side.Parts.empty hqueue)
    exact h1.requeue h2
  · refine ⟨e, .inl rfl, fun b h hqueue => ?_⟩
    unfold add1route
    rw [hqueue]
    refine ⟨_, rfl, fun ht => ?_⟩
    have hnew : (new b.next).Part := ⟨(a &&& mask).isLt, (a ||| ~~~mask).isLt, hdefault⟩
    obtain ⟨h1, h2⟩ := ht.addnode hnew parts_nil (Side.Parts.empty hqueue)
    exact h1.requeue h2

theorem Table.Rooted.delroute (hT : T.Rooted e) (a mask : BitVec 32)
    (hend : (T.delroute rounds f a mask).2.side.queue = []) : ∃ e', (T.delroute rounds f a mask).1.Rooted e' := by
  refine hT.changed del1route_stuck ?_ hend (T.generation + 1)
  let old : Route := ⟨0, (rangeOf a mask).1, (rangeOf a mask).2, 0, [], [], 0⟩
  by_cases hdefault : (rangeOf a mask).1 = 0 ∧ (rangeOf a mask).2 = 2 ^ 32 - 1
  · refine ⟨defaultDel e, .inr hdefault, fun b h hqueue => ?_⟩
    unfold del1route
    rw [hqueue]
    refine ⟨_, rfl, fun ht => ?_⟩
    obtain ⟨h1, h2⟩ := @Rooted.del_default old (b.root h) b.side e ht hdefault (Side.Parts.empty hqueue)
    exact h1.requeue h2
  · refine ⟨e, .inl rfl, fun b h hqueue => ?_⟩
    unfold del1route
    rw [hqueue]
    refine ⟨_, rfl, fun ht => ?_⟩
    have hold : old.Part := ⟨(a &&& mask).isLt, (a ||| ~~~mask).isLt, hdefault⟩
    obtain ⟨h1, h2⟩ := ht.delnode hold (Side.Parts.empty hqueue)
    exact h1.requeue h2

theorem run_through {call : RouteCall} (hend : (call.run rounds f).side.queue = []) : f.side.queue = [] := by
  cases call with
  | v4add tag a mask gate type => exact foldl_through add1route_stuck hend
  | v6add tag a mask gate type => exact foldl_through add1route_stuck hend
  | v4del a mask => exact foldl_through del1route_stuck hend
  | v6del a mask => exact foldl_through del1route_stuck hend

theorem Table.Rooted.runs {calls : List RouteCall} (hT : f.v4.Rooted e)
    (hend : (calls.foldl (RouteCall.run rounds) f).side.queue = []) :
    ∃ e', (calls.foldl (RouteCall.run rounds) f).v4.Rooted e' := by
  induction calls generalizing f e with
  | nil => exact ⟨e, hT⟩
  | cons call calls ih =>
    have hthrough : ∀ {f : Fs}, (calls.foldl (RouteCall.run rounds) f).side.queue = [] → f.side.queue = [] := by
      clear ih hend
      induction calls with
      | nil => exact id
      | cons call calls ih => exact fun hend => run_through (ih hend)
    obtain ⟨e', hT'⟩ : ∃ e', (call.run rounds f).v4.Rooted e' := by
      cases call with
      | v4add tag a mask gate type => exact hT.addroute a mask ((rv4 ||| type) % 256) gate tag (hthrough hend)
      | v4del a mask => exact hT.delroute a mask (hthrough hend)
      | v6add tag a mask gate type => exact ⟨e, hT⟩
      | v6del a mask => exact ⟨e, hT⟩
    exact ih hT' hend

theorem Fs.init_rooted : Fs.init.v4.Rooted none := fun _ _ => .without parts_nil

end Calls

/-! ## The turns with one default route -/

theorem Rooted.lookwalk (ht : Rooted e t) (h : lookwalk la t none = some p) (hp : p.Default) : e = some p.entry := by
  have hpart : ∀ {u : RTree}, u.Parts → p ∉ u.routes := fun hu hmem => (hu p hmem).part hp
  cases ht with
  | without ht =>
    exact absurd ((lookwalk_mem h).resolve_right (Option.some_ne_none p).symm) (hpart ht)
  | @top x d m hx hm =>
    rcases mem_routes_node.1 ((lookwalk_mem h).resolve_right (Option.some_ne_none p).symm) with rfl | hmem | hmem | hmem
    · rfl
    · cases hmem
    · exact absurd hmem (hpart hm)
    · cases hmem

theorem Table.Rooted.again_eq (hT : net.fs.v4.Rooted e) (h : net.again w la = some g) :
    ∃ e', e = some e' ∧ g = nhgetl e'.gate := by
  unfold Net.again at h
  cases hq : net.fs.v4.walk la with
  | none =>
    rw [hq] at h
    cases h
  | some q =>
    rw [hq] at h
    dsimp only at h
    split at h
    · rename_i hdefault
      exact ⟨q.entry, (hT (hash la) (hash_lt la)).lookwalk hq hdefault.2, (some.inj h).symm⟩
    · cases h

theorem Table.Rooted.ends_iff (hT : net.fs.v4.Rooted e) :
    (∃ n, net.visit w n la = none) ↔ (net.again w la).bind (net.again w) = none := by
  refine ⟨fun ⟨n, hn⟩ => ?_, fun h => ⟨2, h⟩⟩
  cases hagain : net.again w la with
  | none => rfl
  | some g =>
    rw [bind_some]
    cases hagain' : net.again w g with
    | none => rfl
    | some g' =>
      -- The second turn leads to where it is, and so does each one after it.
      obtain ⟨e₁, he, rfl⟩ := hT.again_eq hagain
      obtain ⟨e', he', rfl⟩ := hT.again_eq hagain'
      obtain rfl := some.inj (he'.symm.trans he)
      have hround : ∀ k, net.visit w k (nhgetl e'.gate) = some (nhgetl e'.gate) := by
        intro k
        induction k with
        | zero => rfl
        | succ k ih => rw [Net.visit_succ hagain', ih]
      cases n with
      | zero => cases hn
      | succ n =>
        rw [Net.visit_succ hagain, hround] at hn
        cases hn

/-- The route that the conversation keeps is returned. -/
def Kept (net : Net) (c : Option Conv) : Prop := (c.filter (Conv.hit · net net.fs.v4)).isSome

theorem v4lookup_isSome (w : Ifaces) (net : Net) (a : Nat) (c : Option Conv) :
    (∃ turns, (v4lookup w turns net a c).isSome) ↔ Kept net c ∨ ∃ n, net.visit w n a = none := by
  rw [← v4find_ends]
  unfold v4lookup Kept
  cases c.filter (Conv.hit · net net.fs.v4) with
  | some kept => simp
  | none => simp

/-- In a table that calls have made, a lookup ends if and only if the conversation keeps its route, or one of the first two
turns finds no route, or one that is not a default route or gets an interface. -/
theorem v4lookup_ends_iff (w : Ifaces) (net : Net) (calls : List RouteCall) (rounds : Nat)
    (hnet : net.fs.v4 = (calls.foldl (RouteCall.run rounds) Fs.init).v4)
    (hend : (calls.foldl (RouteCall.run rounds) Fs.init).side.queue = []) (a : BitVec 32) (c : Option Conv) :
    (∃ turns, (v4lookup w turns net a.toNat c).isSome) ↔ Kept net c ∨ (net.again w a.toNat).bind (net.again w) = none := by
  obtain ⟨e, hT⟩ := Fs.init_rooted.runs hend
  rw [← hnet] at hT
  rw [v4lookup_isSome, hT.ends_iff]

/-- The turn of an address whose longest route has the range `k`. -/
theorem Table.Holds.again_of {R : RouteSet} {k : Nat × Nat} {e : Entry} (hT : net.fs.v4.Holds R) (hifc : ∀ n, net.ifc n = none)
    (hk : R k = some e) (hla : k.1 ≤ la ∧ la ≤ k.2)
    (hlongest : ∀ k' e', R k' = some e' → k'.1 ≤ la → la ≤ k'.2 → k'.1 ≤ k.1 ∧ k.2 ≤ k'.2) :
    net.again w la = if w.findipifc ( v4prefix ++ if rifc e.type then hnputl k.1 else e.gate) e.type = none ∧ k = (0, 2 ^ 32 - 1) then
      some (nhgetl e.gate) else none := by
  have hlong := hT.longest la
  unfold Net.again
  cases hq : net.fs.v4.walk la with
  | none =>
    rw [hq] at hlong
    exact absurd hla (hlong k e hk)
  | some q =>
    rw [hq] at hlong
    obtain ⟨hentry, hhas, hbest⟩ := hlong
    have h1 := hlongest q.key q.entry hentry hhas.1 hhas.2
    have h2 := hbest k e hk hla.1 hla.2
    have hkey : q.key = k := Prod.ext (Nat.le_antisymm h1.1 h2.1) (Nat.le_antisymm h2.2 h1.2)
    rw [hkey, hk] at hentry
    have hattach : net.attach w q (v4gate q) = none ↔
        w.findipifc ( v4prefix ++ if rifc e.type then hnputl k.1 else e.gate) e.type = none := by
      have hattached : net.attached w q = false := by rw [Net.attached, hifc]
      have hgate : v4gate q = v4prefix ++ if rifc e.type then hnputl k.1 else e.gate := by
        rw [some.inj hentry, ← hkey, v4gate, apply_ite ( v4prefix ++ ·)]
        rfl
      have htype : e.type = q.type := by rw [some.inj hentry, Route.entry]
      unfold Net.attach
      rw [hattached, if_neg Bool.false_ne_true, hgate, htype]
      cases w.findipifc _ q.type with
      | none => exact iff_of_true rfl rfl
      | some i => exact iff_of_false (Option.some_ne_none _) (Option.some_ne_none i)
    have hdefault : q.address = 0 ∧ q.endaddress = 2 ^ 32 - 1 ↔ k = (0, 2 ^ 32 - 1) := by
      rw [← hkey, Route.key, Prod.mk.injEq]
    exact if_congr (and_congr hattach hdefault) (by rw [some.inj hentry]; rfl) rfl

def byDefault : RouteCall := .v4add [] 0 0 [10, 0, 0, 1] 0

/-- A default route by way of 10.0.0.1, and no interface. -/
def lonely : Net := ⟨byDefault.run 3 Fs.init, fun _ => none⟩

def noIfaces : Ifaces := ⟨fun _ => 0, fun _ _ => none⟩

theorem lonely_again (la : BitVec 32) : lonely.again noIfaces la.toNat = some 0x0a000001 := by
  have hcall : byDefault.Contiguous := ⟨32, by decide, by decide⟩
  have hT : lonely.fs.v4.Holds (Routes.empty.after byDefault).v4 := (Fs.Holds.init.run (Nat.le_refl 3) hcall).v4
  rw [hT.again_of (fun _ => rfl) (k := (0, 2 ^ 32 - 1)) (e := ⟨1, [10, 0, 0, 1], [], 1⟩) rfl
    ⟨Nat.zero_le _, Nat.le_of_lt_succ la.isLt⟩ (fun k' e' hk' _ _ => ?_)]
  · rfl
  · have hR : (Routes.empty.after byDefault).v4 = update (fun _ => none) (0, 2 ^ 32 - 1) (some ⟨1, [10, 0, 0, 1], [], 1⟩) := rfl
    rw [hR, update_apply] at hk'
    split at hk'
    · rename_i heq
      rw [heq]
      exact ⟨Nat.le_refl _, Nat.le_refl _⟩
    · cases hk'

/-- The lookup of any address goes round for ever. -/
theorem v4lookup_lonely : ¬ ∃ turns, (v4lookup noIfaces turns lonely (8 : BitVec 32).toNat none).isSome := by
  rintro ⟨turns, hends⟩
  have hround : ∀ (turns : Nat) (la : BitVec 32), v4find noIfaces lonely turns la.toNat = none := by
    intro turns
    induction turns with
    | zero => exact fun _ => rfl
    | succ turns ih =>
      intro la
      rw [v4find_again (lonely_again la)]
      exact ih 0x0a000001
  rw [v4lookup, Option.filter_none] at hends
  rw [hround, Option.map_none] at hends
  cases hends

/-- An interface with the network 10.0.0.0/8. -/
def onTen : Ifaces := ⟨fun _ => 1, fun gate _ => if gate.take 13 = v4prefix ++ [10] then some 0 else none⟩

/-- The network 10.0.0.0/8 is attached, 192.168.0.0/16 is behind 10.0.0.1, and the default route is by way of `gate`. -/
def behindTen (gate : List UInt8) : List RouteCall :=
  [.v4add [] 0x0a000000 0xff000000 [0, 0, 0, 0] 2, .v4add [] 0xc0a80000 0xffff0000 [10, 0, 0, 1] 0, .v4add [] 0 0 gate 0]

def ten (gate : List UInt8) : Net := ⟨(behindTen gate).foldl (RouteCall.run 3) Fs.init, fun _ => none⟩

def tenRoutes (gate : List UInt8) : RouteSet :=
  update (update (update (fun _ => none) (0x0a000000, 0x0affffff) (some ⟨3, [0, 0, 0, 0], [], 1⟩))
    (0xc0a80000, 0xc0a8ffff) (some ⟨1, [10, 0, 0, 1], [], 1⟩)) (0, 2 ^ 32 - 1) (some ⟨1, gate, [], 1⟩)

theorem ten_holds (gate : List UInt8) : (ten gate).fs.Holds ((behindTen gate).foldl Routes.after Routes.empty) := by
  refine Fs.Holds.runs (Nat.le_refl 3) Fs.Holds.init fun call hcall => ?_
  simp only [behindTen, mem_cons, not_mem_nil, or_false] at hcall
  rcases hcall with rfl | rfl | rfl
  · exact ⟨24, by decide, by decide⟩
  · exact ⟨16, by decide, by decide⟩
  · exact ⟨32, by decide, by decide⟩

theorem tenRoutes_mem {gate : List UInt8} {k : Nat × Nat} {e : Entry} (h : tenRoutes gate k = some e) :
    k = (0, 2 ^ 32 - 1) ∨ k = (0xc0a80000, 0xc0a8ffff) ∨ k = (0x0a000000, 0x0affffff) := by
  simp only [tenRoutes, update_apply] at h
  grind

/-- The longest route of 8.8.8.8 is the default route. -/
theorem ten_again (gate : List UInt8) : (ten gate).again onTen (0x08080808 : BitVec 32).toNat =
    if onTen.findipifc ( v4prefix ++ gate) 1 = none then some (nhgetl gate) else none := by
  have hT : (ten gate).fs.v4.Holds (tenRoutes gate) := (ten_holds gate).v4
  rw [hT.again_of (fun _ => rfl) (k := (0, 2 ^ 32 - 1)) (e := ⟨1, gate, [], 1⟩) rfl (by decide) (fun k' e' hk' h1 h2 => ?_)]
  · have hgate : (if rifc 1 then hnputl 0 else gate) = gate := if_neg (by decide)
    dsimp only
    exact if_congr (by rw [hgate, and_iff_left rfl]) rfl rfl
  · rcases tenRoutes_mem hk' with rfl | rfl | rfl
    · exact ⟨Nat.le_refl _, Nat.le_refl _⟩
    · exact absurd h1 (by decide)
    · exact absurd h1 (by decide)

/-- The route of 192.168.0.1 is not a default route. -/
theorem ten_again_gateway : (ten [192, 168, 0, 1]).again onTen (0xc0a80001 : BitVec 32).toNat = none := by
  have hT : (ten [192, 168, 0, 1]).fs.v4.Holds (tenRoutes [192, 168, 0, 1]) := (ten_holds _).v4
  rw [hT.again_of (fun _ => rfl) (k := (0xc0a80000, 0xc0a8ffff)) (e := ⟨1, [10, 0, 0, 1], [], 1⟩) rfl (by decide)
    (fun k' e' hk' h1 h2 => ?_)]
  · exact if_neg fun h => absurd h.2 (by decide)
  · rcases tenRoutes_mem hk' with rfl | rfl | rfl
    · exact ⟨by decide, by decide⟩
    · exact ⟨Nat.le_refl _, Nat.le_refl _⟩
    · exact absurd h2 (by decide)

/-- The gateway of the default route is on the attached network, which is one turn, or behind a host of it, which is two. -/
theorem v4lookup_ends_attached :
    (∃ turns, (v4lookup onTen turns (ten [10, 0, 0, 1]) (0x08080808 : BitVec 32).toNat none).isSome) ∧
      ∃ turns, (v4lookup onTen turns (ten [192, 168, 0, 1]) (0x08080808 : BitVec 32).toNat none).isSome := by
  constructor
  · refine (v4lookup_ends_iff onTen (ten [10, 0, 0, 1]) (behindTen [10, 0, 0, 1]) 3 rfl (ten_holds _).queue _ none).2 (.inr ?_)
    rw [ten_again]
    rfl
  · refine (v4lookup_ends_iff onTen (ten [192, 168, 0, 1]) (behindTen [192, 168, 0, 1]) 3 rfl (ten_holds _).queue _ none).2
      (.inr ?_)
    have hfirst : (ten [192, 168, 0, 1]).again onTen (0x08080808 : BitVec 32).toNat = some (0xc0a80001 : BitVec 32).toNat := by
      rw [ten_again]
      rfl
    rw [hfirst, bind_some, ten_again_gateway]

end Plan9.Ip
